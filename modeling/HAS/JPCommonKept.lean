import HAS.JPCommonCounts

/-! What push_word keeps whether or not the cells are together: the texts that go into the lines
of a label stay short. -/
namespace HAS.JPCommon
open HAS.Bytes HAS.Text2mecab HAS.IRemocon HAS.Blocks

/-- An accent is an int. -/
def accentMax : Nat := 2 ^ 31

/-- A property that whatever push_word does to a label keeps, whether or not the cells are
together. -/
structure Kept (node : Node) (P : Label → Prop) : Prop where
  flag : ∀ label flag, P label → P { label with short_pause_flag := flag }
  pause : ∀ label, P label → P (insert_pause label)
  phoneme : ∀ label phoneme up, P label →
    ((∃ e ∈ jpcommon_mora_list, phoneme = ascii e.2.1 ∨ ∃ v ∈ e.2.2, phoneme = ascii v) ∨
      ∃ p ∈ label.phonemes, phoneme = p.phoneme) → P (label.pushPhoneme phoneme up)
  moras : ∀ label moras, P label → P { label with moras := moras }
  word : ∀ label pron, P label → P (label.pushWord pron node)
  extendWord : ∀ label, P label → P label.extendWord
  clear : ∀ label, P label → label.phonemes = [] →
    P { label with phonemes := [], moras := [], words := [] }
  unvoice : ∀ label first, P label → P (unvoice label first)
  question : ∀ label label', P label → question label = some label' → P label'
  accent : ∀ label label', P label → make_accent node label = some label' → P label'

theorem Kept.long_vowel {node : Node} {P : Label → Prop} (k : Kept node P) {label label' : Label}
    (h : P label) (hl : long_vowel label = some label') : P label' := by
  rw [JPCommon.long_vowel] at hl
  split at hl
  · exact Option.some.inj hl ▸ h
  · obtain ⟨p, hp, hl⟩ := Option.bind_eq_some_iff.mp hl
    obtain ⟨m, -, hl⟩ := Option.bind_eq_some_iff.mp hl
    obtain ⟨w, -, hl⟩ := Option.bind_eq_some_iff.mp hl
    rw [← Option.some.inj hl]
    exact k.extendWord _ (k.moras _ _ (k.phoneme _ _ _ (k.pause _ h)
      (.inr ⟨p, List.mem_of_getLast? hp, rfl⟩)))

theorem Kept.first_phoneme {node : Node} {P : Label → Prop} (k : Kept node P) {label label' : Label}
    (h : P label) {pron : List Byte} {e : String × String × Option String}
    (he : e ∈ jpcommon_mora_list) {first : Bool}
    (hl : first_phoneme node pron e.1 e.2.1 label first = some label') : P label' := by
  rw [JPCommon.first_phoneme] at hl
  have hpause := k.pause _ h
  split at hl
  · rw [← Option.some.inj hl]
    rename_i hnil
    have hnil' : (insert_pause label).phonemes = [] := by
      cases hflag : label.short_pause_flag with
      | false => rw [insert_pause_of_silent hflag, hnil]
      | true => simp [JPCommon.insert_pause, hflag, hnil]
    exact k.word _ _ (k.moras _ _ (k.phoneme _ _ _ (k.clear _ hpause hnil') (.inl ⟨e, he, .inl rfl⟩)))
  · split at hl
    · obtain ⟨m, -, hl⟩ := Option.bind_eq_some_iff.mp hl
      obtain ⟨w, -, hl⟩ := Option.bind_eq_some_iff.mp hl
      rw [← Option.some.inj hl]
      exact k.word _ _ (k.moras _ _ (k.phoneme _ _ _ hpause (.inl ⟨e, he, .inl rfl⟩)))
    · obtain ⟨m, -, hl⟩ := Option.bind_eq_some_iff.mp hl
      obtain ⟨w, -, hl⟩ := Option.bind_eq_some_iff.mp hl
      rw [← Option.some.inj hl]
      exact k.extendWord _ (k.moras _ _ (k.phoneme _ _ _ hpause (.inl ⟨e, he, .inl rfl⟩)))

theorem Kept.second_phoneme {node : Node} {P : Label → Prop} (k : Kept node P) {label : Label}
    (h : P label) {e : String × String × Option String} (he : e ∈ jpcommon_mora_list) :
    P (second_phoneme e.2.2 label) := by
  cases hv : e.2.2 with
  | none => exact h
  | some v => exact k.moras _ _ (k.phoneme _ _ _ (k.pause _ h) (.inl ⟨e, he, .inr ⟨v, hv, rfl⟩⟩))

theorem Kept.analysis {node : Node} {P : Label → Prop} (k : Kept node P) (pron : List Byte)
    {skip : Nat} {label label' : Label} {first first' : Bool} (h : P label)
    (hl : analysis node skip pron label first = some (label', first')) : P label' := by
  induction pron generalizing skip label first with
  | nil => cases skip <;> exact (Prod.mk.inj (Option.some.inj hl)).1 ▸ h
  | cons c pron ih =>
    cases skip with
    | succ skip => exact ih h hl
    | zero =>
      rw [JPCommon.analysis] at hl
      cases hlong : strtopcmp (c :: pron) JPCOMMON_MORA_LONG_VOWEL with
      | some find =>
        rw [hlong] at hl
        obtain ⟨l, hl', hl⟩ := Option.bind_eq_some_iff.mp hl
        exact ih (k.long_vowel h hl') hl
      | none =>
        rw [hlong] at hl
        cases hunvoice : strtopcmp (c :: pron) JPCOMMON_MORA_UNVOICE with
        | some find =>
          rw [hunvoice] at hl
          exact ih (k.unvoice _ _ h) hl
        | none =>
          rw [hunvoice] at hl
          cases hfind : find_mora (c :: pron) with
          | none =>
            rw [hfind] at hl
            exact (Prod.mk.inj (Option.some.inj hl)).1 ▸ h
          | some found =>
            rw [hfind] at hl
            obtain ⟨l, hl', hl⟩ := Option.bind_eq_some_iff.mp hl
            have he := find_mora_mem hfind
            exact ih (k.second_phoneme (k.first_phoneme h he hl') he) hl

theorem Kept.push_word {node : Node} {P : Label → Prop} (k : Kept node P) {label label' : Label}
    (h : P label) (hl : push_word label node = some label') : P label' := by
  rw [JPCommon.push_word] at hl
  split at hl
  · exact Option.some.inj hl ▸ k.flag _ _ h
  · split at hl
    · exact k.question _ _ h hl
    · obtain ⟨⟨l, f⟩, hl', hl⟩ := Option.bind_eq_some_iff.mp hl
      have h' := k.analysis _ h hl'
      dsimp only at hl
      split at hl
      · exact Option.some.inj hl ▸ h'
      · split at hl
        · exact Option.some.inj hl ▸ h'
        · split at hl
          · exact Option.some.inj hl ▸ h'
          · exact k.accent _ _ h' hl

/-- The texts that go into a line are short. -/
structure Short (label : Label) : Prop where
  phonemes : ∀ p ∈ label.phonemes, p.phoneme.length ≤ 3
  words : ∀ w ∈ label.words, w.pos.length ≤ 2 ∧ w.ctype.length ≤ 2 ∧ w.cform.length ≤ 2
  accents : ∀ a ∈ label.accents, (a.emotion.getD (ascii "xx")).length ≤ 2 ∧
    a.accent.natAbs ≤ accentMax

theorem Short.initial : Short {} where
  phonemes _ hp := absurd hp List.not_mem_nil
  words _ hw := absurd hw List.not_mem_nil
  accents _ ha := absurd ha List.not_mem_nil

theorem mem_modifyLast {α : Type*} {f : α → α} {l : List α} {x : α} (h : x ∈ l.modifyLast f) :
    x ∈ l ∨ ∃ y ∈ l, x = f y := by
  rcases List.eq_nil_or_concat' l with rfl | ⟨init, y, rfl⟩
  · exact .inl h
  · rw [List.modifyLast_concat] at h
    rcases List.mem_append.mp h with h | h
    · exact .inl (List.mem_append_left _ h)
    · exact .inr ⟨y, by simp, List.mem_singleton.mp h⟩

theorem lookup_length {list : List (String × String)} {n : Nat} (hn : ∀ e ∈ list, (ascii e.2).length ≤ n)
    (key : List Byte) : (lookup list key).length ≤ n := by
  unfold lookup
  split
  next e he => exact hn e (List.mem_of_find?_eq_some he)
  next =>
    cases list with
    | nil => exact Nat.zero_le n
    | cons e list => exact hn e List.mem_cons_self

theorem pos_length : ∀ e ∈ jpcommon_pos_list, (ascii e.2).length ≤ 2 := by decide +kernel
theorem ctype_length : ∀ e ∈ jpcommon_ctype_list, (ascii e.2).length ≤ 2 := by decide +kernel
theorem cform_length : ∀ e ∈ jpcommon_cform_list, (ascii e.2).length ≤ 2 := by decide +kernel
theorem unvoice_length : ∀ e ∈ jpcommon_unvoice_list, (ascii e.2).length ≤ 3 := by decide +kernel
theorem mora_length : ∀ e ∈ jpcommon_mora_list, (ascii e.2.1).length ≤ 3 ∧
    ∀ v ∈ e.2.2, (ascii v).length ≤ 3 := by
  decide +kernel

section Parts
variable {label label' : Label}

theorem Short.insert_pause (h : Short label) : Short (insert_pause label) := by
  unfold JPCommon.insert_pause
  split
  · split
    · split
      · exact h
      · refine ⟨fun p hp => ?_, h.words, h.accents⟩
        rcases List.mem_append.mp hp with hp | hp
        · exact h.phonemes p hp
        · rw [List.mem_singleton.mp hp]
          decide
    · exact ⟨h.phonemes, h.words, h.accents⟩
  · exact h

theorem Short.pushPhoneme (h : Short label) {phoneme : List Byte} (hlen : phoneme.length ≤ 3)
    (up : Nat) : Short (label.pushPhoneme phoneme up) := by
  refine ⟨fun p hp => ?_, h.words, h.accents⟩
  rcases List.mem_append.mp hp with hp | hp
  · exact h.phonemes p hp
  · rw [List.mem_singleton.mp hp]
    exact hlen

theorem Short.pushWord (h : Short label) (pron : List Byte) (node : Node) :
    Short (label.pushWord pron node) := by
  refine ⟨h.phonemes, fun w hw => ?_, h.accents⟩
  rcases List.mem_append.mp hw with hw | hw
  · exact h.words w hw
  · rw [List.mem_singleton.mp hw]
    exact ⟨lookup_length pos_length _, lookup_length ctype_length _, lookup_length cform_length _⟩

theorem Short.modifyWords (h : Short label) {f : Word → Word}
    (hf : ∀ w, (f w).pos = w.pos ∧ (f w).ctype = w.ctype ∧ (f w).cform = w.cform) :
    Short { label with words := label.words.modifyLast f } := by
  refine ⟨h.phonemes, fun w hw => ?_, h.accents⟩
  rcases mem_modifyLast hw with hw | ⟨v, hv, rfl⟩
  · exact h.words w hw
  · obtain ⟨h₁, h₂, h₃⟩ := hf v
    rw [h₁, h₂, h₃]
    exact h.words v hv

theorem Short.extendWord (h : Short label) : Short label.extendWord :=
  h.modifyWords fun _ => ⟨rfl, rfl, rfl⟩

theorem Short.setUp (h : Short label) (a : Nat) : Short (label.setUp a) :=
  h.modifyWords fun _ => ⟨rfl, rfl, rfl⟩

theorem Short.extendAccent (h : Short label) : Short label.extendAccent := by
  refine ⟨h.phonemes, h.words, fun a ha => ?_⟩
  rcases mem_modifyLast ha with ha | ⟨b, hb, rfl⟩
  · exact h.accents a ha
  · exact h.accents b hb

theorem Short.pushAccent (h : Short label) {acc : Int} (hacc : acc.natAbs ≤ accentMax) (up : Nat) :
    Short (label.pushAccent acc up) := by
  refine ⟨h.phonemes, h.words, fun a ha => ?_⟩
  rcases List.mem_append.mp ha with ha | ha
  · exact h.accents a ha
  · rw [List.mem_singleton.mp ha]
    exact ⟨Nat.le_refl 2, hacc⟩

theorem Short.breaths (h : Short label) (breaths : List BreathGroup) :
    Short { label with breaths := breaths } :=
  ⟨h.phonemes, h.words, h.accents⟩

theorem convert_unvoice_length {p : Phoneme} (hp : p.phoneme.length ≤ 3) :
    (convert_unvoice p).phoneme.length ≤ 3 := by
  unfold convert_unvoice
  split
  next e he => exact unvoice_length e (List.mem_of_find?_eq_some he)
  next => exact hp

theorem Short.unvoice (h : Short label) (is_first_word : Bool) :
    Short (unvoice label is_first_word) := by
  unfold JPCommon.unvoice
  split
  · refine ⟨fun p hp => ?_, h.words, h.accents⟩
    rcases mem_modifyLast hp with hp | ⟨q, hq, rfl⟩
    · exact h.phonemes p hp
    · exact convert_unvoice_length (h.phonemes q hq)
  · exact h

theorem mem_modify {α : Type*} {f : α → α} {l : List α} {i : Nat} {x : α} (h : x ∈ l.modify i f) :
    x ∈ l ∨ ∃ y ∈ l, x = f y := by
  obtain ⟨j, hj⟩ := List.mem_iff_getElem?.mp h
  rw [List.getElem?_modify] at hj
  obtain ⟨y, hy, hx⟩ := Option.map_eq_some_iff.mp hj
  split at hx
  · exact .inr ⟨y, List.mem_of_getElem? hy, hx.symm⟩
  · exact .inl (hx ▸ List.mem_of_getElem? hy)

theorem Short.question (h : Short label) (hl : question label = some label') : Short label' := by
  rw [JPCommon.question] at hl
  split at hl
  · exact Option.some.inj hl ▸ h
  · obtain ⟨i, -, hl⟩ := Option.bind_eq_some_iff.mp hl
    obtain ⟨u, -, hl⟩ := Option.bind_eq_some_iff.mp hl
    obtain ⟨a, -, hl⟩ := Option.bind_eq_some_iff.mp hl
    obtain ⟨x, -, hl⟩ := Option.bind_eq_some_iff.mp hl
    rw [← Option.some.inj hl]
    refine ⟨h.phonemes, h.words, fun y hy => ?_⟩
    rcases mem_modify hy with hy | ⟨z, hz, rfl⟩
    · exact h.accents y hy
    · obtain ⟨hlen, hacc⟩ := h.accents z hz
      refine ⟨?_, hacc⟩
      cases he : z.emotion with
      | none => exact Nat.le_succ 1
      | some e => simpa [he] using hlen

theorem Short.make_accent (h : Short label) {node : Node} (hacc : node.acc.natAbs ≤ accentMax)
    (hl : make_accent node label = some label') : Short label' := by
  rw [JPCommon.make_accent] at hl
  split at hl
  · rw [← Option.some.inj hl]
    have hclear : Short { label with accents := [], breaths := [] } :=
      ⟨h.phonemes, h.words, fun _ ha => absurd ha List.not_mem_nil⟩
    exact ((hclear.setUp 0).pushAccent hacc 0).breaths _
  · split at hl
    · obtain ⟨a, -, hl⟩ := Option.bind_eq_some_iff.mp hl
      rw [← Option.some.inj hl]
      exact (h.setUp _).extendAccent
    · obtain ⟨k, -, hl⟩ := Option.bind_eq_some_iff.mp hl
      obtain ⟨w, -, hl⟩ := Option.bind_eq_some_iff.mp hl
      obtain ⟨m, -, hl⟩ := Option.bind_eq_some_iff.mp hl
      obtain ⟨p, -, hl⟩ := Option.bind_eq_some_iff.mp hl
      obtain ⟨a, -, hl⟩ := Option.bind_eq_some_iff.mp hl
      obtain ⟨b, -, hl⟩ := Option.bind_eq_some_iff.mp hl
      dsimp only at hl
      split at hl
      · rw [← Option.some.inj hl]
        exact ((h.setUp _).pushAccent hacc _).breaths _
      · rw [← Option.some.inj hl]
        exact ((h.setUp _).pushAccent hacc _).breaths _

end Parts

theorem Short.kept {node : Node} (hacc : node.acc.natAbs ≤ accentMax) : Kept node Short where
  flag _ _ h := ⟨h.phonemes, h.words, h.accents⟩
  pause _ h := h.insert_pause
  phoneme label phoneme up h hspelled := by
    refine h.pushPhoneme ?_ up
    rcases hspelled with ⟨e, he, rfl | ⟨v, hv, rfl⟩⟩ | ⟨p, hp, rfl⟩
    · exact (mora_length e he).1
    · exact (mora_length e he).2 v hv
    · exact h.phonemes p hp
  moras _ _ h := ⟨h.phonemes, h.words, h.accents⟩
  word _ pron h := h.pushWord pron node
  extendWord _ h := h.extendWord
  clear _ h _ :=
    ⟨fun _ hp => absurd hp List.not_mem_nil, fun _ hw => absurd hw List.not_mem_nil, h.accents⟩
  unvoice _ first h := h.unvoice first
  question _ _ h hl := h.question hl
  accent _ _ h hl := h.make_accent hacc hl

end HAS.JPCommon

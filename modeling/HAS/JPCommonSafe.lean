import HAS.JPCommonMake

/-! Labels are made without following NULL exactly if no word clashes with a pause, and their
lines fit into the buffers. -/
namespace HAS.JPCommon
open HAS.Bytes HAS.Text2mecab HAS.IRemocon HAS.Blocks HAS.Stdio

/-- The phoneme of line i is the first one at the silence before the utterance and the last one
at the silence behind it. -/
theorem advance_eq {label : Label} (hne : label.phonemes ≠ []) (i : Nat) :
    advance label i (min (i - 1) (label.phonemes.length - 1)) =
      some (min (i + 1 - 1) (label.phonemes.length - 1)) := by
  have hpos := List.length_pos_iff.mpr hne
  unfold advance
  split
  · rw [next, if_pos (by omega)]
    congr 1
    omega
  · congr 1
    omega

section Lines
variable {label : Label} {K M D : Nat} (h : Sound label) (hs : Sizes label K M D)
include h hs

theorem feature_fits {i p : Nat} (hi : i ≤ label.phonemes.length + 1) (hp : p < label.phonemes.length) :
    Fits (17 * K + 28 * D + 81) (feature label i p) := by
  obtain ⟨x, hx⟩ : ∃ x, label.phonemes[p]? = some x := ⟨_, List.getElem?_eq_getElem hp⟩
  have hr := h.ready hx
  have hne : label.phonemes ≠ [] := List.ne_nil_of_length_pos (by omega)
  obtain ⟨t₀, e₀, l₀⟩ := quinphone_fits (i := i) hs hi
  obtain ⟨t₁, e₁, l₁⟩ := field_A_fits (i := i) h hs hr
  obtain ⟨t₂, e₂, l₂⟩ := field_B_fits (i := i) h hs hr
  obtain ⟨t₃, e₃, l₃⟩ := field_C_fits (i := i) h hs hr
  obtain ⟨t₄, e₄, l₄⟩ := field_D_fits (i := i) h hs hr
  obtain ⟨t₅, e₅, l₅⟩ := field_E_fits (i := i) h hs hr
  obtain ⟨t₆, e₆, l₆⟩ := field_F_fits (i := i) h hs hr
  obtain ⟨t₇, e₇, l₇⟩ := field_G_fits (i := i) h hs hr
  obtain ⟨t₈, e₈, l₈⟩ := field_H_fits (i := i) h hs hr
  obtain ⟨t₉, e₉, l₉⟩ := field_I_fits (i := i) h hs hr
  obtain ⟨t₁₀, e₁₀, l₁₀⟩ := field_J_fits (i := i) h hs hr
  obtain ⟨t₁₁, e₁₁, l₁₁⟩ := field_K_fits h hs hne
  refine ⟨[t₀, t₁, t₂, t₃, t₄, t₅, t₆, t₇, t₈, t₉, t₁₀, t₁₁].flatten, ?_, ?_⟩
  · simp [feature, hx, e₀, e₁, e₂, e₃, e₄, e₅, e₆, e₇, e₈, e₉, e₁₀, e₁₁]
  · simp only [List.flatten_cons, List.flatten_nil, List.length_append, List.length_nil]
    omega

theorem featuresFrom_fits (hne : label.phonemes ≠ []) {left i : Nat}
    (hleft : i + left = label.phonemes.length + 2) :
    ∃ lines, featuresFrom label left i (min (i - 1) (label.phonemes.length - 1)) = some lines ∧
      lines.length = left ∧ ∀ line ∈ lines, line.length ≤ 17 * K + 28 * D + 81 := by
  have hpos := List.length_pos_iff.mpr hne
  induction left generalizing i with
  | zero => exact ⟨[], rfl, rfl, fun line hline => absurd hline List.not_mem_nil⟩
  | succ left ih =>
    obtain ⟨line, hline, hlen⟩ := feature_fits h hs (i := i)
      (p := min (i - 1) (label.phonemes.length - 1)) (by omega) (by omega)
    obtain ⟨lines, hlines, hlength, hall⟩ := ih (i := i + 1) (by omega)
    refine ⟨line :: lines, ?_, by simp [hlength], ?_⟩
    · rw [featuresFrom, hline]
      simp only [Option.bind_eq_bind, Option.bind_some, advance_eq hne i, hlines]
    · intro x hx
      rcases List.mem_cons.mp hx with rfl | hx
      · exact hlen
      · exact hall x hx

theorem make_fits : ∃ lines, make label = some lines ∧
    lines.length = (if label.phonemes = [] then 0 else label.phonemes.length + 2) ∧
      ∀ line ∈ lines, line.length ≤ 17 * K + 28 * D + 81 := by
  unfold make
  split
  · exact ⟨[], rfl, rfl, fun line hline => absurd hline List.not_mem_nil⟩
  next hne => exact featuresFrom_fits h hs hne (i := 0) (by omega)

end Lines

theorem exists_bound {α : Type*} (f : α → Nat) (l : List α) : ∃ n, ∀ x ∈ l, f x ≤ n := by
  induction l with
  | nil => exact ⟨0, fun x hx => absurd hx List.not_mem_nil⟩
  | cons y l ih =>
    obtain ⟨n, hn⟩ := ih
    refine ⟨max n (f y), fun x hx => ?_⟩
    rcases List.mem_cons.mp hx with rfl | hx
    · exact Nat.le_max_right _ _
    · exact Nat.le_trans (hn x hx) (Nat.le_max_left _ _)

theorem exists_sizes (label : Label) : ∃ K M D, Sizes label K M D := by
  obtain ⟨k₁, h₁⟩ := exists_bound (fun p : Phoneme => p.phoneme.length) label.phonemes
  obtain ⟨k₂, h₂⟩ := exists_bound
    (fun w : Word => w.pos.length + w.ctype.length + w.cform.length) label.words
  obtain ⟨k₃, h₃⟩ := exists_bound
    (fun a : AccentPhrase => (a.emotion.getD (ascii "xx")).length) label.accents
  obtain ⟨k₄, h₄⟩ := exists_bound (fun a : AccentPhrase => a.accent.natAbs) label.accents
  refine ⟨3 + k₁ + k₂ + k₃, label.phonemes.length + 1 + k₄, label.phonemes.length + 1 + k₄ + 3, ?_⟩
  refine ⟨by omega, by omega, fun p hp => ?_, fun w hw => ?_, fun a ha => ?_, by omega,
    fun a ha => ?_, fun n hn => ?_⟩
  · have := h₁ p hp
    omega
  · have := h₂ w hw
    omega
  · have := h₃ a ha
    omega
  · have := h₄ a ha
    omega
  · have hlt := Nat.lt_pow_self (n := n.natAbs) (a := 10) (by decide)
    have hle := Nat.pow_le_pow_right (n := 10) (by decide)
      (show n.natAbs ≤ label.phonemes.length + 1 + k₄ + 2 by omega)
    exact decimal_length (by omega) (Nat.lt_of_lt_of_le hlt hle)

/-- A pause, and a phoneme that repeats it. -/
def Broken (label : Label) : Prop :=
  ∃ p x y, label.phonemes[p]? = some x ∧ x.up = none ∧ label.phonemes[p + 1]? = some y ∧
    y.phoneme = JPCOMMON_PHONEME_SHORT_PAUSE

theorem Broken.append {label label' : Label} {more : List Phoneme} (h : Broken label)
    (hp : label'.phonemes = label.phonemes ++ more) : Broken label' := by
  obtain ⟨p, x, y, hx, hup, hy, hpause⟩ := h
  have hlt := (List.getElem?_eq_some_iff.mp hy).1
  refine ⟨p, x, y, ?_, hup, ?_, hpause⟩
  · rw [hp, List.getElem?_append_left (by omega), hx]
  · rw [hp, List.getElem?_append_left hlt, hy]

theorem Broken.same {label label' : Label} (h : Broken label)
    (hp : label'.phonemes = label.phonemes) : Broken label' :=
  @Broken.append _ _ [] h (by rw [hp, List.append_nil])

theorem question_phonemes {label label' : Label} (hl : question label = some label') :
    label'.phonemes = label.phonemes := by
  rw [question] at hl
  split at hl
  · rw [← Option.some.inj hl]
  · obtain ⟨i, -, hl⟩ := Option.bind_eq_some_iff.mp hl
    obtain ⟨u, -, hl⟩ := Option.bind_eq_some_iff.mp hl
    obtain ⟨a, -, hl⟩ := Option.bind_eq_some_iff.mp hl
    obtain ⟨x, -, hl⟩ := Option.bind_eq_some_iff.mp hl
    rw [← Option.some.inj hl]

theorem make_accent_phonemes {node : Node} {label label' : Label}
    (hl : make_accent node label = some label') : label'.phonemes = label.phonemes := by
  rw [make_accent] at hl
  split at hl
  · rw [← Option.some.inj hl]
    rfl
  · split at hl
    · obtain ⟨a, -, hl⟩ := Option.bind_eq_some_iff.mp hl
      rw [← Option.some.inj hl]
      rfl
    · obtain ⟨k, -, hl⟩ := Option.bind_eq_some_iff.mp hl
      obtain ⟨w, -, hl⟩ := Option.bind_eq_some_iff.mp hl
      obtain ⟨m, -, hl⟩ := Option.bind_eq_some_iff.mp hl
      obtain ⟨p, -, hl⟩ := Option.bind_eq_some_iff.mp hl
      obtain ⟨a, -, hl⟩ := Option.bind_eq_some_iff.mp hl
      obtain ⟨b, -, hl⟩ := Option.bind_eq_some_iff.mp hl
      dsimp only at hl
      split at hl
      · rw [← Option.some.inj hl]
        rfl
      · rw [← Option.some.inj hl]
        rfl

theorem convert_unvoice_pause {p : Phoneme} (hp : p.phoneme = JPCOMMON_PHONEME_SHORT_PAUSE) :
    (convert_unvoice p).phoneme = JPCOMMON_PHONEME_SHORT_PAUSE := by
  have hfind : (jpcommon_unvoice_list.find? fun e => ascii e.1 = p.phoneme) = none := by
    rw [hp]
    decide
  rw [convert_unvoice, hfind, hp]

theorem Broken.unvoice {label : Label} (h : Broken label) (first : Bool) :
    Broken (unvoice label first) := by
  unfold JPCommon.unvoice
  split
  · obtain ⟨p, x, y, hx, hup, hy, hpause⟩ := h
    have hlt := (List.getElem?_eq_some_iff.mp hy).1
    obtain ⟨init, z, hz⟩ := (List.eq_nil_or_concat' label.phonemes).resolve_left
      (List.ne_nil_of_length_pos (by omega))
    rw [hz] at hx hy hlt
    rw [List.length_append, List.length_singleton] at hlt
    have hphonemes : label.phonemes.modifyLast convert_unvoice = init ++ [convert_unvoice z] := by
      rw [hz, List.modifyLast_concat]
    refine ⟨p, x, ?_⟩
    rw [List.getElem?_append_left (by omega)] at hx
    change ∃ y, (label.phonemes.modifyLast convert_unvoice)[p]? = some x ∧ _ ∧
      (label.phonemes.modifyLast convert_unvoice)[p + 1]? = some y ∧ _
    rw [hphonemes, List.getElem?_append_left (by omega)]
    rcases Nat.lt_or_ge (p + 1) init.length with hlt' | hge
    · rw [List.getElem?_append_left hlt'] at hy ⊢
      exact ⟨y, hx, hup, hy, hpause⟩
    · rw [List.getElem?_append_right hge, show p + 1 - init.length = 0 by omega] at hy ⊢
      obtain rfl : z = y := by simpa using hy
      exact ⟨convert_unvoice z, hx, hup, rfl, convert_unvoice_pause hpause⟩
  · exact h

theorem Broken.insert_pause {label : Label} (h : Broken label) : Broken (insert_pause label) := by
  unfold JPCommon.insert_pause
  split
  · split
    · split
      · exact h
      · exact h.append rfl
    · exact h.same rfl
  · exact h

theorem Broken.kept (node : Node) : Kept node Broken where
  flag _ _ h := h.same rfl
  pause _ h := h.insert_pause
  phoneme _ _ _ h _ := h.append rfl
  moras _ _ h := h.same rfl
  word _ _ h := h.same rfl
  extendWord _ h := h.same rfl
  clear label h hnil := by
    obtain ⟨p, x, y, hx, -⟩ := h
    simp [hnil] at hx
  unvoice _ first h := h.unvoice first
  question _ _ h hl := h.same (question_phonemes hl)
  accent _ _ h hl := h.same (make_accent_phonemes hl)

/-- Behind a pause a long vowel repeats it. -/
theorem long_vowel_broken {label label' : Label} (h : Sound label)
    (hflag : label.short_pause_flag = true) (hne : label.phonemes ≠ [])
    (hl : long_vowel label = some label') : Broken label' := by
  rw [long_vowel, if_neg hne, h.insert_pause hne] at hl
  obtain ⟨p, hp, hl⟩ := Option.bind_eq_some_iff.mp hl
  obtain ⟨m, -, hl⟩ := Option.bind_eq_some_iff.mp hl
  obtain ⟨w, -, hl⟩ := Option.bind_eq_some_iff.mp hl
  simp only [pauseCells, hflag, if_true, List.getLast?_concat, Option.some_inj] at hp
  subst hp
  rw [← Option.some.inj hl]
  refine ⟨label.phonemes.length, ⟨JPCOMMON_PHONEME_SHORT_PAUSE, none⟩,
    ⟨JPCOMMON_PHONEME_SHORT_PAUSE, some label.moras.length⟩, ?_, rfl, ?_, rfl⟩
  all_goals simp [Label.extendWord, Label.pushMora, Label.pushPhoneme, pauseCells, hflag]

theorem analysis_broken (node : Node) (pron : List Byte) {skip : Nat} {label label' : Label}
    {first : Bool} (h : Sound label) (hflag : label.short_pause_flag = true)
    (hne : label.phonemes ≠ []) (hopens : opensWithLongVowel skip pron = true)
    (hl : analysis node skip pron label true = some (label', first)) : Broken label' := by
  induction pron generalizing skip with
  | nil => cases skip <;> simp [opensWithLongVowel] at hopens
  | cons c pron ih =>
    cases skip with
    | succ skip => exact ih hopens hl
    | zero =>
      rw [analysis] at hl
      rw [opensWithLongVowel] at hopens
      cases hlong : strtopcmp (c :: pron) JPCOMMON_MORA_LONG_VOWEL with
      | some find =>
        rw [hlong] at hl
        obtain ⟨l, hl', hl⟩ := Option.bind_eq_some_iff.mp hl
        exact (Broken.kept node).analysis _ (long_vowel_broken h hflag hne hl') hl
      | none =>
        rw [hlong] at hl hopens
        cases hunvoice : strtopcmp (c :: pron) JPCOMMON_MORA_UNVOICE with
        | some find =>
          rw [hunvoice] at hl hopens
          have hsame : unvoice label true = label := by simp [unvoice]
          dsimp only at hl
          rw [hsame] at hl
          exact ih hopens hl
        | none =>
          rw [hunvoice] at hopens
          simp at hopens

theorem push_word_broken {label label' : Label} {node : Node} (h : Sound label)
    (hclash : clash label node = true) (hl : push_word label node = some label') :
    Broken label' := by
  obtain ⟨hflag, hne, hpause, hquestion, hopens⟩ := of_decide_eq_true hclash
  rw [push_word, if_neg hpause, if_neg hquestion] at hl
  obtain ⟨⟨l, f⟩, hl', hl⟩ := Option.bind_eq_some_iff.mp hl
  have hbroken := analysis_broken node node.pron h hflag hne hopens hl'
  dsimp only at hl
  split at hl
  · exact Option.some.inj hl ▸ hbroken
  · split at hl
    · exact Option.some.inj hl ▸ hbroken
    · split at hl
      · exact Option.some.inj hl ▸ hbroken
      · exact hbroken.same (make_accent_phonemes hl)

/-- The word before a repeated pause cannot be found. -/
theorem feature_broken {label : Label} {p i : Nat} {x y : Phoneme} (hx : label.phonemes[p]? = some x)
    (hup : x.up = none) (hy : label.phonemes[p + 1]? = some y)
    (hpause : y.phoneme = JPCOMMON_PHONEME_SHORT_PAUSE) : feature label i (p + 1) = none := by
  have hword : wordOf label p = none := by simp [wordOf, hx, hup]
  have hfield : field_B label i (p + 1) true = none := by
    simp [field_B, wordBeside, prev, hword]
  cases hq : quinphone label i with
  | none => simp [feature, hy, hq]
  | some q =>
    cases ha : field_A label i (p + 1) true with
    | none => simp [feature, hy, hpause, hq, ha]
    | some a => simp [feature, hy, hpause, hq, ha, hfield]

theorem featuresFrom_none {label : Label} (hne : label.phonemes ≠ []) {j : Nat}
    (hj : feature label j (min (j - 1) (label.phonemes.length - 1)) = none) {left i : Nat}
    (hij : i ≤ j) (hlt : j < i + left) :
    featuresFrom label left i (min (i - 1) (label.phonemes.length - 1)) = none := by
  induction left generalizing i with
  | zero => omega
  | succ left ih =>
    rw [featuresFrom]
    rcases Nat.lt_or_eq_of_le hij with hlt' | rfl
    · have hrest := ih (i := i + 1) (by omega) (by omega)
      cases feature label i (min (i - 1) (label.phonemes.length - 1)) with
      | none => rfl
      | some line =>
        simp only [Option.bind_eq_bind, Option.bind_some, advance_eq hne, hrest, Option.bind_none]
    · rw [hj]
      rfl

theorem Broken.make {label : Label} (h : Broken label) : make label = none := by
  obtain ⟨p, x, y, hx, hup, hy, hpause⟩ := h
  have hlt := (List.getElem?_eq_some_iff.mp hy).1
  have hne : label.phonemes ≠ [] := List.ne_nil_of_length_pos (by omega)
  rw [JPCommon.make, if_neg hne]
  refine featuresFrom_none hne (j := p + 2) (i := 0) ?_ (by omega) (by omega)
  rw [show min (p + 2 - 1) (label.phonemes.length - 1) = p + 1 by omega]
  exact feature_broken hx hup hy hpause

theorem Broken.foldlM {nodes : List Node} {label label' : Label} (h : Broken label)
    (hl : nodes.foldlM push_word label = some label') : Broken label' := by
  induction nodes generalizing label with
  | nil => exact Option.some.inj hl ▸ h
  | cons node nodes ih =>
    rw [List.foldlM_cons] at hl
    obtain ⟨l, hl', hl⟩ := Option.bind_eq_some_iff.mp hl
    exact ih ((Broken.kept node).push_word h hl') hl

theorem broken_of_clash {nodes : List Node} {label label' : Label} (h : Sound label)
    (hclash : ¬NoClash label nodes) (hl : nodes.foldlM push_word label = some label') :
    Broken label' := by
  induction nodes generalizing label with
  | nil => exact absurd trivial hclash
  | cons node nodes ih =>
    rw [List.foldlM_cons] at hl
    obtain ⟨l, hl', hl⟩ := Option.bind_eq_some_iff.mp hl
    cases hc : clash label node with
    | true => exact (push_word_broken h hc hl').foldlM hl
    | false =>
      obtain ⟨l', hl'', hsound⟩ := push_word_sound h hc
      obtain rfl : l' = l := Option.some.inj (hl''.symm.trans hl')
      refine ih hsound (fun hfine => hclash ⟨hc, fun k hk => ?_⟩) hl
      obtain rfl : l' = k := Option.some.inj (hl''.symm.trans hk)
      exact hfine

theorem noClash_of_make_label {nodes : List Node} {lines : List (List Byte)}
    (h : make_label nodes = some lines) : NoClash {} nodes := by
  obtain ⟨label, hlabel, hmake⟩ := Option.bind_eq_some_iff.mp h
  by_contra hclash
  rw [(broken_of_clash Sound.initial hclash hlabel).make] at hmake
  simp at hmake

end HAS.JPCommon

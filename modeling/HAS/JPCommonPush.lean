import HAS.JPCommonCells

/-! Pushing words: no NULL is followed and the cells stay together, as long as no word begins
with a long vowel right behind a pause. -/
namespace HAS.JPCommon
open HAS.Bytes HAS.Text2mecab HAS.Blocks

/-- The pronunciation begins with a long vowel, unvoice marks apart. -/
def opensWithLongVowel : Nat → List Byte → Bool
  | _, [] => false
  | skip + 1, _ :: pron => opensWithLongVowel skip pron
  | 0, c :: pron =>
    match strtopcmp (c :: pron) JPCOMMON_MORA_LONG_VOWEL with
    | some _ => true
    | none =>
      match strtopcmp (c :: pron) JPCOMMON_MORA_UNVOICE with
      | some find => opensWithLongVowel (find - 1) pron
      | none => false

/-- A long vowel that would repeat the pause before it. -/
def clash (label : Label) (node : Node) : Bool :=
  label.short_pause_flag ∧ label.phonemes ≠ [] ∧ node.pron ≠ JPCOMMON_MORA_SHORT_PAUSE ∧
    node.pron ≠ JPCOMMON_MORA_QUESTION ∧ opensWithLongVowel 0 node.pron

/-- No word clashes with a pause. -/
def NoClash : Label → List Node → Prop
  | _, [] => True
  | label, node :: nodes =>
    clash label node = false ∧ ∀ label', push_word label node = some label' → NoClash label' nodes

theorem noClash_cons_none {label : Label} {node : Node} {nodes : List Node}
    (h : push_word label node = none) : NoClash label (node :: nodes) ↔ clash label node = false :=
  ⟨fun hfine => hfine.1, fun hclash => ⟨hclash, fun _ hl => nomatch h.symm.trans hl⟩⟩

theorem noClash_cons_some {label label' : Label} {node : Node} {nodes : List Node}
    (h : push_word label node = some label') :
    NoClash label (node :: nodes) ↔ clash label node = false ∧ NoClash label' nodes :=
  ⟨fun hfine => ⟨hfine.1, hfine.2 label' h⟩,
    fun hfine => ⟨hfine.1, fun _ hl => Option.some.inj (h.symm.trans hl) ▸ hfine.2⟩⟩

instance decidableNoClash : (label : Label) → (nodes : List Node) → Decidable (NoClash label nodes)
  | _, [] => .isTrue trivial
  | label, node :: nodes =>
    match h : push_word label node with
    | none => decidable_of_iff _ (noClash_cons_none h).symm
    | some label' =>
      have := decidableNoClash label' nodes
      decidable_of_iff _ (noClash_cons_some h).symm

theorem mora_not_pause : ∀ e ∈ jpcommon_mora_list, ascii e.2.1 ≠ JPCOMMON_PHONEME_SHORT_PAUSE ∧
    ∀ v ∈ e.2.2, ascii v ≠ JPCOMMON_PHONEME_SHORT_PAUSE := by
  decide +kernel

theorem unvoice_not_pause : ∀ e ∈ jpcommon_unvoice_list,
    ascii e.2 ≠ JPCOMMON_PHONEME_SHORT_PAUSE := by
  decide

section Parts
variable {us : List (Option Nat)} {label label' : Label}

theorem Inv.words_eq_nil_iff (h : Inv us label) :
    (label.phonemes = [] ↔ label.moras = []) ∧ (label.moras = [] ↔ label.words = []) := by
  have h₁ := h.phonemes.up_eq_nil_iff
  have h₂ := h.moras.up_eq_nil_iff
  simp only [Label.phonemeUps, Label.moraEnds, Label.moraUps, Label.wordEnds,
    List.map_eq_nil_iff] at h₁ h₂
  exact ⟨h₁, h₂⟩

theorem Inv.last_not_pause (h : Inv us label) {p : Phoneme} (hp : label.phonemes.getLast? = some p) :
    p.phoneme ≠ JPCOMMON_PHONEME_SHORT_PAUSE := by
  intro hpause
  have hnone := (h.pauses p (List.mem_of_getLast? hp)).mp hpause
  have hlast := h.phonemes.last
  rw [Label.phonemeUps, List.getLast?_map, hp, Option.map_some, hnone] at hlast
  split at hlast <;> simp at hlast

/-- The pause that is put in when there is one pending. -/
def pauseCells (label : Label) : List Phoneme :=
  if label.short_pause_flag then [⟨JPCOMMON_PHONEME_SHORT_PAUSE, none⟩] else []

theorem insert_pause_of_silent (h : label.short_pause_flag = false) : insert_pause label = label := by
  simp [insert_pause, h]

theorem Inv.insert_pause (h : Inv us label) (hne : label.phonemes ≠ []) :
    insert_pause label = { label with
      phonemes := label.phonemes ++ pauseCells label
      short_pause_flag := false } := by
  cases hflag : label.short_pause_flag with
  | false =>
    rw [insert_pause_of_silent hflag, pauseCells, hflag, if_neg Bool.false_ne_true,
      List.append_nil, ← hflag]
  | true =>
    obtain ⟨init, p, hlast⟩ := (List.eq_nil_or_concat' label.phonemes).resolve_left hne
    have hp : label.phonemes.getLast? = some p := by rw [hlast, List.getLast?_concat]
    simp [JPCommon.insert_pause, pauseCells, hflag, hp, h.last_not_pause hp]

/-- A phoneme that is no pause, of a mora. -/
theorem pauses_append (h : Inv us label) {phoneme : List Byte} (up : Nat)
    (hne : phoneme ≠ JPCOMMON_PHONEME_SHORT_PAUSE) (gap : List Phoneme)
    (hgap : ∀ p ∈ gap, p = ⟨JPCOMMON_PHONEME_SHORT_PAUSE, none⟩) :
    ∀ p ∈ label.phonemes ++ gap ++ [⟨phoneme, some up⟩],
      p.phoneme = JPCOMMON_PHONEME_SHORT_PAUSE ↔ p.up = none := by
  intro p hp
  rcases List.mem_append.mp hp with hp | hp
  · rcases List.mem_append.mp hp with hp | hp
    · exact h.pauses p hp
    · rw [hgap p hp]
      simp
  · obtain rfl := List.mem_singleton.mp hp
    simp [hne]

/-- The first mora of a word. -/
theorem first_phoneme_opens (h : Sound label) (node : Node) (pron : List Byte) {mora phoneme : String}
    (hne : ascii phoneme ≠ JPCOMMON_PHONEME_SHORT_PAUSE) :
    ∃ label', first_phoneme node pron mora phoneme label true = some label' ∧ Open label' := by
  obtain ⟨hpm, hmw⟩ := h.words_eq_nil_iff
  by_cases hnil : label.phonemes = []
  · have hm := hpm.mp hnil
    have hw := hmw.mp hm
    have hlabel : insert_pause label = { label with short_pause_flag := false } := by
      cases hflag : label.short_pause_flag with
      | false => rw [insert_pause_of_silent hflag, ← hflag]
      | true => simp [insert_pause, hflag, hnil]
    have hus : label.wordUps = [] := by simp [Label.wordUps, hw]
    refine ⟨_, by rw [first_phoneme, if_pos hnil], ?_⟩
    refine ⟨by simp [hlabel, Label.pushPhoneme, Label.pushMora, Label.pushWord], label.wordUps, ?_, ?_⟩
    · simp [hlabel, Label.pushPhoneme, Label.pushMora, Label.pushWord, Label.wordUps, hw,
        word_initialise]
    · refine h.opened_word [] (by simp) (.inl rfl) ?_ ?_ ?_ ?_ ?_ ?_ ?_ ?_
      all_goals simp [hlabel, Label.pushPhoneme, Label.pushMora, Label.pushWord, Label.phonemeUps,
        Label.moraEnds, Label.moraUps, Label.wordEnds, Label.accentEnds, Label.accentUps,
        Label.breathEnds, hnil, hm, hw, word_initialise, hne]
  · have hm : label.moras ≠ [] := fun hm => hnil (hpm.mpr hm)
    have hw : label.words ≠ [] := fun hw => hm (hmw.mpr hw)
    obtain ⟨initM, m, hmoras⟩ := (List.eq_nil_or_concat' label.moras).resolve_left hm
    obtain ⟨initW, w, hwords⟩ := (List.eq_nil_or_concat' label.words).resolve_left hw
    have hlabel := h.insert_pause hnil
    refine ⟨_, by simp [first_phoneme, hnil, hlabel, hmoras, hwords]; rfl, ?_⟩
    refine ⟨by simp [Label.pushPhoneme, Label.pushMora, Label.pushWord], label.wordUps, ?_, ?_⟩
    · simp [Label.pushPhoneme, Label.pushMora, Label.pushWord, Label.wordUps, hwords,
        word_initialise]
    · refine h.opened_word ((pauseCells label).map (·.up)) (by simp) ?_ ?_ ?_ ?_ ?_ ?_ ?_ ?_ ?_
      · unfold pauseCells
        split
        · exact .inr ⟨rfl, hw⟩
        · exact .inl rfl
      · simp [Label.pushPhoneme, Label.pushMora, Label.pushWord, Label.phonemeUps, hmoras]
      · simp [Label.pushPhoneme, Label.pushMora, Label.pushWord, Label.moraEnds, hmoras]
      · simp [Label.pushPhoneme, Label.pushMora, Label.pushWord, Label.moraUps, hmoras, hwords]
      · simp [Label.pushPhoneme, Label.pushMora, Label.pushWord, Label.wordEnds, hmoras, hwords,
          word_initialise]
      · rfl
      · rfl
      · rfl
      · refine pauses_append h _ hne _ fun p hp => ?_
        unfold pauseCells at hp
        split at hp
        · exact List.mem_singleton.mp hp
        · exact absurd hp List.not_mem_nil

/-- A word that is not complete has moras and phonemes. -/
theorem Open.split (h : Open label) : ∃ us initP p initM m initW w,
    label.wordUps = us ++ [none] ∧ Inv us label ∧ label.phonemes = initP ++ [p] ∧
      label.moras = initM ++ [m] ∧ label.words = initW ++ [w] := by
  obtain ⟨-, us, hus, hinv⟩ := h
  obtain ⟨hpm, hmw⟩ := hinv.words_eq_nil_iff
  have hw : label.words ≠ [] := by
    rintro hw
    simp [Label.wordUps, hw] at hus
  have hm : label.moras ≠ [] := fun hm => hw (hmw.mp hm)
  obtain ⟨initP, p, hp⟩ := (List.eq_nil_or_concat' label.phonemes).resolve_left fun hp => hm (hpm.mp hp)
  obtain ⟨initM, m, hm⟩ := (List.eq_nil_or_concat' label.moras).resolve_left hm
  obtain ⟨initW, w, hw⟩ := (List.eq_nil_or_concat' label.words).resolve_left hw
  exact ⟨us, initP, p, initM, m, initW, w, hus, hinv, hp, hm, hw⟩

/-- One more mora, without a pause, for the last word. -/
theorem Inv.push_extend (h : Inv us label) {initM : List Mora} {m : Mora} {initW : List Word}
    {w : Word} (hm : label.moras = initM ++ [m]) (hw : label.words = initW ++ [w])
    {phoneme : List Byte} (hne : phoneme ≠ JPCOMMON_PHONEME_SHORT_PAUSE) (mora : List Byte) :
    Inv us (((label.pushPhoneme phoneme label.moras.length).pushMora mora m.up).extendWord) ∧
      ((label.pushPhoneme phoneme label.moras.length).pushMora mora m.up).extendWord.wordUps =
        label.wordUps := by
  have hup : m.up = initW.length := by
    have hlast := h.moras.last
    simpa [Label.moraUps, Label.wordEnds, hm, hw] using hlast
  constructor
  · refine h.extended_word (initW.map fun w => (w.head, w.tail)) (w.head, w.tail)
      ?_ ?_ ?_ ?_ ?_ rfl rfl rfl ?_
    · simp [Label.wordEnds, hw]
    · simp [Label.pushPhoneme, Label.pushMora, Label.extendWord, Label.phonemeUps]
    · simp [Label.pushPhoneme, Label.pushMora, Label.extendWord, Label.moraEnds]
    · simp [Label.pushPhoneme, Label.pushMora, Label.extendWord, Label.moraUps, hup]
    · simp [Label.pushPhoneme, Label.pushMora, Label.extendWord, Label.wordEnds, hw,
        List.modifyLast_concat]
    · have hpau := pauses_append h label.moras.length hne [] (by simp)
      rw [List.append_nil] at hpau
      exact hpau
  · simp [Label.pushPhoneme, Label.pushMora, Label.extendWord, Label.wordUps, hw,
      List.modifyLast_concat]

/-- A further mora of a word. -/
theorem first_phoneme_extends (h : Open label) (node : Node) (pron : List Byte)
    {mora phoneme : String} (hne : ascii phoneme ≠ JPCOMMON_PHONEME_SHORT_PAUSE) :
    ∃ label', first_phoneme node pron mora phoneme label false = some label' ∧ Open label' := by
  have hsilent := insert_pause_of_silent h.1
  obtain ⟨us, initP, p, initM, m, initW, w, hus, hinv, hp, hm, hw⟩ := h.split
  obtain ⟨hinv', hups⟩ := hinv.push_extend hm hw hne (utf8 mora)
  refine ⟨_, ?_, ?_, us, hups.trans hus, hinv'⟩
  · have hnil : label.phonemes ≠ [] := by simp [hp]
    rw [first_phoneme, if_neg hnil, if_neg Bool.false_ne_true, hsilent]
    simp [hm, hw]
  · exact h.1

/-- The second phoneme of a mora. -/
theorem second_phoneme_extends (h : Open label) {phoneme : String}
    (hne : ascii phoneme ≠ JPCOMMON_PHONEME_SHORT_PAUSE) :
    Open (second_phoneme (some phoneme) label) := by
  have hsilent := insert_pause_of_silent h.1
  obtain ⟨us, initP, p, initM, m, initW, w, hus, hinv, hp, hm, hw⟩ := h.split
  rw [second_phoneme, hsilent]
  refine ⟨h.1, us, hus, ?_⟩
  refine hinv.extended_mora (initM.map fun m => (m.head, m.tail)) (m.head, m.tail)
    ?_ ?_ ?_ ?_ rfl rfl rfl rfl ?_
  · simp [Label.moraEnds, hm]
  · simp [Label.pushPhoneme, Label.extendMora, Label.phonemeUps, hm]
  · simp [Label.pushPhoneme, Label.extendMora, Label.moraEnds, hm, List.modifyLast_concat]
  · simp [Label.pushPhoneme, Label.extendMora, Label.moraUps, hm, List.modifyLast_concat]
  · have hpau := pauses_append hinv (label.moras.length - 1) hne [] (by simp)
    rw [List.append_nil] at hpau
    exact hpau

theorem long_vowel_inv (h : Inv us label) (hflag : label.short_pause_flag = false) :
    ∃ label', long_vowel label = some label' ∧ Inv us label' ∧ label'.wordUps = label.wordUps ∧
      label'.short_pause_flag = false := by
  by_cases hnil : label.phonemes = []
  · exact ⟨label, by simp [long_vowel, hnil], h, rfl, hflag⟩
  · obtain ⟨hpm, hmw⟩ := h.words_eq_nil_iff
    obtain ⟨initP, p, hp⟩ := (List.eq_nil_or_concat' label.phonemes).resolve_left hnil
    obtain ⟨initM, m, hm⟩ := (List.eq_nil_or_concat' label.moras).resolve_left
      fun hm => hnil (hpm.mpr hm)
    obtain ⟨initW, w, hw⟩ := (List.eq_nil_or_concat' label.words).resolve_left
      fun hw => hnil (hpm.mpr (hmw.mpr hw))
    have hne := h.last_not_pause (p := p) (by rw [hp, List.getLast?_concat])
    obtain ⟨hinv, hups⟩ := h.push_extend hm hw hne JPCOMMON_MORA_LONG_VOWEL
    refine ⟨_, ?_, hinv, hups, hflag⟩
    rw [long_vowel, if_neg hnil, insert_pause_of_silent hflag]
    simp [hp, hm, hw]

theorem convert_unvoice_up (p : Phoneme) : (convert_unvoice p).up = p.up := by
  unfold convert_unvoice
  split <;> rfl

theorem convert_unvoice_not_pause {p : Phoneme} (hp : p.phoneme ≠ JPCOMMON_PHONEME_SHORT_PAUSE) :
    (convert_unvoice p).phoneme ≠ JPCOMMON_PHONEME_SHORT_PAUSE := by
  unfold convert_unvoice
  split
  next e he => exact unvoice_not_pause e (List.mem_of_find?_eq_some he)
  next => exact hp

theorem unvoice_open (h : Open label) : Open (unvoice label false) := by
  obtain ⟨us, initP, p, initM, m, initW, w, hus, hinv, hp, hm, hw⟩ := h.split
  have hlast := hinv.last_not_pause (p := p) (by rw [hp, List.getLast?_concat])
  have hphonemes : (unvoice label false).phonemes = initP ++ [convert_unvoice p] := by
    simp [unvoice, hp, List.modifyLast_concat]
  have hups : (unvoice label false).phonemeUps = label.phonemeUps := by
    simp [Label.phonemeUps, hphonemes, hp, convert_unvoice_up]
  have heq : unvoice label false = { label with phonemes := initP ++ [convert_unvoice p] } := by
    simp [unvoice, hp, List.modifyLast_concat]
  refine ⟨by rw [heq]; exact h.1, us, by rw [heq]; exact hus, ?_⟩
  refine hinv.congr hups (by rw [heq]; rfl) (by rw [heq]; rfl) (by rw [heq]; rfl) (by rw [heq]; rfl)
    (by rw [heq]; rfl) (by rw [heq]; rfl) fun q hq => ?_
  rw [hphonemes] at hq
  rcases List.mem_append.mp hq with hq | hq
  · exact hinv.pauses q (by rw [hp]; exact List.mem_append_left _ hq)
  · obtain rfl := List.mem_singleton.mp hq
    rw [convert_unvoice_up, ← hinv.pauses p (by rw [hp]; simp)]
    exact iff_of_false (convert_unvoice_not_pause hlast) hlast

/-- What the loop over a pronunciation starts from, keeps and ends in. -/
def Within (label : Label) (is_first_word : Bool) : Prop :=
  if is_first_word then Sound label else Open label

theorem long_vowel_within {is_first_word : Bool} (h : Within label is_first_word)
    (hflag : is_first_word = true → label.phonemes ≠ [] → label.short_pause_flag = false) :
    ∃ label', long_vowel label = some label' ∧ Within label' is_first_word ∧
      (is_first_word = true → label'.phonemes ≠ [] → label'.short_pause_flag = false) := by
  cases is_first_word with
  | false =>
    obtain ⟨hsilent, us, hus, hinv⟩ : Open label := h
    obtain ⟨label', hlabel', hinv', hups, hsilent'⟩ := long_vowel_inv hinv hsilent
    exact ⟨label', hlabel', ⟨hsilent', us, hups.trans hus, hinv'⟩, fun h => nomatch h⟩
  | true =>
    by_cases hnil : label.phonemes = []
    · exact ⟨label, by simp [long_vowel, hnil], h, fun _ hne => absurd hnil hne⟩
    · obtain ⟨label', hlabel', hinv', hups, hsilent'⟩ := long_vowel_inv h (hflag rfl hnil)
      refine ⟨label', hlabel', ?_, fun _ _ => hsilent'⟩
      change Inv label'.wordUps label'
      rw [hups]
      exact hinv'

theorem find_mora_mem {pron : List Byte} {e : String × String × Option String} {find : Nat}
    (h : find_mora pron = some (e, find)) : e ∈ jpcommon_mora_list := by
  obtain ⟨e', he', hmap⟩ := List.exists_of_findSome?_eq_some h
  obtain ⟨n, -, heq⟩ := Option.map_eq_some_iff.mp hmap
  obtain ⟨rfl, -⟩ := Prod.mk.inj heq
  exact he'

/-- No mora of the list is an earlier one with something behind it. -/
theorem mora_list_ordered : jpcommon_mora_list.Pairwise fun e e' => ¬utf8 e.1 <+: utf8 e'.1 := by
  decide +kernel

/-- The first mora of the list that fits is the longest one that does. -/
theorem find_mora_longest {pron : List Byte} {e e' : String × String × Option String} {n n' : Nat}
    (h : find_mora pron = some (e, n)) (he' : e' ∈ jpcommon_mora_list)
    (h' : strtopcmp pron (utf8 e'.1) = some n') : n' ≤ n := by
  obtain ⟨l₁, x, l₂, hlist, hx, hfirst⟩ := List.findSome?_eq_some_iff.mp h
  obtain ⟨k, hk, heq⟩ := Option.map_eq_some_iff.mp hx
  obtain ⟨rfl, rfl⟩ := Prod.mk.inj heq
  obtain ⟨hp, rfl⟩ := strtopcmp_eq_some hk
  obtain ⟨hp', rfl⟩ := strtopcmp_eq_some h'
  rw [hlist] at he'
  rcases List.mem_append.mp he' with hmem | hmem
  · have := hfirst e' hmem
    simp [h'] at this
  · rcases List.mem_cons.mp hmem with rfl | hmem
    · exact Nat.le_refl _
    · by_contra hlt
      have hpre := List.prefix_of_prefix_length_le hp hp' (by omega)
      have hordered := mora_list_ordered
      rw [hlist] at hordered
      have hpair := (List.pairwise_append.mp hordered).2.1
      exact (List.pairwise_cons.mp hpair).1 e' hmem hpre

theorem find_mora_longest_va :
    find_mora (utf8 "ヴァン") = some (("ヴァ", "v", some "a"), 6) ∧ 3 ≤ 6 := by
  have h : find_mora (utf8 "ヴァン") = some (("ヴァ", "v", some "a"), 6) := by decide +kernel
  have he : ("ヴ", "v", some "u") ∈ jpcommon_mora_list := by decide +kernel
  exact ⟨h, find_mora_longest h he (by decide +kernel)⟩

/-- A mora of the list, with one or two phonemes. -/
theorem mora_within {is_first_word : Bool} (h : Within label is_first_word) (node : Node)
    (pron : List Byte) {mora first : String} {second : Option String}
    (he : (mora, first, second) ∈ jpcommon_mora_list) :
    ∃ label', first_phoneme node pron mora first label is_first_word = some label' ∧
      Open (second_phoneme second label') := by
  obtain ⟨hfirst, hsecond⟩ := mora_not_pause _ he
  obtain ⟨label', hlabel', hopen⟩ :
      ∃ label', first_phoneme node pron mora first label is_first_word = some label' ∧ Open label' := by
    cases is_first_word with
    | true => exact first_phoneme_opens h node pron hfirst
    | false => exact first_phoneme_extends h node pron hfirst
  refine ⟨label', hlabel', ?_⟩
  cases second with
  | none => exact hopen
  | some phoneme => exact second_phoneme_extends hopen (hsecond phoneme rfl)

theorem analysis_within (node : Node) (pron : List Byte) (skip : Nat) {label : Label}
    (is_first_word : Bool) (h : Within label is_first_word)
    (hclash : is_first_word = true → label.phonemes ≠ [] →
      label.short_pause_flag = false ∨ opensWithLongVowel skip pron = false) :
    ∃ label' is_first_word', analysis node skip pron label is_first_word =
      some (label', is_first_word') ∧ Within label' is_first_word' := by
  induction pron generalizing skip label is_first_word with
  | nil => cases skip <;> exact ⟨label, is_first_word, rfl, h⟩
  | cons c pron ih =>
    cases skip with
    | succ skip => exact ih skip is_first_word h hclash
    | zero =>
      rw [analysis]
      rw [opensWithLongVowel] at hclash
      cases hlong : strtopcmp (c :: pron) JPCOMMON_MORA_LONG_VOWEL with
      | some find =>
        rw [hlong] at hclash
        obtain ⟨label', hlabel', hwithin, hsilent⟩ := long_vowel_within h fun hf hne =>
          (hclash hf hne).resolve_right (by simp)
        obtain ⟨l, f, hrest, hend⟩ := ih (find - 1) is_first_word hwithin
          fun hf hne => .inl (hsilent hf hne)
        exact ⟨l, f, by simp only [hlabel', Option.bind_eq_bind, Option.bind_some]; exact hrest, hend⟩
      | none =>
        rw [hlong] at hclash
        cases hunvoice : strtopcmp (c :: pron) JPCOMMON_MORA_UNVOICE with
        | some find =>
          rw [hunvoice] at hclash
          cases is_first_word with
          | true =>
            have hsame : unvoice label true = label := by simp [unvoice]
            dsimp only
            rw [hsame]
            exact ih (find - 1) true h hclash
          | false => exact ih (find - 1) false (unvoice_open h) fun hf => nomatch hf
        | none =>
          cases hfind : find_mora (c :: pron) with
          | none => exact ⟨label, is_first_word, rfl, h⟩
          | some found =>
            obtain ⟨⟨mora, first, second⟩, find⟩ := found
            obtain ⟨label', hlabel', hopen⟩ := mora_within h node (c :: pron) (find_mora_mem hfind)
            obtain ⟨l, f, hrest, hend⟩ := ih (find - 1) false hopen
              fun hf => nomatch hf
            exact ⟨l, f, by simp only [hlabel', Option.bind_eq_bind, Option.bind_some]; exact hrest, hend⟩

theorem Inv.moras_tight (_ : Inv us label) : Tight label.moraUps := by
  simp [Tight, Label.moraUps]

/-- Cells are found where their ends are. -/
theorem getElem?_moras {m h t : Nat} (hm : label.moraEnds[m]? = some (h, t)) :
    ∃ x, label.moras[m]? = some x ∧ x.head = h ∧ x.tail = t := by
  rw [Label.moraEnds, List.getElem?_map, Option.map_eq_some_iff] at hm
  obtain ⟨x, hx, heq⟩ := hm
  obtain ⟨rfl, rfl⟩ := Prod.mk.inj heq
  exact ⟨x, hx, rfl, rfl⟩

theorem getElem?_moraEnds {m : Nat} {x : Mora} (hx : label.moras[m]? = some x) :
    label.moraEnds[m]? = some (x.head, x.tail) := by
  rw [Label.moraEnds, List.getElem?_map, hx, Option.map_some]

theorem getElem?_wordEnds {w : Nat} {x : Word} (hx : label.words[w]? = some x) :
    label.wordEnds[w]? = some (x.head, x.tail) := by
  rw [Label.wordEnds, List.getElem?_map, hx, Option.map_some]

theorem headAt_unique {ends : List (Nat × Nat)} {b h t h' : Nat} (hb : ends[b]? = some (h, t))
    (hh : HeadAt ends b h') : h' = h := by
  obtain ⟨t', ht'⟩ := hh
  rw [hb] at ht'
  exact (Prod.mk.inj (Option.some.inj ht')).1.symm

/-- What follows the word before the last one is a pause exactly if there is one before the
last word. -/
theorem Inv.behind (h : Inv us label) {k : Nat} (hk : k + 2 = label.words.length) :
    ∃ w m p, label.words[k]? = some w ∧ label.moras[w.tail]? = some m ∧
      label.phonemes[m.tail + 1]? = some p ∧
        ∀ a q, HeadAt label.wordEnds (k + 1) a → HeadAt label.moraEnds a q →
          (p.phoneme = JPCOMMON_PHONEME_SHORT_PAUSE ↔ label.phonemeUps[q - 1]? = some none) := by
  obtain ⟨w, hw⟩ : ∃ w, label.words[k]? = some w := ⟨_, List.getElem?_eq_getElem (by omega)⟩
  obtain ⟨w', hw'⟩ : ∃ w', label.words[k + 1]? = some w' := ⟨_, List.getElem?_eq_getElem (by omega)⟩
  have hends := getElem?_wordEnds hw
  have hends' := getElem?_wordEnds hw'
  have hnext := h.moras.head_next h.moras_tight hends hends'
  have htail := h.moras.tail_lt hends'
  have hle := h.moras.nonempty _ _ _ hends'
  rw [Label.length_moraUps] at htail
  obtain ⟨m, hm⟩ : ∃ m, label.moras[w.tail]? = some m := ⟨_, List.getElem?_eq_getElem (by omega)⟩
  obtain ⟨m', hm'⟩ : ∃ m', label.moras[w.tail + 1]? = some m' :=
    ⟨_, List.getElem?_eq_getElem (by omega)⟩
  have hmends := getElem?_moraEnds hm
  have hmends' := getElem?_moraEnds hm'
  have hlt := h.phonemes.ordered _ _ _ _ _ hmends hmends'
  have htail' := h.phonemes.tail_lt hmends'
  have hle' := h.phonemes.nonempty _ _ _ hmends'
  rw [Label.length_phonemeUps] at htail'
  obtain ⟨p, hp⟩ : ∃ p, label.phonemes[m.tail + 1]? = some p :=
    ⟨_, List.getElem?_eq_getElem (by omega)⟩
  refine ⟨w, m, p, hw, hm, hp, fun a q ha hq => ?_⟩
  rw [headAt_unique hends' ha, hnext] at hq
  rw [headAt_unique hmends' hq, h.pause_iff hp]
  exact h.pause_behind_iff hmends hmends'

@[simp] theorem setUp_accents (a : Nat) : (label.setUp a).accents = label.accents := rfl
@[simp] theorem setUp_breaths (a : Nat) : (label.setUp a).breaths = label.breaths := rfl

/-- A complete word is given its accent phrase. -/
theorem Open.setUp (h : Open label) : ∃ us, Inv us label ∧ label.words.length = us.length + 1 ∧
    ∀ a, (label.setUp a).wordUps = us ++ [some a] ∧ (label.setUp a).wordEnds = label.wordEnds ∧
      (label.setUp a).words.length = us.length + 1 := by
  obtain ⟨us, initP, p, initM, m, initW, w, hus, hinv, hp, hm, hw⟩ := h.split
  have hinit : initW.map (·.up) = us := by
    simp only [Label.wordUps, hw, List.map_append, List.map_cons, List.map_nil] at hus
    exact (List.append_inj' hus rfl).1
  have hlen : us.length = initW.length := by rw [← hinit, List.length_map]
  refine ⟨us, hinv, by simp [hw, hlen], fun a => ⟨?_, ?_, ?_⟩⟩
  · simp [Label.setUp, Label.wordUps, hw, List.modifyLast_concat, hinit]
  · simp [Label.setUp, Label.wordEnds, hw, List.modifyLast_concat]
  · simp [Label.setUp, hw, List.modifyLast_concat, hlen]

theorem Inv.accents_eq_nil_iff (h : Inv us label) :
    (us = [] ↔ label.accents = []) ∧ (label.accents = [] ↔ label.breaths = []) := by
  have h₁ := h.words.up_eq_nil_iff
  have h₂ := h.accents.up_eq_nil_iff
  simp only [Label.accentEnds, Label.accentUps, Label.breathEnds, List.map_eq_nil_iff] at h₁ h₂
  exact ⟨h₁, h₂⟩

theorem make_accent_first (h : Open label) (node : Node) (hone : label.words.length = 1) :
    ∃ label', make_accent node label = some label' ∧ Sound label' := by
  obtain ⟨us, hinv, hlen, hset⟩ := h.setUp
  obtain ⟨hups, hends, hlength⟩ := hset 0
  obtain rfl : us = [] := List.length_eq_zero_iff.mp (by omega)
  obtain ⟨hua, hab⟩ := hinv.accents_eq_nil_iff
  have ha := hua.mp rfl
  have hb := hab.mp ha
  have hsame : ({ label with accents := [], breaths := [] } : Label) = label := by
    rw [← ha, ← hb]
  refine ⟨((label.setUp 0).pushAccent node.acc 0).pushBreath, ?_, ?_⟩
  · rw [make_accent, if_pos hone]
    exact congrArg (fun l => some (((Label.setUp l 0).pushAccent node.acc 0).pushBreath)) hsame
  · have hfull := Full.nil.full_opened
    have hinv' := hinv.opened_accent ((label.setUp 0).pushAccent node.acc 0).pushBreath (b := 0)
      ⟨rfl, rfl, hends⟩
      (by simp [hone]) (by simp [Label.accentEnds, Label.pushBreath, Label.pushAccent, hlength])
      (by simp [Label.accentUps, Label.pushBreath, Label.pushAccent])
      (by simpa [Label.accentUps, Label.breathEnds, Label.pushBreath, Label.pushAccent, ha, hb]
        using hfull)
      (by simp [Label.accentUps, ha])
    rw [ha, List.length_nil, ← hups] at hinv'
    exact hinv'

theorem make_accent_chain (h : Open label) (node : Node) (hone : label.words.length ≠ 1)
    (hchain : node.chain_flag = 1) :
    ∃ label', make_accent node label = some label' ∧ Sound label' := by
  obtain ⟨us, hinv, hlen, hset⟩ := h.setUp
  have hne : label.accents ≠ [] := by
    rw [Ne, ← hinv.accents_eq_nil_iff.1]
    rintro rfl
    exact hone hlen
  obtain ⟨init, a, ha⟩ := (List.eq_nil_or_concat' label.accents).resolve_left hne
  obtain ⟨hups, hends, hlength⟩ := hset init.length
  refine ⟨(label.setUp init.length).extendAccent, ?_, ?_⟩
  · rw [make_accent, if_neg hone, if_pos hchain]
    simp [ha]
  · have hinv' := hinv.chained (label.setUp init.length).extendAccent
      (init.map fun a => (a.head, a.tail)) (a.head, a.tail) ⟨rfl, rfl, hends⟩ (by omega) (by simp [Label.accentEnds, ha])
      (by simp [Label.accentEnds, Label.extendAccent, ha, hlength, List.modifyLast_concat])
      (by simp [Label.accentUps, Label.extendAccent, ha, List.modifyLast_concat]) rfl
    rw [List.length_map, ← hups] at hinv'
    exact hinv'

theorem make_accent_opens (h : Open label) (node : Node) (hone : label.words.length ≠ 1)
    (hchain : node.chain_flag ≠ 1) :
    ∃ label', make_accent node label = some label' ∧ Sound label' := by
  obtain ⟨us, hinv, hlen, hset⟩ := h.setUp
  have hne : label.accents ≠ [] := by
    rw [Ne, ← hinv.accents_eq_nil_iff.1]
    rintro rfl
    exact hone hlen
  have hneB : label.breaths ≠ [] := by
    rw [Ne, ← hinv.accents_eq_nil_iff.2]
    exact hne
  obtain ⟨initA, a, ha⟩ := (List.eq_nil_or_concat' label.accents).resolve_left hne
  obtain ⟨initB, b, hb⟩ := (List.eq_nil_or_concat' label.breaths).resolve_left hneB
  obtain ⟨hups, hends, hlength⟩ := hset label.accents.length
  obtain ⟨k, hk⟩ : ∃ k, k + 2 = label.words.length := ⟨label.words.length - 2, by omega⟩
  obtain ⟨w, m, p, hw, hm, hp, hbehind⟩ := hinv.behind hk
  have hprev : prev (label.words.length - 1) = some k := by
    rw [show label.words.length - 1 = k + 1 by omega]
    rfl
  have hlast : label.accentUps.getLast? = some (some initB.length) := by
    have := hinv.accents.last
    simpa [Label.breathEnds, hb] using this
  have hk' : k + 1 = us.length := by omega
  rw [hk'] at hbehind
  by_cases hpause : p.phoneme = JPCOMMON_PHONEME_SHORT_PAUSE
  · refine ⟨((label.setUp label.accents.length).pushAccent node.acc label.breaths.length).pushBreath,
      ?_, ?_⟩
    · rw [make_accent, if_neg hone, if_neg hchain]
      simp [hprev, hw, hm, hp, hpause, ha, hb]
    · have hfull := hinv.accents.full_opened
      have hinv' := hinv.opened_accent
        ((label.setUp label.accents.length).pushAccent node.acc label.breaths.length).pushBreath
        (b := label.breaths.length) ⟨rfl, rfl, hends⟩ (by omega)
        (by simp [Label.accentEnds, Label.pushBreath, Label.pushAccent, hlength])
        (by simp [Label.accentUps, Label.pushBreath, Label.pushAccent])
        (by simpa [Label.accentUps, Label.breathEnds, Label.pushBreath, Label.pushAccent] using hfull)
        (by
          intro m' q x hm' hq hx
          rw [hlast] at hx
          obtain rfl := Option.some.inj hx
          rw [(hbehind m' q hm' hq).mp hpause]
          simp [hb])
      rw [← hups] at hinv'
      exact hinv'
  · refine ⟨((label.setUp label.accents.length).pushAccent node.acc
      (label.breaths.length - 1)).extendBreath, ?_, ?_⟩
    · rw [make_accent, if_neg hone, if_neg hchain]
      simp [hprev, hw, hm, hp, hpause, ha, hb]
    · have hacc := hinv.accents
      rw [show label.breathEnds = initB.map (fun b => (b.head, b.tail)) ++ [(b.head, b.tail)] by
        simp [Label.breathEnds, hb]] at hacc
      have hfull := hacc.extended
      have hinv' := hinv.opened_accent
        ((label.setUp label.accents.length).pushAccent node.acc
          (label.breaths.length - 1)).extendBreath (b := initB.length) ⟨rfl, rfl, hends⟩ (by omega)
        (by simp [Label.accentEnds, Label.extendBreath, Label.pushAccent, hlength])
        (by simp [Label.accentUps, Label.extendBreath, Label.pushAccent, hb])
        (by simpa [Label.accentUps, Label.breathEnds, Label.extendBreath, Label.pushAccent, hb,
          List.modifyLast_concat] using hfull)
        (by
          intro m' q x hm' hq hx
          rw [hlast] at hx
          obtain rfl := Option.some.inj hx
          exact iff_of_true rfl fun hgap => hpause ((hbehind m' q hm' hq).mpr hgap))
      rw [← hups] at hinv'
      exact hinv'

theorem make_accent_sound (h : Open label) (node : Node) :
    ∃ label', make_accent node label = some label' ∧ Sound label' := by
  by_cases hone : label.words.length = 1
  · exact make_accent_first h node hone
  · by_cases hchain : node.chain_flag = 1
    · exact make_accent_chain h node hone hchain
    · exact make_accent_opens h node hone hchain

/-- The cells above a phoneme. -/
structure Above (label : Label) (p m w a b : Nat) : Prop where
  phoneme : label.phonemeUps[p]? = some (some m)
  mora : label.moraUps[m]? = some (some w)
  word : label.wordUps[w]? = some (some a)
  accent : label.accentUps[a]? = some (some b)
  breath : b < label.breaths.length

theorem owner_of_tight {up : List (Option Nat)} (hup : Tight up) {i : Nat} (hi : i < up.length) :
    ∃ b, up[i]? = some (some b) := by
  cases hu : up[i] with
  | none => exact absurd (hu ▸ List.getElem_mem hi) hup
  | some b => exact ⟨b, by rw [List.getElem?_eq_getElem hi, hu]⟩

theorem Inv.accents_tight (_ : Inv us label) : Tight label.accentUps := by
  simp [Tight, Label.accentUps]

/-- Every phoneme but a pause belongs to a mora, a word, an accent phrase and a breath group. -/
theorem Sound.above_mora (h : Sound label) {p m : Nat} (hp : label.phonemeUps[p]? = some (some m)) :
    ∃ w a b, Above label p m w a b := by
  have hm := h.phonemes.block_lt hp
  rw [Label.length_moraEnds, ← Label.length_moraUps] at hm
  obtain ⟨w, hw⟩ := owner_of_tight h.moras_tight hm
  have hwlt := h.moras.block_lt hw
  rw [Label.length_wordEnds, ← Label.length_wordUps] at hwlt
  obtain ⟨a, ha⟩ := owner_of_tight h.tight hwlt
  have halt := h.words.block_lt ha
  rw [Label.length_accentEnds, ← Label.length_accentUps] at halt
  obtain ⟨b, hb⟩ := owner_of_tight h.accents_tight halt
  have hblt := h.accents.block_lt hb
  rw [Label.length_breathEnds] at hblt
  exact ⟨w, a, b, hp, hw, ha, hb, hblt⟩

theorem getElem?_of_map {α β : Type*} {f : α → β} {l : List α} {i : Nat} {y : β}
    (h : (l.map f)[i]? = some y) : ∃ x, l[i]? = some x ∧ f x = y := by
  rwa [List.getElem?_map, Option.map_eq_some_iff] at h

theorem Above.wordOf {p m w a b : Nat} (h : Above label p m w a b) : wordOf label p = some w := by
  obtain ⟨x, hx, hup⟩ := getElem?_of_map h.phoneme
  obtain ⟨y, hy, hup'⟩ := getElem?_of_map h.mora
  simp [JPCommon.wordOf, hx, hup, hy, Option.some.inj hup']

theorem Above.accentOf {p m w a b : Nat} (h : Above label p m w a b) :
    accentOf label p = some (some a) := by
  obtain ⟨x, hx, hup⟩ := getElem?_of_map h.word
  simp [JPCommon.accentOf, h.wordOf, hx, hup]

theorem Above.breathOf {p m w a b : Nat} (h : Above label p m w a b) :
    breathOf label p = some b := by
  obtain ⟨x, hx, hup⟩ := getElem?_of_map h.accent
  simp [JPCommon.breathOf, h.accentOf, hx, Option.some.inj hup]

/-- An emotion changes no cell. -/
theorem question_sound (h : Sound label) : ∃ label', question label = some label' ∧ Sound label' := by
  cases hlast : label.phonemes.getLast? with
  | none => exact ⟨label, by rw [question, hlast], h⟩
  | some x =>
    have hne := h.last_not_pause hlast
    have hget : label.phonemes[label.phonemes.length - 1]? = some x := by
      rw [← List.getLast?_eq_getElem?, hlast]
    obtain ⟨m, hm⟩ : ∃ m, label.phonemeUps[label.phonemes.length - 1]? = some (some m) := by
      have hup : x.up ≠ none := fun hup =>
        hne ((h.pauses x (List.mem_of_getLast? hlast)).mpr hup)
      obtain ⟨m, hm⟩ := Option.ne_none_iff_exists'.mp hup
      exact ⟨m, by rw [Label.phonemeUps, List.getElem?_map, hget, Option.map_some, hm]⟩
    obtain ⟨w, a, b, habove⟩ := h.above_mora hm
    obtain ⟨y, hy, -⟩ := getElem?_of_map habove.accent
    have hmap : ∀ {β : Type} (f : AccentPhrase → β) (g : AccentPhrase → AccentPhrase),
        (∀ x, f (g x) = f x) → (label.accents.modify a g).map f = label.accents.map f := by
      intro β f g hfg
      refine List.ext_getElem? fun i => ?_
      rw [List.getElem?_map, List.getElem?_map, List.getElem?_modify]
      cases label.accents[i]? with
      | none => rfl
      | some x =>
        by_cases hi : a = i
        · simp [hi, hfg]
        · simp [hi]
    refine ⟨_, by simp [question, lastSpoken, hlast, hne, habove.accentOf, hy]; rfl, ?_⟩
    exact h.congr rfl rfl rfl rfl (hmap _ _ fun _ => rfl) (hmap _ _ fun _ => rfl) rfl h.pauses

theorem Sound.flag (h : Sound label) (flag : Bool) : Sound { label with short_pause_flag := flag } :=
  h.congr rfl rfl rfl rfl rfl rfl rfl h.pauses

/-- A word that does not clash follows no NULL, and the cells stay together. -/
theorem push_word_sound (h : Sound label) {node : Node} (hclash : clash label node = false) :
    ∃ label', push_word label node = some label' ∧ Sound label' := by
  by_cases hpause : node.pron = JPCOMMON_MORA_SHORT_PAUSE
  · exact ⟨_, by rw [push_word, if_pos hpause], h.flag true⟩
  · by_cases hquestion : node.pron = JPCOMMON_MORA_QUESTION
    · rw [push_word, if_neg hpause, if_pos hquestion]
      exact question_sound h
    · obtain ⟨l, f, hanalysis, hwithin⟩ := analysis_within node node.pron 0 true h fun _ hne => by
          cases hflag : label.short_pause_flag with
          | false => exact .inl rfl
          | true => exact .inr (by simpa [clash, hpause, hquestion, hne, hflag] using hclash)
      rw [push_word, if_neg hpause, if_neg hquestion, hanalysis]
      cases f with
      | true => exact ⟨l, by simp, hwithin⟩
      | false =>
        obtain ⟨us, initP, p, initM, m, initW, w, hus, hinv, hp, hm, hw⟩ := Open.split hwithin
        have hlast : l.phonemes.getLast? = some p := by rw [hp, List.getLast?_concat]
        have hne := hinv.last_not_pause hlast
        obtain ⟨label', hlabel', hsound⟩ := make_accent_sound hwithin node
        exact ⟨label', by simp [hlast, hne, hlabel'], hsound⟩

/-- So does a whole run. -/
theorem foldlM_push_word_sound {nodes : List Node} (h : Sound label) (hfine : NoClash label nodes) :
    ∃ label', nodes.foldlM push_word label = some label' ∧ Sound label' := by
  induction nodes generalizing label with
  | nil => exact ⟨label, rfl, h⟩
  | cons node nodes ih =>
    obtain ⟨label', hlabel', hsound⟩ := push_word_sound h hfine.1
    obtain ⟨l, hl, hend⟩ := ih hsound (hfine.2 label' hlabel')
    exact ⟨l, by rw [List.foldlM_cons, hlabel']; exact hl, hend⟩

end Parts

end HAS.JPCommon

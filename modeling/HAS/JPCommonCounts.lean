import HAS.JPCommonPush

/-! The counts in the labels are walks along the chains from one end of a phrase or group to
the other. They agree with what the up pointers say: a mora or an accent phrase is counted
among those that point to the same phrase or group. -/
namespace HAS.JPCommon
open HAS.Bytes HAS.Text2mecab HAS.Blocks

namespace Label
variable (label : Label)

/-- The accent phrase of every mora. -/
def moraAccents : List (Option Nat) := compUp label.moraUps label.wordUps

/-- The breath group of every mora. -/
def moraBreaths : List (Option Nat) := compUp label.moraAccents label.accentUps

/-- The first and the last mora of every accent phrase. -/
def accentMoras : List (Nat × Nat) := compEnds label.wordEnds label.accentEnds

def breathMoras : List (Nat × Nat) := compEnds label.accentMoras label.breathEnds

@[simp] theorem length_accentMoras : label.accentMoras.length = label.accents.length := by
  simp [accentMoras, compEnds]

@[simp] theorem length_breathMoras : label.breathMoras.length = label.breaths.length := by
  simp [breathMoras, compEnds]

@[simp] theorem length_moraAccents : label.moraAccents.length = label.moras.length := by
  simp [moraAccents, compUp]

end Label

theorem walk_eq {stop left index : Nat} (h : index ≤ stop) (hstop : stop < index + left) :
    walk stop left index = stop + 1 - index := by
  induction left generalizing index with
  | zero => omega
  | succ left ih =>
    rw [walk]
    split
    · omega
    · rw [ih (by omega) (by omega)]
      omega

theorem walkBack_eq (index : Nat) : walkBack index = index + 1 := by
  induction index with
  | zero => rfl
  | succ index ih => rw [walkBack, ih, Nat.add_comm]

/-- A walk that meets no last cell goes on to the end. -/
theorem walk_to_end {stop left index : Nat} (hstop : index + left ≤ stop) :
    walk stop left index = left := by
  induction left generalizing index with
  | zero => rfl
  | succ left ih =>
    rw [walk, if_neg (by omega), ih (by omega), Nat.add_comm]

theorem count_in_utterance_eq {length i : Nat} (h : i < length) :
    count_in_utterance length i = some length := by
  rw [count_in_utterance, if_pos h, index_in_utterance, walkBack_eq, walk_to_end (by omega)]
  congr 1
  omega

section Sound
variable {label : Label}

theorem Sound.cut_accentMoras (h : Sound label) : Cut label.moraAccents label.accentMoras :=
  h.moras.comp h.moras_tight h.words.toCut (by simp)

theorem Sound.tight_moraAccents (h : Sound label) : Tight label.moraAccents :=
  Tight.comp h.moras.toCut h.moras_tight h.tight (by simp)

theorem Sound.cut_breathMoras (h : Sound label) : Cut label.moraBreaths label.breathMoras :=
  h.cut_accentMoras.comp h.tight_moraAccents h.accents.toCut (by simp)

/-- The cells above a mora. -/
theorem Sound.above (h : Sound label) {m : Nat} (hm : m < label.moras.length) :
    ∃ w a b, label.moraUps[m]? = some (some w) ∧ label.wordUps[w]? = some (some a) ∧
      label.accentUps[a]? = some (some b) ∧ b < label.breaths.length := by
  obtain ⟨p, hp⟩ : ∃ p, label.phonemeUps[p]? = some (some m) := by
    have hends := getElem?_ends label.moraEnds (b := m) (by simpa using hm)
    exact ⟨_, h.phonemes.owned hends (Nat.le_refl _) (h.phonemes.nonempty _ _ _ hends)⟩
  obtain ⟨w, a, b, habove⟩ := h.above_mora hp
  exact ⟨w, a, b, habove.mora, habove.word, habove.accent, habove.breath⟩

theorem accentOfMora_eq {m w a : Nat} {x : AccentPhrase} (hw : label.moraUps[m]? = some (some w))
    (ha : label.wordUps[w]? = some (some a)) (hx : label.accents[a]? = some x) :
    accentOfMora label m = some x := by
  obtain ⟨y, hy, hup⟩ := getElem?_of_map hw
  obtain ⟨z, hz, hup'⟩ := getElem?_of_map ha
  simp [accentOfMora, hy, Option.some.inj hup, hz, hup', hx]

theorem moraAccents_eq {m w a : Nat} (hw : label.moraUps[m]? = some (some w))
    (ha : label.wordUps[w]? = some (some a)) : label.moraAccents[m]? = some (some a) :=
  compUp_eq_some_iff.mpr ⟨w, hw, ha⟩

theorem headOf_wordEnds {w : Nat} {x : Word} (hx : label.words[w]? = some x) :
    headOf label.wordEnds w = x.head ∧ tailOf label.wordEnds w = x.tail :=
  ⟨headOf_eq (getElem?_wordEnds hx), tailOf_eq (getElem?_wordEnds hx)⟩

/-- The moras of an accent phrase, as the code finds their ends. -/
theorem Sound.ends_accent (h : Sound label) {a : Nat} {x : AccentPhrase}
    (hx : label.accents[a]? = some x) : ∃ first last, firstMora label x = some first ∧
      lastMora label x = some last ∧ label.accentMoras[a]? = some (first, last) := by
  have hends : label.accentEnds[a]? = some (x.head, x.tail) := by
    rw [Label.accentEnds, List.getElem?_map, hx, Option.map_some]
  have htail := h.words.tail_lt hends
  have hle := h.words.nonempty _ _ _ hends
  rw [Label.length_wordUps] at htail
  obtain ⟨w, hw⟩ : ∃ w, label.words[x.head]? = some w := ⟨_, List.getElem?_eq_getElem (by omega)⟩
  obtain ⟨w', hw'⟩ : ∃ w', label.words[x.tail]? = some w' := ⟨_, List.getElem?_eq_getElem htail⟩
  refine ⟨w.head, w'.tail, by simp [firstMora, hw], by simp [lastMora, hw'], ?_⟩
  exact compEnds_eq_some_iff.mpr
    ⟨x.head, x.tail, hends, (headOf_wordEnds hw).1, (headOf_wordEnds hw').2⟩

/-- The same for a breath group. -/
theorem Sound.ends_breath (h : Sound label) {b : Nat} {x : BreathGroup}
    (hx : label.breaths[b]? = some x) : ∃ y z first last, label.accents[x.head]? = some y ∧
      label.accents[x.tail]? = some z ∧ firstMora label y = some first ∧
      lastMora label z = some last ∧ label.breathMoras[b]? = some (first, last) := by
  have hends : label.breathEnds[b]? = some (x.head, x.tail) := by
    rw [Label.breathEnds, List.getElem?_map, hx, Option.map_some]
  have htail := h.accents.tail_lt hends
  have hle := h.accents.nonempty _ _ _ hends
  rw [Label.length_accentUps] at htail
  obtain ⟨y, hy⟩ : ∃ y, label.accents[x.head]? = some y := ⟨_, List.getElem?_eq_getElem (by omega)⟩
  obtain ⟨z, hz⟩ : ∃ z, label.accents[x.tail]? = some z := ⟨_, List.getElem?_eq_getElem htail⟩
  obtain ⟨first, last, hf, -, hends₁⟩ := h.ends_accent hy
  obtain ⟨first', last', -, hl', hends₂⟩ := h.ends_accent hz
  refine ⟨y, z, first, last', hy, hz, hf, hl', ?_⟩
  exact compEnds_eq_some_iff.mpr ⟨x.head, x.tail, hends, headOf_eq hends₁, tailOf_eq hends₂⟩

/-- A walk from the first element of a block counts the elements of the block. -/
theorem walk_block {up : List (Option Nat)} {ends : List (Nat × Nat)} (c : Cut up ends)
    {i b h t : Nat} (hi : up[i]? = some (some b)) (hb : ends[b]? = some (h, t)) :
    walk i (up.length - h) h = rank up i ∧ walk t (up.length - h) h = size up i := by
  obtain ⟨h', t', hb', h₁, h₂⟩ := (c.owned_iff i b).mp hi
  rw [hb] at hb'
  obtain ⟨rfl, rfl⟩ := Prod.mk.inj (Option.some.inj hb')
  have hlt := c.tail_lt hb
  rw [c.rank_eq hi hb, c.size_eq hi hb]
  exact ⟨walk_eq h₁ (by omega), walk_eq (by omega) (by omega)⟩

theorem Sound.mora_in_accent_phrase (h : Sound label) {m : Nat} (hm : m < label.moras.length) :
    index_mora_in_accent_phrase label m = some (rank label.moraAccents m) ∧
      count_mora_in_accent_phrase label m = some (size label.moraAccents m) := by
  obtain ⟨w, a, b, hw, ha, hb, -⟩ := h.above hm
  obtain ⟨x, hx, -⟩ := getElem?_of_map hb
  have howner := accentOfMora_eq hw ha hx
  obtain ⟨first, last, hf, hl, hends⟩ := h.ends_accent hx
  obtain ⟨h₁, h₂⟩ := walk_block h.cut_accentMoras (moraAccents_eq hw ha) hends
  rw [Label.length_moraAccents] at h₁ h₂
  constructor
  · simp [index_mora_in_accent_phrase, howner, hf, h₁]
  · simp [count_mora_in_accent_phrase, howner, hf, hl, h₂]

theorem Sound.mora_in_breath_group (h : Sound label) {m : Nat} (hm : m < label.moras.length) :
    index_mora_in_breath_group label m = some (rank label.moraBreaths m) ∧
      count_mora_in_breath_group label m = some (size label.moraBreaths m) := by
  obtain ⟨w, a, b, hw, ha, hb, hlt⟩ := h.above hm
  obtain ⟨x, hx, hup⟩ := getElem?_of_map hb
  have howner := accentOfMora_eq hw ha hx
  obtain ⟨g, hg⟩ : ∃ g, label.breaths[b]? = some g := ⟨_, List.getElem?_eq_getElem hlt⟩
  obtain ⟨y, z, first, last, hy, hz, hf, hl, hends⟩ := h.ends_breath hg
  have hmem : label.moraBreaths[m]? = some (some b) :=
    compUp_eq_some_iff.mpr ⟨a, moraAccents_eq hw ha, hb⟩
  obtain ⟨h₁, h₂⟩ := walk_block h.cut_breathMoras hmem hends
  rw [show label.moraBreaths.length = label.moras.length by simp [Label.moraBreaths, compUp]] at h₁ h₂
  have hup' : x.up = b := Option.some.inj hup
  constructor
  · simp [index_mora_in_breath_group, howner, hup', hg, hy, hf, h₁]
  · simp [count_mora_in_breath_group, howner, hup', hg, hy, hz, hf, hl, h₂]

theorem Sound.accent_in_breath_group (h : Sound label) {a : Nat} (ha : a < label.accents.length) :
    index_accent_phrase_in_breath_group label a = some (rank label.accentUps a) ∧
      count_accent_phrase_in_breath_group label a = some (size label.accentUps a) := by
  obtain ⟨b, hb⟩ := owner_of_tight h.accents_tight (by simpa using ha)
  obtain ⟨x, hx, hup⟩ := getElem?_of_map hb
  have hlt := h.accents.block_lt hb
  rw [Label.length_breathEnds] at hlt
  obtain ⟨g, hg⟩ : ∃ g, label.breaths[b]? = some g := ⟨_, List.getElem?_eq_getElem hlt⟩
  have hends : label.breathEnds[b]? = some (g.head, g.tail) := by
    rw [Label.breathEnds, List.getElem?_map, hg, Option.map_some]
  obtain ⟨h₁, h₂⟩ := walk_block h.accents.toCut hb hends
  rw [Label.length_accentUps] at h₁ h₂
  have hup' : x.up = b := Option.some.inj hup
  constructor
  · simp [index_accent_phrase_in_breath_group, hx, hup', hg, h₁]
  · simp [count_accent_phrase_in_breath_group, hx, hup', hg, h₂]

end Sound

end HAS.JPCommon

import HAS.JPCommon

/-! The cells of a label keep together: each level is cut into the blocks of the level above
it, pauses stand before words only, and a pause parts two breath groups. -/
namespace HAS.JPCommon
open HAS.Bytes HAS.Text2mecab HAS.Blocks

namespace Label
variable (label : Label)

def phonemeUps : List (Option Nat) := label.phonemes.map (·.up)
def moraUps : List (Option Nat) := label.moras.map fun m => some m.up
def wordUps : List (Option Nat) := label.words.map (·.up)
def accentUps : List (Option Nat) := label.accents.map fun a => some a.up

def moraEnds : List (Nat × Nat) := label.moras.map fun m => (m.head, m.tail)
def wordEnds : List (Nat × Nat) := label.words.map fun w => (w.head, w.tail)
def accentEnds : List (Nat × Nat) := label.accents.map fun a => (a.head, a.tail)
def breathEnds : List (Nat × Nat) := label.breaths.map fun b => (b.head, b.tail)

@[simp] theorem length_phonemeUps : label.phonemeUps.length = label.phonemes.length := List.length_map _
@[simp] theorem length_moraUps : label.moraUps.length = label.moras.length := List.length_map _
@[simp] theorem length_moraEnds : label.moraEnds.length = label.moras.length := List.length_map _
@[simp] theorem length_wordEnds : label.wordEnds.length = label.words.length := List.length_map _
@[simp] theorem length_wordUps : label.wordUps.length = label.words.length := List.length_map _
@[simp] theorem length_accentEnds : label.accentEnds.length = label.accents.length := List.length_map _
@[simp] theorem length_accentUps : label.accentUps.length = label.accents.length := List.length_map _
@[simp] theorem length_breathEnds : label.breathEnds.length = label.breaths.length := List.length_map _

end Label

/-- The first element of a block. -/
def HeadAt (ends : List (Nat × Nat)) (b h : Nat) : Prop := ∃ t, ends[b]? = some (h, t)

/-- The cells of a label whose complete words belong to the accent phrases us. -/
structure Inv (us : List (Option Nat)) (label : Label) : Prop where
  phonemes : Full label.phonemeUps label.moraEnds
  moras : Full label.moraUps label.wordEnds
  words : Full us label.accentEnds
  accents : Full label.accentUps label.breathEnds
  complete : us.length ≤ label.words.length
  tight : Tight us
  pauses : ∀ p ∈ label.phonemes, p.phoneme = JPCOMMON_PHONEME_SHORT_PAUSE ↔ p.up = none
  paused : ∀ p : Nat, label.phonemeUps[p]? = some none →
    ∃ w m, 0 < w ∧ HeadAt label.wordEnds w m ∧ HeadAt label.moraEnds m (p + 1)
  parted : ∀ a w m p : Nat, HeadAt label.accentEnds (a + 1) w → HeadAt label.wordEnds w m →
    HeadAt label.moraEnds m p →
      (label.accentUps[a]? = label.accentUps[a + 1]? ↔ label.phonemeUps[p - 1]? ≠ some none)

/-- All words are complete. -/
def Sound (label : Label) : Prop := Inv label.wordUps label

/-- The last word is not complete, and no pause is pending. -/
def Open (label : Label) : Prop :=
  label.short_pause_flag = false ∧ ∃ us, label.wordUps = us ++ [none] ∧ Inv us label

theorem Sound.initial : Sound {} where
  phonemes := Full.nil
  moras := Full.nil
  words := Full.nil
  accents := Full.nil
  complete := Nat.le_refl _
  tight := List.not_mem_nil
  pauses p hp := absurd hp List.not_mem_nil
  paused p hp := by simp [Label.phonemeUps] at hp
  parted a w m p ha := by
    obtain ⟨t, ht⟩ := ha
    simp [Label.accentEnds] at ht

/-- The head of a block does not change when the last block takes another element. -/
theorem headAt_extended {ends : List (Nat × Nat)} {e : Nat × Nat} {t b h : Nat} :
    HeadAt (ends ++ [(e.1, t)]) b h ↔ HeadAt (ends ++ [e]) b h := by
  unfold HeadAt
  rcases Nat.lt_or_ge b ends.length with hlt | hge
  · rw [List.getElem?_append_left hlt, List.getElem?_append_left hlt]
  · rw [List.getElem?_append_right hge, List.getElem?_append_right hge]
    cases b - ends.length with
    | zero =>
      constructor
      · rintro ⟨t', ht⟩
        obtain ⟨rfl, -⟩ : e.1 = h ∧ t = t' := by simpa using ht
        exact ⟨e.2, by simp⟩
      · rintro ⟨t', ht⟩
        obtain rfl : e = (h, t') := by simpa using ht
        exact ⟨t, by simp⟩
    | succ k => simp

theorem headAt_append_of_lt {ends more : List (Nat × Nat)} {b h : Nat} (hb : b < ends.length) :
    HeadAt (ends ++ more) b h ↔ HeadAt ends b h := by
  unfold HeadAt
  rw [List.getElem?_append_left hb]

/-- Ups stay, and so do the heads of the cells that are there. -/
structure Grows (label label' : Label) : Prop where
  phonemes : label.phonemeUps <+: label'.phonemeUps
  moras : ∀ m p : Nat, m < label.moras.length →
    (HeadAt label'.moraEnds m p ↔ HeadAt label.moraEnds m p)
  words : ∀ w m : Nat, w < label.words.length →
    (HeadAt label'.wordEnds w m ↔ HeadAt label.wordEnds w m)

section Parts
variable {us : List (Option Nat)} {label label' : Label}

theorem headAt_lt {up : List (Option Nat)} {ends : List (Nat × Nat)} (c : Cut up ends) {b h : Nat}
    (hb : HeadAt ends b h) : b < ends.length ∧ h < up.length := by
  obtain ⟨t, ht⟩ := hb
  have h₁ := c.nonempty _ _ _ ht
  have h₂ := c.tail_lt ht
  exact ⟨(List.getElem?_eq_some_iff.mp ht).1, by omega⟩

theorem Inv.word_lt (h : Inv us label) {a w : Nat} (ha : HeadAt label.accentEnds a w) :
    w < label.words.length := by
  have h₁ := (headAt_lt h.words.toCut ha).2
  have h₂ := h.complete
  omega

theorem Inv.mora_lt (h : Inv us label) {w m : Nat} (hw : HeadAt label.wordEnds w m) :
    m < label.moras.length := by
  simpa using (headAt_lt h.moras.toCut hw).2

theorem Inv.phoneme_lt (h : Inv us label) {m p : Nat} (hm : HeadAt label.moraEnds m p) :
    p < label.phonemes.length := by
  simpa using (headAt_lt h.phonemes.toCut hm).2

theorem Inv.parted_grows (h : Inv us label) (hg : Grows label label')
    (ha : label'.accentEnds = label.accentEnds) (hb : label'.accentUps = label.accentUps)
    (a w m p : Nat) (hw : HeadAt label'.accentEnds (a + 1) w) (hm : HeadAt label'.wordEnds w m)
    (hp : HeadAt label'.moraEnds m p) :
    label'.accentUps[a]? = label'.accentUps[a + 1]? ↔ label'.phonemeUps[p - 1]? ≠ some none := by
  rw [ha] at hw
  rw [hg.words w m (h.word_lt hw)] at hm
  rw [hg.moras m p (h.mora_lt hm)] at hp
  have hlt := h.phoneme_lt hp
  obtain ⟨more, hmore⟩ := hg.phonemes
  rw [hb, ← hmore, List.getElem?_append_left (by simp; omega)]
  exact h.parted a w m p hw hm hp

theorem Inv.paused_grows (h : Inv us label) (hg : Grows label label') {p : Nat}
    (hp : label.phonemeUps[p]? = some none) :
    ∃ w m, 0 < w ∧ HeadAt label'.wordEnds w m ∧ HeadAt label'.moraEnds m (p + 1) := by
  obtain ⟨w, m, hpos, hw, hm⟩ := h.paused p hp
  have hlt : w < label.words.length := by simpa using (headAt_lt h.moras.toCut hw).1
  exact ⟨w, m, hpos, (hg.words w m hlt).mpr hw, (hg.moras m _ (h.mora_lt hw)).mpr hm⟩

/-- Only what the cells point to matters. -/
theorem Inv.congr (h : Inv us label) (hp : label'.phonemeUps = label.phonemeUps)
    (hm : label'.moraEnds = label.moraEnds) (hmu : label'.moraUps = label.moraUps)
    (hw : label'.wordEnds = label.wordEnds) (ha : label'.accentEnds = label.accentEnds)
    (hau : label'.accentUps = label.accentUps) (hb : label'.breathEnds = label.breathEnds)
    (hpau : ∀ p ∈ label'.phonemes, p.phoneme = JPCOMMON_PHONEME_SHORT_PAUSE ↔ p.up = none) :
    Inv us label' := by
  have hwords : label'.words.length = label.words.length := by
    rw [← Label.length_wordEnds, ← Label.length_wordEnds, hw]
  constructor
  · rw [hp, hm]
    exact h.phonemes
  · rw [hmu, hw]
    exact h.moras
  · rw [ha]
    exact h.words
  · rw [hau, hb]
    exact h.accents
  · rw [hwords]
    exact h.complete
  · exact h.tight
  · exact hpau
  · rw [hp, hw, hm]
    exact h.paused
  · rw [ha, hw, hm, hau, hp]
    exact h.parted

/-- A word is opened behind a pause, or without one. -/
theorem Inv.opened_word (h : Inv us label) (gap : List (Option Nat)) (hcomplete : us.length = label.words.length)
    (hgap : gap = [] ∨ gap = [none] ∧ label.words ≠ [])
    (hp : label'.phonemeUps = label.phonemeUps ++ gap ++ [some label.moras.length])
    (hm : label'.moraEnds = label.moraEnds ++
      [(label.phonemes.length + gap.length, label.phonemes.length + gap.length)])
    (hmu : label'.moraUps = label.moraUps ++ [some label.words.length])
    (hw : label'.wordEnds = label.wordEnds ++ [(label.moras.length, label.moras.length)])
    (ha : label'.accentEnds = label.accentEnds) (hau : label'.accentUps = label.accentUps)
    (hb : label'.breathEnds = label.breathEnds)
    (hpau : ∀ p ∈ label'.phonemes, p.phoneme = JPCOMMON_PHONEME_SHORT_PAUSE ↔ p.up = none) :
    Inv us label' := by
  have hg : Grows label label' := by
    constructor
    · rw [hp, List.append_assoc]
      exact List.prefix_append _ _
    · intro m p hlt
      rw [hm]
      exact headAt_append_of_lt (by simpa using hlt)
    · intro w m hlt
      rw [hw]
      exact headAt_append_of_lt (by simpa using hlt)
  have hcut : Cut (label.phonemeUps ++ gap) label.moraEnds := by
    rcases hgap with rfl | ⟨rfl, -⟩
    · rw [List.append_nil]
      exact h.phonemes.toCut
    · exact h.phonemes.gap
  have hlen : (label.phonemeUps ++ gap).length = label.phonemes.length + gap.length := by simp
  refine ⟨?_, ?_, ha ▸ h.words, hau ▸ hb ▸ h.accents, ?_, h.tight, hpau, ?_,
    h.parted_grows hg ha hau⟩
  · have hopened := hcut.full_opened
    rw [hlen, Label.length_moraEnds] at hopened
    rw [hp, hm]
    exact hopened
  · have hopened := h.moras.full_opened
    rw [Label.length_moraUps, Label.length_wordEnds] at hopened
    rw [hmu, hw]
    exact hopened
  · rw [← Label.length_wordEnds label', hw, List.length_append, List.length_singleton,
      Label.length_wordEnds]
    omega
  · intro p hnone
    rcases Nat.lt_or_ge p label.phonemes.length with hlt | hge
    · rw [hp, List.append_assoc, List.getElem?_append_left (by simpa using hlt)] at hnone
      exact h.paused_grows hg hnone
    · -- the only new pause is the gap before the word
      rcases hgap with rfl | ⟨rfl, hne⟩
      · rw [hp, List.append_nil, List.getElem?_append_right (by simpa using hge)] at hnone
        simp [List.getElem?_singleton] at hnone
      · have hp' : p = label.phonemes.length := by
          by_contra hne'
          rw [hp, List.getElem?_append_right (by simp; omega)] at hnone
          simp [List.getElem?_singleton] at hnone
        refine ⟨label.words.length, label.moras.length, List.length_pos_iff.mpr hne, ?_, ?_⟩
        · rw [hw]
          exact ⟨label.moras.length, by simp [← Label.length_wordEnds]⟩
        · rw [hm, hp']
          exact ⟨label.phonemes.length + 1, by simp [← Label.length_moraEnds]⟩

/-- One more mora for the last word. -/
theorem Inv.extended_word (h : Inv us label) (ends : List (Nat × Nat)) (e : Nat × Nat)
    (hends : label.wordEnds = ends ++ [e])
    (hp : label'.phonemeUps = label.phonemeUps ++ [some label.moras.length])
    (hm : label'.moraEnds = label.moraEnds ++ [(label.phonemes.length, label.phonemes.length)])
    (hmu : label'.moraUps = label.moraUps ++ [some ends.length])
    (hw : label'.wordEnds = ends ++ [(e.1, label.moras.length)])
    (ha : label'.accentEnds = label.accentEnds) (hau : label'.accentUps = label.accentUps)
    (hb : label'.breathEnds = label.breathEnds)
    (hpau : ∀ p ∈ label'.phonemes, p.phoneme = JPCOMMON_PHONEME_SHORT_PAUSE ↔ p.up = none) :
    Inv us label' := by
  have hg : Grows label label' := by
    constructor
    · exact ⟨_, hp.symm⟩
    · intro m p hlt
      rw [hm]
      exact headAt_append_of_lt (by simpa using hlt)
    · intro w m hlt
      rw [hw, hends]
      exact headAt_extended
  have hwords : label'.words.length = label.words.length := by
    rw [← Label.length_wordEnds, ← Label.length_wordEnds, hw, hends]
    simp
  refine ⟨?_, ?_, ha ▸ h.words, hau ▸ hb ▸ h.accents, hwords ▸ h.complete, h.tight, hpau, ?_,
    h.parted_grows hg ha hau⟩
  · have hopened := h.phonemes.full_opened
    rw [Label.length_phonemeUps, Label.length_moraEnds] at hopened
    rw [hp, hm]
    exact hopened
  · have hfull := h.moras
    rw [hends] at hfull
    have hextended := hfull.extended
    rw [Label.length_moraUps] at hextended
    rw [hmu, hw]
    exact hextended
  · intro p hnone
    rcases Nat.lt_or_ge p label.phonemes.length with hlt | hge
    · rw [hp, List.getElem?_append_left (by simpa using hlt)] at hnone
      exact h.paused_grows hg hnone
    · rw [hp, List.getElem?_append_right (by simpa using hge)] at hnone
      simp [List.getElem?_singleton] at hnone

/-- One more phoneme for the last mora. -/
theorem Inv.extended_mora (h : Inv us label) (ends : List (Nat × Nat)) (e : Nat × Nat)
    (hends : label.moraEnds = ends ++ [e])
    (hp : label'.phonemeUps = label.phonemeUps ++ [some ends.length])
    (hm : label'.moraEnds = ends ++ [(e.1, label.phonemes.length)])
    (hmu : label'.moraUps = label.moraUps) (hw : label'.wordEnds = label.wordEnds)
    (ha : label'.accentEnds = label.accentEnds) (hau : label'.accentUps = label.accentUps)
    (hb : label'.breathEnds = label.breathEnds)
    (hpau : ∀ p ∈ label'.phonemes, p.phoneme = JPCOMMON_PHONEME_SHORT_PAUSE ↔ p.up = none) :
    Inv us label' := by
  have hg : Grows label label' := by
    constructor
    · exact ⟨_, hp.symm⟩
    · intro m p hlt
      rw [hm, hends]
      exact headAt_extended
    · intro w m hlt
      rw [hw]
  have hwords : label'.words.length = label.words.length := by
    rw [← Label.length_wordEnds, ← Label.length_wordEnds, hw]
  refine ⟨?_, hmu ▸ hw ▸ h.moras, ha ▸ h.words, hau ▸ hb ▸ h.accents, hwords ▸ h.complete,
    h.tight, hpau, ?_, h.parted_grows hg ha hau⟩
  · have hfull := h.phonemes
    rw [hends] at hfull
    have hextended := hfull.extended
    rw [Label.length_phonemeUps] at hextended
    rw [hp, hm]
    exact hextended
  · intro p hnone
    rcases Nat.lt_or_ge p label.phonemes.length with hlt | hge
    · rw [hp, List.getElem?_append_left (by simpa using hlt)] at hnone
      exact h.paused_grows hg hnone
    · rw [hp, List.getElem?_append_right (by simpa using hge)] at hnone
      simp [List.getElem?_singleton] at hnone

/-- The last phoneme of a mora and the first of the next one are neighbours, or a pause lies
between them. -/
theorem Inv.adjacent (h : Inv us label) {m s t s' t' : Nat}
    (hm : label.moraEnds[m]? = some (s, t)) (hm' : label.moraEnds[m + 1]? = some (s', t')) :
    s' = t + 1 ∨ s' = t + 2 ∧ label.phonemeUps[t + 1]? = some none := by
  have c := h.phonemes.toCut
  have hlt := c.ordered _ _ _ _ _ hm hm'
  by_cases heq : s' = t + 1
  · exact .inl heq
  · have hgap := c.between hm hm' (Nat.lt_succ_self t) (by omega)
    obtain ⟨w, k, -, -, tk, hk⟩ := h.paused _ hgap
    refine .inr ⟨?_, hgap⟩
    have hne := c.nonempty _ _ _ hm
    have hne' := c.nonempty _ _ _ hm'
    -- the pause stands before a mora, which can only be the next one
    rcases Nat.lt_trichotomy k (m + 1) with hlt' | rfl | hgt
    · rcases Nat.lt_or_eq_of_le (Nat.le_of_lt_succ hlt') with hkm | rfl
      · have := c.lt_of_lt hkm hk hm
        have := c.nonempty _ _ _ hk
        omega
      · rw [hm] at hk
        obtain ⟨rfl, rfl⟩ := Prod.mk.inj (Option.some.inj hk)
        omega
    · rw [hm'] at hk
      obtain ⟨rfl, rfl⟩ := Prod.mk.inj (Option.some.inj hk)
      rfl
    · have := c.lt_of_lt hgt hm' hk
      omega

theorem Inv.pause_iff (h : Inv us label) {p : Nat} {x : Phoneme} (hx : label.phonemes[p]? = some x) :
    x.phoneme = JPCOMMON_PHONEME_SHORT_PAUSE ↔ label.phonemeUps[p]? = some none := by
  rw [h.pauses x (List.mem_of_getElem? hx), Label.phonemeUps, List.getElem?_map, hx]
  simp

/-- Behind the last phoneme of a mora there is a pause exactly if there is one before the
next mora. -/
theorem Inv.pause_behind_iff (h : Inv us label) {m s t s' t' : Nat}
    (hm : label.moraEnds[m]? = some (s, t)) (hm' : label.moraEnds[m + 1]? = some (s', t')) :
    label.phonemeUps[t + 1]? = some none ↔ label.phonemeUps[s' - 1]? = some none := by
  rcases h.adjacent hm hm' with rfl | ⟨rfl, hgap⟩
  · have h₁ := h.phonemes.owned hm' (Nat.le_refl _) (h.phonemes.nonempty _ _ _ hm')
    have h₂ := h.phonemes.owned hm (h.phonemes.nonempty _ _ _ hm) (Nat.le_refl _)
    rw [Nat.add_sub_cancel, h₁, h₂]
    simp
  · rw [show t + 2 - 1 = t + 1 by omega]

/-- What lies below the accent phrases. -/
structure SameBelow (label label' : Label) : Prop where
  phonemes : label'.phonemes = label.phonemes
  moras : label'.moras = label.moras
  words : label'.wordEnds = label.wordEnds

theorem SameBelow.phonemeUps (hs : SameBelow label label') : label'.phonemeUps = label.phonemeUps :=
  congrArg (List.map _) hs.phonemes

theorem SameBelow.moraUps (hs : SameBelow label label') : label'.moraUps = label.moraUps :=
  congrArg (List.map _) hs.moras

theorem SameBelow.moraEnds (hs : SameBelow label label') : label'.moraEnds = label.moraEnds :=
  congrArg (List.map _) hs.moras

theorem SameBelow.length_words (hs : SameBelow label label') :
    label'.words.length = label.words.length := by
  rw [← Label.length_wordEnds, ← Label.length_wordEnds, hs.words]

theorem SameBelow.paused (hs : SameBelow label label') (h : Inv us label) (p : Nat)
    (hp : label'.phonemeUps[p]? = some none) :
    ∃ w m, 0 < w ∧ HeadAt label'.wordEnds w m ∧ HeadAt label'.moraEnds m (p + 1) := by
  rw [hs.phonemeUps] at hp
  rw [hs.words, hs.moraEnds]
  exact h.paused p hp

/-- A complete word joins the last accent phrase. -/
theorem Inv.chained (h : Inv us label) (label' : Label) (ends : List (Nat × Nat)) (e : Nat × Nat)
    (hs : SameBelow label label') (hlt : us.length < label.words.length)
    (hends : label.accentEnds = ends ++ [e])
    (ha : label'.accentEnds = ends ++ [(e.1, us.length)])
    (hau : label'.accentUps = label.accentUps) (hb : label'.breathEnds = label.breathEnds) :
    Inv (us ++ [some ends.length]) label' where
  phonemes := hs.phonemeUps ▸ hs.moraEnds ▸ h.phonemes
  moras := hs.moraUps ▸ hs.words ▸ h.moras
  words := by
    have hfull := h.words
    rw [hends] at hfull
    rw [ha]
    exact hfull.extended
  accents := hau ▸ hb ▸ h.accents
  complete := by
    rw [List.length_append, List.length_singleton, hs.length_words]
    omega
  tight := by simpa [Tight] using h.tight
  pauses := hs.phonemes ▸ h.pauses
  paused := hs.paused h
  parted a w m p hw hm hp := by
    rw [ha, headAt_extended, ← hends] at hw
    rw [hs.words] at hm
    rw [hs.moraEnds] at hp
    rw [hau, hs.phonemeUps]
    exact h.parted a w m p hw hm hp

/-- A complete word opens an accent phrase. -/
theorem Inv.opened_accent (h : Inv us label) (label' : Label) {b : Nat} (hs : SameBelow label label')
    (hlt : us.length < label.words.length)
    (ha : label'.accentEnds = label.accentEnds ++ [(us.length, us.length)])
    (hau : label'.accentUps = label.accentUps ++ [some b])
    (hb : Full label'.accentUps label'.breathEnds)
    (hpart : ∀ m p x, HeadAt label.wordEnds us.length m → HeadAt label.moraEnds m p →
      label.accentUps.getLast? = some x →
        (x = some b ↔ label.phonemeUps[p - 1]? ≠ some none)) :
    Inv (us ++ [some label.accents.length]) label' where
  phonemes := hs.phonemeUps ▸ hs.moraEnds ▸ h.phonemes
  moras := hs.moraUps ▸ hs.words ▸ h.moras
  words := by
    have hopened := h.words.full_opened
    rw [Label.length_accentEnds] at hopened
    rw [ha]
    exact hopened
  accents := hb
  complete := by
    rw [List.length_append, List.length_singleton, hs.length_words]
    omega
  tight := by simpa [Tight] using h.tight
  pauses := hs.phonemes ▸ h.pauses
  paused := hs.paused h
  parted a w m p hw hm hp := by
    rw [hs.words] at hm
    rw [hs.moraEnds] at hp
    rw [hau, hs.phonemeUps]
    rcases Nat.lt_trichotomy (a + 1) label.accents.length with hlt' | heq | hgt
    · rw [ha, headAt_append_of_lt (by simpa using hlt')] at hw
      rw [List.getElem?_append_left (by simp; omega), List.getElem?_append_left (by simpa using hlt')]
      exact h.parted a w m p hw hm hp
    · obtain rfl : w = us.length := by
        obtain ⟨t, ht⟩ := hw
        rw [ha, List.getElem?_append_right (by simp; omega)] at ht
        simp [heq] at ht
        exact ht.1.symm
      have hlast : label.accentUps.getLast? = label.accentUps[a]? := by
        rw [List.getLast?_eq_getElem?, Label.length_accentUps, ← heq, Nat.add_sub_cancel]
      obtain ⟨x, hget⟩ : ∃ x, label.accentUps[a]? = some x :=
        ⟨_, List.getElem?_eq_getElem (by simp; omega)⟩
      have hnew : (label.accentUps ++ [some b])[a + 1]? = some (some b) := by
        rw [List.getElem?_append_right (by simp; omega)]
        simp [heq]
      rw [List.getElem?_append_left (by simp; omega), hnew, hget, Option.some_inj]
      exact hpart m p _ hm hp (hlast.trans hget)
    · obtain ⟨t, ht⟩ := hw
      have := (List.getElem?_eq_some_iff.mp ht).1
      rw [ha, List.length_append, List.length_singleton, Label.length_accentEnds] at this
      omega

end Parts

end HAS.JPCommon

import Mathlib.Data.List.Basic
import Mathlib.Tactic.Common

/-! A sequence cut into blocks: every element has the number of its block, or none, and every
block its first and its last element. Cuts grow at the end, and a cut of the blocks of a cut
is a cut of the elements. -/
namespace HAS.Blocks

structure Cut (up : List (Option Nat)) (ends : List (Nat × Nat)) : Prop where
  owned_iff : ∀ i b : Nat,
    up[i]? = some (some b) ↔ ∃ h t, ends[b]? = some (h, t) ∧ h ≤ i ∧ i ≤ t
  nonempty : ∀ b h t : Nat, ends[b]? = some (h, t) → h ≤ t
  ordered : ∀ b h t h' t' : Nat, ends[b]? = some (h, t) → ends[b + 1]? = some (h', t') → t < h'

/-- No element is without a block. -/
def Tight (up : List (Option Nat)) : Prop := none ∉ up

variable {up up' : List (Option Nat)} {ends ends' : List (Nat × Nat)}

theorem Cut.nil : Cut [] [] where
  owned_iff i b := by simp
  nonempty b h t hb := by simp at hb
  ordered b h t h' t' hb := by simp at hb

theorem Cut.owned (c : Cut up ends) {b h t i : Nat} (hb : ends[b]? = some (h, t)) (hi : h ≤ i)
    (ht : i ≤ t) : up[i]? = some (some b) :=
  (c.owned_iff i b).mpr ⟨h, t, hb, hi, ht⟩

theorem Cut.tail_lt (c : Cut up ends) {b h t : Nat} (hb : ends[b]? = some (h, t)) :
    t < up.length := by
  have ht := c.owned hb (c.nonempty b h t hb) (Nat.le_refl t)
  exact (List.getElem?_eq_some_iff.mp ht).1

theorem Cut.block_lt (c : Cut up ends) {i b : Nat} (hi : up[i]? = some (some b)) :
    b < ends.length := by
  obtain ⟨h, t, hb, -, -⟩ := (c.owned_iff i b).mp hi
  exact (List.getElem?_eq_some_iff.mp hb).1

/-- Earlier blocks end before later ones begin. -/
theorem Cut.lt_of_lt (c : Cut up ends) {a b h t h' t' : Nat} (hab : a < b)
    (ha : ends[a]? = some (h, t)) (hb : ends[b]? = some (h', t')) : t < h' := by
  induction b generalizing h' t' with
  | zero => omega
  | succ b ih =>
    rcases Nat.lt_or_ge a b with hlt | hge
    · have hb' : b < ends.length := by
        have := (List.getElem?_eq_some_iff.mp hb).1
        omega
      have hmid : ends[b]? = some (ends[b].1, ends[b].2) := List.getElem?_eq_getElem hb'
      have h₁ := ih hlt hmid
      have h₂ := c.nonempty b _ _ hmid
      have h₃ := c.ordered b _ _ h' t' hmid hb
      omega
    · obtain rfl : a = b := by omega
      exact c.ordered a h t h' t' ha hb

/-- What lies between two blocks that follow each other has no block. -/
theorem Cut.between (c : Cut up ends) {b h t h' t' i : Nat} (hb : ends[b]? = some (h, t))
    (hb' : ends[b + 1]? = some (h', t')) (hi : t < i) (hi' : i < h') : up[i]? = some none := by
  have h₁ := c.tail_lt hb'
  have h₂ := c.nonempty _ _ _ hb'
  have hlt : i < up.length := by omega
  cases hu : up[i] with
  | none => rw [List.getElem?_eq_getElem hlt, hu]
  | some a =>
    have ha : up[i]? = some (some a) := by rw [List.getElem?_eq_getElem hlt, hu]
    obtain ⟨l, r, hends, hl, hr⟩ := (c.owned_iff i a).mp ha
    rcases Nat.lt_trichotomy a b with hab | rfl | hab
    · have := c.lt_of_lt hab hends hb
      have := c.nonempty _ _ _ hb
      omega
    · rw [hb] at hends
      obtain ⟨rfl, rfl⟩ := Prod.mk.inj (Option.some.inj hends)
      omega
    · rcases Nat.lt_or_eq_of_le (Nat.succ_le_of_lt hab) with hlt' | rfl
      · have := c.lt_of_lt hlt' hb' hends
        omega
      · rw [hb'] at hends
        obtain ⟨rfl, rfl⟩ := Prod.mk.inj (Option.some.inj hends)
        omega

/-- In a tight cut a block begins right behind the one before it. -/
theorem Cut.head_next (c : Cut up ends) (hup : Tight up) {b h t h' t' : Nat}
    (hb : ends[b]? = some (h, t)) (hb' : ends[b + 1]? = some (h', t')) : h' = t + 1 := by
  have hlt := c.ordered _ _ _ _ _ hb hb'
  by_contra hne
  have hgap := c.between hb hb' (Nat.lt_succ_self t) (by omega)
  exact hup (List.mem_of_getElem? hgap)

/-- An element without a block comes after everything. -/
theorem Cut.gap (c : Cut up ends) : Cut (up ++ [none]) ends where
  owned_iff i b := by
    rw [← c.owned_iff]
    rcases Nat.lt_trichotomy i up.length with hi | rfl | hi
    · rw [List.getElem?_append_left hi]
    · simp
    · have h₁ : (up ++ [none])[i]? = none := by simp; omega
      have h₂ : up[i]? = none := by simp; omega
      rw [h₁, h₂]
  nonempty := c.nonempty
  ordered := c.ordered

/-- A new block is opened, with one element. -/
theorem Cut.opened (c : Cut up ends) :
    Cut (up ++ [some ends.length]) (ends ++ [(up.length, up.length)]) where
  owned_iff i b := by
    rcases Nat.lt_trichotomy b ends.length with hb | rfl | hb
    · rw [List.getElem?_append_left hb, ← c.owned_iff]
      rcases Nat.lt_trichotomy i up.length with hi | rfl | hi
      · rw [List.getElem?_append_left hi]
      · simp; omega
      · have h₁ : (up ++ [some ends.length])[i]? = none := by simp; omega
        have h₂ : up[i]? = none := by simp; omega
        rw [h₁, h₂]
    · constructor
      · intro h
        rcases Nat.lt_trichotomy i up.length with hi | rfl | hi
        · rw [List.getElem?_append_left hi] at h
          exact absurd (c.block_lt h) (by omega)
        · exact ⟨_, _, by simp, Nat.le_refl _, Nat.le_refl _⟩
        · have := (List.getElem?_eq_some_iff.mp h).1
          simp at this
          omega
      · rintro ⟨h, t, hb, hi, ht⟩
        simp at hb
        obtain rfl : i = up.length := by omega
        simp
    · constructor
      · intro h
        rcases Nat.lt_trichotomy i up.length with hi | rfl | hi
        · rw [List.getElem?_append_left hi] at h
          exact absurd (c.block_lt h) (by omega)
        · simp at h
          omega
        · have := (List.getElem?_eq_some_iff.mp h).1
          simp at this
          omega
      · rintro ⟨h, t, h', -, -⟩
        have := (List.getElem?_eq_some_iff.mp h').1
        simp at this
        omega
  nonempty b h t hb := by
    rcases Nat.lt_or_ge b ends.length with hlt | hge
    · rw [List.getElem?_append_left hlt] at hb
      exact c.nonempty b h t hb
    · rw [List.getElem?_append_right hge] at hb
      obtain ⟨-, h', rfl⟩ := by simpa [List.getElem?_singleton] using hb
      omega
  ordered b h t h' t' hb hb' := by
    have hlt := (List.getElem?_eq_some_iff.mp hb').1
    rw [List.length_append, List.length_singleton] at hlt
    rw [List.getElem?_append_left (by omega)] at hb
    rcases Nat.lt_or_ge (b + 1) ends.length with hlt' | hge
    · rw [List.getElem?_append_left hlt'] at hb'
      exact c.ordered b h t h' t' hb hb'
    · rw [List.getElem?_append_right hge] at hb'
      obtain ⟨-, rfl, -⟩ := by simpa [List.getElem?_singleton] using hb'
      exact c.tail_lt hb

/-- The last block takes one more element, if it ends where the elements end. -/
theorem Cut.extended {e : Nat × Nat} (c : Cut up (ends ++ [e])) (he : e.2 + 1 = up.length) :
    Cut (up ++ [some ends.length]) (ends ++ [(e.1, up.length)]) := by
  have hlast : (ends ++ [e])[ends.length]? = some (e.1, e.2) := by simp
  have hsame : ∀ b, b < ends.length → (ends ++ [(e.1, up.length)])[b]? = (ends ++ [e])[b]? := by
    intro b hb
    rw [List.getElem?_append_left hb, List.getElem?_append_left hb]
  have hcases : ∀ b h t, (ends ++ [(e.1, up.length)])[b]? = some (h, t) →
      b < ends.length ∧ (ends ++ [e])[b]? = some (h, t) ∨
        b = ends.length ∧ h = e.1 ∧ t = up.length := by
    intro b h t hb
    rcases Nat.lt_or_ge b ends.length with hlt | hge
    · exact .inl ⟨hlt, (hsame b hlt).symm.trans hb⟩
    · rw [List.getElem?_append_right hge] at hb
      have hb0 : b - ends.length = 0 := by
        by_contra hne
        obtain ⟨k, hk⟩ := Nat.exists_eq_succ_of_ne_zero hne
        simp [hk] at hb
      obtain ⟨rfl, rfl⟩ : e.1 = h ∧ up.length = t := by simpa [hb0] using hb
      exact .inr ⟨by omega, rfl, rfl⟩
  constructor
  · intro i b
    rcases Nat.lt_trichotomy i up.length with hi | rfl | hi
    · rw [List.getElem?_append_left hi, c.owned_iff]
      constructor
      · rintro ⟨h, t, hb, h₁, h₂⟩
        rcases Nat.lt_or_ge b ends.length with hlt | hge
        · exact ⟨h, t, (hsame b hlt).trans hb, h₁, h₂⟩
        · have hlt' := (List.getElem?_eq_some_iff.mp hb).1
          rw [List.length_append, List.length_singleton] at hlt'
          obtain rfl : b = ends.length := by omega
          obtain rfl : e = (h, t) := by simpa using hb
          exact ⟨h, up.length, by simp, h₁, by omega⟩
      · rintro ⟨h, t, hb, h₁, h₂⟩
        rcases hcases b h t hb with ⟨-, hb'⟩ | ⟨rfl, rfl, rfl⟩
        · exact ⟨h, t, hb', h₁, h₂⟩
        · exact ⟨e.1, e.2, hlast, h₁, by omega⟩
    · constructor
      · intro h
        obtain rfl : ends.length = b := by simpa using h
        exact ⟨e.1, up.length, by simp, by have := c.nonempty _ _ _ hlast; omega, Nat.le_refl _⟩
      · rintro ⟨h, t, hb, h₁, h₂⟩
        rcases hcases b h t hb with ⟨-, hb'⟩ | ⟨rfl, -, -⟩
        · exact absurd (c.tail_lt hb') (by omega)
        · simp
    · have hnone : (up ++ [some ends.length])[i]? = none := by simp; omega
      rw [hnone]
      refine iff_of_false (by simp) ?_
      rintro ⟨h, t, hb, -, h₂⟩
      rcases hcases b h t hb with ⟨-, hb'⟩ | ⟨-, -, rfl⟩
      · exact absurd (c.tail_lt hb') (by omega)
      · omega
  · intro b h t hb
    rcases hcases b h t hb with ⟨-, hb'⟩ | ⟨rfl, rfl, rfl⟩
    · exact c.nonempty b h t hb'
    · have := c.nonempty _ _ _ hlast
      omega
  · intro b h t h' t' hb hb'
    rcases hcases b h t hb with ⟨hlt, hold⟩ | ⟨rfl, -, -⟩
    · rcases hcases (b + 1) h' t' hb' with ⟨-, hold'⟩ | ⟨hb₁, rfl, rfl⟩
      · exact c.ordered b h t h' t' hold hold'
      · exact c.ordered b h t e.1 e.2 hold (by rw [hb₁]; exact hlast)
    · have := (List.getElem?_eq_some_iff.mp hb').1
      simp at this

/-- A cut whose last block ends where the elements end. -/
structure Full (up : List (Option Nat)) (ends : List (Nat × Nat)) : Prop extends Cut up ends where
  last : up.getLast? = if ends = [] then none else some (some (ends.length - 1))

theorem Full.nil : Full [] [] := ⟨Cut.nil, rfl⟩

theorem Cut.full_opened (c : Cut up ends) :
    Full (up ++ [some ends.length]) (ends ++ [(up.length, up.length)]) where
  toCut := c.opened
  last := by simp

theorem Full.up_eq_nil_iff (f : Full up ends) : up = [] ↔ ends = [] := by
  have h := f.last
  constructor
  · rintro rfl
    by_contra hne
    simp [hne] at h
  · rintro rfl
    simpa using h

theorem Full.tail_last {e : Nat × Nat} (f : Full up (ends ++ [e])) : e.2 + 1 = up.length := by
  have hlast : up.getLast? = some (some ends.length) := by simpa using f.last
  obtain ⟨init, rfl⟩ := List.getLast?_eq_some_iff.mp hlast
  have hown : (init ++ [some ends.length])[init.length]? = some (some ends.length) := by simp
  obtain ⟨h, t, he, -, hle⟩ := (f.owned_iff _ _).mp hown
  have hlt := f.tail_lt he
  obtain rfl : e = (h, t) := by simpa using he
  rw [List.length_append, List.length_singleton] at hlt ⊢
  omega

theorem Full.extended {e : Nat × Nat} (f : Full up (ends ++ [e])) :
    Full (up ++ [some ends.length]) (ends ++ [(e.1, up.length)]) where
  toCut := f.toCut.extended f.tail_last
  last := by simp

/-- The block, of the second cut, that an element's block belongs to. -/
def compUp (up up' : List (Option Nat)) : List (Option Nat) :=
  up.map fun u => u.bind fun b => (up'[b]?).join

def headOf (ends : List (Nat × Nat)) (b : Nat) : Nat := (ends.getD b (0, 0)).1

def tailOf (ends : List (Nat × Nat)) (b : Nat) : Nat := (ends.getD b (0, 0)).2

theorem getElem?_ends (ends : List (Nat × Nat)) {b : Nat} (hb : b < ends.length) :
    ends[b]? = some (headOf ends b, tailOf ends b) := by
  simp [headOf, tailOf, hb]

theorem headOf_eq {b h t : Nat} (hb : ends[b]? = some (h, t)) : headOf ends b = h := by
  simp [headOf, hb]

theorem tailOf_eq {b h t : Nat} (hb : ends[b]? = some (h, t)) : tailOf ends b = t := by
  simp [tailOf, hb]

/-- First and last element of a block of blocks. -/
def compEnds (ends ends' : List (Nat × Nat)) : List (Nat × Nat) :=
  ends'.map fun e => (headOf ends e.1, tailOf ends e.2)

theorem compUp_eq_some_iff {i k : Nat} :
    (compUp up up')[i]? = some (some k) ↔
      ∃ b : Nat, up[i]? = some (some b) ∧ up'[b]? = some (some k) := by
  unfold compUp
  rw [List.getElem?_map, Option.map_eq_some_iff]
  constructor
  · rintro ⟨u, hu, h⟩
    obtain ⟨b, rfl, hb⟩ := Option.bind_eq_some_iff.mp h
    exact ⟨b, hu, Option.join_eq_some_iff.mp hb⟩
  · rintro ⟨b, hb, hk⟩
    exact ⟨some b, hb, by simp [hk]⟩

theorem compEnds_eq_some_iff {k h t : Nat} :
    (compEnds ends ends')[k]? = some (h, t) ↔
      ∃ a b : Nat, ends'[k]? = some (a, b) ∧ headOf ends a = h ∧ tailOf ends b = t := by
  unfold compEnds
  rw [List.getElem?_map, Option.map_eq_some_iff]
  constructor
  · rintro ⟨⟨a, b⟩, hk, he⟩
    obtain ⟨rfl, rfl⟩ := Prod.mk.inj he
    exact ⟨a, b, hk, rfl, rfl⟩
  · rintro ⟨a, b, hk, rfl, rfl⟩
    exact ⟨(a, b), hk, rfl⟩

/-- The blocks of a tight cut, cut into blocks again, cut the elements. -/
theorem Cut.comp (c : Cut up ends) (hup : Tight up) (c' : Cut up' ends')
    (hlen : up'.length = ends.length) : Cut (compUp up up') (compEnds ends ends') := by
  have hmem : ∀ k a b : Nat, ends'[k]? = some (a, b) → a ≤ b ∧ b < ends.length := by
    intro k a b hk
    exact ⟨c'.nonempty k a b hk, hlen ▸ c'.tail_lt hk⟩
  have hle : ∀ a b : Nat, a ≤ b → b < ends.length →
      headOf ends a ≤ headOf ends b ∧ tailOf ends a ≤ tailOf ends b := by
    intro a b hab hb
    rcases Nat.lt_or_eq_of_le hab with hlt | rfl
    · have h₁ := c.lt_of_lt hlt (getElem?_ends ends (b := a) (by omega)) (getElem?_ends ends hb)
      have h₂ := c.nonempty a _ _ (getElem?_ends ends (b := a) (by omega))
      have h₃ := c.nonempty b _ _ (getElem?_ends ends hb)
      omega
    · exact ⟨Nat.le_refl _, Nat.le_refl _⟩
  constructor
  · intro i k
    rw [compUp_eq_some_iff]
    constructor
    · rintro ⟨b, hb, hk⟩
      obtain ⟨h, t, hends, hi, ht⟩ := (c.owned_iff i b).mp hb
      obtain ⟨a, a', hends', ha, ha'⟩ := (c'.owned_iff b k).mp hk
      obtain ⟨-, hlt⟩ := hmem k a a' hends'
      refine ⟨_, _, compEnds_eq_some_iff.mpr ⟨a, a', hends', rfl, rfl⟩, ?_, ?_⟩
      · have hfirst := (hle a b ha (by omega)).1
        rw [headOf_eq hends] at hfirst
        omega
      · have hlast := (hle b a' ha' hlt).2
        rw [tailOf_eq hends] at hlast
        omega
    · rintro ⟨h, t, hk, hi, ht⟩
      obtain ⟨a, a', hends', rfl, rfl⟩ := compEnds_eq_some_iff.mp hk
      obtain ⟨haa', hlt⟩ := hmem k a a' hends'
      have hi' : i < up.length := by
        have := c.tail_lt (getElem?_ends ends hlt)
        omega
      -- the element has a block, which lies between the first and the last one
      obtain ⟨b, hb⟩ : ∃ b, up[i] = some b := by
        cases hu : up[i] with
        | none => exact absurd (hu ▸ List.getElem_mem hi') hup
        | some b => exact ⟨b, rfl⟩
      have hb' : up[i]? = some (some b) := by rw [List.getElem?_eq_getElem hi', hb]
      obtain ⟨h, t, hends, hi₁, hi₂⟩ := (c.owned_iff i b).mp hb'
      refine ⟨b, hb', c'.owned hends' ?_ ?_⟩
      · by_contra hlt'
        have := c.lt_of_lt (Nat.lt_of_not_le hlt') hends (getElem?_ends ends (b := a) (by omega))
        omega
      · by_contra hlt'
        have := c.lt_of_lt (Nat.lt_of_not_le hlt') (getElem?_ends ends hlt) hends
        omega
  · intro k h t hk
    obtain ⟨a, a', hends', rfl, rfl⟩ := compEnds_eq_some_iff.mp hk
    obtain ⟨haa', hlt⟩ := hmem k a a' hends'
    have h₁ := (hle a a' haa' hlt).1
    have h₂ := c.nonempty a' _ _ (getElem?_ends ends hlt)
    omega
  · intro k h t h' t' hk hk'
    obtain ⟨a, a', hends, rfl, rfl⟩ := compEnds_eq_some_iff.mp hk
    obtain ⟨b, b', hends', rfl, rfl⟩ := compEnds_eq_some_iff.mp hk'
    have hlt := c'.ordered k a a' b b' hends hends'
    obtain ⟨-, hb'⟩ := hmem (k + 1) b b' hends'
    have hbb' := (hmem (k + 1) b b' hends').1
    exact c.lt_of_lt hlt (getElem?_ends ends (b := a') (by omega)) (getElem?_ends ends (b := b) (by omega))

theorem Tight.comp (c : Cut up ends) (hup : Tight up) (hup' : Tight up')
    (hlen : up'.length = ends.length) : Tight (compUp up up') := by
  intro hmem
  obtain ⟨u, hu, hnone⟩ := List.mem_map.mp hmem
  obtain ⟨i, hi⟩ := List.mem_iff_getElem?.mp hu
  cases u with
  | none => exact hup hu
  | some b =>
    have hb : b < up'.length := hlen ▸ c.block_lt hi
    apply hup'
    have hjoin : up'[b] = none := by simpa [List.getElem?_eq_getElem hb] using hnone
    exact hjoin ▸ List.getElem_mem hb

/-- How many of the first elements lie in a block. -/
theorem countP_take {α : Type*} {l : List α} {p : α → Bool} {h t : Nat}
    (hp : ∀ (i : Nat) (x : α), l[i]? = some x → (p x = true ↔ h ≤ i ∧ i ≤ t)) {n : Nat}
    (hn : n ≤ l.length) : (l.take n).countP p = min n (t + 1) - h := by
  induction n with
  | zero => simp
  | succ n ih =>
    have hget : l[n]? = some l[n] := List.getElem?_eq_getElem (by omega)
    rw [List.take_add_one, hget, Option.toList_some, List.countP_append, ih (by omega),
      List.countP_singleton]
    by_cases hx : p l[n] = true
    · have := (hp n _ hget).mp hx
      rw [if_pos hx]
      omega
    · have : ¬(h ≤ n ∧ n ≤ t) := fun h' => hx ((hp n _ hget).mpr h')
      rw [if_neg hx]
      omega

/-- How many elements of the same block there are up to an element, itself included. -/
def rank (up : List (Option Nat)) (i : Nat) : Nat :=
  (up.take (i + 1)).countP fun u => up[i]? = some u

/-- How many elements of the same block there are. -/
def size (up : List (Option Nat)) (i : Nat) : Nat := up.countP fun u => up[i]? = some u

theorem Cut.same_block_iff (c : Cut up ends) {i b h t : Nat} (hi : up[i]? = some (some b))
    (hb : ends[b]? = some (h, t)) (j : Nat) (u : Option Nat) (hj : up[j]? = some u) :
    decide (up[i]? = some u) = true ↔ h ≤ j ∧ j ≤ t := by
  rw [decide_eq_true_iff, hi, Option.some_inj]
  constructor
  · rintro rfl
    obtain ⟨h', t', hb', h₁, h₂⟩ := (c.owned_iff j b).mp hj
    rw [hb] at hb'
    obtain ⟨rfl, rfl⟩ := Prod.mk.inj (Option.some.inj hb')
    exact ⟨h₁, h₂⟩
  · rintro ⟨h₁, h₂⟩
    exact Option.some.inj ((c.owned hb h₁ h₂).symm.trans hj)

theorem Cut.rank_eq (c : Cut up ends) {i b h t : Nat} (hi : up[i]? = some (some b))
    (hb : ends[b]? = some (h, t)) : rank up i = i + 1 - h := by
  obtain ⟨h', t', hb', h₁, h₂⟩ := (c.owned_iff i b).mp hi
  rw [hb] at hb'
  obtain ⟨rfl, rfl⟩ := Prod.mk.inj (Option.some.inj hb')
  have hlt := (List.getElem?_eq_some_iff.mp hi).1
  rw [rank, countP_take (c.same_block_iff hi hb) (by omega)]
  omega

theorem Cut.size_eq (c : Cut up ends) {i b h t : Nat} (hi : up[i]? = some (some b))
    (hb : ends[b]? = some (h, t)) : size up i = t + 1 - h := by
  have hlt := c.tail_lt hb
  have hcount := countP_take (c.same_block_iff hi hb) (Nat.le_refl up.length)
  rw [List.take_length] at hcount
  rw [size, hcount]
  omega

theorem size_le (up : List (Option Nat)) (i : Nat) : size up i ≤ up.length := List.countP_le_length

theorem rank_le_size (up : List (Option Nat)) (i : Nat) : rank up i ≤ size up i :=
  (List.take_sublist _ _).countP_le

/-- There are no more blocks than elements. -/
theorem Cut.length_le (c : Cut up ends) : ends.length ≤ up.length := by
  have hhead : ∀ b h t : Nat, ends[b]? = some (h, t) → b ≤ h := by
    intro b
    induction b with
    | zero => exact fun h t _ => Nat.zero_le h
    | succ b ih =>
      intro h t hb
      have hlt := (List.getElem?_eq_some_iff.mp hb).1
      have hb' := getElem?_ends ends (b := b) (by omega)
      have h₁ := ih _ _ hb'
      have h₂ := c.nonempty _ _ _ hb'
      have h₃ := c.ordered _ _ _ _ _ hb' hb
      omega
  by_contra hlt
  have hb := getElem?_ends ends (b := up.length) (by omega)
  have h₁ := hhead _ _ _ hb
  have h₂ := c.nonempty _ _ _ hb
  have h₃ := c.tail_lt hb
  omega

end HAS.Blocks

import Mathlib.Computability.Language
import Mathlib.Tactic.Common

/-! Patterns with stars and question marks, and the words they match. -/
namespace HAS.Glob
variable {α : Type*}

/-- A star stands for any word, a question mark for any letter. -/
inductive Piece (α : Type*)
  | star
  | any
  | letter (a : α)
deriving DecidableEq

def Piece.admits : Piece α → α → Prop
  | .star, _ => False
  | .any, _ => True
  | .letter b, a => a = b

def Piece.lang : Piece α → Language α
  | .star => ⊤
  | piece => {w | ∃ a, piece.admits a ∧ w = [a]}

/-- The words that a pattern matches. -/
def lang (pattern : List (Piece α)) : Language α := (pattern.map Piece.lang).prod

/-- So many letters are not taken by a star. -/
def solid : List (Piece α) → Nat
  | [] => 0
  | .star :: pattern => solid pattern
  | _ :: pattern => solid pattern + 1

theorem Piece.mem_lang {piece : Piece α} (hp : piece ≠ .star) {w : List α} :
    w ∈ piece.lang ↔ ∃ a, piece.admits a ∧ w = [a] := by
  cases piece with
  | star => exact absurd rfl hp
  | any => exact Iff.rfl
  | letter b => exact Iff.rfl

theorem solid_cons {piece : Piece α} (hp : piece ≠ .star) (pattern : List (Piece α)) :
    solid (piece :: pattern) = solid pattern + 1 := by
  cases piece with
  | star => exact absurd rfl hp
  | any => rfl
  | letter b => rfl

theorem mem_nil {w : List α} : w ∈ lang [] ↔ w = [] := Iff.rfl

theorem mem_cons {piece : Piece α} (hp : piece ≠ .star) {pattern : List (Piece α)} {w : List α} :
    w ∈ lang (piece :: pattern) ↔ ∃ a u, w = a :: u ∧ piece.admits a ∧ u ∈ lang pattern := by
  rw [lang, List.map_cons, List.prod_cons, Language.mem_mul]
  constructor
  · intro ⟨s, hs, u, hu, hw⟩
    obtain ⟨a, ha, rfl⟩ := (Piece.mem_lang hp).mp hs
    exact ⟨a, u, hw.symm, ha, hu⟩
  · intro ⟨a, u, hw, ha, hu⟩
    exact ⟨[a], (Piece.mem_lang hp).mpr ⟨a, ha, rfl⟩, u, hu, hw.symm⟩

theorem mem_star {pattern : List (Piece α)} {w : List α} :
    w ∈ lang (.star :: pattern) ↔ ∃ u, u <:+ w ∧ u ∈ lang pattern := by
  rw [lang, List.map_cons, List.prod_cons, Language.mem_mul]
  constructor
  · intro ⟨s, _, u, hu, hw⟩
    exact ⟨u, ⟨s, hw⟩, hu⟩
  · intro ⟨u, ⟨s, hw⟩, hu⟩
    exact ⟨s, trivial, u, hu, hw⟩

theorem mem_star_nil {pattern : List (Piece α)} :
    [] ∈ lang (.star :: pattern) ↔ [] ∈ lang pattern := by
  simp [mem_star]

/-- A star takes one more letter, or nothing more. -/
theorem mem_star_cons {pattern : List (Piece α)} {a : α} {w : List α} :
    a :: w ∈ lang (.star :: pattern) ↔ w ∈ lang (.star :: pattern) ∨ a :: w ∈ lang pattern := by
  simp only [mem_star, List.suffix_cons_iff]
  constructor
  · intro ⟨u, hu, hmem⟩
    cases hu with
    | inl h => exact .inr (h ▸ hmem)
    | inr h => exact .inl ⟨u, h, hmem⟩
  · intro h
    cases h with
    | inl h => exact h.imp fun u hu => ⟨.inr hu.1, hu.2⟩
    | inr h => exact ⟨_, .inl rfl, h⟩

/-- No word is shorter than what a pattern takes besides its stars. -/
theorem solid_le {pattern : List (Piece α)} {w : List α} (h : w ∈ lang pattern) :
    solid pattern ≤ w.length := by
  induction pattern generalizing w with
  | nil => exact Nat.zero_le _
  | cons piece pattern ih =>
    by_cases hp : piece = .star
    · obtain ⟨u, hu, hmem⟩ := mem_star.mp (hp ▸ h)
      rw [hp]
      exact (ih hmem).trans hu.length_le
    · obtain ⟨a, u, rfl, -, hmem⟩ := (mem_cons hp).mp h
      rw [solid_cons hp, List.length_cons]
      exact Nat.succ_le_succ (ih hmem)

theorem mem_letters {u w : List α} {pattern : List (Piece α)} :
    w ∈ lang (u.map .letter ++ pattern) ↔ ∃ v, w = u ++ v ∧ v ∈ lang pattern := by
  induction u generalizing w with
  | nil => simp
  | cons a u ih =>
    rw [List.map_cons, List.cons_append, mem_cons (by simp)]
    simp only [ih, Piece.admits]
    constructor
    · intro ⟨_, _, hw, ha, v, hv, hmem⟩
      exact ⟨v, by rw [hw, ha, hv, List.cons_append], hmem⟩
    · intro ⟨v, hw, hmem⟩
      exact ⟨a, u ++ v, hw, rfl, v, rfl, hmem⟩

/-- Letters between two stars are looked for anywhere. -/
theorem mem_infix {u w : List α} :
    w ∈ lang (.star :: (u.map .letter ++ [.star])) ↔ u <:+: w := by
  rw [mem_star]
  constructor
  · intro ⟨t, ⟨s, hs⟩, hmem⟩
    obtain ⟨v, rfl, -⟩ := mem_letters.mp hmem
    exact ⟨s, v, by rw [List.append_assoc, hs]⟩
  · intro ⟨s, v, hw⟩
    exact ⟨u ++ v, ⟨s, by rw [← List.append_assoc, hw]⟩,
      mem_letters.mpr ⟨v, rfl, mem_star.mpr ⟨[], List.nil_suffix, mem_nil.mpr rfl⟩⟩⟩

end HAS.Glob

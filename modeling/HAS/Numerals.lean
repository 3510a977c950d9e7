import Mathlib.Data.Nat.Digits.Lemmas
import Mathlib.Tactic.Ring

/-! Numbers spoken digit by digit, the places of a group named after each digit and the groups
after their last one, as in Japanese. Zeros are silent, and so are ones before the name of a
place within the group. -/
namespace HAS.Numerals

inductive Word where
  | digit (d : Nat)
  | unit (i : Nat)
  | group (p : Nat)
deriving DecidableEq

/-- What has been heard: the groups before, the places of this group, and a digit whose place
is not named yet. -/
structure Heard where
  total : Nat
  group : Nat
  last : Option Nat

section Base
variable (base width : Nat)

def Heard.value (s : Heard) : Nat := s.total + s.group + s.last.getD 0

/-- The name of a place without a digit before it counts once. -/
def hear (s : Heard) : Word → Heard
  | .digit d => ⟨s.total, s.group, some d⟩
  | .unit i => ⟨s.total, s.group + s.last.getD 1 * base ^ i, none⟩
  | .group p => ⟨s.total + (s.group + s.last.getD 0) * (base ^ width) ^ p, 0, none⟩

def value (words : List Word) : Nat := (words.foldl (hear base width) ⟨0, 0, none⟩).value

/-- The words for the digit at the beginning, with so many digits behind it; heard tells
whether its group has been heard of. -/
def sayDigit (heard : Bool) (d behind : Nat) : List Word :=
  if behind % width = 0 then
    (if d = 0 then [] else [.digit d]) ++
      (if (heard || d ≠ 0) = true ∧ 0 < behind / width then [.group (behind / width)] else [])
  else (if d ≤ 1 then [] else [.digit d]) ++ (if d = 0 then [] else [.unit (behind % width)])

def heardNext (heard : Bool) (d behind : Nat) : Bool :=
  if behind % width = 0 then false else heard || d ≠ 0

/-- The words for digits, the highest first. -/
def say : Bool → List Nat → List Word
  | _, [] => []
  | heard, d :: ds =>
    sayDigit width heard d ds.length ++ say (heardNext width heard d ds.length) ds

variable {base width}

end Base
end HAS.Numerals

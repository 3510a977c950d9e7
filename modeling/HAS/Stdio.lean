import HAS.Bytes
import HAS.IRemocon
import HAS.PropertyTree
import Mathlib.Algebra.Order.Ring.Rat
import Mathlib.Data.Nat.Digits.Lemmas

/-! The functions of the C library that print into, read into and read from buffers, as
far as the two drivers of Open JTalk need them. -/
namespace HAS.Stdio
open HAS.Bytes HAS.IRemocon HAS.PropertyTree

abbrev PERCENT : Byte := 37

/-- sprintf with int arguments: %% and %d. None where printing is undefined: an argument
is missing, or the directive is another one. -/
def sprintf : List Byte → List Int → Option (List Byte)
  | [], _ => some []
  | c :: format, args =>
    if c ≠ PERCENT then (sprintf format args).map (c :: ·)
    else
      match format with
      | [] => none
      | d :: format =>
        if d = PERCENT then (sprintf format args).map (PERCENT :: ·)
        else
          match args with
          | [] => none
          | n :: args => if d = 100 then (sprintf format args).map (decimal n ++ ·) else none

/-- Every percent sign is one of a pair. -/
def Paired : List Byte → Bool
  | [] => true
  | c :: format =>
    if c ≠ PERCENT then Paired format
    else
      match format with
      | [] => false
      | d :: format => d = PERCENT && Paired format

/-- What is printed of a format whose percent signs are paired. -/
def halved : List Byte → List Byte
  | [] => []
  | c :: format =>
    if c ≠ PERCENT then c :: halved format
    else
      match format with
      | [] => []
      | _ :: format => PERCENT :: halved format

/-- fgets: none at the end of the file, else the line with its line feed, cut to what the
buffer holds. -/
def fgets (size : Nat) (file : List Byte) : Option (List Byte) :=
  if file = [] ∨ size < 2 then none
  else
    let line := file.takeWhile (· ≠ LF) ++ (file.dropWhile (· ≠ LF)).take 1
    some (line.take (size - 1))

/-- An open file: what is still to be read, and feof. -/
structure File where
  rest : List Byte
  eof : Bool
  at_end : eof = true → rest = []

def File.opened (bytes : List Byte) : File :=
  ⟨bytes, false, fun h => absurd h Bool.false_ne_true⟩

/-- The character that ends a token has been read, or the end of the file. -/
def File.next : List Byte → File
  | [] => ⟨[], true, fun _ => rfl⟩
  | _ :: rest => File.opened rest

/-- fgetc, read into a char: the end of the file is 255. -/
def fgetc (fp : File) : Byte × File := (fp.rest.headD 255, File.next fp.rest)

def digitsValue (digits : List Byte) : Nat := digits.foldl (fun n b => n * 10 + (b.val - 48)) 0

/-- A sign, if there is one, and what follows it. -/
def signed (s : List Byte) : Bool × List Byte :=
  if s.head? = some 45 then (true, s.tail)
  else if s.head? = some 43 then (false, s.tail)
  else (false, s)

def atoi (s : List Byte) : Int :=
  let (negative, s) := signed (s.dropWhile space)
  let n : Int := digitsValue (s.takeWhile decimalDigit)
  if negative then -n else n

/-- atof on a decimal numeral, exactly. -/
def atof (s : List Byte) : Rat :=
  let (negative, s) := signed (s.dropWhile space)
  let whole := s.takeWhile decimalDigit
  let s := s.dropWhile decimalDigit
  let fraction := if s.head? = some 46 then s.tail.takeWhile decimalDigit else []
  let s := if s.head? = some 46 then s.tail.dropWhile decimalDigit else s
  let exponent := if s.head? = some 101 ∨ s.head? = some 69 then atoi s.tail else 0
  let mantissa : Rat := digitsValue (whole ++ fraction)
  let value := mantissa * (10 : Rat) ^ (exponent - fraction.length)
  if negative then -value else value

section
variable {c : Byte} {format : List Byte} {args : List Int}

theorem sprintf_cons (hc : c ≠ PERCENT) :
    sprintf (c :: format) args = (sprintf format args).map (c :: ·) := by
  rw [sprintf.eq_def]
  simp [hc]

theorem sprintf_pair :
    sprintf (PERCENT :: PERCENT :: format) args = (sprintf format args).map (PERCENT :: ·) := by
  rw [sprintf.eq_def]
  simp

theorem sprintf_directive {d : Byte} (hd : d ≠ PERCENT) :
    sprintf (PERCENT :: d :: format) [] = none := by
  rw [sprintf.eq_def]
  simp [hd]

theorem sprintf_conversion (n : Int) :
    sprintf (PERCENT :: 100 :: format) (n :: args) =
      (sprintf format args).map (decimal n ++ ·) := by
  have hd : (100 : Byte) ≠ PERCENT := by decide
  rw [sprintf.eq_def]
  simp [hd]

theorem sprintf_unknown {d : Byte} (hd : d ≠ PERCENT) (hd' : d ≠ 100) :
    sprintf (PERCENT :: d :: format) args = none := by
  rw [sprintf.eq_def]
  cases args with
  | nil => simp [hd]
  | cons n args => simp [hd, hd']

theorem halved_cons (hc : c ≠ PERCENT) : halved (c :: format) = c :: halved format := by
  rw [halved.eq_def]
  simp [hc]

theorem sprintf_of_paired (h : Paired format = true) (rest : List Byte) (args : List Int) :
    sprintf (format ++ rest) args = (sprintf rest args).map (halved format ++ ·) := by
  fun_induction Paired format with
  | case1 => simp [halved]
  | case2 c format hc ih =>
    rw [List.cons_append, sprintf_cons hc, ih h, halved_cons hc, Option.map_map]
    rfl
  | case3 => cases h
  | case4 c hc d format ih =>
    obtain rfl : c = PERCENT := not_not.mp hc
    obtain ⟨hd, hp⟩ := Bool.and_eq_true_iff.mp h
    obtain rfl : d = PERCENT := of_decide_eq_true hd
    rw [List.cons_append, List.cons_append, sprintf_pair, ih hp, Option.map_map]
    rfl

/-- A conversion at the end finds no argument, whatever stands before it. -/
theorem sprintf_no_argument {b : Byte} {rest : List Byte} (hb : b ≠ PERCENT)
    (hrest : sprintf (b :: rest) [] = none) (format : List Byte) :
    sprintf (format ++ b :: rest) [] = none := by
  fun_induction Paired format with
  | case1 => exact hrest
  | case2 c format hc ih =>
    rw [List.cons_append, sprintf_cons hc, ih]
    rfl
  | case3 c hc =>
    obtain rfl : c = PERCENT := not_not.mp hc
    exact sprintf_directive hb
  | case4 c hc d format ih =>
    obtain rfl : c = PERCENT := not_not.mp hc
    by_cases hd : d = PERCENT
    · rw [hd, List.cons_append, List.cons_append, sprintf_pair, ih]
      rfl
    · exact sprintf_directive hd

/-- Before a conversion that needs the only argument, percent signs must be paired. -/
theorem sprintf_of_not_paired (h : Paired format = false) {b : Byte} {rest : List Byte}
    (hb : b ≠ PERCENT) (hb' : b ≠ 100) (hrest : sprintf (b :: rest) [] = none) (n : Int) :
    sprintf (format ++ b :: rest) [n] = none := by
  fun_induction Paired format with
  | case1 => cases h
  | case2 c format hc ih =>
    rw [List.cons_append, sprintf_cons hc, ih h]
    rfl
  | case3 c hc =>
    obtain rfl : c = PERCENT := not_not.mp hc
    exact sprintf_unknown hb hb'
  | case4 c hc d format ih =>
    obtain rfl : c = PERCENT := not_not.mp hc
    rw [List.cons_append, List.cons_append]
    by_cases hd : d = PERCENT
    · have hp : Paired format = false := by simpa [hd] using h
      rw [hd, sprintf_pair, ih hp]
      rfl
    · by_cases hd' : d = 100
      · rw [hd', sprintf_conversion, sprintf_no_argument hb hrest format]
        rfl
      · exact sprintf_unknown hd hd'

end

theorem halved_length_le (format : List Byte) : (halved format).length ≤ format.length := by
  fun_induction halved format with
  | case1 => exact le_rfl
  | case2 c format hc ih => simpa using ih
  | case3 c hc => simp
  | case4 c hc d format ih =>
    simp only [List.length_cons]
    omega

theorem halved_eq_self {format : List Byte} (h : PERCENT ∉ format) : halved format = format := by
  induction format with
  | nil => rfl
  | cons c format ih =>
    rw [List.mem_cons, not_or] at h
    rw [halved_cons (Ne.symm h.1), ih h.2]

theorem paired_of_notMem {format : List Byte} (h : PERCENT ∉ format) : Paired format = true := by
  induction format with
  | nil => rfl
  | cons c format ih =>
    rw [List.mem_cons, not_or] at h
    rw [Paired.eq_def]
    simpa [Ne.symm h.1] using ih h.2

theorem digitsValue_eq (ds : List Byte) :
    digitsValue ds = Nat.ofDigits 10 (ds.reverse.map digitValue) := by
  rw [Nat.ofDigits_eq_foldr, List.foldr_map, List.foldr_reverse]
  simp only [digitsValue, digitValue, Nat.cast_id]
  congr 1
  funext n b
  omega

theorem takeWhile_digits (n : Nat) : (digits n).takeWhile decimalDigit = digits n := by
  refine List.takeWhile_eq_self_iff.mpr fun b hb => ?_
  have hrange := digits_range hb
  simp only [decimalDigit, Bool.and_eq_true, decide_eq_true_eq, Fin.le_def]
  exact ⟨hrange.1, Nat.le_of_lt_succ hrange.2⟩

theorem digits_cons (n : Nat) : ∃ d ds, digits n = d :: ds := by
  have hne : digits n ≠ [] := by
    intro hnil
    have hvalue := ofDigits_digits n
    rw [hnil] at hvalue
    obtain rfl : n = 0 := hvalue.symm
    cases hnil
  exact List.exists_cons_of_ne_nil hne

theorem digit_not_special (d : Byte) (h : 48 ≤ d.val ∧ d.val < 58) :
    space d = false ∧ d ≠ 45 ∧ d ≠ 43 := by
  revert d
  decide +kernel

theorem decimal_length {n : Int} {k : Nat} (hk : 0 < k) (h : n.natAbs < 10 ^ k) :
    (decimal n).length ≤ k + 1 := by
  have hdigits : (digits n.natAbs).length ≤ k := by
    unfold digits
    split
    · exact hk
    · rw [List.length_map, List.length_reverse]
      exact (Nat.digits_length_le_iff (by decide) _).mpr h
  unfold decimal
  split
  · rw [List.length_cons]
    omega
  · omega

theorem decimal_natCast (n : Nat) : decimal n = digits n := by
  simp [decimal]

/-- What operator<< and %d print of an int, atoi reads. -/
theorem atoi_decimal (n : Int) : atoi (decimal n) = n := by
  have hvalue (k : Nat) : digitsValue ((digits k).takeWhile decimalDigit) = k := by
    rw [takeWhile_digits, digitsValue_eq, ofDigits_digits]
  by_cases hn : n < 0
  · have hspace : space 45 = false := by decide
    have hsigned : signed ((decimal n).dropWhile space) = (true, digits n.natAbs) := by
      simp [decimal, hn, hspace, signed]
    simp only [atoi, hsigned, hvalue, if_true]
    omega
  · obtain ⟨d, ds, hds⟩ := digits_cons n.natAbs
    have hd := digit_not_special d (digits_range (hds ▸ List.mem_cons_self))
    have hsigned : signed ((decimal n).dropWhile space) = (false, digits n.natAbs) := by
      simp [decimal, hn, hds, hd, signed]
    simp only [atoi, hsigned, hvalue, Bool.false_eq_true, if_false]
    omega

end HAS.Stdio

import Mathlib.Data.List.TakeWhile
import Mathlib.Data.Fin.Basic

/-! Strings as the code handles them: std::string keeps every byte, a char pointer
ends at the first NUL, a JavaScript string is a list of UTF-16 code units. -/
namespace HAS.Bytes

abbrev Byte := Fin 256

instance neZero_byte : @NeZero Nat Zero.ofOfNat0 256 := Nat.instNeZeroSucc

/-- One element of a JavaScript string. -/
abbrev CodeUnit := Fin 65536

instance neZero_codeUnit : @NeZero Nat Zero.ofOfNat0 65536 := Nat.instNeZeroSucc

abbrev NUL : Byte := 0
abbrev LF : Byte := 10
abbrev CR : Byte := 13

/-- Source text of a C++ string literal that stays within ASCII. -/
def ascii (s : String) : List Byte := s.toList.map fun c => Fin.ofNat 256 c.toNat

/-- What a char pointer denotes: bytes up to, and without, the terminating NUL. -/
structure CString where
  bytes : List Byte
  nul_free : NUL ∉ bytes
deriving DecidableEq

/-- std::string::c_str, read back as a char pointer. -/
def c_str (s : List Byte) : CString where
  bytes := s.takeWhile (· ≠ NUL)
  nul_free := by
    intro h
    simpa using List.mem_takeWhile_imp h

theorem c_str_of_nul_free {s : List Byte} (h : NUL ∉ s) : (c_str s).bytes = s := by
  refine List.takeWhile_eq_self_iff.mpr fun b hb => ?_
  simpa using fun he : b = NUL => h (he ▸ hb)

theorem c_str_eq_self_iff (s : List Byte) : (c_str s).bytes = s ↔ NUL ∉ s := by
  refine ⟨fun h => ?_, c_str_of_nul_free⟩
  exact h ▸ (c_str s).nul_free

end HAS.Bytes

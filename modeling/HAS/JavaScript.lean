import HAS.Unicode

/-! JavaScript::exec and exec_script: what they hand to the compiler. -/
namespace HAS.JavaScript
open HAS.Bytes HAS.Unicode

/-- exec: String::New(code.c_str()), then Script::Compile. -/
def exec (code : List Byte) : List CodeUnit := decode (c_str code).bytes

theorem exec_of_nul_free {code : List Byte} (h : NUL ∉ code) : exec code = decode code := by
  rw [exec, c_str_of_nul_free h]

end HAS.JavaScript

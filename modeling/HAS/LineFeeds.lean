import HAS.Comments

/-! A text and the same text without its line feeds: where both are read as the same
elements. -/
namespace HAS.Lexical
open HAS.Bytes

section
variable {G : Grammar}

end

end HAS.Lexical

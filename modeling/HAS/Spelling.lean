import HAS.StringLiteral

/-! What the reader keeps of a text: its solid units in their order, and of the element
being read everything so far. -/
namespace HAS.Lexical
open HAS.Bytes

/-- Neither white space nor a line terminator. -/
def solid (c : CodeUnit) : Bool := !whiteSpace c && !lineTerminator c

def Mode.text : Mode → List CodeUnit
  | between | bad => []
  | identifier text => text
  | identifierEscape text _ _ _ => text
  | punctuator text => text
  | number _ text => text
  | string _ text _ => text
  | stringEscape _ text _ => text
  | stringCR _ text _ => text
  | stringZero _ text _ => text
  | stringHex _ text _ _ _ => text
  | slash _ => [chr '/']
  | regExp text => text
  | regExpClass text => text
  | regExpEscape text _ => text
  | regExpFlags text => text
  | singleLine text => text
  | multiLine text => text
  | multiLineStar text => text
  | complete t => t.text
  | completeComment text => text

def Closed.text : Closed → List CodeUnit
  | nothing => []
  | token t => t.text
  | multiLineComment text => text
  | singleLineComment text => text

def Element.text : Element → List CodeUnit
  | token t _ => t.text
  | multiLineComment text => text
  | singleLineComment c => [c]

end HAS.Lexical

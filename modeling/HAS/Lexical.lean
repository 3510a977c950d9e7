import HAS.Bytes

/-! The ES5 lexical grammar as a reader of UTF-16 code units. An input element is
read as long as the next unit extends it, then closed. Which goal symbol applies at
a '/' and where a line terminator matters are decided by the syntactic grammar from
the tokens before: they are fields of `Grammar`, as are the Unicode tables. -/
namespace HAS.Lexical
open HAS.Bytes

/-- A character of the ES5 text as a code unit. -/
def chr (c : Char) : CodeUnit := Fin.ofNat 65536 c.toNat

def chars (s : String) : List CodeUnit := s.toList.map chr

inductive TokenClass where
  | identifierName | punctuator | numericLiteral | stringLiteral | regularExpressionLiteral
deriving DecidableEq, Repr

/-- A token with the source text it is spelled with; a string literal also with its
value. A line continuation is kept in the text as backslash and one terminator. -/
structure Token where
  cls : TokenClass
  text : List CodeUnit
  value : List CodeUnit := []
deriving DecidableEq, Repr

/-- A token, and whether a line terminator that matters stands before it. -/
abbrev Lexeme := Token × Bool

/-- Input elements other than white space. Of comments only the characters that are
neither white space (single line) nor line feeds (multi line) are kept. -/
inductive Element where
  | token (t : Token) (afterTerminator : Bool)
  | multiLineComment (text : List CodeUnit)
  | singleLineComment (c : CodeUnit)
deriving DecidableEq, Repr

/-- What the lexical grammar leaves open. -/
structure Grammar where
  /-- UnicodeLetter, outside ASCII. -/
  letter : CodeUnit → Bool
  /-- UnicodeCombiningMark, UnicodeDigit, UnicodeConnectorPunctuation, ZWNJ, ZWJ. -/
  mark : CodeUnit → Bool
  /-- Does the goal symbol InputElementRegExp apply after these tokens? -/
  regExpAllowed : List Lexeme → Bool
  /-- After these tokens, does a line terminator before this token change the parse:
  does automatic semicolon insertion or a restricted production ask for it? -/
  terminatorMatters : List Lexeme → Token → Bool

/-- For texts that leave none of this open: ASCII, no '/', no line terminator. -/
def Grammar.ascii : Grammar := ⟨fun _ => false, fun _ => false, fun _ => false, fun _ _ => false⟩

def whiteSpace (c : CodeUnit) : Bool :=
  c == 9 || c == 11 || c == 12 || c == 32 || c == 0xA0 || c == 0xFEFF || c == 0x1680 ||
  c == 0x180E || (0x2000 ≤ c && c ≤ 0x200A) || c == 0x202F || c == 0x205F || c == 0x3000

def lineTerminator (c : CodeUnit) : Bool := c == 10 || c == 13 || c == 0x2028 || c == 0x2029

def digit (c : CodeUnit) : Bool := 48 ≤ c && c ≤ 57

/-- Value of a hexadecimal digit. -/
def hexDigit (c : CodeUnit) : Option Nat :=
  if digit c then some (c.val - 48)
  else if 65 ≤ c && c ≤ 70 then some (c.val - 55)
  else if 97 ≤ c && c ≤ 102 then some (c.val - 87)
  else none

def asciiLetter (c : CodeUnit) : Bool := (65 ≤ c && c ≤ 90) || (97 ≤ c && c ≤ 122)

/-- Outside ASCII the tables decide; neither white space, line terminators nor the
replacement character U+FFFD are in them. -/
def beyondAscii (c : CodeUnit) : Bool :=
  0x80 ≤ c && !whiteSpace c && !lineTerminator c && c != 0xFFFD

def idStart (G : Grammar) (c : CodeUnit) : Bool :=
  asciiLetter c || c == 36 || c == 95 || (beyondAscii c && G.letter c)

def idPart (G : Grammar) (c : CodeUnit) : Bool :=
  idStart G c || digit c || (beyondAscii c && G.mark c)

/-- Punctuators of ES5 7.7, without those that begin with '/'. -/
def punctuators : List (List CodeUnit) :=
  ["\x7b", "\x7d", "(", ")", "[", "]", ".", ";", ",", "<", ">", "<=", ">=", "==", "!=", "===",
   "!==", "+", "-", "*", "%", "++", "--", "<<", ">>", ">>>", "&", "|", "^", "!", "~", "&&",
   "||", "?", ":", "=", "+=", "-=", "*=", "%=", "<<=", ">>=", ">>>=", "&=", "|=", "^="].map chars

/-- How far a numeric literal has been read. -/
inductive Phase where
  | zero | int | frac | expMark | expSign | exp | hexMark | hex
deriving DecidableEq, Repr

/-- The input element being read, with its text so far. -/
inductive Mode where
  | between
  | identifier (text : List CodeUnit)
  /-- After a backslash in an identifier: units read of uXXXX, and their value. -/
  | identifierEscape (text : List CodeUnit) (first : Bool) (n v : Nat)
  | punctuator (text : List CodeUnit)
  | number (phase : Phase) (text : List CodeUnit)
  | string (quote : CodeUnit) (text value : List CodeUnit)
  | stringEscape (quote : CodeUnit) (text value : List CodeUnit)
  /-- After backslash and CR: a LF belongs to the same line continuation. -/
  | stringCR (quote : CodeUnit) (text value : List CodeUnit)
  | stringZero (quote : CodeUnit) (text value : List CodeUnit)
  | stringHex (quote : CodeUnit) (text value : List CodeUnit) (left v : Nat)
  /-- After a '/', with the goal symbol InputElementRegExp or InputElementDiv. -/
  | slash (regExp : Bool)
  | regExp (text : List CodeUnit)
  | regExpClass (text : List CodeUnit)
  | regExpEscape (text : List CodeUnit) (inClass : Bool)
  | regExpFlags (text : List CodeUnit)
  | singleLine (text : List CodeUnit)
  | multiLine (text : List CodeUnit)
  | multiLineStar (text : List CodeUnit)
  | complete (t : Token)
  | completeComment (text : List CodeUnit)
  /-- No input element begins like this. -/
  | bad
deriving DecidableEq, Repr

/-- SV of a character escape. -/
def escapeValue (c : CodeUnit) : CodeUnit :=
  if c = chr 'b' then 8 else if c = chr 't' then 9 else if c = chr 'n' then 10
  else if c = chr 'v' then 11 else if c = chr 'f' then 12 else if c = chr 'r' then 13 else c

def extendNumber (G : Grammar) (phase : Phase) (text : List CodeUnit) (c : CodeUnit) :
    Option Mode :=
  let next (p : Phase) := some (Mode.number p (text ++ [c]))
  /- No IdentifierStart or DecimalDigit may follow a numeric literal. -/
  let stop := if idStart G c || digit c || c == chr '\\' then some Mode.bad else none
  let mark := c == chr 'e' || c == chr 'E'
  match phase with
  | .zero =>
    if c = chr '.' then next .frac else if mark then next .expMark
    else if c = chr 'x' ∨ c = chr 'X' then next .hexMark else stop
  | .int =>
    if digit c then next .int else if c = chr '.' then next .frac
    else if mark then next .expMark else stop
  | .frac => if digit c then next .frac else if mark then next .expMark else stop
  | .expMark =>
    if digit c then next .exp else if c = chr '+' ∨ c = chr '-' then next .expSign else some .bad
  | .expSign => if digit c then next .exp else some .bad
  | .exp => if digit c then next .exp else stop
  | .hexMark => if (hexDigit c).isSome then next .hex else some .bad
  | .hex => if (hexDigit c).isSome then next .hex else stop

def extendString (quote : CodeUnit) (text value : List CodeUnit) (c : CodeUnit) : Mode :=
  if c = quote then .complete ⟨.stringLiteral, text ++ [c], value⟩
  else if c = chr '\\' then .stringEscape quote (text ++ [c]) value
  else if lineTerminator c then .bad
  else .string quote (text ++ [c]) (value ++ [c])

def extendEscape (quote : CodeUnit) (text value : List CodeUnit) (c : CodeUnit) : Mode :=
  let text := text ++ [c]
  if c = 13 then .stringCR quote text value
  else if lineTerminator c then .string quote text value
  else if c = chr 'x' then .stringHex quote text value 2 0
  else if c = chr 'u' then .stringHex quote text value 4 0
  else if c = chr '0' then .stringZero quote text (value ++ [0])
  else if digit c then .bad
  else .string quote text (value ++ [escapeValue c])

def extendHex (quote : CodeUnit) (text value : List CodeUnit) (left v : Nat) (c : CodeUnit) :
    Mode :=
  match hexDigit c with
  | none => .bad
  | some d =>
    if left ≤ 1 then .string quote (text ++ [c]) (value ++ [Fin.ofNat 65536 (v * 16 + d)])
    else .stringHex quote (text ++ [c]) value (left - 1) (v * 16 + d)

def extendIdentifierEscape (G : Grammar) (text : List CodeUnit) (first : Bool) (n v : Nat)
    (c : CodeUnit) : Mode :=
  if n = 0 then
    if c = chr 'u' then .identifierEscape (text ++ [c]) first 1 0 else .bad
  else match hexDigit c with
  | none => .bad
  | some d =>
    if n < 4 then .identifierEscape (text ++ [c]) first (n + 1) (v * 16 + d)
    else
      let u : CodeUnit := Fin.ofNat 65536 (v * 16 + d)
      if (if first then idStart G u else idPart G u) then .identifier (text ++ [c]) else .bad

/-- Does the unit belong to the input element being read? -/
def extend (G : Grammar) (m : Mode) (c : CodeUnit) : Option Mode :=
  match m with
  | .between | .complete _ | .completeComment _ => none
  | .bad => some .bad
  | .identifier text =>
    if idPart G c then some (.identifier (text ++ [c]))
    else if c = chr '\\' then some (.identifierEscape (text ++ [c]) false 0 0) else none
  | .identifierEscape text first n v => some (extendIdentifierEscape G text first n v c)
  | .punctuator text =>
    if text ++ [c] ∈ punctuators then some (.punctuator (text ++ [c]))
    else if text = chars "." ∧ digit c then some (.number .frac (text ++ [c])) else none
  | .number phase text => extendNumber G phase text c
  | .string quote text value => some (extendString quote text value c)
  | .stringEscape quote text value => some (extendEscape quote text value c)
  | .stringCR quote text value =>
    some (if c = 10 then .string quote text value else extendString quote text value c)
  | .stringZero quote text value =>
    some (if digit c then .bad else extendString quote text value c)
  | .stringHex quote text value left v => some (extendHex quote text value left v c)
  | .slash regExp =>
    if c = chr '/' then some (.singleLine (chars "//"))
    else if c = chr '*' then some (.multiLine (chars "/*"))
    else if regExp then
      if lineTerminator c then some .bad
      else if c = chr '[' then some (.regExpClass [chr '/', c])
      else if c = chr '\\' then some (.regExpEscape [chr '/', c] false)
      else some (.regExp [chr '/', c])
    else if c = chr '=' then some (.punctuator (chars "/=")) else none
  | .regExp text =>
    if lineTerminator c then some .bad
    else if c = chr '/' then some (.regExpFlags (text ++ [c]))
    else if c = chr '[' then some (.regExpClass (text ++ [c]))
    else if c = chr '\\' then some (.regExpEscape (text ++ [c]) false)
    else some (.regExp (text ++ [c]))
  | .regExpClass text =>
    if lineTerminator c then some .bad
    else if c = chr ']' then some (.regExp (text ++ [c]))
    else if c = chr '\\' then some (.regExpEscape (text ++ [c]) true)
    else some (.regExpClass (text ++ [c]))
  | .regExpEscape text inClass =>
    if lineTerminator c then some .bad
    else some (if inClass then .regExpClass (text ++ [c]) else .regExp (text ++ [c]))
  | .regExpFlags text =>
    if idPart G c then some (.regExpFlags (text ++ [c]))
    else if c = chr '\\' then some .bad else none
  | .singleLine text =>
    if lineTerminator c then none
    else some (.singleLine (if whiteSpace c then text else text ++ [c]))
  | .multiLine text =>
    some (if c = 10 then .multiLine text
      else if c = chr '*' then .multiLineStar (text ++ [c]) else .multiLine (text ++ [c]))
  | .multiLineStar text =>
    some (if c = 10 then .multiLine text
      else if c = chr '/' then .completeComment (text ++ [c])
      else if c = chr '*' then .multiLineStar (text ++ [c]) else .multiLine (text ++ [c]))

/-- The mode a unit opens between two input elements. -/
def start (G : Grammar) (before : List Lexeme) (c : CodeUnit) : Option Mode :=
  if idStart G c then some (.identifier [c])
  else if c = chr '\\' then some (.identifierEscape [c] true 0 0)
  else if c = chr '0' then some (.number .zero [c])
  else if digit c then some (.number .int [c])
  else if c = chr '\'' ∨ c = chr '"' then some (.string c [c] [])
  else if c = chr '/' then some (.slash (G.regExpAllowed before))
  else if [c] ∈ punctuators then some (.punctuator [c])
  else none

/-- What an input element is when it ends here. -/
inductive Closed where
  | nothing
  | token (t : Token)
  | multiLineComment (text : List CodeUnit)
  | singleLineComment (text : List CodeUnit)

def close : Mode → Option Closed
  | .between => some .nothing
  | .identifier text => some (.token ⟨.identifierName, text, []⟩)
  | .punctuator text => some (.token ⟨.punctuator, text, []⟩)
  | .slash false => some (.token ⟨.punctuator, chars "/", []⟩)
  | .number .expMark _ | .number .expSign _ | .number .hexMark _ => none
  | .number _ text => some (.token ⟨.numericLiteral, text, []⟩)
  | .regExpFlags text => some (.token ⟨.regularExpressionLiteral, text, []⟩)
  | .singleLine text => some (.singleLineComment text)
  | .complete t => some (.token t)
  | .completeComment text => some (.multiLineComment text)
  | _ => none

structure State where
  mode : Mode
  /-- The tokens read so far. -/
  before : List Lexeme
  /-- Has a line terminator been read since the last token? -/
  terminator : Bool

def State.initial : State := ⟨.between, [], false⟩

/-- Enter a closed input element. -/
def State.emit (G : Grammar) (s : State) : Closed → State × List Element
  | .nothing => ({ s with mode := .between }, [])
  | .multiLineComment text => ({ s with mode := .between }, [.multiLineComment text])
  | .singleLineComment text => ({ s with mode := .between }, text.map .singleLineComment)
  | .token t =>
    let matters := s.terminator && G.terminatorMatters s.before t
    ({ mode := .between, before := s.before ++ [(t, matters)], terminator := false },
      [.token t matters])

def Mode.inMultiLine : Mode → Bool
  | .multiLine _ | .multiLineStar _ => true
  | _ => false

def State.begin (G : Grammar) (s : State) (c : CodeUnit) : Option State :=
  if whiteSpace c then some { s with mode := .between }
  else if lineTerminator c then some { s with mode := .between, terminator := true }
  else (start G s.before c).map fun m => { s with mode := m }

def step (G : Grammar) (s : State) (c : CodeUnit) : Option (State × List Element) :=
  match extend G s.mode c with
  | some m =>
    some ({ s with mode := m,
                   terminator := s.terminator || (s.mode.inMultiLine && lineTerminator c) }, [])
  | none =>
    match close s.mode with
    | none => none
    | some closed => ((s.emit G closed).1.begin G c).map fun s' => (s', (s.emit G closed).2)

def scan (G : Grammar) : State → List CodeUnit → Option (List Element)
  | s, [] => (close s.mode).map fun closed => (s.emit G closed).2
  | s, c :: cs =>
    match step G s c with
    | none => none
    | some (s', es) => (scan G s' cs).map (es ++ ·)

/-- A first part of a text: where it leaves the reader, and what came out. -/
def read (G : Grammar) : State → List CodeUnit → Option (State × List Element)
  | s, [] => some (s, [])
  | s, c :: cs =>
    match step G s c with
    | none => none
    | some (s', es) => (read G s' cs).map fun r => (r.1, es ++ r.2)

theorem scan_append (G : Grammar) (s : State) (u w : List CodeUnit) :
    scan G s (u ++ w) = (read G s u).bind fun r => (scan G r.1 w).map (r.2 ++ ·) := by
  induction u generalizing s with
  | nil =>
    simp only [List.nil_append, read, Option.bind_some]
    cases scan G s w <;> simp
  | cons c u ih =>
    simp only [List.cons_append, scan, read]
    cases step G s c with
    | none => rfl
    | some r =>
      obtain ⟨s', es⟩ := r
      simp only [ih s']
      cases read G s' u with
      | none => rfl
      | some q =>
        simp only [Option.bind_some, Option.map_some]
        cases scan G q.1 w <;> simp

/-- The input elements of a text, if ES5 assigns it any. -/
def lex (G : Grammar) (text : List CodeUnit) : Option (List Element) :=
  scan G State.initial text

end HAS.Lexical

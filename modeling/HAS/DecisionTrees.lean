import HAS.Questions
import HAS.Stdio

/-! The decision trees of a voice (HTS_misc.c, HTS_model.c): how a file of questions and trees
is loaded and searched with a label. The nodes of a tree stand in the order in which they
were made, the list that HTS_Node_find follows backwards; a pointer to one is its place. -/
namespace HAS.HTSEngine
open HAS.Bytes HAS.Stdio HAS.PropertyTree

abbrev SPACE : Byte := 32
abbrev DQUOTE : Byte := 34
abbrev SQUOTE : Byte := 39
abbrev LPAREN : Byte := 40
abbrev RPAREN : Byte := 41
abbrev COMMA : Byte := 44
abbrev MINUS : Byte := 45
abbrev LBRACKET : Byte := 91
abbrev RBRACKET : Byte := 93
abbrev LBRACE : Byte := 123
abbrev RBRACE : Byte := 125

/-- The load fails: FALSE is returned, or HTS_error ends the program. Or it is undefined. -/
inductive Fault
  | failed
  | undefined
deriving DecidableEq

abbrev Load := StateT File (Except Fault)

def blank (c : Byte) : Bool := c = SPACE ∨ c = LF

/-- An opening quote: the token starts behind it. -/
def quote (q : Byte) (start : Byte × File) : Bool × Byte × File :=
  if start.1 = q then (true, fgetc start.2) else (false, start)

/-- A token goes up to the quote that was opened, or else up to a blank. -/
def inside (squote dquote : Bool) (b : Byte) : Bool :=
  if squote || dquote then !(squote && b = SQUOTE) && !(dquote && b = DQUOTE) else !blank b

/-- The text of a token up to its first NUL; none at the end of the file. A buffer that is
too small, which an open quote makes of every one, is undefined. -/
def HTS_get_pattern_token (fp : File) : Except Fault (Option (List Byte) × File) :=
  if fp.eof then .ok (none, fp)
  else
    let (squote, start) := quote SQUOTE (fgetc (File.opened (fp.rest.dropWhile blank)))
    let (dquote, c, fp) := quote DQUOTE start
    if c = COMMA then .ok (some [COMMA], fp)
    else
      let buff := c :: fp.rest.takeWhile (inside squote dquote)
      let rest := fp.rest.dropWhile (inside squote dquote)
      if (squote || dquote) && rest.isEmpty || buff.length ≥ HTS_MAXBUFLEN then .error .undefined
      else .ok (some (c_str buff).bytes, File.next rest)

/-- A token that has to be there. -/
def token : Load (List Byte) := fun fp =>
  (HTS_get_pattern_token fp).bind fun
    | (none, _) => .error .failed
    | (some buff, fp) => .ok (buff, fp)

def HTS_is_num (buff : List Byte) : Bool := buff.all fun c => decimalDigit c || c = MINUS

/-- The digits at the end of the name of a node. -/
def HTS_name2num (buff : List Byte) : Int := atoi (buff.reverse.takeWhile decimalDigit).reverse

def HTS_Question_find_question (question : List HTS_Question) (buff : List Byte) :
    Option HTS_Question :=
  question.find? (·.string = buff)

structure HTS_Node where
  index : Int := 0
  pdf : Int := 0
  yes : Option Nat := none
  no : Option Nat := none
  quest : Option HTS_Question := none
deriving DecidableEq

structure HTS_Tree where
  head : List (List Byte)
  root : List HTS_Node
  state : Int
deriving DecidableEq

/-- The node made last of those with this number. -/
def HTS_Node_find (nodes : List HTS_Node) (num : Int) : Option Nat :=
  (List.range nodes.length).reverse.find? fun i => (nodes[i]?.map (·.index)) = some num

/-- A child is named by its number or by a PDF. -/
def childOf (buff : List Byte) : HTS_Node :=
  if HTS_is_num buff then { index := atoi buff } else { pdf := HTS_name2num buff }

/-- The two children of a node are made, the one for no first. -/
def grow (nodes : List HTS_Node) (i : Nat) (quest : HTS_Question) (no yes : List Byte) :
    List HTS_Node :=
  nodes.modify i (fun node =>
    { node with quest := some quest, no := some nodes.length, yes := some (nodes.length + 1) }) ++
    [childOf no, childOf yes]

/-- What is found, or else the load fails. -/
def found {α : Type} : Option α → Load α
  | some a => pure a
  | none => throw .failed

/-- The walk from a node; every step goes to a node made later. -/
def searchFrom (nodes : List HTS_Node) (string : List Byte) : Nat → Nat → Option Int
  | 0, _ => none
  | steps + 1, i =>
    nodes[i]?.bind fun node =>
      match node.quest with
      | none => some node.pdf
      | some quest =>
        (HTS_Question_match quest string).bind fun answer =>
          (if answer then node.yes else node.no).bind fun j =>
            nodes[j]?.bind fun child =>
              if child.pdf > 0 then some child.pdf else searchFrom nodes string steps j

def HTS_Tree_search_node (tree : HTS_Tree) (string : List Byte) : Option Int :=
  searchFrom tree.root string tree.root.length 0

end HAS.HTSEngine

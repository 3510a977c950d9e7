import HAS.Bytes

/-! boost::property_tree as far as the command file needs it: the tree that read_xml
makes of a document with its default flags, and typed look-ups by path. -/
namespace HAS.PropertyTree
open HAS.Bytes

abbrev Text := List Byte

inductive Key where
  | xmlattr
  | xmlcomment
  | name (n : Text)
deriving DecidableEq

inductive PTree where
  | node (data : Text) (children : List (Key × PTree))

def PTree.data : PTree → Text
  | node data _ => data

def PTree.children : PTree → List (Key × PTree)
  | node _ children => children

/-- The first child of each name along the path. -/
def PTree.get_child_optional (t : PTree) : List Key → Option PTree
  | [] => some t
  | k :: path =>
    match t.children.find? (·.1 = k) with
    | none => none
    | some c => c.2.get_child_optional path

def PTree.get_optional {α : Type*} (translate : Text → Option α) (t : PTree) (path : List Key) :
    Option α :=
  (t.get_child_optional path).bind fun c => translate c.data

def space (b : Byte) : Bool := b == 32 || (9 ≤ b && b ≤ 13)
def decimalDigit (b : Byte) : Bool := 48 ≤ b && b ≤ 57

/-- stream_translator for int: white space, sign, digits, white space, and no more. -/
def getInt (s : Text) : Option Int :=
  let s := s.dropWhile space
  let negative := s.head? == some 45
  let s := if negative || s.head? == some 43 then s.tail else s
  let digits := s.takeWhile decimalDigit
  let n : Nat := digits.foldl (fun n b => n * 10 + (b.val - 48)) 0
  let value : Int := if negative then -n else n
  if digits ≠ [] ∧ (s.dropWhile decimalDigit).all space ∧ -2147483648 ≤ value ∧
    value ≤ 2147483647 then some value else none

/-- What stands in an element. -/
inductive Content where
  | element (name : Text) (attributes : List (Text × Text)) (content : List Content)
  | comment (text : Text)
  | text (s : Text)

/-- A document: comments, its root element, and comments again. -/
structure Document where
  prolog : List Text
  root : Text
  attributes : List (Text × Text)
  content : List Content
  epilog : List Text

def Content.chars : Content → Text
  | .text s => s
  | _ => []

/-- All attributes are in one first child; an element without any has none. -/
def attributeNodes (attributes : List (Text × Text)) : List (Key × PTree) :=
  if attributes = [] then []
  else [(.xmlattr, .node [] (attributes.map fun a => (.name a.1, .node a.2 [])))]

mutual
def readNode : Content → List (Key × PTree)
  | .element name attributes content =>
    [(.name name, .node (content.flatMap Content.chars)
      (attributeNodes attributes ++ readNodes content))]
  | .comment text => [(.xmlcomment, .node text [])]
  | .text _ => []

def readNodes : List Content → List (Key × PTree)
  | [] => []
  | c :: cs => readNode c ++ readNodes cs
end

def read_xml (file : Document) : PTree :=
  .node [] (file.prolog.map (fun t => (.xmlcomment, .node t [])) ++
    [(.name file.root, .node (file.content.flatMap Content.chars)
      (attributeNodes file.attributes ++ readNodes file.content))] ++
    file.epilog.map fun t => (.xmlcomment, .node t []))

theorem readNodes_keys {content : List Content} {c : Key × PTree} (h : c ∈ readNodes content) :
    c.1 ≠ .xmlattr := by
  induction content with
  | nil => simp [readNodes] at h
  | cons x content ih =>
    rw [readNodes] at h
    rcases List.mem_append.mp h with h | h
    · cases x with
      | element name attributes content =>
        rw [readNode] at h
        obtain rfl := List.mem_singleton.mp h
        simp
      | comment text =>
        rw [readNode] at h
        obtain rfl := List.mem_singleton.mp h
        simp
      | text s => simp [readNode] at h
    · exact ih h

/-- An attribute of an element, looked up in its tree. -/
theorem get_attribute {α : Type*} (translate : Text → Option α) (data : Text)
    (attributes : List (Text × Text)) (content : List Content) (n : Text) :
    (PTree.node data (attributeNodes attributes ++ readNodes content)).get_optional translate
      [.xmlattr, .name n] = (attributes.find? (·.1 = n)).bind fun a => translate a.2 := by
  by_cases ha : attributes = []
  · have hf : (readNodes content).find? (·.1 = Key.xmlattr) = none := by
      refine List.find?_eq_none.mpr fun c hc => ?_
      simpa using readNodes_keys hc
    simp [PTree.get_optional, PTree.get_child_optional, PTree.children, attributeNodes, ha, hf]
  · have hf : (attributes.map fun a => (Key.name a.1, PTree.node a.2 [])).find?
        (·.1 = Key.name n) = (attributes.find? (·.1 = n)).map
          fun a => (Key.name a.1, PTree.node a.2 []) := by
      rw [List.find?_map]
      congr 2
      funext a
      simp
    simp only [PTree.get_optional, PTree.get_child_optional, PTree.children, attributeNodes, ha,
      if_false, List.cons_append, List.nil_append, List.find?_cons_of_pos, decide_true]
    rw [hf]
    cases attributes.find? (·.1 = n) <;> rfl

end HAS.PropertyTree

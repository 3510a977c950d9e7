import HAS.TreeLines

/-! Files of questions and trees, however they are laid out: what is written is what is
loaded, and the search finds what the trees that were written decide. -/
namespace HAS.HTSEngine
open HAS.Bytes HAS.Stdio HAS.PropertyTree HAS.IRemocon HAS.Readers

/-- A token that stands without quotes. -/
structure Bare (t : List Byte) : Prop where
  size : t.length < HTS_MAXBUFLEN
  nul_free : NUL ∉ t
  solid : ∀ c ∈ t, blank c = false
  start : ∃ c rest, t = c :: rest ∧ c ≠ SQUOTE ∧ c ≠ DQUOTE ∧ c ≠ COMMA

structure Quotable (t : List Byte) : Prop where
  size : t.length < HTS_MAXBUFLEN
  nul_free : NUL ∉ t
  inner : DQUOTE ∉ t
  start : ∃ c rest, t = c :: rest ∧ c ≠ COMMA

/-- The tokens of a text: blanks may stand before each, and one stands behind a bare one. -/
inductive Spells : List (List Byte) → List Byte → Prop
  | done {rest : List Byte} (h : ∀ c ∈ rest, blank c = true) : Spells [] rest
  | bare {gap t rest : List Byte} {ts : List (List Byte)} {b : Byte}
      (hgap : ∀ c ∈ gap, blank c = true) (ht : Bare t) (hb : blank b = true)
      (h : Spells ts rest) : Spells (t :: ts) (gap ++ (t ++ b :: rest))
  | quoted {gap t rest : List Byte} {ts : List (List Byte)}
      (hgap : ∀ c ∈ gap, blank c = true) (ht : Quotable t) (h : Spells ts rest) :
      Spells (t :: ts) (gap ++ DQUOTE :: (t ++ DQUOTE :: rest))
  | comma {gap rest : List Byte} {ts : List (List Byte)} (hgap : ∀ c ∈ gap, blank c = true)
      (h : Spells ts rest) : Spells ([COMMA] :: ts) (gap ++ COMMA :: rest)

theorem Spells.length_le {ts : List (List Byte)} {text : List Byte} (h : Spells ts text) :
    ts.length ≤ text.length := by
  induction h with
  | done h => exact Nat.zero_le _
  | bare hgap ht hb h ih =>
    simp only [List.length_cons, List.length_append]
    omega
  | quoted hgap ht h ih =>
    simp only [List.length_cons, List.length_append]
    omega
  | comma hgap h ih =>
    simp only [List.length_cons, List.length_append]
    omega

/-- The patterns of a question, with commas between them and a brace behind them. -/
def patternTokens : List (List Byte) → List (List Byte)
  | [] => [[RBRACE]]
  | [pattern] => [pattern, [RBRACE]]
  | pattern :: patterns => pattern :: [COMMA] :: patternTokens patterns

def questionTokens (question : HTS_Question) : List (List Byte) :=
  ascii "QS" :: question.string :: [LBRACE] :: patternTokens question.head

def entryTokens (e : Entry) : List (List Byte) :=
  [decimal e.num, e.quest.string, e.no.text, e.yes.text]

inductive Body
  | leaf (stem : List Byte) (n : Nat)
  | lines (entries : List Entry)

def Body.tokens : Body → List (List Byte)
  | .leaf stem n => [stem ++ digits n]
  | .lines entries => [LBRACE] :: (entries.flatMap entryTokens ++ [[RBRACE]])

def Body.Decides (string : List Byte) : Body → Nat → Prop
  | .leaf _ n, m => n = m
  | .lines entries, m => HTSEngine.Decides entries string (.node 0) m

structure TreeText where
  head : List (List Byte)
  state : Int
  body : Body

def TreeText.header (tree : TreeText) : List Byte :=
  LBRACE :: ([COMMA].intercalate tree.head ++
    RBRACE :: LBRACKET :: (decimal tree.state ++ [RBRACKET]))

structure VoiceText where
  questions : List HTS_Question
  trees : List TreeText

def VoiceText.tokens (voice : VoiceText) : List (List Byte) :=
  voice.questions.flatMap questionTokens ++
    voice.trees.flatMap fun tree => tree.header :: tree.body.tokens

def Body.Sound (questions : List HTS_Question) : Body → Prop
  | .leaf stem n => (Ref.pdf stem n).Plain
  | .lines entries => Ordered entries ∧
      ∀ e ∈ entries, HTS_Question_find_question questions e.quest.string = some e.quest

/-- The patterns of a tree do not contain what ends them. -/
structure TreeText.Sound (questions : List HTS_Question) (tree : TreeText) : Prop where
  patterns : tree.head ≠ []
  plain : ∀ pattern ∈ tree.head, COMMA ∉ pattern ∧ LBRACKET ∉ pattern
  start : ([COMMA].intercalate tree.head).head? ≠ some LPAREN
  stop : ([COMMA].intercalate tree.head).getLast? ≠ some RPAREN
  state : tree.state ≠ 0
  body : tree.body.Sound questions

structure VoiceText.Sound (voice : VoiceText) : Prop where
  questions : ∀ question ∈ voice.questions, question.head ≠ []
  nonempty : voice.trees ≠ []
  trees : ∀ tree ∈ voice.trees, tree.Sound voice.questions

/-- The nodes that stand for what is written. -/
def Body.Root : Body → List HTS_Node → Prop
  | .leaf _ n, root => root = [{ pdf := n }]
  | .lines entries, root => growAll [{}] entries = some root

theorem Body.Sound.root {questions : List HTS_Question} {body : Body} (h : body.Sound questions) :
    ∃ root, body.Root root := by
  cases body with
  | leaf stem n => exact ⟨_, rfl⟩
  | lines entries =>
    obtain ⟨root, hroot, -⟩ := Tracks.root.growAll (show Ordered ([] ++ entries) from h.1)
    exact ⟨root, hroot⟩

/-- The tree that is loaded for the one that is written. -/
structure Loads (tree : TreeText) (loaded : HTS_Tree) : Prop where
  head : loaded.head = tree.head
  state : loaded.state = tree.state
  root : tree.body.Root loaded.root

theorem Loads.search {questions : List HTS_Question} {tree : TreeText} {loaded : HTS_Tree}
    (h : Loads tree loaded) (hsound : tree.Sound questions) (hgrown : Grown loaded.root)
    {string : List Byte} {n : Nat} (hdecides : tree.body.Decides string n) :
    HTS_Tree_search_node loaded string = some (n : Int) := by
  obtain ⟨head, state, body⟩ := tree
  have hroot := h.root
  cases body with
  | leaf stem m =>
    obtain rfl : m = n := hdecides
    rw [HTS_Tree_search_node, show loaded.root = [{ pdf := (m : Int) }] from hroot]
    rfl
  | lines entries =>
    obtain ⟨root, hgrow, htracks⟩ := Tracks.root.growAll (show Ordered ([] ++ entries) from hsound.body.1)
    obtain rfl : root = loaded.root := Option.some.inj (hgrow.symm.trans hroot)
    exact (htracks.search hgrown hdecides rfl (Nat.le_add_left _ _)).2

/-- One way to write tokens: a line for each that is bare. -/
def written (ts : List (List Byte)) : List Byte :=
  ts.flatMap fun t => if t = [COMMA] then t else t ++ [LF]

end HAS.HTSEngine

import HAS.Stdio
import HAS.Text2mecab

/-! The words of an utterance with their readings (njd.c, njd_node.c, mecab2njd.c). The nodes
form a doubly linked list, here a list; a chain of nodes hangs on its first one. What is
undefined, a NULL read or a buffer written past its end, is none. -/
namespace HAS.NJD
open HAS.Bytes HAS.Stdio HAS.Text2mecab HAS.IRemocon

abbrev COMMA : Byte := 44
abbrev SLASH : Byte := 47
abbrev COLON : Byte := 58
abbrev ASTERISK : Byte := 42
abbrev TAB : Byte := 9

def MAXBUFLEN : Nat := 1024

/-- A string that a node keeps: there is NULL for an empty one. -/
structure Text where
  bytes : List Byte
  ne : bytes ≠ []
deriving DecidableEq

/-- What a setter stores for the string it is given. -/
def text (str : List Byte) : Option Text := if h : str = [] then none else some ⟨str, h⟩

/-- A string as it is printed: nothing for NULL. -/
def shown (t : Option Text) : List Byte := (t.map Text.bytes).getD []

@[simp] theorem text_shown (t : Option Text) : text (shown t) = t := by
  cases t with
  | none => rfl
  | some t => simp [shown, text, t.ne]

/-- The setters turn negative accents and sizes into zero. -/
structure NJDNode where
  string : Option Text := none
  pos : Option Text := none
  pos_group1 : Option Text := none
  pos_group2 : Option Text := none
  pos_group3 : Option Text := none
  ctype : Option Text := none
  cform : Option Text := none
  orig : Option Text := none
  read : Option Text := none
  pron : Option Text := none
  acc : Nat := 0
  mora_size : Nat := 0
  chain_rule : Option Text := none
  chain_flag : Int := -1
deriving DecidableEq

def njd_mora_list : List String :=
  ["ヴョ", "ヴュ", "ヴャ", "ヴォ", "ヴェ", "ヴィ", "ヴァ", "ヴ", "ン", "ヲ", "ヱ", "ヰ", "ワ", "ロ", "レ", "ル", "リョ",
    "リュ", "リャ", "リェ", "リ", "ラ", "ヨ", "ョ", "ユ", "ュ", "ヤ", "ャ", "モ", "メ", "ム", "ミョ", "ミュ", "ミャ",
    "ミェ", "ミ", "マ", "ポ", "ボ", "ホ", "ペ", "ベ", "ヘ", "プ", "ブ", "フォ", "フェ", "フィ", "ファ", "フ", "ピョ",
    "ピュ", "ピャ", "ピェ", "ピ", "ビョ", "ビュ", "ビャ", "ビェ", "ビ", "ヒョ", "ヒュ", "ヒャ", "ヒェ", "ヒ", "パ", "バ",
    "ハ", "ノ", "ネ", "ヌ", "ニョ", "ニュ", "ニャ", "ニェ", "ニ", "ナ", "ドゥ", "ド", "ト", "デョ", "デュ", "デャ",
    "デェ", "ディ", "デ", "テョ", "テュ", "テャ", "ティ", "テ", "ヅ", "ツォ", "ツェ", "ツィ", "ツァ", "ツ", "ッ", "ヂ",
    "チョ", "チュ", "チャ", "チェ", "チ", "ダ", "タ", "ゾ", "ソ", "ゼ", "セ", "ズィ", "ズ", "スィ", "ス", "ジョ", "ジュ",
    "ジャ", "ジェ", "ジ", "ショ", "シュ", "シャ", "シェ", "シ", "ザ", "サ", "ゴ", "コ", "ゲ", "ケ", "グ", "ク", "ギョ",
    "ギュ", "ギャ", "ギェ", "ギ", "キョ", "キュ", "キャ", "キェ", "キ", "ガ", "カ", "オ", "ォ", "エ", "ェ", "ウォ",
    "ウェ", "ウィ", "ウ", "ゥ", "イェ", "イ", "ィ", "ア", "ァ", "ー"]

/-- The mora at the beginning of a string: its length. -/
def firstMora (str : List Byte) : Option Nat :=
  njd_mora_list.findSome? fun mora => strtopcmp str (utf8 mora)

/-- So many moras: their length. -/
def moras : Nat → List Byte → Option Nat
  | 0, _ => some 0
  | n + 1, str => do
    let e ← firstMora str
    let rest ← moras n (str.drop e)
    some (e + rest)

/-- Copy n moras: their length, or 0 where there are not so many. -/
def morancpy (str : List Byte) (n : Nat) : Nat := (moras n str).getD 0

/-- A token up to the delimiter, and what is behind that. -/
def NJDNode.get_token_from_string (str : List Byte) (d : Byte) :
    Option (List Byte × List Byte) :=
  let buff := str.takeWhile (· ≠ d)
  if buff.length < MAXBUFLEN then some (buff, (str.dropWhile (· ≠ d)).tail) else none

/-- Accent types and mora sizes, as in 1/2:0/3. -/
def NJDNode.accents : Nat → List Byte → Option (List (Nat × Nat))
  | 0, _ => some []
  | count + 1, acc => do
    let (a, acc) ← get_token_from_string acc SLASH
    let (m, acc) ← get_token_from_string acc COLON
    let rest ← accents count acc
    some (((atoi a).toNat, (atoi m).toNat) :: rest)

/-- One node for each accent type, which takes its moras of the pronunciation. Chained nodes
copy the one before, without its string. -/
def NJDNode.chain (node : NJDNode) (pron : List Byte) : List (Nat × Nat) → List NJDNode
  | [] => []
  | (acc, size) :: rest =>
    let j := morancpy pron size
    if 0 < j then
      let node := { node with acc := acc, mora_size := size, pron := text (pron.take j) }
      node :: chain { node with string := none, chain_flag := 0 } (pron.drop j) rest
    else [{ node with acc := 0, mora_size := 0, pron := none }]

/-- One accent stays with the node, several make a chain. -/
def NJDNode.spread (node : NJDNode) (pron : List Byte) : List (Nat × Nat) → List NJDNode
  | [] => [node]
  | [(acc, size)] => [{ node with acc := acc, mora_size := size, pron := text pron }]
  | types => chain node pron types

/-- NJDNode_load, from the pronunciation, accents and chain rule on. -/
def NJDNode.loadAccents (node : NJDNode) (pron acc : List Byte) : Option (List NJDNode) :=
  if acc.contains ASTERISK then some [{ node with acc := 0, mora_size := 0, pron := text pron }]
  else (accents (acc.count SLASH) acc).map (spread node pron)

def NJDNode.load (node : NJDNode) (str : List Byte) : Option (List NJDNode) := do
  let (string, str) ← get_token_from_string str COMMA
  let (pos, str) ← get_token_from_string str COMMA
  let (pos_group1, str) ← get_token_from_string str COMMA
  let (pos_group2, str) ← get_token_from_string str COMMA
  let (pos_group3, str) ← get_token_from_string str COMMA
  let (ctype, str) ← get_token_from_string str COMMA
  let (cform, str) ← get_token_from_string str COMMA
  let (orig, str) ← get_token_from_string str COMMA
  let (read, str) ← get_token_from_string str COMMA
  let (pron, str) ← get_token_from_string str COMMA
  let (acc, str) ← get_token_from_string str COMMA
  let (chain_rule, _) ← get_token_from_string str COMMA
  loadAccents { node with
    string := text string, pos := text pos, pos_group1 := text pos_group1,
    pos_group2 := text pos_group2, pos_group3 := text pos_group3, ctype := text ctype,
    cform := text cform, orig := text orig, read := text read,
    chain_rule := text (if chain_rule = [] then ascii "-1" else chain_rule) } pron acc

/-- Every morpheme is loaded into a new node, and its chain pushed. -/
def mecab2njd (feature : List (List Byte)) : Option (List NJDNode) :=
  (feature.mapM (NJDNode.load {})).map List.flatten

def NJD_remove_silent_node (njd : List NJDNode) : List NJDNode :=
  njd.filter fun node => node.pron.isSome

def NJDNode.fprint (node : NJDNode) : List Byte :=
  shown node.string ++ COMMA :: (shown node.pos ++ COMMA :: (shown node.pos_group1 ++ COMMA ::
    (shown node.pos_group2 ++ COMMA :: (shown node.pos_group3 ++ COMMA :: (shown node.ctype ++
    COMMA :: (shown node.cform ++ COMMA :: (shown node.orig ++ COMMA :: (shown node.read ++
    COMMA :: (shown node.pron ++ COMMA :: (decimal node.acc ++ SLASH ::
    (decimal node.mora_size ++ COMMA :: (shown node.chain_rule ++ COMMA ::
    (decimal node.chain_flag ++ [LF])))))))))))))

def NJD_fprint (njd : List NJDNode) : List Byte := njd.flatMap NJDNode.fprint

def blank (c : Byte) : Bool := c = LF ∨ c = CR ∨ c = TAB

def get_token_from_string (d : Byte) (str : List Byte) : Option (List Byte × List Byte) :=
  match str with
  | [] => some ([], [])
  | c :: rest =>
    if c = d then some ([], rest)
    else
      let str := str.dropWhile blank
      let buff := str.takeWhile fun c => c ≠ d ∧ ¬ blank c
      let str := str.drop buff.length
      if buff.length < MAXBUFLEN then some (buff, if str.head? = some d then str.tail else str)
      else none

def get_token_from_fp (d : Byte) (fp : File) : Option (List Byte × File) :=
  if fp.eof then some ([], fp)
  else if fp.rest.head? = some d then some ([], File.next fp.rest)
  else
    let rest := fp.rest.dropWhile blank
    let buff := rest.takeWhile fun c => c ≠ d ∧ ¬ blank c
    if buff.length < MAXBUFLEN then some (buff, File.next (rest.drop buff.length)) else none

/-- The tokens of a node: what ends each, and whether the reading ends where it is empty. -/
def fields : List (Byte × Bool) :=
  [(COMMA, false), (COMMA, true), (COMMA, true), (COMMA, true), (COMMA, true), (COMMA, true),
    (COMMA, true), (COMMA, false), (COMMA, false), (COMMA, false), (SLASH, true), (COMMA, true),
    (COMMA, false), (COMMA, true)]

/-- The setters see a token up to its first NUL. -/
def cut (buff : List Byte) : Option Text := text (c_str buff).bytes

def nodeOf : List (List Byte) → Option NJDNode
  | [string, pos, pos_group1, pos_group2, pos_group3, ctype, cform, orig, read, pron, acc,
      mora_size, chain_rule, chain_flag] =>
    some ⟨cut string, cut pos, cut pos_group1, cut pos_group2, cut pos_group3, cut ctype,
      cut cform, cut orig, cut read, cut pron, (atoi acc).toNat, (atoi mora_size).toNat,
      cut chain_rule, atoi chain_flag⟩
  | _ => none

section Load
variable {S : Type} (get_token : Byte → S → Option (List Byte × S))

/-- The tokens of a node, or none where the reading ends. -/
def readFields : List (Byte × Bool) → S → Option (Option (List (List Byte)) × S)
  | [], s => some (some [], s)
  | (d, required) :: fields, s =>
    (get_token d s).bind fun (buff, s) =>
      if required = true ∧ buff = [] then some (none, s)
      else (readFields fields s).map fun (buffs, s) => (buffs.map (buff :: ·), s)

/-- The loop over the nodes; every round takes something off the text. -/
def loadFrom : Nat → S → Option (List NJDNode)
  | 0, _ => none
  | rounds + 1, s =>
    (readFields get_token fields s).bind fun (buffs, s) =>
      match buffs.bind nodeOf with
      | none => some []
      | some node => (loadFrom rounds s).map (node :: ·)

end Load

def NJD_load (str : CString) : Option (List NJDNode) :=
  loadFrom get_token_from_string (str.bytes.length + 1) str.bytes

def NJD_load_from_fp (fp : File) : Option (List NJDNode) :=
  loadFrom get_token_from_fp (fp.rest.length + 1) fp

end HAS.NJD

import HAS.NJDText
import HAS.Numerals

/-! Digits are read as numbers (njd_set_digit.c, the loop over the digit sequences). What the
code takes for a sequence are words that are digits and follow each other; it is given here with
the words before it, the nearest first, and those after it. -/
namespace HAS.SetDigit
open HAS.Bytes HAS.Stdio HAS.Text2mecab HAS.NJD HAS.Numerals

def NJD_SET_DIGIT_KAZU : String := "数"
def NJD_SET_DIGIT_SUUSETSUZOKU : String := "数接続"
def NJD_SET_DIGIT_JOSUUSHI : String := "助数詞"
def NJD_SET_DIGIT_HAIHUN1 : String := "―"
def NJD_SET_DIGIT_HAIHUN2 : String := "−"
def NJD_SET_DIGIT_HAIHUN3 : String := "‐"
def NJD_SET_DIGIT_KAKKO1 : String := "（"
def NJD_SET_DIGIT_KAKKO2 : String := "）"
def NJD_SET_DIGIT_BANGOU : String := "番号"
def NJD_SET_DIGIT_TEN1 : String := "．"
def NJD_SET_DIGIT_TEN2 : String := "・"
def NJD_SET_DIGIT_ZERO : String := "〇"
def NJD_SET_DIGIT_ZERO_AFTER_DP : String := "ゼロ"
def NJD_SET_DIGIT_TWO : String := "二"
def NJD_SET_DIGIT_TWO_AFTER_DP : String := "ニー"
def NJD_SET_DIGIT_FIVE : String := "五"
def NJD_SET_DIGIT_FIVE_AFTER_DP : String := "ゴー"

def njd_set_digit_rule_numeral_list1 : List (String × String × String) :=
  [("○", "0", "〇"), ("１", "1", "一"), ("２", "2", "二"), ("３", "3", "三"), ("４", "4", "四"),
    ("５", "5", "五"), ("６", "6", "六"), ("７", "7", "七"), ("８", "8", "八"), ("９", "9", "九"),
    ("一", "1", "一"), ("二", "2", "二"), ("三", "3", "三"), ("四", "4", "四"), ("五", "5", "五"),
    ("六", "6", "六"), ("七", "7", "七"), ("八", "8", "八"), ("九", "9", "九"),
    ("いち", "1", "一"), ("に", "2", "二"), ("さん", "3", "三"), ("よん", "4", "四"),
    ("ご", "5", "五"), ("ろく", "6", "六"), ("なな", "7", "七"), ("はち", "8", "八"),
    ("きゅう", "9", "九"), ("〇", "0", "〇"), ("０", "0", "〇"), ("壱", "1", "一"),
    ("弐", "2", "二"), ("貳", "2", "二"), ("ニ", "2", "二"), ("参", "3", "三"), ("し", "4", "四"),
    ("しち", "7", "七"), ("く", "9", "九")]

def njd_set_digit_rule_numeral_list2 : List String :=
  ["", "十,名詞,数,*,*,*,*,十,ジュウ,ジュー,1/2,*", "百,名詞,数,*,*,*,*,百,ヒャク,ヒャク,2/2,*",
    "千,名詞,数,*,*,*,*,千,セン,セン,1/2,*"]

def njd_set_digit_rule_numeral_list3 : List String :=
  ["", "万,名詞,数,*,*,*,*,万,マン,マン,1/2,*", "億,名詞,数,*,*,*,*,億,オク,オク,1/2,*",
    "兆,名詞,数,*,*,*,*,兆,チョウ,チョー,1/2,C3", "京,名詞,数,*,*,*,*,京,ケイ,ケイ,1/2,*",
    "垓,名詞,数,*,*,*,*,垓,ガイ,ガイ,1/2,*", "禾予,名詞,数,*,*,*,*,禾予,ジョ,ジョ,1/1,*",
    "穣,名詞,数,*,*,*,*,穣,ジョウ,ジョウ,1/2,*", "溝,名詞,数,*,*,*,*,溝,コウ,コウ,1/2,*",
    "澗,名詞,数,*,*,*,*,澗,カン,カン,1/2,*", "正,名詞,数,*,*,*,*,正,セイ,セイ,1/2,*",
    "載,名詞,数,*,*,*,*,載,サイ,サイ,1/2,*", "極,名詞,数,*,*,*,*,極,ゴク,ゴク,1/2,*",
    "恒河沙,名詞,数,*,*,*,*,恒河沙,ゴウガシャ,ゴウガシャ,1/4,*", "阿僧祇,名詞,数,*,*,*,*,阿僧祇,アソウギ,アソウギ,2/4,*",
    "那由他,名詞,数,*,*,*,*,那由他,ナユタ,ナユタ,1/3,*", "不可思議,名詞,数,*,*,*,*,不可思議,フカシギ,フカシギ,2/4,*",
    "無量大数,名詞,数,*,*,*,*,無量大数,ムリョウタイスウ,ムリョータイスウ,6/7,*"]

/-- strcmp of a string that must not be NULL. -/
def equals (t : Option Text) (s : String) : Option Bool := t.map fun t => t.bytes = utf8 s

/-- A string that may be NULL is one of these. -/
def among (t : Option Text) (list : List String) : Bool :=
  list.any fun s => t.map Text.bytes = some (utf8 s)

/-- The entry of the table of digits for a string. -/
def numeral (t : Option Text) : Option (String × String × String) :=
  njd_set_digit_rule_numeral_list1.find? fun entry => t.map Text.bytes = some (utf8 entry.1)

/-- The digit that a node is, or -1, and the node as it is then. -/
def get_digit (node : NJDNode) (convert_flag : Bool) : Option (Int × NJDNode) :=
  if node.string = none then some (-1, node)
  else (equals node.pos_group1 NJD_SET_DIGIT_KAZU).map fun kazu =>
    match if kazu then numeral node.string else none with
    | none => (-1, node)
    | some (_, digit, string) =>
      (atoi (ascii digit), if convert_flag then
        { node with string := text (utf8 string), orig := text (utf8 string) } else node)

/-- What the word before a sequence says against reading it as a number, or for it. -/
def scoreBefore (prev : NJDNode) : Option Int := do
  let setsuzoku ← equals prev.pos_group1 NJD_SET_DIGIT_SUUSETSUZOKU
  let kazu ← equals prev.pos_group1 NJD_SET_DIGIT_KAZU
  let josuushi ← equals prev.pos_group2 NJD_SET_DIGIT_JOSUUSHI
  some ((if setsuzoku then 2
    else if kazu && among prev.string [NJD_SET_DIGIT_TEN1, NJD_SET_DIGIT_TEN2] then -3 else 0) +
    (if josuushi then 1 else 0) +
    if among prev.string [NJD_SET_DIGIT_HAIHUN1, NJD_SET_DIGIT_HAIHUN2, NJD_SET_DIGIT_HAIHUN3,
      NJD_SET_DIGIT_KAKKO1, NJD_SET_DIGIT_KAKKO2, NJD_SET_DIGIT_BANGOU] then -2 else 0)

/-- The same for the word after it. -/
def scoreAfter (next : NJDNode) : Option Int :=
  (equals next.pos_group2 NJD_SET_DIGIT_JOSUUSHI).map fun josuushi =>
    (if josuushi then 2 else 0) +
      if among next.string [NJD_SET_DIGIT_HAIHUN1, NJD_SET_DIGIT_HAIHUN2, NJD_SET_DIGIT_HAIHUN3,
        NJD_SET_DIGIT_KAKKO1, NJD_SET_DIGIT_KAKKO2, NJD_SET_DIGIT_BANGOU] then -2
      else if among next.string [NJD_SET_DIGIT_TEN1, NJD_SET_DIGIT_TEN2] then 4 else 0

/-- The score of a word that need not be there. -/
def scoreOf (score : NJDNode → Option Int) (node : Option NJDNode) : Option Int :=
  match node with
  | none => some 0
  | some node => score node

def get_digit_sequence_score (before after : List NJDNode) : Option Int := do
  let prev ← scoreOf scoreBefore before.head?
  let prevPrev ← scoreOf (fun node => some
    (if among node.string [NJD_SET_DIGIT_BANGOU] then -2 else 0)) before.tail.head?
  let next ← scoreOf scoreAfter after.head?
  some (prev + prevPrev + next)

/-- A digit that is read on its own. -/
def single (node : NJDNode) : Option NJDNode :=
  node.string.map fun string =>
    let node :=
      if string.bytes = utf8 NJD_SET_DIGIT_ZERO then
        { node with pron := text (utf8 NJD_SET_DIGIT_ZERO_AFTER_DP), mora_size := 2 }
      else if string.bytes = utf8 NJD_SET_DIGIT_TWO then
        { node with pron := text (utf8 NJD_SET_DIGIT_TWO_AFTER_DP), mora_size := 2 }
      else if string.bytes = utf8 NJD_SET_DIGIT_FIVE then
        { node with pron := text (utf8 NJD_SET_DIGIT_FIVE_AFTER_DP), mora_size := 2 }
      else node
    { node with chain_rule := none }

/-- Every second digit is joined to the one before it, which gets the accent. -/
def digitByDigit : Nat → List NJDNode → List NJDNode → Option (List NJDNode)
  | _, done, [] => some done.reverse
  | size, done, node :: rest =>
    (single node).bind fun node =>
      if size % 2 = 0 then digitByDigit (size + 1) ({ node with chain_flag := 0 } :: done) rest
      else digitByDigit (size + 1)
        ({ node with chain_flag := 1 } :: done.modifyHead fun prev => { prev with acc := 3 }) rest

def silence (node : NJDNode) : NJDNode := { node with pron := none, acc := 0, mora_size := 0 }

/-- A new node, which goes between others: with none behind it the program ends. -/
def insertNode (feature : Option String) (behind : List NJDNode) : Option (List NJDNode) :=
  if behind = [] then none else feature.bind fun feature => NJDNode.load {} (utf8 feature)

/-- The node of a digit, and what is inserted behind it. -/
def convertDigit (node : NJDNode) (digit : Int) (index : Nat) (place : Int) (heard : Bool)
    (behind : List NJDNode) : Option (List NJDNode) :=
  if index = 0 then
    ((if (heard || digit ≠ 0) = true ∧ 0 < place then
      insertNode njd_set_digit_rule_numeral_list3[place.toNat]? behind else some []).map
      ((if digit = 0 then silence node else node) :: ·))
  else
    ((if 0 < digit then insertNode njd_set_digit_rule_numeral_list2[index]? behind
      else some []).map ((if digit ≤ 1 then silence node else node) :: ·))

/-- The loop over a sequence that is read as a number: index counts down within a group of
four digits, place over the groups, and heard tells whether the group has a digit yet. -/
def convertFrom (after : List NJDNode) :
    Nat → Int → Bool → List NJDNode → Option (List NJDNode)
  | _, _, _, [] => some []
  | index, place, heard, node :: rest =>
    (get_digit node false).bind fun (digit, node) =>
      (convertDigit node digit index place heard (rest ++ after)).bind fun nodes =>
        (if index = 0 then convertFrom after 3 (place - 1) false rest
          else convertFrom after (index - 1) place (heard || 0 < digit) rest).map (nodes ++ ·)

def convert_digit_sequence (before seq after : List NJDNode) : Option (List NJDNode) :=
  if seq.length ≤ 1 then some seq
  else (get_digit_sequence_score before after).bind fun score =>
    if score < 0 then digitByDigit 0 [] seq
    else
      let index := if seq.length % 4 = 0 then 4 else seq.length % 4
      let place := (seq.length - index) / 4
      if 17 < place then some seq else convertFrom after (index - 1) place false seq

/-- The loop over the words, those before a pending sequence and the sequence in reverse, and
whether a digit was found. -/
def convertSequences : List NJDNode → List NJDNode → Bool → List NJDNode →
    Option (List NJDNode × Bool)
  | done, _, find, [] => some (done.reverse, find)
  | done, seq, find, node :: rest =>
    (get_digit node true).bind fun (digit, node) =>
      if 0 ≤ digit then
        if rest = [] then
          (convert_digit_sequence done (node :: seq).reverse []).map fun nodes =>
            (done.reverse ++ nodes, true)
        else convertSequences done (node :: seq) true rest
      else
        (if seq = [] then some [] else convert_digit_sequence done seq.reverse (node :: rest)).bind
          fun nodes => convertSequences (node :: nodes.reverse ++ done) [] find rest

/-- njd_set_digit up to where the silent nodes are first removed. -/
def convert_digits (njd : List NJDNode) : Option (List NJDNode) :=
  (convertSequences [] [] false njd).map fun (njd, find) =>
    if find then NJD_remove_silent_node njd else njd

end HAS.SetDigit

import HAS.Blocks
import HAS.IRemocon
import HAS.Text2mecab
import Mathlib.Data.List.ModifyLast

/-! Full-context labels of an utterance (jpcommon_label.c). Phonemes, moras, words, accent
phrases and breath groups are chained in five lists, which only grow at their ends: a cell is
known by its place in its list, prev and next are its neighbours there, and head, tail and up
are places in the other lists. Following NULL ends in none. -/
namespace HAS.JPCommon
open HAS.Bytes HAS.Text2mecab HAS.IRemocon

def JPCOMMON_MORA_UNVOICE : List Byte := utf8 "’"
def JPCOMMON_MORA_LONG_VOWEL : List Byte := utf8 "ー"
def JPCOMMON_MORA_SHORT_PAUSE : List Byte := utf8 "、"
def JPCOMMON_MORA_QUESTION : List Byte := utf8 "？"
def JPCOMMON_PHONEME_SHORT_PAUSE : List Byte := ascii "pau"
def JPCOMMON_PHONEME_SILENT : List Byte := ascii "sil"
def JPCOMMON_PHONEME_UNKNOWN : List Byte := ascii "xx"
def JPCOMMON_FLAG_QUESTION : List Byte := ascii "1"

def jpcommon_mora_list : List (String × String × Option String) :=
  [("ヴョ", "by", some "o"), ("ヴュ", "by", some "u"), ("ヴャ", "by", some "a"),
    ("ヴォ", "v", some "o"), ("ヴェ", "v", some "e"), ("ヴィ", "v", some "i"), ("ヴァ", "v", some "a"),
    ("ヴ", "v", some "u"), ("ン", "N", none), ("ヲ", "o", none), ("ヱ", "e", none),
    ("ヰ", "i", none), ("ワ", "w", some "a"), ("ヮ", "w", some "a"), ("ロ", "r", some "o"),
    ("レ", "r", some "e"), ("ル", "r", some "u"), ("リョ", "ry", some "o"), ("リュ", "ry", some "u"),
    ("リャ", "ry", some "a"), ("リェ", "ry", some "e"), ("リ", "r", some "i"), ("ラ", "r", some "a"),
    ("ヨ", "y", some "o"), ("ョ", "y", some "o"), ("ユ", "y", some "u"), ("ュ", "y", some "u"),
    ("ヤ", "y", some "a"), ("ャ", "y", some "a"), ("モ", "m", some "o"), ("メ", "m", some "e"),
    ("ム", "m", some "u"), ("ミョ", "my", some "o"), ("ミュ", "my", some "u"),
    ("ミャ", "my", some "a"), ("ミェ", "my", some "e"), ("ミ", "m", some "i"), ("マ", "m", some "a"),
    ("ポ", "p", some "o"), ("ボ", "b", some "o"), ("ホ", "h", some "o"), ("ペ", "p", some "e"),
    ("ベ", "b", some "e"), ("ヘ", "h", some "e"), ("プ", "p", some "u"), ("ブ", "b", some "u"),
    ("フォ", "f", some "o"), ("フェ", "f", some "e"), ("フィ", "f", some "i"), ("ファ", "f", some "a"),
    ("フ", "f", some "u"), ("ピョ", "py", some "o"), ("ピュ", "py", some "u"),
    ("ピャ", "py", some "a"), ("ピェ", "py", some "e"), ("ピ", "p", some "i"),
    ("ビョ", "by", some "o"), ("ビュ", "by", some "u"), ("ビャ", "by", some "a"),
    ("ビェ", "by", some "e"), ("ビ", "b", some "i"), ("ヒョ", "hy", some "o"),
    ("ヒュ", "hy", some "u"), ("ヒャ", "hy", some "a"), ("ヒェ", "hy", some "e"),
    ("ヒ", "h", some "i"), ("パ", "p", some "a"), ("バ", "b", some "a"), ("ハ", "h", some "a"),
    ("ノ", "n", some "o"), ("ネ", "n", some "e"), ("ヌ", "n", some "u"), ("ニョ", "ny", some "o"),
    ("ニュ", "ny", some "u"), ("ニャ", "ny", some "a"), ("ニェ", "ny", some "e"),
    ("ニ", "n", some "i"), ("ナ", "n", some "a"), ("ドゥ", "d", some "u"), ("ド", "d", some "o"),
    ("トゥ", "t", some "u"), ("ト", "t", some "o"), ("デョ", "dy", some "o"), ("デュ", "dy", some "u"),
    ("デャ", "dy", some "a"), ("デェ", "dy", some "e"), ("ディ", "d", some "i"), ("デ", "d", some "e"),
    ("テョ", "ty", some "o"), ("テュ", "ty", some "u"), ("テャ", "ty", some "a"),
    ("ティ", "t", some "i"), ("テ", "t", some "e"), ("ヅ", "z", some "u"), ("ツォ", "ts", some "o"),
    ("ツェ", "ts", some "e"), ("ツィ", "ts", some "i"), ("ツァ", "ts", some "a"),
    ("ツ", "ts", some "u"), ("ッ", "cl", none), ("ヂ", "j", some "i"), ("チョ", "ch", some "o"),
    ("チュ", "ch", some "u"), ("チャ", "ch", some "a"), ("チェ", "ch", some "e"),
    ("チ", "ch", some "i"), ("ダ", "d", some "a"), ("タ", "t", some "a"), ("ゾ", "z", some "o"),
    ("ソ", "s", some "o"), ("ゼ", "z", some "e"), ("セ", "s", some "e"), ("ズィ", "z", some "i"),
    ("ズ", "z", some "u"), ("スィ", "s", some "i"), ("ス", "s", some "u"), ("ジョ", "j", some "o"),
    ("ジュ", "j", some "u"), ("ジャ", "j", some "a"), ("ジェ", "j", some "e"), ("ジ", "j", some "i"),
    ("ショ", "sh", some "o"), ("シュ", "sh", some "u"), ("シャ", "sh", some "a"),
    ("シェ", "sh", some "e"), ("シ", "sh", some "i"), ("ザ", "z", some "a"), ("サ", "s", some "a"),
    ("ゴ", "g", some "o"), ("コ", "k", some "o"), ("ゲ", "g", some "e"), ("ケ", "k", some "e"),
    ("ヶ", "k", some "e"), ("グヮ", "gw", some "a"), ("グ", "g", some "u"), ("クヮ", "kw", some "a"),
    ("ク", "k", some "u"), ("ギョ", "gy", some "o"), ("ギュ", "gy", some "u"),
    ("ギャ", "gy", some "a"), ("ギェ", "gy", some "e"), ("ギ", "g", some "i"),
    ("キョ", "ky", some "o"), ("キュ", "ky", some "u"), ("キャ", "ky", some "a"),
    ("キェ", "ky", some "e"), ("キ", "k", some "i"), ("ガ", "g", some "a"), ("カ", "k", some "a"),
    ("オ", "o", none), ("ォ", "o", none), ("エ", "e", none), ("ェ", "e", none),
    ("ウォ", "w", some "o"), ("ウェ", "w", some "e"), ("ウィ", "w", some "i"), ("ウ", "u", none),
    ("ゥ", "u", none), ("イェ", "y", some "e"), ("イ", "i", none), ("ィ", "i", none),
    ("ア", "a", none), ("ァ", "a", none)]

def jpcommon_pos_list : List (String × String) :=
  [("その他", "xx"), ("感動詞", "09"), ("記号", "xx"), ("形状詞", "19"), ("形容詞", "01"), ("助詞-その他", "23"),
    ("助詞-格助詞", "13"), ("助詞-係助詞", "24"), ("助詞-終助詞", "14"), ("助詞-接続助詞", "12"), ("助詞-副助詞", "11"),
    ("助動詞", "10"), ("接続詞", "08"), ("接頭辞", "16"), ("接頭辞-形状詞的", "16"), ("接頭辞-形容詞的", "16"),
    ("接頭辞-動詞的", "16"), ("接頭辞-名詞的", "16"), ("接尾辞-形状詞的", "16"), ("接尾辞-形容詞的", "15"),
    ("接尾辞-動詞的", "15"), ("接尾辞-名詞的", "15"), ("代名詞", "04"), ("動詞", "20"), ("動詞-非自立", "17"),
    ("副詞", "06"), ("名詞-サ変接続", "03"), ("名詞-固有名詞", "18"), ("名詞-数詞", "05"), ("名詞-非自立", "22"),
    ("名詞-普通名詞", "02"), ("連体詞", "07")]

def jpcommon_cform_list : List (String × String) :=
  [("*", "xx"), ("その他", "6"), ("仮定形", "4"), ("基本形", "2"), ("未然形", "0"), ("命令形", "5"),
    ("連体形", "3"), ("連用形", "1")]

def jpcommon_ctype_list : List (String × String) :=
  [("*", "xx"), ("カ行変格", "5"), ("サ行変格", "4"), ("ラ行変格", "6"), ("一段", "3"), ("形容詞", "7"),
    ("五段", "1"), ("四段", "6"), ("助動詞", "7"), ("二段", "6"), ("不変化", "6"), ("文語助動詞", "6")]

def jpcommon_unvoice_list : List (String × String) :=
  [("a", "A"), ("i", "I"), ("u", "U"), ("e", "E"), ("o", "O")]

structure Phoneme where
  phoneme : List Byte
  up : Option Nat
deriving DecidableEq

structure Mora where
  mora : List Byte
  head : Nat
  tail : Nat
  up : Nat
deriving DecidableEq

/-- A word has no accent phrase until it is complete. -/
structure Word where
  pron : List Byte
  pos : List Byte
  ctype : List Byte
  cform : List Byte
  head : Nat
  tail : Nat
  up : Option Nat
deriving DecidableEq

structure AccentPhrase where
  accent : Int
  emotion : Option (List Byte)
  head : Nat
  tail : Nat
  up : Nat
deriving DecidableEq

structure BreathGroup where
  head : Nat
  tail : Nat
deriving DecidableEq

structure Label where
  short_pause_flag : Bool := false
  breaths : List BreathGroup := []
  accents : List AccentPhrase := []
  words : List Word := []
  moras : List Mora := []
  phonemes : List Phoneme := []
deriving DecidableEq

/-- What a node of JPCommon hands to push_word. -/
structure Node where
  pron : List Byte
  pos : List Byte
  ctype : List Byte
  cform : List Byte
  acc : Int
  chain_flag : Int
deriving DecidableEq

/-- The entry of a table for a key, the first one for an unknown key. -/
def lookup (list : List (String × String)) (key : List Byte) : List Byte :=
  match list.find? fun e => utf8 e.1 = key with
  | some e => ascii e.2
  | none => ascii (list.headD ("", "")).2

def word_initialise (pron : List Byte) (node : Node) (head tail : Nat) :
    Word where
  pron := pron
  pos := lookup jpcommon_pos_list node.pos
  ctype := lookup jpcommon_ctype_list node.ctype
  cform := lookup jpcommon_cform_list node.cform
  head := head
  tail := tail
  up := none

def convert_unvoice (p : Phoneme) : Phoneme :=
  match jpcommon_unvoice_list.find? fun e => ascii e.1 = p.phoneme with
  | some e => { p with phoneme := ascii e.2 }
  | none => p

def insert_pause (label : Label) : Label :=
  if label.short_pause_flag then
    match label.phonemes.getLast? with
    | some p =>
      if p.phoneme = JPCOMMON_PHONEME_SHORT_PAUSE then label
      else { label with
        phonemes := label.phonemes ++ [⟨JPCOMMON_PHONEME_SHORT_PAUSE, none⟩]
        short_pause_flag := false }
    | none => { label with short_pause_flag := false }
  else label

namespace Label

/-- One more phoneme, of a mora that exists or is about to. -/
def pushPhoneme (label : Label) (phoneme : List Byte) (up : Nat) : Label :=
  { label with phonemes := label.phonemes ++ [⟨phoneme, some up⟩] }

/-- One more mora, of the last phoneme. -/
def pushMora (label : Label) (mora : List Byte) (up : Nat) : Label :=
  { label with
    moras := label.moras ++ [⟨mora, label.phonemes.length - 1, label.phonemes.length - 1, up⟩] }

/-- One more word, of the last mora. -/
def pushWord (label : Label) (pron : List Byte) (node : Node) : Label :=
  { label with
    words := label.words ++
      [word_initialise pron node (label.moras.length - 1) (label.moras.length - 1)] }

/-- word_tail->tail = mora_tail -/
def extendWord (label : Label) : Label :=
  { label with words := label.words.modifyLast fun w => { w with tail := label.moras.length - 1 } }

/-- mora_tail->tail = phoneme_tail -/
def extendMora (label : Label) : Label :=
  { label with
    moras := label.moras.modifyLast fun m => { m with tail := label.phonemes.length - 1 } }

end Label

/-- A long vowel repeats the last phoneme as a mora of the last word. -/
def long_vowel (label : Label) : Option Label :=
  if label.phonemes = [] then some label
  else do
    let label := insert_pause label
    let p ← label.phonemes.getLast?
    let m ← label.moras.getLast?
    let _ ← label.words.getLast?
    let label := label.pushPhoneme p.phoneme label.moras.length
    let label := label.pushMora JPCOMMON_MORA_LONG_VOWEL m.up
    some label.extendWord

def unvoice (label : Label) (is_first_word : Bool) : Label :=
  if label.phonemes ≠ [] ∧ is_first_word = false then
    { label with phonemes := label.phonemes.modifyLast convert_unvoice }
  else label

/-- The first phoneme of a mora, which opens a word if none is open. -/
def first_phoneme (node : Node) (pron : List Byte) (mora phoneme : String)
    (label : Label) (is_first_word : Bool) : Option Label :=
  let label' := insert_pause label
  if label.phonemes = [] then
    let label' := { label' with phonemes := [], moras := [], words := [] }
    let label' := label'.pushPhoneme (ascii phoneme) 0
    let label' := label'.pushMora (utf8 mora) 0
    some (label'.pushWord pron node)
  else if is_first_word then do
    let _ ← label'.moras.getLast?
    let _ ← label'.words.getLast?
    let label' := label'.pushPhoneme (ascii phoneme) label'.moras.length
    let label' := label'.pushMora (utf8 mora) label'.words.length
    some (label'.pushWord pron node)
  else do
    let m ← label'.moras.getLast?
    let _ ← label'.words.getLast?
    let label' := label'.pushPhoneme (ascii phoneme) label'.moras.length
    let label' := label'.pushMora (utf8 mora) m.up
    some label'.extendWord

/-- The second phoneme, which not every mora has. -/
def second_phoneme : Option String → Label → Label
  | none, label => label
  | some phoneme, label =>
    let label := insert_pause label
    (label.pushPhoneme (ascii phoneme) (label.moras.length - 1)).extendMora

def find_mora (pron : List Byte) : Option ((String × String × Option String) × Nat) :=
  jpcommon_mora_list.findSome? fun e => (strtopcmp pron (utf8 e.1)).map (e, ·)

/-- The loop over a pronunciation, first passing over what an earlier symbol has used up. It
ends at a symbol that is not in the list. -/
def analysis (node : Node) : Nat → List Byte → Label → Bool →
    Option (Label × Bool)
  | _, [], label, is_first_word => some (label, is_first_word)
  | skip + 1, _ :: pron, label, is_first_word => analysis node skip pron label is_first_word
  | 0, c :: pron, label, is_first_word =>
    match strtopcmp (c :: pron) JPCOMMON_MORA_LONG_VOWEL with
    | some find => do analysis node (find - 1) pron (← long_vowel label) is_first_word
    | none =>
      match strtopcmp (c :: pron) JPCOMMON_MORA_UNVOICE with
      | some find => analysis node (find - 1) pron (unvoice label is_first_word) is_first_word
      | none =>
        match find_mora (c :: pron) with
        | some ((mora, first, second), find) => do
          let label ← first_phoneme node (c :: pron) mora first label is_first_word
          analysis node (find - 1) pron (second_phoneme second label) false
        | none => some (label, is_first_word)

/-- p->up->up -/
def wordOf (label : Label) (p : Nat) : Option Nat := do
  let p ← label.phonemes[p]?
  let m ← label.moras[← p.up]?
  some m.up

/-- p->up->up->up, which can be NULL -/
def accentOf (label : Label) (p : Nat) : Option (Option Nat) := do
  let w ← label.words[← wordOf label p]?
  some w.up

/-- p->up->up->up->up -/
def breathOf (label : Label) (p : Nat) : Option Nat := do
  let a ← label.accents[← (← accentOf label p)]?
  some a.up

/-- The place before this one. -/
def prev : Nat → Option Nat
  | 0 => none
  | i + 1 => some i

/-- The last phoneme, or the one before it at a pause. -/
def lastSpoken (label : Label) (p : Phoneme) : Option Nat :=
  if p.phoneme = JPCOMMON_PHONEME_SHORT_PAUSE then prev (label.phonemes.length - 1)
  else some (label.phonemes.length - 1)

/-- The accent phrase of the last phoneme becomes a question. -/
def question (label : Label) : Option Label :=
  match label.phonemes.getLast? with
  | none => some label
  | some p => do
    let a ← (← accentOf label (← lastSpoken label p))
    let _ ← label.accents[a]?
    some { label with
      accents := label.accents.modify a fun a =>
        { a with emotion := a.emotion.or (some JPCOMMON_FLAG_QUESTION) } }

/-- label->word_tail->up = a -/
def Label.setUp (label : Label) (a : Nat) : Label :=
  { label with words := label.words.modifyLast fun w => { w with up := some a } }

def Label.pushAccent (label : Label) (acc : Int) (up : Nat) : Label :=
  { label with
    accents := label.accents ++ [⟨acc, none, label.words.length - 1, label.words.length - 1, up⟩] }

def Label.pushBreath (label : Label) : Label :=
  { label with
    breaths := label.breaths ++ [⟨label.accents.length - 1, label.accents.length - 1⟩] }

/-- accent_tail->tail = word_tail -/
def Label.extendAccent (label : Label) : Label :=
  { label with
    accents := label.accents.modifyLast fun a => { a with tail := label.words.length - 1 } }

/-- breath_tail->tail = accent_tail -/
def Label.extendBreath (label : Label) : Label :=
  { label with
    breaths := label.breaths.modifyLast fun b => { b with tail := label.accents.length - 1 } }

/-- A complete word joins the last accent phrase, or opens one of its own in the last breath
group, or, after a pause, in a new one. -/
def make_accent (node : Node) (label : Label) : Option Label :=
  if label.words.length = 1 then
    let label := { label with accents := [], breaths := [] }
    some ((label.setUp 0).pushAccent node.acc 0).pushBreath
  else if node.chain_flag = 1 then do
    let _ ← label.accents.getLast?
    some (label.setUp (label.accents.length - 1)).extendAccent
  else do
    let w ← label.words[← prev (label.words.length - 1)]?
    let m ← label.moras[w.tail]?
    let p ← label.phonemes[m.tail + 1]?
    let _ ← label.accents.getLast?
    let _ ← label.breaths.getLast?
    let label := label.setUp label.accents.length
    if p.phoneme ≠ JPCOMMON_PHONEME_SHORT_PAUSE then
      some (label.pushAccent node.acc (label.breaths.length - 1)).extendBreath
    else some (label.pushAccent node.acc label.breaths.length).pushBreath

def push_word (label : Label) (node : Node) :
    Option Label :=
  if node.pron = JPCOMMON_MORA_SHORT_PAUSE then some { label with short_pause_flag := true }
  else if node.pron = JPCOMMON_MORA_QUESTION then question label
  else do
    let (label, is_first_word) ← analysis node 0 node.pron label true
    if is_first_word then some label
    else
      match label.phonemes.getLast? with
      | none => some label
      | some p =>
        if p.phoneme = JPCOMMON_PHONEME_SHORT_PAUSE then some label else make_accent node label

/-- A walk along next: how many cells up to a last one, with that many left. -/
def walk (stop : Nat) : Nat → Nat → Nat
  | 0, _ => 0
  | left + 1, index => if index = stop then 1 else 1 + walk stop left (index + 1)

/-- A walk along prev to the head. -/
def walkBack : Nat → Nat
  | 0 => 1
  | index + 1 => 1 + walkBack index

section Counts
variable (label : Label)

/-- m->up->up -/
def accentOfMora (m : Nat) : Option AccentPhrase := do
  let w ← label.words[(← label.moras[m]?).up]?
  label.accents[← w.up]?

/-- a->head->head -/
def firstMora (a : AccentPhrase) : Option Nat := do
  some (← label.words[a.head]?).head

/-- a->tail->tail -/
def lastMora (a : AccentPhrase) : Option Nat := do
  some (← label.words[a.tail]?).tail

def index_mora_in_accent_phrase (m : Nat) : Option Nat := do
  let first ← firstMora label (← accentOfMora label m)
  some (walk m (label.moras.length - first) first)

def count_mora_in_accent_phrase (m : Nat) : Option Nat := do
  let first ← firstMora label (← accentOfMora label m)
  let last ← lastMora label (← accentOfMora label m)
  some (walk last (label.moras.length - first) first)

def index_accent_phrase_in_breath_group (a : Nat) : Option Nat := do
  let b ← label.breaths[(← label.accents[a]?).up]?
  some (walk a (label.accents.length - b.head) b.head)

def count_accent_phrase_in_breath_group (a : Nat) : Option Nat := do
  let b ← label.breaths[(← label.accents[a]?).up]?
  some (walk b.tail (label.accents.length - b.head) b.head)

def index_mora_in_breath_group (m : Nat) : Option Nat := do
  let b ← label.breaths[(← accentOfMora label m).up]?
  let first ← firstMora label (← label.accents[b.head]?)
  some (walk m (label.moras.length - first) first)

def count_mora_in_breath_group (m : Nat) : Option Nat := do
  let b ← label.breaths[(← accentOfMora label m).up]?
  let first ← firstMora label (← label.accents[b.head]?)
  let last ← lastMora label (← label.accents[b.tail]?)
  some (walk last (label.moras.length - first) first)

/-- The index in the utterance of a breath group, an accent phrase or a mora alike. -/
def index_in_utterance (i : Nat) : Nat := walkBack i

end Counts

/-- "sil", the phonemes and "sil", between the two unknown ones on either side. -/
def phoneme_list (label : Label) : List (List Byte) :=
  [JPCOMMON_PHONEME_UNKNOWN, JPCOMMON_PHONEME_UNKNOWN, JPCOMMON_PHONEME_SILENT] ++
    label.phonemes.map (·.phoneme) ++
    [JPCOMMON_PHONEME_SILENT, JPCOMMON_PHONEME_UNKNOWN, JPCOMMON_PHONEME_UNKNOWN]

/-- p->next of a list of so many. -/
def next (length p : Nat) : Option Nat := if p + 1 < length then some (p + 1) else none

/-- The cells of one kind in the utterance, counted from one of them. -/
def count_in_utterance (length i : Nat) : Option Nat :=
  if i < length then some (index_in_utterance i + walk length (length - (i + 1)) (i + 1)) else none

section Fields
variable (label : Label) (i p : Nat) (short_pause_flag : Bool)

def last (i : Nat) : Bool := i = label.phonemes.length + 1

/-- Neither at a pause nor at the silences around the utterance. -/
def inside : Bool := ¬(i = 0 ∨ last label i = true ∨ short_pause_flag = true)

def quinphone : Option (List Byte) := do
  let p₀ ← (phoneme_list label)[i]?
  let p₁ ← (phoneme_list label)[i + 1]?
  let p₂ ← (phoneme_list label)[i + 2]?
  let p₃ ← (phoneme_list label)[i + 3]?
  let p₄ ← (phoneme_list label)[i + 4]?
  some (p₀ ++ ascii "^" ++ p₁ ++ ascii "-" ++ p₂ ++ ascii "+" ++ p₃ ++ ascii "=" ++ p₄)

/-- a->accent == 0 ? count_mora_in_accent_phrase(m) : a->accent -/
def accent (a : AccentPhrase) (m : Nat) : Option Int :=
  if a.accent = 0 then (count_mora_in_accent_phrase label m).map Int.ofNat else some a.accent

def field_A : Option (List Byte) :=
  if inside label i short_pause_flag then do
    let m ← (← label.phonemes[p]?).up
    let tmp1 ← index_mora_in_accent_phrase label m
    let tmp2 ← accent label (← accentOfMora label m) m
    let count ← count_mora_in_accent_phrase label m
    some (ascii "/A:" ++ decimal (tmp1 - tmp2) ++ ascii "+" ++ decimal tmp1 ++ ascii "+" ++
      decimal (count - tmp1 + 1))
  else some (ascii "/A:xx+xx+xx")

/-- Part of speech and conjugation of a word, with what separates them. -/
def wordField (name : String) (sep₁ sep₂ : String) (w : Option Nat) : Option (List Byte) :=
  match w with
  | none => some (ascii name ++ ascii "xx" ++ ascii sep₁ ++ ascii "xx" ++ ascii sep₂ ++ ascii "xx")
  | some w => do
    let w ← label.words[w]?
    some (ascii name ++ w.pos ++ ascii sep₁ ++ w.ctype ++ ascii sep₂ ++ w.cform)

/-- A word beside the present one, if there is one: across a pause, or at the silence on its
side the present one itself. -/
def wordBeside (here : Bool) (across : Option Nat) (neighbour : Nat → Option Nat) :
    Option (Option Nat) :=
  if short_pause_flag then do some (some (← wordOf label (← across)))
  else do
    let w ← wordOf label p
    some ((neighbour w).map fun v => if here then w else v)

def field_B : Option (List Byte) := do
  wordField label "/B:" "-" "_"
    (← wordBeside label p short_pause_flag (last label i) (prev p) prev)

def wordHere : Option (Option Nat) :=
  if inside label i short_pause_flag then do some (some (← wordOf label p)) else some none

def field_C : Option (List Byte) := do
  wordField label "/C:" "_" "+" (← wordHere label i p short_pause_flag)

def field_D : Option (List Byte) := do
  wordField label "/D:" "+" "_"
    (← wordBeside label p short_pause_flag (i = 0) (next label.phonemes.length p)
      (next label.words.length))

/-- Number of moras, accent and emotion of an accent phrase. -/
def phraseText (a : Nat) (sep : String) : Option (List Byte) := do
  let a ← label.accents[a]?
  let m ← firstMora label a
  let count ← count_mora_in_accent_phrase label m
  let nucleus ← accent label a m
  some (decimal count ++ ascii "_" ++ decimal nucleus ++ ascii sep ++
    a.emotion.getD (ascii "xx") ++ ascii "_xx")

/-- The flag of a phoneme: 0 at a pause. -/
def pauseText (p : Nat) : Option (List Byte) := do
  let p ← label.phonemes[p]?
  some (if p.phoneme = JPCOMMON_PHONEME_SHORT_PAUSE then ascii "-0" else ascii "-1")

/-- The flag behind an accent phrase. -/
def pauseBehind (a : Nat) : Option (List Byte) := do
  let m ← label.moras[← lastMora label (← label.accents[a]?)]?
  pauseText label (← next label.phonemes.length m.tail)

/-- The flag before an accent phrase. -/
def pauseBefore (a : Nat) : Option (List Byte) := do
  let m ← label.moras[← firstMora label (← label.accents[a]?)]?
  pauseText label (← prev m.head)

/-- An accent phrase beside the present one: the one that ends here at a pause or at the
silence on its side, else the neighbour of the present one. -/
def phraseBeside (here : Bool) (across : Option Nat) (neighbour : Nat → Option Nat) :
    Option (Option Nat) :=
  if short_pause_flag then do accentOf label (← across)
  else do
    let a ← accentOf label p
    if here then some a else do some (neighbour (← a))

def field_E : Option (List Byte) := do
  match ← phraseBeside label p short_pause_flag (last label i) (prev p) prev with
  | none => some (ascii "/E:xx_xx!xx_xx-xx")
  | some a =>
    let text ← phraseText label a "!"
    if inside label i short_pause_flag then do
      some (ascii "/E:" ++ text ++ (← pauseBehind label a))
    else some (ascii "/E:" ++ text ++ ascii "-xx")

def phraseHere : Option (Option Nat) :=
  if inside label i short_pause_flag then accentOf label p else some none

def field_F : Option (List Byte) := do
  match ← phraseHere label i p short_pause_flag with
  | none => some (ascii "/F:xx_xx#xx_xx@xx_xx|xx_xx")
  | some a => do
    let tmp1 ← index_accent_phrase_in_breath_group label a
    let m ← firstMora label (← label.accents[a]?)
    let tmp2 ← index_mora_in_breath_group label m
    let text ← phraseText label a "#"
    let phrases ← count_accent_phrase_in_breath_group label a
    let moras ← count_mora_in_breath_group label m
    some (ascii "/F:" ++ text ++ ascii "@" ++ decimal tmp1 ++ ascii "_" ++
      decimal (phrases - tmp1 + 1) ++ ascii "|" ++ decimal tmp2 ++ ascii "_" ++
      decimal (moras - tmp2 + 1))

def field_G : Option (List Byte) := do
  match ← phraseBeside label p short_pause_flag (i = 0) (next label.phonemes.length p)
    (next label.accents.length) with
  | none => some (ascii "/G:xx_xx%xx_xx-xx")
  | some a =>
    let text ← phraseText label a "%"
    if inside label i short_pause_flag then do
      some (ascii "/G:" ++ text ++ (← pauseBefore label a))
    else some (ascii "/G:" ++ text ++ ascii "-xx")

def groupBeside (here : Bool) (across : Option Nat) (neighbour : Nat → Option Nat) :
    Option (Option Nat) :=
  if short_pause_flag then do some (some (← breathOf label (← across)))
  else do
    let b ← breathOf label p
    some (if here then some b else neighbour b)

/-- The first mora of a breath group. -/
def groupMora (b : BreathGroup) : Option Nat := do
  firstMora label (← label.accents[b.head]?)

/-- Number of accent phrases and of moras of a breath group. -/
def groupText (name : String) (b : Option Nat) : Option (List Byte) :=
  match b with
  | none => some (ascii name ++ ascii "xx_xx")
  | some b => do
    let b ← label.breaths[b]?
    let phrases ← count_accent_phrase_in_breath_group label b.head
    let moras ← count_mora_in_breath_group label (← groupMora label b)
    some (ascii name ++ decimal phrases ++ ascii "_" ++ decimal moras)

def field_H : Option (List Byte) := do
  groupText label "/H:" (← groupBeside label p short_pause_flag (last label i) (prev p) prev)

def field_I : Option (List Byte) :=
  if inside label i short_pause_flag then do
    let b ← breathOf label p
    let group ← label.breaths[b]?
    let m ← groupMora label group
    let phrases ← count_accent_phrase_in_breath_group label group.head
    let moras ← count_mora_in_breath_group label m
    let tmp1 := index_in_utterance b
    let tmp2 := index_in_utterance group.head
    let tmp3 := index_in_utterance m
    let groups ← count_in_utterance label.breaths.length b
    let allPhrases ← count_in_utterance label.accents.length group.head
    let allMoras ← count_in_utterance label.moras.length m
    some (ascii "/I:" ++ decimal phrases ++ ascii "-" ++ decimal moras ++ ascii "@" ++
      decimal tmp1 ++ ascii "+" ++ decimal (groups - tmp1 + 1) ++ ascii "&" ++ decimal tmp2 ++
      ascii "-" ++ decimal (allPhrases - tmp2 + 1) ++ ascii "|" ++ decimal tmp3 ++ ascii "+" ++
      decimal (allMoras - tmp3 + 1))
  else some (ascii "/I:xx-xx@xx+xx&xx-xx|xx+xx")

def field_J : Option (List Byte) := do
  groupText label "/J:" (← groupBeside label p short_pause_flag (i = 0)
    (next label.phonemes.length p) (next label.breaths.length))

def field_K : Option (List Byte) := do
  let groups ← count_in_utterance label.breaths.length 0
  let phrases ← count_in_utterance label.accents.length 0
  let moras ← count_in_utterance label.moras.length 0
  some (ascii "/K:" ++ decimal groups ++ ascii "+" ++ decimal phrases ++ ascii "-" ++
    decimal moras)

/-- A line of the label. The buffer is printed into itself, which is taken to append. -/
def feature : Option (List Byte) := do
  let short_pause_flag := (← label.phonemes[p]?).phoneme = JPCOMMON_PHONEME_SHORT_PAUSE
  let fields ← [quinphone label i, field_A label i p short_pause_flag,
    field_B label i p short_pause_flag, field_C label i p short_pause_flag,
    field_D label i p short_pause_flag, field_E label i p short_pause_flag,
    field_F label i p short_pause_flag, field_G label i p short_pause_flag,
    field_H label i p short_pause_flag, field_I label i p short_pause_flag,
    field_J label i p short_pause_flag, field_K label].mapM id
  some fields.flatten

end Fields

/-- The phoneme of the next line: the silences share theirs with the phoneme beside them. -/
def advance (label : Label) (i p : Nat) : Option Nat :=
  if 0 < i ∧ i < label.phonemes.length then next label.phonemes.length p else some p

/-- The loop over the lines, so many of which are left. -/
def featuresFrom (label : Label) : Nat → Nat → Nat → Option (List (List Byte))
  | 0, _, _ => some []
  | left + 1, i, p => do
    let line ← feature label i p
    let lines ← featuresFrom label left (i + 1) (← advance label i p)
    some (line :: lines)

def make (label : Label) : Option (List (List Byte)) :=
  if label.phonemes = [] then some []
  else featuresFrom label (label.phonemes.length + 2) 0 0

/-- The words of JPCommon are pushed one after the other, and the labels made. -/
def make_label (nodes : List Node) : Option (List (List Byte)) := do
  make (← nodes.foldlM push_word {})

end HAS.JPCommon

import HAS.Unicode

/-! text2mecab: half-width characters become full-width ones, in a buffer whose size the
caller chooses. The rules are those for UTF-8. -/
namespace HAS.Text2mecab
open HAS.Bytes HAS.Unicode

/-- The bytes of a string literal. -/
def utf8 (s : String) : List Byte := s.toList.flatMap fun c => encodeChar c.toNat

def text2mecab_control_range : Nat × Nat := (0x00, 0x7F)

/-- Length of a character, and the range of its first byte. -/
def text2mecab_kanji_range : List (Nat × Nat × Nat) :=
  [(2, 0xC0, 0xDF), (3, 0xE0, 0xEF), (4, 0xF0, 0xF7)]

def text2mecab_conv_list : List (String × String) :=
  [(" ", "　"), ("!", "！"), ("\"", "”"), ("#", "＃"), ("$", "＄"), ("%", "％"), ("&", "＆"),
    ("'", "’"), ("(", "（"), (")", "）"), ("*", "＊"), ("+", "＋"), (",", "，"), ("-", "−"),
    (".", "．"), ("/", "／"), ("0", "０"), ("1", "１"), ("2", "２"), ("3", "３"), ("4", "４"),
    ("5", "５"), ("6", "６"), ("7", "７"), ("8", "８"), ("9", "９"), (":", "："), (";", "；"),
    ("<", "＜"), ("=", "＝"), (">", "＞"), ("?", "？"), ("@", "＠"), ("A", "Ａ"), ("B", "Ｂ"),
    ("C", "Ｃ"), ("D", "Ｄ"), ("E", "Ｅ"), ("F", "Ｆ"), ("G", "Ｇ"), ("H", "Ｈ"), ("I", "Ｉ"),
    ("J", "Ｊ"), ("K", "Ｋ"), ("L", "Ｌ"), ("M", "Ｍ"), ("N", "Ｎ"), ("O", "Ｏ"), ("P", "Ｐ"),
    ("Q", "Ｑ"), ("R", "Ｒ"), ("S", "Ｓ"), ("T", "Ｔ"), ("U", "Ｕ"), ("V", "Ｖ"), ("W", "Ｗ"),
    ("X", "Ｘ"), ("Y", "Ｙ"), ("Z", "Ｚ"), ("[", "［"), ("\\", "￥"), ("]", "］"), ("^", "＾"),
    ("_", "＿"), ("`", "‘"), ("a", "ａ"), ("b", "ｂ"), ("c", "ｃ"), ("d", "ｄ"), ("e", "ｅ"),
    ("f", "ｆ"), ("g", "ｇ"), ("h", "ｈ"), ("i", "ｉ"), ("j", "ｊ"), ("k", "ｋ"), ("l", "ｌ"),
    ("m", "ｍ"), ("n", "ｎ"), ("o", "ｏ"), ("p", "ｐ"), ("q", "ｑ"), ("r", "ｒ"), ("s", "ｓ"),
    ("t", "ｔ"), ("u", "ｕ"), ("v", "ｖ"), ("w", "ｗ"), ("x", "ｘ"), ("y", "ｙ"), ("z", "ｚ"),
    ("\x7b", "｛"), ("|", "｜"), ("\x7d", "｝"), ("~", "〜"), ("ｳﾞ", "ヴ"), ("ｶﾞ", "ガ"),
    ("ｷﾞ", "ギ"), ("ｸﾞ", "グ"), ("ｹﾞ", "ゲ"), ("ｺﾞ", "ゴ"), ("ｻﾞ", "ザ"), ("ｼﾞ", "ジ"), ("ｽﾞ", "ズ"),
    ("ｾﾞ", "ゼ"), ("ｿﾞ", "ゾ"), ("ﾀﾞ", "ダ"), ("ﾁﾞ", "ヂ"), ("ﾂﾞ", "ヅ"), ("ﾃﾞ", "デ"), ("ﾄﾞ", "ド"),
    ("ﾊﾞ", "バ"), ("ﾋﾞ", "ビ"), ("ﾌﾞ", "ブ"), ("ﾍﾞ", "ベ"), ("ﾎﾞ", "ボ"), ("ﾊﾟ", "パ"), ("ﾋﾟ", "ピ"),
    ("ﾌﾟ", "プ"), ("ﾍﾟ", "ペ"), ("ﾎﾟ", "ポ"), ("｡", "。"), ("｢", "「"), ("｣", "」"), ("､", "、"),
    ("･", "・"), ("ｦ", "ヲ"), ("ｧ", "ァ"), ("ｨ", "ィ"), ("ｩ", "ゥ"), ("ｪ", "ェ"), ("ｫ", "ォ"),
    ("ｬ", "ャ"), ("ｭ", "ュ"), ("ｮ", "ョ"), ("ｯ", "ッ"), ("ｰ", "ー"), ("ｱ", "ア"), ("ｲ", "イ"),
    ("ｳ", "ウ"), ("ｴ", "エ"), ("ｵ", "オ"), ("ｶ", "カ"), ("ｷ", "キ"), ("ｸ", "ク"), ("ｹ", "ケ"),
    ("ｺ", "コ"), ("ｻ", "サ"), ("ｼ", "シ"), ("ｽ", "ス"), ("ｾ", "セ"), ("ｿ", "ソ"), ("ﾀ", "タ"),
    ("ﾁ", "チ"), ("ﾂ", "ツ"), ("ﾃ", "テ"), ("ﾄ", "ト"), ("ﾅ", "ナ"), ("ﾆ", "ニ"), ("ﾇ", "ヌ"),
    ("ﾈ", "ネ"), ("ﾉ", "ノ"), ("ﾊ", "ハ"), ("ﾋ", "ヒ"), ("ﾌ", "フ"), ("ﾍ", "ヘ"), ("ﾎ", "ホ"),
    ("ﾏ", "マ"), ("ﾐ", "ミ"), ("ﾑ", "ム"), ("ﾒ", "メ"), ("ﾓ", "モ"), ("ﾔ", "ヤ"), ("ﾕ", "ユ"),
    ("ﾖ", "ヨ"), ("ﾗ", "ラ"), ("ﾘ", "リ"), ("ﾙ", "ル"), ("ﾚ", "レ"), ("ﾛ", "ロ"), ("ﾜ", "ワ"),
    ("ﾝ", "ン"), ("ﾞ", ""), ("ﾟ", "")]

/-- The length of the pattern, if the string begins with it. -/
def strtopcmp : List Byte → List Byte → Option Nat
  | _, [] => some 0
  | [], _ :: _ => none
  | c :: str, p :: pattern => if c = p then (strtopcmp str pattern).map (· + 1) else none

theorem strtopcmp_eq_some {str pattern : List Byte} {n : Nat} (h : strtopcmp str pattern = some n) :
    pattern <+: str ∧ n = pattern.length := by
  induction pattern generalizing str n with
  | nil =>
    cases str <;> exact ⟨List.nil_prefix, (Option.some.inj h).symm⟩
  | cons b pattern ih =>
    cases str with
    | nil => simp [strtopcmp] at h
    | cons a str =>
      rw [strtopcmp] at h
      split at h
      next hab =>
        obtain ⟨k, hk, rfl⟩ := Option.map_eq_some_iff.mp h
        obtain ⟨hp, rfl⟩ := ih hk
        exact ⟨List.cons_prefix_cons.mpr ⟨hab.symm, hp⟩, rfl⟩
      next => simp at h

/-- The first rule for the beginning of a string: how much it converts, and into what. -/
def search (rules : List (List Byte × List Byte)) (str : List Byte) :
    Option (Nat × List Byte) :=
  rules.findSome? fun rule => (strtopcmp str rule.1).map fun e => (e, rule.2)

/-- The length of a character that begins with a byte. The code compares chars, of which
those from 0x80 on are negative, on both sides alike. -/
def kanji (b : Byte) : Option Nat :=
  (text2mecab_kanji_range.find? fun r => r.2.1 ≤ b.val ∧ b.val ≤ r.2.2).map (·.1)

/-- The loop over the input, first passing over what an earlier rule or character has used
up. A character that the input breaks off is copied from what lies beyond. -/
def convertFrom (rules : List (List Byte × List Byte)) (beyond : Nat → Byte) :
    Nat → List Byte → List Byte
  | _, [] => []
  | skip + 1, _ :: str => convertFrom rules beyond skip str
  | 0, c :: str =>
    match search rules (c :: str) with
    | some (e, out) => out ++ convertFrom rules beyond (e - 1) str
    | none =>
      if text2mecab_control_range.1 ≤ c.val ∧ c.val ≤ text2mecab_control_range.2 then
        convertFrom rules beyond 0 str
      else
        match kanji c with
        | some e =>
          ((c :: str) ++ (List.range e).map beyond).take e ++ convertFrom rules beyond (e - 1) str
        | none => convertFrom rules beyond 0 str

/-- The output without its terminator. -/
def text2mecab (input : List Byte) (beyond : Nat → Byte) : List Byte :=
  convertFrom (text2mecab_conv_list.map fun rule => (utf8 rule.1, utf8 rule.2)) beyond 0 input

theorem strtopcmp_length {str pattern : List Byte} {e : Nat} (h : strtopcmp str pattern = some e) :
    e = pattern.length ∧ e ≤ str.length := by
  fun_induction strtopcmp str pattern generalizing e with
  | case1 =>
    obtain rfl := Option.some.inj h
    exact ⟨rfl, Nat.zero_le _⟩
  | case2 => cases h
  | case3 c str pattern ih =>
    obtain ⟨n, hn, rfl⟩ := Option.map_eq_some_iff.mp h
    simpa using ih hn
  | case4 => cases h

/-- A rule converts at least one byte into at most three. -/
theorem rule_length : ∀ rule ∈ text2mecab_conv_list.map fun rule => (utf8 rule.1, utf8 rule.2),
    0 < rule.1.length ∧ rule.2.length ≤ 3 := by
  decide +kernel

theorem search_length {rules : List (List Byte × List Byte)}
    (hrules : ∀ rule ∈ rules, 0 < rule.1.length ∧ rule.2.length ≤ 3) {str out : List Byte}
    {e : Nat} (h : search rules str = some (e, out)) :
    0 < e ∧ e ≤ str.length ∧ out.length ≤ 3 := by
  obtain ⟨rule, hmem, hrule⟩ := List.exists_of_findSome?_eq_some h
  obtain ⟨n, hn, heq⟩ := Option.map_eq_some_iff.mp hrule
  obtain ⟨rfl, rfl⟩ := Prod.mk.inj heq
  obtain ⟨rfl, hle⟩ := strtopcmp_length hn
  exact ⟨(hrules rule hmem).1, hle, (hrules rule hmem).2⟩

theorem kanji_le {b : Byte} {e : Nat} (h : kanji b = some e) : 2 ≤ e ∧ e ≤ 4 := by
  obtain ⟨r, hr, rfl⟩ := Option.map_eq_some_iff.mp h
  have hall : ∀ r ∈ text2mecab_kanji_range, 2 ≤ r.1 ∧ r.1 ≤ 4 := by decide
  exact hall r (List.mem_of_find?_eq_some hr)

section
variable {rules : List (List Byte × List Byte)} (beyond : Nat → Byte)

theorem convertFrom_used_up {skip : Nat} {str : List Byte} (h : str.length ≤ skip) :
    convertFrom rules beyond skip str = [] := by
  induction str generalizing skip with
  | nil => cases skip <;> rfl
  | cons c str ih =>
    cases skip with
    | zero => simp at h
    | succ skip => exact ih (Nat.le_of_succ_le_succ h)

/-- Three bytes are written for each that is read, and one more only at the end, for a
character that the input breaks off. -/
theorem convertFrom_length (hrules : ∀ rule ∈ rules, 0 < rule.1.length ∧ rule.2.length ≤ 3)
    (skip : Nat) (str : List Byte) :
    (convertFrom rules beyond skip str).length ≤ 3 * (str.length - skip) + 1 := by
  induction str generalizing skip with
  | nil => cases skip <;> simp [convertFrom]
  | cons c str ih =>
    cases skip with
    | succ skip => simpa [convertFrom] using ih skip
    | zero =>
      have hnext := ih 0
      simp only [List.length_cons]
      rw [convertFrom]
      cases hs : search rules (c :: str) with
      | some found =>
        obtain ⟨e, out⟩ := found
        obtain ⟨hpos, hle, hout⟩ := search_length hrules hs
        have hrest := ih (e - 1)
        simp only [List.length_append]
        simp only [List.length_cons] at hle
        omega
      | none =>
        dsimp only
        split_ifs
        · omega
        · cases hk : kanji c with
          | none =>
            dsimp only
            omega
          | some e =>
            obtain ⟨hpos, hle⟩ := kanji_le hk
            have hcopy : (((c :: str) ++ (List.range e).map beyond).take e).length ≤ e :=
              List.length_take_le _ _
            simp only [List.length_append] at hcopy ⊢
            by_cases hend : str.length ≤ e - 1
            · rw [convertFrom_used_up beyond hend, List.length_nil]
              omega
            · have hrest := ih (e - 1)
              omega

end

theorem text2mecab_length (input : List Byte) (beyond : Nat → Byte) :
    (text2mecab input beyond).length ≤ 3 * input.length + 1 :=
  convertFrom_length beyond rule_length 0 input

end HAS.Text2mecab

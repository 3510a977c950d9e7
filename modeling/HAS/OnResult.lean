import HAS.JavaScript
import HAS.StringLiteral

/-! JuliusJS::on_result puts a recognised sentence between single quotes and has the
result run as a script. When does the script say what was recognised? -/
namespace HAS.OnResult
open HAS.Bytes HAS.Unicode HAS.Lexical HAS.JavaScript

abbrev WORD_ID := Nat

/-- The dictionary. -/
structure WORD_INFO where
  woutput : WORD_ID → CString

/-- for (int i = 1; i < seqnum-1; ++i) output += winfo->woutput[seq[i]]; -/
def output (winfo : WORD_INFO) (seq : List WORD_ID) : List Byte :=
  (List.range' 1 (seq.length - 2)).foldl
    (fun output i => output ++ (winfo.woutput (seq.getD i 0)).bytes) []

def code (winfo : WORD_INFO) (seq : List WORD_ID) : List Byte :=
  ascii "Julius.onResult('" ++ output winfo seq ++ ascii "')"

/-- What js->exec compiles for a hypothesis. -/
def script (winfo : WORD_INFO) (seq : List WORD_ID) : List CodeUnit := exec (code winfo seq)

/-- The recognised text: the output strings of all words but the first and the last. -/
def recognised (winfo : WORD_INFO) (seq : List WORD_ID) : List Byte :=
  seq.tail.dropLast.flatMap fun w => (winfo.woutput w).bytes

def identifier (name : String) : Element := .token ⟨.identifierName, chars name, []⟩ false
def punctuator (p : String) : Element := .token ⟨.punctuator, chars p, []⟩ false

/-- Julius.onResult(s), the literal being spelled as text. -/
def callOf (text s : List CodeUnit) : List Element :=
  [identifier "Julius", punctuator ".", identifier "onResult", punctuator "(",
    .token ⟨.stringLiteral, text, s⟩ false, punctuator ")"]

/-- The program is one call Julius.onResult(s) and nothing else. -/
def IsCall (program : Option (List Element)) (s : List CodeUnit) : Prop :=
  ∃ text, program = some (callOf text s)

/-- Bytes that stand for themselves between single quotes. -/
structure Quotable (text : List Byte) : Prop where
  no_quote : Fin.ofNat 256 39 ∉ text
  no_backslash : Fin.ofNat 256 92 ∉ text
  no_line_feed : LF ∉ text
  no_carriage_return : CR ∉ text
  /-- No U+2028 and no U+2029, within a word or across words. -/
  no_separator : ¬ [0xE2, 0x80, 0xA8] <:+: text ∧ ¬ [0xE2, 0x80, 0xA9] <:+: text

theorem output_loop (winfo : WORD_INFO) (seq : List WORD_ID) (n : Nat) (hn : n + 2 ≤ seq.length)
    (acc : List Byte) :
    (List.range' 1 n).foldl (fun output i => output ++ (winfo.woutput (seq.getD i 0)).bytes) acc =
      acc ++ (seq.tail.take n).flatMap fun w => (winfo.woutput w).bytes := by
  induction n generalizing acc with
  | zero => simp
  | succ n ih =>
    have hlt : n < seq.tail.length := by simp; omega
    have hget : seq.getD (1 + n) 0 = seq.tail[n] := by
      have hlen : n + 1 < seq.length := by omega
      simp [Nat.add_comm 1 n, List.getElem?_eq_getElem hlen]
    rw [List.range'_concat, List.foldl_append, ih (by omega), List.take_succ_eq_append_getElem hlt]
    simp only [List.foldl_cons, List.foldl_nil, Nat.one_mul, hget, List.flatMap_append,
      List.flatMap_cons, List.flatMap_nil, List.append_nil, List.append_assoc]

theorem output_eq (winfo : WORD_INFO) (seq : List WORD_ID) :
    output winfo seq = recognised winfo seq := by
  by_cases h : 2 ≤ seq.length
  · rw [output, output_loop winfo seq _ (by omega)]
    simp [recognised, List.dropLast_eq_take, Nat.sub_sub]
  · have hl : seq.length - 2 = 0 := by omega
    have ht : seq.tail.dropLast = [] := by
      apply List.eq_nil_of_length_eq_zero
      simp
      omega
    simp [output, recognised, hl, ht]

theorem nul_notMem_recognised (winfo : WORD_INFO) (seq : List WORD_ID) :
    NUL ∉ recognised winfo seq := by
  intro h
  obtain ⟨w, _, hw⟩ := List.mem_flatMap.mp h
  exact (winfo.woutput w).nul_free hw

theorem script_eq (winfo : WORD_INFO) (seq : List WORD_ID) :
    script winfo seq =
      chars "Julius.onResult('" ++ (decode (recognised winfo seq) ++ [chr '\'', chr ')']) := by
  have hcode : code winfo seq =
      ascii "Julius.onResult('" ++ (recognised winfo seq ++ ascii "')") := by
    rw [code, output_eq, List.append_assoc]
  have hnul : NUL ∉ code winfo seq := by
    rw [hcode]
    intro h
    rcases List.mem_append.mp h with h | h
    · revert h; decide
    · rcases List.mem_append.mp h with h | h
      · exact nul_notMem_recognised winfo seq h
      · revert h; decide
  rw [script, exec_of_nul_free hnul, hcode]
  have hq : ascii "')" = Fin.ofNat 256 39 :: ascii ")" := rfl
  have hd := decode_append_ascii (recognised winfo seq) (x := Fin.ofNat 256 39) (by decide)
    (ascii ")")
  rw [← hq] at hd
  have ha : ∀ b ∈ ascii "Julius.onResult('", b.val < 0x80 := by decide +kernel
  rw [decode_ascii_append ha, hd]
  rfl

/-- The reader stands behind the opening quote. -/
def opened : State :=
  ⟨.string (chr '\'') [chr '\''] [],
    [(⟨.identifierName, chars "Julius", []⟩, false), (⟨.punctuator, chars ".", []⟩, false),
      (⟨.identifierName, chars "onResult", []⟩, false), (⟨.punctuator, chars "(", []⟩, false)],
    false⟩

theorem read_opening (G : Grammar) :
    read G State.initial (chars "Julius.onResult('") = some (opened,
      [identifier "Julius", punctuator ".", identifier "onResult", punctuator "("]) := by
  rfl

theorem scan_closing (G : Grammar) (t v : List CodeUnit) :
    scan G ⟨.string (chr '\'') t v, opened.before, false⟩ [chr '\'', chr ')'] =
      some [.token ⟨.stringLiteral, t ++ [chr '\''], v⟩ false, punctuator ")"] := by
  rfl

theorem lex_script (G : Grammar) (winfo : WORD_INFO) (seq : List WORD_ID) :
    lex G (script winfo seq) =
      (scan G opened (decode (recognised winfo seq) ++ [chr '\'', chr ')'])).map
        ([identifier "Julius", punctuator ".", identifier "onResult", punctuator "("] ++ ·) := by
  rw [script_eq, lex, scan_append, read_opening]
  rfl

/-- In terms of the bytes: what decodes to units that stand for themselves. -/
theorem quotable_iff (text : List Byte) :
    Quotable text ↔ ∀ c ∈ decode text, plain (chr '\'') c = true := by
  have hq := mem_decode_ascii_iff (x := Fin.ofNat 256 39) (by decide) text
  have hb := mem_decode_ascii_iff (x := Fin.ofNat 256 92) (by decide) text
  have hl := mem_decode_ascii_iff (x := LF) (by decide) text
  have hr := mem_decode_ascii_iff (x := CR) (by decide) text
  have h8 : (0x2028 : CodeUnit) ∈ decode text ↔ [0xE2, 0x80, 0xA8] <:+: text :=
    mem_decode_three_iff (by decide) (by decide) (by decide) (by decide) (by decide) text
  have h9 : (0x2029 : CodeUnit) ∈ decode text ↔ [0xE2, 0x80, 0xA9] <:+: text :=
    mem_decode_three_iff (by decide) (by decide) (by decide) (by decide) (by decide) text
  constructor
  · intro h c hc
    have hne : c ≠ chr '\'' ∧ c ≠ chr '\\' ∧ lineTerminator c = false := by
      refine ⟨?_, ?_, ?_⟩
      · rintro rfl
        exact h.no_quote (hq.mp hc)
      · rintro rfl
        exact h.no_backslash (hb.mp hc)
      · by_contra hl'
        simp only [lineTerminator, Bool.not_eq_false, Bool.or_eq_true, beq_iff_eq] at hl'
        rcases hl' with ((rfl | rfl) | rfl) | rfl
        · exact h.no_line_feed (hl.mp hc)
        · exact h.no_carriage_return (hr.mp hc)
        · exact h.no_separator.1 (h8.mp hc)
        · exact h.no_separator.2 (h9.mp hc)
    simp [plain, hne]
  · intro h
    have hp {c : CodeUnit} (hc : plain (chr '\'') c = false) : c ∉ decode text := by
      intro hm
      simp [h c hm] at hc
    exact ⟨fun hm => hp rfl (hq.mpr hm), fun hm => hp rfl (hb.mpr hm), fun hm => hp rfl (hl.mpr hm),
      fun hm => hp rfl (hr.mpr hm), fun hm => hp rfl (h8.mpr hm), fun hm => hp rfl (h9.mpr hm)⟩

/-- The script is the call that on_result means exactly when the recognised text has
no byte that means something else between single quotes. -/
theorem script_isCall_iff (G : Grammar) (winfo : WORD_INFO) (seq : List WORD_ID) :
    IsCall (lex G (script winfo seq)) (decode (recognised winfo seq)) ↔
      Quotable (recognised winfo seq) := by
  rw [quotable_iff, lex_script]
  constructor
  · rintro ⟨text, h⟩
    obtain ⟨es, hes, heq⟩ := Option.map_eq_some_iff.mp h
    obtain rfl : es = [.token ⟨.stringLiteral, text, decode (recognised winfo seq)⟩ false,
        punctuator ")"] := by
      simpa [callOf] using heq
    exact plain_of_scan_quoted (by decide) ⟨_, _, _, hes⟩
  · intro h
    refine ⟨[chr '\''] ++ decode (recognised winfo seq) ++ [chr '\''], ?_⟩
    have hs := @scan_plain G _ opened.before false _ h [chr '\''] [] [chr '\'', chr ')']
    rw [show opened = ⟨.string (chr '\'') [chr '\''] [], opened.before, false⟩ from rfl, hs,
      scan_closing]
    rfl

/-- The line "1 [it's] s i l" of a dictionary. -/
def itsDictionary : WORD_INFO where
  woutput w := if w = 1 then c_str (ascii "it's") else c_str []

theorem itsDictionary_not_isCall :
    ¬ IsCall (lex Grammar.ascii (script itsDictionary [0, 1, 2]))
      (decode (recognised itsDictionary [0, 1, 2])) := by
  rintro ⟨text, h⟩
  have hn : lex Grammar.ascii (script itsDictionary [0, 1, 2]) = none := by decide +kernel
  rw [hn] at h
  cases h

end HAS.OnResult

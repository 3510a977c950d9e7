import HAS.NJD

/-! The nodes of an utterance as text: both readers agree on every text, and read back what is
printed. -/
namespace HAS.NJD
open HAS.Bytes HAS.Stdio HAS.IRemocon HAS.Text2mecab

section View
variable {S T : Type} {get : Byte → S → Option (List Byte × S)}
  {get' : Byte → T → Option (List Byte × T)} {view : S → T}

/-- A tokenizer seen through a view of its states. -/
def Views (get : Byte → S → Option (List Byte × S)) (get' : Byte → T → Option (List Byte × T))
    (view : S → T) : Prop :=
  ∀ d s, blank d = false → (get d s).map (Prod.map id view) = get' d (view s)

theorem readFields_view (h : Views get get' view) {fs : List (Byte × Bool)}
    (hfs : ∀ f ∈ fs, blank f.1 = false) (s : S) :
    (readFields get fs s).map (Prod.map id view) = readFields get' fs (view s) := by
  induction fs generalizing s with
  | nil => rfl
  | cons f fs ih =>
    obtain ⟨d, required⟩ := f
    rw [readFields, readFields, ← h d s (hfs _ List.mem_cons_self)]
    cases get d s with
    | none => rfl
    | some p =>
      obtain ⟨buff, s⟩ := p
      by_cases hend : required = true ∧ buff = []
      · simp [hend]
      · have hrest := ih (fun f hf => hfs f (List.mem_cons_of_mem _ hf)) s
        simp only [Option.bind_some, Option.map_some, Prod.map, id, if_neg hend, ← hrest,
          Option.map_map]
        rfl

theorem loadFrom_view (h : Views get get' view) (rounds : Nat) (s : S) :
    loadFrom get rounds s = loadFrom get' rounds (view s) := by
  induction rounds generalizing s with
  | zero => rfl
  | succ rounds ih =>
    rw [loadFrom, loadFrom, ← readFields_view h (by decide +kernel) s]
    cases readFields get fields s with
    | none => rfl
    | some p =>
      obtain ⟨buffs, s⟩ := p
      cases hnode : buffs.bind nodeOf with
      | none => simp [hnode]
      | some node => simp [hnode, ih]

end View

/-- The next token of a text without blanks before it. -/
def token (d : Byte) (text : List Byte) : Option (List Byte × List Byte) :=
  let buff := text.takeWhile fun c => c ≠ d ∧ ¬ blank c
  if buff.length < MAXBUFLEN then
    some (buff, (text.drop buff.length).tail.dropWhile blank)
  else none

theorem drop_takeWhile {α : Type} (p : α → Bool) (l : List α) :
    l.drop (l.takeWhile p).length = l.dropWhile p := by
  have h := List.takeWhile_append_dropWhile (p := p) (l := l)
  calc l.drop (l.takeWhile p).length
      = (l.takeWhile p ++ l.dropWhile p).drop (l.takeWhile p).length := by rw [h]
    _ = l.dropWhile p := List.drop_left

/-- What ends a token is the delimiter or a blank. -/
theorem head_dropWhile {d c : Byte} {text rest : List Byte}
    (h : text.dropWhile (fun c => decide (c ≠ d ∧ ¬ blank c)) = c :: rest) :
    c = d ∨ blank c = true := by
  have hc := List.head?_dropWhile_not (fun c => decide (c ≠ d ∧ ¬ blank c)) text
  rw [h] at hc
  simpa [or_iff_not_imp_left] using hc

theorem token_of_string : Views get_token_from_string token (List.dropWhile blank) := by
  intro d str hd
  cases str with
  | nil => simp [get_token_from_string, token, MAXBUFLEN]
  | cons c rest =>
    by_cases hc : c = d
    · subst hc
      simp [get_token_from_string, token, hd, MAXBUFLEN]
    · simp only [get_token_from_string, token, if_neg hc, drop_takeWhile]
      split
      · cases hafter : ((c :: rest).dropWhile blank).dropWhile
            fun c => decide (c ≠ d ∧ ¬ blank c) with
        | nil => simp
        | cons x after =>
          rcases head_dropWhile hafter with rfl | hx
          · simp
          · have hne : x ≠ d := by
              intro he
              rw [he, hd] at hx
              cases hx
            simp [hne, hx]
      · rfl

theorem view_next (text : List Byte) :
    (File.next text).rest.dropWhile blank = text.tail.dropWhile blank := by
  cases text <;> rfl

theorem token_of_fp : Views get_token_from_fp token fun fp => fp.rest.dropWhile blank := by
  intro d fp hd
  by_cases heof : fp.eof = true
  · simp [get_token_from_fp, token, heof, fp.at_end heof, MAXBUFLEN]
  · by_cases hhead : fp.rest.head? = some d
    · obtain ⟨rest, hrest⟩ := List.head?_eq_some_iff.mp hhead
      simp [get_token_from_fp, token, heof, hrest, hd, File.next, File.opened, MAXBUFLEN]
    · simp only [get_token_from_fp, token, if_neg heof, if_neg hhead, drop_takeWhile]
      split
      · simp [view_next]
      · rfl

/-- The string and the file are read alike, whatever they hold. -/
theorem NJD_load_eq_load_from_fp (str : CString) :
    NJD_load str = NJD_load_from_fp (File.opened str.bytes) := by
  have hs := loadFrom_view token_of_string (str.bytes.length + 1) str.bytes
  have hf := loadFrom_view token_of_fp (str.bytes.length + 1) (File.opened str.bytes)
  exact hs.trans hf.symm

/-- What stands in a printed field. -/
def Plain (d : Byte) (buff : List Byte) : Prop := ∀ c ∈ buff, c ≠ d ∧ blank c = false

theorem token_append {d x : Byte} {buff : List Byte} (hplain : Plain d buff)
    (hlen : buff.length < MAXBUFLEN) (hx : x = d ∨ blank x = true) (rest : List Byte) :
    token d (buff ++ x :: rest) = some (buff, rest.dropWhile blank) := by
  have hstop : decide (x ≠ d ∧ ¬ blank x = true) = false := by
    rcases hx with rfl | hx
    · simp
    · simp [hx]
  have htake : (buff ++ x :: rest).takeWhile (fun c => decide (c ≠ d ∧ ¬ blank c = true)) =
      buff := by
    rw [List.takeWhile_append_of_pos, List.takeWhile_cons, hstop]
    · simp
    · intro c hc
      simpa using hplain c hc
  simp only [token, htake, if_pos hlen, List.drop_left, List.tail_cons]

/-- A line for tokens: their delimiters, and a blank in the place of the last one. -/
inductive Line : List (Byte × Bool) → List (List Byte) → List Byte → List Byte → Prop
  | nil (rest : List Byte) : Line [] [] rest rest
  | last {d x : Byte} {required : Bool} {buff : List Byte} (rest : List Byte)
      (hplain : Plain d buff) (hlen : buff.length < MAXBUFLEN) (hne : buff ≠ [])
      (hx : blank x = true) : Line [(d, required)] [buff] rest (buff ++ x :: rest)
  | cons {d : Byte} {required : Bool} {buff : List Byte} {fs : List (Byte × Bool)}
      {buffs : List (List Byte)} {rest line : List Byte} (hplain : Plain d buff)
      (hlen : buff.length < MAXBUFLEN) (hd : blank d = false)
      (hne : required = true → buff ≠ []) (h : Line fs buffs rest line) :
      Line ((d, required) :: fs) (buff :: buffs) rest (buff ++ d :: line)

theorem dropWhile_blank {d x : Byte} {buff : List Byte} (hplain : Plain d buff)
    (h : buff ≠ [] ∨ blank x = false) (rest : List Byte) :
    (buff ++ x :: rest).dropWhile blank = buff ++ x :: rest := by
  cases buff with
  | nil =>
    have hx : blank x = false := h.resolve_left fun hne => hne rfl
    simp [hx]
  | cons c buff => simp [(hplain c List.mem_cons_self).2]

theorem readFields_line {fs : List (Byte × Bool)} {buffs : List (List Byte)}
    {rest line : List Byte} (h : Line fs buffs rest line) :
    readFields token fs (line.dropWhile blank) = some (some buffs, rest.dropWhile blank) := by
  induction h with
  | nil rest => rfl
  | last rest hplain hlen hne hx =>
    rw [dropWhile_blank hplain (.inl hne), readFields, token_append hplain hlen (.inr hx)]
    simp [hne, readFields]
  | cons hplain hlen hd hne h ih =>
    rw [dropWhile_blank hplain (.inr hd), readFields, token_append hplain hlen (.inl rfl)]
    simp [ih]
    exact hne

/-- The numbers of a node are ints. -/
def Ints (node : NJDNode) : Prop :=
  ∀ n ∈ [(node.acc : Int), node.mora_size, node.chain_flag], n.natAbs < 2 ^ 32

/-- A node whose strings can be told apart when they are printed: it has its parts of speech
and conjugation, and no string holds a delimiter, a blank or a NUL or is too long. -/
structure Printable (node : NJDNode) : Prop where
  texts : ∀ t ∈ [node.string, node.pos, node.pos_group1, node.pos_group2, node.pos_group3,
    node.ctype, node.cform, node.orig, node.read, node.pron, node.chain_rule],
    Plain COMMA (shown t) ∧ NUL ∉ shown t ∧ (shown t).length < MAXBUFLEN
  required : ∀ t ∈ [node.pos, node.pos_group1, node.pos_group2, node.pos_group3, node.ctype,
    node.cform], t ≠ none
  numbers : Ints node

/-- The tokens of a printed node. -/
def tokens (node : NJDNode) : List (List Byte) :=
  [shown node.string, shown node.pos, shown node.pos_group1, shown node.pos_group2,
    shown node.pos_group3, shown node.ctype, shown node.cform, shown node.orig, shown node.read,
    shown node.pron, decimal node.acc, decimal node.mora_size, shown node.chain_rule,
    decimal node.chain_flag]

theorem shown_ne_nil {t : Option Text} (h : t ≠ none) : shown t ≠ [] := by
  obtain ⟨t, rfl⟩ := Option.ne_none_iff_exists'.mp h
  exact t.ne

theorem decimal_ne_nil (n : Int) : decimal n ≠ [] := by
  obtain ⟨d, ds, hds⟩ := digits_cons n.natAbs
  unfold decimal
  split <;> simp [hds]

theorem numeral_plain {c : Byte} (h : 45 ≤ c.val ∧ c.val < 58) : c ≠ COMMA ∧ blank c = false := by
  revert c
  decide +kernel

theorem plain_decimal (n : Int) : Plain COMMA (decimal n) :=
  fun _ hc => numeral_plain (decimal_range hc)

/-- An accent is not negative, and its digits are no slashes. -/
theorem plain_accent (n : Nat) : Plain SLASH (decimal n) := by
  intro c hc
  have hblank := (plain_decimal n c hc).2
  rw [decimal_natCast] at hc
  have hrange := digits_range hc
  refine ⟨?_, hblank⟩
  rintro rfl
  exact absurd hrange.1 (by decide)

theorem decimal_fits {n : Int} (h : n.natAbs < 2 ^ 32) : (decimal n).length < MAXBUFLEN := by
  have hlen := decimal_length (k := 10) (by decide) (Nat.lt_trans h (by decide))
  unfold MAXBUFLEN
  omega

theorem cut_shown {t : Option Text} (h : NUL ∉ shown t) : cut (shown t) = t := by
  rw [cut, c_str_of_nul_free h, text_shown]

section Fields
variable {t : Option Text} {fs : List (Byte × Bool)} {buffs : List (List Byte)}
  {rest line : List Byte}

theorem Line.required (ht : Plain COMMA (shown t) ∧ NUL ∉ shown t ∧ (shown t).length < MAXBUFLEN)
    (hne : t ≠ none) (h : Line fs buffs rest line) :
    Line ((COMMA, true) :: fs) (shown t :: buffs) rest (shown t ++ COMMA :: line) :=
  .cons ht.1 ht.2.2 (by decide) (fun _ => shown_ne_nil hne) h

theorem Line.optional (ht : Plain COMMA (shown t) ∧ NUL ∉ shown t ∧ (shown t).length < MAXBUFLEN)
    (h : Line fs buffs rest line) :
    Line ((COMMA, false) :: fs) (shown t :: buffs) rest (shown t ++ COMMA :: line) :=
  .cons ht.1 ht.2.2 (by decide) (fun hr => absurd hr Bool.false_ne_true) h

theorem Line.number {d : Byte} {n : Int} (hplain : Plain d (decimal n)) (hn : n.natAbs < 2 ^ 32)
    (hd : blank d = false) (h : Line fs buffs rest line) :
    Line ((d, true) :: fs) (decimal n :: buffs) rest (decimal n ++ d :: line) :=
  .cons hplain (decimal_fits hn) hd (fun _ => decimal_ne_nil n) h

end Fields

theorem line_fprint {node : NJDNode} (h : Printable node) (rest : List Byte) :
    Line fields (tokens node) rest (node.fprint ++ rest) := by
  have htexts := h.texts
  have hrequired := h.required
  have hnumbers : ∀ n ∈ [(node.acc : Int), node.mora_size, node.chain_flag], n.natAbs < 2 ^ 32 :=
    h.numbers
  simp only [List.mem_cons, List.not_mem_nil, or_false, forall_eq_or_imp, forall_eq]
    at htexts hrequired hnumbers
  obtain ⟨string, pos, group1, group2, group3, ctype, cform, orig, read, pron, chain_rule⟩ := htexts
  obtain ⟨hpos, hgroup1, hgroup2, hgroup3, hctype, hcform⟩ := hrequired
  obtain ⟨acc, mora_size, chain_flag⟩ := hnumbers
  have hflag : Line [(COMMA, true)] [decimal node.chain_flag] rest
      (decimal node.chain_flag ++ LF :: rest) :=
    .last rest (plain_decimal _) (decimal_fits chain_flag) (decimal_ne_nil _) (by decide)
  have hnumbers := ((hflag.optional chain_rule).number (plain_decimal _) mora_size (by decide)).number
    (plain_accent node.acc) acc (by decide)
  have hreadings := ((hnumbers.optional pron).optional read).optional orig
  have hforms := (hreadings.required cform hcform).required ctype hctype
  have hgroups := ((hforms.required group3 hgroup3).required group2 hgroup2).required group1 hgroup1
  have hline := (hgroups.required pos hpos).optional string
  simpa [NJDNode.fprint, fields, tokens] using hline

theorem nodeOf_tokens {node : NJDNode} (h : Printable node) : nodeOf (tokens node) = some node := by
  have htexts := h.texts
  simp only [List.mem_cons, List.not_mem_nil, or_false, forall_eq_or_imp, forall_eq] at htexts
  obtain ⟨string, pos, group1, group2, group3, ctype, cform, orig, read, pron, chain_rule⟩ := htexts
  simp only [nodeOf, tokens, cut_shown string.2.1, cut_shown pos.2.1, cut_shown group1.2.1,
    cut_shown group2.2.1, cut_shown group3.2.1, cut_shown ctype.2.1, cut_shown cform.2.1,
    cut_shown orig.2.1, cut_shown read.2.1, cut_shown pron.2.1, cut_shown chain_rule.2.1,
    atoi_decimal, Int.toNat_natCast]

theorem readFields_end : readFields token fields [] = some (none, []) := rfl

theorem loadFrom_fprint {njd : List NJDNode} (h : ∀ node ∈ njd, Printable node) {rounds : Nat}
    (hr : njd.length < rounds) :
    loadFrom token rounds ((NJD_fprint njd).dropWhile blank) = some njd := by
  induction njd generalizing rounds with
  | nil =>
    obtain ⟨rounds, rfl⟩ := Nat.exists_eq_succ_of_ne_zero (Nat.ne_of_gt hr)
    rw [NJD_fprint, List.flatMap_nil, List.dropWhile_nil, loadFrom, readFields_end]
    rfl
  | cons node njd ih =>
    obtain ⟨rounds, rfl⟩ := Nat.exists_eq_succ_of_ne_zero (Nat.ne_of_gt (Nat.zero_lt_of_lt hr))
    have hnode := h node List.mem_cons_self
    have hrest := ih (fun n hn => h n (List.mem_cons_of_mem _ hn)) (Nat.lt_of_succ_lt_succ hr)
    rw [NJD_fprint, List.flatMap_cons, ← NJD_fprint, loadFrom,
      readFields_line (line_fprint hnode (NJD_fprint njd))]
    simp [nodeOf_tokens hnode, hrest]

theorem length_le_fprint (njd : List NJDNode) : njd.length ≤ (NJD_fprint njd).length := by
  induction njd with
  | nil => exact Nat.zero_le _
  | cons node njd ih =>
    rw [NJD_fprint, List.flatMap_cons, ← NJD_fprint, List.length_append, List.length_cons]
    have hline : 0 < node.fprint.length := by simp [NJDNode.fprint]
    omega

theorem load_from_fp_printable {njd : List NJDNode} (h : ∀ node ∈ njd, Printable node) :
    NJD_load_from_fp (File.opened (NJD_fprint njd)) = some njd := by
  rw [NJD_load_from_fp, loadFrom_view token_of_fp]
  exact loadFrom_fprint h (Nat.lt_succ_of_le (length_le_fprint njd))

/-- What a reader takes for a field. -/
def Read (f : Byte × Bool) (buff : List Byte) : Prop :=
  (Plain f.1 buff ∧ NUL ∉ buff ∧ buff.length < MAXBUFLEN) ∧ (f.2 = true → buff ≠ [])

theorem token_read {d : Byte} {text buff rest : List Byte} (hnul : NUL ∉ text)
    (h : token d text = some (buff, rest)) :
    (Plain d buff ∧ NUL ∉ buff ∧ buff.length < MAXBUFLEN) ∧ NUL ∉ rest := by
  simp only [token] at h
  split at h
  · next hlen =>
    obtain ⟨rfl, rfl⟩ := Prod.mk.inj (Option.some.inj h)
    refine ⟨⟨fun c hc => ?_, fun hin => ?_, hlen⟩, fun hin => ?_⟩
    · simpa using List.mem_takeWhile_imp hc
    · exact hnul ((List.takeWhile_sublist _).mem hin)
    · have htail := List.mem_of_mem_tail ((List.dropWhile_sublist _).mem hin)
      exact hnul (List.mem_of_mem_drop htail)
  · cases h

theorem readFields_read {fs : List (Byte × Bool)} {text rest : List Byte}
    {buffs : List (List Byte)} (hnul : NUL ∉ text)
    (h : readFields token fs text = some (some buffs, rest)) :
    List.Forall₂ Read fs buffs ∧ NUL ∉ rest := by
  induction fs generalizing text buffs with
  | nil =>
    obtain ⟨hb, rfl⟩ := Prod.mk.inj (Option.some.inj h)
    obtain rfl := Option.some.inj hb
    exact ⟨.nil, hnul⟩
  | cons f fs ih =>
    obtain ⟨d, required⟩ := f
    obtain ⟨⟨buff, text'⟩, htoken, h⟩ := Option.bind_eq_some_iff.mp h
    obtain ⟨hread, hnul'⟩ := token_read hnul htoken
    by_cases hend : required = true ∧ buff = []
    · simp [hend] at h
    · simp only [if_neg hend] at h
      obtain ⟨⟨buffs', rest'⟩, hfields, heq⟩ := Option.map_eq_some_iff.mp h
      obtain ⟨hb, rfl⟩ := Prod.mk.inj heq
      obtain ⟨buffs'', rfl, rfl⟩ := Option.map_eq_some_iff.mp hb
      obtain ⟨hrest, hnul''⟩ := ih hnul' hfields
      exact ⟨.cons ⟨hread, fun hr hne => hend ⟨hr, hne⟩⟩ hrest, hnul''⟩

theorem shown_text (str : List Byte) : shown (text str) = str := by
  unfold text
  split
  · next hnil => rw [hnil]; rfl
  · rfl

theorem shown_cut {buff : List Byte} (h : NUL ∉ buff) : shown (cut buff) = buff := by
  rw [cut, c_str_of_nul_free h, shown_text]

theorem cut_ne_none {buff : List Byte} (h : NUL ∉ buff) (hne : buff ≠ []) : cut buff ≠ none := by
  intro hnone
  have hshown := shown_cut h
  rw [hnone] at hshown
  exact hne hshown.symm

theorem printable_of_read {buffs : List (List Byte)} {node : NJDNode}
    (h : List.Forall₂ Read fields buffs) (hnode : nodeOf buffs = some node)
    (hints : Ints node) : Printable node := by
  simp only [fields, List.forall₂_cons_left_iff, List.forall₂_nil_left_iff] at h
  obtain ⟨string, _, h1, ⟨pos, _, h2, ⟨group1, _, h3, ⟨group2, _, h4, ⟨group3, _, h5, ⟨ctype, _, h6,
    ⟨cform, _, h7, ⟨orig, _, h8, ⟨read, _, h9, ⟨pron, _, h10, ⟨acc, _, -, ⟨mora_size, _, -,
    ⟨chain_rule, _, h13, ⟨chain_flag, _, -, rfl, rfl⟩, rfl⟩, rfl⟩, rfl⟩, rfl⟩, rfl⟩, rfl⟩, rfl⟩,
    rfl⟩, rfl⟩, rfl⟩, rfl⟩, rfl⟩, rfl⟩ := h
  obtain rfl := Option.some.inj hnode
  refine ⟨?_, ?_, hints⟩
  · have hshown {buff : List Byte} {required : Bool} (hb : Read (COMMA, required) buff) :
        Plain COMMA (shown (cut buff)) ∧ NUL ∉ shown (cut buff) ∧
          (shown (cut buff)).length < MAXBUFLEN := by
      rw [shown_cut hb.1.2.1]
      exact hb.1
    simp only [List.mem_cons, List.not_mem_nil, or_false, forall_eq_or_imp, forall_eq]
    exact ⟨hshown h1, hshown h2, hshown h3, hshown h4, hshown h5, hshown h6, hshown h7, hshown h8,
      hshown h9, hshown h10, hshown h13⟩
  · have hthere {buff : List Byte} (hb : Read (COMMA, true) buff) : cut buff ≠ none :=
      cut_ne_none hb.1.2.1 (hb.2 rfl)
    simp only [List.mem_cons, List.not_mem_nil, or_false, forall_eq_or_imp, forall_eq]
    exact ⟨hthere h2, hthere h3, hthere h4, hthere h5, hthere h6, hthere h7⟩

theorem printable_of_loadFrom {rounds : Nat} {text : List Byte} {njd : List NJDNode}
    (hnul : NUL ∉ text) (h : loadFrom token rounds text = some njd) (hints : ∀ node ∈ njd, Ints node) :
    ∀ node ∈ njd, Printable node := by
  induction rounds generalizing text njd with
  | zero => cases h
  | succ rounds ih =>
    obtain ⟨⟨buffs, rest⟩, hfields, h⟩ := Option.bind_eq_some_iff.mp h
    cases hnode : buffs.bind nodeOf with
    | none =>
      simp only [hnode] at h
      obtain rfl := Option.some.inj h
      simp
    | some node =>
      simp only [hnode] at h
      obtain ⟨nodes, hnodes, rfl⟩ := Option.map_eq_some_iff.mp h
      obtain ⟨buffs, rfl, hof⟩ := Option.bind_eq_some_iff.mp hnode
      obtain ⟨hread, hrest⟩ := readFields_read hnul hfields
      intro n hn
      rcases List.mem_cons.mp hn with rfl | hn
      · exact printable_of_read hread hof (hints _ List.mem_cons_self)
      · exact ih hrest hnodes (fun m hm => hints m (List.mem_cons_of_mem _ hm)) n hn

theorem printable_of_load {str : CString} {njd : List NJDNode} (h : NJD_load str = some njd)
    (hints : ∀ node ∈ njd, Ints node) : ∀ node ∈ njd, Printable node := by
  rw [NJD_load, loadFrom_view token_of_string] at h
  exact printable_of_loadFrom (fun hin => str.nul_free ((List.dropWhile_sublist _).mem hin)) h hints

/-- Whatever text nodes were read from, they are the same after printing and reading. -/
theorem reload {str : CString} {njd : List NJDNode} (h : NJD_load str = some njd)
    (hints : ∀ node ∈ njd, Ints node) :
    NJD_load_from_fp (File.opened (NJD_fprint njd)) = some njd :=
  load_from_fp_printable (printable_of_load h hints)

/-- Two words, with a line feed too many and numbers that are printed otherwise. -/
def sampleText : CString :=
  c_str (utf8 "雨,名詞,一般,*,*,*,*,雨,アメ,アメ,+1/02,C1,-1\n\n,助詞,格助詞,一般,*,*,*,が,ガ,ガ,0/1,*,1\n")

def sampleNodes : List NJDNode := (NJD_load sampleText).getD []

theorem sample_load : NJD_load sampleText = some sampleNodes := by decide +kernel

theorem reload_sample : NJD_fprint sampleNodes ≠ sampleText.bytes ∧
    NJD_load_from_fp (File.opened (NJD_fprint sampleNodes)) = some sampleNodes :=
  ⟨by decide +kernel, reload sample_load (by unfold Ints; decide +kernel)⟩

end HAS.NJD

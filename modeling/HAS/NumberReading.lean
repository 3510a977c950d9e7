import HAS.SetDigit

/-! A sequence of digits that is read as a number is heard as that number, and the loop over the
words leaves all others as they are. -/
namespace HAS.SetDigit
open HAS.Bytes HAS.Stdio HAS.Text2mecab HAS.NJD HAS.Numerals

def kanjiDigits : List String := ["〇", "一", "二", "三", "四", "五", "六", "七", "八", "九"]

/-- What the names of digits, places and groups mean. -/
def meanings : List (String × Word) :=
  [("〇", .digit 0), ("一", .digit 1), ("二", .digit 2), ("三", .digit 3), ("四", .digit 4),
    ("五", .digit 5), ("六", .digit 6), ("七", .digit 7), ("八", .digit 8), ("九", .digit 9),
    ("十", .unit 1), ("百", .unit 2), ("千", .unit 3), ("万", .group 1), ("億", .group 2),
    ("兆", .group 3), ("京", .group 4), ("垓", .group 5), ("禾予", .group 6), ("穣", .group 7),
    ("溝", .group 8), ("澗", .group 9), ("正", .group 10), ("載", .group 11), ("極", .group 12),
    ("恒河沙", .group 13), ("阿僧祇", .group 14), ("那由他", .group 15), ("不可思議", .group 16),
    ("無量大数", .group 17)]

def wordOf (node : NJDNode) : Option Word :=
  (meanings.find? fun m => node.string.map Text.bytes = some (utf8 m.1)).map (·.2)

/-- What is heard of nodes: the words of those that are not silent. -/
def words (nodes : List NJDNode) : Option (List Word) := (NJD_remove_silent_node nodes).mapM wordOf

theorem words_append {a b : List NJDNode} {x y : List Word} (ha : words a = some x)
    (hb : words b = some y) : words (a ++ b) = some (x ++ y) := by
  unfold words NJD_remove_silent_node at *
  rw [List.filter_append, List.mapM_append, ha, hb]
  rfl

/-- A digit in its Chinese character. -/
structure IsDigit (node : NJDNode) (d : Nat) : Prop where
  lt : d < 10
  group : node.pos_group1 = text (utf8 NJD_SET_DIGIT_KAZU)
  string : node.string = text (utf8 (kanjiDigits.getD d ""))

theorem numeral_kanji : ∀ d < 10, (numeral (text (utf8 (kanjiDigits.getD d "")))).map
    (fun e => (atoi (ascii e.2.1), e.2.2)) = some ((d : Int), kanjiDigits.getD d "") := by
  decide +kernel

theorem kanji_ne_none : ∀ d < 10, text (utf8 (kanjiDigits.getD d "")) ≠ none := by
  decide +kernel

theorem IsDigit.get_digit_eq {node : NJDNode} {d : Nat} (h : IsDigit node d) :
    get_digit node false = some ((d : Int), node) := by
  have hstring : node.string ≠ none := h.string ▸ kanji_ne_none d h.lt
  have hkazu : equals node.pos_group1 NJD_SET_DIGIT_KAZU = some true := by
    rw [h.group]
    decide +kernel
  obtain ⟨e, he, heq⟩ := Option.map_eq_some_iff.mp (h.string ▸ numeral_kanji d h.lt)
  rw [get_digit, if_neg hstring, hkazu]
  simp [he, (Prod.mk.inj heq).1]

theorem meaning_kanji : ∀ d < 10, (meanings.find? fun m =>
    (text (utf8 (kanjiDigits.getD d ""))).map Text.bytes = some (utf8 m.1)).map (·.2) =
      some (.digit d) := by
  decide +kernel

theorem IsDigit.wordOf_eq {node : NJDNode} {d : Nat} (h : IsDigit node d) :
    wordOf node = some (.digit d) := by
  rw [wordOf, h.string]
  exact meaning_kanji d h.lt

/-- Nodes that are inserted for a word. -/
def Names (w : Word) (nodes : List NJDNode) : Prop :=
  words nodes = some [w] ∧ ∀ n ∈ nodes,
    n.pos_group1 = text (utf8 NJD_SET_DIGIT_KAZU) ∧ n.pos_group2 ≠ none

instance names_decidable (w : Word) (nodes : List NJDNode) : Decidable (Names w nodes) :=
  inferInstanceAs (Decidable (_ ∧ _))

theorem names_units : ∀ i < 4, 0 < i → ((njd_set_digit_rule_numeral_list2[i]?.bind fun feature =>
    NJDNode.load {} (utf8 feature)).map fun nodes => decide (Names (.unit i) nodes)) = some true := by
  decide +kernel

theorem names_groups : ∀ p < 18, 0 < p → ((njd_set_digit_rule_numeral_list3[p]?.bind fun feature =>
    NJDNode.load {} (utf8 feature)).map fun nodes => decide (Names (.group p) nodes)) = some true := by
  decide +kernel

theorem insertNode_names {w : Word} {feature : Option String} {behind : List NJDNode}
    (hbehind : behind ≠ []) (h : ((feature.bind fun feature =>
      NJDNode.load {} (utf8 feature)).map fun nodes => decide (Names w nodes)) = some true) :
    ∃ nodes, insertNode feature behind = some nodes ∧ Names w nodes := by
  obtain ⟨nodes, hload, hnames⟩ := Option.map_eq_some_iff.mp h
  exact ⟨nodes, by rw [insertNode, if_neg hbehind, hload], of_decide_eq_true hnames⟩

theorem words_silence (node : NJDNode) : words [silence node] = some [] := rfl

theorem IsDigit.words_eq {node : NJDNode} {d : Nat} (h : IsDigit node d) (hpron : node.pron ≠ none) :
    words [node] = some [.digit d] := by
  obtain ⟨pron, hp⟩ := Option.ne_none_iff_exists'.mp hpron
  simp [words, NJD_remove_silent_node, hp, h.wordOf_eq]

/-- A word of a number, among those that are not silent or with them. -/
def IsKazu (node : NJDNode) : Prop :=
  node.pos_group1 = text (utf8 NJD_SET_DIGIT_KAZU) ∧ node.pos_group2 ≠ none

section Says
variable {node : NJDNode} {d b : Nat}

/-- The node of a digit, silent or not. -/
def kept (c : Prop) [Decidable c] (node : NJDNode) : NJDNode := if c then silence node else node

theorem kept_string (c : Prop) [Decidable c] : (kept c node).string = node.string := by
  unfold kept
  split <;> rfl

theorem IsDigit.kept_kazu (h : IsDigit node d) (hgroup : node.pos_group2 ≠ none) (c : Prop)
    [Decidable c] : IsKazu (kept c node) := by
  unfold kept
  split <;> exact ⟨h.group, hgroup⟩

theorem IsDigit.words_kept (h : IsDigit node d) (hpron : node.pron ≠ none) (c : Prop)
    [Decidable c] : words [kept c node] = some (if c then [] else [.digit d]) := by
  unfold kept
  split
  · exact words_silence node
  · exact h.words_eq hpron

/-- The node of a digit with the name of its place or group, if it has one. -/
theorem IsDigit.says (h : IsDigit node d) (hpron : node.pron ≠ none)
    (hgroup : node.pos_group2 ≠ none) (c c' : Prop) [Decidable c] [Decidable c']
    (feature : Option String) (w : Word) {behind : List NJDNode} (hbehind : c' → behind ≠ [])
    (hfeature : c' → ((feature.bind fun feature =>
      NJDNode.load {} (utf8 feature)).map fun nodes => decide (Names w nodes)) = some true) :
    ∃ nodes, ((if c' then insertNode feature behind else some []).map (kept c node :: ·)) =
        some (kept c node :: nodes) ∧
      words (kept c node :: nodes) =
        some ((if c then [] else [.digit d]) ++ if c' then [w] else []) ∧
      (∀ n ∈ kept c node :: nodes, IsKazu n) ∧ (¬ c' → nodes = []) := by
  have hhead := h.words_kept hpron c
  by_cases hc : c'
  · obtain ⟨nodes, hinsert, hnames⟩ := insertNode_names (hbehind hc) (hfeature hc)
    refine ⟨nodes, ?_, ?_, ?_, fun hn => absurd hc hn⟩
    · rw [if_pos hc, hinsert]
      rfl
    · rw [if_pos hc]
      exact words_append hhead hnames.1
    · exact List.forall_mem_cons.mpr ⟨h.kept_kazu hgroup c, hnames.2⟩
  · refine ⟨[], ?_, ?_, ?_, fun _ => rfl⟩
    · rw [if_neg hc]
      rfl
    · rw [if_neg hc, List.append_nil]
      exact hhead
    · exact List.forall_mem_cons.mpr ⟨h.kept_kazu hgroup c, by simp⟩

/-- A digit of a sequence says what the digit and its place say, in the groups of four. -/
theorem convertDigit_says (h : IsDigit node d) (hpron : node.pron ≠ none)
    (hgroup : node.pos_group2 ≠ none) (hb : b / 4 < 18) (heard : Bool)
    {behind : List NJDNode} (hbehind : 0 < b → behind ≠ []) :
    ∃ nodes, convertDigit node d (b % 4) (b / 4 : Nat) heard behind = some nodes ∧
      words nodes = some (sayDigit 4 heard d b) ∧ (∀ n ∈ nodes, IsKazu n) ∧
      (b = 0 → nodes.map NJDNode.string = [node.string]) := by
  by_cases hplace : b % 4 = 0
  · obtain ⟨nodes, heq, hwords, hkazu, hnil⟩ := h.says hpron hgroup ((d : Int) = 0)
      ((heard || decide ((d : Int) ≠ 0)) = true ∧ (0 : Int) < (b / 4 : Nat))
      njd_set_digit_rule_numeral_list3[b / 4]? (.group (b / 4)) (fun hc => hbehind (by omega))
      (fun hc => names_groups _ hb (by omega))
    refine ⟨_, ?_, ?_, hkazu, fun hb0 => ?_⟩
    · rw [convertDigit, if_pos hplace, Int.toNat_natCast]
      exact heq
    · rw [hwords, sayDigit, if_pos hplace]
      simp only [Int.natCast_eq_zero, Int.natCast_pos, ne_eq, decide_not]
    · rw [hnil (by omega)]
      simp [kept_string]
  · obtain ⟨nodes, heq, hwords, hkazu, -⟩ := h.says hpron hgroup ((d : Int) ≤ 1) ((0 : Int) < d)
      njd_set_digit_rule_numeral_list2[b % 4]? (.unit (b % 4)) (fun _ => hbehind (by omega))
      (fun _ => names_units _ (Nat.mod_lt b (by decide)) (by omega))
    refine ⟨_, ?_, ?_, hkazu, fun hb0 => absurd (by rw [hb0]) hplace⟩
    · rw [convertDigit, if_neg hplace]
      exact heq
    · rw [hwords, sayDigit, if_neg hplace]
      by_cases hd : d = 0 <;> simp [hd, Nat.pos_iff_ne_zero]

end Says

/-- The digits of a sequence, as spoken words with their parts of speech. -/
def Digits (seq : List NJDNode) (ds : List Nat) : Prop :=
  List.Forall₂ (fun node d => IsDigit node d ∧ node.pron ≠ none ∧ node.pos_group2 ≠ none) seq ds

theorem convertFrom_says {after seq : List NJDNode} {ds : List Nat} (h : Digits seq ds)
    {index : Nat} {place : Int} (hindex : seq ≠ [] → index = (seq.length - 1) % 4)
    (hplace : seq ≠ [] → place = ((seq.length - 1) / 4 : Nat)) (hlen : seq.length ≤ 72)
    (heard : Bool) :
    ∃ out, convertFrom after index place heard seq = some out ∧
      words out = some (say 4 heard ds) ∧ (∀ n ∈ out, IsKazu n) ∧
      (out.map NJDNode.string).getLast? = (seq.map NJDNode.string).getLast? := by
  induction h generalizing index place heard with
  | nil => exact ⟨[], rfl, rfl, by simp, rfl⟩
  | @cons node d seq ds hnode hrest ih =>
    obtain ⟨hdigit, hpron, hgroup⟩ := hnode
    have hb : seq.length = ds.length := hrest.length_eq
    obtain rfl : index = ds.length % 4 := by simpa [hb] using hindex (List.cons_ne_nil _ _)
    obtain rfl : place = (ds.length / 4 : Nat) := by
      simpa [hb] using hplace (List.cons_ne_nil _ _)
    rw [List.length_cons] at hlen
    have hbehind : 0 < ds.length → seq ++ after ≠ [] := by
      intro hpos hnil
      rw [← hb, (List.append_eq_nil_iff.mp hnil).1] at hpos
      exact Nat.lt_irrefl 0 hpos
    obtain ⟨nodes, hconvert, hwords, hkazu, hlast⟩ :=
      convertDigit_says hdigit hpron hgroup (by omega) heard hbehind
    have hpos (hne : seq ≠ []) : 0 < seq.length := List.length_pos_iff.mpr hne
    obtain ⟨out, hfrom, hsay, hout, hend⟩ : ∃ out, (if ds.length % 4 = 0 then
          convertFrom after 3 ((ds.length / 4 : Nat) - 1) false seq
        else convertFrom after (ds.length % 4 - 1) (ds.length / 4 : Nat) (heard || decide (0 < (d : Int)))
          seq) = some out ∧ words out = some (say 4 (heardNext 4 heard d ds.length) ds) ∧
        (∀ n ∈ out, IsKazu n) ∧
        (out.map NJDNode.string).getLast? = (seq.map NJDNode.string).getLast? := by
      by_cases hmod : ds.length % 4 = 0
      · rw [if_pos hmod, heardNext, if_pos hmod]
        refine ih (fun hne => ?_) (fun hne => ?_) (by omega) false
        · have := hpos hne
          omega
        · have := hpos hne
          omega
      · have hheard : (heard || decide (0 < (d : Int))) = heardNext 4 heard d ds.length := by
          rw [heardNext, if_neg hmod]
          by_cases hd : d = 0 <;> simp [hd, Nat.pos_iff_ne_zero]
        rw [if_neg hmod, hheard]
        refine ih (fun hne => ?_) (fun hne => ?_) (by omega) _
        · have := hpos hne
          omega
        · have := hpos hne
          omega
    refine ⟨nodes ++ out, ?_, words_append hwords hsay, ?_, ?_⟩
    · rw [convertFrom, hdigit.get_digit_eq]
      simp only [Option.bind_some, hconvert, hfrom, Option.map_some]
    · exact List.forall_mem_append.mpr ⟨hkazu, hout⟩
    · rw [List.map_append, List.getLast?_append, hend]
      cases seq with
      | nil => simp [hlast hb.symm]
      | cons x seq => simp [List.getLast?_cons]

/-- A sequence with few enough digits and nothing against it is read as a number. -/
theorem convert_says {before seq after : List NJDNode} {ds : List Nat} (h : Digits seq ds)
    (hmin : 2 ≤ seq.length) (hmax : seq.length ≤ 72) {score : Int}
    (hscore : get_digit_sequence_score before after = some score) (hpos : 0 ≤ score) :
    ∃ out, convert_digit_sequence before seq after = some out ∧
      words out = some (say 4 false ds) ∧ (∀ n ∈ out, IsKazu n) ∧
      (out.map NJDNode.string).getLast? = (seq.map NJDNode.string).getLast? := by
  have hsize : ¬ seq.length ≤ 1 := by omega
  have hsign : ¬ score < 0 := by omega
  have hplace : ¬ 17 < (seq.length - if seq.length % 4 = 0 then 4 else seq.length % 4) / 4 := by
    split <;> omega
  simp only [convert_digit_sequence, if_neg hsize, hscore, Option.bind_some, if_neg hsign,
    if_neg hplace]
  refine convertFrom_says h (fun _ => ?_) (fun _ => ?_) hmax false
  · split <;> omega
  · congr 1
    split <;> omega

theorem Digits.kazu {seq : List NJDNode} {ds : List Nat} (h : Digits seq ds) :
    ∀ n ∈ seq, IsKazu n := by
  induction h with
  | nil => simp
  | cons hnode _ ih => exact List.forall_mem_cons.mpr ⟨⟨hnode.1.group, hnode.2.2⟩, ih⟩

theorem single_prons : (text (utf8 NJD_SET_DIGIT_ZERO_AFTER_DP) = none ↔ False) ∧
    (text (utf8 NJD_SET_DIGIT_TWO_AFTER_DP) = none ↔ False) ∧
    (text (utf8 NJD_SET_DIGIT_FIVE_AFTER_DP) = none ↔ False) := by
  decide +kernel

/-- A digit that is read on its own keeps its string and its parts of speech. -/
theorem single_ok {node : NJDNode} {d : Nat} (h : IsDigit node d) : ∃ out, single node = some out ∧
    out.string = node.string ∧ out.pos_group1 = node.pos_group1 ∧
    out.pos_group2 = node.pos_group2 ∧ (node.pron ≠ none → out.pron ≠ none) := by
  obtain ⟨string, hstring⟩ := Option.ne_none_iff_exists'.mp (h.string ▸ kanji_ne_none d h.lt)
  refine ⟨_, by rw [single, hstring]; rfl, ?_, ?_, ?_, ?_⟩
  · dsimp only
    split_ifs <;> simp [hstring]
  · dsimp only
    split_ifs <;> rfl
  · dsimp only
    split_ifs <;> rfl
  · dsimp only
    split_ifs <;> simp only [ne_eq, imp_self, single_prons, not_false_eq_true, implies_true]

theorem kazu_accented {done : List NJDNode} (h : ∀ n ∈ done, IsKazu n) :
    ∀ n ∈ done.modifyHead fun prev => { prev with acc := 3 }, IsKazu n := by
  cases done with
  | nil => exact h
  | cons prev done =>
    obtain ⟨hprev, hdone⟩ := List.forall_mem_cons.mp h
    exact List.forall_mem_cons.mpr ⟨hprev, hdone⟩

theorem digitByDigit_ok {seq : List NJDNode} {ds : List Nat} (h : Digits seq ds) (size : Nat)
    {done : List NJDNode} (hdone : ∀ n ∈ done, IsKazu n) :
    ∃ out, digitByDigit size done seq = some out ∧ (∀ n ∈ out, IsKazu n) ∧
      out.map NJDNode.string = (done.reverse ++ seq).map NJDNode.string := by
  induction h generalizing size done with
  | nil => exact ⟨done.reverse, rfl, by simpa using hdone, by simp⟩
  | @cons node d seq ds hnode _ ih =>
    obtain ⟨hdigit, -, hgroup⟩ := hnode
    obtain ⟨single, hsingle, hstring, hgroup1, hgroup2, -⟩ := single_ok hdigit
    have hkazu : IsKazu single := ⟨hgroup1.trans hdigit.group, hgroup2 ▸ hgroup⟩
    rw [digitByDigit, hsingle, Option.bind_some]
    by_cases heven : size % 2 = 0
    · rw [if_pos heven]
      have hnext : ∀ n ∈ { single with chain_flag := 0 } :: done, IsKazu n :=
        List.forall_mem_cons.mpr ⟨hkazu, hdone⟩
      obtain ⟨out, hout, hall, hstrings⟩ := ih (size + 1) hnext
      exact ⟨out, hout, hall, by simp [hstrings, hstring]⟩
    · rw [if_neg heven]
      have hnext : ∀ n ∈ { single with chain_flag := 1 } ::
          done.modifyHead fun prev => { prev with acc := 3 }, IsKazu n :=
        List.forall_mem_cons.mpr ⟨hkazu, kazu_accented hdone⟩
      obtain ⟨out, hout, hall, hstrings⟩ := ih (size + 1) hnext
      refine ⟨out, hout, hall, ?_⟩
      cases done <;> simp [hstrings, hstring]

/-- A sequence is converted, whatever the score, into words of numbers. -/
theorem convert_ok {before seq after : List NJDNode} {ds : List Nat} (h : Digits seq ds)
    (hscore : get_digit_sequence_score before after ≠ none) :
    ∃ out, convert_digit_sequence before seq after = some out ∧ (∀ n ∈ out, IsKazu n) ∧
      (out.map NJDNode.string).getLast? = (seq.map NJDNode.string).getLast? := by
  obtain ⟨score, hscore⟩ := Option.ne_none_iff_exists'.mp hscore
  by_cases hsize : seq.length ≤ 1
  · exact ⟨seq, by rw [convert_digit_sequence, if_pos hsize], h.kazu, rfl⟩
  · by_cases hsign : score < 0
    · obtain ⟨out, hout, hall, hstrings⟩ := digitByDigit_ok h 0 (List.forall_mem_nil IsKazu)
      refine ⟨out, ?_, hall, by rw [hstrings]; rfl⟩
      simp only [convert_digit_sequence, if_neg hsize, hscore, Option.bind_some, if_pos hsign, hout]
    · by_cases hmax : seq.length ≤ 72
      · obtain ⟨out, hout, -, hall, hlast⟩ :=
          convert_says h (by omega) hmax hscore (by omega)
        exact ⟨out, hout, hall, hlast⟩
      · have hplace : 17 < (seq.length - if seq.length % 4 = 0 then 4 else seq.length % 4) / 4 := by
          split <;> omega
        refine ⟨seq, ?_, h.kazu, rfl⟩
        simp only [convert_digit_sequence, if_neg hsize, hscore, Option.bind_some, if_neg hsign,
          if_pos hplace]

/-- A word as the steps before leave it: spoken, and with its parts of speech. -/
structure Ready (node : NJDNode) : Prop where
  pron : node.pron ≠ none
  group1 : node.pos_group1 ≠ none
  group2 : node.pos_group2 ≠ none

instance ready_decidable (node : NJDNode) : Decidable (Ready node) :=
  decidable_of_iff (node.pron ≠ none ∧ node.pos_group1 ≠ none ∧ node.pos_group2 ≠ none)
    ⟨fun h => ⟨h.1, h.2.1, h.2.2⟩, fun h => ⟨h.pron, h.group1, h.group2⟩⟩

/-- The digit that a word is. -/
def digitOf (node : NJDNode) : Option Nat :=
  if node.pos_group1 = text (utf8 NJD_SET_DIGIT_KAZU) then
    (numeral node.string).map fun entry => (atoi (ascii entry.2.1)).toNat
  else none

def bangou (node : NJDNode) : Bool := among node.string [NJD_SET_DIGIT_BANGOU]

/-- The entries of the table are digits, and none of them is the word for number. -/
theorem entry_digit : ∀ entry ∈ njd_set_digit_rule_numeral_list1,
    (atoi (ascii entry.2.1)).toNat < 10 ∧ 0 ≤ atoi (ascii entry.2.1) ∧
      entry.2.2 = kanjiDigits.getD (atoi (ascii entry.2.1)).toNat "" ∧
      utf8 entry.1 ≠ utf8 NJD_SET_DIGIT_BANGOU := by
  decide +kernel

theorem kanji_not_bangou : ∀ d < 10,
    among (text (utf8 (kanjiDigits.getD d ""))) [NJD_SET_DIGIT_BANGOU] = false := by
  decide +kernel

theorem equals_text {t : Option Text} (ht : t ≠ none) (s : String) (hs : utf8 s ≠ []) :
    equals t s = some (decide (t = text (utf8 s))) := by
  obtain ⟨t, rfl⟩ := Option.ne_none_iff_exists'.mp ht
  rw [equals, text, dif_neg hs]
  cases t
  simp

theorem get_digit_none {node : NJDNode} (h : node.pos_group1 ≠ none) (hd : digitOf node = none) :
    get_digit node true = some (-1, node) := by
  by_cases hstring : node.string = none
  · rw [get_digit, if_pos hstring]
  · rw [get_digit, if_neg hstring, equals_text h _ (by decide +kernel)]
    by_cases hkazu : node.pos_group1 = text (utf8 NJD_SET_DIGIT_KAZU)
    · rw [digitOf, if_pos hkazu, Option.map_eq_none_iff] at hd
      simp [hkazu, hd]
    · simp [hkazu]

theorem get_digit_some {node : NJDNode} {d : Nat} (hd : digitOf node = some d) :
    bangou node = false ∧ ∃ node', get_digit node true = some ((d : Int), node') ∧
      IsDigit node' d ∧ node'.pron = node.pron ∧ node'.pos_group2 = node.pos_group2 := by
  unfold digitOf at hd
  split at hd
  · next hkazu =>
    obtain ⟨entry, hentry, rfl⟩ := Option.map_eq_some_iff.mp hd
    obtain ⟨hlt, hpos, hkanji, hother⟩ := entry_digit entry (List.mem_of_find?_eq_some hentry)
    have hbytes : node.string.map Text.bytes = some (utf8 entry.1) := by
      simpa using List.find?_some hentry
    have hstring : node.string ≠ none := by
      intro hnone
      rw [hnone] at hbytes
      cases hbytes
    have hequals : equals node.pos_group1 NJD_SET_DIGIT_KAZU = some true := by
      rw [hkazu]
      decide +kernel
    refine ⟨?_, { node with string := text (utf8 entry.2.2), orig := text (utf8 entry.2.2) }, ?_,
      ⟨hlt, hkazu, ?_⟩, rfl, rfl⟩
    · simp [bangou, among, hbytes, hother]
    · rw [get_digit, if_neg hstring, hequals]
      simp [hentry, Int.toNat_of_nonneg hpos]
    · rw [← hkanji]
  · cases hd

/-- Two beginnings that the score cannot tell apart. -/
def Alike (before before' : List NJDNode) : Prop :=
  before.head? = before'.head? ∧ before.tail.head?.map bangou = before'.tail.head?.map bangou

theorem scoreOf_ok {score : NJDNode → Option Int} {node : Option NJDNode}
    (h : ∀ n, node = some n → score n ≠ none) : ∃ x, scoreOf score node = some x := by
  cases node with
  | none => exact ⟨0, rfl⟩
  | some n => exact Option.ne_none_iff_exists'.mp (h n rfl)

/-- The words before and after a sequence need their parts of speech. -/
theorem score_ok {before after : List NJDNode}
    (hbefore : ∀ n ∈ before, n.pos_group1 ≠ none ∧ n.pos_group2 ≠ none)
    (hafter : ∀ n ∈ after.head?, n.pos_group2 ≠ none) :
    get_digit_sequence_score before after ≠ none := by
  obtain ⟨prev, hprev⟩ : ∃ x, scoreOf scoreBefore before.head? = some x := by
    refine scoreOf_ok fun n hn => ?_
    obtain ⟨h1, h2⟩ := hbefore n (List.mem_of_mem_head? hn)
    obtain ⟨g1, hg1⟩ := Option.ne_none_iff_exists'.mp h1
    obtain ⟨g2, hg2⟩ := Option.ne_none_iff_exists'.mp h2
    simp [scoreBefore, equals, hg1, hg2]
  obtain ⟨prevPrev, hprevPrev⟩ : ∃ x, scoreOf (fun node => some
      (if among node.string [NJD_SET_DIGIT_BANGOU] then (-2 : Int) else 0)) before.tail.head? =
        some x :=
    scoreOf_ok fun n _ => Option.some_ne_none _
  obtain ⟨next, hnext⟩ : ∃ x, scoreOf scoreAfter after.head? = some x := by
    refine scoreOf_ok fun n hn => ?_
    obtain ⟨g2, hg2⟩ := Option.ne_none_iff_exists'.mp (hafter n hn)
    simp [scoreAfter, equals, hg2]
  rw [get_digit_sequence_score, hprev, hprevPrev, hnext]
  exact Option.some_ne_none _

/-- A word that is not a part of a number. -/
def other (node : NJDNode) : Bool := node.pos_group1 ≠ text (utf8 NJD_SET_DIGIT_KAZU)

theorem others_nil {nodes : List NJDNode} (h : ∀ n ∈ nodes, IsKazu n) : nodes.filter other = [] := by
  refine List.filter_eq_nil_iff.mpr fun n hn => ?_
  simp [other, (h n hn).1]

theorem kazu_grouped {nodes : List NJDNode} (h : ∀ n ∈ nodes, IsKazu n) :
    ∀ n ∈ nodes, n.pos_group1 ≠ none ∧ n.pos_group2 ≠ none := by
  intro n hn
  obtain ⟨h1, h2⟩ := h n hn
  refine ⟨?_, h2⟩
  rw [h1]
  decide +kernel

/-- What the loop is in: the words done have their parts of speech, and a pending sequence is
one of digits. -/
structure Pending (done seq : List NJDNode) (ds : List Nat) : Prop where
  grouped : ∀ n ∈ done, n.pos_group1 ≠ none ∧ n.pos_group2 ≠ none
  digits : Digits seq.reverse ds

theorem Pending.start : Pending [] [] [] := ⟨by simp, .nil⟩

theorem Pending.digit {done seq : List NJDNode} {ds : List Nat} (h : Pending done seq ds)
    {node : NJDNode} {d : Nat} (hd : IsDigit node d) (hpron : node.pron ≠ none)
    (hgroup : node.pos_group2 ≠ none) : Pending done (node :: seq) (ds ++ [d]) := by
  refine ⟨h.grouped, ?_⟩
  rw [Digits, List.reverse_cons]
  exact List.rel_append h.digits (.cons ⟨hd, hpron, hgroup⟩ .nil)

section Steps
variable {done seq rest : List NJDNode} {find : Bool} {node node' : NJDNode}

theorem step_other (hnode : get_digit node true = some (-1, node)) {nodes : List NJDNode}
    (hnodes : (if seq = [] then some [] else
      convert_digit_sequence done seq.reverse (node :: rest)) = some nodes) :
    convertSequences done seq find (node :: rest) =
      convertSequences (node :: nodes.reverse ++ done) [] find rest := by
  rw [convertSequences, hnode]
  have hneg : ¬ (0 : Int) ≤ -1 := by decide
  simp only [Option.bind_some, if_neg hneg, hnodes]

theorem step_digit {d : Nat} (hnode : get_digit node true = some ((d : Int), node'))
    (hrest : rest ≠ []) : convertSequences done seq find (node :: rest) =
      convertSequences done (node' :: seq) true rest := by
  rw [convertSequences, hnode]
  simp only [Option.bind_some, if_pos (Int.natCast_nonneg d), if_neg hrest]

theorem step_last {d : Nat} (hnode : get_digit node true = some ((d : Int), node'))
    {nodes : List NJDNode}
    (hnodes : convert_digit_sequence done (node' :: seq).reverse [] = some nodes) :
    convertSequences done seq find [node] = some (done.reverse ++ nodes, true) := by
  rw [convertSequences, hnode]
  simp only [Option.bind_some, if_pos (Int.natCast_nonneg d), if_true, hnodes, Option.map_some]

/-- What a pending sequence becomes when another word ends it. -/
theorem Pending.ended {ds : List Nat} (h : Pending done seq ds) {after : List NJDNode}
    (hafter : ∀ n ∈ after.head?, n.pos_group2 ≠ none) :
    ∃ nodes, (if seq = [] then some [] else convert_digit_sequence done seq.reverse after) =
        some nodes ∧ (∀ n ∈ nodes, IsKazu n) ∧
      (nodes.map NJDNode.string).getLast? = (seq.reverse.map NJDNode.string).getLast? := by
  by_cases hseq : seq = []
  · exact ⟨[], if_pos hseq, by simp, by simp [hseq]⟩
  · rw [if_neg hseq]
    exact convert_ok h.digits (score_ok h.grouped hafter)

theorem Pending.next {ds : List Nat} (h : Pending done seq ds) {nodes : List NJDNode}
    (hnodes : ∀ n ∈ nodes, IsKazu n) (hnode : Ready node) :
    Pending (node :: nodes.reverse ++ done) [] [] := by
  refine ⟨?_, .nil⟩
  intro n hn
  rcases List.mem_append.mp hn with hn | hn
  · rcases List.mem_cons.mp hn with rfl | hn
    · exact ⟨hnode.group1, hnode.group2⟩
    · exact kazu_grouped hnodes n (List.mem_reverse.mp hn)
  · exact h.grouped n hn

theorem digit_kazu {d : Nat} (hd : digitOf node = some d) : other node = false := by
  unfold digitOf at hd
  split at hd
  · next hkazu => simp [other, hkazu]
  · cases hd

end Steps

/-- The loop gets through any words, and leaves those that are not numbers as they are. -/
theorem convertSequences_ok {rest : List NJDNode} (hrest : ∀ n ∈ rest, Ready n)
    {done seq : List NJDNode} {ds : List Nat} (h : Pending done seq ds)
    (hseq : rest = [] → seq = []) (find : Bool) :
    ∃ out find', convertSequences done seq find rest = some (done.reverse ++ out, find') ∧
      out.filter other = rest.filter other ∧ (find = true → find' = true) := by
  induction rest generalizing done seq ds find with
  | nil => exact ⟨[], find, by simp [convertSequences], rfl, id⟩
  | cons node rest ih =>
    have hafter : ∀ n ∈ (node :: rest).head?, n.pos_group2 ≠ none := fun n hn =>
      (hrest n (List.mem_of_mem_head? hn)).group2
    obtain ⟨hnode, hrest⟩ := List.forall_mem_cons.mp hrest
    cases hd : digitOf node with
    | none =>
      obtain ⟨nodes, hnodes, hkazu, -⟩ := h.ended hafter
      obtain ⟨out, find', hout, hfilter, hfind⟩ :=
        ih hrest (h.next hkazu hnode) (fun _ => rfl) find
      refine ⟨nodes ++ node :: out, find', ?_, ?_, hfind⟩
      · rw [step_other (get_digit_none hnode.group1 hd) hnodes, hout]
        simp
      · rw [List.filter_append, others_nil hkazu, List.nil_append, List.filter_cons,
          List.filter_cons, hfilter]
    | some d =>
      obtain ⟨-, node', hget, hdigit, hpron, hgroup⟩ := get_digit_some hd
      have hnext := h.digit hdigit (hpron ▸ hnode.pron) (hgroup ▸ hnode.group2)
      have hother := digit_kazu hd
      by_cases hnil : rest = []
      · subst hnil
        have hscore : get_digit_sequence_score done [] ≠ none := score_ok h.grouped (by simp)
        obtain ⟨nodes, hnodes, hkazu, -⟩ := convert_ok hnext.digits hscore
        exact ⟨nodes, true, step_last hget hnodes, by simp [others_nil hkazu, hother], fun _ => rfl⟩
      · obtain ⟨out, find', hout, hfilter, hfind⟩ :=
          ih hrest hnext (fun hn => absurd hn hnil) true
        refine ⟨out, find', by rw [step_digit hget hnil, hout], ?_, fun _ => hfind rfl⟩
        rw [hfilter, List.filter_cons, hother]
        rfl

/-- The words done beside the words they come from: the score cannot tell them apart, and where
a sequence is pending the last one was a digit. -/
structure Tracks (done seq orig : List NJDNode) : Prop where
  alike : seq = [] → Alike done orig
  digit : seq ≠ [] → orig.head?.map bangou = some false

theorem Digits.not_bangou {seq : List NJDNode} {ds : List Nat} (h : Digits seq ds) :
    ∀ n ∈ seq, bangou n = false := by
  induction h with
  | nil => simp
  | cons hnode _ ih =>
    refine List.forall_mem_cons.mpr ⟨?_, ih⟩
    rw [bangou, hnode.1.string]
    exact kanji_not_bangou _ hnode.1.lt

/-- The words that a sequence becomes end with a digit. -/
theorem last_not_bangou {seq nodes : List NJDNode} {ds : List Nat} (hseq : Digits seq ds)
    (hne : seq ≠ [])
    (hlast : (nodes.map NJDNode.string).getLast? = (seq.map NJDNode.string).getLast?) :
    nodes.getLast?.map bangou = some false := by
  have hb := hseq.not_bangou (seq.getLast hne) (List.getLast_mem hne)
  rw [List.getLast?_map, List.getLast?_map, List.getLast?_eq_some_getLast hne] at hlast
  obtain ⟨y, hy, hstring⟩ := Option.map_eq_some_iff.mp hlast
  rw [hy, Option.map_some, bangou, hstring]
  exact congrArg some hb

theorem Tracks.next {done seq orig nodes : List NJDNode} {ds : List Nat} (h : Tracks done seq orig)
    (hseq : Digits seq.reverse ds) (hnil : seq = [] → nodes = [])
    (hlast : (nodes.map NJDNode.string).getLast? = (seq.reverse.map NJDNode.string).getLast?)
    (node : NJDNode) : Tracks (node :: nodes.reverse ++ done) [] (node :: orig) := by
  refine ⟨fun _ => ⟨rfl, ?_⟩, fun hne => absurd rfl hne⟩
  by_cases hs : seq = []
  · rw [hnil hs]
    simp [(h.alike hs).1]
  · have hnodes := last_not_bangou hseq (by simpa using hs) hlast
    obtain ⟨y, hy, hby⟩ := Option.map_eq_some_iff.mp hnodes
    simp [List.head?_append, hy, hby, h.digit hs]

theorem Pending.length {done seq : List NJDNode} {ds : List Nat} (h : Pending done seq ds) :
    seq.reverse.length = ds.length := h.digits.length_eq

section Run
variable {P : List NJDNode → Prop}

end Run

/-- Words that are no numbers are never silent. -/
theorem filter_other {out njd : List NJDNode} (hready : ∀ n ∈ njd, Ready n)
    (h : out.filter other = njd.filter other) :
    (NJD_remove_silent_node out).filter other = njd.filter other := by
  unfold NJD_remove_silent_node
  rw [List.filter_comm, h, List.filter_eq_self]
  intro n hn
  exact Option.isSome_iff_ne_none.mpr (hready n (List.mem_of_mem_filter hn)).pron

/-- All words but the numbers stay as they are, whatever the utterance. -/
theorem convert_digits_others {njd : List NJDNode} (h : ∀ n ∈ njd, Ready n) :
    ∃ out, convert_digits njd = some out ∧ out.filter other = njd.filter other := by
  obtain ⟨out, find, hout, hfilter, -⟩ := convertSequences_ok h Pending.start (fun _ => rfl) false
  refine ⟨_, by rw [convert_digits, hout]; rfl, ?_⟩
  cases find with
  | false => exact hfilter
  | true => exact filter_other h hfilter

section Sample

def word (feature : String) : NJDNode := ((NJDNode.load {} (utf8 feature)).getD []).headD {}

/-- The words of 番号は１０５円。 -/
def sampleNumber : NJDNode := word "番号,名詞,一般,*,*,*,*,番号,バンゴウ,バンゴー,3/4,C1"
def sampleParticle : NJDNode := word "は,助詞,係助詞,*,*,*,*,は,ハ,ワ,0/1,*"
def sampleDigits : List NJDNode :=
  [word "１,名詞,数,*,*,*,*,１,イチ,イチ,2/2,C3", word "０,名詞,数,*,*,*,*,０,ゼロ,ゼロ,1/2,C3",
    word "５,名詞,数,*,*,*,*,５,ゴ,ゴ,1/1,C3"]
def sampleYen : NJDNode := word "円,名詞,接尾,助数詞,*,*,*,円,エン,エン,1/2,C3"

end Sample

theorem convert_digits_others_sample : ∃ out,
    convert_digits ([sampleNumber, sampleParticle] ++ (sampleDigits ++ [sampleYen])) = some out ∧
      out.filter other =
        ([sampleNumber, sampleParticle] ++ (sampleDigits ++ [sampleYen])).filter other :=
  convert_digits_others (by decide +kernel)

section Pairs
variable {l : List NJDNode} {ds : List Nat} {p x : NJDNode} {d : Nat}

end Pairs

end HAS.SetDigit

import HAS.TreeSearch

/-! The meaning of a file of decision trees. A line names a node, its question and its two
children, by number or by PDF; what the lines decide about a label is what the search in
the loaded tree finds. -/
namespace HAS.HTSEngine
open HAS.Bytes HAS.Stdio HAS.PropertyTree HAS.IRemocon HAS.Readers

/-- A child in a line of a tree. -/
inductive Ref
  | node (num : Int)
  | pdf (stem : List Byte) (n : Nat)

def Ref.text : Ref → List Byte
  | .node num => decimal num
  | .pdf stem n => stem ++ digits n

/-- The index and the PDF of its node. -/
def Ref.mark : Ref → Int × Int
  | .node num => (num, 0)
  | .pdf _ n => (0, n)

/-- The root has the number 0; the name of a PDF is no number, and its digits end it. -/
def Ref.Plain : Ref → Prop
  | .node num => num ≠ 0
  | .pdf stem _ => HTS_is_num stem = false ∧ ∀ c ∈ stem.getLast?, decimalDigit c = false

structure Entry where
  num : Int
  quest : HTS_Question
  no : Ref
  yes : Ref

/-- What the lines of a tree decide about a label. -/
inductive Decides (entries : List Entry) (string : List Byte) : Ref → Nat → Prop
  | pdf {stem : List Byte} {n : Nat} : Decides entries string (.pdf stem n) n
  | yes {e : Entry} {n : Nat} (he : e ∈ entries) (hasks : e.quest.Asks string)
      (h : Decides entries string e.yes n) : Decides entries string (.node e.num) n
  | no {e : Entry} {n : Nat} (he : e ∈ entries) (hasks : ¬ e.quest.Asks string)
      (h : Decides entries string e.no n) : Decides entries string (.node e.num) n

def children (entries : List Entry) : List Ref := entries.flatMap fun e => [e.no, e.yes]

/-- The nodes in the order in which they are made. -/
def refs (entries : List Entry) : List Ref := .node 0 :: children entries

/-- Every node has at most one line and one parent, whose line comes first. -/
structure Ordered (entries : List Entry) : Prop where
  once : (entries.map (·.num)).Nodup
  plain : ∀ r ∈ children entries, r.Plain
  apart : (children entries).Pairwise fun r s => ∀ num, r = .node num → s ≠ .node num
  before : ∀ front e back, entries = front ++ e :: back →
    front = [] ∧ e.num = 0 ∨ .node e.num ∈ children front

theorem digits_decimal (n : Nat) : (digits n).all decimalDigit = true := by
  rw [List.all_eq_true]
  exact List.takeWhile_eq_self_iff.mp (takeWhile_digits n)

theorem childOf_node (num : Int) : childOf (decimal num) = { index := num } := by
  have hnum : HTS_is_num (decimal num) = true := by
    have hdigits : (digits num.natAbs).all (fun c => decimalDigit c || c = MINUS) = true := by
      simp only [List.all_eq_true, Bool.or_eq_true]
      exact fun d hd => .inl (List.all_eq_true.mp (digits_decimal _) d hd)
    rw [HTS_is_num, decimal]
    split
    · rw [List.all_cons, hdigits]
      rfl
    · exact hdigits
  rw [childOf, if_pos hnum, atoi_decimal]

theorem childOf_pdf {stem : List Byte} {n : Nat} (h : (Ref.pdf stem n).Plain) :
    childOf (stem ++ digits n) = { pdf := n } := by
  have hnum : HTS_is_num (stem ++ digits n) = false := by
    rw [HTS_is_num, List.all_append, show stem.all _ = false from h.1, Bool.false_and]
  have hname : (stem ++ digits n).reverse.takeWhile decimalDigit = (digits n).reverse := by
    rw [List.reverse_append, List.takeWhile_append_of_pos]
    · have hstem : stem.reverse.takeWhile decimalDigit = [] := by
        rw [List.takeWhile_eq_nil_iff]
        intro hlen hfirst
        have hlast := h.2 (stem.reverse.get ⟨0, hlen⟩) (by
          rw [← List.head?_reverse, List.head?_eq_getElem?]
          exact List.getElem?_eq_getElem hlen)
        exact absurd hfirst (by rw [hlast]; exact Bool.false_ne_true)
      rw [hstem, List.append_nil]
    · intro d hd
      exact List.all_eq_true.mp (digits_decimal n) d (List.mem_reverse.mp hd)
  rw [childOf, hnum, HTS_name2num, hname, List.reverse_reverse, ← decimal_natCast, atoi_decimal]
  rfl

theorem childOf_text {r : Ref} (h : r.Plain) :
    ((childOf r.text).index, (childOf r.text).pdf) = r.mark := by
  cases r with
  | node num => rw [Ref.text, childOf_node, Ref.mark]
  | pdf stem n => rw [Ref.text, childOf_pdf h, Ref.mark]

/-- What the lines so far have made. -/
structure Tracks (front : List Entry) (nodes : List HTS_Node) : Prop where
  length : nodes.length = (refs front).length
  marks : ∀ (i : Nat) (r : Ref), (refs front)[i]? = some r →
    ∃ node, nodes[i]? = some node ∧ (node.index, node.pdf) = r.mark
  linked : ∀ e ∈ front, ∀ i : Nat, (refs front)[i]? = some (.node e.num) →
    ∃ node no yes, nodes[i]? = some node ∧ node.quest = some e.quest ∧ node.no = some no ∧
      node.yes = some yes ∧ (refs front)[no]? = some e.no ∧ (refs front)[yes]? = some e.yes
  leaves : ∀ (i : Nat) (stem : List Byte) (n : Nat), (refs front)[i]? = some (.pdf stem n) →
    ∃ node, nodes[i]? = some node ∧ node.quest = none

theorem Tracks.root : Tracks [] [{}] := by
  refine ⟨rfl, fun i r hr => ?_, nofun, fun i stem n hr => ?_⟩
  · obtain ⟨rfl, rfl⟩ : i = 0 ∧ Ref.node 0 = r := by simpa [refs, children, List.getElem?_singleton] using hr
    exact ⟨_, rfl, rfl⟩
  · simp [refs, children, List.getElem?_singleton] at hr

theorem refs_append (front : List Entry) (e : Entry) :
    refs (front ++ [e]) = refs front ++ [e.no, e.yes] := by
  simp [refs, children]

theorem Ordered.front {front back : List Entry} (h : Ordered (front ++ back)) : Ordered front := by
  have hchildren : children (front ++ back) = children front ++ children back := by
    simp [children]
  refine ⟨?_, ?_, ?_, ?_⟩
  · have := h.once
    rw [List.map_append] at this
    exact this.of_append_left
  · exact fun r hr => h.plain r (hchildren ▸ List.mem_append_left _ hr)
  · have := h.apart
    rw [hchildren, List.pairwise_append] at this
    exact this.1
  · intro first e rest heq
    exact h.before first e (rest ++ back) (by rw [heq, List.append_assoc, List.cons_append])

/-- No two nodes have the same number. -/
theorem Ordered.unique {entries : List Entry} (h : Ordered entries) {i j : Nat} {num : Int}
    (hi : (refs entries)[i]? = some (.node num)) (hj : (refs entries)[j]? = some (.node num)) :
    i = j := by
  have hroot : ∀ {k : Nat}, (children entries)[k]? ≠ some (.node 0) := fun hk =>
    h.plain _ (List.mem_of_getElem? hk) rfl
  have hlt : ∀ {k l : Nat}, (children entries)[k]? = some (.node num) →
      (children entries)[l]? = some (.node num) → ¬ k < l := by
    intro k l hk hl hkl
    obtain ⟨hk', hkeq⟩ := List.getElem?_eq_some_iff.mp hk
    obtain ⟨hl', hleq⟩ := List.getElem?_eq_some_iff.mp hl
    exact List.pairwise_iff_getElem.mp h.apart k l hk' hl' hkl num hkeq hleq
  cases i with
  | zero =>
    obtain rfl : 0 = num := by simpa [refs] using hi
    cases j with
    | zero => rfl
    | succ j => exact absurd hj hroot
  | succ i =>
    cases j with
    | zero =>
      obtain rfl : 0 = num := by simpa [refs] using hj
      exact absurd hi hroot
    | succ j =>
      have h₁ := hlt (k := i) (l := j) hi hj
      have h₂ := hlt (k := j) (l := i) hj hi
      omega

/-- The node of a line is the one that an earlier line has named. -/
theorem Tracks.find {front back : List Entry} {e : Entry} {nodes : List HTS_Node}
    (h : Tracks front nodes) (ho : Ordered (front ++ e :: back)) :
    ∃ i, HTS_Node_find nodes e.num = some i ∧ (refs front)[i]? = some (.node e.num) := by
  have hfront : Ordered front := ho.front
  have hnamed : ∃ i : Nat, (refs front)[i]? = some (.node e.num) := by
    cases ho.before front e back rfl with
    | inl h => exact ⟨0, by rw [h.2]; rfl⟩
    | inr h =>
      obtain ⟨k, hk⟩ := List.getElem?_of_mem h
      exact ⟨k + 1, hk⟩
  obtain ⟨i, hi⟩ := hnamed
  obtain ⟨node, hnode, hmark⟩ := h.marks i _ hi
  have hindex : node.index = e.num := congrArg Prod.fst hmark
  -- a PDF has the index 0, which only the root is looked for with
  have honly : ∀ j, (nodes[j]?.map (·.index)) = some e.num → j = i := by
    intro j hj
    obtain ⟨other, hother, hnum⟩ := Option.map_eq_some_iff.mp hj
    have hlt : j < (refs front).length := h.length ▸ (List.getElem?_eq_some_iff.mp hother).1
    have hr := List.getElem?_eq_getElem hlt
    obtain ⟨node', hnode', hmark'⟩ := h.marks j _ hr
    obtain rfl := Option.some.inj (hother.symm.trans hnode')
    cases hcase : (refs front)[j] with
    | node num =>
      rw [hcase] at hr hmark'
      obtain rfl : e.num = num := hnum.symm.trans (congrArg Prod.fst hmark')
      exact hfront.unique hr hi
    | pdf stem n =>
      rw [hcase] at hr hmark'
      have hzero : e.num = 0 := hnum.symm.trans (congrArg Prod.fst hmark')
      cases ho.before front e back rfl with
      | inl hnil =>
        obtain rfl := hnil.1
        simp [refs, children, List.getElem?_singleton] at hr
      | inr hmem => exact absurd hzero (hfront.plain _ hmem)
  have hsome : (HTS_Node_find nodes e.num).isSome = true := by
    rw [HTS_Node_find, List.find?_isSome]
    refine ⟨i, ?_, by simp [hnode, hindex]⟩
    simpa using (List.getElem?_eq_some_iff.mp hnode).1
  obtain ⟨j, hj⟩ := Option.isSome_iff_exists.mp hsome
  obtain rfl := honly j (by simpa using List.find?_some hj)
  exact ⟨j, hj, hi⟩

theorem Ordered.named {entries : List Entry} (h : Ordered entries) {e : Entry} (he : e ∈ entries) :
    ∃ i : Nat, (refs entries)[i]? = some (.node e.num) := by
  obtain ⟨front, back, rfl⟩ := List.append_of_mem he
  cases h.before front e back rfl with
  | inl h => exact ⟨0, by rw [h.2]; rfl⟩
  | inr hmem =>
    obtain ⟨k, hk⟩ := List.getElem?_of_mem hmem
    refine ⟨k + 1, ?_⟩
    have hchildren : children (front ++ e :: back) = children front ++ children (e :: back) := by
      simp [children]
    rw [refs, List.getElem?_cons_succ, hchildren,
      List.getElem?_append_left (List.getElem?_eq_some_iff.mp hk).1, hk]

theorem grow_other {nodes : List HTS_Node} {i k : Nat} {quest : HTS_Question} {no yes : List Byte}
    {node : HTS_Node} (hki : k ≠ i) (hk : nodes[k]? = some node) :
    (grow nodes i quest no yes)[k]? = some node := by
  have hlt := (List.getElem?_eq_some_iff.mp hk).1
  rw [grow, List.getElem?_append_left (by simpa using hlt), List.getElem?_modify, hk]
  simp [Ne.symm hki]

theorem grow_asked {nodes : List HTS_Node} {i : Nat} {quest : HTS_Question} {no yes : List Byte}
    {node : HTS_Node} (hi : nodes[i]? = some node) :
    (grow nodes i quest no yes)[i]? = some { node with
      quest := some quest, no := some nodes.length, yes := some (nodes.length + 1) } := by
  have hlt := (List.getElem?_eq_some_iff.mp hi).1
  rw [grow, List.getElem?_append_left (by simpa using hlt), List.getElem?_modify, hi]
  simp

theorem grow_no (nodes : List HTS_Node) (i : Nat) (quest : HTS_Question) (no yes : List Byte) :
    (grow nodes i quest no yes)[nodes.length]? = some (childOf no) := by
  rw [grow, List.getElem?_append_right (by simp)]
  simp

theorem grow_yes (nodes : List HTS_Node) (i : Nat) (quest : HTS_Question) (no yes : List Byte) :
    (grow nodes i quest no yes)[nodes.length + 1]? = some (childOf yes) := by
  rw [grow, List.getElem?_append_right (by simp)]
  simp

/-- A node of the tree with one more line is an old one or one of the two children. -/
theorem refs_step {front : List Entry} {e : Entry} {k : Nat} {r : Ref}
    (h : (refs (front ++ [e]))[k]? = some r) :
    (refs front)[k]? = some r ∨ k = (refs front).length ∧ r = e.no ∨
      k = (refs front).length + 1 ∧ r = e.yes := by
  rw [refs_append] at h
  by_cases hk : k < (refs front).length
  · exact .inl (by rwa [List.getElem?_append_left hk] at h)
  · rw [List.getElem?_append_right (Nat.le_of_not_lt hk)] at h
    obtain ⟨d, rfl⟩ := Nat.exists_eq_add_of_le (Nat.le_of_not_lt hk)
    rw [Nat.add_sub_cancel_left] at h
    cases d with
    | zero => exact .inr (.inl ⟨rfl, (Option.some.inj h).symm⟩)
    | succ d =>
      cases d with
      | zero => exact .inr (.inr ⟨rfl, (Option.some.inj h).symm⟩)
      | succ d => exact absurd h nofun

/-- One line of a tree. -/
theorem Tracks.step {front back : List Entry} {e : Entry} {nodes : List HTS_Node}
    (h : Tracks front nodes) (ho : Ordered (front ++ e :: back)) :
    ∃ i, HTS_Node_find nodes e.num = some i ∧
      Tracks (front ++ [e]) (grow nodes i e.quest e.no.text e.yes.text) := by
  obtain ⟨i, hfind, hi⟩ := h.find ho
  have hnext : Ordered (front ++ [e]) := by
    rw [← List.singleton_append, ← List.append_assoc] at ho
    exact ho.front
  have hold : ∀ {k : Nat} {r : Ref}, (refs front)[k]? = some r →
      (refs (front ++ [e]))[k]? = some r := by
    intro k r hk
    rw [refs_append, List.getElem?_append_left (List.getElem?_eq_some_iff.mp hk).1, hk]
  have hno : (refs (front ++ [e]))[nodes.length]? = some e.no := by
    rw [refs_append, h.length, List.getElem?_append_right le_rfl, Nat.sub_self]
    rfl
  have hyes : (refs (front ++ [e]))[nodes.length + 1]? = some e.yes := by
    rw [refs_append, h.length, List.getElem?_append_right (Nat.le_add_right _ _),
      Nat.add_sub_cancel_left]
    rfl
  have hplain : e.no.Plain ∧ e.yes.Plain :=
    ⟨hnext.plain _ (by simp [children]), hnext.plain _ (by simp [children])⟩
  obtain ⟨asked, hasked, hmark⟩ := h.marks i _ hi
  refine ⟨i, hfind, ?_, fun k r hr => ?_, fun e' he' k hr => ?_, fun k stem n hr => ?_⟩
  · simp [grow, refs_append, h.length]
  · obtain hr | ⟨rfl, rfl⟩ | ⟨rfl, rfl⟩ := refs_step hr
    · obtain ⟨node, hnode, hmarks⟩ := h.marks k r hr
      by_cases hki : k = i
      · subst hki
        obtain rfl := Option.some.inj (hnode.symm.trans hasked)
        exact ⟨_, grow_asked hnode, hmarks⟩
      · exact ⟨node, grow_other hki hnode, hmarks⟩
    · exact ⟨_, h.length ▸ grow_no nodes i _ _ _, childOf_text hplain.1⟩
    · exact ⟨_, h.length ▸ grow_yes nodes i _ _ _, childOf_text hplain.2⟩
  · obtain he' | he' := List.mem_append.mp he'
    · obtain ⟨k', hk'⟩ := ho.front.named he'
      obtain rfl := hnext.unique hr (hold hk')
      have hki : k ≠ i := by
        intro hki
        have heq := Ref.node.inj (Option.some.inj ((hki ▸ hk').symm.trans hi))
        have hnodup := ho.once
        rw [List.map_append, List.nodup_append] at hnodup
        exact hnodup.2.2 _ (List.mem_map_of_mem he') _ (List.mem_cons_self) heq
      obtain ⟨node, no, yes, hnode, hquest, hn, hy, hrn, hry⟩ := h.linked e' he' k hk'
      exact ⟨node, no, yes, grow_other hki hnode, hquest, hn, hy, hold hrn, hold hry⟩
    · obtain rfl := List.mem_singleton.mp he'
      obtain rfl := hnext.unique hr (hold hi)
      exact ⟨_, nodes.length, nodes.length + 1, grow_asked hasked, rfl, rfl, rfl, hno, hyes⟩
  · obtain hr | ⟨rfl, hr⟩ | ⟨rfl, hr⟩ := refs_step hr
    · obtain ⟨node, hnode, hquest⟩ := h.leaves k stem n hr
      have hki : k ≠ i := by
        intro hki
        subst hki
        exact absurd (Option.some.inj (hr.symm.trans hi)) (by simp)
      exact ⟨node, grow_other hki hnode, hquest⟩
    · exact ⟨_, h.length ▸ grow_no nodes i _ _ _, childOf_quest _⟩
    · exact ⟨_, h.length ▸ grow_yes nodes i _ _ _, childOf_quest _⟩

/-- The tree that a list of lines makes. -/
def growAll (nodes : List HTS_Node) (entries : List Entry) : Option (List HTS_Node) :=
  entries.foldlM (fun nodes e => (HTS_Node_find nodes e.num).map fun i =>
    grow nodes i e.quest e.no.text e.yes.text) nodes

theorem Tracks.growAll {front back : List Entry} {nodes : List HTS_Node} (h : Tracks front nodes)
    (ho : Ordered (front ++ back)) :
    ∃ root, HTSEngine.growAll nodes back = some root ∧ Tracks (front ++ back) root := by
  induction back generalizing front nodes with
  | nil => exact ⟨nodes, rfl, (List.append_nil front).symm ▸ h⟩
  | cons e back ih =>
    obtain ⟨i, hfind, hstep⟩ := h.step ho
    rw [← List.singleton_append, ← List.append_assoc] at ho
    obtain ⟨root, hroot, htracks⟩ := ih hstep ho
    refine ⟨root, ?_, ?_⟩
    · rw [HTSEngine.growAll, List.foldlM_cons, hfind]
      exact hroot
    · rwa [List.append_assoc, List.singleton_append] at htracks

/-- The question of a line is asked at its node, and both ways go on to nodes made later. -/
theorem Tracks.asked {entries : List Entry} {nodes : List HTS_Node} (h : Tracks entries nodes)
    (hgrown : Grown nodes) {e : Entry} (he : e ∈ entries) {i : Nat}
    (hi : (refs entries)[i]? = some (.node e.num)) (string : List Byte) :
    ∃ node no yes answer, nodes[i]? = some node ∧ node.pdf = 0 ∧ node.quest = some e.quest ∧
      node.no = some no ∧ node.yes = some yes ∧ i < no ∧ i < yes ∧ i < nodes.length ∧
      (refs entries)[no]? = some e.no ∧ (refs entries)[yes]? = some e.yes ∧
      HTS_Question_match e.quest string = some answer ∧
      (answer = true ↔ e.quest.Asks string) := by
  obtain ⟨node, no, yes, hnode, hquest, hno, hyes, hrno, hryes⟩ := h.linked e he i hi
  obtain ⟨node', hnode', hmark⟩ := h.marks i _ hi
  obtain rfl := Option.some.inj (hnode.symm.trans hnode')
  obtain ⟨hshort, no', yes', hno', hyes', hlt⟩ := hgrown.children i node e.quest hnode hquest
  obtain rfl := Option.some.inj (hno.symm.trans hno')
  obtain rfl := Option.some.inj (hyes.symm.trans hyes')
  obtain ⟨answer, hanswer, hiff⟩ := question_match_spec e.quest string
    fun p hp => (hshort p hp).trans (by decide)
  exact ⟨node, no, yes, answer, hnode, congrArg Prod.snd hmark, hquest, hno, hyes, hlt.1, hlt.2.1,
    (List.getElem?_eq_some_iff.mp hnode).1, hrno, hryes, hanswer, hiff⟩

/-- A walk that has come to a child stops there if it has a PDF. -/
theorem searchFrom_asked {nodes : List HTS_Node} {string : List Byte} {i j : Nat} {steps : Nat}
    {node child : HTS_Node} {quest : HTS_Question} {answer : Bool} {n : Nat}
    (hnode : nodes[i]? = some node) (hquest : node.quest = some quest)
    (hanswer : HTS_Question_match quest string = some answer)
    (hj : (if answer then node.yes else node.no) = some j) (hchild : nodes[j]? = some child)
    (hpdf : child.pdf > 0 → child.pdf = n) (h : searchFrom nodes string steps j = some (n : Int)) :
    searchFrom nodes string (steps + 1) i = some (n : Int) := by
  simp only [searchFrom, hnode, hquest, hanswer, hj, hchild, Option.bind_some]
  split
  next hpos => rw [hpdf hpos]
  next => exact h

/-- Where the lines decide, the walk from the node decides the same. -/
theorem Tracks.search {entries : List Entry} {nodes : List HTS_Node} (h : Tracks entries nodes)
    (hgrown : Grown nodes) {string : List Byte} {r : Ref} {n : Nat}
    (hdecides : Decides entries string r n) {i steps : Nat} (hi : (refs entries)[i]? = some r)
    (hsteps : nodes.length ≤ i + steps) :
    (∃ node, nodes[i]? = some node ∧ (node.pdf > 0 → node.pdf = n)) ∧
      searchFrom nodes string steps i = some (n : Int) := by
  induction hdecides generalizing i steps with
  | pdf =>
    obtain ⟨node, hnode, hmark⟩ := h.marks i _ hi
    obtain ⟨node', hnode', hquest⟩ := h.leaves i _ _ hi
    obtain rfl := Option.some.inj (hnode.symm.trans hnode')
    have hpdf := congrArg Prod.snd hmark
    refine ⟨⟨node, hnode, fun _ => hpdf⟩, ?_⟩
    cases steps with
    | zero => exact absurd (List.getElem?_eq_some_iff.mp hnode).1 (by omega)
    | succ steps =>
      rw [searchFrom, hnode, Option.bind_some, hquest]
      exact congrArg some hpdf
  | yes he hasks _ ih =>
    obtain ⟨node, no, yes, answer, hnode, hpdf, hquest, hno, hyes, hltno, hltyes, hlt, hrno, hryes,
      hanswer, hiff⟩ := h.asked hgrown he hi string
    refine ⟨⟨node, hnode, fun hpos => by omega⟩, ?_⟩
    obtain ⟨steps, rfl⟩ : ∃ s, steps = s + 1 := ⟨steps - 1, by omega⟩
    have hle : nodes.length ≤ yes + steps := by omega
    obtain ⟨⟨child, hchild, hchildpdf⟩, hsearch⟩ := ih hryes hle
    obtain rfl : answer = true := hiff.mpr hasks
    exact searchFrom_asked hnode hquest hanswer hyes hchild hchildpdf hsearch
  | no he hasks _ ih =>
    obtain ⟨node, no, yes, answer, hnode, hpdf, hquest, hno, hyes, hltno, hltyes, hlt, hrno, hryes,
      hanswer, hiff⟩ := h.asked hgrown he hi string
    refine ⟨⟨node, hnode, fun hpos => by omega⟩, ?_⟩
    obtain ⟨steps, rfl⟩ : ∃ s, steps = s + 1 := ⟨steps - 1, by omega⟩
    have hle : nodes.length ≤ no + steps := by omega
    obtain ⟨⟨child, hchild, hchildpdf⟩, hsearch⟩ := ih hrno hle
    obtain rfl : answer = false := Bool.eq_false_iff.mpr fun ha => hasks (hiff.mp ha)
    exact searchFrom_asked hnode hquest hanswer hno hchild hchildpdf hsearch

end HAS.HTSEngine

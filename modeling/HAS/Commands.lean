import HAS.OrderedMap
import HAS.PropertyTree
import Mathlib.Data.List.Lex
import Mathlib.Order.Fin.Basic
import Mathlib.Order.Bounds.Defs

/-! learn_commands_from_xml and interpret: from the elements of a command file to the
number that a sentence stands for. -/
namespace HAS.Commands
open HAS.Bytes HAS.PropertyTree

/-- Type of str_ir_map_. -/
abbrev CommandMap := OrderedMap Text Int

def wordPath : List Key := [.xmlattr, .name (ascii "word")]
def numPath : List Key := [.xmlattr, .name (ascii "num")]

/-- The loop over the children of iRemocon. -/
def learnChildren : List (Key × PTree) → CommandMap → Bool × CommandMap
  | [], str_ir_map_ => (true, str_ir_map_)
  | pt :: pts, str_ir_map_ =>
    match pt.2.get_optional some wordPath, pt.2.get_optional getInt numPath with
    | some word, some num => learnChildren pts (str_ir_map_.insert (word, num))
    | _, _ => (false, str_ir_map_)

/-- None where get_child throws. -/
def learn_commands_from_xml (file : Document) (str_ir_map_ : CommandMap) :
    Option (Bool × CommandMap) :=
  ((read_xml file).get_child_optional [.name (ascii "iRemocon")]).map fun t =>
    learnChildren t.children str_ir_map_

/-- The loop of interpret. A pattern that boost::regex accepts is a predicate on
sentences, any other one throws. -/
def interpretEntries (regex : Text → Option (Text → Bool)) (sentence : Text) :
    List (Text × Int) → Option (Option Int)
  | [] => some none
  | e :: es =>
    match regex e.1 with
    | none => none
    | some r => if r sentence then some (some e.2) else interpretEntries regex sentence es

def interpret (regex : Text → Option (Text → Bool)) (str_ir_map_ : CommandMap) (sentence : Text) :
    Option (Option Int) :=
  interpretEntries regex sentence str_ir_map_.entries

/-- Word and number of a command, if the attributes have both. -/
def command (attributes : List (Text × Text)) : Option (Text × Int) :=
  match attributes.find? (·.1 = ascii "word"),
    (attributes.find? (·.1 = ascii "num")).bind fun a => getInt a.2 with
  | some word, some num => some (word.2, num)
  | _, _ => none

/-- Attributes of the child elements. -/
def elements (content : List Content) : List (List (Text × Text)) :=
  content.filterMap fun
    | .element _ attributes _ => some attributes
    | _ => none

def comments (content : List Content) : List Text :=
  content.filterMap fun
    | .comment text => some text
    | _ => none

/-- The commands of a file, in document order. -/
def entries (content : List Content) : List (Text × Int) := (elements content).filterMap command

/-- What the loop does with each kind of content. -/
def learnContent : List Content → CommandMap → Bool × CommandMap
  | [], m => (true, m)
  | .text _ :: cs, m => learnContent cs m
  | .comment _ :: _, m => (false, m)
  | .element _ attributes _ :: cs, m =>
    match command attributes with
    | none => (false, m)
    | some e => learnContent cs (m.insert e)

theorem learnChildren_element (name : Text) (attributes : List (Text × Text)) (data : Text)
    (content : List Content) (pts : List (Key × PTree)) (m : CommandMap) :
    learnChildren ((.name name, .node data (attributeNodes attributes ++ readNodes content)) :: pts)
      m = match command attributes with
        | none => (false, m)
        | some e => learnChildren pts (m.insert e) := by
  rw [learnChildren, wordPath, numPath, get_attribute, get_attribute, command]
  cases attributes.find? (·.1 = ascii "word") with
  | none => simp
  | some word =>
    cases (attributes.find? (·.1 = ascii "num")).bind fun a => getInt a.2 <;> rfl

theorem learnChildren_comment (text : Text) (pts : List (Key × PTree)) (m : CommandMap) :
    learnChildren ((.xmlcomment, .node text []) :: pts) m = (false, m) := by
  rfl

/-- The attributes of the root stand among its children, and are no command. -/
theorem learnChildren_attributes {attributes : List (Text × Text)} (h : attributes ≠ [])
    (pts : List (Key × PTree)) (m : CommandMap) :
    learnChildren (attributeNodes attributes ++ pts) m = (false, m) := by
  have hf : (attributes.map fun a => (Key.name a.1, PTree.node a.2 [])).find?
      (·.1 = Key.xmlattr) = none := by
    simp
  have hw : (PTree.node [] (attributes.map fun a => (Key.name a.1, PTree.node a.2 []))).get_optional
      some wordPath = none := by
    simp only [PTree.get_optional, wordPath, PTree.get_child_optional, PTree.children, hf,
      Option.bind_none]
  simp only [attributeNodes, h, if_false, List.singleton_append, learnChildren, hw]

theorem learnChildren_readNodes (content : List Content) (m : CommandMap) :
    learnChildren (readNodes content) m = learnContent content m := by
  induction content generalizing m with
  | nil => rfl
  | cons c content ih =>
    rw [readNodes]
    cases c with
    | element name attributes inner =>
      rw [readNode, List.singleton_append, learnChildren_element, learnContent]
      cases command attributes with
      | none => rfl
      | some e => exact ih _
    | comment text =>
      rw [readNode, List.singleton_append, learnChildren_comment, learnContent]
    | text s =>
      rw [readNode, List.nil_append, learnContent]
      exact ih m

/-- A document with the root iRemocon is read child by child, after a first child that
holds the attributes of the root if it has any. -/
theorem learn_eq (file : Document) (hroot : file.root = ascii "iRemocon") (m : CommandMap) :
    learn_commands_from_xml file m =
      some (if file.attributes = [] then learnContent file.content m else (false, m)) := by
  have hp : (file.prolog.map fun t => (Key.xmlcomment, PTree.node t [])).find?
      (·.1 = Key.name (ascii "iRemocon")) = none := by
    simp
  simp only [learn_commands_from_xml, read_xml, PTree.get_child_optional, PTree.children,
    List.append_assoc, List.find?_append, hp, hroot]
  have hc : ([(Key.name (ascii "iRemocon"), PTree.node (file.content.flatMap Content.chars)
      (attributeNodes file.attributes ++ readNodes file.content))]).find?
      (·.1 = Key.name (ascii "iRemocon")) = some (_, _) := List.find?_cons_of_pos (by simp)
  simp only [hc, Option.none_or, Option.some_or, Option.map_some]
  by_cases ha : file.attributes = []
  · simp only [ha, attributeNodes, if_true, List.nil_append, learnChildren_readNodes]
  · simp only [ha, if_false, learnChildren_attributes ha]

theorem root_of_learn {file : Document} {m : CommandMap} {r : Bool × CommandMap}
    (h : learn_commands_from_xml file m = some r) : file.root = ascii "iRemocon" := by
  by_contra hne
  have hp (l : List Text) : (l.map fun t => (Key.xmlcomment, PTree.node t [])).find?
      (·.1 = Key.name (ascii "iRemocon")) = none := by
    simp
  simp [learn_commands_from_xml, read_xml, PTree.get_child_optional, PTree.children,
    List.find?_append, hp, hne] at h

/-- Content that the loop passes over or learns. -/
def good : Content → Bool
  | .element _ attributes _ => (command attributes).isSome
  | .comment _ => false
  | .text _ => true

/-- Everything before the first node that is no good command is learnt, and all of it
only if there is none. -/
theorem learnContent_eq (content : List Content) (m : CommandMap) :
    learnContent content m =
      (content.all good, m.insertAll (entries (content.takeWhile good))) := by
  induction content generalizing m with
  | nil => rfl
  | cons c content ih =>
    cases c with
    | text s =>
      rw [learnContent, ih m, List.takeWhile_cons_of_pos rfl]
      rfl
    | comment text => rfl
    | element name attributes inner =>
      cases hc : command attributes with
      | none => simp [learnContent, good, hc, entries, elements, OrderedMap.insertAll]
      | some e =>
        have h := ih (m.insert e)
        simpa [learnContent, good, hc, entries, elements, OrderedMap.insertAll] using h

theorem learn_true {file : Document} {m m' : CommandMap}
    (h : learn_commands_from_xml file m = some (true, m')) :
    file.attributes = [] ∧ (∀ c ∈ file.content, good c = true) ∧
      m' = m.insertAll (entries file.content) := by
  rw [learn_eq file (root_of_learn h)] at h
  by_cases ha : file.attributes = []
  · simp only [ha, if_true, learnContent_eq, Option.some.injEq, Prod.mk.injEq] at h
    have hall : ∀ c ∈ file.content, good c = true := by simpa using h.1
    refine ⟨ha, hall, ?_⟩
    rw [← h.2, List.takeWhile_eq_self_iff.mpr hall]
  · simp [ha] at h

theorem learn_of_good {file : Document} (hroot : file.root = ascii "iRemocon")
    (ha : file.attributes = []) (hgood : ∀ c ∈ file.content, good c = true) (m : CommandMap) :
    learn_commands_from_xml file m = some (true, m.insertAll (entries file.content)) := by
  rw [learn_eq file hroot, if_pos ha, learnContent_eq, List.takeWhile_eq_self_iff.mpr hgood,
    List.all_eq_true.mpr hgood]

/-- Is the pattern found in the sentence? -/
def found (regex : Text → Option (Text → Bool)) (sentence pattern : Text) : Bool :=
  (regex pattern).any fun r => r sentence

theorem interpretEntries_eq {regex : Text → Option (Text → Bool)} {es : List (Text × Int)}
    (h : ∀ e ∈ es, (regex e.1).isSome = true) (sentence : Text) :
    interpretEntries regex sentence es =
      some ((es.find? fun e => found regex sentence e.1).map (·.2)) := by
  induction es with
  | nil => rfl
  | cons e es ih =>
    have hes := ih fun d hd => h d (List.mem_cons_of_mem e hd)
    obtain ⟨r, hr⟩ := Option.isSome_iff_exists.mp (h e (by simp))
    have hf : found regex sentence e.1 = r sentence := by simp [found, hr]
    rw [interpretEntries, hr]
    by_cases hs : r sentence = true
    · simp [hs, hf]
    · simpa [hs, hf] using hes

theorem mem_learned {es : List (Text × Int)} {e : Text × Int} :
    e ∈ (OrderedMap.empty.insertAll es).entries ↔ es.find? (·.1 = e.1) = some e := by
  rw [OrderedMap.mem_insertAll]
  simp [OrderedMap.empty, OrderedMap.HasKey]

theorem exists_find_word {es : List (Text × Int)} {w : Text} (h : w ∈ es.map (·.1)) :
    ∃ num, es.find? (·.1 = w) = some (w, num) := by
  obtain ⟨d, hd, rfl⟩ := List.mem_map.mp h
  obtain ⟨e, he⟩ := Option.isSome_iff_exists.mp
    (List.find?_isSome (p := fun x : Text × Int => decide (x.1 = d.1)).mpr ⟨d, hd, by simp⟩)
  have hk : e.1 = d.1 := by simpa using List.find?_some he
  exact ⟨e.2, by rw [he, ← hk]⟩

/-- A scan of the learnt map finds the least matching word, with its first number. -/
theorem find_learned_iff {es : List (Text × Int)} {p : Text → Bool} {num : Int} :
    ((OrderedMap.empty.insertAll es).entries.find? fun e => p e.1).map (·.2) = some num ↔
      ∃ w, IsLeast {w | w ∈ es.map (·.1) ∧ p w = true} w ∧
        (es.find? (·.1 = w)).map (·.2) = some num := by
  constructor
  · intro h
    obtain ⟨e, he, rfl⟩ := Option.map_eq_some_iff.mp h
    obtain ⟨hm, hp, hle⟩ := OrderedMap.find_entries_iff.mp he
    have hfind := mem_learned.mp hm
    refine ⟨e.1, ⟨⟨List.mem_map_of_mem (List.mem_of_find?_eq_some hfind), hp⟩, ?_⟩, by simp [hfind]⟩
    rintro w ⟨hw, hpw⟩
    obtain ⟨n, hn⟩ := exists_find_word hw
    exact hle (w, n) (mem_learned.mpr hn) hpw
  · rintro ⟨w, ⟨⟨hw, hp⟩, hle⟩, hnum⟩
    obtain ⟨n, hn⟩ := exists_find_word hw
    obtain rfl : n = num := by simpa [hn] using hnum
    refine Option.map_eq_some_iff.mpr ⟨(w, n), ?_, rfl⟩
    refine OrderedMap.find_entries_iff.mpr ⟨mem_learned.mpr hn, hp, fun d hd hpd => ?_⟩
    have hmem := List.mem_of_find?_eq_some (mem_learned.mp hd)
    exact hle ⟨List.mem_map_of_mem hmem, hpd⟩

theorem find_learned_none_iff {es : List (Text × Int)} {p : Text → Bool} :
    ((OrderedMap.empty.insertAll es).entries.find? fun e => p e.1).map (·.2) = none ↔
      ∀ e ∈ es, p e.1 = false := by
  rw [Option.map_eq_none_iff, List.find?_eq_none]
  constructor
  · intro h e he
    obtain ⟨n, hn⟩ := exists_find_word (List.mem_map_of_mem (f := (·.1)) he)
    simpa using h (e.1, n) (mem_learned.mpr hn)
  · intro h e he
    simp [h e (List.mem_of_find?_eq_some (mem_learned.mp he))]

theorem entries_perm {content content' : List Content} (h : content'.Perm content) :
    (entries content').Perm (entries content) :=
  (h.filterMap _).filterMap _

/-- Whatever commands a file has, a sentence gets the number of the least word that is
found in it, of the first command with that word; the order of commands with distinct
words makes no difference. -/
theorem interpret_learned (regex : Text → Option (Text → Bool)) (file : Document)
    (m : CommandMap) (hlearn : learn_commands_from_xml file .empty = some (true, m))
    (hvalid : ∀ e ∈ entries file.content, (regex e.1).isSome = true) :
    (∀ sentence, ∃ result, interpret regex m sentence = some result ∧
      (result = none ↔ ∀ e ∈ entries file.content, found regex sentence e.1 = false) ∧
      ∀ num, result = some num ↔
        ∃ w, IsLeast {w | w ∈ (entries file.content).map (·.1) ∧ found regex sentence w = true} w ∧
          ((entries file.content).find? (·.1 = w)).map (·.2) = some num) ∧
    (((entries file.content).map (·.1)).Nodup → ∀ content', content'.Perm file.content →
      ∃ m', learn_commands_from_xml { file with content := content' } .empty = some (true, m') ∧
        ∀ sentence, interpret regex m' sentence = interpret regex m sentence) := by
  have hroot := root_of_learn hlearn
  obtain ⟨ha, hgood, rfl⟩ := learn_true hlearn
  constructor
  · intro sentence
    have hv : ∀ e ∈ (OrderedMap.empty.insertAll (entries file.content)).entries,
        (regex e.1).isSome = true := fun e he =>
      hvalid e (List.mem_of_find?_eq_some (mem_learned.mp he))
    exact ⟨_, interpretEntries_eq hv sentence, find_learned_none_iff, fun num => find_learned_iff⟩
  · intro hn content' hperm
    have hgood' : ∀ c ∈ content', good c = true := fun c hc => hgood c (hperm.mem_iff.mp hc)
    have hsame := OrderedMap.insertAll_perm (entries_perm hperm).symm hn
    let file' : Document := { file with content := content' }
    have hlearn' : learn_commands_from_xml file' .empty =
        some (true, OrderedMap.empty.insertAll (entries content')) :=
      @learn_of_good file' hroot ha hgood' .empty
    refine ⟨_, hlearn', fun sentence => ?_⟩
    rw [hsame]

def commandElement (word num : String) : Content :=
  .element (ascii "command") [(ascii "word", ascii word), (ascii "num", ascii num)] []

/-- A file of commands in a document without comments. -/
def commandFile (content : List Content) : Document := ⟨[], ascii "iRemocon", [], content, []⟩

/-- Patterns without special characters. -/
def literal (pattern : Text) : Option (Text → Bool) :=
  some fun sentence => sentence.tails.any pattern.isPrefixOf

theorem interpret_learned_two :
    let file := commandFile [commandElement "tv on" "2", .text (ascii "\n"), commandElement "on" "1"]
    let m := OrderedMap.empty.insertAll [(ascii "tv on", 2), (ascii "on", 1)]
    (∀ sentence, ∃ result, interpret literal m sentence = some result ∧
      (result = none ↔ ∀ e ∈ entries file.content, found literal sentence e.1 = false) ∧
      ∀ num, result = some num ↔
        ∃ w, IsLeast {w | w ∈ (entries file.content).map (·.1) ∧ found literal sentence w = true} w ∧
          ((entries file.content).find? (·.1 = w)).map (·.2) = some num) ∧
    (((entries file.content).map (·.1)).Nodup → ∀ content', content'.Perm file.content →
      ∃ m', learn_commands_from_xml { file with content := content' } .empty = some (true, m') ∧
        ∀ sentence, interpret literal m' sentence = interpret literal m sentence) :=
  interpret_learned literal (commandFile _) _ (by decide +kernel) fun _ _ => rfl

def isComment : Content → Bool
  | .comment _ => true
  | _ => false

/-- The file without its comments and without the attributes of its root. -/
def stripped (file : Document) : Document :=
  { file with attributes := [], content := file.content.filter fun c => !isComment c }

/-- All or nothing, and only because of a bad command. -/
structure AllOrNothing (file : Document) (m : CommandMap) (r : Bool × CommandMap) : Prop where
  false_iff : r.1 = false ↔ ∃ a ∈ elements file.content, command a = none
  unchanged : r.1 = false → r.2 = m
  stripped_same : learn_commands_from_xml (stripped file) m = some r

/-- The commands that stand before the first bad one. -/
def beforeBad (content : List Content) : List (Text × Int) :=
  ((elements content).takeWhile fun a => (command a).isSome).filterMap command

/-- Without a bad command nothing else stands in the file, and with one no command
before it is new to the map. -/
def Undisturbed (file : Document) (m : CommandMap) : Prop :=
  if ∀ a ∈ elements file.content, (command a).isSome = true then
    file.attributes = [] ∧ comments file.content = []
  else ∀ e ∈ beforeBad file.content, m.HasKey e.1

theorem entries_stripped (content : List Content) :
    entries ((content.filter fun c => !isComment c).takeWhile good) = beforeBad content := by
  induction content with
  | nil => rfl
  | cons c content ih =>
    cases c with
    | text s =>
      rw [List.filter_cons_of_pos rfl, List.takeWhile_cons_of_pos rfl]
      exact ih
    | comment text => exact ih
    | element name attributes inner =>
      rw [List.filter_cons_of_pos rfl]
      cases hc : command attributes with
      | none => simp [good, hc, entries, elements, beforeBad]
      | some e => simpa [good, hc, entries, elements, beforeBad] using ih

theorem beforeBad_of_learned {content : List Content} {e : Text × Int}
    (h : e ∈ entries (content.takeWhile good)) : e ∈ beforeBad content := by
  induction content with
  | nil => simp [entries, elements] at h
  | cons c content ih =>
    cases c with
    | text s =>
      rw [List.takeWhile_cons_of_pos rfl] at h
      exact ih h
    | comment text => simp [good, entries, elements] at h
    | element name attributes inner =>
      cases hc : command attributes with
      | none => simp [good, hc, entries, elements] at h
      | some d =>
        have h' : e = d ∨ e ∈ entries (content.takeWhile good) := by
          simpa [good, hc, entries, elements] using h
        have hcons : beforeBad (.element name attributes inner :: content) =
            d :: beforeBad content := by
          simp [beforeBad, elements, hc]
        rw [hcons]
        exact h'.elim (fun he => by simp [he]) fun he => List.mem_cons_of_mem d (ih he)

theorem all_good_iff (content : List Content) :
    content.all good = true ↔
      (∀ a ∈ elements content, (command a).isSome = true) ∧ comments content = [] := by
  induction content with
  | nil => simp [elements, comments]
  | cons c content ih =>
    cases c with
    | text s => simpa [good, elements, comments] using ih
    | comment text => simp [good, comments]
    | element name attributes inner =>
      rw [List.all_cons, Bool.and_eq_true, ih]
      simp [good, elements, comments, and_assoc]

theorem elements_stripped (content : List Content) :
    elements (content.filter fun c => !isComment c) = elements content := by
  induction content with
  | nil => rfl
  | cons c content ih =>
    cases c with
    | text s => exact ih
    | comment text => exact ih
    | element name attributes inner => exact congrArg (attributes :: ·) ih

theorem exists_bad_iff (content : List Content) :
    (∃ a ∈ elements content, command a = none) ↔
      ¬ ∀ a ∈ elements content, (command a).isSome = true := by
  simp [Option.isSome_iff_ne_none]

theorem learn_stripped {file : Document} (hroot : file.root = ascii "iRemocon") (m : CommandMap) :
    learn_commands_from_xml (stripped file) m =
      some ((file.content.filter fun c => !isComment c).all good,
        m.insertAll (beforeBad file.content)) := by
  have hstripped : (stripped file).root = ascii "iRemocon" := hroot
  rw [learn_eq (stripped file) hstripped, learnContent_eq]
  simp only [stripped, if_true, entries_stripped]

theorem stripped_eq_self {file : Document} (ha : file.attributes = [])
    (hc : comments file.content = []) : stripped file = file := by
  have hfilter : file.content.filter (fun c => !isComment c) = file.content := by
    refine List.filter_eq_self.mpr fun c hmem => ?_
    have hnone := List.filterMap_eq_nil_iff.mp hc c hmem
    cases c with
    | element name attributes inner => rfl
    | comment text => cases hnone
    | text s => rfl
  rw [stripped, hfilter, ← ha]

/-- Among good commands alone, only a comment or an attribute of the root does harm. -/
theorem allOrNothing_of_good {file : Document} {m : CommandMap} {r : Bool × CommandMap}
    (hroot : file.root = ascii "iRemocon") (hr : learn_commands_from_xml file m = some r)
    (hall : ∀ a ∈ elements file.content, (command a).isSome = true) :
    AllOrNothing file m r ↔ file.attributes = [] ∧ comments file.content = [] := by
  have hbad : ¬ ∃ a ∈ elements file.content, command a = none := by
    rw [exists_bad_iff]
    exact not_not_intro hall
  constructor
  · intro h
    have htrue : r.1 = true := by simpa using mt h.false_iff.mp hbad
    have hlearn : learn_commands_from_xml file m = some (true, r.2) := by rw [hr, ← htrue]
    obtain ⟨ha, hgood, -⟩ := learn_true hlearn
    exact ⟨ha, ((all_good_iff file.content).mp (List.all_eq_true.mpr hgood)).2⟩
  · rintro ⟨ha, hc⟩
    have hgood := List.all_eq_true.mp ((all_good_iff file.content).mpr ⟨hall, hc⟩)
    obtain rfl := Option.some.inj (hr.symm.trans (learn_of_good hroot ha hgood m))
    refine ⟨iff_of_false (by simp) hbad, fun h => by simp at h, ?_⟩
    rw [stripped_eq_self ha hc]
    exact hr

/-- With a bad command the result is false, and only what was there before may have been
learnt. -/
theorem allOrNothing_of_bad {file : Document} {m : CommandMap} {r : Bool × CommandMap}
    (hroot : file.root = ascii "iRemocon") (hr : learn_commands_from_xml file m = some r)
    (hall : ¬ ∀ a ∈ elements file.content, (command a).isSome = true) :
    AllOrNothing file m r ↔ ∀ e ∈ beforeBad file.content, m.HasKey e.1 := by
  have hbad := (exists_bad_iff file.content).mpr hall
  have hstripped : (file.content.filter fun c => !isComment c).all good = false := by
    refine Bool.eq_false_iff.mpr fun hg => hall ?_
    rw [← elements_stripped]
    exact ((all_good_iff _).mp hg).1
  have hs := learn_stripped hroot m
  rw [hstripped] at hs
  rw [← OrderedMap.insertAll_eq_self_iff]
  constructor
  · intro h
    have hmap := Option.some.inj (hs.symm.trans h.stripped_same)
    exact (congrArg Prod.snd hmap).trans (h.unchanged (h.false_iff.mpr hbad))
  · intro hkeys
    have hgood : file.content.all good = false :=
      Bool.eq_false_iff.mpr fun hg => hall ((all_good_iff file.content).mp hg).1
    have hprefix : m.insertAll (entries (file.content.takeWhile good)) = m := by
      refine (OrderedMap.insertAll_eq_self_iff m _).mpr fun e he => ?_
      exact (OrderedMap.insertAll_eq_self_iff m _).mp hkeys e (beforeBad_of_learned he)
    rw [learn_eq file hroot, learnContent_eq, hgood, hprefix, ite_self] at hr
    obtain rfl := Option.some.inj hr
    exact ⟨iff_of_true rfl hbad, fun _ => rfl, by rw [hs, hkeys]⟩

/-- Loading a command file is all or nothing exactly when nothing else than commands
disturbs it. -/
theorem learn_allOrNothing_iff (prolog epilog : List Text) (attributes : List (Text × Text))
    (content : List Content) (m : CommandMap) :
    ∃ r, learn_commands_from_xml ⟨prolog, ascii "iRemocon", attributes, content, epilog⟩ m =
        some r ∧
      (AllOrNothing ⟨prolog, ascii "iRemocon", attributes, content, epilog⟩ m r ↔
        Undisturbed ⟨prolog, ascii "iRemocon", attributes, content, epilog⟩ m) := by
  have hr := learn_eq ⟨prolog, ascii "iRemocon", attributes, content, epilog⟩ rfl m
  refine ⟨_, hr, ?_⟩
  by_cases hall : ∀ a ∈ elements content, (command a).isSome = true
  · rw [Undisturbed, if_pos hall]
    exact allOrNothing_of_good rfl hr hall
  · rw [Undisturbed, if_neg hall]
    exact allOrNothing_of_bad rfl hr hall

/-- A comment after a good command. -/
theorem comment_not_allOrNothing :
    let file := commandFile [commandElement "on" "1", .comment (ascii " lights ")]
    let r := (false, OrderedMap.empty.insert (ascii "on", 1))
    learn_commands_from_xml file .empty = some r ∧ ¬ AllOrNothing file .empty r := by
  refine ⟨by decide +kernel, fun h => ?_⟩
  obtain ⟨a, ha, hbad⟩ := h.false_iff.mp rfl
  obtain rfl : a = [(ascii "word", ascii "on"), (ascii "num", ascii "1")] := by
    simpa [commandFile, commandElement, elements] using ha
  have hgood : command [(ascii "word", ascii "on"), (ascii "num", ascii "1")] =
      some (ascii "on", 1) := by decide +kernel
  rw [hgood] at hbad
  cases hbad

end HAS.Commands

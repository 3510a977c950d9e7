import HAS.Commands

/-! Commands whose words are no regular expressions: they are learnt like the others, and
what interpret makes of them depends on the sentence. -/
namespace HAS.InvalidPatterns
open HAS.Bytes HAS.PropertyTree HAS.Commands

section
variable (regex : Text → Option (Text → Bool)) (sentence : Text)

/-- Does the loop of interpret end at a word, with an exception or with a number? -/
def stops (word : Text) : Bool := (regex word).all fun r => r sentence

/-- interpret returns, with the number of the first word that is found. -/
def Recognised (str_ir_map_ : CommandMap) : Prop :=
  interpret regex str_ir_map_ sentence =
    some ((str_ir_map_.entries.find? fun e => found regex sentence e.1).map (·.2))

/-- A word that is known after a file was read: of the file, or known before. -/
def Known (file : Document) (m : CommandMap) (word : Text) : Prop :=
  m.HasKey word ∨ word ∈ (entries file.content).map (·.1)

variable {regex sentence}

theorem stops_iff (word : Text) :
    stops regex sentence word = true ↔ regex word = none ∨ found regex sentence word = true := by
  unfold stops found
  cases regex word with
  | none => simp
  | some r => simp

theorem not_found_of_invalid {word : Text} (h : regex word = none) :
    found regex sentence word = false := by
  simp [found, h]

theorem interpretEntries_eq_find (es : List (Text × Int)) :
    interpretEntries regex sentence es =
      (es.find? fun e => stops regex sentence e.1).elim (some none) fun e =>
        if found regex sentence e.1 = true then some (some e.2) else none := by
  induction es with
  | nil => rfl
  | cons e es ih =>
    rw [interpretEntries]
    cases hr : regex e.1 with
    | none =>
      have hstop : stops regex sentence e.1 = true := (stops_iff e.1).mpr (.inl hr)
      simp [hstop, not_found_of_invalid hr]
    | some r =>
      have hstop : stops regex sentence e.1 = r sentence := by simp [stops, hr]
      have hfound : found regex sentence e.1 = r sentence := by simp [found, hr]
      by_cases hs : r sentence = true
      · simp [hstop, hfound, hs]
      · simp [hstop, hs, ih]

/-- The loop comes no further than an invalid word. -/
theorem exists_stop {m : CommandMap} {w : Text} (hw : m.HasKey w) (hinvalid : regex w = none) :
    ∃ e, m.entries.find? (fun e => stops regex sentence e.1) = some e ∧ e.1 ≤ w := by
  obtain ⟨d, hd, rfl⟩ := hw
  have hstop : stops regex sentence d.1 = true := (stops_iff d.1).mpr (.inl hinvalid)
  obtain ⟨e, he⟩ := Option.isSome_iff_exists.mp
    (List.find?_isSome (p := fun e : Text × Int => stops regex sentence e.1).mpr ⟨d, hd, hstop⟩)
  obtain ⟨-, -, hle⟩ := OrderedMap.find_entries_iff.mp he
  exact ⟨e, he, hle d hd hstop⟩

/-- A word that is found where the loop ends is the first one that is found. -/
theorem find_found_of_stop {m : CommandMap} {e : Text × Int}
    (he : m.entries.find? (fun e => stops regex sentence e.1) = some e)
    (hfound : found regex sentence e.1 = true) :
    m.entries.find? (fun e => found regex sentence e.1) = some e := by
  obtain ⟨hmem, -, hle⟩ := OrderedMap.find_entries_iff.mp he
  refine OrderedMap.find_entries_iff.mpr ⟨hmem, hfound, fun d hd hd' => ?_⟩
  exact hle d hd ((stops_iff d.1).mpr (.inr hd'))

theorem find_found_of_no_stop {m : CommandMap}
    (h : m.entries.find? (fun e => stops regex sentence e.1) = none) :
    m.entries.find? (fun e => found regex sentence e.1) = none := by
  rw [List.find?_eq_none] at h ⊢
  intro e he hfound
  exact h e he ((stops_iff e.1).mpr (.inr hfound))

/-- An invalid word does no harm to a sentence in which a lesser word is found. -/
theorem recognised_map_iff (m : CommandMap) :
    Recognised regex sentence m ↔ ∀ w, m.HasKey w → regex w = none →
      ∃ w', m.HasKey w' ∧ found regex sentence w' = true ∧ w' < w := by
  unfold Recognised interpret
  rw [interpretEntries_eq_find]
  constructor
  · intro h w hw hinvalid
    obtain ⟨e, he, hle⟩ := @exists_stop regex sentence m w hw hinvalid
    rw [he, Option.elim_some] at h
    have hfound : found regex sentence e.1 = true := by
      by_contra hn
      rw [if_neg hn] at h
      cases h
    have hne : e.1 ≠ w := by
      intro heq
      rw [heq, not_found_of_invalid hinvalid] at hfound
      cases hfound
    exact ⟨e.1, ⟨e, List.mem_of_find?_eq_some he, rfl⟩, hfound, lt_of_le_of_ne hle hne⟩
  · intro h
    cases he : m.entries.find? fun e => stops regex sentence e.1 with
    | none =>
      rw [find_found_of_no_stop he]
      rfl
    | some e =>
      obtain ⟨hmem, hstop, hle⟩ := OrderedMap.find_entries_iff.mp he
      rcases (stops_iff e.1).mp hstop with hinvalid | hfound
      · obtain ⟨w', ⟨d, hd, rfl⟩, hfound, hlt⟩ := h e.1 ⟨e, hmem, rfl⟩ hinvalid
        exact absurd (hle d hd ((stops_iff d.1).mpr (.inr hfound))) hlt.not_ge
      · rw [find_found_of_stop he hfound, Option.elim_some, if_pos hfound]
        rfl

/-- After a file was read, a sentence is recognised exactly if each invalid word comes
behind one that is found in the sentence. -/
theorem recognised_iff (regex : Text → Option (Text → Bool)) (sentence : Text) (file : Document)
    (m m' : CommandMap) (hlearn : learn_commands_from_xml file m = some (true, m')) :
    Recognised regex sentence m' ↔ ∀ w, Known file m w → regex w = none →
      ∃ w', Known file m w' ∧ found regex sentence w' = true ∧ w' < w := by
  obtain ⟨-, -, rfl⟩ := learn_true hlearn
  simp only [recognised_map_iff, OrderedMap.hasKey_insertAll, Known]

end

/-- An opening parenthesis that nothing closes is no pattern. -/
def unclosed (pattern : Text) : Option (Text → Bool) :=
  if 40 ∈ pattern then none else literal pattern

def parenthesisFile : Document := commandFile [commandElement "(" "1", commandElement "on" "2"]

def parenthesisMap : CommandMap := OrderedMap.empty.insertAll [(ascii "(", 1), (ascii "on", 2)]

theorem recognised_parenthesis :
    Recognised unclosed (ascii "on") parenthesisMap ↔
      ∀ w, Known parenthesisFile .empty w → unclosed w = none →
        ∃ w', Known parenthesisFile .empty w' ∧ found unclosed (ascii "on") w' = true ∧ w' < w :=
  recognised_iff unclosed (ascii "on") parenthesisFile .empty parenthesisMap (by decide +kernel)

/-- The word on is not recognised behind a parenthesis. -/
theorem on_not_recognised :
    learn_commands_from_xml parenthesisFile .empty = some (true, parenthesisMap) ∧
      ¬ Recognised unclosed (ascii "on") parenthesisMap := by
  constructor
  · decide +kernel
  · intro h
    have hthrows : interpret unclosed parenthesisMap (ascii "on") = none := by decide +kernel
    cases hthrows.symm.trans h

end HAS.InvalidPatterns

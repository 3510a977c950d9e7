import HAS.SortedTable
import Mathlib.Data.Nat.Basic
import Mathlib.Logic.Function.Basic

/-! Which categories of a grammar can follow each other, for the first pass of the recognition
(libsent/src/dfa: cpair.c, mkcpair.c). The automaton of a grammar reads a sentence from its end. -/
namespace HAS.Julius
open HAS.SortedTable

structure DFA_ARC where
  label : Nat
  to_state : Nat
deriving DecidableEq

structure DFA_STATE where
  initial : Bool := false
  accept : Bool := false
  arc : List DFA_ARC := []
deriving DecidableEq

/-- The constraint: cp, cp_begin and cp_end, with the lengths of their lists. -/
structure CPAIR where
  cp : List (List Nat)
  cp_begin : List Nat
  cp_end : List Nat
deriving DecidableEq

/-- Where the key is, if it is there, and the place to insert it. -/
def cp_find (list : List Nat) (key : Nat) : Option Nat × Nat :=
  if list = [] then (none, 0)
  else
    let left := bisect list key list.length 0 (list.length - 1)
    if list[left]? = some key then (some left, left)
    else if list[left]?.any (· > key) then (none, left)
    else (none, left + 1)

def cp_add (list : List Nat) (val loc : Nat) : List Nat := list.take loc ++ val :: list.drop loc

def cp_remove (list : List Nat) (loc : Nat) : List Nat := list.eraseIdx loc

/-- What the three setters do with their list. -/
def cp_set (list : List Nat) (j : Nat) (value : Bool) : List Nat :=
  if value then
    if (cp_find list j).1.isNone then cp_add list j (cp_find list j).2 else list
  else
    if (cp_find list j).1.isSome then cp_remove list (cp_find list j).2 else list

def set_dfa_cp (dfa : CPAIR) (i j : Nat) (value : Bool) : CPAIR :=
  { dfa with cp := dfa.cp.modify i fun list => cp_set list j value }

def set_dfa_cp_begin (dfa : CPAIR) (i : Nat) (value : Bool) : CPAIR :=
  { dfa with cp_begin := cp_set dfa.cp_begin i value }

def set_dfa_cp_end (dfa : CPAIR) (i : Nat) (value : Bool) : CPAIR :=
  { dfa with cp_end := cp_set dfa.cp_end i value }

def dfa_cp (dfa : CPAIR) (i j : Nat) : Bool := (cp_find (dfa.cp[i]?.getD []) j).1.isSome

def dfa_cp_begin (dfa : CPAIR) (i : Nat) : Bool := (cp_find dfa.cp_begin i).1.isSome

def dfa_cp_end (dfa : CPAIR) (i : Nat) : Bool := (cp_find dfa.cp_end i).1.isSome

def malloc_dfa_cp (term_num : Nat) : CPAIR := ⟨List.replicate term_num [], [], []⟩

/-- What the constraint is asked and told. -/
inductive Slot
  | pair (i j : Nat)
  | first (i : Nat)
  | last (i : Nat)
deriving DecidableEq

def CPAIR.set (dfa : CPAIR) : Slot → Bool → CPAIR
  | .pair i j => set_dfa_cp dfa i j
  | .first i => set_dfa_cp_begin dfa i
  | .last i => set_dfa_cp_end dfa i

def CPAIR.get (dfa : CPAIR) : Slot → Bool
  | .pair i j => dfa_cp dfa i j
  | .first i => dfa_cp_begin dfa i
  | .last i => dfa_cp_end dfa i

/-- The categories that there are. -/
def Slot.Within (term_num : Nat) : Slot → Prop
  | .pair i _ => i < term_num
  | _ => True

structure CPAIR.Sound (dfa : CPAIR) (term_num : Nat) : Prop where
  length : dfa.cp.length = term_num
  cp : ∀ list ∈ dfa.cp, Sorted list
  cp_begin : Sorted dfa.cp_begin
  cp_end : Sorted dfa.cp_end

theorem cp_find_place {list : List Nat} (h : Sorted list) (key : Nat) :
    Place list key (cp_find list key).2 ∧ ((cp_find list key).1.isSome = true ↔
      list[(cp_find list key).2]? = some key) := by
  rw [cp_find]
  by_cases hnil : list = []
  · simp only [if_pos hnil]
    subst hnil
    exact ⟨⟨Nat.le_refl 0, nofun, nofun⟩, by simp⟩
  obtain ⟨hlt, hbefore, hbehind⟩ := bisect_all h hnil key
  simp only [if_neg hnil]
  generalize bisect list key list.length 0 (list.length - 1) = left at *
  have hleft := List.getElem?_eq_getElem hlt
  have hge : ∀ i (hi : i < list.length), left ≤ i → list[left] ≤ list[i] := by
    intro i hi hle
    obtain rfl | hlt' := Nat.eq_or_lt_of_le hle
    · exact le_refl _
    · exact (h.lt hlt' hi).le
  by_cases heq : list[left]? = some key
  · simp only [if_pos heq]
    have hkey : list[left] = key := Option.some.inj (hleft.symm.trans heq)
    exact ⟨⟨Nat.le_of_lt hlt, hbefore, fun i hi hle => hkey ▸ hge i hi hle⟩, by simp [heq]⟩
  have hne : list[left] ≠ key := fun hkey => heq (hkey ▸ hleft)
  simp only [if_neg heq]
  by_cases hgt : list[left] > key
  · rw [if_pos (by simpa [hleft] using hgt)]
    exact ⟨⟨Nat.le_of_lt hlt, hbefore, fun i hi hle => hgt.le.trans (hge i hi hle)⟩, by simp [heq]⟩
  · rw [if_neg (by simpa [hleft] using hgt)]
    have hend : left + 1 = list.length := by
      by_contra hne'
      have := hbehind (by omega)
      omega
    refine ⟨⟨by omega, fun i hi hlt' => ?_, fun i hi hle => by omega⟩, by simp [hend]⟩
    by_cases hi' : i = left
    · subst hi'
      omega
    · exact hbefore i hi (by omega)

theorem cp_find_isSome {list : List Nat} (h : Sorted list) (key : Nat) :
    (cp_find list key).1.isSome = true ↔ key ∈ list := by
  obtain ⟨hplace, hsome⟩ := cp_find_place h key
  rw [hsome, hplace.mem_iff h]

theorem cp_set_sorted {list : List Nat} (h : Sorted list) (j : Nat) (value : Bool) :
    Sorted (cp_set list j value) := by
  rw [cp_set]
  split
  · split
    next hnone =>
      refine (cp_find_place h j).1.sorted_insert h fun hmem => ?_
      rw [Option.isNone_iff_eq_none] at hnone
      have := (cp_find_isSome h j).mpr hmem
      rw [hnone] at this
      exact absurd this Bool.false_ne_true
    next => exact h
  · split
    · exact h.eraseIdx _
    · exact h

theorem mem_cp_set {list : List Nat} (h : Sorted list) (j : Nat) (value : Bool) {k : Nat} :
    k ∈ cp_set list j value ↔ if k = j then value = true else k ∈ list := by
  have hfind := cp_find_isSome h j
  rw [cp_set]
  cases value with
  | true =>
    rw [if_pos rfl]
    by_cases hmem : j ∈ list
    · rw [if_neg (by rw [Option.isNone_iff_eq_none]; intro hnone; simp [hnone, hmem] at hfind)]
      by_cases hk : k = j <;> simp [hk, hmem]
    · rw [if_pos (by simpa [hmem] using hfind), cp_add, mem_insert]
      by_cases hk : k = j <;> simp [hk]
  | false =>
    rw [if_neg Bool.false_ne_true]
    by_cases hmem : j ∈ list
    · rw [if_pos (hfind.mpr hmem), cp_remove,
        mem_eraseIdx h (((cp_find_place h j).1.mem_iff h).mp hmem)]
      by_cases hk : k = j <;> simp [hk]
    · rw [if_neg fun hsome => hmem (hfind.mp hsome)]
      by_cases hk : k = j <;> simp [hk, hmem]

variable {dfa : CPAIR} {term_num : Nat}

theorem CPAIR.Sound.malloc (term_num : Nat) : (malloc_dfa_cp term_num).Sound term_num := by
  refine ⟨List.length_replicate, fun list hlist => ?_, .nil, .nil⟩
  rw [(List.mem_replicate.mp hlist).2]
  exact .nil

theorem CPAIR.Sound.set (h : dfa.Sound term_num) (slot : Slot) (value : Bool) :
    (dfa.set slot value).Sound term_num := by
  cases slot with
  | pair i j =>
    refine ⟨(List.length_modify _ _ _).trans h.length, fun list hlist => ?_, h.cp_begin, h.cp_end⟩
    obtain ⟨k, hk, rfl⟩ := List.mem_iff_getElem.mp hlist
    have hk' : k < dfa.cp.length := by simpa [CPAIR.set, set_dfa_cp] using hk
    have hmem := h.cp dfa.cp[k] (List.getElem_mem hk')
    simp only [CPAIR.set, set_dfa_cp, List.getElem_modify]
    split
    · exact cp_set_sorted hmem j value
    · exact hmem
  | first i => exact ⟨h.length, h.cp, cp_set_sorted h.cp_begin i value, h.cp_end⟩
  | last i => exact ⟨h.length, h.cp, h.cp_begin, cp_set_sorted h.cp_end i value⟩

/-- What is read from a list after one write to it. -/
theorem find_cp_set {list : List Nat} (h : Sorted list) (j : Nat) (value : Bool) (k : Nat) :
    (cp_find (cp_set list j value) k).1.isSome = if k = j then value else (cp_find list k).1.isSome := by
  rw [Bool.eq_iff_iff, cp_find_isSome (cp_set_sorted h j value), mem_cp_set h]
  split
  · exact Iff.rfl
  · exact (cp_find_isSome h k).symm

theorem CPAIR.Sound.row (h : dfa.Sound term_num) (i : Nat) : Sorted (dfa.cp[i]?.getD []) := by
  cases hi : dfa.cp[i]? with
  | none => exact .nil
  | some list => exact h.cp list (List.mem_of_getElem? hi)

/-- What is written is read, and nothing else changes. -/
theorem CPAIR.Sound.get_set (h : dfa.Sound term_num) {slot : Slot} (hslot : slot.Within term_num)
    (value : Bool) (asked : Slot) :
    (dfa.set slot value).get asked = if asked = slot then value else dfa.get asked := by
  cases slot with
  | pair i j =>
    cases asked with
    | pair k l =>
      simp only [CPAIR.set, set_dfa_cp, CPAIR.get, dfa_cp, List.getElem?_modify, Slot.pair.injEq]
      by_cases hik : i = k
      · subst hik
        have hrow := h.row i
        rw [← h.length] at hslot
        have hi := List.getElem?_eq_getElem hslot
        rw [hi] at hrow ⊢
        simp only [if_true, true_and]
        exact find_cp_set hrow j value l
      · simp [hik, Ne.symm hik]
    | first k => rfl
    | last k => rfl
  | first i =>
    cases asked with
    | pair k l => rfl
    | first k =>
      simp only [CPAIR.set, CPAIR.get, dfa_cp_begin, set_dfa_cp_begin, Slot.first.injEq]
      exact find_cp_set h.cp_begin i value k
    | last k => rfl
  | last i =>
    cases asked with
    | pair k l => rfl
    | first k => rfl
    | last k =>
      simp only [CPAIR.set, CPAIR.get, dfa_cp_end, set_dfa_cp_end, Slot.last.injEq]
      exact find_cp_set h.cp_end i value k

theorem get_malloc (term_num : Nat) (asked : Slot) :
    (malloc_dfa_cp term_num).get asked = false := by
  cases asked with
  | pair i j =>
    simp only [malloc_dfa_cp, CPAIR.get, dfa_cp, List.getElem?_replicate]
    split <;> rfl
  | first i => rfl
  | last i => rfl

/-- Over any run of writes the tables answer as a function that is updated does. -/
theorem run_get {writes : List (Slot × Bool)} (hwrites : ∀ w ∈ writes, w.1.Within term_num)
    (asked : Slot) :
    (writes.foldl (fun dfa w => dfa.set w.1 w.2) (malloc_dfa_cp term_num)).get asked =
      writes.foldl (fun answers w => Function.update answers w.1 w.2) (fun _ => false) asked := by
  suffices h : ∀ (dfa : CPAIR) (answers : Slot → Bool), dfa.Sound term_num →
      (∀ asked, dfa.get asked = answers asked) →
      (writes.foldl (fun dfa w => dfa.set w.1 w.2) dfa).get asked =
        writes.foldl (fun answers w => Function.update answers w.1 w.2) answers asked from
    h _ _ (.malloc term_num) (get_malloc term_num)
  induction writes with
  | nil => exact fun dfa answers _ hsame => hsame asked
  | cons w writes ih =>
    intro dfa answers hdfa hsame
    refine ih (fun v hv => hwrites v (List.mem_cons_of_mem _ hv)) _ _ (hdfa.set w.1 w.2) fun slot => ?_
    simp only [hdfa.get_set (hwrites w List.mem_cons_self), Function.update_apply, hsame]

theorem run_get_sample :
    (([(Slot.pair 1 2, true), (.pair 1 0, true), (.pair 1 2, false), (.last 0, true)].foldl
        (fun dfa w => dfa.set w.1 w.2) (malloc_dfa_cp 3)).get (.pair 1 0)) =
      [(Slot.pair 1 2, true), (.pair 1 0, true), (.pair 1 2, false), (.last 0, true)].foldl
        (fun answers w => Function.update answers w.1 w.2) (fun _ => false) (.pair 1 0) :=
  run_get (by simp [Slot.Within]) _

/-- A write of a category, unless it is a pause. -/
def setUnless (sp : Nat → Bool) (slot : Nat → Slot) (dfa : CPAIR) (arc : DFA_ARC) : Option CPAIR :=
  if sp arc.label then none else some (dfa.set (slot arc.label) true)

section Extract
variable (st : List DFA_STATE) (sp : Nat → Bool)

def target (arc : DFA_ARC) : DFA_STATE := st[arc.to_state]?.getD {}

/-- A category right of left; where it is a pause, those that follow it as well. -/
def pairsOf (left : Nat) (dfa : CPAIR) (arc_r : DFA_ARC) : Option CPAIR :=
  if sp arc_r.label then
    (target st arc_r).arc.foldlM (setUnless sp (.pair · left)) (dfa.set (.pair arc_r.label left) true)
  else some (dfa.set (.pair arc_r.label left) true)

def leftOf (dfa : CPAIR) (arc_l : DFA_ARC) : Option CPAIR :=
  (if (target st arc_l).accept then setUnless sp .first dfa arc_l else some dfa).bind fun dfa =>
    (target st arc_l).arc.foldlM (pairsOf st sp arc_l.label) dfa

def stateOf (dfa : CPAIR) (state : DFA_STATE) : Option CPAIR :=
  (if state.initial then state.arc.foldlM (setUnless sp .last) dfa else some dfa).bind fun dfa =>
    state.arc.foldlM (leftOf st sp) dfa

/-- None if a pause ends or begins a sentence, or follows another one. -/
def extract_cpair (term_num : Nat) : Option CPAIR :=
  st.foldlM (stateOf st sp) (malloc_dfa_cp term_num)

end Extract

/-- What a step writes, if it does not fail. -/
def Adds (term_num : Nat) (f : CPAIR → Option CPAIR) (written : Slot → Prop) : Prop :=
  ∀ dfa dfa', dfa.Sound term_num → f dfa = some dfa' →
    dfa'.Sound term_num ∧ ∀ slot, dfa'.get slot = true ↔ dfa.get slot = true ∨ written slot

theorem Adds.set (slot : Slot) (h : slot.Within term_num) :
    Adds term_num (fun dfa => some (dfa.set slot true)) (· = slot) := by
  intro dfa dfa' hdfa heq
  obtain rfl := Option.some.inj heq
  refine ⟨hdfa.set slot true, fun asked => ?_⟩
  rw [hdfa.get_set h]
  split
  next h => simp [h]
  next h => simp [h]

theorem Adds.skip : Adds term_num some fun _ => False := by
  intro dfa dfa' hdfa heq
  obtain rfl := Option.some.inj heq
  exact ⟨hdfa, by simp⟩

theorem Adds.bind {f g : CPAIR → Option CPAIR} {P Q : Slot → Prop} (hf : Adds term_num f P)
    (hg : Adds term_num g Q) : Adds term_num (fun dfa => (f dfa).bind g) fun slot => P slot ∨ Q slot := by
  intro dfa dfa' hdfa heq
  obtain ⟨mid, hmid, hlast⟩ := Option.bind_eq_some_iff.mp heq
  obtain ⟨hsound, hiff⟩ := hf dfa mid hdfa hmid
  obtain ⟨hsound', hiff'⟩ := hg mid dfa' hsound hlast
  exact ⟨hsound', fun slot => by rw [hiff', hiff, or_assoc]⟩

theorem Adds.ite {c : Prop} [Decidable c] {f g : CPAIR → Option CPAIR} {P Q : Slot → Prop}
    (hf : Adds term_num f P) (hg : Adds term_num g Q) :
    Adds term_num (fun dfa => if c then f dfa else g dfa) fun slot => c ∧ P slot ∨ ¬ c ∧ Q slot := by
  by_cases h : c
  · simpa [h] using hf
  · simpa [h] using hg

/-- A loop writes what its rounds write. -/
theorem Adds.foldlM {α : Type} {f : CPAIR → α → Option CPAIR} {P : α → Slot → Prop} {list : List α}
    (h : ∀ a ∈ list, Adds term_num (fun dfa => f dfa a) (P a)) :
    Adds term_num (fun dfa => list.foldlM f dfa) fun slot => ∃ a ∈ list, P a slot := by
  induction list with
  | nil => simpa using Adds.skip
  | cons a list ih =>
    have hrest := ih fun b hb => h b (List.mem_cons_of_mem _ hb)
    simpa [List.foldlM_cons] using (h a List.mem_cons_self).bind hrest

theorem Adds.unless {sp : Nat → Bool} (slot : Nat → Slot) {arc : DFA_ARC}
    (h : (slot arc.label).Within term_num) :
    Adds term_num (fun dfa => setUnless sp slot dfa arc) (· = slot arc.label) := by
  intro dfa dfa' hdfa heq
  simp only [setUnless] at heq
  split at heq
  · exact absurd heq nofun
  · exact Adds.set _ h dfa dfa' hdfa heq

section Extract
variable (st : List DFA_STATE) (sp : Nat → Bool)

/-- A category can come left of another, or with a pause between the two. -/
def Follows (arc_l : DFA_ARC) (right : Nat) : Prop :=
  ∃ arc_r ∈ (target st arc_l).arc, arc_r.label = right ∨
    sp arc_r.label = true ∧ ∃ arc ∈ (target st arc_r).arc, arc.label = right

/-- What the arcs of the automaton say. -/
def Allowed : Slot → Prop
  | .pair right left => ∃ state ∈ st, ∃ arc ∈ state.arc, arc.label = left ∧ Follows st sp arc right
  | .first c => ∃ state ∈ st, ∃ arc ∈ state.arc, arc.label = c ∧ (target st arc).accept = true
  | .last c => ∃ state ∈ st, state.initial = true ∧ ∃ arc ∈ state.arc, arc.label = c

variable {st}

theorem mem_target {arc₁ arc₂ : DFA_ARC} (h : arc₂ ∈ (target st arc₁).arc) :
    ∃ state ∈ st, arc₂ ∈ state.arc := by
  rw [target] at h
  cases hs : st[arc₁.to_state]? with
  | none =>
    rw [hs] at h
    exact absurd h List.not_mem_nil
  | some state =>
    rw [hs] at h
    exact ⟨state, List.mem_of_getElem? hs, h⟩

variable {sp}

theorem Adds.pairsOf {arc_l arc_r : DFA_ARC}
    (hlabels : ∀ state ∈ st, ∀ arc ∈ state.arc, arc.label < term_num)
    (hr : arc_r.label < term_num) :
    Adds term_num (fun dfa => pairsOf st sp arc_l.label dfa arc_r) fun slot =>
      slot = .pair arc_r.label arc_l.label ∨
        sp arc_r.label = true ∧ ∃ arc ∈ (target st arc_r).arc, slot = .pair arc.label arc_l.label := by
  intro dfa dfa' hdfa heq
  simp only [Julius.pairsOf] at heq
  have hbehind : Adds term_num
      (fun dfa => (target st arc_r).arc.foldlM (setUnless sp (.pair · arc_l.label)) dfa)
      fun slot => ∃ arc ∈ (target st arc_r).arc, slot = .pair arc.label arc_l.label := by
    refine Adds.foldlM fun arc harc => Adds.unless (.pair · arc_l.label) ?_
    obtain ⟨state, hstate, hmem⟩ := mem_target harc
    exact hlabels state hstate arc hmem
  split at heq
  next hsp =>
    have := (Adds.set (.pair arc_r.label arc_l.label) hr).bind hbehind dfa dfa' hdfa heq
    simpa [hsp] using this
  next hsp =>
    have := Adds.set (.pair arc_r.label arc_l.label) hr dfa dfa' hdfa heq
    simpa [hsp] using this

/-- The constraint that is extracted is what the arcs say. -/
theorem extract_cpair_spec {dfa : CPAIR}
    (hlabels : ∀ state ∈ st, ∀ arc ∈ state.arc, arc.label < term_num)
    (h : extract_cpair st sp term_num = some dfa) :
    dfa.Sound term_num ∧ ∀ slot, dfa.get slot = true ↔ Allowed st sp slot := by
  have hleft : ∀ arc_l : DFA_ARC, Adds term_num (fun dfa => leftOf st sp dfa arc_l) _ := fun arc_l =>
    ((Adds.ite (c := (target st arc_l).accept = true) (Adds.unless .first trivial)
      Adds.skip).bind (Adds.foldlM fun arc_r harc => by
        obtain ⟨state, hstate, hmem⟩ := mem_target harc
        exact Adds.pairsOf hlabels (hlabels state hstate arc_r hmem)))
  have hstate : ∀ state : DFA_STATE, Adds term_num (fun dfa => stateOf st sp dfa state) _ :=
    fun state => (Adds.ite (c := state.initial = true)
      (Adds.foldlM fun arc _ => Adds.unless .last trivial) Adds.skip).bind
      (Adds.foldlM fun arc_l _ => hleft arc_l)
  obtain ⟨hsound, hiff⟩ := Adds.foldlM (fun state _ => hstate state) _ _ (.malloc term_num) h
  refine ⟨hsound, fun slot => ?_⟩
  rw [hiff, get_malloc]
  cases slot with
  | pair right left =>
    simp only [Allowed, Follows, Slot.pair.injEq, reduceCtorEq, and_false, exists_false, or_false, false_or]
    constructor
    · rintro ⟨state, hstate, arc_l, hl, arc_r, hr, ⟨rfl, rfl⟩ | ⟨hsp, arc, harc, rfl, rfl⟩⟩
      · exact ⟨state, hstate, arc_l, hl, rfl, arc_r, hr, .inl rfl⟩
      · exact ⟨state, hstate, arc_l, hl, rfl, arc_r, hr, .inr ⟨hsp, arc, harc, rfl⟩⟩
    · rintro ⟨state, hstate, arc_l, hl, rfl, arc_r, hr, rfl | ⟨hsp, arc, harc, rfl⟩⟩
      · exact ⟨state, hstate, arc_l, hl, arc_r, hr, .inl ⟨rfl, rfl⟩⟩
      · exact ⟨state, hstate, arc_l, hl, arc_r, hr, .inr ⟨hsp, arc, harc, rfl, rfl⟩⟩
  | first c =>
    have hc : ∀ a : Nat, c = a ↔ a = c := fun a => eq_comm
    simp [Allowed, hc, and_comm]
  | last c =>
    have hc : ∀ a : Nat, c = a ↔ a = c := fun a => eq_comm
    simp [Allowed, hc]

/-- Two categories, the second one at the end of a sentence. -/
def sampleStates : List DFA_STATE :=
  [{ initial := true, arc := [⟨1, 1⟩] }, { arc := [⟨0, 2⟩, ⟨1, 1⟩] }, { accept := true }]

def sampleCpair : CPAIR := ⟨[[1], [1]], [0], [1]⟩

theorem extract_cpair_sample : sampleCpair.Sound 2 ∧
    ∀ slot, sampleCpair.get slot = true ↔ Allowed sampleStates (fun _ => false) slot :=
  extract_cpair_spec (by decide) (by decide)

end Extract

end HAS.Julius

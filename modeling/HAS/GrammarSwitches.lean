import HAS.GrammarOwners
import Mathlib.Logic.Function.Basic

/-! Commands about grammars only take effect with the next update: the last one counts. -/
namespace HAS.Julius
open HAS.Bytes

/-- What the commands ask for: how many grammars were added, which of them are to be active, and
which are to go. -/
structure Switches where
  added : Nat := 0
  on : Nat → Bool := fun _ => true
  gone : Nat → Bool := fun _ => false

def Switches.apply (s : Switches) : Command → Switches
  | .add _ _ _ =>
    ⟨s.added + 1, Function.update s.on s.added true, Function.update s.gone s.added false⟩
  | .delete id => { s with gone := Function.update s.gone id true }
  | .delete_all => { s with gone := fun _ => true }
  | .activate id => { s with on := Function.update s.on id true }
  | .deactivate id => { s with on := Function.update s.on id false }
  | .add_words _ _ => s
  | .update => s

/-- What a grammar will be after the next update. -/
def MULTIGRAM.wanted (m : MULTIGRAM) : Bool :=
  if m.activate then true else if m.deactivate then false else m.active

/-- One grammar says what was asked for. -/
structure Obeys (s : Switches) (m : MULTIGRAM) : Prop where
  id : m.id < s.added
  once : m.activate = true → m.deactivate = false
  on : m.wanted = s.on m.id
  gone : s.gone m.id = true → m.delete = true

structure Tracked (s : Switches) (lm : PROCESS_LM) : Prop where
  maxid : lm.gram_maxid = s.added
  ids : (lm.grammars.map (·.id)).Nodup
  obeys : ∀ m ∈ lm.grammars, Obeys s m

theorem map_id_mark {id : Nat} {f : MULTIGRAM → MULTIGRAM} (hf : ∀ m, (f m).id = m.id)
    (ms : List MULTIGRAM) : (mark id f ms).map (·.id) = ms.map (·.id) := by
  induction ms with
  | nil => rfl
  | cons m ms ih =>
    rw [mark]
    split
    · rw [List.map_cons, hf, List.map_cons]
    · rw [List.map_cons, ih, List.map_cons]

/-- With numbers that differ, marking is done to the grammar with the number and to no other. -/
theorem mem_mark_iff {id : Nat} {f : MULTIGRAM → MULTIGRAM} {ms : List MULTIGRAM}
    (hids : (ms.map (·.id)).Nodup) {m : MULTIGRAM} (h : m ∈ mark id f ms) :
    ∃ m' ∈ ms, m' = m ∧ m'.id ≠ id ∨ f m' = m ∧ m'.id = id := by
  induction ms with
  | nil => exact absurd h List.not_mem_nil
  | cons m₁ ms ih =>
    obtain ⟨hnot, hnodup⟩ := List.nodup_cons.mp hids
    rw [mark] at h
    split at h
    next hid =>
      cases List.mem_cons.mp h with
      | inl heq => exact ⟨m₁, List.mem_cons_self, .inr ⟨heq.symm, hid⟩⟩
      | inr h =>
        refine ⟨m, List.mem_cons_of_mem _ h, .inl ⟨rfl, fun hm => ?_⟩⟩
        exact hnot (List.mem_map.mpr ⟨m, h, hm.trans hid.symm⟩)
    next hid =>
      cases List.mem_cons.mp h with
      | inl heq => exact ⟨m₁, List.mem_cons_self, .inl ⟨heq.symm, hid⟩⟩
      | inr h =>
        obtain ⟨m', hmem, hcases⟩ := ih hnodup h
        exact ⟨m', List.mem_cons_of_mem _ hmem, hcases⟩

variable {lm lm' : PROCESS_LM} {sp : Nat} {s : Switches}

theorem Tracked.mark (h : Tracked s lm) {s' : Switches} (id : Nat) {f : MULTIGRAM → MULTIGRAM}
    (hid : ∀ m, (f m).id = m.id) (hadded : s'.added = s.added)
    (hother : ∀ m, Obeys s m → m.id ≠ id → Obeys s' m)
    (hmarked : ∀ m, Obeys s m → m.id = id → Obeys s' (f m)) :
    Tracked s' { lm with grammars := Julius.mark id f lm.grammars } := by
  refine ⟨h.maxid.trans hadded.symm, ?_, fun m hm => ?_⟩
  · exact (map_id_mark hid lm.grammars).symm ▸ h.ids
  · obtain ⟨m', hmem, ⟨rfl, hne⟩ | ⟨rfl, heq⟩⟩ := mem_mark_iff h.ids hm
    · exact hother m' (h.obeys m' hmem) hne
    · exact hmarked m' (h.obeys m' hmem) heq

theorem Tracked.add (h : Tracked s lm) (dfa : DFA_INFO) (winfo : List Word) (name : List Byte) :
    Tracked (s.apply (.add dfa winfo name)) (multigram_add dfa winfo name lm) := by
  have hbelow : ∀ m ∈ lm.grammars, m.id ≠ s.added := fun m hm => Nat.ne_of_lt (h.obeys m hm).id
  refine ⟨congrArg (· + 1) h.maxid, List.nodup_cons.mpr ⟨fun hmem => ?_, h.ids⟩, fun m hm => ?_⟩
  · obtain ⟨m, hm, hid⟩ := List.mem_map.mp hmem
    exact hbelow m hm (hid.trans h.maxid)
  · cases List.mem_cons.mp hm with
    | inl heq =>
      subst heq
      refine ⟨?_, fun _ => rfl, ?_, fun hgone => ?_⟩
      · rw [h.maxid]
        exact Nat.lt_succ_self _
      · simp [Switches.apply, MULTIGRAM.wanted, h.maxid]
      · simp [Switches.apply, h.maxid] at hgone
    | inr hm =>
      have hold := h.obeys m hm
      refine ⟨Nat.lt_succ_of_lt hold.id, hold.once, ?_, fun hgone => hold.gone ?_⟩
      · rw [hold.on]
        exact (Function.update_of_ne (hbelow m hm) _ _).symm
      · change Function.update s.gone s.added false m.id = true at hgone
        rwa [Function.update_of_ne (hbelow m hm)] at hgone

/-- What a grammar says does not depend on its place. -/
theorem appendAll_flags {every : Bool} {gdfa dfa : DFA_INFO} {gwinfo winfo : List Word}
    {ms placed : List MULTIGRAM} (h : appendAll every gdfa gwinfo ms = some (dfa, winfo, placed)) :
    placed.map (fun m => (m.id, m.delete, m.activate, m.deactivate, m.active)) =
      ms.map fun m => (m.id, m.delete, m.activate, m.deactivate, m.active) := by
  induction ms generalizing gdfa gwinfo placed with
  | nil =>
    obtain ⟨-, -, rfl⟩ := appendAll_nil h
    rfl
  | cons m ms ih =>
    obtain ⟨-, dfa₁, winfo₁, rest, -, hloop, rfl⟩ | ⟨-, rest, hloop, rfl⟩ := appendAll_cons h
    · rw [List.map_cons, ih hloop, List.map_cons]
      rfl
    · rw [List.map_cons, ih hloop, List.map_cons]

theorem setUp_flags (sp : Nat) (m : MULTIGRAM) : (m.setUp sp).id = m.id ∧
    (m.setUp sp).activate = m.activate ∧ (m.setUp sp).deactivate = m.deactivate ∧
      (m.setUp sp).active = m.active ∧ (m.delete = true → (m.setUp sp).delete = true) := by
  rw [MULTIGRAM.setUp]
  split
  · split
    · exact ⟨rfl, rfl, rfl, rfl, fun _ => rfl⟩
    · exact ⟨rfl, rfl, rfl, rfl, id⟩
  · exact ⟨rfl, rfl, rfl, rfl, id⟩

theorem exec_activate_spec {m : MULTIGRAM} (honce : m.activate = true → m.deactivate = false) :
    m.exec_activate.id = m.id ∧ m.exec_activate.active = m.wanted ∧
      m.exec_activate.activate = false ∧ m.exec_activate.deactivate = false ∧
        m.exec_activate.delete = m.delete := by
  rw [MULTIGRAM.exec_activate, MULTIGRAM.wanted]
  split
  next h => exact ⟨rfl, rfl, rfl, honce h, rfl⟩
  next h =>
    split
    · exact ⟨rfl, rfl, Bool.eq_false_iff.mpr h, rfl, rfl⟩
    next h' => exact ⟨rfl, rfl, Bool.eq_false_iff.mpr h, Bool.eq_false_iff.mpr h', rfl⟩

/-- After an update the grammars that are left are what was asked for. -/
theorem Tracked.update (h : Tracked s lm) (heq : multigram_update sp lm = some lm') :
    Tracked s lm' ∧ ∀ m ∈ lm'.grammars, m.active = s.on m.id ∧ s.gone m.id = false := by
  simp only [multigram_update] at heq
  generalize hleft : (lm.grammars.map (·.setUp sp)).filter (!·.delete) = left at heq
  obtain ⟨⟨dfa, winfo, placed⟩, happend, rfl⟩ := Option.map_eq_some_iff.mp heq
  have hflags : placed.map (fun m => (m.id, m.delete, m.activate, m.deactivate, m.active)) =
      left.map fun m => (m.id, m.delete, m.activate, m.deactivate, m.active) := by
    split at happend
    · rw [appendAll_flags happend, List.map_map]
      rfl
    · rw [appendAll_flags happend, List.map_map]
      rfl
  have hfrom : ∀ m ∈ placed, ∃ m₀ ∈ lm.grammars, m.id = m₀.id ∧ m.activate = m₀.activate ∧
      m.deactivate = m₀.deactivate ∧ m.wanted = m₀.wanted ∧ m.delete = false ∧
        m₀.delete = false := by
    intro m hm
    have hin := List.mem_map_of_mem (f := fun m : MULTIGRAM =>
      (m.id, m.delete, m.activate, m.deactivate, m.active)) hm
    rw [hflags] at hin
    obtain ⟨m₁, hm₁, hsame⟩ := List.mem_map.mp hin
    rw [← hleft] at hm₁
    obtain ⟨hmem, hdelete⟩ := List.mem_filter.mp hm₁
    obtain ⟨m₀, hm₀, rfl⟩ := List.mem_map.mp hmem
    obtain ⟨hid, hactivate, hdeactivate, hactive, hgone⟩ := setUp_flags sp m₀
    simp only [Prod.mk.injEq, hid, hactivate, hdeactivate, hactive] at hsame
    obtain ⟨hid', hdelete', hactivate', hdeactivate', hactive'⟩ := hsame
    have hnot : (m₀.setUp sp).delete = false := by simpa using hdelete
    refine ⟨m₀, hm₀, hid'.symm, hactivate'.symm, hdeactivate'.symm, ?_, hdelete'.symm.trans hnot, ?_⟩
    · rw [MULTIGRAM.wanted, MULTIGRAM.wanted, ← hactivate', ← hdeactivate', ← hactive']
    · by_contra hne
      exact absurd (hgone (by simpa using hne)) (by simp [hnot])
  have hspec : ∀ m ∈ placed, Obeys s m.exec_activate ∧ m.exec_activate.active = s.on m.exec_activate.id ∧
      s.gone m.exec_activate.id = false := by
    intro m hm
    obtain ⟨m₀, hm₀, hid, hactivate, hdeactivate, hwanted, -, hdelete⟩ := hfrom m hm
    have hold := h.obeys m₀ hm₀
    obtain ⟨hid', hactive, hoff, hoff', -⟩ :=
      exec_activate_spec (m := m) (by rw [hactivate, hdeactivate]; exact hold.once)
    have hon : m.exec_activate.active = s.on m.exec_activate.id := by
      rw [hactive, hwanted, hold.on, hid', hid]
    have hgone : s.gone m.exec_activate.id = false := by
      by_contra hne
      rw [hid', hid] at hne
      exact absurd (hold.gone (by simpa using hne)) (by simp [hdelete])
    refine ⟨⟨?_, fun _ => hoff', ?_, fun h => absurd (hgone.symm.trans h) Bool.false_ne_true⟩, hon, hgone⟩
    · rw [hid', hid]
      exact hold.id
    · rw [← hon, MULTIGRAM.wanted, hoff, hoff']
      rfl
  have hids : (placed.map (·.exec_activate)).map (·.id) = left.map (·.id) := by
    have hfirst := congrArg (List.map Prod.fst) hflags
    rw [List.map_map, List.map_map] at hfirst
    rw [List.map_map]
    refine Eq.trans (List.map_congr_left fun m hm => ?_) hfirst
    obtain ⟨m₀, hm₀, -, hactivate, hdeactivate, -⟩ := hfrom m hm
    exact (exec_activate_spec (by rw [hactivate, hdeactivate]; exact (h.obeys m₀ hm₀).once)).1
  refine ⟨⟨h.maxid, ?_, fun m hm => ?_⟩, fun m hm => ?_⟩
  · rw [hids, ← hleft]
    refine (List.filter_sublist.map _).nodup ?_
    rw [List.map_map]
    have hsame : (lm.grammars.map ((·.id) ∘ (·.setUp sp))) = lm.grammars.map (·.id) :=
      List.map_congr_left fun m _ => (setUp_flags sp m).1
    rw [hsame]
    exact h.ids
  · obtain ⟨m₁, hm₁, rfl⟩ := List.mem_map.mp hm
    exact (hspec m₁ hm₁).1
  · obtain ⟨m₁, hm₁, rfl⟩ := List.mem_map.mp hm
    exact (hspec m₁ hm₁).2

theorem Tracked.step (h : Tracked s lm) {command : Command}
    (heq : step sp lm command = some lm') : Tracked (s.apply command) lm' := by
  cases command with
  | add dfa winfo name =>
    obtain rfl := Option.some.inj heq
    exact h.add dfa winfo name
  | delete id =>
    obtain rfl := Option.some.inj heq
    refine h.mark id (fun _ => rfl) rfl (fun m hm hne => ?_) fun m hm heq => ?_
    · exact ⟨hm.id, hm.once, hm.on, fun hgone => hm.gone ((Function.update_of_ne hne _ _).symm.trans hgone)⟩
    · exact ⟨hm.id, hm.once, hm.on, fun _ => rfl⟩
  | delete_all =>
    obtain rfl := Option.some.inj heq
    refine ⟨h.maxid, ?_, fun m hm => ?_⟩
    · simpa [multigram_delete_all, Function.comp_def] using h.ids
    · obtain ⟨m, hm', rfl⟩ := List.mem_map.mp hm
      have hold := h.obeys m (by assumption)
      exact ⟨hold.id, hold.once, hold.on, fun _ => rfl⟩
  | activate id =>
    obtain rfl := Option.some.inj heq
    refine h.mark id (fun _ => rfl) rfl (fun m hm hne => ?_) fun m hm heq => ?_
    · exact ⟨hm.id, hm.once, hm.on.trans (Function.update_of_ne hne _ _).symm, hm.gone⟩
    · exact ⟨hm.id, fun _ => rfl, by simp [Switches.apply, MULTIGRAM.wanted, heq], hm.gone⟩
  | deactivate id =>
    obtain rfl := Option.some.inj heq
    refine h.mark id (fun _ => rfl) rfl (fun m hm hne => ?_) fun m hm heq => ?_
    · exact ⟨hm.id, hm.once, hm.on.trans (Function.update_of_ne hne _ _).symm, hm.gone⟩
    · exact ⟨hm.id, nofun, by simp [Switches.apply, MULTIGRAM.wanted, heq], hm.gone⟩
  | add_words id winfo =>
    obtain ⟨found, -, heq⟩ := Option.bind_eq_some_iff.mp heq
    obtain ⟨all, -, heq⟩ := Option.bind_eq_some_iff.mp heq
    obtain ⟨⟨dfa, words⟩, -, rfl⟩ := Option.map_eq_some_iff.mp heq
    exact h.mark id (fun _ => rfl) rfl (fun m hm _ => hm)
      fun m hm _ => ⟨hm.id, hm.once, hm.on, hm.gone⟩
  | update => exact (h.update heq).1

end HAS.Julius

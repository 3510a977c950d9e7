import HAS.Grammar

/-! What one grammar accepts, and why the constraint of the first pass allows it. -/
namespace HAS.Julius
open HAS.Bytes HAS.Stdio HAS.Expansions

/-- The search builds a sentence from its end, a word at a time. -/
def expander (dfa : DFA_INFO) (first : List NEXTWORD) : Expander Nat Nat where
  first := {p | ∃ x ∈ first, p = (x.id, x.next_state)}
  next s := {p | ∃ x ∈ dfa_nextwords dfa s, p = (x.id, x.next_state)}
  final := {s | dfa_acceptable dfa s = true}

/-- A grammar on its own. -/
def DFA_INFO.own (dfa : DFA_INFO) : Expander Nat Nat :=
  expander dfa (firstwords dfa 0 dfa.st.length)

/-- The category of a word that there is. -/
def category (winfo : List Word) (w : Nat) : Nat := (winfo[w]?.map (·.wton)).getD 0

/-- The first pass lets these categories follow each other, the last of a sentence first. -/
structure Permitted (cp : CPAIR) (cs : List Nat) : Prop where
  chain : List.IsChain (fun c d => dfa_cp cp d c = true) cs
  last : ∀ (c : Nat), cs.head? = some c → dfa_cp_end cp c = true
  first : ∀ (c : Nat), cs.getLast? = some c → dfa_cp_begin cp c = true

/-- The arcs lead to categories and states that there are, and only state 0 is initial. -/
structure DFA_INFO.Closed (dfa : DFA_INFO) : Prop where
  label : ∀ state ∈ dfa.st, ∀ arc ∈ state.arc, arc.label < dfa.term_num
  to_state : ∀ state ∈ dfa.st, ∀ arc ∈ state.arc, arc.to_state < dfa.st.length
  initial : ∀ (s : Nat) (state : DFA_STATE), dfa.st[s]? = some state → state.arc ≠ [] →
    (state.initial = true ↔ s = 0)

/-- The words of each category are found, and the constraint is that of the arcs. -/
structure Ready (dfa : DFA_INFO) (winfo : List Word) : Prop where
  tw_length : dfa.tw.length = dfa.term_num
  is_sp_length : dfa.is_sp.length = dfa.term_num
  mem_tw : ∀ (t w : Nat),
    w ∈ dfa.tw[t]?.getD [] ↔ ∃ word : Word, winfo[w]? = some word ∧ word.wton = t
  cp : ∃ cp : CPAIR, dfa.cp = some cp ∧ cp.Sound dfa.term_num ∧
    ∀ slot : Slot, cp.get slot = true ↔ Allowed dfa.st dfa.pause slot

theorem length_make_terminfo (term_num : Nat) (winfo : List Word) :
    (make_terminfo term_num winfo).length = term_num := by
  suffices h : ∀ (ws : List (Word × Nat)) (tw : List (List Nat)),
      (ws.foldl (fun tw w => tw.modify w.1.wton (· ++ [w.2])) tw).length = tw.length by
    rw [make_terminfo, h, List.length_replicate]
  intro ws
  induction ws with
  | nil => exact fun tw => rfl
  | cons w ws ih => exact fun tw => (ih _).trans (List.length_modify _ _ _)

theorem mem_make_terminfo {term_num : Nat} {winfo : List Word}
    (h : ∀ word ∈ winfo, word.wton < term_num) (t w : Nat) :
    w ∈ (make_terminfo term_num winfo)[t]?.getD [] ↔
      ∃ word, winfo[w]? = some word ∧ word.wton = t := by
  suffices hloop : ∀ (k : Nat) (tw : List (List Nat)), tw.length = term_num →
      (w ∈ ((winfo.zipIdx k).foldl (fun tw w => tw.modify w.1.wton (· ++ [w.2])) tw)[t]?.getD [] ↔
        w ∈ tw[t]?.getD [] ∨ ∃ i word, winfo[i]? = some word ∧ word.wton = t ∧ w = k + i) by
    rw [make_terminfo, hloop 0 _ List.length_replicate]
    have hblank : (List.replicate term_num ([] : List Nat))[t]?.getD [] = [] := by
      rw [List.getElem?_replicate]
      split <;> rfl
    simp [hblank]
  induction winfo with
  | nil => simp
  | cons word winfo ih =>
    intro k tw htw
    have hlt := h word List.mem_cons_self
    rw [List.zipIdx_cons, List.foldl_cons,
      ih (fun v hv => h v (List.mem_cons_of_mem _ hv)) (k + 1) _ (by rwa [List.length_modify])]
    have hrow : w ∈ (tw.modify word.wton (· ++ [k]))[t]?.getD [] ↔
        w ∈ tw[t]?.getD [] ∨ word.wton = t ∧ w = k := by
      rw [List.getElem?_modify]
      by_cases heq : word.wton = t
      · subst heq
        simp [List.getElem?_eq_getElem (htw ▸ hlt)]
      · simp [heq]
    rw [hrow, or_assoc]
    refine or_congr Iff.rfl ⟨?_, ?_⟩
    · rintro (⟨ht, hk⟩ | ⟨i, v, hv, ht, hw⟩)
      · exact ⟨0, word, rfl, ht, hk⟩
      · exact ⟨i + 1, v, hv, ht, by omega⟩
    · rintro ⟨i, v, hv, ht, hw⟩
      cases i with
      | zero =>
        obtain rfl := Option.some.inj hv
        exact .inl ⟨ht, hw⟩
      | succ i => exact .inr ⟨i, v, hv, ht, by omega⟩

theorem symbol_lookup_lt {dinfo : DFA_INFO} {terminalname : List Byte} {t : Nat}
    (h : dfa_symbol_lookup dinfo terminalname = some t) : t < dinfo.term_num := by
  simp only [dfa_symbol_lookup] at h
  split at h
  · split at h
    · exact absurd h nofun
    next hlt =>
      obtain rfl := Option.some.inj h
      omega
  · exact absurd h nofun

/-- The categories of the words, once they are found. -/
theorem voca_ref_spec {dinfo dfa : DFA_INFO} {winfo words : List Word}
    (h : make_dfa_voca_ref dinfo winfo = some (dfa, words)) :
    dfa = { dinfo with tw := make_terminfo dinfo.term_num words } ∧
      ∀ word ∈ words, word.wton < dinfo.term_num := by
  obtain ⟨found, hfound, heq⟩ := Option.map_eq_some_iff.mp h
  obtain ⟨rfl, rfl⟩ := Prod.mk.inj heq
  refine ⟨rfl, fun word hword => ?_⟩
  clear h
  induction winfo generalizing found with
  | nil =>
    obtain rfl := Option.some.inj hfound
    exact absurd hword List.not_mem_nil
  | cons w winfo ih =>
    rw [List.mapM_cons] at hfound
    obtain ⟨first, hfirst, hrest⟩ := Option.bind_eq_some_iff.mp hfound
    obtain ⟨rest, hrest, heq⟩ := Option.bind_eq_some_iff.mp hrest
    obtain rfl := Option.some.inj heq
    cases List.mem_cons.mp hword with
    | inl h =>
      obtain ⟨t, ht, rfl⟩ := Option.map_eq_some_iff.mp hfirst
      exact h ▸ symbol_lookup_lt ht
    | inr h => exact ih rest (by assumption) rfl h

theorem setUp_ready {sp : Nat} {dinfo dfa : DFA_INFO} {winfo words : List Word}
    (hclosed : dinfo.Closed) (h : setUp sp dinfo winfo = some (dfa, words)) :
    Ready dfa words ∧ dfa.Closed := by
  obtain ⟨⟨dfa₁, words₁⟩, href, h⟩ := Option.bind_eq_some_iff.mp h
  obtain ⟨cp, hcp, heq⟩ := Option.map_eq_some_iff.mp h
  obtain ⟨rfl, hwton⟩ := voca_ref_spec href
  obtain ⟨rfl, rfl⟩ := Prod.mk.inj heq
  obtain ⟨hsound, hallowed⟩ := extract_cpair_spec hclosed.label hcp
  have hlength := length_make_terminfo dinfo.term_num words₁
  refine ⟨⟨hlength, ?_, mem_make_terminfo hwton, cp, rfl, hsound, hallowed⟩,
    hclosed.label, hclosed.to_state, hclosed.initial⟩
  simpa [dfa_find_pause_word] using hlength

theorem mem_expand {dfa : DFA_INFO} {can_insert_sp : Bool} {arc : DFA_ARC} {x : NEXTWORD} :
    x ∈ expand dfa can_insert_sp arc ↔
      ∃ w ∈ dfa.tw[arc.label]?.getD [], x = ⟨w, arc.to_state, can_insert_sp⟩ := by
  simp [expand, eq_comm]

/-- A word can come next if the arcs say so, a pause being passed over. -/
theorem mem_next {dfa : DFA_INFO} {first : List NEXTWORD} {s w t : Nat} :
    (w, t) ∈ (expander dfa first).next s ↔
      ∃ arc ∈ (dfa.st[s]?.getD {}).arc, ∃ last : DFA_ARC,
        (dfa.pause arc.label = true ∧ last ∈ (target dfa.st arc).arc ∨
          dfa.pause arc.label = false ∧ last = arc) ∧
        w ∈ dfa.tw[last.label]?.getD [] ∧ last.to_state = t := by
  constructor
  · rintro ⟨x, hx, heq⟩
    obtain ⟨arc, harc, hx⟩ := List.mem_flatMap.mp hx
    obtain ⟨rfl, rfl⟩ := Prod.mk.inj heq
    refine ⟨arc, harc, ?_⟩
    split at hx
    next hpause =>
      obtain ⟨last, hlast, hx⟩ := List.mem_flatMap.mp hx
      obtain ⟨v, hv, rfl⟩ := mem_expand.mp hx
      exact ⟨last, .inl ⟨hpause, hlast⟩, hv, rfl⟩
    next hpause =>
      obtain ⟨v, hv, rfl⟩ := mem_expand.mp hx
      exact ⟨arc, .inr ⟨Bool.eq_false_iff.mpr hpause, rfl⟩, hv, rfl⟩
  · rintro ⟨arc, harc, last, ⟨hpause, hlast⟩ | ⟨hpause, rfl⟩, hw, rfl⟩
    · refine ⟨⟨w, last.to_state, true⟩, List.mem_flatMap.mpr ⟨arc, harc, ?_⟩, rfl⟩
      rw [if_pos hpause]
      exact List.mem_flatMap.mpr ⟨last, hlast, mem_expand.mpr ⟨w, hw, rfl⟩⟩
    · refine ⟨⟨w, last.to_state, false⟩, List.mem_flatMap.mpr ⟨last, harc, ?_⟩, rfl⟩
      rw [if_neg (by rw [hpause]; exact Bool.false_ne_true)]
      exact mem_expand.mpr ⟨w, hw, rfl⟩

theorem mem_firstwords {dfa : DFA_INFO} {sb num : Nat} {x : NEXTWORD} :
    x ∈ firstwords dfa sb num ↔ ∃ s, sb ≤ s ∧ s < sb + num ∧
      (dfa.st[s]?.getD {}).initial = true ∧ ∃ arc ∈ (dfa.st[s]?.getD {}).arc,
        ∃ w ∈ dfa.tw[arc.label]?.getD [], x = ⟨w, arc.to_state, false⟩ := by
  rw [firstwords, List.mem_flatMap]
  constructor
  · rintro ⟨s, hs, hx⟩
    obtain ⟨hle, hlt⟩ := List.mem_range'_1.mp hs
    split at hx
    next hinitial =>
      obtain ⟨arc, harc, hx⟩ := List.mem_flatMap.mp hx
      exact ⟨s, hle, hlt, hinitial, arc, harc, mem_expand.mp hx⟩
    next => exact absurd hx List.not_mem_nil
  · rintro ⟨s, hle, hlt, hinitial, arc, harc, hx⟩
    refine ⟨s, List.mem_range'_1.mpr ⟨hle, hlt⟩, ?_⟩
    rw [if_pos hinitial]
    exact List.mem_flatMap.mpr ⟨arc, harc, mem_expand.mpr hx⟩

theorem mem_state {dfa : DFA_INFO} {s : Nat} {arc : DFA_ARC}
    (h : arc ∈ (dfa.st[s]?.getD {}).arc) : dfa.st[s]?.getD {} ∈ dfa.st := by
  cases hs : dfa.st[s]? with
  | none =>
    rw [hs] at h
    exact absurd h List.not_mem_nil
  | some state => exact List.mem_of_getElem? hs

variable {dfa : DFA_INFO} {winfo : List Word}

end HAS.Julius

import HAS.GrammarParts

/-! The recogniser accepts the sentences of its active grammars, and no others. -/
namespace HAS.Julius
open HAS.Segments HAS.Expansions

/-- The search over the global grammar, from the states of the active ones. -/
def PROCESS_LM.recogniser (lm : PROCESS_LM) : Expander Nat Nat :=
  expander lm.dfa (dfa_firstwords lm)

section Tile
variable {gdfa : DFA_INFO} {gwinfo : List Word} {m : MULTIGRAM}

theorem Tile.state (h : Tile gdfa gwinfo m) {s : Nat} (hs : s < m.dfa.st.length) :
    gdfa.st[s + m.state_begin]?.getD {} =
      (m.dfa.st[s]?.getD {}).shift s m.state_begin m.cate_begin := by
  rw [h.st.getElem? hs, List.getElem?_eq_getElem hs]
  rfl

theorem Tile.mem_arc (h : Tile gdfa gwinfo m) {s : Nat} (hs : s < m.dfa.st.length)
    {arc : DFA_ARC} : arc ∈ (gdfa.st[s + m.state_begin]?.getD {}).arc ↔
      ∃ arc' ∈ (m.dfa.st[s]?.getD {}).arc, arc = arc'.shift m.state_begin m.cate_begin := by
  rw [h.state hs]
  simp [DFA_STATE.shift, eq_comm]

theorem Tile.mem_words (h : Tile gdfa gwinfo m) (hfit : Fit m.dfa m.winfo) {c : Nat}
    (hc : c < m.dfa.term_num) {w : Nat} : w ∈ gdfa.tw[c + m.cate_begin]?.getD [] ↔
      ∃ v ∈ m.dfa.tw[c]?.getD [], w = v + m.word_begin := by
  rw [← hfit.ready.tw_length] at hc
  rw [h.tw.getElem? hc, List.getElem?_eq_getElem hc]
  simp [eq_comm]

theorem Tile.pause (h : Tile gdfa gwinfo m) (hfit : Fit m.dfa m.winfo) {c : Nat}
    (hc : c < m.dfa.term_num) : gdfa.pause (c + m.cate_begin) = m.dfa.pause c := by
  rw [← hfit.ready.is_sp_length] at hc
  rw [DFA_INFO.pause, DFA_INFO.pause, h.is_sp.getElem? hc, List.getElem?_eq_getElem hc]
  rfl

/-- The words that can come next are those that could before, with the numbers that they have. -/
theorem Tile.mem_next (h : Tile gdfa gwinfo m) (hfit : Fit m.dfa m.winfo) {s : Nat}
    (hs : s < m.dfa.st.length) {first : List NEXTWORD} {p : Nat × Nat} :
    p ∈ (expander gdfa first).next (s + m.state_begin) ↔
      p ∈ Prod.map (· + m.word_begin) (· + m.state_begin) '' m.dfa.own.next s := by
  have htarget : ∀ arc ∈ (m.dfa.st[s]?.getD {}).arc, ∀ last : DFA_ARC,
      (last ∈ (target gdfa.st (arc.shift m.state_begin m.cate_begin)).arc ↔
        ∃ last' ∈ (target m.dfa.st arc).arc, last = last'.shift m.state_begin m.cate_begin) :=
    fun arc harc last => h.mem_arc (hfit.closed.to_state _ (mem_state harc) arc harc)
  obtain ⟨w, t⟩ := p
  rw [Julius.mem_next, Set.mem_image]
  constructor
  · rintro ⟨_, hshifted, last, hlast, hw, rfl⟩
    obtain ⟨arc, harc, rfl⟩ := (h.mem_arc hs).mp hshifted
    have hlabel := hfit.closed.label _ (mem_state harc) arc harc
    have hpause : gdfa.pause (arc.shift m.state_begin m.cate_begin).label = m.dfa.pause arc.label :=
      h.pause hfit hlabel
    rw [hpause] at hlast
    rcases hlast with ⟨hsp, hlast⟩ | ⟨hsp, rfl⟩
    · obtain ⟨last, hmem, rfl⟩ := (htarget arc harc last).mp hlast
      obtain ⟨state, hstate, hin⟩ := mem_target hmem
      obtain ⟨v, hv, rfl⟩ := (h.mem_words hfit (hfit.closed.label state hstate last hin)).mp hw
      exact ⟨(v, last.to_state), Julius.mem_next.mpr ⟨arc, harc, last, .inl ⟨hsp, hmem⟩, hv, rfl⟩, rfl⟩
    · obtain ⟨v, hv, rfl⟩ := (h.mem_words hfit hlabel).mp hw
      exact ⟨(v, arc.to_state), Julius.mem_next.mpr ⟨arc, harc, arc, .inr ⟨hsp, rfl⟩, hv, rfl⟩, rfl⟩
  · rintro ⟨⟨v, t'⟩, hvt, heq⟩
    obtain ⟨rfl, rfl⟩ := Prod.mk.inj heq
    obtain ⟨arc, harc, last, hlast, hv, rfl⟩ := Julius.mem_next.mp hvt
    have hlabel := hfit.closed.label _ (mem_state harc) arc harc
    have hpause : gdfa.pause (arc.shift m.state_begin m.cate_begin).label = m.dfa.pause arc.label :=
      h.pause hfit hlabel
    refine ⟨_, (h.mem_arc hs).mpr ⟨arc, harc, rfl⟩, last.shift m.state_begin m.cate_begin, ?_, ?_, rfl⟩
    · rw [hpause]
      rcases hlast with ⟨hsp, hlast⟩ | ⟨hsp, rfl⟩
      · exact .inl ⟨hsp, (htarget arc harc _).mpr ⟨last, hlast, rfl⟩⟩
      · exact .inr ⟨hsp, rfl⟩
    · have hin : last.label < m.dfa.term_num := by
        rcases hlast with ⟨-, hlast⟩ | ⟨-, rfl⟩
        · obtain ⟨state, hstate, hin⟩ := mem_target hlast
          exact hfit.closed.label state hstate last hin
        · exact hlabel
      exact (h.mem_words hfit hin).mpr ⟨v, hv, rfl⟩

theorem Tile.embeds (h : Tile gdfa gwinfo m) (hfit : Fit m.dfa m.winfo) (first : List NEXTWORD) :
    Embeds m.dfa.own (· < m.dfa.st.length) (· + m.state_begin) (· + m.word_begin)
      (expander gdfa first) := by
  refine ⟨?_, ?_, fun s hs => Set.ext fun p => h.mem_next hfit hs, fun s hs => ?_⟩
  · rintro p ⟨x, hx, rfl⟩
    obtain ⟨s, -, -, -, arc, harc, w, -, rfl⟩ := mem_firstwords.mp hx
    exact hfit.closed.to_state _ (mem_state harc) arc harc
  · rintro s - ⟨w, t⟩ hp
    obtain ⟨arc, harc, last, ⟨-, hlast⟩ | ⟨-, rfl⟩, -, rfl⟩ := Julius.mem_next.mp hp
    · obtain ⟨state, hstate, hin⟩ := mem_target hlast
      exact hfit.closed.to_state state hstate last hin
    · exact hfit.closed.to_state _ (mem_state harc) last harc
  · simp only [expander, DFA_INFO.own, Set.mem_ofPred_eq, dfa_acceptable, h.state hs, DFA_STATE.shift]

/-- What can come first after the states of one grammar. -/
theorem Tile.mem_firstwords (h : Tile gdfa gwinfo m) (hfit : Fit m.dfa m.winfo) {p : Nat × Nat} :
    (∃ x ∈ firstwords gdfa m.state_begin m.dfa.st.length, p = (x.id, x.next_state)) ↔
      p ∈ Prod.map (· + m.word_begin) (· + m.state_begin) '' m.dfa.own.first := by
  rw [Set.mem_image]
  constructor
  · rintro ⟨x, hx, rfl⟩
    obtain ⟨s, hle, hlt, hinitial, _, hshifted, w, hw, rfl⟩ := Julius.mem_firstwords.mp hx
    obtain ⟨s, rfl⟩ := Nat.exists_eq_add_of_le' hle
    have hs : s < m.dfa.st.length := by omega
    obtain ⟨arc, harc, rfl⟩ := (h.mem_arc hs).mp hshifted
    have hlabel := hfit.closed.label _ (mem_state harc) arc harc
    obtain ⟨v, hv, rfl⟩ := (h.mem_words hfit hlabel).mp hw
    rw [h.state hs] at hinitial
    have hstate : m.dfa.st[s]? = some (m.dfa.st[s]?.getD {}) := by
      rw [List.getElem?_eq_getElem hs]
      rfl
    have hown := (hfit.closed.initial s _ hstate (List.ne_nil_of_mem harc)).mpr (eq_of_beq hinitial)
    exact ⟨(v, arc.to_state), ⟨⟨v, arc.to_state, false⟩, Julius.mem_firstwords.mpr
      ⟨s, Nat.zero_le s, by omega, hown, arc, harc, v, hv, rfl⟩, rfl⟩, rfl⟩
  · rintro ⟨_, ⟨x, hx, rfl⟩, rfl⟩
    obtain ⟨s, -, hlt, hinitial, arc, harc, v, hv, rfl⟩ := Julius.mem_firstwords.mp hx
    have hs : s < m.dfa.st.length := by omega
    have hlabel := hfit.closed.label _ (mem_state harc) arc harc
    have hstate : m.dfa.st[s]? = some (m.dfa.st[s]?.getD {}) := by
      rw [List.getElem?_eq_getElem hs]
      rfl
    have hzero := (hfit.closed.initial s _ hstate (List.ne_nil_of_mem harc)).mp hinitial
    refine ⟨⟨v + m.word_begin, arc.to_state + m.state_begin, false⟩, Julius.mem_firstwords.mpr
      ⟨s + m.state_begin, Nat.le_add_left _ _, by omega, ?_, _,
        (h.mem_arc hs).mpr ⟨arc, harc, rfl⟩, _, (h.mem_words hfit hlabel).mpr ⟨v, hv, rfl⟩, rfl⟩, rfl⟩
    rw [h.state hs]
    exact beq_iff_eq.mpr hzero

end Tile

end HAS.Julius

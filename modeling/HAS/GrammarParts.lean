import HAS.GrammarSentences
import HAS.Segments

/-! Grammars put side by side: what the one they are put together to has of each of them. -/
namespace HAS.Julius
open HAS.Segments

/-- The constraint lists what a slot asks for. -/
def CPAIR.Has (cp : CPAIR) : Slot → Prop
  | .pair i j => j ∈ cp.cp[i]?.getD []
  | .first i => i ∈ cp.cp_begin
  | .last i => i ∈ cp.cp_end

def Slot.shift (offset : Nat) : Slot → Slot
  | .pair i j => .pair (i + offset) (j + offset)
  | .first i => .first (i + offset)
  | .last i => .last (i + offset)

structure CPAIR.Below (dfa : CPAIR) (term_num : Nat) : Prop where
  cp : ∀ list ∈ dfa.cp, ∀ j ∈ list, j < term_num
  cp_begin : ∀ i ∈ dfa.cp_begin, i < term_num
  cp_end : ∀ i ∈ dfa.cp_end, i < term_num

theorem CPAIR.Sound.get_iff {cp : CPAIR} {term_num : Nat} (h : cp.Sound term_num) (slot : Slot) :
    cp.get slot = true ↔ cp.Has slot := by
  cases slot with
  | pair i j => exact cp_find_isSome (h.row i) j
  | first i => exact cp_find_isSome h.cp_begin i
  | last i => exact cp_find_isSome h.cp_end i

/-- The constraints of two grammars, one behind the other. -/
def CPAIR.beside (cp added : CPAIR) (offset : Nat) : CPAIR where
  cp := cp.cp ++ added.cp.map fun list => list.map (· + offset)
  cp_begin := cp.cp_begin ++ added.cp_begin.map (· + offset)
  cp_end := cp.cp_end ++ added.cp_end.map (· + offset)

section Beside
variable {cp added : CPAIR} {offset term_num : Nat}

theorem sorted_beside {list more : List Nat} (h : SortedTable.Sorted list)
    (hmore : SortedTable.Sorted more) (hbelow : ∀ j ∈ list, j < offset) :
    SortedTable.Sorted (list ++ more.map (· + offset)) := by
  refine List.pairwise_append.mpr ⟨h, ?_, fun a ha b hb => ?_⟩
  · exact List.pairwise_map.mpr (hmore.imp fun hlt => Nat.add_lt_add_right hlt offset)
  · obtain ⟨c, -, rfl⟩ := List.mem_map.mp hb
    exact Nat.lt_of_lt_of_le (hbelow a ha) (Nat.le_add_left _ _)

theorem CPAIR.Sound.beside (h : cp.Sound offset) (hbelow : cp.Below offset)
    (hadded : added.Sound term_num) : (cp.beside added offset).Sound (offset + term_num) := by
  refine ⟨?_, fun list hlist => ?_, sorted_beside h.cp_begin hadded.cp_begin hbelow.cp_begin,
    sorted_beside h.cp_end hadded.cp_end hbelow.cp_end⟩
  · simp [CPAIR.beside, h.length, hadded.length]
  · cases List.mem_append.mp hlist with
    | inl hlist => exact h.cp list hlist
    | inr hlist =>
      obtain ⟨row, hrow, rfl⟩ := List.mem_map.mp hlist
      exact List.pairwise_map.mpr ((hadded.cp row hrow).imp fun hlt => Nat.add_lt_add_right hlt offset)

theorem below_beside {list more : List Nat} (h : ∀ j ∈ list, j < offset)
    (hmore : ∀ j ∈ more, j < term_num) :
    ∀ j ∈ list ++ more.map (· + offset), j < offset + term_num := by
  intro j hj
  cases List.mem_append.mp hj with
  | inl hj => exact Nat.lt_of_lt_of_le (h j hj) (Nat.le_add_right _ _)
  | inr hj =>
    obtain ⟨k, hk, rfl⟩ := List.mem_map.mp hj
    have := hmore k hk
    omega

theorem CPAIR.Below.beside (h : cp.Below offset) (hadded : added.Below term_num) :
    (cp.beside added offset).Below (offset + term_num) := by
  refine ⟨fun list hlist => ?_, below_beside h.cp_begin hadded.cp_begin,
    below_beside h.cp_end hadded.cp_end⟩
  cases List.mem_append.mp hlist with
  | inl hlist => exact fun j hj => Nat.lt_of_lt_of_le (h.cp list hlist j hj) (Nat.le_add_right _ _)
  | inr hlist =>
    obtain ⟨row, hrow, rfl⟩ := List.mem_map.mp hlist
    intro j hj
    obtain ⟨k, hk, rfl⟩ := List.mem_map.mp hj
    have := hadded.cp row hrow k hk
    omega

theorem CPAIR.Has.left {slot : Slot} (h : cp.Has slot) : (cp.beside added offset).Has slot := by
  cases slot with
  | pair i j =>
    cases hi : cp.cp[i]? with
    | none =>
      simp only [CPAIR.Has, hi] at h
      exact absurd h List.not_mem_nil
    | some list =>
      simp only [CPAIR.Has, CPAIR.beside]
      rw [List.getElem?_append_left (List.getElem?_eq_some_iff.mp hi).1]
      exact h
  | first i => exact List.mem_append_left _ h
  | last i => exact List.mem_append_left _ h

theorem CPAIR.Has.right {slot : Slot} (hcp : cp.Sound offset) (h : added.Has slot) :
    (cp.beside added offset).Has (slot.shift offset) := by
  cases slot with
  | pair i j =>
    simp only [CPAIR.Has, CPAIR.beside, Slot.shift]
    rw [List.getElem?_append_right (hcp.length ▸ Nat.le_add_left _ _), hcp.length,
      Nat.add_sub_cancel, List.getElem?_map]
    cases hi : added.cp[i]? with
    | none =>
      simp only [CPAIR.Has, hi] at h
      exact absurd h List.not_mem_nil
    | some list =>
      simp only [CPAIR.Has, hi] at h
      exact List.mem_map_of_mem h
  | first i => exact List.mem_append_right _ (List.mem_map_of_mem h)
  | last i => exact List.mem_append_right _ (List.mem_map_of_mem h)

end Beside

/-- A grammar that can be put to others. -/
structure Fit (dfa : DFA_INFO) (winfo : List Word) : Prop where
  ready : Ready dfa winfo
  closed : dfa.Closed

theorem Fit.below {dfa : DFA_INFO} {winfo : List Word} (h : Fit dfa winfo) {cp : CPAIR}
    (hcp : dfa.cp = some cp) : cp.Sound dfa.term_num ∧ cp.Below dfa.term_num := by
  obtain ⟨cp', hcp', hsound, hallowed⟩ := h.ready.cp
  obtain rfl := Option.some.inj (hcp'.symm.trans hcp)
  have hhas : ∀ slot, cp'.Has slot → Allowed dfa.st dfa.pause slot := fun slot hslot =>
    (hallowed slot).mp ((hsound.get_iff slot).mpr hslot)
  refine ⟨hsound, fun list hlist j hj => ?_, fun i hi => ?_, fun i hi => ?_⟩
  · obtain ⟨i, hi, rfl⟩ := List.mem_iff_getElem.mp hlist
    have hmem : j ∈ cp'.cp[i]?.getD [] := by
      rw [List.getElem?_eq_getElem hi]
      exact hj
    obtain ⟨state, hstate, arc, harc, rfl, -⟩ := hhas (.pair i j) hmem
    exact h.closed.label state hstate arc harc
  · obtain ⟨state, hstate, arc, harc, rfl, -⟩ := hhas (.first i) hi
    exact h.closed.label state hstate arc harc
  · obtain ⟨state, hstate, -, arc, harc, rfl⟩ := hhas (.last i) hi
    exact h.closed.label state hstate arc harc

/-- The global grammar is consistent. -/
structure Whole (gdfa : DFA_INFO) (gwinfo : List Word) : Prop where
  tw_length : gdfa.tw.length = gdfa.term_num
  is_sp_length : gdfa.is_sp.length = gdfa.term_num
  cp : ∀ (cp : CPAIR), gdfa.cp = some cp → cp.Sound gdfa.term_num ∧ cp.Below gdfa.term_num

theorem Whole.blank : Whole {} [] := ⟨rfl, rfl, nofun⟩

def Word.shift (word : Word) (coffset : Nat) : Word := { word with wton := word.wton + coffset }

/-- What the global grammar has of one that was put to it. -/
structure Tile (gdfa : DFA_INFO) (gwinfo : List Word) (m : MULTIGRAM) : Prop where
  st : Segment gdfa.st m.state_begin (fun s state => state.shift s m.state_begin m.cate_begin) m.dfa.st
  tw : Segment gdfa.tw m.cate_begin (fun _ words => words.map (· + m.word_begin)) m.dfa.tw
  is_sp : Segment gdfa.is_sp m.cate_begin (fun _ pause => pause) m.dfa.is_sp
  winfo : Segment gwinfo m.word_begin (fun _ word => word.shift m.cate_begin) m.winfo
  cp : ∀ (cp : CPAIR), m.dfa.cp = some cp → ∃ gcp : CPAIR, gdfa.cp = some gcp ∧
    ∀ slot : Slot, cp.get slot = true → gcp.get (slot.shift m.cate_begin) = true

/-- The maximum of the labels is the number of the categories, if those are found. -/
theorem foldl_labels {offset term_num : Nat} {labels : List Nat}
    (h : ∀ label ∈ labels, label < offset + term_num) {n : Nat} (hn : n ≤ offset + term_num) :
    n ≤ labels.foldl (fun n label => max n (label + 1)) n ∧
      labels.foldl (fun n label => max n (label + 1)) n ≤ offset + term_num := by
  induction labels generalizing n with
  | nil => exact ⟨Nat.le_refl n, hn⟩
  | cons label labels ih =>
    have hlabel := h label List.mem_cons_self
    obtain ⟨hle, hle'⟩ := ih (fun l hl => h l (List.mem_cons_of_mem _ hl))
      (show max n (label + 1) ≤ offset + term_num by omega)
    exact ⟨by rw [List.foldl_cons]; omega, hle'⟩

section Append
variable {gdfa dfa : DFA_INFO} {gwinfo winfo : List Word} {m : MULTIGRAM}

/-- What an append that succeeds leaves. -/
theorem append_to_global_eq (hfit : Fit m.dfa m.winfo)
    (h : multigram_append_to_global gdfa gwinfo m = some (dfa, winfo)) :
    ∃ cp gcp : CPAIR, m.dfa.cp = some cp ∧
      (gdfa.cp = none ∧ gdfa.term_num = 0 ∧ gcp = cp ∨
        ∃ old, gdfa.cp = some old ∧ gcp = old.beside cp gdfa.term_num) ∧
      winfo = gwinfo ++ m.winfo.map (·.shift gdfa.term_num) ∧
      dfa =
        { st := gdfa.st ++
            m.dfa.st.mapIdx fun s state => state.shift s gdfa.st.length gdfa.term_num
          term_num := gdfa.term_num + m.dfa.term_num
          cp := some gcp
          tw := gdfa.tw ++ m.dfa.tw.map fun words => words.map (· + gwinfo.length)
          is_sp := gdfa.is_sp ++ m.dfa.is_sp
          sp_id := gdfa.sp_id.or m.dfa.sp_id } := by
  obtain ⟨mid, hmid, h⟩ := Option.bind_eq_some_iff.mp h
  obtain ⟨words, hwords, h⟩ := Option.bind_eq_some_iff.mp h
  obtain ⟨gcp, hgcp, heq⟩ := Option.map_eq_some_iff.mp h
  obtain ⟨rfl, rfl⟩ := Prod.mk.inj heq
  simp only [dfa_append] at hmid
  split at hmid
  · exact absurd hmid nofun
  obtain rfl := Option.some.inj hmid
  simp only [voca_append] at hwords
  split at hwords
  case isFalse => exact absurd hwords nofun
  obtain rfl := Option.some.inj hwords
  obtain ⟨cp, hcp, -⟩ := hfit.ready.cp
  simp only [cpair_append] at hgcp
  split at hgcp
  case isFalse => exact absurd hgcp nofun
  next hterm =>
  have hlabels : ∀ label ∈ m.dfa.st.flatMap fun state => state.arc.map (·.label + gdfa.term_num),
      label < gdfa.term_num + m.dfa.term_num := by
    intro label hlabel
    obtain ⟨state, hstate, hlabel⟩ := List.mem_flatMap.mp hlabel
    obtain ⟨arc, harc, rfl⟩ := List.mem_map.mp hlabel
    have := hfit.closed.label state hstate arc harc
    omega
  obtain ⟨hle, hle'⟩ := foldl_labels hlabels (Nat.le_add_right gdfa.term_num m.dfa.term_num)
  have hsum := (Nat.sub_eq_iff_eq_add hle).mp hterm
  rw [Nat.add_comm] at hsum
  refine ⟨cp, gcp, hcp, ?_, rfl, ?_⟩
  · simp only [dfa_cp_append, hcp] at hgcp
    cases hold : gdfa.cp with
    | none =>
      simp only [hold, hsum] at hgcp
      split at hgcp
      next heq => exact .inl ⟨rfl, by omega, (Option.some.inj hgcp).symm⟩
      next => exact absurd hgcp nofun
    | some old =>
      simp only [hold] at hgcp
      exact .inr ⟨old, rfl, (Option.some.inj hgcp).symm⟩
  · simp only [dfa_pause_word_append, terminfo_append, hsum]

theorem Whole.append (hwhole : Whole gdfa gwinfo) (hfit : Fit m.dfa m.winfo)
    (h : multigram_append_to_global gdfa gwinfo m = some (dfa, winfo)) : Whole dfa winfo := by
  obtain ⟨cp, gcp, hcp, hgcp, rfl, rfl⟩ := append_to_global_eq hfit h
  obtain ⟨hsound, hbelow⟩ := hfit.below hcp
  refine ⟨?_, ?_, fun new hnew => ?_⟩
  · simp [hwhole.tw_length, hfit.ready.tw_length]
  · simp [hwhole.is_sp_length, hfit.ready.is_sp_length]
  · obtain rfl := Option.some.inj hnew
    rcases hgcp with ⟨-, hzero, rfl⟩ | ⟨old, hold, rfl⟩
    · simp only [hzero, Nat.zero_add]
      exact ⟨hsound, hbelow⟩
    · obtain ⟨holdSound, holdBelow⟩ := hwhole.cp old hold
      exact ⟨holdSound.beside holdBelow hsound, holdBelow.beside hbelow⟩

/-- What the others have in the global grammar stays. -/
theorem Tile.append (hwhole : Whole gdfa gwinfo) (hfit : Fit m.dfa m.winfo)
    (h : multigram_append_to_global gdfa gwinfo m = some (dfa, winfo)) {other : MULTIGRAM}
    (htile : Tile gdfa gwinfo other) : Tile dfa winfo other := by
  have hnew := hwhole.append hfit h
  obtain ⟨cp, gcp, hcp, hgcp, rfl, rfl⟩ := append_to_global_eq hfit h
  refine ⟨htile.st.append _, htile.tw.append _, htile.is_sp.append _, htile.winfo.append _,
    fun own hown => ?_⟩
  obtain ⟨old, hold, hslots⟩ := htile.cp own hown
  obtain ⟨holdSound, -⟩ := hwhole.cp old hold
  refine ⟨gcp, rfl, fun slot hslot => ?_⟩
  rcases hgcp with ⟨hnone, -, -⟩ | ⟨old', hold', rfl⟩
  · exact absurd (hnone.symm.trans hold) nofun
  · obtain rfl := Option.some.inj (hold.symm.trans hold')
    have hhas := (holdSound.get_iff _).mp (hslots slot hslot)
    exact ((hnew.cp _ rfl).1.get_iff _).mpr hhas.left

theorem Tile.placed (hwhole : Whole gdfa gwinfo) (hfit : Fit m.dfa m.winfo)
    (h : multigram_append_to_global gdfa gwinfo m = some (dfa, winfo)) :
    Tile dfa winfo (m.placed gdfa gwinfo) := by
  have hnew := hwhole.append hfit h
  obtain ⟨cp, gcp, hcp, hgcp, rfl, rfl⟩ := append_to_global_eq hfit h
  obtain ⟨hsound, -⟩ := hfit.below hcp
  refine ⟨Segment.last _ _ _, ?_, ?_, Segment.last_map _ _ _, fun own hown => ⟨gcp, rfl, ?_⟩⟩
  · have := Segment.last_map gdfa.tw (fun words : List Nat => words.map (· + gwinfo.length)) m.dfa.tw
    rw [hwhole.tw_length] at this
    exact this
  · have := Segment.last_map gdfa.is_sp (fun pause : Bool => pause) m.dfa.is_sp
    rw [hwhole.is_sp_length, List.map_id'] at this
    exact this
  · obtain rfl := Option.some.inj (hcp.symm.trans hown)
    intro slot hslot
    have hhas := (hsound.get_iff slot).mp hslot
    rcases hgcp with ⟨-, hzero, rfl⟩ | ⟨old, hold, rfl⟩
    · have hshift : slot.shift (m.placed gdfa gwinfo).cate_begin = slot := by
        simp only [MULTIGRAM.placed, hzero]
        cases slot <;> rfl
      rw [hshift]
      exact hslot
    · exact ((hnew.cp _ rfl).1.get_iff _).mpr (hhas.right (hwhole.cp old hold).1)

/-- A round of the loop: the grammar is appended, or it stays as it is. -/
theorem appendAll_cons {every : Bool} {ms placed : List MULTIGRAM}
    (h : appendAll every gdfa gwinfo (m :: ms) = some (dfa, winfo, placed)) :
    ((every || m.newbie) = true ∧ ∃ dfa₁ winfo₁ rest,
      multigram_append_to_global gdfa gwinfo m = some (dfa₁, winfo₁) ∧
        appendAll every dfa₁ winfo₁ ms = some (dfa, winfo, rest) ∧
          placed = m.placed gdfa gwinfo :: rest) ∨
    ((every || m.newbie) = false ∧ ∃ rest,
      appendAll every gdfa gwinfo ms = some (dfa, winfo, rest) ∧ placed = m :: rest) := by
  rw [appendAll] at h
  split at h
  next hplace =>
    obtain ⟨⟨dfa₁, winfo₁⟩, happend, h⟩ := Option.bind_eq_some_iff.mp h
    obtain ⟨⟨dfa₂, winfo₂, rest⟩, hloop, heq⟩ := Option.map_eq_some_iff.mp h
    simp only [Prod.mk.injEq] at heq
    obtain ⟨rfl, rfl, rfl⟩ := heq
    exact .inl ⟨hplace, dfa₁, winfo₁, rest, happend, hloop, rfl⟩
  next hplace =>
    obtain ⟨⟨dfa₂, winfo₂, rest⟩, hloop, heq⟩ := Option.map_eq_some_iff.mp h
    simp only [Prod.mk.injEq] at heq
    obtain ⟨rfl, rfl, rfl⟩ := heq
    exact .inr ⟨Bool.eq_false_iff.mpr hplace, rest, hloop, rfl⟩

theorem appendAll_nil {every : Bool} {placed : List MULTIGRAM}
    (h : appendAll every gdfa gwinfo [] = some (dfa, winfo, placed)) :
    dfa = gdfa ∧ winfo = gwinfo ∧ placed = [] := by
  simp only [appendAll, Option.some.injEq, Prod.mk.injEq] at h
  obtain ⟨rfl, rfl, rfl⟩ := h
  exact ⟨rfl, rfl, rfl⟩

/-- After the loop all grammars have their places, and those that had some keep them. -/
theorem appendAll_spec {every : Bool} {ms placed : List MULTIGRAM} (hwhole : Whole gdfa gwinfo)
    (hfit : ∀ m ∈ ms, Fit m.dfa m.winfo)
    (htile : ∀ m ∈ ms, (every || m.newbie) = false → Tile gdfa gwinfo m)
    (h : appendAll every gdfa gwinfo ms = some (dfa, winfo, placed)) :
    Whole dfa winfo ∧ (∀ m, Tile gdfa gwinfo m → Tile dfa winfo m) ∧
      ∀ m ∈ placed, Fit m.dfa m.winfo ∧ Tile dfa winfo m ∧ m.newbie = false ∧
        ∃ m' ∈ ms, m.modified = m'.modified := by
  induction ms generalizing gdfa gwinfo placed with
  | nil =>
    obtain ⟨rfl, rfl, rfl⟩ := appendAll_nil h
    exact ⟨hwhole, fun _ => id, nofun⟩
  | cons m ms ih =>
    have hm := hfit m List.mem_cons_self
    have hrest := fun m' hm' => hfit m' (List.mem_cons_of_mem m hm')
    have htiles := fun m' hm' => htile m' (List.mem_cons_of_mem m hm')
    obtain ⟨hplace, dfa₁, winfo₁, rest, happend, hloop, rfl⟩ | ⟨hnot, rest, hloop, rfl⟩ :=
      appendAll_cons h
    · obtain ⟨hwhole', hkept, hplaced⟩ := ih (hwhole.append hm happend) hrest
        (fun m' hm' hnot => (htiles m' hm' hnot).append hwhole hm happend) hloop
      refine ⟨hwhole', fun m' hm' => hkept m' (hm'.append hwhole hm happend),
        List.forall_mem_cons.mpr ⟨?_, fun m' hm' => ?_⟩⟩
      · exact ⟨hm, hkept _ (Tile.placed hwhole hm happend), rfl, m, List.mem_cons_self, rfl⟩
      · obtain ⟨hfit', htile', hnewbie, m'', hm'', hsame⟩ := hplaced m' hm'
        exact ⟨hfit', htile', hnewbie, m'', List.mem_cons_of_mem m hm'', hsame⟩
    · obtain ⟨hwhole', hkept, hplaced⟩ := ih hwhole hrest htiles hloop
      refine ⟨hwhole', hkept, List.forall_mem_cons.mpr ⟨?_, fun m' hm' => ?_⟩⟩
      · exact ⟨hm, hkept _ (htile m List.mem_cons_self hnot), (Bool.or_eq_false_iff.mp hnot).2, m,
          List.mem_cons_self, rfl⟩
      · obtain ⟨hfit', htile', hnewbie, m'', hm'', hsame⟩ := hplaced m' hm'
        exact ⟨hfit', htile', hnewbie, m'', List.mem_cons_of_mem m hm'', hsame⟩

end Append

end HAS.Julius

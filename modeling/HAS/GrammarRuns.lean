import HAS.GrammarUnion

/-! What holds of the grammars of a recogniser after any commands (multi-gram.c). -/
namespace HAS.Julius
open HAS.Bytes HAS.Segments HAS.Expansions

inductive Command
  | add (dfa : DFA_INFO) (winfo : List Word) (name : List Byte)
  | delete (id : Nat)
  | delete_all
  | activate (id : Nat)
  | deactivate (id : Nat)
  | add_words (id : Nat) (winfo : List Word)
  | update

/-- The grammars that are added are closed. -/
def Command.Closed : Command → Prop
  | .add dfa _ _ => dfa.Closed
  | _ => True

def step (sp : Nat) (lm : PROCESS_LM) : Command → Option PROCESS_LM
  | .add dfa winfo name => some (multigram_add dfa winfo name lm)
  | .delete id => some (multigram_delete id lm)
  | .delete_all => some (multigram_delete_all lm)
  | .activate id => some (multigram_activate id lm)
  | .deactivate id => some (multigram_deactivate id lm)
  | .add_words id winfo => multigram_add_words_to_grammar lm id winfo
  | .update => multigram_update sp lm

def run (sp : Nat) (commands : List Command) : Option PROCESS_LM := commands.foldlM (step sp) {}

/-- A new grammar waits; any other has its place, unless words were added to it. -/
structure Settled (gdfa : DFA_INFO) (gwinfo : List Word) (m : MULTIGRAM) : Prop where
  closed : m.dfa.Closed
  ready : m.newbie = false → Ready m.dfa m.winfo
  tile : m.newbie = false → m.modified = false → Tile gdfa gwinfo m
  newbie : m.newbie = true → m.active = false

structure Good (lm : PROCESS_LM) : Prop where
  whole : Whole lm.dfa lm.winfo
  settled : ∀ m ∈ lm.grammars, Settled lm.dfa lm.winfo m

theorem mem_mark {id : Nat} {f : MULTIGRAM → MULTIGRAM} {ms : List MULTIGRAM} {m : MULTIGRAM}
    (h : m ∈ mark id f ms) :
    m ∈ ms ∨ ∃ m', ms.find? (·.id = id) = some m' ∧ m' ∈ ms ∧ m = f m' := by
  induction ms with
  | nil => exact absurd h List.not_mem_nil
  | cons m₁ ms ih =>
    rw [mark] at h
    split at h
    next hid =>
      cases List.mem_cons.mp h with
      | inl heq => exact .inr ⟨m₁, List.find?_cons_of_pos (decide_eq_true hid), List.mem_cons_self, heq⟩
      | inr h => exact .inl (List.mem_cons_of_mem _ h)
    next hid =>
      cases List.mem_cons.mp h with
      | inl heq => exact .inl (heq ▸ List.mem_cons_self)
      | inr h =>
        obtain hmem | ⟨m', hfind, hmem, heq⟩ := ih h
        · exact .inl (List.mem_cons_of_mem _ hmem)
        · refine .inr ⟨m', ?_, List.mem_cons_of_mem _ hmem, heq⟩
          rwa [List.find?_cons_of_neg (by simpa using hid)]

variable {lm lm' : PROCESS_LM} {sp : Nat}

theorem Tile.congr {gdfa : DFA_INFO} {gwinfo : List Word} {m : MULTIGRAM}
    (h : Tile gdfa gwinfo m) (delete activate deactivate modified active : Bool) :
    Tile gdfa gwinfo { m with delete, activate, deactivate, modified, active } :=
  ⟨h.st, h.tw, h.is_sp, h.winfo, h.cp⟩

theorem Settled.mark {gdfa : DFA_INFO} {gwinfo : List Word} {m : MULTIGRAM}
    (h : Settled gdfa gwinfo m) (delete activate deactivate : Bool) :
    Settled gdfa gwinfo { m with delete, activate, deactivate } :=
  ⟨h.closed, h.ready, fun hnewbie hmodified =>
    (h.tile hnewbie hmodified).congr delete activate deactivate m.modified m.active, h.newbie⟩

/-- A command that only marks a grammar. -/
theorem Good.mark (h : Good lm) (id : Nat) {f : MULTIGRAM → MULTIGRAM}
    (hf : ∀ m, Settled lm.dfa lm.winfo m → Settled lm.dfa lm.winfo (f m)) :
    Good { lm with grammars := Julius.mark id f lm.grammars } := by
  refine ⟨h.whole, fun m hm => ?_⟩
  obtain hmem | ⟨m', -, hmem, rfl⟩ := mem_mark hm
  · exact h.settled m hmem
  · exact hf m' (h.settled m' hmem)

theorem Good.add (h : Good lm) {dfa : DFA_INFO} (hclosed : dfa.Closed) (winfo : List Word)
    (name : List Byte) : Good (multigram_add dfa winfo name lm) := by
  refine ⟨h.whole, fun m hm => ?_⟩
  cases List.mem_cons.mp hm with
  | inl heq =>
    subst heq
    exact ⟨hclosed, nofun, nofun, fun _ => rfl⟩
  | inr hm => exact h.settled m hm

theorem Good.add_words (h : Good lm) {id : Nat} {winfo : List Word}
    (heq : multigram_add_words_to_grammar lm id winfo = some lm') : Good lm' := by
  obtain ⟨found, hfound, heq⟩ := Option.bind_eq_some_iff.mp heq
  obtain ⟨all, -, heq⟩ := Option.bind_eq_some_iff.mp heq
  obtain ⟨⟨dfa, words⟩, href, rfl⟩ := Option.map_eq_some_iff.mp heq
  obtain ⟨rfl, hwton⟩ := voca_ref_spec href
  refine ⟨h.whole, fun m hm => ?_⟩
  obtain hmem | ⟨m', hfind, hmem, rfl⟩ := mem_mark hm
  · exact h.settled m hmem
  obtain rfl := Option.some.inj (hfound.symm.trans hfind)
  have hold := h.settled found hmem
  refine ⟨⟨hold.closed.label, hold.closed.to_state, hold.closed.initial⟩, fun hnewbie => ?_, nofun,
    hold.newbie⟩
  have hready := hold.ready hnewbie
  exact ⟨length_make_terminfo _ _, hready.is_sp_length, mem_make_terminfo hwton, hready.cp⟩

theorem Settled.exec_activate {gdfa : DFA_INFO} {gwinfo : List Word} {m : MULTIGRAM}
    (hfit : Fit m.dfa m.winfo) (htile : Tile gdfa gwinfo m) (hnewbie : m.newbie = false) :
    Settled gdfa gwinfo m.exec_activate := by
  rw [MULTIGRAM.exec_activate]
  split
  · exact ⟨hfit.closed, fun _ => hfit.ready, fun _ _ => htile.congr m.delete false m.deactivate m.modified true,
      fun h => absurd (hnewbie.symm.trans h) nofun⟩
  split
  · exact ⟨hfit.closed, fun _ => hfit.ready, fun _ _ => htile.congr m.delete m.activate false m.modified false,
      fun h => absurd (hnewbie.symm.trans h) nofun⟩
  · exact ⟨hfit.closed, fun _ => hfit.ready, fun _ _ => htile,
      fun h => absurd (hnewbie.symm.trans h) nofun⟩

/-- A grammar that is left after the new ones are set up can be put to the others. -/
theorem Settled.setUp {gdfa : DFA_INFO} {gwinfo : List Word} {m : MULTIGRAM}
    (h : Settled gdfa gwinfo m) (hleft : (m.setUp sp).delete = false) :
    Fit (m.setUp sp).dfa (m.setUp sp).winfo ∧
      ((m.setUp sp).newbie = false → m.setUp sp = m ∧ m.newbie = false) := by
  rw [MULTIGRAM.setUp] at hleft ⊢
  split at hleft
  next hnewbie =>
    split at hleft
    next => exact absurd hleft nofun
    next dfa winfo hset =>
      simp only [if_pos hnewbie]
      obtain ⟨hready, hclosed⟩ := setUp_ready h.closed hset
      exact ⟨⟨hready, hclosed⟩, fun hnot => absurd (hnewbie.symm.trans hnot) nofun⟩
  next hnewbie =>
    have hnot := Bool.eq_false_iff.mpr hnewbie
    rw [if_neg hnewbie]
    exact ⟨⟨h.ready hnot, h.closed⟩, fun _ => ⟨rfl, hnot⟩⟩

/-- The grammar has a place that words which were added have not made obsolete. -/
def MULTIGRAM.Placed (m : MULTIGRAM) : Prop := m.newbie = false ∧ m.modified = false

/-- What an update appends, and what to: all grammars to nothing, or the new ones to the rest. -/
structure Updates (lm lm' : PROCESS_LM) (every : Bool) (gdfa : DFA_INFO) (gwinfo : List Word)
    (ms placed : List MULTIGRAM) : Prop where
  whole : Whole gdfa gwinfo
  fit : ∀ m ∈ ms, Fit m.dfa m.winfo
  unmodified : ∀ m ∈ ms, m.modified = false
  tile : ∀ m ∈ ms, (every || m.newbie) = false → Tile gdfa gwinfo m
  kept : ∀ R : MULTIGRAM → MULTIGRAM → Prop,
    lm.grammars.Pairwise (fun m m' => m.Placed → m'.Placed → R m m') →
      ms.Pairwise fun m m' => (every || m.newbie) = false → (every || m'.newbie) = false → R m m'
  append : appendAll every gdfa gwinfo ms = some (lm'.dfa, lm'.winfo, placed)
  grammars : lm'.grammars = placed.map (·.exec_activate)

theorem unmodified_eq {m : MULTIGRAM} (h : m.modified = false) : { m with modified := false } = m := by
  rw [← h]

theorem Good.updates (h : Good lm) (heq : multigram_update sp lm = some lm') :
    ∃ every gdfa gwinfo ms placed, Updates lm lm' every gdfa gwinfo ms placed := by
  simp only [multigram_update] at heq
  generalize hleft : (lm.grammars.map (·.setUp sp)).filter (!·.delete) = left at heq
  obtain ⟨⟨dfa, winfo, placed⟩, happend, rfl⟩ := Option.map_eq_some_iff.mp heq
  have hfrom : ∀ m ∈ left, ∃ m₀ ∈ lm.grammars, m = m₀.setUp sp ∧ m.delete = false := by
    intro m hm
    rw [← hleft] at hm
    obtain ⟨hmem, hdelete⟩ := List.mem_filter.mp hm
    obtain ⟨m₀, hm₀, rfl⟩ := List.mem_map.mp hmem
    exact ⟨m₀, hm₀, rfl, by simpa using hdelete⟩
  have hfit : ∀ m ∈ left.map fun m => { m with modified := false }, Fit m.dfa m.winfo := by
    intro m hm
    obtain ⟨m₁, hm₁, rfl⟩ := List.mem_map.mp hm
    obtain ⟨m₀, hm₀, rfl, hdelete⟩ := hfrom m₁ hm₁
    exact ((h.settled m₀ hm₀).setUp hdelete).1
  have hclear : ∀ m ∈ left.map fun m => { m with modified := false }, m.modified = false := by
    intro m hm
    obtain ⟨m, -, rfl⟩ := List.mem_map.mp hm
    rfl
  split at happend
  next =>
    refine ⟨true, {}, [], _, placed, .blank, hfit, hclear, fun _ _ h => absurd h (by simp),
      fun R _ => ?_, happend, rfl⟩
    exact List.pairwise_of_forall fun m m' h => absurd h (by simp)
  next hrebuild =>
    have hkept : ∀ m ∈ lm.grammars, (m.setUp sp).delete = false → (m.setUp sp).newbie = false →
        m.setUp sp = m ∧ m.Placed := by
      intro m hm hdelete hnewbie
      obtain ⟨hsame, hnot⟩ := ((h.settled m hm).setUp hdelete).2 hnewbie
      refine ⟨hsame, hnot, ?_⟩
      by_contra hne
      have hin : m.setUp sp ∈ left := by
        rw [← hleft]
        exact List.mem_filter.mpr ⟨List.mem_map_of_mem hm, by simpa using hdelete⟩
      refine hrebuild ?_
      rw [Bool.or_eq_true]
      exact .inr (List.any_eq_true.mpr ⟨_, hin, by rw [hsame]; simpa using hne⟩)
    refine ⟨false, lm.dfa, lm.winfo, _, placed, h.whole, hfit, hclear, fun m hm hnewbie => ?_,
      fun R hR => ?_, happend, rfl⟩
    · obtain ⟨m₁, hm₁, rfl⟩ := List.mem_map.mp hm
      obtain ⟨m₀, hm₀, rfl, hdelete⟩ := hfrom m₁ hm₁
      obtain ⟨hsame, hplaced⟩ := hkept m₀ hm₀ hdelete hnewbie
      rw [hsame, unmodified_eq hplaced.2]
      exact (h.settled m₀ hm₀).tile hplaced.1 hplaced.2
    · rw [← hleft, List.pairwise_map, List.pairwise_filter, List.pairwise_map]
      refine hR.imp_of_mem fun {m m'} hm hm' happly hdelete hdelete' hnewbie hnewbie' => ?_
      obtain ⟨hsame, hplaced⟩ := hkept m hm (by simpa using hdelete) hnewbie
      obtain ⟨hsame', hplaced'⟩ := hkept m' hm' (by simpa using hdelete') hnewbie'
      rw [hsame, hsame', unmodified_eq hplaced.2, unmodified_eq hplaced'.2]
      exact happly hplaced hplaced'

theorem Good.update (h : Good lm) (heq : multigram_update sp lm = some lm') :
    Good lm' ∧ ∀ m ∈ lm'.grammars, m.Placed := by
  obtain ⟨every, gdfa, gwinfo, ms, placed, hup⟩ := h.updates heq
  obtain ⟨hwhole, -, hplaced⟩ := appendAll_spec hup.whole hup.fit hup.tile hup.append
  refine ⟨⟨hwhole, fun m hm => ?_⟩, fun m hm => ?_⟩
  · rw [hup.grammars] at hm
    obtain ⟨m₁, hm₁, rfl⟩ := List.mem_map.mp hm
    obtain ⟨hfit, htile, hnewbie, -⟩ := hplaced m₁ hm₁
    exact .exec_activate hfit htile hnewbie
  · rw [hup.grammars] at hm
    obtain ⟨m₁, hm₁, rfl⟩ := List.mem_map.mp hm
    obtain ⟨-, -, hnewbie, m', hm', hsame⟩ := hplaced m₁ hm₁
    have hclear := hsame.trans (hup.unmodified m' hm')
    rw [MULTIGRAM.exec_activate]
    split
    · exact ⟨hnewbie, hclear⟩
    split
    · exact ⟨hnewbie, hclear⟩
    · exact ⟨hnewbie, hclear⟩

theorem Good.step (h : Good lm) {command : Command} (hclosed : command.Closed)
    (heq : step sp lm command = some lm') : Good lm' := by
  cases command with
  | add dfa winfo name =>
    obtain rfl := Option.some.inj heq
    exact h.add hclosed winfo name
  | delete id =>
    obtain rfl := Option.some.inj heq
    exact h.mark id fun m hm => hm.mark true m.activate m.deactivate
  | delete_all =>
    obtain rfl := Option.some.inj heq
    refine ⟨h.whole, fun m hm => ?_⟩
    obtain ⟨m', hm', rfl⟩ := List.mem_map.mp hm
    exact (h.settled m' hm').mark true m'.activate m'.deactivate
  | activate id =>
    obtain rfl := Option.some.inj heq
    exact h.mark id fun m hm => hm.mark m.delete true false
  | deactivate id =>
    obtain rfl := Option.some.inj heq
    exact h.mark id fun m hm => hm.mark m.delete false true
  | add_words id winfo => exact h.add_words heq
  | update => exact (h.update heq).1

/-- An active grammar has its place. -/
theorem Good.placed_of_active (h : Good lm) (hsettled : ∀ m ∈ lm.grammars, m.modified = false)
    {m : MULTIGRAM} (hm : m ∈ lm.grammars) (hactive : m.active = true) :
    m.newbie = false ∧ Fit m.dfa m.winfo ∧ Tile lm.dfa lm.winfo m := by
  have hm' := h.settled m hm
  have hnewbie : m.newbie = false := by
    by_contra hne
    exact absurd (hm'.newbie (by simpa using hne)) (by simp [hactive])
  exact ⟨hnewbie, ⟨hm'.ready hnewbie, hm'.closed⟩, hm'.tile hnewbie (hsettled m hm)⟩

theorem Good.sentences (h : Good lm) (hsettled : ∀ m ∈ lm.grammars, m.modified = false)
    (ws : List Nat) : ws ∈ lm.recogniser.sentences ↔
      ∃ m ∈ lm.grammars, m.active = true ∧ ∃ vs ∈ m.dfa.own.sentences,
        ws = vs.map (· + m.word_begin) := by
  have hunion := sentences_eq (E := lm.recogniser)
    (I := {m | m ∈ lm.grammars ∧ m.active = true})
    (fun m hm => (h.placed_of_active hsettled hm.1 hm.2).2.2.embeds
      (h.placed_of_active hsettled hm.1 hm.2).2.1 _) ?_ ws
  · rw [hunion]
    simp only [Set.mem_ofPred_eq, and_assoc]
  · intro p
    constructor
    · rintro ⟨x, hx, rfl⟩
      obtain ⟨m, hm, hx⟩ := List.mem_flatMap.mp hx
      obtain ⟨hm, hactive⟩ := List.mem_filter.mp hm
      obtain ⟨-, hfit, htile⟩ := h.placed_of_active hsettled hm hactive
      exact ⟨m, ⟨hm, hactive⟩, (htile.mem_firstwords hfit).mp ⟨x, hx, rfl⟩⟩
    · rintro ⟨m, ⟨hm, hactive⟩, hp⟩
      obtain ⟨-, hfit, htile⟩ := h.placed_of_active hsettled hm hactive
      obtain ⟨x, hx, rfl⟩ := (htile.mem_firstwords hfit).mpr hp
      exact ⟨x, List.mem_flatMap.mpr ⟨m, List.mem_filter.mpr ⟨hm, hactive⟩, hx⟩, rfl⟩

end HAS.Julius

import HAS.Wrappers

/-! The call stack of recognitions and of the handlers that they call back, and the Recog
behind each frame. -/
namespace HAS.Reentrancy
open HAS.Run HAS.Wrappers

/-- A frame of Julius::start() in j_recognize_stream, of an object with one Recog, or a
handler in JavaScript that a callback runs. -/
inductive Frame where
  | recognise (object recog : Nat)
  | handler
deriving DecidableEq

structure State where
  /-- Each wrapped Julius owns the Recog with its number. -/
  objects : Nat → Option (Wrapper Nat)
  /-- The number of the next Recog. -/
  next : Nat
  /-- What ~Julius has freed. -/
  freed : List Nat
  stack : List Frame

def start : State := ⟨fun _ => none, 0, [], []⟩

/-- new and call come from a script; callback, handled and finish belong to the
innermost recognition; collect is destruct in a garbage collection. -/
inductive Action where
  | new (object : Nat)
  | call (object : Nat) (args : Arguments) (configured opened : Bool) (m : JuliusMethod)
  | callback
  | handled
  | finish
  | collect (object : Nat)

/-- A script runs at the bottom of the stack and in a handler. -/
def State.scripting (s : State) : Bool :=
  match s.stack with
  | .recognise _ _ :: _ => false
  | _ => true

def State.busy (s : State) (object : Nat) : Bool :=
  s.stack.any fun
    | .recognise o _ => o = object
    | .handler => false

/-- The Recog of the Julius that an object points to. -/
def State.recog (s : State) (object : Nat) : Option Nat :=
  (s.objects object).bind Wrapper.pointer

/-- The object changes, or comes or goes; ~Julius frees the Recog that it had. -/
def State.replace (s : State) (object : Nat) (new : Option (Wrapper Nat)) (next : Nat) : State :=
  { s with
    objects := Function.update s.objects object new
    next := next
    freed := (s.recog object).toList ++ s.freed }

def State.push (s : State) (frame : Frame) : State := { s with stack := frame :: s.stack }

def State.pop (s : State) : State := { s with stack := s.stack.tail }

/-- A call of an exported method. No process is left after a null pointer, an exception
that reaches V8, or exit; start stays on the stack if the stream opens. -/
def call (s : State) (object : Nat) (w : Wrapper Nat) (args : Arguments) (configured : Bool)
    (opened : Bool) (m : JuliusMethod) : Option State :=
  let out := juliusFunc (fun _ => s.next) w args configured m
  match out.ending, m, out.wrapper.pointer with
  | .returned, .init, _ => some (s.replace object (some out.wrapper) (s.next + 1))
  | .returned, .start, some recog =>
    some (if opened then s.push (.recognise object recog) else s)
  | _, _, _ => none

def step (s : State) : Action → Option State
  | .new object =>
    match s.scripting, s.objects object with
    | true, none => some (s.replace object (some Wrapper.new) s.next)
    | _, _ => some s
  | .call object args configured opened m =>
    match s.scripting, s.objects object with
    | true, some w => call s object w args configured opened m
    | _, _ => some s
  | .callback => some (if s.scripting then s else s.push .handler)
  | .handled => some (if s.scripting then s.pop else s)
  | .finish => some (if s.scripting then s else s.pop)
  -- the receiver of a start that has not returned is alive
  | .collect object => some (if s.busy object then s else s.replace object none s.next)

def machine : Machine (Option State) Action Empty :=
  ⟨fun s a => (s.bind fun s => step s a, [])⟩

def State.recogs (s : State) : List Nat :=
  s.stack.filterMap fun
    | .recognise _ recog => some recog
    | .handler => none

/-- No start on the stack has lost its Recog, or shares it with another. -/
structure Safe (s : State) : Prop where
  live : ∀ recog ∈ s.recogs, recog ∉ s.freed
  once : s.recogs.Nodup

/-- The call replaces or starts the Julius of its object. -/
def effective (args : Arguments) (configured opened : Bool) : JuliusMethod → Bool
  | .init => (arg args 0).toString.isSome && configured
  | .start => opened

/-- No handler replaces or starts a Julius whose start is on the stack. -/
def Allowed (s : State) : Action → Prop
  | .call object args configured opened m =>
    s.scripting = true → effective args configured opened m = true → s.busy object = false
  | _ => True

/-- Objects do not share Recogs, and a Recog on the stack is freed or still owned. -/
structure Good (s : State) : Prop where
  unshared : ∀ {o o' recog}, s.recog o = some recog → s.recog o' = some recog → o = o'
  owned : ∀ {o recog}, s.recog o = some recog → recog < s.next ∧ recog ∉ s.freed
  freed_lt : ∀ recog ∈ s.freed, recog < s.next
  framed : ∀ {o recog}, .recognise o recog ∈ s.stack → recog ∈ s.freed ∨ s.recog o = some recog

section
variable {s : State} {object : Nat}

theorem mem_recogs {recog : Nat} : recog ∈ s.recogs ↔ ∃ o, .recognise o recog ∈ s.stack := by
  simp only [State.recogs, List.mem_filterMap]
  constructor
  · intro h
    obtain ⟨frame, hmem, heq⟩ := h
    cases frame with
    | recognise o r => exact ⟨o, Option.some.inj heq ▸ hmem⟩
    | handler => cases heq
  · intro h
    obtain ⟨o, hmem⟩ := h
    exact ⟨_, hmem, rfl⟩

theorem busy_iff : s.busy object = true ↔ ∃ recog, .recognise object recog ∈ s.stack := by
  simp only [State.busy, List.any_eq_true]
  constructor
  · intro h
    obtain ⟨frame, hmem, heq⟩ := h
    cases frame with
    | recognise o r => exact ⟨r, of_decide_eq_true heq ▸ hmem⟩
    | handler => cases heq
  · intro h
    obtain ⟨recog, hmem⟩ := h
    exact ⟨_, hmem, decide_eq_true rfl⟩

theorem recog_replace (new : Option (Wrapper Nat)) (next o : Nat) :
    (s.replace object new next).recog o =
      if o = object then new.bind Wrapper.pointer else s.recog o := by
  simp only [State.recog, State.replace, Function.update_apply]
  split_ifs
  · rfl
  · rfl

theorem mem_freed_replace {new : Option (Wrapper Nat)} {next recog : Nat} :
    recog ∈ (s.replace object new next).freed ↔ s.recog object = some recog ∨ recog ∈ s.freed := by
  simp [State.replace]

/-- A new Recog belongs to nobody else, and only its owner frees a Recog. -/
theorem good_replace (h : Good s) {new : Option (Wrapper Nat)} {next : Nat}
    (hnext : s.next ≤ next)
    (hnew : ∀ recog, new.bind Wrapper.pointer = some recog → recog = s.next ∧ recog < next) :
    Good (s.replace object new next) where
  unshared := by
    intro o o' recog ho ho'
    rw [recog_replace] at ho ho'
    split_ifs at ho ho' with h₁ h₂ h₂
    · exact h₁.trans h₂.symm
    · exact absurd (hnew recog ho).1 (h.owned ho').1.ne
    · exact absurd (hnew recog ho').1 (h.owned ho).1.ne
    · exact h.unshared ho ho'
  owned := by
    intro o recog ho
    rw [mem_freed_replace, not_or]
    rw [recog_replace] at ho
    split_ifs at ho with h₁
    · obtain ⟨rfl, hlt⟩ := hnew recog ho
      refine ⟨hlt, fun hold => ?_, fun hmem => ?_⟩
      · exact absurd (h.owned hold).1 (lt_irrefl _)
      · exact absurd (h.freed_lt _ hmem) (lt_irrefl _)
    · refine ⟨(h.owned ho).1.trans_le hnext, fun hold => ?_, (h.owned ho).2⟩
      exact h₁ (h.unshared ho hold)
  freed_lt := by
    intro recog hmem
    cases mem_freed_replace.mp hmem with
    | inl hold => exact (h.owned hold).1.trans_le hnext
    | inr hmem => exact (h.freed_lt recog hmem).trans_le hnext
  framed := by
    intro o recog hmem
    rw [mem_freed_replace, recog_replace]
    cases h.framed hmem with
    | inl hfreed => exact .inl (.inr hfreed)
    | inr ho =>
      split_ifs with h₁
      · exact .inl (.inl (h₁ ▸ ho))
      · exact .inr ho

theorem good_push (h : Good s) {frame : Frame}
    (hf : ∀ o recog, frame = .recognise o recog → s.recog o = some recog) :
    Good (s.push frame) where
  unshared := h.unshared
  owned := h.owned
  freed_lt := h.freed_lt
  framed := by
    intro o recog hmem
    cases List.mem_cons.mp hmem with
    | inl heq => exact .inr (hf o recog heq.symm)
    | inr hold => exact h.framed hold

theorem good_pop (h : Good s) : Good s.pop where
  unshared := h.unshared
  owned := h.owned
  freed_lt := h.freed_lt
  framed := fun hmem => h.framed (List.mem_of_mem_tail hmem)

theorem safe_pop (h : Safe s) : Safe s.pop where
  live := by
    intro recog hmem
    obtain ⟨o, ho⟩ := mem_recogs.mp hmem
    exact h.live recog (mem_recogs.mpr ⟨o, List.mem_of_mem_tail ho⟩)
  once := h.once.sublist ((List.tail_sublist s.stack).filterMap _)

/-- Under a frame whose object lets go of its Recog, the Recog is gone. -/
theorem safe_replace_iff (h : Good s) (hs : Safe s) (new : Option (Wrapper Nat)) (next : Nat) :
    Safe (s.replace object new next) ↔ s.busy object = false := by
  constructor
  · intro hsafe
    refine Bool.eq_false_iff.mpr fun hbusy => ?_
    obtain ⟨recog, hmem⟩ := busy_iff.mp hbusy
    have hrecog : recog ∈ s.recogs := mem_recogs.mpr ⟨object, hmem⟩
    have howned := (h.framed hmem).resolve_left (hs.live recog hrecog)
    exact hsafe.live recog hrecog (mem_freed_replace.mpr (.inl howned))
  · intro hbusy
    refine ⟨fun recog hrecog hfreed => ?_, hs.once⟩
    have hlive := hs.live recog hrecog
    obtain ⟨o, hmem⟩ := mem_recogs.mp hrecog
    have howned := (h.framed hmem).resolve_left hlive
    have hobject := (mem_freed_replace.mp hfreed).resolve_right hlive
    rw [h.unshared howned hobject] at hmem
    exact absurd (busy_iff.mpr ⟨recog, hmem⟩) (Bool.eq_false_iff.mp hbusy)

/-- A Recog can be started unless its object already has a start on the stack. -/
theorem safe_push_iff (h : Good s) (hs : Safe s) {recog : Nat}
    (howned : s.recog object = some recog) :
    Safe (s.push (.recognise object recog)) ↔ s.busy object = false := by
  have hrecogs : (s.push (.recognise object recog)).recogs = recog :: s.recogs := rfl
  constructor
  · intro hsafe
    refine Bool.eq_false_iff.mpr fun hbusy => ?_
    obtain ⟨recog', hmem⟩ := busy_iff.mp hbusy
    have hrecog' : recog' ∈ s.recogs := mem_recogs.mpr ⟨object, hmem⟩
    have howned' := (h.framed hmem).resolve_left (hs.live recog' hrecog')
    obtain rfl : recog = recog' := Option.some.inj (howned.symm.trans howned')
    have honce := hsafe.once
    rw [hrecogs] at honce
    exact (List.nodup_cons.mp honce).1 hrecog'
  · intro hbusy
    have hnew : recog ∉ s.recogs := by
      intro hrecog
      obtain ⟨o, hmem⟩ := mem_recogs.mp hrecog
      have howned' := (h.framed hmem).resolve_left (hs.live recog hrecog)
      rw [h.unshared howned' howned] at hmem
      exact absurd (busy_iff.mpr ⟨recog, hmem⟩) (Bool.eq_false_iff.mp hbusy)
    refine ⟨fun r hr => ?_, hrecogs ▸ List.nodup_cons.mpr ⟨hnew, hs.once⟩⟩
    cases List.mem_cons.mp (hrecogs ▸ hr) with
    | inl heq => exact heq ▸ (h.owned howned).2
    | inr hold => exact hs.live r hold

theorem not_busy_of_recog_none (h : Good s) (hs : Safe s) (hnone : s.recog object = none) :
    s.busy object = false := by
  refine Bool.eq_false_iff.mpr fun hbusy => ?_
  obtain ⟨recog, hmem⟩ := busy_iff.mp hbusy
  have hlive := hs.live recog (mem_recogs.mpr ⟨object, hmem⟩)
  have howned := (h.framed hmem).resolve_left hlive
  rw [hnone] at howned
  cases howned

theorem call_init (w : Wrapper Nat) (args : Arguments) (configured opened : Bool) :
    call s object w args configured opened .init =
      if effective args configured opened .init then
        some (s.replace object (some ⟨some s.next, true⟩) (s.next + 1))
      else none := by
  cases hjconf : (arg args 0).toString with
  | none => simp [call, juliusFunc, Utf8Value, effective, hjconf, Wrapper.fail]
  | some jconf_path =>
    cases configured with
    | false => simp [call, juliusFunc, Utf8Value, effective, hjconf, Wrapper.fail]
    | true => simp [call, juliusFunc, Utf8Value, effective, hjconf, Wrapper.assign]

theorem call_start (w : Wrapper Nat) (args : Arguments) (configured opened : Bool) :
    call s object w args configured opened .start =
      w.pointer.map fun recog => if opened then s.push (.recognise object recog) else s := by
  obtain ⟨pointer, flag⟩ := w
  cases pointer with
  | none => rfl
  | some recog => rfl

theorem call_good (h : Good s) {w : Wrapper Nat} (hw : s.objects object = some w)
    (args : Arguments) (configured opened : Bool) (m : JuliusMethod) :
    ∀ s' ∈ call s object w args configured opened m, Good s' := by
  intro s' hs'
  cases m with
  | init =>
    rw [call_init] at hs'
    split_ifs at hs'
    · cases hs'
      apply good_replace h (Nat.le_succ _)
      intro recog hrecog
      cases hrecog
      exact ⟨rfl, Nat.lt_succ_self _⟩
    · cases hs'
  | start =>
    rw [call_start] at hs'
    obtain ⟨recog, hrecog, rfl⟩ := Option.map_eq_some_iff.mp hs'
    cases opened with
    | false => exact h
    | true =>
      apply good_push h
      intro o r heq
      cases heq
      rw [State.recog, hw]
      exact hrecog

theorem safe_call_iff (h : Good s) (hs : Safe s) {w : Wrapper Nat}
    (hw : s.objects object = some w) (args : Arguments) (configured opened : Bool)
    (m : JuliusMethod) :
    (∀ s' ∈ call s object w args configured opened m, Safe s') ↔
      (effective args configured opened m = true → s.busy object = false) := by
  cases m with
  | init =>
    rw [call_init]
    cases effective args configured opened .init with
    | false => simp
    | true => simpa using safe_replace_iff h hs _ _
  | start =>
    rw [call_start]
    have hrecog : s.recog object = w.pointer := by rw [State.recog, hw]; rfl
    cases hp : w.pointer with
    | none =>
      have hidle := not_busy_of_recog_none h hs (hrecog.trans hp)
      simp [hidle]
    | some recog =>
      cases opened with
      | false => simpa [effective] using hs
      | true => simpa [effective] using safe_push_iff h hs (hrecog.trans hp)

theorem step_good (h : Good s) (a : Action) : ∀ s' ∈ step s a, Good s' := by
  intro s' hs'
  cases a with
  | new o =>
    simp only [step] at hs'
    split at hs'
    · cases hs'
      exact good_replace h le_rfl (by simp [Wrapper.new])
    · cases hs'
      exact h
  | call o args configured opened m =>
    simp only [step] at hs'
    split at hs'
    next w _ hw => exact call_good h hw args configured opened m s' hs'
    next => cases hs'; exact h
  | callback =>
    simp only [step] at hs'
    cases hs'
    split_ifs
    · exact h
    · exact good_push h (by simp)
  | handled =>
    simp only [step] at hs'
    cases hs'
    split_ifs
    · exact good_pop h
    · exact h
  | finish =>
    simp only [step] at hs'
    cases hs'
    split_ifs
    · exact h
    · exact good_pop h
  | collect o =>
    simp only [step] at hs'
    cases hs'
    split_ifs
    · exact h
    · exact good_replace h le_rfl (by simp)

/-- Only a call on an object whose start is on the stack does harm. -/
theorem safe_step_iff (h : Good s) (hs : Safe s) (a : Action) :
    (∀ s' ∈ step s a, Safe s') ↔ Allowed s a := by
  cases a with
  | new o =>
    refine iff_of_true ?_ trivial
    intro s' hs'
    simp only [step] at hs'
    split at hs'
    next _ hnone =>
      cases hs'
      exact (safe_replace_iff h hs _ _).mpr
        (not_busy_of_recog_none h hs (by rw [State.recog, hnone]; rfl))
    next => cases hs'; exact hs
  | call o args configured opened m =>
    simp only [step, Allowed]
    cases s.scripting with
    | false => simpa using hs
    | true =>
      cases hw : s.objects o with
      | none =>
        have hidle := not_busy_of_recog_none h hs (by rw [State.recog, hw]; rfl)
        simpa [hidle] using hs
      | some w => simpa using safe_call_iff h hs hw args configured opened m
  | callback =>
    refine iff_of_true ?_ trivial
    intro s' hs'
    cases hs'
    split_ifs
    · exact hs
    · exact ⟨hs.live, hs.once⟩
  | handled =>
    refine iff_of_true ?_ trivial
    intro s' hs'
    cases hs'
    split_ifs
    · exact safe_pop hs
    · exact hs
  | finish =>
    refine iff_of_true ?_ trivial
    intro s' hs'
    cases hs'
    split_ifs
    · exact hs
    · exact safe_pop hs
  | collect o =>
    refine iff_of_true ?_ trivial
    intro s' hs'
    cases hs'
    split_ifs with hbusy
    · exact hs
    · exact (safe_replace_iff h hs _ _).mpr (Bool.eq_false_iff.mpr hbusy)

end

theorem good_start : Good start where
  unshared := by intro o o' recog ho; cases ho
  owned := by intro o recog ho; cases ho
  freed_lt := by intro recog hmem; cases hmem
  framed := by intro o recog hmem; cases hmem

theorem safe_start : Safe start := ⟨fun _ hmem => (by cases hmem), List.nodup_nil⟩

/-- Every start keeps its Recog, alive and to itself, exactly in the runs whose handlers
leave the objects on the stack alone. -/
theorem safe_iff_allowed (actions : List Action) :
    (∀ n, ∀ s ∈ machine.run (some start) (actions.take n), Safe s) ↔
      machine.Along (fun o a => ∀ s ∈ o, Allowed s a) (some start) actions := by
  apply Machine.forall_run_take_iff_along (M := machine) (I := fun o => ∀ s ∈ o, Good s)
    (P := fun o => ∀ s ∈ o, Safe s)
  · intro o a h
    cases o with
    | none => simp [machine]
    | some s => exact step_good (h s rfl) a
  · intro o a h hs
    cases o with
    | none => simp [machine]
    | some s => simpa [machine] using safe_step_iff (h s rfl) (hs s rfl) a
  · simpa using good_start
  · simpa using safe_start

/-- onSpeechReady calls Julius.init: the Recog of the running start is freed. -/
theorem init_in_handler_not_safe :
    ¬ ∀ n, ∀ s ∈ machine.run (some start) ([.new 0, .call 0 [] true true .init,
      .call 0 [] true true .start, .callback, .call 0 [] true true .init].take n), Safe s := by
  intro h
  have hsafe := h 5 _ rfl
  exact hsafe.live 0 (by decide) (by decide)

end HAS.Reentrancy

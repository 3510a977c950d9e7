import HAS.Run
import HAS.Wrappers

/-! The class template ExportToJS: the objects that it exports to JavaScript, and the
pointers that its callbacks cast. -/
namespace HAS.ExportToJS
open HAS.Run

section
variable {C : Type}

/-- An object of the exported class, with its internal field, or one without internal
fields: plain, a prototype, or derived from an object of the model. -/
inductive JSObject (C : Type) where
  | instance_ (clazz : C) (field : Nat)
  | ordinary (prototype : Option Nat)

structure State (C : Type) where
  /-- None after a garbage collection. -/
  heap : List (Option (JSObject C))
  /-- The pointer that new returns next. -/
  next : Nat
  /-- What construct has stored. -/
  stored : List (C × Nat)
  /-- What destruct has deleted. -/
  deleted : List Nat

def start : State C := ⟨[], 0, [], []⟩

def State.object (s : State C) (id : Nat) : Option (JSObject C) := (s.heap[id]?).join

inductive Action (C : Type) where
  | construct (clazz : C)
  | plain
  | create (prototype : Nat)
  | collect (object : Nat)

def State.add (s : State C) (o : JSObject C) : State C := { s with heap := s.heap ++ [some o] }

def State.remove (s : State C) (id : Nat) : State C := { s with heap := s.heap.set id none }

def construct (s : State C) (clazz : C) : State C :=
  { s.add (.instance_ clazz s.next) with
    next := s.next + 1
    stored := (clazz, s.next) :: s.stored }

def destruct (s : State C) (id field : Nat) : State C :=
  { s.remove id with deleted := field :: s.deleted }

def JSObject.derivesFrom (id : Nat) : Option (JSObject C) → Bool
  | some (ordinary (some prototype)) => prototype = id
  | _ => false

/-- A garbage collection of one object that no other one refers to. -/
def collect (s : State C) (id : Nat) : State C :=
  if s.heap.any (JSObject.derivesFrom id) then s
  else
    match s.object id with
    | none => s
    | some (.ordinary _) => s.remove id
    | some (.instance_ _ field) => destruct s id field

def step (s : State C) : Action C → State C
  | .construct clazz => construct s clazz
  | .plain => s.add (.ordinary none)
  | .create prototype =>
    match s.object prototype with
    | none => s
    | some _ => s.add (.ordinary (some prototype))
  | .collect id => collect s id

def machine : Machine (State C) (Action C) Empty := ⟨fun s a => (step s a, [])⟩

inductive Receiver where
  /-- undefined, null, or what the call makes an object that is not of kJSObjectType. -/
  | other
  | object (id : Nat)

/-- A method of a class, taken from wherever and called on any receiver, or a property by
its name. -/
inductive Call (C Name : Type) where
  | method (clazz : C)
  | accessor (name : Name)

/-- Object::GetInternalField(0). On an object without internal fields the unchecked read
finds a word that is none. -/
def GetInternalField : JSObject C → Option Nat
  | .instance_ _ field => some field
  | .ordinary _ => none

/-- The object that has the accessor, from the receiver up. A prototype is older than
what is created from it. -/
def Holder {Name : Type} (vars : C → Name → Bool) (s : State C) (name : Name) (id : Nat) :
    Option (C × Nat) :=
  match s.object id with
  | some (.instance_ clazz _) => if vars clazz name then some (clazz, id) else none
  | some (.ordinary (some prototype)) =>
    if prototype < id then Holder vars s name prototype else none
  | _ => none
termination_by id

/-- The class that is cast to and the pointer, where the call comes as far as the cast. -/
def cast {Name : Type} (vars : C → Name → Bool) (s : State C) :
    Call C Name → Receiver → Option (C × Option Nat)
  | _, .other => none
  | .method clazz, .object id => (s.object id).map fun this => (clazz, GetInternalField this)
  | .accessor name, .object id =>
    match Holder vars s name id with
    | none => none
    | some (clazz, holder) =>
      (s.object holder).map fun this => (clazz, GetInternalField this)

/-- What is cast was stored by construct of the class, and destruct has not deleted it. -/
def Sound {Name : Type} (vars : C → Name → Bool) (s : State C) (call : Call C Name)
    (receiver : Receiver) : Prop :=
  ∀ clazz pointer, cast vars s call receiver = some (clazz, pointer) →
    ∃ p, pointer = some p ∧ (clazz, p) ∈ s.stored ∧ p ∉ s.deleted

/-- A method gets an object of its class, if it gets an object at all. -/
def Fits {Name : Type} (s : State C) : Call C Name → Receiver → Prop
  | .method clazz, .object id => ∀ this, s.object id = some this →
    ∃ field, this = .instance_ clazz field
  | _, _ => True

/-- Every instance has its own pointer, stored by its class and not deleted. -/
structure Good (s : State C) : Prop where
  owned : ∀ {id clazz field}, s.object id = some (.instance_ clazz field) →
    (clazz, field) ∈ s.stored ∧ field ∉ s.deleted
  unshared : ∀ {id id' clazz clazz' field}, s.object id = some (.instance_ clazz field) →
    s.object id' = some (.instance_ clazz' field) → id = id'
  typed : ∀ {clazz clazz' field}, (clazz, field) ∈ s.stored → (clazz', field) ∈ s.stored →
    clazz = clazz'
  stored_lt : ∀ {clazz field}, (clazz, field) ∈ s.stored → field < s.next
  deleted_lt : ∀ {field}, field ∈ s.deleted → field < s.next

theorem good_start : Good (start : State C) where
  owned := by intro id clazz field h; cases h
  unshared := by intro id id' clazz clazz' field h; cases h
  typed := by intro clazz clazz' field h; cases h
  stored_lt := by intro clazz field h; cases h
  deleted_lt := by intro field h; cases h

section
variable {s : State C}

section
variable {Name : Type} {vars : C → Name → Bool}

end

end

end

end HAS.ExportToJS

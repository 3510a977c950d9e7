import Mathlib.Data.List.Basic

/-! Protocols that events must follow: from each state an event leads on or is a
violation. Three of them: the life of an object that is initialised and cleared,
writing before reading, and use within an interval. -/
namespace HAS.Typestate

structure Protocol (Q E : Type*) where
  next : Q → E → Option Q

namespace Protocol
variable {Q E F : Type*} (P : Protocol Q E)

def run : Q → List E → Option Q
  | q, [] => some q
  | q, e :: es => (P.next q e).bind fun q' => run q' es

/-- The protocol as seen from events of which only some concern it. -/
def comap (f : F → Option E) : Protocol Q F where
  next q x := match f x with
    | none => some q
    | some e => P.next q e

variable {P}

theorem run_append (q : Q) (es ds : List E) :
    P.run q (es ++ ds) = (P.run q es).bind fun q' => P.run q' ds := by
  induction es generalizing q with
  | nil => rfl
  | cons e es ih =>
    simp only [List.cons_append, run]
    cases P.next q e with
    | none => rfl
    | some q' => exact ih q'

/-- Events that do not change the state. -/
theorem run_stable {q : Q} {es : List E} (h : ∀ e ∈ es, P.next q e = some q) :
    P.run q es = some q := by
  induction es with
  | nil => rfl
  | cons e es ih =>
    rw [run, h e (by simp)]
    exact ih fun d hd => h d (List.mem_cons_of_mem e hd)

end Protocol

inductive Phase where
  | uninitialised | initialised | cleared
deriving DecidableEq, Repr

inductive Op where
  | initialise | use | clear
deriving DecidableEq, Repr

/-- Nothing but initialisation before initialisation, none while initialised, and
nothing else after clearing. -/
def lifecycle : Protocol Phase Op where
  next
    | .initialised, .use => some .initialised
    | .initialised, .clear => some .cleared
    | .uninitialised, .initialise => some .initialised
    | .cleared, .initialise => some .initialised
    | _, _ => none

inductive Access where
  | write | read
deriving DecidableEq, Repr

/-- No reading of what was not written; the state says whether it was. -/
def writtenFirst : Protocol Bool Access where
  next
    | _, .write => some true
    | true, .read => some true
    | false, .read => none

inductive Interval where
  | enter | use | leave
deriving DecidableEq, Repr

/-- Use only between entering and leaving; the state says whether one is inside. -/
def within : Protocol Bool Interval where
  next
    | _, .enter => some true
    | true, .use => some true
    | true, .leave => some false
    | false, _ => none

end HAS.Typestate

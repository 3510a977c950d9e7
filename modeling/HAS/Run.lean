import Mathlib.Data.List.Basic

/-! Machines that answer an action with a new state and with what can be observed of
the step: invariants of whole runs from facts about one step. -/
namespace HAS.Run

structure Machine (S A E : Type*) where
  step : S → A → S × List E

namespace Machine
variable {S A E : Type*} (M : Machine S A E)

def run : S → List A → S
  | s, [] => s
  | s, a :: as => run (M.step s a).1 as

def trace : S → List A → List E
  | _, [] => []
  | s, a :: as => (M.step s a).2 ++ trace (M.step s a).1 as

/-- Every step of the run meets a condition on the state before it and its action. -/
def Along (C : S → A → Prop) : S → List A → Prop
  | _, [] => True
  | s, a :: as => C s a ∧ Along C (M.step s a).1 as

variable {M}

theorem run_append (s : S) (as bs : List A) : M.run s (as ++ bs) = M.run (M.run s as) bs := by
  induction as generalizing s with
  | nil => rfl
  | cons a as ih => exact ih _

theorem run_invariant {I : S → Prop} (hI : ∀ s a, I s → I (M.step s a).1) {s : S} (hs : I s)
    (as : List A) : I (M.run s as) := by
  induction as generalizing s with
  | nil => exact hs
  | cons a as ih => exact ih (hI s a hs)

/-- Two conditions on steps that agree wherever an invariant holds. -/
theorem along_congr {I : S → Prop} {C D : S → A → Prop} (hI : ∀ s a, I s → I (M.step s a).1)
    (h : ∀ s a, I s → (C s a ↔ D s a)) {s : S} (hs : I s) (as : List A) :
    M.Along C s as ↔ M.Along D s as := by
  induction as generalizing s with
  | nil => exact Iff.rfl
  | cons a as ih => exact and_congr (h s a hs) (ih (hI s a hs))

theorem along_forall {ι : Sort*} {C : ι → S → A → Prop} {s : S} (as : List A) :
    M.Along (fun s a => ∀ i, C i s a) s as ↔ ∀ i, M.Along (C i) s as := by
  induction as generalizing s with
  | nil => exact iff_of_true trivial fun _ => trivial
  | cons a as ih => exact (and_congr_right fun _ => ih).trans forall_and.symm

/-- What a step must meet to keep a safe state safe, a whole run must meet at each of its
steps to be safe all the way. -/
theorem forall_run_take_iff_along {I P : S → Prop} {C : S → A → Prop}
    (hI : ∀ s a, I s → I (M.step s a).1)
    (h : ∀ s a, I s → P s → (P (M.step s a).1 ↔ C s a)) {s : S} (hs : I s) (hP : P s)
    (as : List A) : (∀ n, P (M.run s (as.take n))) ↔ M.Along C s as := by
  induction as generalizing s with
  | nil => exact iff_of_true (fun n => by simpa [run] using hP) trivial
  | cons a as ih =>
    constructor
    · intro hall
      have hstep : P (M.step s a).1 := hall 1
      exact ⟨(h s a hs hP).mp hstep, (ih (hI s a hs) hstep).mp fun n => hall (n + 1)⟩
    · intro halong n
      have hstep : P (M.step s a).1 := (h s a hs hP).mpr halong.1
      cases n with
      | zero => exact hP
      | succ n => exact (ih (hI s a hs) hstep).mpr halong.2 n

/-- What is observed was observed at one of the steps. -/
theorem mem_trace_iff {s : S} {as : List A} {e : E} :
    e ∈ M.trace s as ↔ ∃ i a, as[i]? = some a ∧ e ∈ (M.step (M.run s (as.take i)) a).2 := by
  induction as generalizing s with
  | nil => simp [trace]
  | cons a as ih =>
    rw [trace, List.mem_append, ih]
    constructor
    · rintro (h | ⟨i, b, hb, he⟩)
      · exact ⟨0, a, rfl, h⟩
      · exact ⟨i + 1, b, hb, he⟩
    · rintro ⟨i, b, hb, he⟩
      cases i with
      | zero =>
        obtain rfl : a = b := by simpa using hb
        exact .inl he
      | succ i => exact .inr ⟨i, b, hb, he⟩

end Machine

end HAS.Run

import HAS.Run

/-! A register: some actions write a value into it, and it shows the last one written. -/
namespace HAS.Register
open HAS.Run

variable {A V : Type*} (written : A → Option V)

def update (v : V) (a : A) : V := (written a).getD v

/-- The last value written, the initial one before any. -/
def lastWritten (initial : V) (as : List A) : V := (as.filterMap written).getLast?.getD initial

theorem lastWritten_cons (v : V) (a : A) (as : List A) :
    lastWritten written v (a :: as) = lastWritten written (update written v a) as := by
  unfold lastWritten update
  cases h : written a with
  | none => rw [List.filterMap_cons_none h, Option.getD_none]
  | some x =>
    rw [List.filterMap_cons_some h, List.getLast?_cons, Option.getD_some, Option.getD_some]

/-- What a machine shows is a register over a whole run exactly if it is one at every
step. -/
theorem forall_run_take_eq_lastWritten_iff {S E : Type*} {M : Machine S A E} (shown : S → V)
    (s : S) (as : List A) :
    (∀ n, shown (M.run s (as.take n)) = lastWritten written (shown s) (as.take n)) ↔
      M.Along (fun s a => shown (M.step s a).1 = update written (shown s) a) s as := by
  induction as generalizing s with
  | nil => exact iff_of_true (fun n => by simp [Machine.run, lastWritten]) trivial
  | cons a as ih =>
    constructor
    · intro h
      have hstep : shown (M.step s a).1 = update written (shown s) a := by
        have hone := h 1
        rw [List.take_succ_cons, List.take_zero, lastWritten_cons] at hone
        exact hone
      refine ⟨hstep, (ih _).mp fun n => ?_⟩
      have hn := h (n + 1)
      rw [List.take_succ_cons, lastWritten_cons, ← hstep] at hn
      exact hn
    · rintro ⟨hstep, halong⟩ n
      cases n with
      | zero => rfl
      | succ n =>
        rw [List.take_succ_cons, lastWritten_cons, ← hstep]
        exact (ih _).mpr halong n

end HAS.Register

import Mathlib.Data.List.Basic

/-! Commands framed by a start symbol and a terminator of two symbols: what a reader
that splits at the terminator makes of a stream. -/
namespace HAS.Framing
variable {α : Type*} [DecidableEq α] (star cr lf : α)

def frame (body : List α) : List α := star :: body ++ [cr, lf]

/-- The lines that are complete; `line` has what has come since the last terminator. -/
def splitLines (line : List α) : List α → List (List α)
  | [] => []
  | [_] => []
  | a :: b :: rest =>
    if a = cr ∧ b = lf then line :: splitLines [] rest else splitLines (line ++ [a]) (b :: rest)

/-- The commands in a stream, with none for a line that does not begin as one. -/
def commands (stream : List α) : List (Option (List α)) :=
  (splitLines cr lf [] stream).map fun line =>
    if line.head? = some star then some line.tail else none

variable {star cr lf}

theorem splitLines_append {body : List α} (h : cr ∉ body) (line rest : List α) :
    splitLines cr lf line (body ++ cr :: lf :: rest) =
      (line ++ body) :: splitLines cr lf [] rest := by
  induction body generalizing line with
  | nil => simp [splitLines]
  | cons a body ih =>
    have ha : a ≠ cr := fun he => h (by simp [he])
    have hb := ih (fun hm => h (List.mem_cons_of_mem a hm)) (line ++ [a])
    cases body with
    | nil => simp [splitLines, ha]
    | cons b body => simpa [splitLines, ha] using hb

/-- Framed bodies are found again, in order, if none has the first terminator symbol. -/
theorem commands_frames (hs : star ≠ cr) {bodies : List (List α)} (h : ∀ b ∈ bodies, cr ∉ b) :
    commands star cr lf (bodies.flatMap (frame star cr lf)) = bodies.map some := by
  induction bodies with
  | nil => rfl
  | cons b bodies ih =>
    have hb : cr ∉ star :: b := by
      rw [List.mem_cons, not_or]
      exact ⟨hs.symm, h b (by simp)⟩
    have hrest := ih fun d hd => h d (List.mem_cons_of_mem b hd)
    have hcons : (b :: bodies).flatMap (frame star cr lf) =
        (star :: b) ++ cr :: lf :: bodies.flatMap (frame star cr lf) := by
      simp [frame]
    rw [commands, hcons, splitLines_append hb, List.map_cons, ← commands, hrest]
    simp

end HAS.Framing

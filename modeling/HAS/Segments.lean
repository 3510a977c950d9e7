import Mathlib.Data.List.Basic
import Mathlib.Tactic.Common

/-! Lists that are appended to a longer one and keep their places there, counted from where they
begin. -/
namespace HAS.Segments
variable {α β : Type*} {whole : List β} {start : Nat} {f : Nat → α → β} {part : List α}

/-- From a place on, the long list has the images of the members of the short one. -/
def Segment (whole : List β) (start : Nat) (f : Nat → α → β) (part : List α) : Prop :=
  ∀ i a, part[i]? = some a → whole[i + start]? = some (f i a)

theorem Segment.append (h : Segment whole start f part) (more : List β) :
    Segment (whole ++ more) start f part := by
  intro i a hi
  have hwhole := h i a hi
  rw [List.getElem?_append_left (List.getElem?_eq_some_iff.mp hwhole).1]
  exact hwhole

theorem Segment.last (whole : List β) (f : Nat → α → β) (part : List α) :
    Segment (whole ++ part.mapIdx f) whole.length f part := by
  intro i a hi
  rw [List.getElem?_append_right (Nat.le_add_left _ _), Nat.add_sub_cancel, List.getElem?_mapIdx, hi]
  rfl

theorem Segment.last_map (whole : List β) (g : α → β) (part : List α) :
    Segment (whole ++ part.map g) whole.length (fun _ => g) part := by
  intro i a hi
  rw [List.getElem?_append_right (Nat.le_add_left _ _), Nat.add_sub_cancel, List.getElem?_map, hi]
  rfl

/-- Where the short list has something, the long one has nothing else. -/
theorem Segment.getElem? (h : Segment whole start f part) {i : Nat} (hi : i < part.length) :
    whole[i + start]? = (part[i]?).map (f i) := by
  have hpart := List.getElem?_eq_getElem hi
  rw [h i _ hpart, hpart]
  rfl

end HAS.Segments

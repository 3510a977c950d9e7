import Mathlib

/-! A set kept as an ascending list: where the halving of a range ends, and what inserting and
removing there does to the members. -/
namespace HAS.SortedTable
variable {α : Type*} [LinearOrder α] {list : List α} {key : α}

/-- Halve a range until one place is left. -/
def bisect (list : List α) (key : α) : Nat → Nat → Nat → Nat
  | 0, left, _ => left
  | fuel + 1, left, right =>
    if left < right then
      let mid := (left + right) / 2
      if list[mid]?.any (· < key) then bisect list key fuel (mid + 1) right
      else bisect list key fuel left mid
    else left

def Sorted (list : List α) : Prop := list.Pairwise (· < ·)

/-- The place of a key: the members before it are smaller, the others are not. -/
structure Place (list : List α) (key : α) (loc : Nat) : Prop where
  le : loc ≤ list.length
  before : ∀ i (h : i < list.length), i < loc → list[i] < key
  behind : ∀ i (h : i < list.length), loc ≤ i → key ≤ list[i]

theorem Sorted.lt (h : Sorted list) {i j : Nat} (hij : i < j) (hj : j < list.length) :
    list[i] < list[j] :=
  List.pairwise_iff_getElem.mp h i j (Nat.lt_trans hij hj) hj hij

/-- Everything left of the range is smaller; its right end is not, unless it is the last place. -/
theorem bisect_spec (h : Sorted list) {fuel left right : Nat} (hfuel : right ≤ left + fuel)
    (hle : left ≤ right) (hright : right < list.length)
    (hbefore : ∀ i (hi : i < list.length), i < left → list[i] < key)
    (hbehind : right + 1 < list.length → key ≤ list[right]) :
    ∃ hlt : bisect list key fuel left right < list.length,
      (∀ i (hi : i < list.length), i < bisect list key fuel left right → list[i] < key) ∧
      (bisect list key fuel left right + 1 < list.length →
        key ≤ list[bisect list key fuel left right]) := by
  induction fuel generalizing left right with
  | zero =>
    obtain rfl : left = right := by omega
    exact ⟨hright, hbefore, hbehind⟩
  | succ fuel ih =>
    rw [bisect]
    by_cases hlr : left < right
    · rw [if_pos hlr]
      have hmid : (left + right) / 2 < list.length := by omega
      simp only [List.getElem?_eq_getElem hmid, Option.any_some, decide_eq_true_eq]
      by_cases hkey : list[(left + right) / 2] < key
      · simp only [if_pos hkey]
        refine ih (by omega) (by omega) hright (fun i hi hlt => ?_) hbehind
        by_cases himid : i = (left + right) / 2
        · exact (by simpa only [himid] using hkey)
        · exact (h.lt (by omega) hmid).trans hkey
      · simp only [if_neg hkey]
        exact ih (by omega) (by omega) hmid hbefore fun _ => not_lt.mp hkey
    · simp only [if_neg hlr]
      obtain rfl : left = right := by omega
      exact ⟨hright, hbefore, hbehind⟩

/-- Halving the whole list. -/
theorem bisect_all (h : Sorted list) (hne : list ≠ []) (key : α) :
    ∃ hlt : bisect list key list.length 0 (list.length - 1) < list.length,
      (∀ i (hi : i < list.length), i < bisect list key list.length 0 (list.length - 1) →
        list[i] < key) ∧
      (bisect list key list.length 0 (list.length - 1) + 1 < list.length →
        key ≤ list[bisect list key list.length 0 (list.length - 1)]) := by
  have hlen : 0 < list.length := List.length_pos_iff.mpr hne
  exact bisect_spec h (by omega) (Nat.zero_le _) (by omega) (fun i _ hi => absurd hi (Nat.not_lt_zero i))
    (by omega)

theorem Place.mem_iff {loc : Nat} (h : Sorted list) (hp : Place list key loc) :
    key ∈ list ↔ list[loc]? = some key := by
  constructor
  · intro hmem
    obtain ⟨i, hi, rfl⟩ := List.mem_iff_getElem.mp hmem
    have hle : loc ≤ i := by
      by_contra hlt
      exact absurd (hp.before i hi (by omega)) (lt_irrefl _)
    obtain rfl | hlt := Nat.eq_or_lt_of_le hle
    · exact List.getElem?_eq_getElem hi
    · have hloc : loc < list.length := by omega
      exact absurd (h.lt hlt hi) (not_lt.mpr (hp.behind loc hloc (Nat.le_refl loc)))
  · exact List.mem_of_getElem?

/-- A key that is missing is inserted at its place. -/
theorem Place.sorted_insert {loc : Nat} (h : Sorted list) (hp : Place list key loc)
    (hkey : key ∉ list) : Sorted (list.take loc ++ key :: list.drop loc) := by
  have hbefore : ∀ a ∈ list.take loc, a < key := by
    intro a ha
    obtain ⟨i, hi, rfl⟩ := List.mem_iff_getElem.mp ha
    rw [List.length_take] at hi
    rw [List.getElem_take]
    exact hp.before i (by omega) (by omega)
  have hbehind : ∀ a ∈ list.drop loc, key < a := by
    intro a ha
    obtain ⟨i, hi, rfl⟩ := List.mem_iff_getElem.mp ha
    rw [List.length_drop] at hi
    rw [List.getElem_drop]
    refine lt_of_le_of_ne (hp.behind (loc + i) (by omega) (Nat.le_add_right _ _)) fun heq => ?_
    exact hkey (heq ▸ List.getElem_mem _)
  have hcut : Sorted (list.take loc ++ list.drop loc) := (List.take_append_drop loc list).symm ▸ h
  obtain ⟨htake, hdrop, hacross⟩ := List.pairwise_append.mp hcut
  refine List.pairwise_append.mpr ⟨htake, List.pairwise_cons.mpr ⟨hbehind, hdrop⟩, ?_⟩
  intro a ha b hb
  cases List.mem_cons.mp hb with
  | inl heq => exact heq ▸ hbefore a ha
  | inr hb => exact hacross a ha b hb

omit [LinearOrder α] in
theorem mem_insert {loc : Nat} {a : α} :
    a ∈ list.take loc ++ key :: list.drop loc ↔ a = key ∨ a ∈ list := by
  rw [List.mem_append, List.mem_cons, or_left_comm, ← List.mem_append, List.take_append_drop]

theorem Sorted.eraseIdx (h : Sorted list) (loc : Nat) : Sorted (list.eraseIdx loc) :=
  List.Pairwise.sublist (List.eraseIdx_sublist list loc) h

/-- A key is removed from its place. -/
theorem mem_eraseIdx {loc : Nat} (h : Sorted list) (hloc : list[loc]? = some key) {a : α} :
    a ∈ list.eraseIdx loc ↔ a ≠ key ∧ a ∈ list := by
  obtain ⟨hlt, hkey⟩ := List.getElem?_eq_some_iff.mp hloc
  have hcut : Sorted (list.take loc ++ list[loc] :: list.drop (loc + 1)) := by
    rw [← List.drop_eq_getElem_cons hlt, List.take_append_drop]
    exact h
  have hlist : list = list.take loc ++ key :: list.drop (loc + 1) := by
    rw [← hkey, ← List.drop_eq_getElem_cons hlt, List.take_append_drop]
  obtain ⟨-, hdrop, hacross⟩ := List.pairwise_append.mp hcut
  rw [hkey] at hdrop hacross
  rw [List.eraseIdx_eq_take_drop_succ, List.mem_append]
  nth_rewrite 3 [hlist]
  rw [List.mem_append, List.mem_cons]
  constructor
  · intro hmem
    cases hmem with
    | inl hmem => exact ⟨(hacross a hmem key List.mem_cons_self).ne, .inl hmem⟩
    | inr hmem => exact ⟨((List.pairwise_cons.mp hdrop).1 a hmem).ne', .inr (.inr hmem)⟩
  · intro ⟨hne, hmem⟩
    exact hmem.imp_right fun h => h.resolve_left hne

end HAS.SortedTable

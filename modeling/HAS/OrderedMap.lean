import Mathlib.Order.Lattice
import Mathlib.Data.List.Pairwise
import Mathlib.Data.List.Perm.Basic
import Mathlib.Data.List.Nodup

/-! A map kept as a list in strict key order, as std::map keeps it: an insertion does
not replace, and a scan visits the keys from the least one on. -/
namespace HAS

structure OrderedMap (K V : Type*) [LinearOrder K] where
  entries : List (K × V)
  sorted : entries.Pairwise (·.1 < ·.1)
deriving DecidableEq

namespace OrderedMap
variable {K V : Type*} [LinearOrder K]

/-- A map is determined by which entries it has. -/
@[ext] theorem ext {m n : OrderedMap K V} (h : ∀ e, e ∈ m.entries ↔ e ∈ n.entries) : m = n := by
  obtain ⟨es, hes⟩ := m
  obtain ⟨ds, hds⟩ := n
  have hnodup {l : List (K × V)} (hl : l.Pairwise (·.1 < ·.1)) : l.Nodup :=
    hl.imp fun hlt heq => hlt.ne (congrArg Prod.fst heq)
  have hperm : es.Perm ds := (List.perm_ext_iff_of_nodup (hnodup hes) (hnodup hds)).mpr h
  have heq : es = ds := hperm.eq_of_pairwise (fun _ _ _ _ h₁ h₂ => absurd h₁ h₂.asymm) hes hds
  subst heq
  rfl

def empty : OrderedMap K V := ⟨[], .nil⟩

def HasKey (m : OrderedMap K V) (k : K) : Prop := ∃ e ∈ m.entries, e.1 = k

def insertEntry (k : K) (v : V) : List (K × V) → List (K × V)
  | [] => [(k, v)]
  | e :: es => if k < e.1 then (k, v) :: e :: es
               else if k = e.1 then e :: es else e :: insertEntry k v es

theorem mem_insertEntry {k : K} {v : V} {es : List (K × V)} (h : es.Pairwise (·.1 < ·.1))
    (e : K × V) :
    e ∈ insertEntry k v es ↔ e ∈ es ∨ (e = (k, v) ∧ ∀ d ∈ es, d.1 ≠ k) := by
  induction es with
  | nil => simp [insertEntry]
  | cons x es ih =>
    obtain ⟨hx, hes⟩ := List.pairwise_cons.mp h
    simp only [insertEntry]
    split_ifs with hlt heq
    · have hne : ∀ d ∈ x :: es, d.1 ≠ k := by
        intro d hd
        rcases List.mem_cons.mp hd with rfl | hd
        · exact hlt.ne'
        · exact (lt_trans hlt (hx d hd)).ne'
      rw [List.mem_cons (a := e)]
      exact ⟨fun hm => hm.elim (fun he => .inr ⟨he, hne⟩) .inl,
        fun hm => hm.elim .inr fun he => .inl he.1⟩
    · refine ⟨.inl, fun hm => hm.elim id fun he => ?_⟩
      exact absurd heq.symm (he.2 x (by simp))
    · have hk : x.1 ≠ k := fun he => heq he.symm
      simp only [List.mem_cons, ih hes, or_assoc, forall_eq_or_imp, hk, ne_eq, not_false_eq_true,
        true_and]

theorem sorted_insertEntry {es : List (K × V)} (h : es.Pairwise (·.1 < ·.1)) (k : K) (v : V) :
    (insertEntry k v es).Pairwise (·.1 < ·.1) := by
  induction es with
  | nil => simp [insertEntry]
  | cons x es ih =>
    obtain ⟨hx, hes⟩ := List.pairwise_cons.mp h
    simp only [insertEntry]
    split_ifs with hlt heq
    · refine List.pairwise_cons.mpr ⟨fun e he => ?_, h⟩
      rcases List.mem_cons.mp he with rfl | he
      · exact hlt
      · exact lt_trans hlt (hx e he)
    · exact h
    · refine List.pairwise_cons.mpr ⟨fun e he => ?_, ih hes⟩
      rcases (mem_insertEntry hes e).mp he with he | ⟨rfl, _⟩
      · exact hx e he
      · exact lt_of_le_of_ne (not_lt.mp hlt) fun hk => heq hk.symm

/-- std::map::insert: an entry that is there keeps its value. -/
def insert (m : OrderedMap K V) (e : K × V) : OrderedMap K V :=
  ⟨insertEntry e.1 e.2 m.entries, sorted_insertEntry m.sorted e.1 e.2⟩

theorem mem_insert {m : OrderedMap K V} {d e : K × V} :
    e ∈ (m.insert d).entries ↔ e ∈ m.entries ∨ (e = d ∧ ¬ m.HasKey d.1) := by
  simp only [insert, mem_insertEntry m.sorted, HasKey, not_exists, not_and]

theorem hasKey_insert {m : OrderedMap K V} {d : K × V} {k : K} :
    (m.insert d).HasKey k ↔ m.HasKey k ∨ d.1 = k := by
  constructor
  · rintro ⟨e, he, rfl⟩
    rcases mem_insert.mp he with he | ⟨rfl, _⟩
    · exact .inl ⟨e, he, rfl⟩
    · exact .inr rfl
  · rintro (⟨e, he, rfl⟩ | rfl)
    · exact ⟨e, mem_insert.mpr (.inl he), rfl⟩
    · by_cases h : m.HasKey d.1
      · obtain ⟨e, he, hk⟩ := h
        exact ⟨e, mem_insert.mpr (.inl he), hk⟩
      · exact ⟨d, mem_insert.mpr (.inr ⟨rfl, h⟩), rfl⟩

theorem insert_eq_self_iff (m : OrderedMap K V) (d : K × V) : m.insert d = m ↔ m.HasKey d.1 := by
  constructor
  · intro h
    by_contra hn
    have hd : d ∈ (m.insert d).entries := mem_insert.mpr (.inr ⟨rfl, hn⟩)
    rw [h] at hd
    exact hn ⟨d, hd, rfl⟩
  · intro h
    ext e
    rw [mem_insert]
    exact ⟨fun he => he.elim id fun hd => absurd h hd.2, .inl⟩

/-- Insertions in the order of a list. -/
def insertAll (m : OrderedMap K V) (es : List (K × V)) : OrderedMap K V := es.foldl insert m

/-- Of several entries with one key the first one is kept. -/
theorem mem_insertAll [DecidableEq K] {m : OrderedMap K V} {es : List (K × V)} {e : K × V} :
    e ∈ (m.insertAll es).entries ↔
      e ∈ m.entries ∨ (es.find? (·.1 = e.1) = some e ∧ ¬ m.HasKey e.1) := by
  induction es generalizing m with
  | nil => simp [insertAll]
  | cons d es ih =>
    have h := ih (m := m.insert d)
    rw [insertAll, List.foldl_cons, ← insertAll, h, mem_insert, hasKey_insert]
    by_cases hk : d.1 = e.1
    · have hf : (d :: es).find? (·.1 = e.1) = some d := by simp [hk]
      rw [hf, hk]
      constructor
      · rintro ((he | ⟨rfl, hn⟩) | ⟨_, hn⟩)
        · exact .inl he
        · exact .inr ⟨rfl, hn⟩
        · exact absurd (.inr rfl) hn
      · rintro (he | ⟨hd, hn⟩)
        · exact .inl (.inl he)
        · exact .inl (.inr ⟨(Option.some.inj hd).symm, hn⟩)
    · have hf : (d :: es).find? (·.1 = e.1) = es.find? (·.1 = e.1) := by simp [hk]
      have hne : e ≠ d := fun he => hk (he ▸ rfl)
      rw [hf]
      simp [hk, hne]

theorem hasKey_insertAll {m : OrderedMap K V} {es : List (K × V)} {k : K} :
    (m.insertAll es).HasKey k ↔ m.HasKey k ∨ k ∈ es.map (·.1) := by
  induction es generalizing m with
  | nil => simp [insertAll]
  | cons d es ih =>
    rw [insertAll, List.foldl_cons, ← insertAll, ih, hasKey_insert, or_assoc, List.map_cons,
      List.mem_cons, eq_comm]

theorem insertAll_eq_self_iff (m : OrderedMap K V) (es : List (K × V)) :
    m.insertAll es = m ↔ ∀ e ∈ es, m.HasKey e.1 := by
  induction es generalizing m with
  | nil => simp [insertAll]
  | cons d es ih =>
    rw [insertAll, List.foldl_cons, ← insertAll, List.forall_mem_cons]
    constructor
    · intro h
      have hd : m.HasKey d.1 := by
        by_contra hn
        have hm : d ∈ ((m.insert d).insertAll es).entries :=
          mem_insertAll.mpr (.inl (mem_insert.mpr (.inr ⟨rfl, hn⟩)))
        rw [h] at hm
        exact hn ⟨d, hm, rfl⟩
      have hi := (insert_eq_self_iff m d).mpr hd
      rw [hi] at h
      exact ⟨hd, (ih m).mp h⟩
    · rintro ⟨hd, hes⟩
      rw [(insert_eq_self_iff m d).mpr hd]
      exact (ih m).mpr hes

/-- Whatever their order, entries with distinct keys make the same map. -/
theorem insertAll_perm {es ds : List (K × V)} (hp : es.Perm ds) (hn : (es.map (·.1)).Nodup) :
    (empty : OrderedMap K V).insertAll es = empty.insertAll ds := by
  have hfind {l : List (K × V)} (hl : (l.map (·.1)).Nodup) (e : K × V) :
      l.find? (·.1 = e.1) = some e ↔ e ∈ l := by
    refine ⟨List.mem_of_find?_eq_some, fun he => ?_⟩
    obtain ⟨d, hd⟩ : ∃ d, l.find? (·.1 = e.1) = some d := by
      refine Option.isSome_iff_exists.mp (List.find?_isSome.mpr ⟨e, he, by simp⟩)
    have hk : d.1 = e.1 := by simpa using List.find?_some hd
    rw [hd, List.inj_on_of_nodup_map hl (List.mem_of_find?_eq_some hd) he hk]
  have hn' : (ds.map (·.1)).Nodup := (hp.map _).nodup_iff.mp hn
  ext e
  rw [mem_insertAll, mem_insertAll, hfind hn, hfind hn', hp.mem_iff]

/-- A scan in key order stops at the least of the keys it looks for. -/
theorem find_entries_iff {m : OrderedMap K V} {p : K → Bool} {e : K × V} :
    m.entries.find? (fun e => p e.1) = some e ↔
      e ∈ m.entries ∧ p e.1 ∧ ∀ d ∈ m.entries, p d.1 → e.1 ≤ d.1 := by
  obtain ⟨es, hes⟩ := m
  simp only
  induction es with
  | nil => simp
  | cons x es ih =>
    obtain ⟨hx, hes⟩ := List.pairwise_cons.mp hes
    by_cases hp : p x.1 = true
    · rw [List.find?_cons_of_pos (p := fun e : K × V => p e.1) hp]
      constructor
      · rintro ⟨⟩
        refine ⟨by simp, hp, fun d hd _ => ?_⟩
        rcases List.mem_cons.mp hd with rfl | hd
        · exact le_rfl
        · exact (hx d hd).le
      · rintro ⟨he, _, hle⟩
        rcases List.mem_cons.mp he with rfl | he
        · rfl
        · exact absurd (hle x (by simp) hp) (hx e he).not_ge
    · rw [List.find?_cons_of_neg (p := fun e : K × V => p e.1) hp, ih hes]
      simp only [List.mem_cons, forall_eq_or_imp, hp, Bool.false_eq_true, false_implies, true_and]
      constructor
      · rintro ⟨he, hpe, hle⟩
        exact ⟨.inr he, hpe, hle⟩
      · rintro ⟨rfl | he, hpe, hle⟩
        · exact absurd hpe hp
        · exact ⟨he, hpe, hle⟩

end OrderedMap
end HAS

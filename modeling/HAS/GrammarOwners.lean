import HAS.GrammarRuns

/-! Which grammar a word of the recogniser belongs to, and what the first pass permits. -/
namespace HAS.Julius
open HAS.Bytes HAS.Segments HAS.Expansions

def MULTIGRAM.HasWord (m : MULTIGRAM) (w : Nat) : Prop :=
  m.word_begin ≤ w ∧ w < m.word_begin + m.winfo.length

def MULTIGRAM.HasCategory (m : MULTIGRAM) (c : Nat) : Prop :=
  m.cate_begin ≤ c ∧ c < m.cate_begin + m.dfa.term_num

/-- Two grammars share neither words nor categories. -/
def Apart (m m' : MULTIGRAM) : Prop :=
  (∀ w, m.HasWord w → ¬ m'.HasWord w) ∧ ∀ c, m.HasCategory c → ¬ m'.HasCategory c

theorem Apart.symm {m m' : MULTIGRAM} (h : Apart m m') : Apart m' m :=
  ⟨fun w hw hw' => h.1 w hw' hw, fun c hc hc' => h.2 c hc' hc⟩

section Append
variable {gdfa dfa : DFA_INFO} {gwinfo winfo : List Word} {m : MULTIGRAM}

theorem Tile.word_lt (h : Tile gdfa gwinfo m) {w : Nat} (hw : m.HasWord w) : w < gwinfo.length := by
  obtain ⟨v, rfl⟩ := Nat.exists_eq_add_of_le' hw.1
  have hv : v < m.winfo.length := by
    have := hw.2
    omega
  exact (List.getElem?_eq_some_iff.mp (h.winfo v _ (List.getElem?_eq_getElem hv))).1

theorem Tile.category_lt (h : Tile gdfa gwinfo m) (hwhole : Whole gdfa gwinfo)
    (hfit : Fit m.dfa m.winfo) {c : Nat} (hc : m.HasCategory c) : c < gdfa.term_num := by
  obtain ⟨d, rfl⟩ := Nat.exists_eq_add_of_le' hc.1
  have hd : d < m.dfa.tw.length := by
    have := hc.2
    rw [hfit.ready.tw_length]
    omega
  rw [← hwhole.tw_length]
  exact (List.getElem?_eq_some_iff.mp (h.tw d _ (List.getElem?_eq_getElem hd))).1

/-- A grammar lies before those that are appended behind it. -/
theorem Tile.apart (h : Tile gdfa gwinfo m) (hwhole : Whole gdfa gwinfo) (hfit : Fit m.dfa m.winfo)
    {m' : MULTIGRAM} (hword : gwinfo.length ≤ m'.word_begin)
    (hcate : gdfa.term_num ≤ m'.cate_begin) : Apart m m' := by
  refine ⟨fun w hw hw' => ?_, fun c hc hc' => ?_⟩
  · have := h.word_lt hw
    have := hw'.1
    omega
  · have := h.category_lt hwhole hfit hc
    have := hc'.1
    omega

end Append

variable {lm lm' : PROCESS_LM} {sp : Nat}

def Spread (ms : List MULTIGRAM) : Prop := ms.Pairwise fun m m' => m.Placed → m'.Placed → Apart m m'

/-- One grammar can stand for another that had a place. -/
def Alike (m m' : MULTIGRAM) : Prop :=
  m'.Placed → m.Placed ∧ (∀ w, m'.HasWord w → m.HasWord w) ∧ ∀ c, m'.HasCategory c → m.HasCategory c

theorem Alike.refl (m : MULTIGRAM) : Alike m m := fun h => ⟨h, fun _ => id, fun _ => id⟩

theorem Alike.apart {m₁ m₂ m₁' m₂' : MULTIGRAM} (h₁ : Alike m₁ m₁') (h₂ : Alike m₂ m₂')
    (h : m₁.Placed → m₂.Placed → Apart m₁ m₂) (hp₁ : m₁'.Placed) (hp₂ : m₂'.Placed) :
    Apart m₁' m₂' := by
  obtain ⟨hplaced₁, hword₁, hcate₁⟩ := h₁ hp₁
  obtain ⟨hplaced₂, hword₂, hcate₂⟩ := h₂ hp₂
  have hapart := h hplaced₁ hplaced₂
  exact ⟨fun w hw hw' => hapart.1 w (hword₁ w hw) (hword₂ w hw'),
    fun c hc hc' => hapart.2 c (hcate₁ c hc) (hcate₂ c hc')⟩

theorem Spread.map {ms : List MULTIGRAM} (h : Spread ms) {f : MULTIGRAM → MULTIGRAM}
    (hf : ∀ m, Alike m (f m)) : Spread (ms.map f) :=
  List.pairwise_map.mpr (h.imp fun {m m'} hapart => (hf m).apart (hf m') hapart)

theorem Spread.mark {ms : List MULTIGRAM} (h : Spread ms) (id : Nat) {f : MULTIGRAM → MULTIGRAM}
    (hf : ∀ m, Alike m (f m)) : Spread (Julius.mark id f ms) := by
  induction ms with
  | nil => exact .nil
  | cons m ms ih =>
    obtain ⟨hfirst, hothers⟩ := List.pairwise_cons.mp h
    rw [Julius.mark]
    split
    next =>
      exact List.pairwise_cons.mpr ⟨fun m' hm' => (hf m).apart (.refl m') (hfirst m' hm'), hothers⟩
    next =>
      refine List.pairwise_cons.mpr ⟨fun m' hm' => ?_, ih hothers⟩
      obtain hmem | ⟨m₀, -, hmem, rfl⟩ := mem_mark hm'
      · exact hfirst m' hmem
      · exact (Alike.refl m).apart (hf m₀) (hfirst m₀ hmem)

section Owner
variable {m : MULTIGRAM}

theorem Ready.category_lt {dfa : DFA_INFO} {winfo : List Word} (h : Ready dfa winfo) {w : Nat}
    (hw : w < winfo.length) : category winfo w < dfa.term_num := by
  have hword := List.getElem?_eq_getElem hw
  have hmem := (h.mem_tw (category winfo w) w).mpr ⟨winfo[w], hword, by rw [category, hword]; rfl⟩
  by_contra hle
  rw [List.getElem?_eq_none (by rw [h.tw_length]; omega)] at hmem
  exact absurd hmem List.not_mem_nil

theorem Tile.category {gdfa : DFA_INFO} {gwinfo : List Word} (h : Tile gdfa gwinfo m) {w : Nat}
    (hw : w < m.winfo.length) :
    category gwinfo (w + m.word_begin) = category m.winfo w + m.cate_begin := by
  rw [Julius.category, Julius.category, h.winfo.getElem? hw, List.getElem?_eq_getElem hw]
  rfl

end Owner

theorem Permitted.shift {cp gcp : CPAIR} {cs : List Nat} {offset : Nat} (h : Permitted cp cs)
    (hslots : ∀ slot : Slot, cp.get slot = true → gcp.get (slot.shift offset) = true) :
    Permitted gcp (cs.map (· + offset)) := by
  refine ⟨(List.isChain_map _).mpr (h.chain.imp fun c d hpair => hslots (.pair d c) hpair),
    fun c hc => ?_, fun c hc => ?_⟩
  · rw [List.head?_map] at hc
    obtain ⟨d, hd, rfl⟩ := Option.map_eq_some_iff.mp hc
    exact hslots (.last d) (h.last d hd)
  · rw [List.getLast?_map] at hc
    obtain ⟨d, hd, rfl⟩ := Option.map_eq_some_iff.mp hc
    exact hslots (.first d) (h.first d hd)

end HAS.Julius

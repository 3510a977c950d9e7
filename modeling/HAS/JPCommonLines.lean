import HAS.JPCommonSafe

/-! What the lines of a label say: counts by owner, flags that tell the bounds of the breath
groups, and the room the lines need. -/
namespace HAS.JPCommon
open HAS.Bytes HAS.Text2mecab HAS.IRemocon HAS.Blocks HAS.Stdio

/-- "ワン、ヨルヨ？" -/
def sample : List Node :=
  [⟨utf8 "ワン", utf8 "その他", utf8 "*", utf8 "*", 1, 0⟩,
    ⟨utf8 "、", utf8 "その他", utf8 "*", utf8 "*", 0, 0⟩,
    ⟨utf8 "ヨル", utf8 "その他", utf8 "*", utf8 "*", 1, 0⟩,
    ⟨utf8 "ヨ", utf8 "その他", utf8 "*", utf8 "*", 0, 1⟩,
    ⟨utf8 "？", utf8 "その他", utf8 "*", utf8 "*", 0, 0⟩]

/-- A long vowel behind a pause. -/
example : ¬NoClash {} [⟨utf8 "ワ", utf8 "その他", utf8 "*", utf8 "*", 0, 0⟩,
    ⟨utf8 "、", utf8 "その他", utf8 "*", utf8 "*", 0, 0⟩,
    ⟨utf8 "ー", utf8 "その他", utf8 "*", utf8 "*", 0, 0⟩] := by
  decide +kernel

/-- A label that words without a clash make is sound. -/
theorem sound_of_noClash {nodes : List Node} {label : Label} (hfine : NoClash {} nodes)
    (hrun : nodes.foldlM push_word {} = some label) : Sound label := by
  obtain ⟨l, hl, hsound⟩ := foldlM_push_word_sound Sound.initial hfine
  obtain rfl : l = label := Option.some.inj (hl.symm.trans hrun)
  exact hsound

theorem Short.foldlM {nodes : List Node} {label label' : Label} (h : Short label)
    (hacc : ∀ node ∈ nodes, node.acc.natAbs ≤ accentMax)
    (hl : nodes.foldlM push_word label = some label') : Short label' := by
  induction nodes generalizing label with
  | nil => exact Option.some.inj hl ▸ h
  | cons node nodes ih =>
    rw [List.foldlM_cons] at hl
    obtain ⟨l, hl', hl⟩ := Option.bind_eq_some_iff.mp hl
    obtain ⟨hnode, hrest⟩ := List.forall_mem_cons.mp hacc
    exact ih ((Short.kept hnode).push_word h hl') hrest hl

theorem Short.sizes {label : Label} (h : Short label) (hsize : label.phonemes.length < 2 ^ 31) :
    Sizes label 3 (2 ^ 32) 11 where
  texts := Nat.le_refl 3
  numbers := by decide
  phonemes := h.phonemes
  words w hw := by
    obtain ⟨h₁, h₂, h₃⟩ := h.words w hw
    omega
  emotions a ha := Nat.le_succ_of_le (h.accents a ha).1
  room := by omega
  accents a ha := by
    have := (h.accents a ha).2
    unfold accentMax at this
    omega
  decimals _ hn := decimal_length (by decide) (Nat.lt_of_le_of_lt hn (by decide))

/-- With ints for accents and as many lines as an int can count, every line and its terminator
fit into their buffer. -/
theorem lines_fit {nodes : List Node} {lines : List (List Byte)}
    (hlines : make_label nodes = some lines) (hacc : ∀ node ∈ nodes, node.acc.natAbs ≤ accentMax)
    (hsize : lines.length < 2 ^ 31) : ∀ line ∈ lines, line.length < MAXBUFLEN := by
  have hfine := noClash_of_make_label hlines
  obtain ⟨label, hlabel, hmake⟩ := Option.bind_eq_some_iff.mp hlines
  have h := sound_of_noClash hfine hlabel
  have hshort := Short.initial.foldlM hacc hlabel
  by_cases hne : label.phonemes = []
  · rw [make, if_pos hne] at hmake
    obtain rfl := Option.some.inj hmake
    exact fun line hline => absurd hline List.not_mem_nil
  · obtain ⟨K, M, D, hs⟩ := exists_sizes label
    obtain ⟨l, hl, hlength, -⟩ := make_fits h hs
    obtain rfl : l = lines := Option.some.inj (hl.symm.trans hmake)
    rw [if_neg hne] at hlength
    obtain ⟨l', hl', -, hall⟩ := make_fits h (hshort.sizes (by omega))
    obtain rfl : l' = l := Option.some.inj (hl'.symm.trans hmake)
    intro line hline
    have := hall line hline
    unfold MAXBUFLEN
    omega

theorem lines_fit_sample : ∃ lines, make_label sample = some lines ∧ lines.length = 12 ∧
    ∀ line ∈ lines, line.length < MAXBUFLEN := by
  have hlines : make_label sample = some ((make_label sample).getD []) := by decide +kernel
  exact ⟨_, hlines, by decide +kernel,
    lines_fit hlines (by decide +kernel) (by decide +kernel)⟩

end HAS.JPCommon

import HAS.JPCommonKept
import HAS.Stdio

/-! Making the labels follows no NULL either and stays within the buffers of the lines, and a
word that clashes with a pause is what goes wrong otherwise. -/
namespace HAS.JPCommon
open HAS.Bytes HAS.Text2mecab HAS.IRemocon HAS.Blocks HAS.Stdio

def MAXBUFLEN : Nat := 1024

/-- Bounds for what goes into a line: texts up to K, numbers up to M, printed in up to D
characters. -/
structure Sizes (label : Label) (K M D : Nat) : Prop where
  texts : 3 ≤ K
  numbers : 3 ≤ D
  phonemes : ∀ p ∈ label.phonemes, p.phoneme.length ≤ K
  words : ∀ w ∈ label.words, w.pos.length ≤ K ∧ w.ctype.length ≤ K ∧ w.cform.length ≤ K
  emotions : ∀ a ∈ label.accents, (a.emotion.getD (ascii "xx")).length ≤ K
  room : label.phonemes.length + 1 ≤ M
  accents : ∀ a ∈ label.accents, a.accent.natAbs + label.phonemes.length ≤ M
  decimals : ∀ n : Int, n.natAbs ≤ M → (decimal n).length ≤ D

/-- A text that is there and is not too long. -/
def Fits (n : Nat) (text : Option (List Byte)) : Prop := ∃ t, text = some t ∧ t.length ≤ n

theorem Fits.some {n : Nat} {t : List Byte} (h : t.length ≤ n) : Fits n (some t) := ⟨t, rfl, h⟩

/-- Around a pause there are two phonemes that are none. -/
theorem Sound.around_pause {label : Label} (h : Sound label) {p : Nat}
    (hp : label.phonemeUps[p]? = some none) : ∃ q m m', p = q + 1 ∧
      label.phonemeUps[q]? = some (some m) ∧ label.phonemeUps[p + 1]? = some (some m') := by
  obtain ⟨w, m, hpos, ⟨tw, hw⟩, tm, hm⟩ := h.paused p hp
  -- the mora behind the pause is not the first one, since its word is not
  obtain ⟨v, rfl⟩ := Nat.exists_eq_succ_of_ne_zero (Nat.pos_iff_ne_zero.mp hpos)
  have hv := getElem?_ends label.wordEnds (b := v)
    (by have := (List.getElem?_eq_some_iff.mp hw).1; omega)
  have hlt := h.moras.ordered _ _ _ _ _ hv hw
  obtain ⟨k, rfl⟩ : ∃ k, m = k + 1 := ⟨m - 1, by omega⟩
  have hk := getElem?_ends label.moraEnds (b := k)
    (by have := (List.getElem?_eq_some_iff.mp hm).1; omega)
  have hne := h.phonemes.nonempty _ _ _ hk
  have hne' := h.phonemes.nonempty _ _ _ hm
  rcases h.adjacent hk hm with heq | ⟨heq, -⟩
  · have hown := h.phonemes.owned hk hne (Nat.le_refl _)
    rw [show tailOf label.moraEnds k = p by omega, hp] at hown
    simp at hown
  · exact ⟨tailOf label.moraEnds k, k, k + 1, by omega, h.phonemes.owned hk hne (Nat.le_refl _),
      h.phonemes.owned hm (Nat.le_refl _) hne'⟩

/-- What a line needs around its phoneme. -/
structure Ready (label : Label) (short_pause_flag : Bool) (p : Nat) : Prop where
  spoken : short_pause_flag = false → ∃ m, label.phonemeUps[p]? = some (some m)
  before : short_pause_flag = true →
    ∃ q m, prev p = some q ∧ label.phonemeUps[q]? = some (some m)
  behind : short_pause_flag = true →
    ∃ q m, next label.phonemes.length p = some q ∧ label.phonemeUps[q]? = some (some m)

section Fields
variable {label : Label} {i p : Nat} {short_pause_flag : Bool}

theorem Sound.ready (h : Sound label) {x : Phoneme} (hx : label.phonemes[p]? = some x) :
    Ready label (x.phoneme = JPCOMMON_PHONEME_SHORT_PAUSE) p := by
  have hiff := h.pause_iff hx
  have hlt := (List.getElem?_eq_some_iff.mp hx).1
  refine ⟨fun hf => ?_, fun hf => ?_, fun hf => ?_⟩
  · have hne : x.up ≠ none := fun hup => by
      rw [← h.pauses x (List.mem_of_getElem? hx)] at hup
      simp [hup] at hf
    obtain ⟨m, hm⟩ := Option.ne_none_iff_exists'.mp hne
    exact ⟨m, by rw [Label.phonemeUps, List.getElem?_map, hx, Option.map_some, hm]⟩
  · obtain ⟨q, m, m', rfl, hq, -⟩ := h.around_pause (hiff.mp (by simpa using hf))
    exact ⟨q, m, rfl, hq⟩
  · obtain ⟨q, m, m', rfl, -, hq⟩ := h.around_pause (hiff.mp (by simpa using hf))
    have hlt' := (List.getElem?_eq_some_iff.mp hq).1
    rw [Label.length_phonemeUps] at hlt'
    exact ⟨q + 2, m', by rw [next, if_pos hlt'], hq⟩

theorem prev_lt {n k v : Nat} (h : prev k = some v) (hk : k < n) : v < n := by
  cases k with
  | zero => simp [prev] at h
  | succ k =>
    obtain rfl : k = v := by simpa [prev] using h
    omega

theorem next_lt {n k v : Nat} (h : next n k = some v) : v < n := by
  unfold next at h
  split at h
  · obtain rfl : k + 1 = v := by simpa using h
    assumption
  · simp at h

theorem Above.word_lt {m w a b : Nat} (h : Above label p m w a b) : w < label.words.length := by
  simpa using (List.getElem?_eq_some_iff.mp h.word).1

theorem Above.accent_lt {m w a b : Nat} (h : Above label p m w a b) : a < label.accents.length := by
  simpa using (List.getElem?_eq_some_iff.mp h.accent).1

theorem inside_spoken (h : inside label i short_pause_flag = true) : short_pause_flag = false := by
  cases short_pause_flag with
  | false => rfl
  | true => simp [inside] at h

theorem Sound.wordBeside (h : Sound label) (hr : Ready label short_pause_flag p) (here : Bool)
    {across : Option Nat} (neighbour : Nat → Option Nat)
    (hacross : short_pause_flag = true →
      ∃ q m, across = some q ∧ label.phonemeUps[q]? = some (some m))
    (hneighbour : ∀ w v, neighbour w = some v → w < label.words.length → v < label.words.length) :
    ∃ w, wordBeside label p short_pause_flag here across neighbour = some w ∧
      ∀ v, w = some v → v < label.words.length := by
  cases hf : short_pause_flag with
  | true =>
    obtain ⟨q, m, hq, hm⟩ := hacross hf
    obtain ⟨w, a, b, habove⟩ := h.above_mora hm
    refine ⟨some w, by simp [JPCommon.wordBeside, hq, habove.wordOf], ?_⟩
    rintro v ⟨⟩
    exact habove.word_lt
  | false =>
    obtain ⟨m, hm⟩ := hr.spoken hf
    obtain ⟨w, a, b, habove⟩ := h.above_mora hm
    refine ⟨_, by simp [JPCommon.wordBeside, habove.wordOf]; rfl, fun v hv => ?_⟩
    obtain ⟨u, hu, rfl⟩ := Option.map_eq_some_iff.mp hv
    split
    · exact habove.word_lt
    · exact hneighbour w u hu habove.word_lt

theorem Sound.wordHere (h : Sound label) (hr : Ready label short_pause_flag p) :
    ∃ w, wordHere label i p short_pause_flag = some w ∧
      ∀ v, w = some v → v < label.words.length := by
  unfold JPCommon.wordHere
  split
  next hin =>
    obtain ⟨m, hm⟩ := hr.spoken (inside_spoken hin)
    obtain ⟨w, a, b, habove⟩ := h.above_mora hm
    refine ⟨some w, by simp [habove.wordOf], ?_⟩
    rintro v ⟨⟩
    exact habove.word_lt
  next => exact ⟨none, rfl, fun v hv => nomatch hv⟩

theorem Sound.phraseBeside (h : Sound label) (hr : Ready label short_pause_flag p) (here : Bool)
    {across : Option Nat} (neighbour : Nat → Option Nat)
    (hacross : short_pause_flag = true →
      ∃ q m, across = some q ∧ label.phonemeUps[q]? = some (some m))
    (hneighbour : ∀ a v, neighbour a = some v → a < label.accents.length →
      v < label.accents.length) :
    ∃ a, phraseBeside label p short_pause_flag here across neighbour = some a ∧
      ∀ v, a = some v → v < label.accents.length := by
  cases hf : short_pause_flag with
  | true =>
    obtain ⟨q, m, hq, hm⟩ := hacross hf
    obtain ⟨w, a, b, habove⟩ := h.above_mora hm
    refine ⟨some a, by simp [JPCommon.phraseBeside, hq, habove.accentOf], ?_⟩
    rintro v ⟨⟩
    exact habove.accent_lt
  | false =>
    obtain ⟨m, hm⟩ := hr.spoken hf
    obtain ⟨w, a, b, habove⟩ := h.above_mora hm
    cases here with
    | true =>
      refine ⟨some a, by simp [JPCommon.phraseBeside, habove.accentOf], ?_⟩
      rintro v ⟨⟩
      exact habove.accent_lt
    | false =>
      refine ⟨neighbour a, by simp [JPCommon.phraseBeside, habove.accentOf], fun v hv => ?_⟩
      exact hneighbour a v hv habove.accent_lt

theorem Sound.phraseHere (h : Sound label) (hr : Ready label short_pause_flag p) :
    ∃ a, phraseHere label i p short_pause_flag = some a ∧
      ∀ v, a = some v → v < label.accents.length := by
  unfold JPCommon.phraseHere
  split
  next hin =>
    obtain ⟨m, hm⟩ := hr.spoken (inside_spoken hin)
    obtain ⟨w, a, b, habove⟩ := h.above_mora hm
    refine ⟨some a, habove.accentOf, ?_⟩
    rintro v ⟨⟩
    exact habove.accent_lt
  next => exact ⟨none, rfl, fun v hv => nomatch hv⟩

theorem Sound.groupBeside (h : Sound label) (hr : Ready label short_pause_flag p) (here : Bool)
    {across : Option Nat} (neighbour : Nat → Option Nat)
    (hacross : short_pause_flag = true →
      ∃ q m, across = some q ∧ label.phonemeUps[q]? = some (some m))
    (hneighbour : ∀ b v, neighbour b = some v → b < label.breaths.length →
      v < label.breaths.length) :
    ∃ b, groupBeside label p short_pause_flag here across neighbour = some b ∧
      ∀ v, b = some v → v < label.breaths.length := by
  cases hf : short_pause_flag with
  | true =>
    obtain ⟨q, m, hq, hm⟩ := hacross hf
    obtain ⟨w, a, b, habove⟩ := h.above_mora hm
    refine ⟨some b, by simp [JPCommon.groupBeside, hq, habove.breathOf], ?_⟩
    rintro v ⟨⟩
    exact habove.breath
  | false =>
    obtain ⟨m, hm⟩ := hr.spoken hf
    obtain ⟨w, a, b, habove⟩ := h.above_mora hm
    refine ⟨_, by simp [JPCommon.groupBeside, habove.breathOf]; rfl, fun v hv => ?_⟩
    split at hv
    · obtain rfl : b = v := by simpa using hv
      exact habove.breath
    · exact hneighbour b v hv habove.breath

/-- There are no more cells of any kind than phonemes. -/
theorem Sound.lengths (h : Sound label) : label.moras.length ≤ label.phonemes.length ∧
    label.words.length ≤ label.moras.length ∧ label.accents.length ≤ label.words.length ∧
      label.breaths.length ≤ label.accents.length := by
  have h₁ := h.phonemes.toCut.length_le
  have h₂ := h.moras.toCut.length_le
  have h₃ := h.words.toCut.length_le
  have h₄ := h.accents.toCut.length_le
  simp only [Label.length_phonemeUps, Label.length_moraEnds, Label.length_moraUps,
    Label.length_wordEnds, Label.length_wordUps, Label.length_accentEnds, Label.length_accentUps,
    Label.length_breathEnds] at h₁ h₂ h₃ h₄
  exact ⟨h₁, h₂, h₃, h₄⟩

theorem Sound.count_le (h : Sound label) (m a : Nat) :
    size label.moraAccents m ≤ label.phonemes.length ∧
      size label.moraBreaths m ≤ label.phonemes.length ∧
        size label.accentUps a ≤ label.phonemes.length := by
  obtain ⟨h₁, h₂, h₃, h₄⟩ := h.lengths
  have c₁ := size_le label.moraAccents m
  have c₂ := size_le label.moraBreaths m
  have c₃ := size_le label.accentUps a
  rw [Label.length_moraAccents] at c₁
  rw [show label.moraBreaths.length = label.moras.length by simp [Label.moraBreaths, compUp]] at c₂
  rw [Label.length_accentUps] at c₃
  omega

variable {K M D : Nat} (h : Sound label) (hs : Sizes label K M D)
include h hs

omit h in
theorem wordField_fits {name sep₁ sep₂ : String} (hname : (ascii name).length = 3)
    (hsep₁ : (ascii sep₁).length = 1) (hsep₂ : (ascii sep₂).length = 1) {w : Option Nat}
    (hw : ∀ v, w = some v → v < label.words.length) :
    Fits (3 * K + 5) (wordField label name sep₁ sep₂ w) := by
  have htexts := hs.texts
  cases w with
  | none =>
    refine Fits.some ?_
    have hxx : (ascii "xx").length = 2 := rfl
    simp only [List.length_append, hname, hsep₁, hsep₂, hxx]
    omega
  | some v =>
    obtain ⟨x, hget⟩ : ∃ x, label.words[v]? = some x := ⟨_, List.getElem?_eq_getElem (hw v rfl)⟩
    obtain ⟨h₁, h₂, h₃⟩ := hs.words _ (List.mem_of_getElem? hget)
    refine ⟨_, by simp [wordField, hget]; rfl, ?_⟩
    simp only [List.length_append, hname, hsep₁, hsep₂]
    omega

theorem accent_le {m : Nat} (hm : m < label.moras.length) {a : AccentPhrase} (ha : a ∈ label.accents) :
    ∃ n, accent label a m = some n ∧ n.natAbs ≤ M ∧
      ((rank label.moraAccents m : Int) - n).natAbs ≤ M := by
  obtain ⟨-, hcount⟩ := h.mora_in_accent_phrase hm
  have hle := (h.count_le m 0).1
  have hrank := rank_le_size label.moraAccents m
  have hroom := hs.room
  have hacc := hs.accents a ha
  unfold accent
  split
  · refine ⟨_, by rw [hcount]; rfl, ?_⟩
    simp only [Int.ofNat_eq_natCast]
    omega
  · exact ⟨_, rfl, by omega, by omega⟩

theorem field_A_fits (hr : Ready label short_pause_flag p) :
    Fits (3 * D + 5) (field_A label i p short_pause_flag) := by
  unfold field_A
  split
  next hin =>
    obtain ⟨m, hm⟩ := hr.spoken (inside_spoken hin)
    obtain ⟨w, a, b, habove⟩ := h.above_mora hm
    obtain ⟨x, hx, hup⟩ := getElem?_of_map hm
    obtain ⟨y, hy, -⟩ := getElem?_of_map habove.accent
    have hmlt : m < label.moras.length := by
      simpa using (List.getElem?_eq_some_iff.mp habove.mora).1
    obtain ⟨hindex, hcount⟩ := h.mora_in_accent_phrase hmlt
    obtain ⟨n, hn, hnle, hdiff⟩ := accent_le h hs hmlt (List.mem_of_getElem? hy)
    have hroom := hs.room
    have howner := accentOfMora_eq habove.mora habove.word hy
    have hlt := (h.count_le m 0).1
    have hle := rank_le_size label.moraAccents m
    refine ⟨_, by simp [hx, hup, hindex, hcount, howner, hn]; rfl, ?_⟩
    have h₁ : (decimal ((rank label.moraAccents m : Int) - n)).length ≤ D := hs.decimals _ hdiff
    have h₂ : (decimal (rank label.moraAccents m : Int)).length ≤ D := hs.decimals _ (by omega)
    have h₃ : (decimal ((size label.moraAccents m : Int) - rank label.moraAccents m + 1)).length ≤ D :=
      hs.decimals _ (by omega)
    have h₄ : (ascii "/A:").length = 3 := rfl
    have h₅ : (ascii "+").length = 1 := rfl
    simp only [List.length_append]
    omega
  next =>
    have hnumbers := hs.numbers
    have htext : (ascii "/A:xx+xx+xx").length = 11 := rfl
    exact Fits.some (by omega)

omit h in
theorem wordField_of {name sep₁ sep₂ : String} (hname : (ascii name).length = 3)
    (hsep₁ : (ascii sep₁).length = 1) (hsep₂ : (ascii sep₂).length = 1)
    {beside : Option (Option Nat)}
    (hw : ∃ w, beside = some w ∧ ∀ v, w = some v → v < label.words.length) :
    Fits (3 * K + 5) (beside.bind (wordField label name sep₁ sep₂)) := by
  obtain ⟨w, rfl, hv⟩ := hw
  exact wordField_fits hs hname hsep₁ hsep₂ hv

theorem field_B_fits (hr : Ready label short_pause_flag p) :
    Fits (3 * K + 5) (field_B label i p short_pause_flag) :=
  wordField_of hs rfl rfl rfl (h.wordBeside hr _ _ hr.before fun _ _ => prev_lt)

theorem field_C_fits (hr : Ready label short_pause_flag p) :
    Fits (3 * K + 5) (field_C label i p short_pause_flag) :=
  wordField_of hs rfl rfl rfl (h.wordHere hr)

theorem field_D_fits (hr : Ready label short_pause_flag p) :
    Fits (3 * K + 5) (field_D label i p short_pause_flag) :=
  wordField_of hs rfl rfl rfl (h.wordBeside hr _ _ hr.behind fun _ _ hv _ => next_lt hv)

omit hs in
/-- The first and the last mora of an accent phrase are moras. -/
theorem firstMora_lt {a : Nat} {x : AccentPhrase} (hx : label.accents[a]? = some x) :
    ∃ m n, firstMora label x = some m ∧ lastMora label x = some n ∧
      label.accentMoras[a]? = some (m, n) ∧ m ≤ n ∧ n < label.moras.length := by
  obtain ⟨m, n, hf, hl, hends⟩ := h.ends_accent hx
  have htail := h.cut_accentMoras.tail_lt hends
  rw [Label.length_moraAccents] at htail
  exact ⟨m, n, hf, hl, hends, h.cut_accentMoras.nonempty _ _ _ hends, htail⟩

theorem phraseText_fits {a : Nat} (ha : a < label.accents.length) (sep : String)
    (hsep : (ascii sep).length = 1) : Fits (2 * D + K + 5) (phraseText label a sep) := by
  obtain ⟨x, hx⟩ : ∃ x, label.accents[a]? = some x := ⟨_, List.getElem?_eq_getElem ha⟩
  obtain ⟨m, n, hf, -, -, hmn, hn⟩ := firstMora_lt h hx
  obtain ⟨-, hcount⟩ := h.mora_in_accent_phrase (m := m) (by omega)
  obtain ⟨k, hk, hkle, -⟩ := accent_le h hs (m := m) (by omega) (List.mem_of_getElem? hx)
  have hlt := (h.count_le m 0).1
  have hroom := hs.room
  have hemotion := hs.emotions x (List.mem_of_getElem? hx)
  refine ⟨_, by simp [phraseText, hx, hf, hcount, hk]; rfl, ?_⟩
  have h₁ : (decimal (size label.moraAccents m : Int)).length ≤ D := hs.decimals _ (by omega)
  have h₂ : (decimal k).length ≤ D := hs.decimals _ hkle
  have h₃ : (ascii "_").length = 1 := rfl
  have h₄ : (ascii "_xx").length = 3 := rfl
  simp only [List.length_append]
  omega

omit h hs in
theorem pauseText_fits (hp : p < label.phonemes.length) : Fits 2 (pauseText label p) := by
  obtain ⟨x, hx⟩ : ∃ x, label.phonemes[p]? = some x := ⟨_, List.getElem?_eq_getElem hp⟩
  refine ⟨_, by simp [pauseText, hx]; rfl, ?_⟩
  split <;> decide

omit hs in
/-- Where one accent phrase ends and the next one begins. -/
theorem adjacent_phrases {a : Nat} (ha : a + 1 < label.accents.length) :
    ∃ x y m z z', label.accents[a]? = some x ∧ label.accents[a + 1]? = some y ∧
      lastMora label x = some m ∧ firstMora label y = some (m + 1) ∧ label.moras[m]? = some z ∧
        label.moras[m + 1]? = some z' ∧ z.tail < z'.head ∧ z'.head < label.phonemes.length := by
  obtain ⟨x, hx⟩ : ∃ x, label.accents[a]? = some x := ⟨_, List.getElem?_eq_getElem (by omega)⟩
  obtain ⟨y, hy⟩ : ∃ y, label.accents[a + 1]? = some y := ⟨_, List.getElem?_eq_getElem ha⟩
  obtain ⟨s, m, -, hl, hends, -, hm⟩ := firstMora_lt h hx
  obtain ⟨m', t, hf, -, hends', hmt, ht⟩ := firstMora_lt h hy
  obtain rfl := h.cut_accentMoras.head_next h.tight_moraAccents hends hends'
  obtain ⟨z, hz⟩ : ∃ z, label.moras[m]? = some z := ⟨_, List.getElem?_eq_getElem hm⟩
  obtain ⟨z', hz'⟩ : ∃ z', label.moras[m + 1]? = some z' := ⟨_, List.getElem?_eq_getElem (by omega)⟩
  have hzends := getElem?_moraEnds hz
  have hzends' := getElem?_moraEnds hz'
  have hlt := h.phonemes.ordered _ _ _ _ _ hzends hzends'
  have hle := h.phonemes.nonempty _ _ _ hzends'
  have htail := h.phonemes.tail_lt hzends'
  rw [Label.length_phonemeUps] at htail
  exact ⟨x, y, m, z, z', hx, hy, hl, hf, hz, hz', hlt, by omega⟩

omit hs in
theorem pauseBehind_fits {a : Nat} (ha : a + 1 < label.accents.length) :
    Fits 2 (pauseBehind label a) := by
  obtain ⟨x, y, m, z, z', hx, -, hl, -, hz, -, hlt, hlt'⟩ := adjacent_phrases h ha
  obtain ⟨t, ht, hlen⟩ := @pauseText_fits label (z.tail + 1) (by omega)
  have hnext : next label.phonemes.length z.tail = some (z.tail + 1) := by
    rw [next, if_pos (by omega)]
  exact ⟨t, by simp [pauseBehind, hx, hl, hz, hnext, ht], hlen⟩

omit hs in
theorem pauseBefore_fits {a : Nat} (ha : a + 1 < label.accents.length) :
    Fits 2 (pauseBefore label (a + 1)) := by
  obtain ⟨x, y, m, z, z', -, hy, -, hf, -, hz', hlt, hlt'⟩ := adjacent_phrases h ha
  obtain ⟨t, ht, hlen⟩ := @pauseText_fits label (z'.head - 1) (by omega)
  obtain ⟨k, hk⟩ : ∃ k, z'.head = k + 1 := ⟨z'.head - 1, by omega⟩
  rw [hk, Nat.add_sub_cancel] at ht
  exact ⟨t, by simp [pauseBefore, hy, hf, hz', hk, prev, ht], hlen⟩

theorem field_E_fits (hr : Ready label short_pause_flag p) :
    Fits (2 * D + K + 11) (field_E label i p short_pause_flag) := by
  obtain ⟨a, ha, halt⟩ := h.phraseBeside hr (last label i) prev hr.before fun a v => prev_lt
  unfold field_E
  rw [ha]
  cases a with
  | none =>
    have htexts := hs.texts
    have hnumbers := hs.numbers
    have htext : (ascii "/E:xx_xx!xx_xx-xx").length = 17 := rfl
    exact Fits.some (by omega)
  | some a =>
    obtain ⟨t, ht, hlen⟩ := phraseText_fits h hs (halt a rfl) "!" rfl
    have h₃ : (ascii "/E:").length = 3 := rfl
    simp only [Option.bind_eq_bind, Option.bind_some, ht]
    split
    next hin =>
      -- the phrase is the one before that of the phoneme
      obtain ⟨m, hm⟩ := hr.spoken (inside_spoken hin)
      obtain ⟨w, a', b, habove⟩ := h.above_mora hm
      have hprev : prev a' = some a := by
        have hlast : last label i = false := by
          cases hl : last label i with
          | false => rfl
          | true => simp [inside, hl] at hin
        simpa [phraseBeside, inside_spoken hin, hlast, habove.accentOf] using ha
      have hsucc : a' = a + 1 := by
        cases a' with
        | zero => simp [prev] at hprev
        | succ n => exact congrArg (· + 1) (by simpa [prev] using hprev)
      obtain ⟨f, hf, hflen⟩ := pauseBehind_fits h (a := a) (hsucc ▸ habove.accent_lt)
      refine ⟨_, by rw [hf]; rfl, ?_⟩
      simp only [List.length_append]
      omega
    next =>
      refine Fits.some ?_
      have h₄ : (ascii "-xx").length = 3 := rfl
      simp only [List.length_append]
      omega

theorem field_F_fits (hr : Ready label short_pause_flag p) :
    Fits (6 * D + K + 12) (field_F label i p short_pause_flag) := by
  obtain ⟨a, ha, halt⟩ := h.phraseHere (i := i) hr
  unfold field_F
  rw [ha]
  cases a with
  | none =>
    have htexts := hs.texts
    have hnumbers := hs.numbers
    have htext : (ascii "/F:xx_xx#xx_xx@xx_xx|xx_xx").length = 26 := rfl
    exact Fits.some (by omega)
  | some a =>
    have hlt := halt a rfl
    obtain ⟨t, ht, hlen⟩ := phraseText_fits h hs hlt "#" rfl
    obtain ⟨x, hx⟩ : ∃ x, label.accents[a]? = some x := ⟨_, List.getElem?_eq_getElem hlt⟩
    obtain ⟨m, n, hf, -, -, hmn, hn⟩ := firstMora_lt h hx
    obtain ⟨hindex, hcount⟩ := h.accent_in_breath_group hlt
    obtain ⟨hindex', hcount'⟩ := h.mora_in_breath_group (m := m) (by omega)
    obtain ⟨-, c₁, c₂⟩ := h.count_le m a
    have hroom := hs.room
    have r₁ := rank_le_size label.accentUps a
    have r₂ := rank_le_size label.moraBreaths m
    refine ⟨_, by simp [ht, hindex, hcount, hx, hf, hindex', hcount']; rfl, ?_⟩
    have h₁ : (decimal (rank label.accentUps a : Int)).length ≤ D := hs.decimals _ (by omega)
    have h₂ : (decimal ((size label.accentUps a : Int) - rank label.accentUps a + 1)).length ≤ D :=
      hs.decimals _ (by omega)
    have h₃ : (decimal (rank label.moraBreaths m : Int)).length ≤ D := hs.decimals _ (by omega)
    have h₄ : (decimal ((size label.moraBreaths m : Int) - rank label.moraBreaths m + 1)).length ≤ D :=
      hs.decimals _ (by omega)
    have h₅ : (ascii "/F:").length = 3 := rfl
    have h₆ : (ascii "@").length = 1 := rfl
    have h₇ : (ascii "_").length = 1 := rfl
    have h₈ : (ascii "|").length = 1 := rfl
    simp only [List.length_append]
    omega

theorem field_G_fits (hr : Ready label short_pause_flag p) :
    Fits (2 * D + K + 11) (field_G label i p short_pause_flag) := by
  obtain ⟨a, ha, halt⟩ := h.phraseBeside hr (i = 0) (next label.accents.length) hr.behind
    fun a v hv _ => next_lt hv
  unfold field_G
  rw [ha]
  cases a with
  | none =>
    have htexts := hs.texts
    have hnumbers := hs.numbers
    have htext : (ascii "/G:xx_xx%xx_xx-xx").length = 17 := rfl
    exact Fits.some (by omega)
  | some a =>
    obtain ⟨t, ht, hlen⟩ := phraseText_fits h hs (halt a rfl) "%" rfl
    have h₃ : (ascii "/G:").length = 3 := rfl
    simp only [Option.bind_eq_bind, Option.bind_some, ht]
    split
    next hin =>
      -- the phrase is the one behind that of the phoneme
      obtain ⟨m, hm⟩ := hr.spoken (inside_spoken hin)
      obtain ⟨w, a', b, habove⟩ := h.above_mora hm
      have hnext : next label.accents.length a' = some a := by
        have hfirst : i ≠ 0 := by
          rintro rfl
          simp [inside] at hin
        simpa [phraseBeside, inside_spoken hin, hfirst, habove.accentOf] using ha
      have hsucc : a = a' + 1 := by
        unfold next at hnext
        split at hnext
        · exact (Option.some.inj hnext).symm
        · simp at hnext
      subst hsucc
      obtain ⟨f, hf, hflen⟩ := pauseBefore_fits h (a := a') (halt _ rfl)
      refine ⟨_, by rw [hf]; rfl, ?_⟩
      simp only [List.length_append]
      omega
    next =>
      refine Fits.some ?_
      have h₄ : (ascii "-xx").length = 3 := rfl
      simp only [List.length_append]
      omega

omit hs in
/-- The first accent phrase and the first mora of a breath group. -/
theorem groupMora_lt {b : Nat} {x : BreathGroup} (hx : label.breaths[b]? = some x) :
    ∃ m, groupMora label x = some m ∧ m < label.moras.length ∧ x.head < label.accents.length := by
  obtain ⟨y, z, m, n, hy, -, hf, -, hends⟩ := h.ends_breath hx
  have htail := h.cut_breathMoras.tail_lt hends
  have hle := h.cut_breathMoras.nonempty _ _ _ hends
  rw [show label.moraBreaths.length = label.moras.length by simp [Label.moraBreaths, compUp]] at htail
  exact ⟨m, by simp [groupMora, hy, hf], by omega, (List.getElem?_eq_some_iff.mp hy).1⟩

theorem groupText_fits {name : String} (hname : (ascii name).length = 3) {b : Option Nat}
    (hb : ∀ v, b = some v → v < label.breaths.length) : Fits (2 * D + 4) (groupText label name b) := by
  cases b with
  | none =>
    have hnumbers := hs.numbers
    have htext : (ascii "xx_xx").length = 5 := rfl
    refine Fits.some ?_
    simp only [List.length_append, hname, htext]
    omega
  | some b =>
    obtain ⟨x, hx⟩ : ∃ x, label.breaths[b]? = some x := ⟨_, List.getElem?_eq_getElem (hb b rfl)⟩
    obtain ⟨m, hm, hmlt, halt⟩ := groupMora_lt h hx
    obtain ⟨-, hcount⟩ := h.accent_in_breath_group halt
    obtain ⟨-, hcount'⟩ := h.mora_in_breath_group hmlt
    obtain ⟨-, c₁, c₂⟩ := h.count_le m x.head
    have hroom := hs.room
    refine ⟨_, by simp [groupText, hx, hm, hcount, hcount']; rfl, ?_⟩
    have h₁ : (decimal (size label.accentUps x.head : Int)).length ≤ D := hs.decimals _ (by omega)
    have h₂ : (decimal (size label.moraBreaths m : Int)).length ≤ D := hs.decimals _ (by omega)
    have h₃ : (ascii "_").length = 1 := rfl
    simp only [List.length_append]
    omega

theorem field_H_fits (hr : Ready label short_pause_flag p) :
    Fits (2 * D + 4) (field_H label i p short_pause_flag) := by
  obtain ⟨b, hb, hlt⟩ := h.groupBeside hr (last label i) prev hr.before fun _ _ => prev_lt
  unfold field_H
  rw [hb]
  exact groupText_fits h hs rfl hlt

theorem field_J_fits (hr : Ready label short_pause_flag p) :
    Fits (2 * D + 4) (field_J label i p short_pause_flag) := by
  obtain ⟨b, hb, hlt⟩ := h.groupBeside hr (i = 0) (next label.breaths.length) hr.behind
    fun _ _ hv _ => next_lt hv
  unfold field_J
  rw [hb]
  exact groupText_fits h hs rfl hlt

theorem field_I_fits (hr : Ready label short_pause_flag p) :
    Fits (8 * D + 10) (field_I label i p short_pause_flag) := by
  unfold field_I
  split
  next hin =>
    obtain ⟨m₀, hm₀⟩ := hr.spoken (inside_spoken hin)
    obtain ⟨w, a, b, habove⟩ := h.above_mora hm₀
    obtain ⟨x, hx⟩ : ∃ x, label.breaths[b]? = some x := ⟨_, List.getElem?_eq_getElem habove.breath⟩
    obtain ⟨m, hm, hmlt, halt⟩ := groupMora_lt h hx
    obtain ⟨-, hcount⟩ := h.accent_in_breath_group halt
    obtain ⟨-, hcount'⟩ := h.mora_in_breath_group hmlt
    obtain ⟨-, c₁, c₂⟩ := h.count_le m x.head
    obtain ⟨l₁, l₂, l₃, l₄⟩ := h.lengths
    have hblt := habove.breath
    refine ⟨_, by simp [habove.breathOf, hx, hm, hcount, hcount', count_in_utterance_eq hblt,
      count_in_utterance_eq halt, count_in_utterance_eq hmlt, index_in_utterance, walkBack_eq]; rfl, ?_⟩
    have hroom := hs.room
    have one : ∀ sep : String, (ascii sep).length ≤ 1 → ∀ t : List Byte, t.length ≤ D →
        (ascii sep ++ t).length ≤ D + 1 := by
      intro sep hsep t ht
      rw [List.length_append]
      omega
    have more : ∀ {s t : List Byte} {n : Nat}, s.length ≤ n → t.length ≤ D + 1 →
        (s ++ t).length ≤ n + (D + 1) := by
      intro s t n hs ht
      rw [List.length_append]
      omega
    have h₁ : (ascii "/I:" ++ decimal (size label.accentUps x.head : Int)).length ≤ 3 + D := by
      have := hs.decimals (size label.accentUps x.head) (by omega)
      rw [List.length_append]
      exact Nat.add_le_add (Nat.le_refl 3) this
    have h₂ := one "-" (Nat.le_refl 1) _ (hs.decimals (size label.moraBreaths m) (by omega))
    have h₃ := one "@" (Nat.le_refl 1) _ (hs.decimals ((b : Int) + 1) (by omega))
    have h₄ := one "+" (Nat.le_refl 1) _
      (hs.decimals ((label.breaths.length : Int) - (b + 1) + 1) (by omega))
    have h₅ := one "&" (Nat.le_refl 1) _ (hs.decimals ((x.head : Int) + 1) (by omega))
    have h₆ := one "-" (Nat.le_refl 1) _
      (hs.decimals ((label.accents.length : Int) - (x.head + 1) + 1) (by omega))
    have h₇ := one "|" (Nat.le_refl 1) _ (hs.decimals ((m : Int) + 1) (by omega))
    have h₈ := one "+" (Nat.le_refl 1) _
      (hs.decimals ((label.moras.length : Int) - (m + 1) + 1) (by omega))
    have hall := more (more (more (more (more (more (more h₁ h₂) h₃) h₄) h₅) h₆) h₇) h₈
    rw [show 8 * D + 10 = 3 + D + (D + 1) + (D + 1) + (D + 1) + (D + 1) + (D + 1) + (D + 1) + (D + 1) by
      omega]
    simpa only [List.append_assoc] using hall
  next =>
    have hnumbers := hs.numbers
    have htext : (ascii "/I:xx-xx@xx+xx&xx-xx|xx+xx").length = 26 := rfl
    exact Fits.some (by omega)

theorem field_K_fits (hne : label.phonemes ≠ []) : Fits (3 * D + 5) (field_K label) := by
  obtain ⟨hpm, hmw⟩ := h.words_eq_nil_iff
  obtain ⟨hua, hab⟩ := h.accents_eq_nil_iff
  have hm : label.moras ≠ [] := fun hm => hne (hpm.mpr hm)
  have hw : label.wordUps ≠ [] := fun hw => hm (hmw.mpr (List.map_eq_nil_iff.mp hw))
  have ha : label.accents ≠ [] := fun ha => hw (hua.mpr ha)
  have hb : label.breaths ≠ [] := fun hb => ha (hab.mpr hb)
  obtain ⟨l₁, l₂, l₃, l₄⟩ := h.lengths
  have hroom := hs.room
  refine ⟨_, by simp [field_K, count_in_utterance_eq (List.length_pos_iff.mpr hm),
    count_in_utterance_eq (List.length_pos_iff.mpr ha),
    count_in_utterance_eq (List.length_pos_iff.mpr hb)]; rfl, ?_⟩
  have h₁ : (decimal (label.breaths.length : Int)).length ≤ D := hs.decimals _ (by omega)
  have h₂ : (decimal (label.accents.length : Int)).length ≤ D := hs.decimals _ (by omega)
  have h₃ : (decimal (label.moras.length : Int)).length ≤ D := hs.decimals _ (by omega)
  have s₁ : (ascii "/K:").length = 3 := rfl
  have s₂ : (ascii "+").length = 1 := rfl
  have s₃ : (ascii "-").length = 1 := rfl
  simp only [List.length_append]
  omega

omit h in
theorem quinphone_fits (hi : i ≤ label.phonemes.length + 1) : Fits (5 * K + 4) (quinphone label i) := by
  have hshort : ∀ x ∈ phoneme_list label, x.length ≤ K := by
    intro x hx
    simp only [phoneme_list, List.mem_append, List.mem_map, List.mem_cons, List.not_mem_nil,
      or_false] at hx
    rcases hx with ((rfl | rfl | rfl) | ⟨p, hp, rfl⟩) | (rfl | rfl | rfl)
    all_goals first
      | exact hs.phonemes p hp
      | exact Nat.le_trans (by decide) hs.texts
  have hget : ∀ j, j < label.phonemes.length + 6 →
      ∃ x, (phoneme_list label)[j]? = some x ∧ x.length ≤ K := by
    intro j hj
    have hlen : (phoneme_list label).length = label.phonemes.length + 6 := by
      simp [phoneme_list]
    obtain ⟨x, hx⟩ : ∃ x, (phoneme_list label)[j]? = some x :=
      ⟨_, List.getElem?_eq_getElem (hlen ▸ hj)⟩
    exact ⟨x, hx, hshort x (List.mem_of_getElem? hx)⟩
  obtain ⟨x₀, h₀, l₀⟩ := hget i (by omega)
  obtain ⟨x₁, h₁, l₁⟩ := hget (i + 1) (by omega)
  obtain ⟨x₂, h₂, l₂⟩ := hget (i + 2) (by omega)
  obtain ⟨x₃, h₃, l₃⟩ := hget (i + 3) (by omega)
  obtain ⟨x₄, h₄, l₄⟩ := hget (i + 4) (by omega)
  refine ⟨_, by simp [quinphone, h₀, h₁, h₂, h₃, h₄]; rfl, ?_⟩
  have s₁ : (ascii "^").length = 1 := rfl
  have s₂ : (ascii "-").length = 1 := rfl
  have s₃ : (ascii "+").length = 1 := rfl
  have s₄ : (ascii "=").length = 1 := rfl
  simp only [List.length_append]
  omega

end Fields

end HAS.JPCommon

import HAS.OpenJTalkMain
import HAS.Text2mecab

/-! The buffers of an utterance: make_wav copies and prints names into arrays of one size,
synthesis has the sentence converted into an array of another. -/
namespace HAS.Buffers
open HAS.Bytes HAS.Unicode HAS.IRemocon HAS.OpenJTalk HAS.Stdio HAS.TextToSpeech HAS.Text2mecab

abbrev FILE_NAME_BUF_SIZE : Nat := 128
abbrev MAXBUFLEN : Nat := 1024

/-- Bytes written into an array, with the terminator; none where printing is undefined. -/
structure Write where
  size : Nat
  written : Option Nat

def Write.Fits (w : Write) : Prop := ∃ n, w.written = some n ∧ n ≤ w.size

/-- strcpy or sprintf of a name. -/
def copy : FileName → Write
  | .strcpy name => ⟨FILE_NAME_BUF_SIZE, some (name.length + 1)⟩
  | .sprintf format n => ⟨FILE_NAME_BUF_SIZE, (sprintf format [n]).map fun name => name.length + 1⟩

/-- The names that make_wav has arrays for. -/
def names (f : Files) : List FileName :=
  [f.dn_mecab, f.fn_ms_dur, f.fn_ms_mgc, f.fn_ms_lf0, f.fn_ts_dur, f.fn_ts_mgc, f.fn_ts_lf0] ++
  (f.fn_ws_mgc.zip f.fn_ws_lf0).flatMap (fun ws => [ws.1, ws.2]) ++
  f.fn_ms_gvm.toList ++ f.fn_ms_gvf.toList ++ f.fn_ts_gvm.toList ++ f.fn_ts_gvf.toList ++
  f.fn_gv_switch.toList

/-- All writes of make_wav and of the synthesis in it; behind the sentence its array has
what it had. -/
def writes (o : Object) (sentence : List Byte) (env : Env) (beyond : Nat → Byte) : List Write :=
  if !env.opened then []
  else
    copy (.strcpy (c_str sentence).bytes) :: (names (files o.voice_dir_ o.dic_dir_)).map copy ++
      [⟨MAXBUFLEN, some ((text2mecab (c_str sentence).bytes beyond).length + 1)⟩]

/-- What the char pointer of a Utf8Value points to. -/
def utf8Value (s : List CodeUnit) : List Byte := (c_str (encode s)).bytes

/-- No write of talk overruns its array, for the arguments of init and of talk. -/
def NoOverrun (voice_dir dic_dir str : List CodeUnit) (env : Env) (beyond : Nat → Byte) : Prop :=
  ∀ w ∈ writes (construct (utf8Value voice_dir) (utf8Value dic_dir)) (utf8Value str) env beyond,
    w.Fits

/-- The strings fit their arrays, the longest name of a file with them, and the name of the
voice prints as one. -/
structure Short (voice_dir dic_dir str : List CodeUnit) : Prop where
  str_length : (utf8Value str).length < FILE_NAME_BUF_SIZE
  dic_dir_length : (utf8Value dic_dir).length < FILE_NAME_BUF_SIZE
  voice_dir_length : (utf8Value voice_dir).length + 16 < FILE_NAME_BUF_SIZE
  voice_dir_paired : Paired (utf8Value voice_dir) = true

theorem fits_some (size n : Nat) : (⟨size, some n⟩ : Write).Fits ↔ n ≤ size := by
  simp [Write.Fits]

theorem not_fits_none (size : Nat) : ¬ (⟨size, none⟩ : Write).Fits := by
  simp [Write.Fits]

theorem copy_strcpy (name : List Byte) :
    (copy (.strcpy name)).Fits ↔ name.length < FILE_NAME_BUF_SIZE :=
  fits_some FILE_NAME_BUF_SIZE (name.length + 1)

theorem copy_file {voice_dir name : List Byte} (hv : NUL ∉ voice_dir) (hn : NUL ∉ name) :
    (copy (.strcpy (c_str (voice_dir ++ name)).bytes)).Fits ↔
      voice_dir.length + name.length < FILE_NAME_BUF_SIZE := by
  rw [copy_strcpy, c_str_of_nul_free (by simp [hv, hn]), List.length_append]

/-- The name of a window, which begins with another character than a conversion. -/
structure Stem (stem : List Byte) : Prop where
  nul_free : NUL ∉ stem
  no_percent : PERCENT ∉ stem
  separated : ∃ b rest, stem = b :: rest ∧ b ≠ 100

theorem sprintf_window {stem : List Byte} (h : Stem stem) (args : List Int) :
    sprintf (stem ++ [PERCENT, 100]) args =
      (sprintf [PERCENT, 100] args).map (stem ++ ·) := by
  rw [sprintf_of_paired (paired_of_notMem h.no_percent), halved_eq_self h.no_percent]

/-- The directory is a part of the format: its percent signs must be paired, and each pair
prints as one. -/
theorem sprintf_voice (voice_dir : List Byte) {stem : List Byte} (h : Stem stem) (n : Int) :
    sprintf (voice_dir ++ (stem ++ [PERCENT, 100])) [n] =
      if Paired voice_dir then some (halved voice_dir ++ (stem ++ decimal n)) else none := by
  cases hp : Paired voice_dir with
  | true =>
    rw [sprintf_of_paired hp, sprintf_window h, sprintf_conversion]
    simp [sprintf]
  | false =>
    obtain ⟨b, rest, hstem, hb⟩ := h.separated
    have hb' : b ≠ PERCENT := by
      intro heq
      exact h.no_percent (hstem ▸ heq ▸ List.mem_cons_self)
    have hnone : sprintf (stem ++ [PERCENT, 100]) [] = none := by
      rw [sprintf_window h, sprintf_directive (by decide)]
      rfl
    rw [hstem] at hnone ⊢
    simpa using sprintf_of_not_paired hp hb' hb hnone n

theorem copy_window {voice_dir stem : List Byte} (hv : NUL ∉ voice_dir) (h : Stem stem) (n : Nat) :
    (copy (.sprintf (c_str (voice_dir ++ (stem ++ [PERCENT, 100]))).bytes n)).Fits ↔
      Paired voice_dir = true ∧
        (halved voice_dir).length + (stem.length + (decimal n).length) < FILE_NAME_BUF_SIZE := by
  have hd : NUL ∉ [PERCENT, 100] := by decide
  have hnul : NUL ∉ voice_dir ++ (stem ++ [PERCENT, 100]) := by
    simpa [hv, h.nul_free] using hd
  rw [copy, c_str_of_nul_free hnul, sprintf_voice voice_dir h]
  cases Paired voice_dir with
  | true =>
    rw [if_pos rfl, Option.map_some, fits_some, List.length_append, List.length_append,
      Nat.add_one_le_iff]
    exact (and_iff_right rfl).symm
  | false =>
    rw [if_neg Bool.false_ne_true, Option.map_none]
    exact iff_of_false (not_fits_none _) fun h => Bool.false_ne_true h.1

/-- Names of the files that are copied behind the directory of the voice. -/
def fileNames : List String :=
  ["/dur.pdf", "/mgc.pdf", "/lf0.pdf", "/tree-dur.inf", "/tree-mgc.inf", "/tree-lf0.inf",
    "/gv-mgc.pdf", "/gv-lf0.pdf", "/tree-gv-mgc.inf", "/tree-gv-lf0.inf", "/gv-switch.inf"]

def windowNames : List String := ["/mgc.win", "/lf0.win"]

theorem forall_names {P : FileName → Prop} (voice_dir dic_dir : List Byte) :
    (∀ name ∈ names (files voice_dir dic_dir), P name) ↔
      P (.strcpy (c_str dic_dir).bytes) ∧
      (∀ name ∈ fileNames, P (.strcpy (c_str (voice_dir ++ ascii name)).bytes)) ∧
      ∀ name ∈ windowNames, ∀ n ∈ [1, 2, 3],
        P (.sprintf (c_str (voice_dir ++ (ascii name ++ [PERCENT, 100]))).bytes n) := by
  have hmgc : ascii "/mgc.win%d" = ascii "/mgc.win" ++ [PERCENT, 100] := by decide
  have hlf0 : ascii "/lf0.win%d" = ascii "/lf0.win" ++ [PERCENT, 100] := by decide
  simp only [names, files, fileNames, windowNames, hmgc, hlf0, List.map_cons, List.map_nil,
    List.zip_cons_cons, List.zip_nil_left, List.flatMap_cons, List.flatMap_nil, Option.toList,
    List.cons_append, List.nil_append, List.append_nil, List.forall_mem_cons, List.not_mem_nil,
    false_implies, implies_true, and_true]
  constructor
  · rintro ⟨dic, dur, mgc, lf0, dur', mgc', lf0', w₁, w₁', w₂, w₂', w₃, w₃', gvm, gvf, gvm', gvf', sw⟩
    exact ⟨dic, ⟨dur, mgc, lf0, dur', mgc', lf0', gvm, gvf, gvm', gvf', sw⟩, ⟨w₁, w₂, w₃⟩,
      w₁', w₂', w₃'⟩
  · rintro ⟨dic, ⟨dur, mgc, lf0, dur', mgc', lf0', gvm, gvf, gvm', gvf', sw⟩, ⟨w₁, w₂, w₃⟩,
      w₁', w₂', w₃'⟩
    exact ⟨dic, dur, mgc, lf0, dur', mgc', lf0', w₁, w₁', w₂, w₂', w₃, w₃', gvm, gvf, gvm', gvf', sw⟩

theorem fileNames_length : ∀ name ∈ fileNames, NUL ∉ ascii name ∧ (ascii name).length ≤ 16 := by
  decide

theorem windowNames_stem : ∀ name ∈ windowNames, Stem (ascii name) ∧ (ascii name).length = 8 := by
  have hstem : ∀ name ∈ windowNames, NUL ∉ ascii name ∧ PERCENT ∉ ascii name ∧
      (ascii name).head? = some 47 ∧ (ascii name).length = 8 := by decide
  intro name hname
  obtain ⟨hnul, hpercent, hhead, hlength⟩ := hstem name hname
  obtain ⟨rest, hrest⟩ := List.head?_eq_some_iff.mp hhead
  exact ⟨⟨hnul, hpercent, 47, rest, hrest, by decide⟩, hlength⟩

/-- All names fit if the longest one does. -/
theorem names_fit_iff {voice_dir dic_dir : List Byte} (hv : NUL ∉ voice_dir)
    (hd : NUL ∉ dic_dir) :
    (∀ name ∈ names (files voice_dir dic_dir), (copy name).Fits) ↔
      dic_dir.length < FILE_NAME_BUF_SIZE ∧ voice_dir.length + 16 < FILE_NAME_BUF_SIZE ∧
        Paired voice_dir = true := by
  rw [forall_names, copy_strcpy, c_str_of_nul_free hd]
  refine and_congr_right fun _ => ?_
  constructor
  · rintro ⟨hfiles, hwindows⟩
    have hlongest : (ascii "/tree-gv-mgc.inf").length = 16 := by decide
    have htree := (copy_file hv (by decide)).mp (hfiles "/tree-gv-mgc.inf" (by decide))
    have hstem := (windowNames_stem "/mgc.win" (by decide)).1
    have hwindow := (copy_window hv hstem 1).mp (hwindows "/mgc.win" (by decide) 1 (by decide))
    exact ⟨hlongest ▸ htree, hwindow.1⟩
  · rintro ⟨hlength, hpaired⟩
    constructor
    · intro name hname
      obtain ⟨hnul, hle⟩ := fileNames_length name hname
      refine (copy_file hv hnul).mpr ?_
      omega
    · intro name hname n hn
      obtain ⟨hstem, hle⟩ := windowNames_stem name hname
      have hdigit : ∀ n ∈ [1, 2, 3], (decimal (n : Nat)).length = 1 := by decide +kernel
      have hhalved := halved_length_le voice_dir
      refine (copy_window hv hstem n).mpr ⟨hpaired, ?_⟩
      rw [hle, hdigit n hn]
      omega

/-- An utterance overruns no buffer exactly if its file does not open, or the strings are
short and the name of the voice prints as one. Then the converted sentence fits as well. -/
theorem noOverrun_iff (voice_dir dic_dir str : List CodeUnit) (env : Env) (beyond : Nat → Byte) :
    NoOverrun voice_dir dic_dir str env beyond ↔
      (env.opened = true → Short voice_dir dic_dir str) := by
  have hv : NUL ∉ utf8Value voice_dir := (c_str _).nul_free
  have hd : NUL ∉ utf8Value dic_dir := (c_str _).nul_free
  have hs : (c_str (utf8Value str)).bytes = utf8Value str := c_str_of_nul_free (c_str _).nul_free
  cases ho : env.opened with
  | false => simp [NoOverrun, writes, ho]
  | true =>
    have hnames := names_fit_iff hv hd
    have hconverted := text2mecab_length (utf8Value str) beyond
    simp only [NoOverrun, writes, ho, construct, hs, Bool.not_true, Bool.false_eq_true, if_false,
      List.cons_append, List.forall_mem_cons, List.forall_mem_append, List.forall_mem_map,
      copy_strcpy, hnames, forall_const]
    constructor
    · rintro ⟨hstr, ⟨hdic, hvoice, hpaired⟩, -⟩
      exact ⟨hstr, hdic, hvoice, hpaired⟩
    · intro h
      have hlength := h.str_length
      have hsize : FILE_NAME_BUF_SIZE = 128 := rfl
      have hmax : MAXBUFLEN = 1024 := rfl
      have hfits : (text2mecab (utf8Value str) beyond).length + 1 ≤ MAXBUFLEN := by omega
      exact ⟨h.str_length, ⟨h.dic_dir_length, h.voice_dir_length, h.voice_dir_paired⟩,
        ⟨_, rfl, hfits⟩, by simp⟩

/-- A sentence of 128 letters. -/
theorem long_sentence_overruns :
    ¬ NoOverrun ((ascii "voice").map unit) ((ascii "dic").map unit)
      (List.replicate 128 (unit 97)) ⟨true, 3, 0⟩ fun _ => NUL := by
  intro h
  have hlength : (utf8Value (List.replicate 128 (unit 97))).length = 128 := by decide +kernel
  have hmem : copy (.strcpy (c_str (utf8Value (List.replicate 128 (unit 97)))).bytes) ∈
      writes (construct (utf8Value ((ascii "voice").map unit)) (utf8Value ((ascii "dic").map unit)))
        (utf8Value (List.replicate 128 (unit 97))) ⟨true, 3, 0⟩ fun _ => NUL :=
    List.mem_cons_self
  have hfits := (copy_strcpy _).mp (h _ hmem)
  have hcut := @c_str_of_nul_free (utf8Value (List.replicate 128 (unit 97))) (c_str _).nul_free
  rw [hcut, hlength] at hfits
  exact absurd hfits (by decide)

end HAS.Buffers

import HAS.Stdio
import HAS.TextToSpeech

/-! The program open_jtalk, which TextToSpeech is an excerpt of: its command line and the
calls that it makes. -/
namespace HAS.OpenJTalkMain
open HAS.Bytes HAS.IRemocon HAS.OpenJTalk HAS.Stdio HAS.TextToSpeech

abbrev MAXBUFLEN : Nat := 1024

/-- The variables of main, with the values that they have before the command line. -/
structure Settings where
  dn_mecab : Option FileName := none
  fn_ms_dur : Option FileName := none
  fn_ms_mgc : Option FileName := none
  fn_ms_lf0 : Option FileName := none
  fn_ms_lpf : Option FileName := none
  fn_ts_dur : Option FileName := none
  fn_ts_mgc : Option FileName := none
  fn_ts_lf0 : Option FileName := none
  fn_ts_lpf : Option FileName := none
  fn_ws_mgc : List FileName := []
  fn_ws_lf0 : List FileName := []
  fn_ws_lpf : List FileName := []
  fn_ms_gvm : Option FileName := none
  fn_ms_gvl : Option FileName := none
  fn_ms_gvf : Option FileName := none
  fn_ts_gvm : Option FileName := none
  fn_ts_gvl : Option FileName := none
  fn_ts_gvf : Option FileName := none
  fn_gv_switch : Option FileName := none
  sampling_rate : Int := 16000
  fperiod : Int := 80
  alpha : Rat := 0.42
  stage : Int := 0
  beta : Rat := 0
  audio_buff_size : Int := 1600
  uv_threshold : Rat := 0.5
  gv_weight_mgc : Rat := 1
  gv_weight_lf0 : Rat := 1
  gv_weight_lpf : Rat := 1
  use_log_gain : Bool := false
  /-- Names of the files that wavfp, logfp and txtfp are opened on. -/
  wavfn : Option (List Byte) := none
  logfn : Option (List Byte) := none
  txtfn : Option (List Byte) := none

/-- An option with the argument that follows it; none where main exits on an invalid one. -/
def Settings.set (s : Settings) (value : List Byte) : Char → Char → Option Settings
  | 'x', _ => some { s with dn_mecab := some (.strcpy value) }
  | 't', 'd' => some { s with fn_ts_dur := some (.strcpy value) }
  | 't', 'm' => some { s with fn_ts_mgc := some (.strcpy value) }
  | 't', 'f' | 't', 'p' => some { s with fn_ts_lf0 := some (.strcpy value) }
  | 't', 'l' => some { s with fn_ts_lpf := some (.strcpy value) }
  | 'm', 'd' => some { s with fn_ms_dur := some (.strcpy value) }
  | 'm', 'm' => some { s with fn_ms_mgc := some (.strcpy value) }
  | 'm', 'f' | 'm', 'p' => some { s with fn_ms_lf0 := some (.strcpy value) }
  | 'm', 'l' => some { s with fn_ms_lpf := some (.strcpy value) }
  | 'd', 'm' => some { s with fn_ws_mgc := s.fn_ws_mgc ++ [.strcpy value] }
  | 'd', 'f' | 'd', 'p' => some { s with fn_ws_lf0 := s.fn_ws_lf0 ++ [.strcpy value] }
  | 'd', 'l' => some { s with fn_ws_lpf := s.fn_ws_lpf ++ [.strcpy value] }
  | 'o', 'w' => some { s with wavfn := some value }
  | 'o', 't' => some { s with logfn := some value }
  | 's', _ => some { s with sampling_rate := atoi value }
  | 'p', _ => some { s with fperiod := atoi value }
  | 'a', _ => some { s with alpha := atof value }
  | 'g', _ => some { s with stage := atoi value }
  | 'b', _ => some { s with beta := atof value }
  | 'u', _ => some { s with uv_threshold := atof value }
  | 'e', 'm' => some { s with fn_ts_gvm := some (.strcpy value) }
  | 'e', 'f' | 'e', 'p' => some { s with fn_ts_gvl := some (.strcpy value) }
  | 'e', 'l' => some { s with fn_ts_gvf := some (.strcpy value) }
  | 'c', 'm' => some { s with fn_ms_gvm := some (.strcpy value) }
  | 'c', 'f' | 'c', 'p' => some { s with fn_ms_gvl := some (.strcpy value) }
  | 'c', 'l' => some { s with fn_ms_gvf := some (.strcpy value) }
  | 'j', 'm' => some { s with gv_weight_mgc := atof value }
  | 'j', 'f' | 'j', 'p' => some { s with gv_weight_lf0 := atof value }
  | 'j', 'l' => some { s with gv_weight_lpf := atof value }
  | 'k', _ => some { s with fn_gv_switch := some (.strcpy value) }
  | 'z', _ => some { s with audio_buff_size := atoi value }
  | _, _ => none

/-- A character of an argument, the terminator behind its end. -/
def letter (arg : List Byte) (i : Nat) : Char := Char.ofNat (arg.getD i NUL).val

/-- The loop over the arguments. None where main prints its usage, exits on an invalid
option or finds no argument behind one that needs it. -/
def readCommand : Settings → List (List Byte) → Option Settings
  | s, [] => some s
  | s, arg :: args =>
    if letter arg 0 ≠ '-' then readCommand { s with txtfn := some arg } args
    else if letter arg 1 = 'l' then readCommand { s with use_log_gain := true } args
    else if letter arg 1 = 'h' then none
    else
      match args with
      | [] => none
      | value :: args =>
        match s.set value (letter arg 1) (letter arg 2) with
        | none => none
        | some s => readCommand s args

def OpenJTalk_initialise (use_lpf : Bool) (p : Parameters) (fperiod : Int)
    (gv_weight_lpf : Rat) : List Call :=
  [.Mecab_initialise, .NJD_initialise, .JPCommon_initialise,
    .HTS_Engine_initialise (if use_lpf then 3 else 2),
    .HTS_Engine_set_sampling_rate p.sampling_rate, .HTS_Engine_set_fperiod fperiod,
    .HTS_Engine_set_alpha p.alpha, .HTS_Engine_set_gamma p.stage,
    .HTS_Engine_set_log_gain p.use_log_gain, .HTS_Engine_set_beta p.beta,
    .HTS_Engine_set_audio_buff_size p.audio_buff_size,
    .HTS_Engine_set_msd_threshold 1 p.uv_threshold, .HTS_Engine_set_gv_weight 0 p.gv_weight_mgc,
    .HTS_Engine_set_gv_weight 1 p.gv_weight_lf0] ++
  (if use_lpf then [.HTS_Engine_set_gv_weight 2 gv_weight_lpf] else [])

def OpenJTalk_load (nstream : Nat) (f : Files) : List Call :=
  [.Mecab_load f.dn_mecab, .HTS_Engine_load_duration_from_fn f.fn_ms_dur f.fn_ts_dur,
    .HTS_Engine_load_parameter_from_fn f.fn_ms_mgc f.fn_ts_mgc f.fn_ws_mgc 0 false,
    .HTS_Engine_load_parameter_from_fn f.fn_ms_lf0 f.fn_ts_lf0 f.fn_ws_lf0 1 true,
    .HTS_Engine_get_nstream] ++
  (match f.fn_ms_lpf, f.fn_ts_lpf with
    | some pdf, some tree =>
      if nstream = 3 then [.HTS_Engine_load_parameter_from_fn pdf tree f.fn_ws_lpf 2 false] else []
    | _, _ => []) ++
  loadGv f.fn_ms_gvm f.fn_ts_gvm 0 ++ loadGv f.fn_ms_gvl f.fn_ts_gvl 1 ++
  [.HTS_Engine_get_nstream] ++
  (if nstream = 3 then loadGv f.fn_ms_gvf f.fn_ts_gvf 2 else []) ++
  (match f.fn_gv_switch with
    | none => []
    | some fn => [.HTS_Engine_load_gv_switch_from_fn fn])

/-- Without what goes to the log, behind the sound. -/
def OpenJTalk_synthesis (txt : List Byte) (wav : Bool) (labels : Nat) : List Call :=
  [.text2mecab txt, .Mecab_analysis, .mecab2njd, .njd_set_pronunciation, .njd_set_digit,
    .njd_set_accent_phrase, .njd_set_accent_type, .njd_set_unvoiced_vowel, .njd_set_long_vowel,
    .njd2jpcommon, .JPCommon_make_label, .JPCommon_get_label_size] ++
  (if labels > 2 then
    [.HTS_Engine_load_label_from_string_list, .HTS_Engine_create_sstream,
      .HTS_Engine_create_pstream, .HTS_Engine_create_gstream] ++
    (if wav then [.HTS_Engine_save_riff] else []) ++ [.HTS_Engine_refresh]
  else []) ++
  [.JPCommon_refresh, .NJD_refresh, .Mecab_refresh]

def OpenJTalk_clear : List Call :=
  [.Mecab_clear, .NJD_clear, .JPCommon_clear, .HTS_Engine_clear]

/-- The file names that main loads; none where it misses one and exits. -/
def Settings.files (s : Settings) : Option Files :=
  match s.dn_mecab, s.fn_ms_dur, s.fn_ts_dur, s.fn_ms_mgc, s.fn_ts_mgc, s.fn_ms_lf0,
    s.fn_ts_lf0 with
  | some dn_mecab, some fn_ms_dur, some fn_ts_dur, some fn_ms_mgc, some fn_ts_mgc,
    some fn_ms_lf0, some fn_ts_lf0 =>
    if s.fn_ws_mgc = [] ∨ s.fn_ws_lf0 = [] then none
    else some
      { dn_mecab, fn_ms_dur, fn_ts_dur, fn_ms_mgc, fn_ts_mgc
        fn_ws_mgc := s.fn_ws_mgc
        fn_ms_lf0, fn_ts_lf0
        fn_ws_lf0 := s.fn_ws_lf0
        fn_ms_lpf := s.fn_ms_lpf
        fn_ts_lpf := s.fn_ts_lpf
        fn_ws_lpf := s.fn_ws_lpf
        fn_ms_gvm := s.fn_ms_gvm
        fn_ts_gvm := s.fn_ts_gvm
        fn_ms_gvl := s.fn_ms_gvl
        fn_ts_gvl := s.fn_ts_gvl
        fn_ms_gvf := s.fn_ms_gvf
        fn_ts_gvf := s.fn_ts_gvf
        fn_gv_switch := s.fn_gv_switch }
  | _, _, _, _, _, _, _ => none

def Settings.parameters (s : Settings) : Parameters where
  sampling_rate := s.sampling_rate
  alpha := s.alpha
  stage := s.stage
  beta := s.beta
  audio_buff_size := s.audio_buff_size
  uv_threshold := s.uv_threshold
  gv_weight_mgc := s.gv_weight_mgc
  gv_weight_lf0 := s.gv_weight_lf0
  use_log_gain := s.use_log_gain

def Settings.use_lpf (s : Settings) : Bool :=
  s.fn_ms_lpf.isSome && s.fn_ts_lpf.isSome && s.fn_ws_lpf ≠ []

/-- The calls of main on a command line and a text file, all files opening. None where main
exits before, or reads an empty file into a buffer that nothing was written to. The labels
of a text are counted by the environment. -/
def main (argv : List (List Byte)) (text : List Byte) (labels : List Byte → Nat) :
    Option (List Call) :=
  match readCommand {} argv with
  | none => none
  | some s =>
    match s.files, fgets (MAXBUFLEN - 1) text with
    | some files, some buff =>
      some (OpenJTalk_initialise s.use_lpf s.parameters s.fperiod s.gv_weight_lpf ++
        OpenJTalk_load (if s.use_lpf then 3 else 2) files ++
        OpenJTalk_synthesis (c_str buff).bytes s.wavfn.isSome (labels (c_str buff).bytes) ++
        OpenJTalk_clear)
    | _, _ => none

/-- The file that a directory has under a name. -/
def file (voice_dir : List Byte) (name : String) : List Byte :=
  (c_str (voice_dir ++ ascii name)).bytes

/-- The command line that names the files of a voice and the parameters of make_wav. -/
def commandLine (voice_dir dic_dir : List Byte) (fperiod : Int) : List (List Byte) :=
  [ascii "-x", (c_str dic_dir).bytes,
    ascii "-td", file voice_dir "/tree-dur.inf", ascii "-tm", file voice_dir "/tree-mgc.inf",
    ascii "-tf", file voice_dir "/tree-lf0.inf", ascii "-md", file voice_dir "/dur.pdf",
    ascii "-mm", file voice_dir "/mgc.pdf", ascii "-mf", file voice_dir "/lf0.pdf",
    ascii "-dm", file voice_dir "/mgc.win1", ascii "-dm", file voice_dir "/mgc.win2",
    ascii "-dm", file voice_dir "/mgc.win3", ascii "-df", file voice_dir "/lf0.win1",
    ascii "-df", file voice_dir "/lf0.win2", ascii "-df", file voice_dir "/lf0.win3",
    ascii "-em", file voice_dir "/tree-gv-mgc.inf", ascii "-cm", file voice_dir "/gv-mgc.pdf",
    ascii "-ef", file voice_dir "/tree-gv-lf0.inf", ascii "-cf", file voice_dir "/gv-lf0.pdf",
    ascii "-k", file voice_dir "/gv-switch.inf", ascii "-s", ascii "48000",
    ascii "-p", decimal fperiod, ascii "-a", ascii "0.5", ascii "-b", ascii "0.8",
    ascii "-z", ascii "48000", ascii "-ow", ascii "__tmp__.wav", ascii "text"]

/-- A file name as the library gets it; left as it is where printing it is undefined. -/
def resolveName : FileName → FileName
  | .strcpy name => .strcpy name
  | .sprintf format n =>
    match sprintf format [n] with
    | none => .sprintf format n
    | some name => .strcpy name

def resolveCall : Call → Call
  | .Mecab_load dicdir => .Mecab_load (resolveName dicdir)
  | .HTS_Engine_load_duration_from_fn pdf tree =>
    .HTS_Engine_load_duration_from_fn (resolveName pdf) (resolveName tree)
  | .HTS_Engine_load_parameter_from_fn pdf tree win stream_index msd_flag =>
    .HTS_Engine_load_parameter_from_fn (resolveName pdf) (resolveName tree)
      (win.map resolveName) stream_index msd_flag
  | .HTS_Engine_load_gv_from_fn pdf tree stream_index =>
    .HTS_Engine_load_gv_from_fn (resolveName pdf) (tree.map resolveName) stream_index
  | .HTS_Engine_load_gv_switch_from_fn fn => .HTS_Engine_load_gv_switch_from_fn (resolveName fn)
  | c => c

def engineCall : Event → Option Call
  | .call c => some c
  | _ => none

/-- The calls of make_wav, if its file opens. -/
def makeWavCalls (voice_dir dic_dir sentence : List Byte) (fperiod : Int)
    (labels : List Byte → Nat) : List Call :=
  ((make_wav (construct voice_dir dic_dir) sentence fperiod
    ⟨true, labels (c_str sentence).bytes, 0⟩).filterMap engineCall).map resolveCall

/-- The calls up to the one that writes the sound. -/
def upToSaveRiff : List Call → List Call
  | [] => []
  | c :: cs => if c = .HTS_Engine_save_riff then [c] else c :: upToSaveRiff cs

/-- The stream whose global variance a call loads. -/
def gvStream : Call → Option Nat
  | .HTS_Engine_load_gv_from_fn _ _ stream_index => some stream_index
  | _ => none

/-- An option that takes an argument. -/
def Settings.option (s : Settings) (arg value : List Byte) : Option Settings :=
  if letter arg 0 = '-' ∧ letter arg 1 ≠ 'l' ∧ letter arg 1 ≠ 'h' then
    s.set value (letter arg 1) (letter arg 2)
  else none

theorem readCommand_option {s s' : Settings} {arg value : List Byte}
    (h : s.option arg value = some s') (args : List (List Byte)) :
    readCommand s (arg :: value :: args) = readCommand s' args := by
  unfold Settings.option at h
  split_ifs at h with hc
  simp [readCommand, hc, h]

/-- What the command line makes of the variables of main. -/
def voiceSettings (voice_dir dic_dir : List Byte) (fperiod : Int) : Settings where
  dn_mecab := some (.strcpy (c_str dic_dir).bytes)
  fn_ms_dur := some (.strcpy (file voice_dir "/dur.pdf"))
  fn_ms_mgc := some (.strcpy (file voice_dir "/mgc.pdf"))
  fn_ms_lf0 := some (.strcpy (file voice_dir "/lf0.pdf"))
  fn_ts_dur := some (.strcpy (file voice_dir "/tree-dur.inf"))
  fn_ts_mgc := some (.strcpy (file voice_dir "/tree-mgc.inf"))
  fn_ts_lf0 := some (.strcpy (file voice_dir "/tree-lf0.inf"))
  fn_ws_mgc := [.strcpy (file voice_dir "/mgc.win1"), .strcpy (file voice_dir "/mgc.win2"),
    .strcpy (file voice_dir "/mgc.win3")]
  fn_ws_lf0 := [.strcpy (file voice_dir "/lf0.win1"), .strcpy (file voice_dir "/lf0.win2"),
    .strcpy (file voice_dir "/lf0.win3")]
  fn_ms_gvm := some (.strcpy (file voice_dir "/gv-mgc.pdf"))
  fn_ms_gvl := some (.strcpy (file voice_dir "/gv-lf0.pdf"))
  fn_ts_gvm := some (.strcpy (file voice_dir "/tree-gv-mgc.inf"))
  fn_ts_gvl := some (.strcpy (file voice_dir "/tree-gv-lf0.inf"))
  fn_gv_switch := some (.strcpy (file voice_dir "/gv-switch.inf"))
  sampling_rate := 48000
  fperiod := fperiod
  alpha := 0.5
  beta := 0.8
  audio_buff_size := 48000
  wavfn := some (ascii "__tmp__.wav")
  txtfn := some (ascii "text")

theorem readCommand_commandLine (voice_dir dic_dir : List Byte) (fperiod : Int) :
    readCommand {} (commandLine voice_dir dic_dir fperiod) =
      some (voiceSettings voice_dir dic_dir fperiod) := by
  have hrate : atoi (ascii "48000") = 48000 := by decide +kernel
  have halpha : atof (ascii "0.5") = 0.5 := by decide +kernel
  have hbeta : atof (ascii "0.8") = 0.8 := by decide +kernel
  rw [commandLine]
  repeat
    rw [readCommand_option rfl]
    dsimp only
  rw [hrate, halpha, hbeta, atoi_decimal]
  rfl

/-- initialize is what OpenJTalk_initialize does without a low-pass filter. -/
theorem initialise_eq (p : Parameters) (fperiod : Int) (gv_weight_lpf : Rat) :
    OpenJTalk_initialise false p fperiod gv_weight_lpf = initialise p fperiod := by
  rfl

theorem load_eq (f : Files) : OpenJTalk_load nstream f = load f := by
  rfl

theorem synthesis_eq (txt : List Byte) (labels : Nat) :
    OpenJTalk_synthesis txt true labels = synthesis txt labels := by
  simp [OpenJTalk_synthesis, synthesis]

/-- The names that main loads for the voice. -/
def voiceFiles (voice_dir dic_dir : List Byte) : Files where
  dn_mecab := .strcpy (c_str dic_dir).bytes
  fn_ms_dur := .strcpy (file voice_dir "/dur.pdf")
  fn_ts_dur := .strcpy (file voice_dir "/tree-dur.inf")
  fn_ms_mgc := .strcpy (file voice_dir "/mgc.pdf")
  fn_ts_mgc := .strcpy (file voice_dir "/tree-mgc.inf")
  fn_ws_mgc := [.strcpy (file voice_dir "/mgc.win1"), .strcpy (file voice_dir "/mgc.win2"),
    .strcpy (file voice_dir "/mgc.win3")]
  fn_ms_lf0 := .strcpy (file voice_dir "/lf0.pdf")
  fn_ts_lf0 := .strcpy (file voice_dir "/tree-lf0.inf")
  fn_ws_lf0 := [.strcpy (file voice_dir "/lf0.win1"), .strcpy (file voice_dir "/lf0.win2"),
    .strcpy (file voice_dir "/lf0.win3")]
  fn_ms_lpf := none
  fn_ts_lpf := none
  fn_ws_lpf := []
  fn_ms_gvm := some (.strcpy (file voice_dir "/gv-mgc.pdf"))
  fn_ts_gvm := some (.strcpy (file voice_dir "/tree-gv-mgc.inf"))
  fn_ms_gvl := some (.strcpy (file voice_dir "/gv-lf0.pdf"))
  fn_ts_gvl := some (.strcpy (file voice_dir "/tree-gv-lf0.inf"))
  fn_ms_gvf := none
  fn_ts_gvf := none
  fn_gv_switch := some (.strcpy (file voice_dir "/gv-switch.inf"))

theorem main_commandLine (voice_dir dic_dir text : List Byte) (fperiod : Int)
    (labels : List Byte → Nat) :
    main (commandLine voice_dir dic_dir fperiod) text labels =
      (fgets (MAXBUFLEN - 1) text).map fun buff =>
        initialise {} fperiod ++ load (voiceFiles voice_dir dic_dir) ++
          synthesis (c_str buff).bytes (labels (c_str buff).bytes) ++ OpenJTalk_clear := by
  rw [main, readCommand_commandLine]
  cases fgets (MAXBUFLEN - 1) text with
  | none => rfl
  | some buff =>
    rw [Option.map_some, ← synthesis_eq, ← load_eq, ← initialise_eq]
    rfl

theorem makeWavCalls_eq (voice_dir dic_dir sentence : List Byte) (fperiod : Int)
    (labels : List Byte → Nat) :
    makeWavCalls voice_dir dic_dir sentence fperiod labels =
      (initialise {} fperiod ++ load (files voice_dir dic_dir) ++
        synthesis (c_str sentence).bytes (labels (c_str sentence).bytes)).map resolveCall := by
  have hcalls (cs : List Call) : (cs.map Event.call).filterMap engineCall = cs := by
    rw [List.filterMap_map]
    exact List.filterMap_some
  have hopen : [Event.fopen true].filterMap engineCall = [] := rfl
  have hclose : [Event.fclose].filterMap engineCall = [] := rfl
  simp only [makeWavCalls, make_wav, Bool.not_true, Bool.false_eq_true, if_false, construct]
  rw [List.filterMap_append, List.filterMap_append, hcalls, hopen, hclose, List.nil_append,
    List.append_nil]

/-- A window that is printed with the directory in the format has the name that open_jtalk
is given, unless the directory has a percent sign. -/
theorem resolveName_window {voice_dir stem : List Byte} (hv : NUL ∉ voice_dir)
    (hv' : PERCENT ∉ voice_dir) (hs : NUL ∉ stem) (hs' : PERCENT ∉ stem) (n : Nat) :
    resolveName (.sprintf (c_str (voice_dir ++ (stem ++ [PERCENT, 100]))).bytes n) =
      .strcpy (c_str (voice_dir ++ (stem ++ decimal n))).bytes := by
  have hformat : (c_str (voice_dir ++ (stem ++ [PERCENT, 100]))).bytes =
      (voice_dir ++ stem) ++ [PERCENT, 100] := by
    have hd : NUL ∉ [PERCENT, 100] := by decide
    rw [c_str_of_nul_free, List.append_assoc]
    simpa [hv, hs] using hd
  have hname : (c_str (voice_dir ++ (stem ++ decimal n))).bytes =
      (voice_dir ++ stem) ++ decimal n := by
    rw [c_str_of_nul_free, List.append_assoc]
    have hd : NUL ∉ decimal n := fun hmem => absurd (decimal_range hmem).1 (by decide)
    simp [hv, hs, hd]
  have hpercent : PERCENT ∉ voice_dir ++ stem := by simp [hv', hs']
  have hprint : sprintf ((voice_dir ++ stem) ++ [PERCENT, 100]) [(n : Int)] =
      some ((voice_dir ++ stem) ++ decimal n) := by
    rw [sprintf_of_paired (paired_of_notMem hpercent), sprintf_conversion, halved_eq_self hpercent]
    simp [sprintf]
  simp only [resolveName, hformat, hname, hprint]

theorem windows_resolved {voice_dir stem pattern : List Byte} (hv : NUL ∉ voice_dir)
    (hv' : PERCENT ∉ voice_dir) (hs : NUL ∉ stem) (hs' : PERCENT ∉ stem)
    (hpattern : pattern = stem ++ [PERCENT, 100]) :
    ([1, 2, 3].map fun n => FileName.sprintf (c_str (voice_dir ++ pattern)).bytes n).map
        resolveName =
      [1, 2, 3].map fun n : Nat => .strcpy (c_str (voice_dir ++ (stem ++ decimal n))).bytes := by
  rw [List.map_map, hpattern]
  exact List.map_congr_left fun n _ => resolveName_window hv hv' hs hs' n

/-- But for the global variance of log F0, make_wav loads what open_jtalk loads. -/
theorem load_files_resolved {voice_dir : List Byte} (hv : NUL ∉ voice_dir)
    (hv' : PERCENT ∉ voice_dir) (dic_dir : List Byte) :
    (load (files voice_dir dic_dir)).map resolveCall =
      (load (voiceFiles voice_dir dic_dir)).filter fun c => gvStream c ≠ some 1 := by
  have hmgc : (files voice_dir dic_dir).fn_ws_mgc.map resolveName =
      (voiceFiles voice_dir dic_dir).fn_ws_mgc :=
    @windows_resolved _ (ascii "/mgc.win") _ hv hv' (by decide) (by decide) (by decide)
  have hlf0 : (files voice_dir dic_dir).fn_ws_lf0.map resolveName =
      (voiceFiles voice_dir dic_dir).fn_ws_lf0 :=
    @windows_resolved _ (ascii "/lf0.win") _ hv hv' (by decide) (by decide) (by decide)
  calc (load (files voice_dir dic_dir)).map resolveCall
      = load { voiceFiles voice_dir dic_dir with
          fn_ws_mgc := (files voice_dir dic_dir).fn_ws_mgc.map resolveName
          fn_ws_lf0 := (files voice_dir dic_dir).fn_ws_lf0.map resolveName
          fn_ms_gvl := none } := rfl
    _ = load { voiceFiles voice_dir dic_dir with fn_ms_gvl := none } := by rw [hmgc, hlf0]
    _ = (load (voiceFiles voice_dir dic_dir)).filter fun c => gvStream c ≠ some 1 := rfl

/-- Where no directive stands in the name of the voice and the sentence is one line, that
is the only difference. -/
theorem upToSaveRiff_makeWavCalls {voice_dir dic_dir sentence : List Byte} {fperiod : Int}
    {labels : List Byte → Nat} {calls : List Call} (hv : NUL ∉ voice_dir)
    (hv' : PERCENT ∉ voice_dir)
    (hline : fgets (MAXBUFLEN - 1) (c_str sentence).bytes = some (c_str sentence).bytes)
    (hlabels : labels (c_str sentence).bytes > 2)
    (hmain : main (commandLine voice_dir dic_dir fperiod) (c_str sentence).bytes labels =
      some calls) :
    upToSaveRiff (makeWavCalls voice_dir dic_dir sentence fperiod labels) =
      (upToSaveRiff calls).filter fun c => gvStream c ≠ some 1 := by
  have hcut : (c_str (c_str sentence).bytes).bytes = (c_str sentence).bytes :=
    c_str_of_nul_free (c_str sentence).nul_free
  rw [main_commandLine, hline, Option.map_some, hcut] at hmain
  obtain rfl := Option.some.inj hmain
  rw [makeWavCalls_eq, List.map_append, List.map_append, load_files_resolved hv hv' dic_dir]
  simp only [synthesis, if_pos hlabels]
  rfl

end HAS.OpenJTalkMain

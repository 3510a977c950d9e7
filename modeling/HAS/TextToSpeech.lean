import HAS.OpenJTalk
import HAS.Run

/-! The class TextToSpeech: its engine calls, its members and its sound source, over the
life of an object. -/
namespace HAS.TextToSpeech
open HAS.Bytes HAS.OpenJTalk HAS.Run HAS.Typestate

/-- The parameters that make_wav fixes. -/
structure Parameters where
  sampling_rate : Int := 48000
  alpha : Rat := 0.5
  stage : Int := 0
  beta : Rat := 0.8
  audio_buff_size : Int := 48000
  uv_threshold : Rat := 0.5
  gv_weight_mgc : Rat := 1
  gv_weight_lf0 : Rat := 1
  use_log_gain : Bool := false

abbrev nstream : Nat := 2

def initialise (p : Parameters) (fperiod : Int) : List Call :=
  [.Mecab_initialise, .NJD_initialise, .JPCommon_initialise, .HTS_Engine_initialise nstream,
    .HTS_Engine_set_sampling_rate p.sampling_rate, .HTS_Engine_set_fperiod fperiod,
    .HTS_Engine_set_alpha p.alpha, .HTS_Engine_set_gamma p.stage,
    .HTS_Engine_set_log_gain p.use_log_gain, .HTS_Engine_set_beta p.beta,
    .HTS_Engine_set_audio_buff_size p.audio_buff_size,
    .HTS_Engine_set_msd_threshold 1 p.uv_threshold, .HTS_Engine_set_gv_weight 0 p.gv_weight_mgc,
    .HTS_Engine_set_gv_weight 1 p.gv_weight_lf0]

/-- File names of load, in the order of its parameters. -/
structure Files where
  dn_mecab : FileName
  fn_ms_dur : FileName
  fn_ts_dur : FileName
  fn_ms_mgc : FileName
  fn_ts_mgc : FileName
  fn_ws_mgc : List FileName
  fn_ms_lf0 : FileName
  fn_ts_lf0 : FileName
  fn_ws_lf0 : List FileName
  fn_ms_lpf : Option FileName
  fn_ts_lpf : Option FileName
  fn_ws_lpf : List FileName
  fn_ms_gvm : Option FileName
  fn_ts_gvm : Option FileName
  fn_ms_gvl : Option FileName
  fn_ts_gvl : Option FileName
  fn_ms_gvf : Option FileName
  fn_ts_gvf : Option FileName
  fn_gv_switch : Option FileName

/-- The global variance of one stream, if a file is named. -/
def loadGv (pdf tree : Option FileName) (stream_index : Nat) : List Call :=
  match pdf with
  | none => []
  | some pdf => [.HTS_Engine_load_gv_from_fn pdf tree stream_index]

def load (f : Files) : List Call :=
  [.Mecab_load f.dn_mecab, .HTS_Engine_load_duration_from_fn f.fn_ms_dur f.fn_ts_dur,
    .HTS_Engine_load_parameter_from_fn f.fn_ms_mgc f.fn_ts_mgc f.fn_ws_mgc 0 false,
    .HTS_Engine_load_parameter_from_fn f.fn_ms_lf0 f.fn_ts_lf0 f.fn_ws_lf0 1 true,
    .HTS_Engine_get_nstream] ++
  (match f.fn_ms_lpf, f.fn_ts_lpf with
    | some pdf, some tree =>
      if nstream = 3 then [.HTS_Engine_load_parameter_from_fn pdf tree f.fn_ws_lpf 2 false] else []
    | _, _ => []) ++
  loadGv f.fn_ms_gvm f.fn_ts_gvm 0 ++ loadGv f.fn_ms_gvl f.fn_ts_gvl 1 ++
  [.HTS_Engine_get_nstream] ++
  (if nstream = 3 then loadGv f.fn_ms_gvf f.fn_ts_gvf 2 else []) ++
  (match f.fn_gv_switch with
    | none => []
    | some fn => [.HTS_Engine_load_gv_switch_from_fn fn])

/-- The labels that JPCommon makes of the text are counted by the environment. -/
def synthesis (txt : List Byte) (labels : Nat) : List Call :=
  [.text2mecab txt, .Mecab_analysis, .mecab2njd, .njd_set_pronunciation, .njd_set_digit,
    .njd_set_accent_phrase, .njd_set_accent_type, .njd_set_unvoiced_vowel, .njd_set_long_vowel,
    .njd2jpcommon, .JPCommon_make_label, .JPCommon_get_label_size] ++
  (if labels > 2 then
    [.HTS_Engine_load_label_from_string_list, .HTS_Engine_create_sstream,
      .HTS_Engine_create_pstream, .HTS_Engine_create_gstream, .HTS_Engine_save_riff,
      .HTS_Engine_refresh]
  else []) ++
  [.JPCommon_refresh, .NJD_refresh, .Mecab_refresh]

/-- The file names of make_wav; the window names are printed with the directory as a
part of the format. -/
def files (voice_dir dic_dir : List Byte) : Files :=
  let copy (name : String) : FileName := .strcpy (c_str (voice_dir ++ ascii name)).bytes
  let windows (name : String) : List FileName :=
    [1, 2, 3].map fun i => .sprintf (c_str (voice_dir ++ ascii name)).bytes i
  { dn_mecab := .strcpy (c_str dic_dir).bytes
    fn_ms_dur := copy "/dur.pdf"
    fn_ts_dur := copy "/tree-dur.inf"
    fn_ms_mgc := copy "/mgc.pdf"
    fn_ts_mgc := copy "/tree-mgc.inf"
    fn_ws_mgc := windows "/mgc.win%d"
    fn_ms_lf0 := copy "/lf0.pdf"
    fn_ts_lf0 := copy "/tree-lf0.inf"
    fn_ws_lf0 := windows "/lf0.win%d"
    fn_ms_lpf := none
    fn_ts_lpf := none
    fn_ws_lpf := []
    fn_ms_gvm := some (copy "/gv-mgc.pdf")
    fn_ts_gvm := some (copy "/tree-gv-mgc.inf")
    fn_ms_gvl := none
    fn_ts_gvl := none
    fn_ms_gvf := some (copy "/gv-lf0.pdf")
    fn_ts_gvf := some (copy "/tree-gv-lf0.inf")
    fn_gv_switch := some (copy "/gv-switch.inf") }

inductive Member where
  | str_ | fperiod_ | wav_src_
deriving DecidableEq

inductive Event where
  | fopen (ok : Bool)
  | fclose
  | call (c : Call)
  | write (m : Member)
  | read (m : Member)
  | alGenSources
  /-- alSourcei, alSourcePlay, alGetSourcei or alSourceStop on wav_src_. -/
  | alSource
  | alDeleteSources
  | remove

/-- What a call of talk or retalk meets: does fopen succeed, how many labels has the
text, how often is the source still playing? -/
structure Env where
  opened : Bool
  labels : Nat
  polls : Nat

structure Object where
  voice_dir_ : List Byte
  dic_dir_ : List Byte
  str_ : List Byte
  /-- None until it is written. -/
  fperiod_ : Option Int

def construct (voice_dir dic_dir : List Byte) : Object := ⟨voice_dir, dic_dir, [], none⟩

def make_wav (o : Object) (sentence : List Byte) (fperiod : Int) (env : Env) : List Event :=
  if !env.opened then [.fopen false]
  else
    [.fopen true] ++ ((initialise {} fperiod ++ load (files o.voice_dir_ o.dic_dir_) ++
      synthesis (c_str sentence).bytes env.labels).map .call) ++ [.fclose]

def play_wav (env : Env) : List Event :=
  [.alGenSources, .alSource, .alSource, .alSource] ++ List.replicate env.polls .alSource ++
    [.alDeleteSources]

inductive Action where
  | talk (str : List Byte) (fperiod : Int) (env : Env)
  | retalk (env : Env)
  | stop

def step (o : Object) : Action → Object × List Event
  | .talk str fperiod env =>
    ({ o with str_ := str, fperiod_ := some fperiod },
      [.write .str_, .write .fperiod_] ++ make_wav o str fperiod env ++ play_wav env ++ [.remove])
  | .retalk env =>
    (o, [.read .str_, .read .str_, .read .fperiod_] ++
      make_wav o o.str_ (o.fperiod_.getD 0) env ++ play_wav env ++ [.remove])
  | .stop => (o, [.alSource])

def machine : Machine Object Action Event := ⟨step⟩

def destruct : List Event :=
  [.call .Mecab_clear, .call .NJD_clear, .call .JPCommon_clear, .call .HTS_Engine_clear]

/-- All events in the life of an object. -/
def lifetime (voice_dir dic_dir : List Byte) (actions : List Action) : List Event :=
  machine.trace (construct voice_dir dic_dir) actions ++ destruct

def Event.op (c : Component) : Event → Option Op
  | call k => k.op c
  | _ => none

def Event.access (m : Member) : Event → Option Access
  | write m' => if m = m' then some .write else none
  | read m' => if m = m' then some .read else none
  | alGenSources => if m = .wav_src_ then some .write else none
  | alSource | alDeleteSources => if m = .wav_src_ then some .read else none
  | _ => none

def Event.interval : Event → Option Interval
  | alGenSources => some .enter
  | alSource => some .use
  | alDeleteSources => some .leave
  | _ => none

def componentProtocol (c : Component) : Protocol Phase Event := lifecycle.comap (Event.op c)
def memberProtocol (m : Member) : Protocol Bool Event := writtenFirst.comap (Event.access m)
def sourceProtocol : Protocol Bool Event := within.comap Event.interval

/-- The components are initialised, used and cleared in order, no member is read before
it is written, and wav_src_ is used only while there is a source. -/
structure Lawful (events : List Event) : Prop where
  components : ∀ c, ∃ phase, (componentProtocol c).run .uninitialised events = some phase ∧
    phase ≠ .initialised
  members : ∀ m, ((memberProtocol m).run false events).isSome = true
  source : (sourceProtocol.run false events).isSome = true

/-- Does the action write a wav file? -/
def Action.opened : Action → Bool
  | talk _ _ env => env.opened
  | retalk env => env.opened
  | stop => false

def Action.isTalk : Action → Bool
  | talk _ _ _ => true
  | _ => false

def Action.isRetalk : Action → Bool
  | retalk _ => true
  | _ => false

def Action.isStop : Action → Bool
  | stop => true
  | _ => false

/-- The calls of one utterance initialise every component and use it, so that they can
follow neither each other nor nothing. -/
theorem component_utterance (c : Component) (o : Object) (sentence : List Byte) (fperiod : Int)
    {env : Env} (h : env.opened = true) :
    (componentProtocol c).run .uninitialised (make_wav o sentence fperiod env) =
        some .initialised ∧
      (componentProtocol c).run .initialised (make_wav o sentence fperiod env) = none := by
  have hm : make_wav o sentence fperiod env = [.fopen true] ++ ((initialise {} fperiod ++
      load (files o.voice_dir_ o.dic_dir_) ++
      synthesis (c_str sentence).bytes env.labels).map .call) ++ [.fclose] := by
    simp [make_wav, h]
  rw [hm]
  by_cases hl : env.labels > 2
  · simp only [synthesis, if_pos hl]
    cases c <;> exact ⟨rfl, rfl⟩
  · simp only [synthesis, if_neg hl]
    cases c <;> exact ⟨rfl, rfl⟩

theorem component_quiet (c : Component) (q : Phase) {events : List Event}
    (h : ∀ e ∈ events, e.op c = none) : (componentProtocol c).run q events = some q := by
  refine Protocol.run_stable fun e he => ?_
  simp [componentProtocol, Protocol.comap, h e he]

theorem play_wav_op (c : Component) (env : Env) : ∀ e ∈ play_wav env ++ [.remove], e.op c = none := by
  intro e he
  simp only [play_wav, List.mem_append, List.mem_cons, List.not_mem_nil, or_false,
    List.mem_replicate] at he
  rcases he with (((rfl | rfl | rfl | rfl) | ⟨_, rfl⟩) | rfl) | rfl <;> rfl

theorem component_make_wav (c : Component) (o : Object) (sentence : List Byte) (fperiod : Int)
    (env : Env) :
    (componentProtocol c).run .uninitialised (make_wav o sentence fperiod env) =
        some (if env.opened then .initialised else .uninitialised) ∧
      (componentProtocol c).run .initialised (make_wav o sentence fperiod env) =
        if env.opened then none else some .initialised := by
  cases h : env.opened with
  | true => exact component_utterance c o sentence fperiod h
  | false =>
    have hm : make_wav o sentence fperiod env = [.fopen false] := by simp [make_wav, h]
    rw [hm]
    exact ⟨rfl, rfl⟩

theorem component_step (c : Component) (o : Object) (a : Action) :
    (componentProtocol c).run .uninitialised (step o a).2 =
        some (if a.opened then .initialised else .uninitialised) ∧
      (componentProtocol c).run .initialised (step o a).2 =
        if a.opened then none else some .initialised := by
  have hquiet (before after : List Event) (mid : List Event) (q : Phase)
      (hb : ∀ e ∈ before, e.op c = none) (ha : ∀ e ∈ after, e.op c = none) :
      (componentProtocol c).run q (before ++ mid ++ after) = (componentProtocol c).run q mid := by
    rw [Protocol.run_append, Protocol.run_append, component_quiet c q hb, Option.bind_some]
    cases (componentProtocol c).run q mid with
    | none => rfl
    | some q' => exact component_quiet c q' ha
  cases a with
  | talk str fperiod env =>
    have hb : ∀ e ∈ ([.write .str_, .write .fperiod_] : List Event), e.op c = none := by
      simp [Event.op]
    simp only [step, List.append_assoc _ (play_wav env), hquiet _ _ _ _ hb (play_wav_op c env)]
    exact component_make_wav c o str fperiod env
  | retalk env =>
    have hb : ∀ e ∈ ([.read .str_, .read .str_, .read .fperiod_] : List Event), e.op c = none := by
      simp [Event.op]
    simp only [step, List.append_assoc _ (play_wav env), hquiet _ _ _ _ hb (play_wav_op c env)]
    exact component_make_wav c o _ _ env
  | stop => exact ⟨rfl, rfl⟩

theorem component_initialised (c : Component) (o : Object) (actions : List Action) :
    (componentProtocol c).run .initialised (machine.trace o actions) =
      if actions.countP Action.opened = 0 then some .initialised else none := by
  induction actions generalizing o with
  | nil => rfl
  | cons a actions ih =>
    have hs : (componentProtocol c).run .initialised (machine.step o a).2 = _ :=
      (component_step c o a).2
    rw [Machine.trace, Protocol.run_append, hs]
    cases ha : a.opened with
    | true => simp [ha]
    | false => simpa [ha] using ih _

theorem component_uninitialised (c : Component) (o : Object) (actions : List Action) :
    (componentProtocol c).run .uninitialised (machine.trace o actions) =
      if actions.countP Action.opened = 0 then some .uninitialised
      else if actions.countP Action.opened = 1 then some .initialised else none := by
  induction actions generalizing o with
  | nil => rfl
  | cons a actions ih =>
    have hs : (componentProtocol c).run .uninitialised (machine.step o a).2 = _ :=
      (component_step c o a).1
    rw [Machine.trace, Protocol.run_append, hs]
    cases ha : a.opened with
    | true =>
      have h := component_initialised c (machine.step o a).1 actions
      simpa [ha] using h
    | false => simpa [ha] using ih _

/-- A component is cleared once, after one initialisation, exactly in the lives with one
wav file. -/
theorem component_lifetime (c : Component) (voice_dir dic_dir : List Byte)
    (actions : List Action) :
    (∃ phase, (componentProtocol c).run .uninitialised (lifetime voice_dir dic_dir actions) =
      some phase ∧ phase ≠ .initialised) ↔ actions.countP Action.opened = 1 := by
  have hi : (componentProtocol c).run .initialised destruct = some .cleared := by cases c <;> rfl
  have hu : (componentProtocol c).run .uninitialised destruct = none := by cases c <;> rfl
  rw [lifetime, Protocol.run_append, component_uninitialised]
  by_cases h0 : actions.countP Action.opened = 0
  · simp [h0, hu]
  · by_cases h1 : actions.countP Action.opened = 1
    · simp [h1, hi]
    · simp [h0, h1]

/-- What was written may be read from then on. -/
theorem member_written (m : Member) (events : List Event) :
    (memberProtocol m).run true events = some true := by
  refine Protocol.run_stable fun e _ => ?_
  simp only [memberProtocol, Protocol.comap, writtenFirst]
  cases e.access m with
  | none => rfl
  | some k => cases k <;> rfl

/-- Between the first two events and play_wav no member is touched. -/
theorem make_wav_access (m : Member) (o : Object) (sentence : List Byte) (fperiod : Int)
    (env : Env) : ∀ e ∈ make_wav o sentence fperiod env, e.access m = none ∧ e.interval = none := by
  intro e he
  unfold make_wav at he
  split_ifs at he
  · obtain rfl := List.mem_singleton.mp he
    exact ⟨rfl, rfl⟩
  · rcases List.mem_append.mp he with he | he
    · rcases List.mem_append.mp he with he | he
      · obtain rfl := List.mem_singleton.mp he
        exact ⟨rfl, rfl⟩
      · obtain ⟨k, _, rfl⟩ := List.mem_map.mp he
        exact ⟨rfl, rfl⟩
    · obtain rfl := List.mem_singleton.mp he
      exact ⟨rfl, rfl⟩

theorem member_make_wav (m : Member) (b : Bool) (o : Object) (sentence : List Byte) (fperiod : Int)
    (env : Env) : (memberProtocol m).run b (make_wav o sentence fperiod env) = some b := by
  refine Protocol.run_stable fun e he => ?_
  simp [memberProtocol, Protocol.comap, (make_wav_access m o sentence fperiod env e he).1]

theorem source_make_wav (o : Object) (sentence : List Byte) (fperiod : Int) (env : Env) :
    sourceProtocol.run false (make_wav o sentence fperiod env) = some false := by
  refine Protocol.run_stable fun e he => ?_
  simp [sourceProtocol, Protocol.comap, (make_wav_access .str_ o sentence fperiod env e he).2]

/-- str_ and fperiod_ are written by talk, read by retalk, and left alone by stop. -/
theorem member_step {m : Member} (hm : m ≠ .wav_src_) (o : Object) (a : Action) :
    (memberProtocol m).run false (step o a).2 =
      if a.isTalk then some true else if a.isRetalk then none else some false := by
  cases a with
  | talk str fperiod env =>
    have hw : (memberProtocol m).run false [.write .str_, .write .fperiod_] = some true := by
      cases m with
      | str_ => rfl
      | fperiod_ => rfl
      | wav_src_ => exact absurd rfl hm
    simp only [step, List.append_assoc, Protocol.run_append, hw, Option.bind_some, member_written]
    rfl
  | retalk env =>
    have hr : (memberProtocol m).run false [.read .str_, .read .str_, .read .fperiod_] = none := by
      cases m with
      | str_ => rfl
      | fperiod_ => rfl
      | wav_src_ => exact absurd rfl hm
    simp only [step, List.append_assoc, Protocol.run_append, hr, Option.bind_none]
    rfl
  | stop =>
    cases m with
    | str_ => rfl
    | fperiod_ => rfl
    | wav_src_ => exact absurd rfl hm

theorem member_lifetime {m : Member} (hm : m ≠ .wav_src_) (voice_dir dic_dir : List Byte)
    (actions : List Action) :
    ((memberProtocol m).run false (lifetime voice_dir dic_dir actions)).isSome = true ↔
      ∀ a ∈ actions.takeWhile (fun a => !a.isTalk), a.isRetalk = false := by
  unfold lifetime
  generalize construct voice_dir dic_dir = o
  induction actions generalizing o with
  | nil =>
    have hd : (memberProtocol m).run false destruct = some false := by cases m <;> rfl
    simp [Machine.trace, hd]
  | cons a actions ih =>
    have hs : (memberProtocol m).run false (machine.step o a).2 = _ := member_step hm o a
    rw [Machine.trace, List.append_assoc, Protocol.run_append, hs]
    cases ht : a.isTalk with
    | true => simp [ht, member_written]
    | false =>
      cases hr : a.isRetalk with
      | true => simp [ht, hr]
      | false => simpa [ht, hr] using ih (machine.step o a).1

/-- One playback: the source exists while it is used. -/
theorem source_play_wav (env : Env) :
    sourceProtocol.run false (play_wav env ++ [.remove]) = some false := by
  have hpolls : sourceProtocol.run true (List.replicate env.polls .alSource) = some true := by
    refine Protocol.run_stable fun e he => ?_
    obtain rfl := List.eq_of_mem_replicate he
    rfl
  have hstart : sourceProtocol.run false [.alGenSources, .alSource, .alSource, .alSource] =
      some true := rfl
  simp only [play_wav, Protocol.run_append, hstart, hpolls, Option.bind_some]
  rfl

theorem source_step (o : Object) (a : Action) :
    sourceProtocol.run false (step o a).2 = if a.isStop then none else some false := by
  cases a with
  | talk str fperiod env =>
    have hw : sourceProtocol.run false [.write .str_, .write .fperiod_] = some false := rfl
    simp only [step, List.append_assoc _ (play_wav env), Protocol.run_append, hw, Option.bind_some,
      source_make_wav]
    rw [← Protocol.run_append, source_play_wav]
    rfl
  | retalk env =>
    have hr : sourceProtocol.run false [.read .str_, .read .str_, .read .fperiod_] =
        some false := rfl
    simp only [step, List.append_assoc _ (play_wav env), Protocol.run_append, hr, Option.bind_some,
      source_make_wav]
    rw [← Protocol.run_append, source_play_wav]
    rfl
  | stop => rfl

theorem source_lifetime (voice_dir dic_dir : List Byte) (actions : List Action) :
    (sourceProtocol.run false (lifetime voice_dir dic_dir actions)).isSome = true ↔
      ∀ a ∈ actions, a.isStop = false := by
  unfold lifetime
  generalize construct voice_dir dic_dir = o
  induction actions generalizing o with
  | nil =>
    have hd : sourceProtocol.run false destruct = some false := rfl
    simp [Machine.trace, hd]
  | cons a actions ih =>
    have hs : sourceProtocol.run false (machine.step o a).2 = _ := source_step o a
    rw [Machine.trace, List.append_assoc, Protocol.run_append, hs]
    cases ht : a.isStop with
    | true => simp [ht]
    | false => simpa [ht] using ih (machine.step o a).1

/-- Every action but stop gives wav_src_ a value before it uses it. -/
theorem wav_src_lifetime {actions : List Action} (h : ∀ a ∈ actions, a.isStop = false)
    (voice_dir dic_dir : List Byte) :
    ((memberProtocol .wav_src_).run false (lifetime voice_dir dic_dir actions)).isSome = true := by
  have hplay (env : Env) (rest : List Event) :
      ((memberProtocol .wav_src_).run false (play_wav env ++ rest)) = some true := by
    rw [play_wav, List.append_assoc, List.append_assoc]
    exact member_written _ _
  cases actions with
  | nil => rfl
  | cons a actions =>
    rw [lifetime, Machine.trace, List.append_assoc, Protocol.run_append]
    have hs : (memberProtocol .wav_src_).run false (machine.step (construct voice_dir dic_dir) a).2 =
        some true := by
      cases a with
      | talk str fperiod env =>
        have hw : (memberProtocol .wav_src_).run false [.write .str_, .write .fperiod_] =
            some false := rfl
        simp only [machine, step, List.append_assoc _ (play_wav env)]
        rw [Protocol.run_append, Protocol.run_append, hw, Option.bind_some, member_make_wav,
          Option.bind_some, hplay]
      | retalk env =>
        have hr : (memberProtocol .wav_src_).run false
            [.read .str_, .read .str_, .read .fperiod_] = some false := rfl
        simp only [machine, step, List.append_assoc _ (play_wav env)]
        rw [Protocol.run_append, Protocol.run_append, hr, Option.bind_some, member_make_wav,
          Option.bind_some, hplay]
      | stop => exact absurd (h .stop (by simp)) (by decide)
    rw [hs, Option.bind_some, member_written]
    rfl

/-- The lives of an object that follow all protocols: one wav file is written, nothing
is stopped, and nothing is said again before something was said. -/
structure Proper (actions : List Action) : Prop where
  one_wav : actions.countP Action.opened = 1
  no_stop : ∀ a ∈ actions, a.isStop = false
  talk_first : ∀ a ∈ actions.takeWhile (fun a => !a.isTalk), a.isRetalk = false

theorem lawful_iff (voice_dir dic_dir : List Byte) (actions : List Action) :
    Lawful (lifetime voice_dir dic_dir actions) ↔ Proper actions := by
  constructor
  · intro h
    have hc := (component_lifetime .mecab voice_dir dic_dir actions).mp (h.components .mecab)
    have hs := (source_lifetime voice_dir dic_dir actions).mp h.source
    have hm : (Member.str_) ≠ .wav_src_ := by decide
    exact ⟨hc, hs, (member_lifetime hm voice_dir dic_dir actions).mp (h.members .str_)⟩
  · intro h
    have hc (c : Component) := (component_lifetime c voice_dir dic_dir actions).mpr h.one_wav
    have hs := (source_lifetime voice_dir dic_dir actions).mpr h.no_stop
    refine ⟨hc, fun m => ?_, hs⟩
    by_cases hm : m = .wav_src_
    · rw [hm]
      exact wav_src_lifetime h.no_stop voice_dir dic_dir
    · exact (member_lifetime hm voice_dir dic_dir actions).mpr h.talk_first

/-- Two utterances initialise Mecab a second time. -/
theorem two_talks_not_lawful :
    ¬ Lawful (lifetime (ascii "voice") (ascii "dic")
      [.talk (ascii "a") 240 ⟨true, 3, 0⟩, .talk (ascii "b") 240 ⟨true, 3, 0⟩]) := by
  intro h
  obtain ⟨phase, hrun, _⟩ := h.components .mecab
  have hnone : (componentProtocol .mecab).run .uninitialised (lifetime (ascii "voice") (ascii "dic")
      [.talk (ascii "a") 240 ⟨true, 3, 0⟩, .talk (ascii "b") 240 ⟨true, 3, 0⟩]) = none := by
    rfl
  rw [hnone] at hrun
  cases hrun

end HAS.TextToSpeech

import HAS.IRemocon
import HAS.TextToSpeech

/-! The classes that JavaScript sees: iRemoconJS, TextToSpeechJS and JuliusJS, each a
pointer to the wrapped object and a flag. -/
namespace HAS.Wrappers
open HAS.Bytes HAS.Unicode HAS.Run

/-- A JavaScript value, as far as conversions ask. -/
structure Value where
  /-- None if converting to a string throws. -/
  toString : Option (List CodeUnit)
  Int32Value : Int
  IsInt32 : Bool

def undefined : Value := ⟨some ((ascii "undefined").map unit), 0, false⟩

abbrev Arguments := List Value

/-- args[i], undefined where it is missing. -/
def arg (args : Arguments) (i : Nat) : Value := args.getD i undefined

/-- String::Utf8Value, null if the conversion throws. -/
def Utf8Value (v : Value) : Option CString := v.toString.map fun s => c_str (encode s)

/-- How a call of func ends. -/
inductive Ending where
  | returned
  | nullDereference
  | exception
  | exited
deriving DecidableEq

/-- What a call does with the wrapped object. -/
inductive Operation where
  | request (r : IRemocon.Request)
  | speech (a : TextToSpeech.Action)
  | recognition

structure Wrapper (P : Type) where
  pointer : Option P
  if_initialized_ : Bool

def Wrapper.new {P : Type} : Wrapper P := ⟨none, false⟩

structure Outcome (P : Type) where
  wrapper : Wrapper P
  operations : List Operation
  ending : Ending

section
variable {P : Type}

/-- The pointer is assigned, then the flag. -/
def Wrapper.assign (p : P) : Outcome P := ⟨⟨some p, true⟩, [], .returned⟩

/-- An exception, or exit, before the assignment. -/
def Wrapper.fail (w : Wrapper P) (ending : Ending) : Outcome P := ⟨w, [], ending⟩

/-- A method that calls through the pointer. -/
def Wrapper.through (w : Wrapper P) (f : P → P × List Operation) : Outcome P :=
  match w.pointer with
  | none => w.fail .nullDereference
  | some p => ⟨{ w with pointer := some (f p).1 }, (f p).2, .returned⟩

/-- if (!initialized()) return false; -/
def Wrapper.guarded (w : Wrapper P) (rest : Outcome P) : Outcome P :=
  if !w.if_initialized_ then ⟨w, [], .returned⟩ else rest

end

/-- Address and port of an iRemocon. -/
structure Endpoint where
  ip : CString
  port : Int

inductive IRemoconMethod where
  | connect | send | receive | exec_command
deriving DecidableEq

/-- iRemoconJS::func. Which addresses from_string accepts is up to boost. -/
def iRemoconFunc (from_string : CString → Bool) (w : Wrapper Endpoint) (args : Arguments) :
    IRemoconMethod → Outcome Endpoint
  | .connect =>
    match Utf8Value (arg args 0) with
    | none => w.fail .exception
    | some ip =>
      if from_string ip then Wrapper.assign ⟨ip, (arg args 1).Int32Value⟩ else w.fail .exception
  | .send => w.guarded (w.through fun p => (p, [.request (.send (arg args 0).Int32Value)]))
  | .receive => w.guarded (w.through fun p => (p, [.request (.receive (arg args 0).Int32Value)]))
  | .exec_command => w.guarded <|
    match (arg args 0).toString with
    | none => w.fail .exception
    | some command => w.through fun p => (p, [.request (.exec_command command)])

inductive OpenJTalkMethod where
  | init | talk | retalk | stop
deriving DecidableEq

def talkFperiod (args : Arguments) : Int :=
  if (arg args 1).IsInt32 then (arg args 1).Int32Value else 220

/-- One action on the object behind the pointer. -/
def speak (a : TextToSpeech.Action) (o : TextToSpeech.Object) :
    TextToSpeech.Object × List Operation :=
  ((TextToSpeech.step o a).1, [.speech a])

/-- TextToSpeechJS::func. -/
def textToSpeechFunc (w : Wrapper TextToSpeech.Object) (args : Arguments)
    (env : TextToSpeech.Env) : OpenJTalkMethod → Outcome TextToSpeech.Object
  | .init =>
    match Utf8Value (arg args 0), Utf8Value (arg args 1) with
    | some voice_dir, some dic_dir =>
      Wrapper.assign (TextToSpeech.construct voice_dir.bytes dic_dir.bytes)
    | _, _ => w.fail .exception
  | .talk => w.guarded <|
    match Utf8Value (arg args 0) with
    | none => w.fail .exception
    | some str => w.through (speak (.talk str.bytes (talkFperiod args) env))
  | .retalk => w.guarded (w.through (speak (.retalk env)))
  | .stop => w.guarded (w.through (speak .stop))

inductive JuliusMethod where
  | init | start
deriving DecidableEq

/-- JuliusJS::func. Julius::init ends the process where the configuration is no good. -/
def juliusFunc {P : Type} (Julius : CString → P) (w : Wrapper P) (args : Arguments)
    (configured : Bool) : JuliusMethod → Outcome P
  | .init =>
    match Utf8Value (arg args 0) with
    | none => w.fail .exception
    | some jconf_path =>
      if configured then Wrapper.assign (Julius jconf_path) else w.fail .exited
  | .start => w.through fun p => (p, [.recognition])

inductive Class where
  | iRemocon | openJTalk | julius
deriving DecidableEq

inductive Object where
  | iRemocon (w : Wrapper Endpoint)
  | openJTalk (w : Wrapper TextToSpeech.Object)
  | julius (w : Wrapper CString)

def Object.new : Class → Object
  | .iRemocon => .iRemocon Wrapper.new
  | .openJTalk => .openJTalk Wrapper.new
  | .julius => .julius Wrapper.new

/-- new, and calls of the exported methods on the objects made so far. -/
inductive Action where
  | new (c : Class)
  | iRemocon (id : Nat) (m : IRemoconMethod) (args : Arguments)
  | openJTalk (id : Nat) (m : OpenJTalkMethod) (args : Arguments) (env : TextToSpeech.Env)
  | julius (id : Nat) (m : JuliusMethod) (args : Arguments) (configured : Bool)

def step (from_string : CString → Bool) (objects : List Object) :
    Action → List Object × List (List Operation × Ending)
  | .new c => (objects ++ [Object.new c], [])
  | .iRemocon id m args =>
    match objects[id]? with
    | some (.iRemocon w) =>
      let out := iRemoconFunc from_string w args m
      (objects.set id (.iRemocon out.wrapper), [(out.operations, out.ending)])
    | _ => (objects, [])
  | .openJTalk id m args env =>
    match objects[id]? with
    | some (.openJTalk w) =>
      let out := textToSpeechFunc w args env m
      (objects.set id (.openJTalk out.wrapper), [(out.operations, out.ending)])
    | _ => (objects, [])
  | .julius id m args configured =>
    match objects[id]? with
    | some (.julius w) =>
      let out := juliusFunc (fun p => p) w args configured m
      (objects.set id (.julius out.wrapper), [(out.operations, out.ending)])
    | _ => (objects, [])

def machine (from_string : CString → Bool) :
    Machine (List Object) Action (List Operation × Ending) := ⟨step from_string⟩

/-- The arguments convert as the method needs it, and Julius is not started too early. -/
def Fits (from_string : CString → Bool) (objects : List Object) : Action → Prop
  | .new _ => True
  | .iRemocon id m args => ∀ w, objects[id]? = some (.iRemocon w) →
    match m with
    | .connect => ∃ ip, Utf8Value (arg args 0) = some ip ∧ from_string ip = true
    | .exec_command => w.if_initialized_ = true → (arg args 0).toString.isSome = true
    | _ => True
  | .openJTalk id m args _ => ∀ w, objects[id]? = some (.openJTalk w) →
    match m with
    | .init => (arg args 0).toString.isSome = true ∧ (arg args 1).toString.isSome = true
    | .talk => w.if_initialized_ = true → (arg args 0).toString.isSome = true
    | _ => True
  | .julius id m args _ => ∀ w, objects[id]? = some (.julius w) →
    match m with
    | .init => (arg args 0).toString.isSome = true
    | .start => w.if_initialized_ = true

section
variable {P : Type} {w : Wrapper P}

end

section
variable (from_string : CString → Bool)

end

end HAS.Wrappers

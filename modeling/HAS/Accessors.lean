import HAS.Register
import HAS.Unicode
import Mathlib.Logic.Function.Basic

/-! The properties that add_var declares on the instances of an exported class, and the
accessors ExportToJS::get and ExportToJS::set behind them. -/
namespace HAS.Accessors
open HAS.Bytes HAS.Unicode HAS.Run HAS.Register

/-- T of add_var. -/
inductive VarType where
  | int | double | string
deriving DecidableEq

/-- A number is an int32, or another double: a fraction, minus zero, NaN. -/
inductive Number (D : Type) where
  | int32 (i : Int32)
  | other (d : D)

inductive Value (D : Type) where
  | number (n : Number D)
  | string (s : List CodeUnit)
  /-- undefined, null, a boolean or an object. -/
  | other

/-- boost::any, as far as set fills it. -/
inductive Any (D : Type) where
  | int (i : Int32)
  | double (d : Number D)
  | string (s : List Byte)

/-- What the class has stored under each name. -/
abbrev Store (D : Type) := CString → Any D

structure Declaration where
  property_name : CString
  type : VarType

/-- Accessors in the order in which they were set. -/
abbrev Template := List Declaration

def add_var (instance_tmpl_ : Template) (T : VarType) (property_name : List Byte) : Template :=
  instance_tmpl_ ++ [⟨c_str property_name, T⟩]

def Declaration.name (d : Declaration) : List CodeUnit := decode d.property_name.bytes

/-- Type of a property; the last declaration of a name takes precedence. -/
def Template.type (t : Template) (name : List CodeUnit) : Option VarType :=
  (t.reverse.find? fun d => d.name = name).map (·.type)

/-- The loop of String::ComputeArrayIndex. -/
def arrayIndexDigits (result : Nat) : List CodeUnit → Bool
  | [] => true
  | c :: cs =>
    48 ≤ c.val && c.val ≤ 57 && result ≤ 429496729 - (if c.val - 48 > 5 then 1 else 0) &&
      arrayIndexDigits (result * 10 + (c.val - 48)) cs

/-- String::AsArrayIndex. -/
def isArrayIndex : List CodeUnit → Bool
  | [] => false
  | c :: cs =>
    cs.length < 10 &&
      if c.val = 48 then cs.isEmpty
      else 48 ≤ c.val && c.val ≤ 57 && arrayIndexDigits (c.val - 48) cs

def Proto_symbol : List CodeUnit := (ascii "__proto__").map unit

/-- The accessor that V8 finds for a name. Array indices are looked up among the elements,
and __proto__ before everything else. -/
def accessor (t : Template) (name : List CodeUnit) : Option VarType :=
  if isArrayIndex name || name = Proto_symbol then none else t.type name

def Utf8Value (s : List CodeUnit) : CString := c_str (encode s)

/-- A line on the standard error output. -/
def wrongType (kind : String) (class_name property_name : CString) : List Byte :=
  ascii "Error! " ++ ascii kind ++ ascii " was subsituted into " ++ class_name.bytes ++
    ascii "." ++ property_name.bytes ++ ascii ", but it was wrong type.\n"

section
variable {D : Type}

/-- ExportToJS::set, with what it prints. IsInt32 is asked before IsNumber and IsString; for
anything else custom_set does nothing. -/
def set (T : VarType) (class_name property_name : CString) (value : Value D) (store : Store D) :
    Store D × List (List Byte) :=
  match value with
  | .number (.int32 i) =>
    if T ≠ .int then (store, [wrongType "Integer" class_name property_name])
    else (Function.update store property_name (.int i), [])
  | .number (.other d) =>
    if T ≠ .double then (store, [wrongType "Number" class_name property_name])
    else (Function.update store property_name (.double (.other d)), [])
  | .string s =>
    if T ≠ .string then (store, [wrongType "String" class_name property_name])
    else (Function.update store property_name (.string (Utf8Value s).bytes), [])
  | .other => (store, [])

/-- ExportToJS::get; none where any_cast throws. -/
def get (T : VarType) (property_name : CString) (store : Store D) : Option (Value D) :=
  match T, store property_name with
  | .int, .int i => some (.number (.int32 i))
  | .double, .double d => some (.number d)
  | .string, .string s => some (.string (decode (c_str s).bytes))
  | _, _ => none

def Any.type : Any D → VarType
  | int _ => .int
  | double _ => .double
  | string _ => .string

/-- What set stores, if it stores anything. -/
def stored : VarType → Value D → Option (Any D)
  | .int, .number (.int32 i) => some (.int i)
  | .double, .number (.other d) => some (.double (.other d))
  | .string, .string s => some (.string (Utf8Value s).bytes)
  | _, _ => none

/-- What a stored value looks like to JavaScript. -/
def Any.shown : Any D → Value D
  | int i => .number (.int32 i)
  | double d => .number d
  | string s => .string (decode (c_str s).bytes)

theorem set_eq (T : VarType) (class_name property_name : CString) (value : Value D)
    (store : Store D) :
    (set T class_name property_name value store).1 =
      (stored T value).elim store (Function.update store property_name) := by
  rcases value with (i | d) | s | _ <;> cases T <;> rfl

/-- A complaint is printed for every number and string that is not stored. -/
theorem set_silent_iff (T : VarType) (class_name property_name : CString) (value : Value D)
    (store : Store D) :
    (set T class_name property_name value store).2 = [] ↔
      (stored T value).isSome = true ∨ value = .other := by
  rcases value with (i | d) | s | _ <;> cases T <;> simp [set, stored]

theorem stored_type {T : VarType} {value : Value D} {x : Any D} (h : stored T value = some x) :
    x.type = T := by
  unfold stored at h
  split at h
  · obtain rfl := Option.some.inj h
    rfl
  · obtain rfl := Option.some.inj h
    rfl
  · obtain rfl := Option.some.inj h
    rfl
  · cases h

theorem get_eq {T : VarType} {property_name : CString} {store : Store D}
    (h : (store property_name).type = T) :
    get T property_name store = some (store property_name).shown := by
  subst h
  unfold get
  cases store property_name <;> rfl

/-- An instance of the class: what is stored under the name of a property has its type. -/
structure Instance (t : Template) (D : Type) where
  store : Store D
  typed : ∀ {name T}, t.type name = some T → (store (Utf8Value name)).type = T

/-- A JavaScript object of the class, with the properties behind which there is no
accessor. -/
structure Object (t : Template) (D : Type) where
  holder : Instance t D
  own : List CodeUnit → Value D

/-- The object that construct makes has no properties of its own. -/
def Instance.object {t : Template} (i : Instance t D) : Object t D := ⟨i, fun _ => .other⟩

structure Assignment (D : Type) where
  name : List CodeUnit
  value : Value D
  /-- What ToString makes of the holder. -/
  class_name : CString

theorem declared_of_accessor {t : Template} {name : List CodeUnit} {T : VarType}
    (h : accessor t name = some T) : t.type name = some T := by
  unfold accessor at h
  split_ifs at h
  exact h

theorem name_of_type {t : Template} {name : List CodeUnit} {T : VarType}
    (h : t.type name = some T) : ∃ d ∈ t, d.name = name := by
  obtain ⟨d, hd, -⟩ := Option.map_eq_some_iff.mp h
  have hname : d.name = name := by simpa using List.find?_some hd
  exact ⟨d, List.mem_reverse.mp (List.mem_of_find?_eq_some hd), hname⟩

/-- A declared name comes from a char pointer and gets back there in one piece. -/
theorem Utf8Value_bytes {t : Template} {name : List CodeUnit} {T : VarType}
    (h : t.type name = some T) : (Utf8Value name).bytes = encode name := by
  obtain ⟨d, -, rfl⟩ := name_of_type h
  refine c_str_of_nul_free fun hmem => d.property_name.nul_free ?_
  rw [mem_encode_ascii_iff (by decide)] at hmem
  exact (mem_decode_ascii_iff (by decide) _).mp hmem

theorem Utf8Value_ne {t : Template} {name name' : List CodeUnit} {T T' : VarType}
    (h : t.type name = some T) (h' : t.type name' = some T') (hne : name ≠ name') :
    Utf8Value name ≠ Utf8Value name' := by
  intro heq
  have hbytes : encode name = encode name' := by
    rw [← Utf8Value_bytes h, ← Utf8Value_bytes h', heq]
  exact hne (by rw [← decode_encode name, hbytes, decode_encode])

/-- The setter of one property keeps the types of all. -/
def Instance.set {t : Template} (i : Instance t D) {name : List CodeUnit} {T : VarType}
    (h : t.type name = some T) (class_name : CString) (value : Value D) : Instance t D where
  store := (Accessors.set T class_name (Utf8Value name) value i.store).1
  typed := by
    intro name' T' h'
    rw [set_eq]
    cases hx : stored T value with
    | none => exact i.typed h'
    | some x =>
      rw [Option.elim_some]
      by_cases hname : name' = name
      · subst hname
        obtain rfl : T = T' := Option.some.inj (h.symm.trans h')
        rw [Function.update_self]
        exact stored_type hx
      · rw [Function.update_of_ne (Utf8Value_ne h' h hname)]
        exact i.typed h'

/-- o[name] = value. Assigning __proto__ leaves the prototype an object or null. -/
def assign {t : Template} (o : Object t D) (a : Assignment D) :
    Object t D × List (List Byte) :=
  match h : accessor t a.name with
  | some T =>
    ({ o with holder := o.holder.set (declared_of_accessor h) a.class_name a.value },
      (Accessors.set T a.class_name (Utf8Value a.name) a.value o.holder.store).2)
  | none =>
    (if a.name = Proto_symbol then o
      else { o with own := Function.update o.own a.name a.value }, [])

/-- o[name]; none where the getter throws. -/
def read {t : Template} (o : Object t D) (name : List CodeUnit) : Option (Value D) :=
  match accessor t name with
  | some T => get T (Utf8Value name) o.holder.store
  | none => some (o.own name)

def machine (t : Template) (D : Type) : Machine (Object t D) (Assignment D) (List Byte) :=
  ⟨assign⟩

@[simp] theorem machine_step {t : Template} (o : Object t D) (a : Assignment D) :
    (machine t D).step o a = assign o a := rfl

/-- Is the value of the type? -/
def Value.isOf : VarType → Value D → Bool
  | .int, .number (.int32 _) => true
  | .double, .number _ => true
  | .string, .string _ => true
  | _, _ => false

/-- What a typed variable takes from an assignment. -/
def written (name : List CodeUnit) (T : VarType) (a : Assignment D) : Option (Option (Value D)) :=
  if a.name = name ∧ a.value.isOf T = true then some (some a.value) else none

/-- After every assignment each property shows the last value of its type that it was
assigned, and what the class had for it before that. -/
def Typed {t : Template} (i : Instance t D) (as : List (Assignment D)) : Prop :=
  ∀ name T, t.type name = some T → ∀ n,
    read ((machine t D).run i.object (as.take n)) name =
      lastWritten (written name T) (get T (Utf8Value name) i.store) (as.take n)

/-- An assignment that the setter has the right idea of. -/
structure Fits {t : Template} (o : Object t D) (a : Assignment D) : Prop where
  /-- A double gets an int32 only if it has that value already. -/
  integral : t.type a.name = some .double → ∀ i, a.value = .number (.int32 i) →
    o.holder.store (Utf8Value a.name) = .double (.int32 i)
  nul_free : t.type a.name = some .string → ∀ s, a.value = .string s → unit NUL ∉ s

/-- V8 looks all properties up among the accessors. -/
def Ordinary (t : Template) : Prop :=
  ∀ name T, t.type name = some T → isArrayIndex name = false ∧ name ≠ Proto_symbol

section
variable {t : Template}

theorem accessor_of_ordinary (h : Ordinary t) {name : List CodeUnit} {T : VarType}
    (ht : t.type name = some T) : accessor t name = some T := by
  obtain ⟨hindex, hproto⟩ := h name T ht
  simp [accessor, hindex, hproto, ht]

theorem assign_accessor {o : Object t D} {a : Assignment D} {T : VarType}
    (h : accessor t a.name = some T) :
    (assign o a).1 =
      { o with holder := o.holder.set (declared_of_accessor h) a.class_name a.value } := by
  unfold assign
  split
  · rename_i T' h'
    obtain rfl : T = T' := Option.some.inj (h.symm.trans h')
    rfl
  · rename_i h'
    rw [h] at h'
    cases h'

theorem holder_assign_none {o : Object t D} {a : Assignment D} (h : accessor t a.name = none) :
    (assign o a).1.holder = o.holder := by
  unfold assign
  split
  · rename_i T' h'
    rw [h] at h'
    cases h'
  · split_ifs <;> rfl

theorem read_accessor {o : Object t D} {name : List CodeUnit} {T : VarType}
    (h : accessor t name = some T) :
    read o name = some (o.holder.store (Utf8Value name)).shown := by
  simp only [read, h, get_eq (o.holder.typed (declared_of_accessor h))]

theorem read_assign_ne {o : Object t D} {a : Assignment D} {name : List CodeUnit} {T : VarType}
    (h : accessor t name = some T) (hne : name ≠ a.name) :
    read (assign o a).1 name = read o name := by
  rw [read_accessor h, read_accessor h]
  cases ha : accessor t a.name with
  | none => rw [holder_assign_none ha]
  | some T' =>
    have hkey := Utf8Value_ne (declared_of_accessor h) (declared_of_accessor ha) hne
    rw [assign_accessor ha]
    simp only [Instance.set, set_eq]
    cases stored T' a.value with
    | none => rfl
    | some x => rw [Option.elim_some, Function.update_of_ne hkey]

theorem read_assign_self {o : Object t D} {a : Assignment D} {T : VarType}
    (h : accessor t a.name = some T) :
    read (assign o a).1 a.name =
      some ((stored T a.value).getD (o.holder.store (Utf8Value a.name))).shown := by
  rw [read_accessor h, assign_accessor h]
  simp only [Instance.set, set_eq]
  cases stored T a.value with
  | none => rfl
  | some x => rw [Option.elim_some, Function.update_self, Option.getD_some]

end

/-- A string comes back in one piece unless the char pointer ends before it. -/
theorem decode_Utf8Value_iff (s : List CodeUnit) :
    decode (c_str (Utf8Value s).bytes).bytes = s ↔ unit NUL ∉ s := by
  have hcut : (c_str (Utf8Value s).bytes).bytes = (Utf8Value s).bytes :=
    c_str_of_nul_free (Utf8Value s).nul_free
  rw [hcut]
  constructor
  · intro h hmem
    rw [← h, mem_decode_ascii_iff (by decide)] at hmem
    exact (Utf8Value s).nul_free hmem
  · intro h
    have hnul : NUL ∉ encode s := by
      rw [mem_encode_ascii_iff (by decide)]
      exact h
    rw [Utf8Value, c_str_of_nul_free hnul, decode_encode]

/-- Where the setter goes by the representation of the value and the variable by the type,
they differ for an int32 in a double and for a string with a NUL. -/
theorem shown_stored_iff {T : VarType} {old : Any D} (hold : old.type = T) (value : Value D) :
    ((stored T value).getD old).shown = (if value.isOf T = true then value else old.shown) ↔
      (T = .double → ∀ i, value = .number (.int32 i) → old = .double (.int32 i)) ∧
        (T = .string → ∀ s, value = .string s → unit NUL ∉ s) := by
  subst hold
  cases old with
  | int j => rcases value with (i | d) | s | _ <;> simp [stored, Any.type, Any.shown, Value.isOf]
  | double n =>
    rcases value with (i | d) | s | _ <;> simp [stored, Any.type, Any.shown, Value.isOf]
  | string s' =>
    rcases value with (i | d) | s | _
    · simp [stored, Any.type, Any.shown, Value.isOf]
    · simp [stored, Any.type, Any.shown, Value.isOf]
    · simpa [stored, Any.type, Any.shown, Value.isOf] using decode_Utf8Value_iff s
    · simp [stored, Any.type, Any.shown, Value.isOf]

section
variable {t : Template}

theorem update_written (v : Value D) (name : List CodeUnit) (T : VarType) (a : Assignment D) :
    update (written name T) (some v) a =
      some (if a.name = name ∧ a.value.isOf T = true then a.value else v) := by
  unfold update written
  split_ifs <;> rfl

/-- One assignment: all properties stay typed variables exactly if it fits. -/
theorem forall_update_iff_fits (ht : Ordinary t) (o : Object t D) (a : Assignment D) :
    (∀ name T, t.type name = some T →
      read ((machine t D).step o a).1 name = update (written name T) (read o name) a) ↔
      Fits o a := by
  constructor
  · intro h
    have hself {T : VarType} (hT : t.type a.name = some T) :=
      (shown_stored_iff (o.holder.typed hT) a.value).mp <| by
        have haccessor := accessor_of_ordinary ht hT
        have hread := (read_assign_self haccessor).symm.trans (h a.name T hT)
        rw [read_accessor haccessor, update_written] at hread
        simpa using hread
    exact ⟨fun hT => (hself hT).1 rfl, fun hT => (hself hT).2 rfl⟩
  · intro h name T hT
    have haccessor := accessor_of_ordinary ht hT
    have hbefore : read o name = some (o.holder.store (Utf8Value name)).shown :=
      read_accessor haccessor
    rw [hbefore, update_written]
    by_cases hname : a.name = name
    · subst hname
      have hshown := (shown_stored_iff (o.holder.typed hT) a.value).mpr
        ⟨fun hd => h.integral (hd ▸ hT), fun hs => h.nul_free (hs ▸ hT)⟩
      have hafter : read (assign o a).1 a.name = _ := read_assign_self haccessor
      rw [hshown] at hafter
      simpa using hafter
    · have hafter : read (assign o a).1 name = _ := read_assign_ne haccessor (Ne.symm hname)
      simpa [hname] using hafter.trans hbefore

theorem shown_ne_other (x : Any D) : x.shown ≠ .other := by
  cases x <;> simp [Any.shown]

theorem ordinary_of_typed {i : Instance t D} {as : List (Assignment D)} (h : Typed i as) :
    Ordinary t := by
  intro name T hT
  have hread := h name T hT 0
  rw [List.take_zero, get_eq (i.typed hT)] at hread
  by_contra hn
  have hnone : accessor t name = none := by
    rw [accessor, if_pos]
    simpa [imp_iff_not_or] using hn
  simp only [Machine.run, read, hnone] at hread
  exact shown_ne_other _ (Option.some.inj hread).symm

/-- The properties of an exported class behave as typed variables exactly if every
assignment fits. -/
theorem typed_iff (i : Instance t D) (as : List (Assignment D)) :
    Typed i as ↔ Ordinary t ∧ (machine t D).Along Fits i.object as := by
  have hiff (ht : Ordinary t) : Typed i as ↔ (machine t D).Along Fits i.object as := by
    calc Typed i as
        ↔ ∀ name T, t.type name = some T → (machine t D).Along
            (fun o a => read ((machine t D).step o a).1 name =
              update (written name T) (read o name) a) i.object as := by
          refine forall₃_congr fun name T hT => ?_
          have hinitial : get T (Utf8Value name) i.store = read i.object name := by
            rw [read_accessor (accessor_of_ordinary ht hT), get_eq (i.typed hT)]
            rfl
          rw [hinitial]
          exact forall_run_take_eq_lastWritten_iff (written name T) (fun o => read o name) _ as
      _ ↔ (machine t D).Along (fun o a => ∀ name T, t.type name = some T →
            read ((machine t D).step o a).1 name =
              update (written name T) (read o name) a) i.object as := by
          simp only [Machine.along_forall]
      _ ↔ (machine t D).Along Fits i.object as :=
          Machine.along_congr (I := fun _ => True) (fun _ _ => id)
            (fun o a _ => forall_update_iff_fits ht o a) trivial as
  constructor
  · intro h
    exact ⟨ordinary_of_typed h, (hiff (ordinary_of_typed h)).mp h⟩
  · rintro ⟨ht, halong⟩
    exact (hiff ht).mpr halong

/-- A class with the one property x of type double, 0.5 at first. -/
def half : Instance (add_var [] .double (ascii "x")) Rat where
  store := fun _ => .double (.other (1 / 2))
  typed := by
    intro name T h
    obtain ⟨d, hd, rfl⟩ := Option.map_eq_some_iff.mp h
    obtain rfl : d = ⟨c_str (ascii "x"), .double⟩ := by
      simpa [add_var] using List.mem_of_find?_eq_some hd
    rfl

/-- It is assigned the number 1. -/
theorem half_not_typed : ¬ Typed half [⟨[unit 120], .number (.int32 1), c_str (ascii "O")⟩] := by
  intro h
  have haccessor : accessor (add_var [] .double (ascii "x")) [unit 120] = some .double := by
    decide +kernel
  have hkept : read (assign half.object _).1 [unit 120] = some (.number (.other (1 / 2))) :=
    @read_assign_self _ _ _ ⟨[unit 120], .number (.int32 1), c_str (ascii "O")⟩ _ haccessor
  have hread := h [unit 120] .double (declared_of_accessor haccessor) 1
  have hone : read (assign half.object _).1 [unit 120] = some (.number (.int32 1)) := hread
  cases hkept.symm.trans hone

end

end

end HAS.Accessors

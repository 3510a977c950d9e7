import HAS.Bytes
import Mathlib.Algebra.Group.Nat.Defs
import Mathlib.Data.Fintype.Basic

/-! UTF-8 as the bundled V8 reads and writes it (unicode.cc, unicode-inl.h, heap.cc):
malformed input becomes one U+FFFD per byte, unpaired surrogates are written as
three bytes. -/
namespace HAS.Unicode
open HAS.Bytes

def kBadChar : Nat := 0xFFFD
def kMaxOneByteChar : Nat := 0x7F
def kMaxTwoByteChar : Nat := 0x7FF
def kMaxThreeByteChar : Nat := 0xFFFF
def kMaxFourByteChar : Nat := 0x1FFFFF

/-- Low six bits of a continuation byte; any of the bits 0xC0 left marks a byte
that is none. -/
def continuation (b : Byte) : Nat := b.val ^^^ 0x80

def isContinuation (b : Byte) : Bool := continuation b &&& 0xC0 == 0

/-- Utf8::CalculateValue on a non-ASCII first byte and the bytes behind it: the
code point, and how many of the bytes behind the first one it uses up. -/
def calculateValue (first : Byte) : List Byte → Nat × Nat
  | [] => (kBadChar, 0)
  | b₂ :: rest =>
    if !isContinuation b₂ then (kBadChar, 0)
    else if first.val < 0xE0 then
      if first.val < 0xC0 then (kBadChar, 0)
      else
        let code_point := ((first.val <<< 6) ||| continuation b₂) &&& kMaxTwoByteChar
        if code_point ≤ kMaxOneByteChar then (kBadChar, 0) else (code_point, 1)
    else match rest with
      | [] => (kBadChar, 0)
      | b₃ :: rest =>
        if !isContinuation b₃ then (kBadChar, 0)
        else if first.val < 0xF0 then
          let code_point := ((((first.val <<< 6) ||| continuation b₂) <<< 6) |||
            continuation b₃) &&& kMaxThreeByteChar
          if code_point ≤ kMaxTwoByteChar then (kBadChar, 0) else (code_point, 2)
        else match rest with
          | [] => (kBadChar, 0)
          | b₄ :: _ =>
            if !isContinuation b₄ then (kBadChar, 0)
            else if first.val < 0xF8 then
              let code_point := ((((((first.val <<< 6) ||| continuation b₂) <<< 6) |||
                continuation b₃) <<< 6) ||| continuation b₄) &&& kMaxFourByteChar
              if code_point ≤ kMaxThreeByteChar then (kBadChar, 0) else (code_point, 3)
            else (kBadChar, 0)

/-- Utf8::ValueOf. -/
def valueOf (first : Byte) (rest : List Byte) : Nat × Nat :=
  if first.val ≤ kMaxOneByteChar then (first.val, 0) else calculateValue first rest

def leadSurrogate (char_code : Nat) : CodeUnit :=
  Fin.ofNat 65536 (0xD800 + (((char_code - 0x10000) >>> 10) &&& 0x3FF))
def trailSurrogate (char_code : Nat) : CodeUnit :=
  Fin.ofNat 65536 (0xDC00 + (char_code &&& 0x3FF))

/-- Heap::AllocateStringFromUtf8Slow stores a code point as one or two units. -/
def units (char_code : Nat) : List CodeUnit :=
  if char_code > 0xFFFF then [leadSurrogate char_code, trailSurrogate char_code]
  else [Fin.ofNat 65536 char_code]

/-- Decode, first passing over the bytes an earlier character has used up. -/
def decodeFrom : Nat → List Byte → List CodeUnit
  | _, [] => []
  | skip + 1, _ :: bs => decodeFrom skip bs
  | 0, b :: bs => units (valueOf b bs).1 ++ decodeFrom (valueOf b bs).2 bs

/-- The string that v8::String::New makes of a char pointer. -/
def decode (bs : List Byte) : List CodeUnit := decodeFrom 0 bs

/-- An ASCII byte as the code unit of the same number. -/
def unit (b : Byte) : CodeUnit := ⟨b.val, by omega⟩

theorem isContinuation_iff (b : Byte) : isContinuation b = true ↔ 0x80 ≤ b.val ∧ b.val < 0xC0 := by
  revert b; decide +kernel

theorem valueOf_ascii {b : Byte} (h : b.val < 0x80) (rest : List Byte) :
    valueOf b rest = (b.val, 0) := by
  have hb : b.val ≤ kMaxOneByteChar := by simp only [kMaxOneByteChar]; omega
  simp [valueOf, hb]

theorem units_ascii {b : Byte} (h : b.val < 0x80) : units b.val = [unit b] := by
  have hb : ¬ b.val > 0xFFFF := by omega
  simp only [units, hb, if_false, unit, List.cons.injEq, and_true]
  exact Fin.ext (by simp [Fin.ofNat]; omega)

theorem decode_cons_ascii {b : Byte} (h : b.val < 0x80) (bs : List Byte) :
    decode (b :: bs) = unit b :: decode bs := by
  simp [decode, decodeFrom, valueOf_ascii h, units_ascii h]

theorem decode_ascii_append {a : List Byte} (h : ∀ b ∈ a, b.val < 0x80) (bs : List Byte) :
    decode (a ++ bs) = a.map unit ++ decode bs := by
  induction a with
  | nil => rfl
  | cons b a ih =>
    have ha := ih fun x hx => h x (List.mem_cons_of_mem b hx)
    rw [List.cons_append, decode_cons_ascii (h b (by simp)), ha]
    rfl

/-- A character never reaches past an ASCII byte: what follows one cannot change
the bytes before it. -/
theorem valueOf_append_ascii (b : Byte) (r : List Byte) {x : Byte} (hx : x.val < 0x80)
    (s : List Byte) : valueOf b (r ++ x :: s) = valueOf b r := by
  have hn : isContinuation x = false := by
    by_contra hc
    have := (isContinuation_iff x).mp (by simpa using hc)
    omega
  match r with
  | [] => simp [valueOf, calculateValue, hn]
  | [_] => simp [valueOf, calculateValue, hn]
  | [_, _] => simp [valueOf, calculateValue, hn]
  | _ :: _ :: _ :: _ => simp [valueOf, calculateValue]

theorem valueOf_le (b : Byte) (r : List Byte) : (valueOf b r).2 ≤ r.length := by
  match r with
  | [] => simp [valueOf, calculateValue]; split <;> simp
  | [_] => simp only [valueOf, calculateValue]; split_ifs <;> simp
  | [_, _] => simp only [valueOf, calculateValue]; split_ifs <;> simp
  | _ :: _ :: _ :: r => simp only [valueOf, calculateValue]; split_ifs <;> simp

theorem decodeFrom_append_ascii (a : List Byte) {x : Byte} (hx : x.val < 0x80)
    (s : List Byte) (skip : Nat) (hs : skip ≤ a.length) :
    decodeFrom skip (a ++ x :: s) = decodeFrom skip a ++ unit x :: decode s := by
  induction a generalizing skip with
  | nil =>
    obtain rfl : skip = 0 := by simpa using hs
    simpa [decode, decodeFrom] using decode_cons_ascii hx s
  | cons b a ih =>
    cases skip with
    | zero =>
      have hle := valueOf_le b a
      simp only [List.cons_append, decodeFrom, valueOf_append_ascii b a hx s]
      rw [ih _ hle, List.append_assoc]
    | succ skip =>
      simpa [decodeFrom] using ih skip (by simpa using hs)

/-- An ASCII byte separates: both sides are decoded on their own. -/
theorem decode_append_ascii (a : List Byte) {x : Byte} (hx : x.val < 0x80) (s : List Byte) :
    decode (a ++ x :: s) = decode a ++ unit x :: decode s :=
  decodeFrom_append_ascii a hx s 0 (Nat.zero_le _)

/-- Only continuation bytes are used up. -/
theorem valueOf_take (b : Byte) (r : List Byte) :
    ∀ x ∈ r.take (valueOf b r).2, isContinuation x = true := by
  match r with
  | [] => simp
  | [b₂] =>
    simp only [valueOf, calculateValue]
    split_ifs <;> simp_all
  | [b₂, b₃] =>
    simp only [valueOf, calculateValue]
    split_ifs <;> simp_all
  | b₂ :: b₃ :: b₄ :: r =>
    simp only [valueOf, calculateValue]
    split_ifs <;> simp_all

theorem mem_decodeFrom {c : CodeUnit} {skip : Nat} {bs : List Byte}
    (h : c ∈ decodeFrom skip bs) : ∃ p b r, bs = p ++ b :: r ∧ c ∈ units (valueOf b r).1 := by
  induction bs generalizing skip with
  | nil => simp [decodeFrom] at h
  | cons x bs ih =>
    cases skip with
    | zero =>
      rcases List.mem_append.mp h with hu | hd
      · exact ⟨[], x, bs, rfl, hu⟩
      · obtain ⟨p, b, r, rfl, hc⟩ := ih hd
        exact ⟨x :: p, b, r, rfl, hc⟩
    | succ skip =>
      obtain ⟨p, b, r, rfl, hc⟩ := ih h
      exact ⟨x :: p, b, r, rfl, hc⟩

/-- A byte that is no continuation byte always begins a character. -/
theorem units_subset_decodeFrom (p : List Byte) {b : Byte} (hb : isContinuation b = false)
    (r : List Byte) {skip : Nat}
    (hs : ∀ x ∈ (p ++ b :: r).take skip, isContinuation x = true) :
    units (valueOf b r).1 ⊆ decodeFrom skip (p ++ b :: r) := by
  induction p generalizing skip with
  | nil =>
    cases skip with
    | zero => exact List.subset_append_left _ _
    | succ skip =>
      have := hs b (by simp)
      simp [hb] at this
  | cons x p ih =>
    cases skip with
    | zero =>
      have hv := valueOf_take x (p ++ b :: r)
      exact List.subset_append_of_subset_right _ (ih hv)
    | succ skip =>
      exact ih fun y hy => hs y (by simp [hy])

theorem leadSurrogate_val (v : Nat) :
    0xD800 ≤ (leadSurrogate v).val ∧ (leadSurrogate v).val < 0xDC00 := by
  have h : ((v - 0x10000) >>> 10) &&& 0x3FF ≤ 0x3FF := Nat.and_le_right
  simp only [leadSurrogate, Fin.ofNat]
  omega

theorem trailSurrogate_val (v : Nat) :
    0xDC00 ≤ (trailSurrogate v).val ∧ (trailSurrogate v).val < 0xE000 := by
  have h : v &&& 0x3FF ≤ 0x3FF := Nat.and_le_right
  simp only [trailSurrogate, Fin.ofNat]
  omega

/-- A unit that is no surrogate is its own code point. -/
theorem mem_units_iff {c : CodeUnit} (hc : c.val < 0xD800) (v : Nat) :
    c ∈ units v ↔ v = c.val := by
  have hl := leadSurrogate_val v
  have ht := trailSurrogate_val v
  unfold units
  split_ifs with hv
  · constructor
    · intro h
      rcases List.mem_pair.mp h with rfl | rfl <;> omega
    · intro h
      omega
  · rw [List.mem_singleton, Fin.ext_iff]
    simp only [Fin.ofNat]
    omega

theorem valueOf_ge {b : Byte} (hb : 0x80 ≤ b.val) (r : List Byte) : 0x80 ≤ (valueOf b r).1 := by
  have h1 : kMaxOneByteChar = 0x7F := rfl
  have h2 : kMaxTwoByteChar = 0x7FF := rfl
  have h3 : kMaxThreeByteChar = 0xFFFF := rfl
  have hk : kBadChar = 0xFFFD := rfl
  match r with
  | [] => simp only [valueOf, calculateValue]; split_ifs <;> omega
  | [_] => simp only [valueOf, calculateValue]; split_ifs <;> dsimp only <;> omega
  | [_, _] => simp only [valueOf, calculateValue]; split_ifs <;> dsimp only <;> omega
  | _ :: _ :: _ :: r => simp only [valueOf, calculateValue]; split_ifs <;> dsimp only <;> omega

theorem mem_decode_ascii_iff {x : Byte} (hx : x.val < 0x80) (bs : List Byte) :
    unit x ∈ decode bs ↔ x ∈ bs := by
  constructor
  · intro h
    obtain ⟨p, b, r, rfl, hc⟩ := mem_decodeFrom h
    have hv := (mem_units_iff (c := unit x) (by simp only [unit]; omega) _).mp hc
    have hb : b.val < 0x80 := by
      by_contra hge
      have := valueOf_ge (not_lt.mp hge) r
      simp only [unit] at hv
      omega
    rw [valueOf_ascii hb r] at hv
    obtain rfl : b = x := Fin.ext hv
    simp
  · intro h
    obtain ⟨p, r, rfl⟩ := List.append_of_mem h
    rw [decode_append_ascii p hx r]
    simp

theorem continuation_val {b : Byte} (h : isContinuation b = true) :
    continuation b = b.val - 0x80 := by
  revert b; decide +kernel

/-- A six-bit group appended to the bits before it. -/
theorem shift_or_sixBits (f c : Nat) (h : c < 64) : (f <<< 6) ||| c = f * 64 + c := by
  rw [← Nat.shiftLeft_add_eq_or_of_lt (i := 6) h, Nat.shiftLeft_eq]

/-- A well-formed character of two bytes. -/
theorem calculateValue_of_two {b b₂ : Byte} (hb : 0xC0 ≤ b.val) (hb' : b.val < 0xE0)
    (h₂ : isContinuation b₂ = true) (r : List Byte) :
    calculateValue b (b₂ :: r) =
      let v := (b.val * 64 + (b₂.val - 0x80)) % 2048
      if v ≤ kMaxOneByteChar then (kBadChar, 0) else (v, 1) := by
  have hn : ¬ b.val < 0xC0 := by omega
  have hc := (isContinuation_iff b₂).mp h₂
  have hk : kMaxTwoByteChar = 2 ^ 11 - 1 := rfl
  simp only [calculateValue, h₂, hn, hb', if_true, if_false, Bool.not_true,
    continuation_val h₂, Bool.false_eq_true, hk, Nat.and_two_pow_sub_one_eq_mod,
    shift_or_sixBits b.val (b₂.val - 0x80) (by omega)]

/-- A well-formed character of three bytes. -/
theorem calculateValue_of_three {b b₂ b₃ : Byte} (hb : 0xE0 ≤ b.val) (hb' : b.val < 0xF0)
    (h₂ : isContinuation b₂ = true) (h₃ : isContinuation b₃ = true) (r : List Byte) :
    calculateValue b (b₂ :: b₃ :: r) =
      let v := ((b.val * 64 + (b₂.val - 0x80)) * 64 + (b₃.val - 0x80)) % 65536
      if v ≤ kMaxTwoByteChar then (kBadChar, 0) else (v, 2) := by
  have hn : ¬ b.val < 0xE0 := by omega
  have hc := (isContinuation_iff b₂).mp h₂
  have hc' := (isContinuation_iff b₃).mp h₃
  have hk : kMaxThreeByteChar = 2 ^ 16 - 1 := rfl
  simp only [calculateValue, h₂, h₃, hn, hb', if_true, if_false, Bool.not_true,
    continuation_val h₂, continuation_val h₃, Bool.false_eq_true, hk,
    Nat.and_two_pow_sub_one_eq_mod, shift_or_sixBits b.val (b₂.val - 0x80) (by omega),
    shift_or_sixBits _ (b₃.val - 0x80) (by omega)]

/-- A well-formed character of four bytes. -/
theorem calculateValue_of_four {b b₂ b₃ b₄ : Byte} (hb : 0xF0 ≤ b.val) (hb' : b.val < 0xF8)
    (h₂ : isContinuation b₂ = true) (h₃ : isContinuation b₃ = true)
    (h₄ : isContinuation b₄ = true) (r : List Byte) :
    calculateValue b (b₂ :: b₃ :: b₄ :: r) =
      let v := (((b.val * 64 + (b₂.val - 0x80)) * 64 + (b₃.val - 0x80)) * 64 +
        (b₄.val - 0x80)) % 2097152
      if v ≤ kMaxThreeByteChar then (kBadChar, 0) else (v, 3) := by
  have hn : ¬ b.val < 0xE0 := by omega
  have hn' : ¬ b.val < 0xF0 := by omega
  have hc := (isContinuation_iff b₂).mp h₂
  have hc' := (isContinuation_iff b₃).mp h₃
  have hc'' := (isContinuation_iff b₄).mp h₄
  have hk : kMaxFourByteChar = 2 ^ 21 - 1 := rfl
  simp only [calculateValue, h₂, h₃, h₄, hn, hn', hb', if_true, if_false, Bool.not_true,
    continuation_val h₂, continuation_val h₃, continuation_val h₄, Bool.false_eq_true, hk,
    Nat.and_two_pow_sub_one_eq_mod, shift_or_sixBits b.val (b₂.val - 0x80) (by omega),
    shift_or_sixBits _ (b₃.val - 0x80) (by omega), shift_or_sixBits _ (b₄.val - 0x80) (by omega)]

/-- A malformed character, one of two bytes or one of four, unless it has the form of one
of three bytes. -/
theorem calculateValue_cases (b : Byte) (r : List Byte) :
    (calculateValue b r).1 = kBadChar ∨ (calculateValue b r).1 ≤ kMaxTwoByteChar ∨
      kMaxThreeByteChar < (calculateValue b r).1 ∨
      ∃ b₂ b₃ r', r = b₂ :: b₃ :: r' ∧ 0xE0 ≤ b.val ∧ b.val < 0xF0 ∧
        isContinuation b₂ = true ∧ isContinuation b₃ = true := by
  cases r with
  | nil => exact .inl rfl
  | cons b₂ r =>
    by_cases hc₂ : isContinuation b₂ = true
    swap
    · exact .inl (by simp [calculateValue, hc₂])
    by_cases hE : b.val < 0xE0
    · simp only [calculateValue, hc₂, hE, if_true, Bool.not_true, Bool.false_eq_true, if_false]
      split_ifs
      · exact .inl rfl
      · exact .inl rfl
      · exact .inr (.inl Nat.and_le_right)
    cases r with
    | nil => exact .inl (by simp [calculateValue, hc₂, hE])
    | cons b₃ r =>
      by_cases hc₃ : isContinuation b₃ = true
      swap
      · exact .inl (by simp [calculateValue, hc₂, hE, hc₃])
      by_cases hF : b.val < 0xF0
      · exact .inr (.inr (.inr ⟨b₂, b₃, r, rfl, not_lt.mp hE, hF, hc₂, hc₃⟩))
      cases r with
      | nil => exact .inl (by simp [calculateValue, hc₂, hE, hc₃, hF])
      | cons b₄ r =>
        simp only [calculateValue, hc₂, hE, hc₃, hF, Bool.not_true, Bool.false_eq_true, if_false]
        split_ifs with hc₄ hF8 hle
        · exact .inl rfl
        · exact .inl rfl
        · exact .inr (.inr (.inl (not_le.mp hle)))
        · exact .inl rfl

/-- The only spelling of a character of three bytes below the surrogates. -/
theorem valueOf_eq_three_iff {v : Nat} (hv : 0x800 ≤ v) (hs : v < 0xD800) (b : Byte)
    (r : List Byte) : (valueOf b r).1 = v ↔ b.val = 0xE0 + v / 4096 ∧
      ∃ b₂ b₃ r', r = b₂ :: b₃ :: r' ∧ b₂.val = 0x80 + v / 64 % 64 ∧ b₃.val = 0x80 + v % 64 := by
  have h1 : kMaxOneByteChar = 0x7F := rfl
  have h2 : kMaxTwoByteChar = 0x7FF := rfl
  have h3 : kMaxThreeByteChar = 0xFFFF := rfl
  have hk : kBadChar = 0xFFFD := rfl
  constructor
  · intro h
    by_cases ha : b.val ≤ kMaxOneByteChar
    · simp only [valueOf, ha, if_true] at h
      omega
    simp only [valueOf, ha, if_false] at h
    obtain hbad | htwo | hfour | ⟨b₂, b₃, r', rfl, hE, hF, hc₂, hc₃⟩ := calculateValue_cases b r
    · omega
    · omega
    · omega
    · rw [calculateValue_of_three hE hF hc₂ hc₃] at h
      have h₂ := (isContinuation_iff b₂).mp hc₂
      have h₃ := (isContinuation_iff b₃).mp hc₃
      dsimp only at h
      split_ifs at h <;> dsimp only at h
      · omega
      · exact ⟨by omega, b₂, b₃, r', rfl, by omega, by omega⟩
  · rintro ⟨hb, b₂, b₃, r', rfl, h₂, h₃⟩
    have hc₂ : isContinuation b₂ = true := (isContinuation_iff b₂).mpr (by omega)
    have hc₃ : isContinuation b₃ = true := (isContinuation_iff b₃).mpr (by omega)
    have ha : ¬ b.val ≤ kMaxOneByteChar := by omega
    simp only [valueOf, ha, if_false]
    rw [calculateValue_of_three (by omega) (by omega) hc₂ hc₃]
    dsimp only
    split_ifs <;> dsimp only <;> omega

/-- A character of three bytes below the surrogates is read exactly where its three
bytes stand, whatever surrounds them. -/
theorem mem_decode_three_iff {c : CodeUnit} (hv : 0x800 ≤ c.val) (hs : c.val < 0xD800)
    {b b₂ b₃ : Byte} (hb : b.val = 0xE0 + c.val / 4096) (hb₂ : b₂.val = 0x80 + c.val / 64 % 64)
    (hb₃ : b₃.val = 0x80 + c.val % 64) (bs : List Byte) :
    c ∈ decode bs ↔ [b, b₂, b₃] <:+: bs := by
  constructor
  · intro h
    obtain ⟨p, d, r, rfl, hc⟩ := mem_decodeFrom h
    obtain ⟨hd, d₂, d₃, r', rfl, hd₂, hd₃⟩ :=
      (valueOf_eq_three_iff hv hs d r).mp ((mem_units_iff hs _).mp hc)
    obtain rfl : d = b := Fin.ext (by omega)
    obtain rfl : d₂ = b₂ := Fin.ext (by omega)
    obtain rfl : d₃ = b₃ := Fin.ext (by omega)
    exact ⟨p, r', by simp⟩
  · rintro ⟨p, r, rfl⟩
    have hn : isContinuation b = false := by
      by_contra hc
      have := (isContinuation_iff b).mp (by simpa using hc)
      omega
    have hu : c ∈ units (valueOf b (b₂ :: b₃ :: r)).1 := by
      refine (mem_units_iff hs _).mpr ?_
      exact (valueOf_eq_three_iff hv hs b _).mpr ⟨hb, b₂, b₃, r, rfl, hb₂, hb₃⟩
    have hsub : units _ ⊆ decodeFrom 0 (p ++ b :: b₂ :: b₃ :: r) :=
      units_subset_decodeFrom p hn (b₂ :: b₃ :: r) (by simp)
    simpa [decode] using hsub hu

def byte (n : Nat) : Byte := Fin.ofNat 256 n

/-- Utf8::Encode on a character by itself. -/
def encodeChar (c : Nat) : List Byte :=
  if c ≤ kMaxOneByteChar then [byte c]
  else if c ≤ kMaxTwoByteChar then [byte (0xC0 ||| (c >>> 6)), byte (0x80 ||| (c &&& 0x3F))]
  else if c ≤ kMaxThreeByteChar then
    [byte (0xE0 ||| (c >>> 12)), byte (0x80 ||| ((c >>> 6) &&& 0x3F)), byte (0x80 ||| (c &&& 0x3F))]
  else
    [byte (0xF0 ||| (c >>> 18)), byte (0x80 ||| ((c >>> 12) &&& 0x3F)),
      byte (0x80 ||| ((c >>> 6) &&& 0x3F)), byte (0x80 ||| (c &&& 0x3F))]

def isLeadSurrogate (c : CodeUnit) : Bool := c.val &&& 0xFC00 == 0xD800
def isTrailSurrogate (c : CodeUnit) : Bool := c.val &&& 0xFC00 == 0xDC00

def combineSurrogatePair (lead trail : CodeUnit) : Nat :=
  0x10000 + ((lead.val &&& 0x3FF) <<< 10) + (trail.val &&& 0x3FF)

/-- String::WriteUtf8: a surrogate pair is written as one character, over the three
bytes first written for the lead. -/
def encode : List CodeUnit → List Byte
  | [] => []
  | [c] => encodeChar c.val
  | c :: d :: cs =>
    if isLeadSurrogate c && isTrailSurrogate d then
      encodeChar (combineSurrogatePair c d) ++ encode cs
    else encodeChar c.val ++ encode (d :: cs)

theorem and_sixBits (c : Nat) : c &&& 0x3F = c % 64 := Nat.and_two_pow_sub_one_eq_mod c 6

theorem continuationByte_val (c : Nat) : (byte (0x80 ||| (c &&& 0x3F))).val = 0x80 + c % 64 := by
  have hlt : c % 64 < 2 ^ 7 := by omega
  have h : 0x80 ||| (c % 64) = 0x80 + c % 64 := (Nat.two_pow_add_eq_or_of_lt hlt 1).symm
  rw [and_sixBits, h]
  simp only [byte, Fin.ofNat]
  omega

theorem leadByte_val {a i n : Nat} (h : n < 2 ^ i) (hb : 2 ^ i * a + n < 256) :
    (byte ((2 ^ i * a) ||| n)).val = 2 ^ i * a + n := by
  rw [← Nat.two_pow_add_eq_or_of_lt h]
  simp only [byte, Fin.ofNat]
  omega

/-- An encoded character is read as itself, and used up completely. -/
theorem valueOf_encodeChar {c : Nat} (hc : c < 0x110000) (bs : List Byte) :
    ∃ b t, encodeChar c = b :: t ∧ valueOf b (t ++ bs) = (c, t.length) := by
  have h1 : kMaxOneByteChar = 0x7F := rfl
  have h2 : kMaxTwoByteChar = 0x7FF := rfl
  have h3 : kMaxThreeByteChar = 0xFFFF := rfl
  have hcont (n : Nat) : isContinuation (byte (0x80 ||| (n &&& 0x3F))) = true := by
    have := continuationByte_val n
    exact (isContinuation_iff _).mpr (by omega)
  unfold encodeChar
  split_ifs with ha hb hd
  · have hv : (byte c).val = c := by simp only [byte, Fin.ofNat]; omega
    refine ⟨_, _, rfl, ?_⟩
    rw [valueOf_ascii (by omega), hv]
    rfl
  · have hv : (byte (0xC0 ||| (c >>> 6))).val = 0xC0 + c / 64 := by
      rw [Nat.shiftRight_eq_div_pow]
      exact leadByte_val (a := 3) (i := 6) (by omega) (by omega)
    have hn : ¬ (byte (0xC0 ||| (c >>> 6))).val ≤ kMaxOneByteChar := by omega
    refine ⟨_, _, rfl, ?_⟩
    rw [valueOf, if_neg hn, List.singleton_append,
      calculateValue_of_two (by omega) (by omega) (hcont c)]
    have he : ((byte (0xC0 ||| (c >>> 6))).val * 64 +
        ((byte (0x80 ||| (c &&& 0x3F))).val - 0x80)) % 2048 = c := by
      rw [hv, continuationByte_val]
      omega
    rw [he]
    simp [ha]
  · have hv : (byte (0xE0 ||| (c >>> 12))).val = 0xE0 + c / 4096 := by
      rw [Nat.shiftRight_eq_div_pow]
      exact leadByte_val (a := 7) (i := 5) (by omega) (by omega)
    have hn : ¬ (byte (0xE0 ||| (c >>> 12))).val ≤ kMaxOneByteChar := by omega
    refine ⟨_, _, rfl, ?_⟩
    rw [valueOf, if_neg hn, List.cons_append, List.singleton_append,
      calculateValue_of_three (by omega) (by omega) (hcont _) (hcont c)]
    have he : (((byte (0xE0 ||| (c >>> 12))).val * 64 +
        ((byte (0x80 ||| ((c >>> 6) &&& 0x3F))).val - 0x80)) * 64 +
        ((byte (0x80 ||| (c &&& 0x3F))).val - 0x80)) % 65536 = c := by
      rw [hv, continuationByte_val, continuationByte_val, Nat.shiftRight_eq_div_pow]
      omega
    rw [he]
    simp [hb]
  · have hv : (byte (0xF0 ||| (c >>> 18))).val = 0xF0 + c / 262144 := by
      rw [Nat.shiftRight_eq_div_pow]
      exact leadByte_val (a := 15) (i := 4) (by omega) (by omega)
    have hn : ¬ (byte (0xF0 ||| (c >>> 18))).val ≤ kMaxOneByteChar := by omega
    refine ⟨_, _, rfl, ?_⟩
    rw [valueOf, if_neg hn, List.cons_append, List.cons_append, List.singleton_append,
      calculateValue_of_four (by omega) (by omega) (hcont _) (hcont _) (hcont c)]
    have he : ((((byte (0xF0 ||| (c >>> 18))).val * 64 +
        ((byte (0x80 ||| ((c >>> 12) &&& 0x3F))).val - 0x80)) * 64 +
        ((byte (0x80 ||| ((c >>> 6) &&& 0x3F))).val - 0x80)) * 64 +
        ((byte (0x80 ||| (c &&& 0x3F))).val - 0x80)) % 2097152 = c := by
      rw [hv, continuationByte_val, continuationByte_val, continuationByte_val,
        Nat.shiftRight_eq_div_pow, Nat.shiftRight_eq_div_pow]
      omega
    rw [he]
    simp [hd]

theorem decodeFrom_length (t bs : List Byte) : decodeFrom t.length (t ++ bs) = decode bs := by
  induction t with
  | nil => rfl
  | cons b t ih => exact ih

theorem decode_encodeChar {c : Nat} (hc : c < 0x110000) (bs : List Byte) :
    decode (encodeChar c ++ bs) = units c ++ decode bs := by
  obtain ⟨b, t, he, hv⟩ := valueOf_encodeChar hc bs
  rw [he, List.cons_append, decode, decodeFrom, hv, decodeFrom_length]

theorem units_unit (c : CodeUnit) : units c.val = [c] := by
  have hn : ¬ c.val > 0xFFFF := by omega
  simp only [units, hn, if_false, List.cons.injEq, and_true]
  exact Fin.ext (by simp only [Fin.ofNat]; omega)

theorem and_surrogateMask (c : CodeUnit) : c.val &&& 0xFC00 = 1024 * (c.val / 1024) := by
  have hdiv : (c.val &&& 0xFC00) / 2 ^ 10 = c.val / 1024 % 64 := by
    rw [Nat.and_div_two_pow]
    exact Nat.and_two_pow_sub_one_eq_mod (c.val / 1024) 6
  have hmod : (c.val &&& 0xFC00) % 2 ^ 10 = 0 := by
    rw [Nat.and_mod_two_pow]
    exact Nat.and_zero _
  omega

theorem isLeadSurrogate_iff (c : CodeUnit) :
    isLeadSurrogate c = true ↔ 0xD800 ≤ c.val ∧ c.val < 0xDC00 := by
  rw [isLeadSurrogate, and_surrogateMask, beq_iff_eq]
  omega

theorem isTrailSurrogate_iff (c : CodeUnit) :
    isTrailSurrogate c = true ↔ 0xDC00 ≤ c.val ∧ c.val < 0xE000 := by
  rw [isTrailSurrogate, and_surrogateMask, beq_iff_eq]
  omega

theorem units_combine {c d : CodeUnit} (hc : isLeadSurrogate c = true)
    (hd : isTrailSurrogate d = true) :
    combineSurrogatePair c d < 0x110000 ∧ units (combineSurrogatePair c d) = [c, d] := by
  have hc := (isLeadSurrogate_iff c).mp hc
  have hd := (isTrailSurrogate_iff d).mp hd
  have hm (n : Nat) : n &&& 0x3FF = n % 1024 := Nat.and_two_pow_sub_one_eq_mod n 10
  have hv : combineSurrogatePair c d = 0x10000 + c.val % 1024 * 1024 + d.val % 1024 := by
    rw [combineSurrogatePair, hm, hm, Nat.shiftLeft_eq]
  have hlt : combineSurrogatePair c d > 0xFFFF := by omega
  refine ⟨by omega, ?_⟩
  rw [units, if_pos hlt]
  have hl : leadSurrogate (combineSurrogatePair c d) = c := by
    refine Fin.ext ?_
    simp only [leadSurrogate, hm, Nat.shiftRight_eq_div_pow, Fin.ofNat]
    omega
  have ht : trailSurrogate (combineSurrogatePair c d) = d := by
    refine Fin.ext ?_
    simp only [trailSurrogate, hm, Fin.ofNat]
    omega
  rw [hl, ht]

/-- A JavaScript string survives the way to UTF-8 and back, unpaired surrogates included. -/
theorem decode_encode (s : List CodeUnit) : decode (encode s) = s := by
  induction s using encode.induct with
  | case1 => rfl
  | case2 c =>
    have h := decode_encodeChar (c := c.val) (by omega) []
    simpa [encode, units_unit, decode, decodeFrom] using h
  | case3 c d cs hp ih =>
    obtain ⟨hc, hd⟩ := Bool.and_eq_true_iff.mp hp
    obtain ⟨hlt, hu⟩ := units_combine hc hd
    rw [encode, if_pos hp, decode_encodeChar hlt, hu, ih]
    rfl
  | case4 c d cs hp ih =>
    rw [encode, if_neg hp, decode_encodeChar (by omega), units_unit, ih]
    rfl

/-- ASCII bytes come from the ASCII units of the string and from nothing else. -/
theorem mem_encode_ascii_iff {x : Byte} (hx : x.val < 0x80) (s : List CodeUnit) :
    x ∈ encode s ↔ unit x ∈ s := by
  rw [← mem_decode_ascii_iff hx, decode_encode]

end HAS.Unicode

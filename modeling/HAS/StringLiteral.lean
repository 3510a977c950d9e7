import HAS.Lexical

/-! String literals under the lexical grammar: a literal without escapes denotes its
own text, every escape makes the value shorter than the text it is written with. -/
namespace HAS.Lexical
open HAS.Bytes

theorem scan_extend {G : Grammar} {s : State} {c : CodeUnit} {m : Mode}
    (h : extend G s.mode c = some m) (cs : List CodeUnit) :
    scan G s (c :: cs) = scan G { s with
      mode := m, terminator := s.terminator || (s.mode.inMultiLine && lineTerminator c) } cs := by
  simp only [scan, step, h]
  cases scan G _ cs <;> simp

theorem scan_bad (G : Grammar) (before : List Lexeme) (nl : Bool) (w : List CodeUnit) :
    scan G ⟨.bad, before, nl⟩ w = none := by
  induction w generalizing nl with
  | nil => rfl
  | cons c w ih => rw [scan_extend (m := .bad) rfl]; exact ih _

theorem emit_mode (G : Grammar) (s : State) (closed : Closed) :
    (s.emit G closed).1.mode = .between := by
  cases closed <;> rfl

theorem scan_between {G : Grammar} {s : State} (hs : s.mode = .between) (c : CodeUnit)
    (cs : List CodeUnit) : scan G s (c :: cs) = (s.begin G c).bind fun s' => scan G s' cs := by
  obtain ⟨m, before, nl⟩ := s
  obtain rfl : m = .between := hs
  simp only [scan, step, extend, close, State.emit]
  cases State.begin G _ c <;> simp

/-- An input element that the next unit does not extend ends where it stands. -/
theorem scan_close {G : Grammar} {s : State} {closed : Closed} {w : List CodeUnit}
    (hc : close s.mode = some closed) (he : ∀ c ∈ w.head?, extend G s.mode c = none) :
    scan G s w = (scan G (s.emit G closed).1 w).map ((s.emit G closed).2 ++ ·) := by
  have hm := emit_mode G s closed
  cases w with
  | nil =>
    have hb : close .between = some .nothing := rfl
    have hn (s' : State) : (s'.emit G .nothing).2 = [] := rfl
    simp only [scan, hc, hm, hb, hn, Option.map_some, List.append_nil]
  | cons c w =>
    rw [scan_between hm]
    simp only [scan, step, he c rfl, hc]
    cases (s.emit G closed).1.begin G c <;> simp

/-- What is complete comes out first. -/
theorem scan_complete {G : Grammar} {t : Token} {before : List Lexeme} {nl : Bool}
    {w : List CodeUnit} {es : List Element}
    (h : scan G ⟨.complete t, before, nl⟩ w = some es) : ∃ b es', es = .token t b :: es' := by
  have hc : close (Mode.complete t) = some (.token t) := rfl
  rw [scan_close hc fun c _ => rfl] at h
  obtain ⟨es', _, rfl⟩ := Option.map_eq_some_iff.mp h
  exact ⟨_, es', rfl⟩

/-- Reading a string literal opened by a quote, with a value so far. -/
inductive InString (quote : CodeUnit) : List CodeUnit → Mode → Prop where
  | string (t v) : InString quote v (.string quote t v)
  | escape (t v) : InString quote v (.stringEscape quote t v)
  | cr (t v) : InString quote v (.stringCR quote t v)
  | zero (t v) : InString quote v (.stringZero quote t v)
  | hex (t v left n) : InString quote v (.stringHex quote t v left n)

/-- One unit of a string literal: an error, its end, or more of it, with at most one
unit of value for the unit of text. -/
inductive GoesOn (quote : CodeUnit) (v : List CodeUnit) (c : CodeUnit) : Mode → Prop where
  | bad : GoesOn quote v c .bad
  | ends (t) (h : c = quote) : GoesOn quote v c (.complete ⟨.stringLiteral, t, v⟩)
  | more {v' m} (h : InString quote v' m) (hle : v'.length ≤ v.length + 1) : GoesOn quote v c m

theorem extendString_goesOn (quote : CodeUnit) (t v : List CodeUnit) (c : CodeUnit) :
    GoesOn quote v c (extendString quote t v c) := by
  unfold extendString
  split_ifs with hq
  · exact .ends _ hq
  · exact .more (.escape _ _) (by omega)
  · exact .bad
  · exact .more (.string _ _) (by simp)

theorem extendEscape_goesOn (quote : CodeUnit) (t v : List CodeUnit) (c : CodeUnit) :
    GoesOn quote v c (extendEscape quote t v c) := by
  unfold extendEscape
  dsimp only
  split_ifs
  · exact .more (.cr _ _) (by omega)
  · exact .more (.string _ _) (by omega)
  · exact .more (.hex _ _ _ _) (by omega)
  · exact .more (.hex _ _ _ _) (by omega)
  · exact .more (.zero _ _) (by simp)
  · exact .bad
  · exact .more (.string _ _) (by simp)

theorem extendHex_goesOn (quote : CodeUnit) (t v : List CodeUnit) (left n : Nat) (c : CodeUnit) :
    GoesOn quote v c (extendHex quote t v left n c) := by
  unfold extendHex
  cases hexDigit c with
  | none => exact .bad
  | some d =>
    dsimp only
    split_ifs
    · exact .more (.string _ _) (by simp)
    · exact .more (.hex _ _ _ _) (by omega)

theorem extend_inString {quote : CodeUnit} {v : List CodeUnit} {m : Mode}
    (G : Grammar) (h : InString quote v m) (c : CodeUnit) :
    ∃ m', extend G m c = some m' ∧ GoesOn quote v c m' := by
  cases h with
  | string t v => exact ⟨_, rfl, extendString_goesOn quote t v c⟩
  | escape t v => exact ⟨_, rfl, extendEscape_goesOn quote t v c⟩
  | cr t v =>
    refine ⟨_, rfl, ?_⟩
    split_ifs
    · exact .more (.string _ _) (by omega)
    · exact extendString_goesOn quote t v c
  | zero t v =>
    refine ⟨_, rfl, ?_⟩
    split_ifs
    · exact .bad
    · exact extendString_goesOn quote t v c
  | hex t v left n => exact ⟨_, rfl, extendHex_goesOn quote t v left n c⟩

/-- However a literal goes on, it closes at a quote, and its value has at most one
unit for each unit of text before that quote. -/
theorem scan_inString {G : Grammar} {quote : CodeUnit} {before : List Lexeme}
    {w v : List CodeUnit} {m : Mode} {nl : Bool} {es : List Element}
    (hm : InString quote v m) (h : scan G ⟨m, before, nl⟩ w = some es) :
    ∃ n t v' b es', es = .token ⟨.stringLiteral, t, v'⟩ b :: es' ∧
      w[n]? = some quote ∧ v'.length ≤ v.length + n := by
  induction w generalizing m v nl with
  | nil => cases hm <;> simp [scan, close] at h
  | cons c w ih =>
    obtain ⟨m', he, hm'⟩ := extend_inString G hm c
    rw [scan_extend he] at h
    cases hm' with
    | bad => simp [scan_bad] at h
    | ends t hquote =>
      subst hquote
      obtain ⟨b, es', rfl⟩ := scan_complete h
      exact ⟨0, t, v, b, es', rfl, rfl, by omega⟩
    | more hv hle =>
      obtain ⟨n, t, v'', b, es', rfl, hn, hl⟩ := ih hv h
      exact ⟨n + 1, t, v'', b, es', rfl, by simpa using hn, by omega⟩

/-- A unit that stands for itself inside a string literal. -/
def plain (quote c : CodeUnit) : Bool := c != quote && c != chr '\\' && !lineTerminator c

theorem extendString_plain {quote c : CodeUnit} (h : plain quote c = true)
    (t v : List CodeUnit) : extendString quote t v c = .string quote (t ++ [c]) (v ++ [c]) := by
  simp only [plain, Bool.and_eq_true, bne_iff_ne, Bool.not_eq_true'] at h
  simp [extendString, h]

theorem scan_plain {G : Grammar} {quote : CodeUnit} {before : List Lexeme} {nl : Bool}
    {u : List CodeUnit} (hu : ∀ c ∈ u, plain quote c = true) (t v rest : List CodeUnit) :
    scan G ⟨.string quote t v, before, nl⟩ (u ++ rest) =
      scan G ⟨.string quote (t ++ u) (v ++ u), before, nl⟩ rest := by
  induction u generalizing t v with
  | nil => simp
  | cons c u ih =>
    have hc := extendString_plain (hu c (by simp)) t v
    have hr := ih (fun d hd => hu d (List.mem_cons_of_mem c hd)) (t ++ [c]) (v ++ [c])
    rw [List.cons_append, scan_extend (m := .string quote (t ++ [c]) (v ++ [c]))
      (by simp [extend, hc])]
    simpa [Mode.inMultiLine] using hr

/-- A literal denotes either the plain text up to its closing quote or a value
shorter than that. -/
theorem scan_string {G : Grammar} {quote : CodeUnit} {before : List Lexeme}
    {w t v : List CodeUnit} {nl : Bool} {es : List Element}
    (h : scan G ⟨.string quote t v, before, nl⟩ w = some es) :
    ∃ n t' v' b es', es = .token ⟨.stringLiteral, t', v'⟩ b :: es' ∧ w[n]? = some quote ∧
      ((v' = v ++ w.take n ∧ ∀ c ∈ w.take n, plain quote c = true) ∨
        v'.length < v.length + n) := by
  induction w generalizing t v nl with
  | nil => simp [scan, close] at h
  | cons c w ih =>
    rw [scan_extend (m := extendString quote t v c) rfl] at h
    by_cases hq : c = quote
    · simp only [extendString, hq, if_true] at h
      obtain ⟨b, es', rfl⟩ := scan_complete h
      exact ⟨0, _, v, b, es', rfl, by simp [hq], .inl (by simp)⟩
    · by_cases hb : c = chr '\\'
      · rw [show extendString quote t v c = .stringEscape quote (t ++ [c]) v by
          rw [extendString, if_neg hq, if_pos hb]] at h
        obtain ⟨n, t', v', b, es', rfl, hn, hl⟩ := scan_inString (.escape _ _) h
        exact ⟨n + 1, t', v', b, es', rfl, by simpa using hn, .inr (by omega)⟩
      · by_cases hl : lineTerminator c = true
        · rw [show extendString quote t v c = .bad by
            rw [extendString, if_neg hq, if_neg hb, if_pos hl]] at h
          simp [scan_bad] at h
        · have hp : plain quote c = true := by simp [plain, hq, hb, hl]
          rw [extendString_plain hp] at h
          obtain ⟨n, t', v', b, es', rfl, hn, hv⟩ := ih h
          refine ⟨n + 1, t', v', b, es', rfl, by simpa using hn, ?_⟩
          rcases hv with ⟨rfl, hall⟩ | hlt
          · exact .inl ⟨by simp, by simpa [hp] using hall⟩
          · exact .inr (by simp at hlt; omega)

/-- A text read back as itself from between quotes has no quote, no backslash and no
line terminator, provided the unit behind the closing quote is no quote. -/
theorem plain_of_scan_quoted {G : Grammar} {quote d : CodeUnit} {before : List Lexeme} {nl : Bool}
    {u : List CodeUnit} (hd : d ≠ quote) :
    (∃ t b es, scan G ⟨.string quote [quote] [], before, nl⟩ (u ++ [quote, d]) =
        some (.token ⟨.stringLiteral, t, u⟩ b :: es)) →
      ∀ c ∈ u, plain quote c = true := by
  rintro ⟨t, b, es, h⟩
  obtain ⟨n, t', v', b', es', he, hn, hv⟩ := scan_string h
  obtain ⟨⟨rfl, rfl⟩, rfl⟩ : (t = t' ∧ u = v') ∧ b = b' := by simpa using (List.cons.inj he).1
  have hle : n ≤ u.length := by
    by_contra hgt
    obtain hlt | heq := Nat.lt_or_eq_of_le (Nat.succ_le_of_lt (not_le.mp hgt))
    · have : (u ++ [quote, d]).length ≤ n := by simp; omega
      simp [List.getElem?_eq_none this] at hn
    · rw [← heq, List.getElem?_append_right (by omega)] at hn
      simp at hn
      exact hd hn
  rcases hv with ⟨hu, hall⟩ | hlt
  · have hn' : n = u.length := by
      have := congrArg List.length hu
      simp at this
      omega
    simpa [hn'] using hall
  · simp at hlt
    omega

end HAS.Lexical

import Mathlib.Tactic.Common

/-! Readers that consume a state and can fail: what a run that succeeds ensures of its result,
and how runs are put together. -/
namespace HAS.Readers
universe u
variable {σ α β : Type u} {ε : Type*} {x : StateT σ (Except ε) α} {f : α → StateT σ (Except ε) β}

theorem run_bind {s t : σ} {a : α} (h : x s = .ok (a, t)) : (x >>= f) s = f a t := by
  change (x s).bind _ = _
  rw [h]
  rfl

theorem run_pure (a : α) (s : σ) : (pure a : StateT σ (Except ε) α) s = .ok (a, s) := rfl

theorem bind_eq_ok {s t : σ} {b : β} (h : (x >>= f) s = .ok (b, t)) :
    ∃ a u, x s = .ok (a, u) ∧ f a u = .ok (b, t) := by
  change (x s).bind _ = _ at h
  cases hx : x s with
  | error e => exact absurd (hx ▸ h) nofun
  | ok r =>
    rw [hx] at h
    exact ⟨r.1, r.2, rfl, h⟩

/-- Whenever the reader succeeds, its result has the property. -/
def Ensures (x : StateT σ (Except ε) α) (P : α → Prop) : Prop :=
  ∀ s a t, x s = .ok (a, t) → P a

variable {P P' : α → Prop} {Q : β → Prop}

theorem Ensures.pure {a : α} (h : P a) : Ensures (pure a : StateT σ (Except ε) α) P := by
  intro s b t hrun
  obtain ⟨rfl, -⟩ := Prod.mk.inj (Except.ok.inj hrun)
  exact h

theorem Ensures.throw (e : ε) : Ensures (throw e : StateT σ (Except ε) α) P := by
  intro s b t hrun
  exact absurd hrun nofun

theorem Ensures.bind (hx : Ensures x P) (hf : ∀ a, P a → Ensures (f a) Q) :
    Ensures (x >>= f) Q := by
  intro s b t hrun
  obtain ⟨a, u, ha, hb⟩ := bind_eq_ok hrun
  exact hf a (hx s a u ha) u b t hb

theorem Ensures.ite {c : Prop} [Decidable c] {y : StateT σ (Except ε) α}
    (hx : c → Ensures x P) (hy : ¬ c → Ensures y P) : Ensures (if c then x else y) P := by
  split
  next h => exact hx h
  next h => exact hy h

section Reads
variable {τ : Type*} {Spells : List τ → σ → Prop} {ts us : List τ} {a : α} {b : β}

/-- From a state that spells these tokens, and any others behind them, the reader takes them and
has this result. -/
def Reads (Spells : List τ → σ → Prop) (x : StateT σ (Except ε) α) (ts : List τ) (a : α) : Prop :=
  ∀ rest s, Spells (ts ++ rest) s → ∃ t, x s = .ok (a, t) ∧ Spells rest t

theorem Reads.pure (a : α) : Reads Spells (pure a : StateT σ (Except ε) α) [] a :=
  fun _ s hs => ⟨s, run_pure a s, hs⟩

theorem Reads.bind (hx : Reads Spells x ts a) (hf : Reads Spells (f a) us b) :
    Reads Spells (x >>= f) (ts ++ us) b := by
  intro rest s hs
  rw [List.append_assoc] at hs
  obtain ⟨t, ht, hrest⟩ := hx _ s hs
  obtain ⟨u, hu, hlast⟩ := hf rest t hrest
  exact ⟨u, by rw [run_bind ht, hu], hlast⟩

theorem Reads.last (hx : Reads Spells x ts a) (hf : Reads Spells (f a) [] b) :
    Reads Spells (x >>= f) ts b :=
  List.append_nil ts ▸ hx.bind hf

end Reads
end HAS.Readers

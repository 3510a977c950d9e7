import Mathlib.Data.Set.Lattice
import Mathlib.Data.List.Chain
import Mathlib.Tactic.Common

/-! Sentences that are built a word at a time: what can come first, what can come next after a
state, and which states can be the last. Parts that are embedded side by side have their
sentences, and no others. -/
namespace HAS.Expansions
variable {S W S' W' ι : Type*}

structure Expander (S W : Type*) where
  first : Set (W × S)
  next : S → Set (W × S)
  final : Set S

/-- The words that can be added after a state up to a final one. -/
inductive Expander.From (E : Expander S W) : S → List W → Prop
  | stop {s : S} (h : s ∈ E.final) : From E s []
  | step {s t : S} {w : W} {ws : List W} (h : (w, t) ∈ E.next s) (hrest : From E t ws) :
      From E s (w :: ws)

def Expander.sentences (E : Expander S W) : Set (List W) :=
  {ws | ∃ w s rest, ws = w :: rest ∧ (w, s) ∈ E.first ∧ E.From s rest}

/-- From its good states a part goes on as the whole does from theirs. -/
structure Embeds (part : Expander S' W') (good : S' → Prop) (f : S' → S) (g : W' → W)
    (E : Expander S W) : Prop where
  first : ∀ p ∈ part.first, good p.2
  closed : ∀ s, good s → ∀ p ∈ part.next s, good p.2
  next : ∀ s, good s → E.next (f s) = Prod.map g f '' part.next s
  final : ∀ s, good s → (f s ∈ E.final ↔ s ∈ part.final)

variable {part : Expander S' W'} {good : S' → Prop} {f : S' → S} {g : W' → W} {E : Expander S W}

theorem Embeds.from_iff (h : Embeds part good f g E) {s : S'} (hs : good s) {ws : List W} :
    E.From (f s) ws ↔ ∃ vs, ws = vs.map g ∧ part.From s vs := by
  induction ws generalizing s with
  | nil =>
    constructor
    · intro hfrom
      cases hfrom with
      | stop hfinal => exact ⟨[], rfl, .stop ((h.final s hs).mp hfinal)⟩
    · intro ⟨vs, hvs, hfrom⟩
      obtain rfl := List.map_eq_nil_iff.mp hvs.symm
      cases hfrom with
      | stop hfinal => exact .stop ((h.final s hs).mpr hfinal)
  | cons w ws ih =>
    constructor
    · intro hfrom
      cases hfrom with
      | step hnext hrest =>
        rw [h.next s hs] at hnext
        obtain ⟨⟨v, t⟩, hvt, heq⟩ := hnext
        obtain ⟨rfl, rfl⟩ := Prod.mk.inj heq
        obtain ⟨vs, rfl, hvs⟩ := (ih (h.closed s hs _ hvt)).mp hrest
        exact ⟨v :: vs, rfl, .step hvt hvs⟩
    · intro ⟨vs, hvs, hfrom⟩
      cases hfrom with
      | stop => exact absurd hvs nofun
      | step hvt hrest =>
        obtain ⟨rfl, rfl⟩ := List.cons.inj hvs
        refine .step ?_ ((ih (h.closed s hs _ hvt)).mpr ⟨_, rfl, hrest⟩)
        rw [h.next s hs]
        exact ⟨_, hvt, rfl⟩

/-- What can come first is what can come first in one of the parts, so every sentence is one of
a part, and those are all sentences. -/
theorem sentences_eq {parts : ι → Expander S' W'} {good : ι → S' → Prop} {f : ι → S' → S}
    {g : ι → W' → W} {I : Set ι} (h : ∀ i ∈ I, Embeds (parts i) (good i) (f i) (g i) E)
    (hfirst : ∀ p, p ∈ E.first ↔ ∃ i ∈ I, p ∈ Prod.map (g i) (f i) '' (parts i).first)
    (ws : List W) :
    ws ∈ E.sentences ↔ ∃ i ∈ I, ∃ vs ∈ (parts i).sentences, ws = vs.map (g i) := by
  constructor
  · intro ⟨w, s, rest, hws, hw, hrest⟩
    obtain ⟨i, hi, ⟨v, t⟩, hvt, heq⟩ := (hfirst _).mp hw
    obtain ⟨rfl, rfl⟩ := Prod.mk.inj heq
    obtain ⟨vs, rfl, hvs⟩ := ((h i hi).from_iff ((h i hi).first _ hvt)).mp hrest
    exact ⟨i, hi, v :: vs, ⟨v, t, vs, rfl, hvt, hvs⟩, hws⟩
  · intro ⟨i, hi, _, ⟨v, t, vs, rfl, hvt, hvs⟩, hws⟩
    refine ⟨g i v, f i t, vs.map (g i), hws, (hfirst _).mpr ⟨i, hi, _, hvt, rfl⟩, ?_⟩
    exact ((h i hi).from_iff ((h i hi).first _ hvt)).mpr ⟨vs, rfl, hvs⟩

/-- Relations between words that hold wherever a word is added hold along every sentence. -/
theorem Expander.From.chain {P : W → S → Prop} {R : W → W → Prop} {Last : W → Prop}
    (hnext : ∀ v s, P v s → ∀ w t, (w, t) ∈ E.next s → R v w ∧ P w t)
    (hfinal : ∀ v s, P v s → s ∈ E.final → Last v) {s : S} {ws : List W} (h : E.From s ws)
    {v : W} (hv : P v s) :
    List.IsChain R (v :: ws) ∧ Last ((v :: ws).getLast (List.cons_ne_nil v ws)) := by
  induction h generalizing v with
  | stop h => exact ⟨.singleton v, hfinal v _ hv h⟩
  | step h _ ih =>
    obtain ⟨hR, hP⟩ := hnext v _ hv _ _ h
    obtain ⟨hchain, hlast⟩ := ih hP
    exact ⟨.cons_cons hR hchain, by rwa [List.getLast_cons (List.cons_ne_nil _ _)]⟩

end HAS.Expansions

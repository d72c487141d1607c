import Mathlib.Tactic.Common

/-!
# Labelled runs

Runs of a labelled transition relation, what an invariant gives along them, and
forward simulation between two relations with the same labels.

* `Runs.invariant`: what every step keeps, every run keeps.
* `Runs.simulate`: a simulation of steps is one of runs.
* `exists_runAll`: a run that can be computed is one.
-/

namespace OmniJsonDb

variable {σ τ ℓ : Type*}

/-- Runs of a labelled relation; the trace is in the order the steps were taken. -/
inductive Runs (step : σ → ℓ → σ → Prop) (s₀ : σ) : List ℓ → σ → Prop
  | refl : Runs step s₀ [] s₀
  | tail {tr s l s'} : Runs step s₀ tr s → step s l s' → Runs step s₀ (tr ++ [l]) s'

namespace Runs

variable {step : σ → ℓ → σ → Prop} {s₀ s s' : σ} {tr : List ℓ}

/-- **Invariants.** What holds at the start and is kept by every step holds at the end. -/
theorem invariant {P : σ → Prop} (h₀ : P s₀) (h : ∀ s l s', P s → step s l s' → P s')
    (hr : Runs step s₀ tr s) : P s := by
  induction hr with
  | refl => exact h₀
  | tail _ hs ih => exact h _ _ _ ih hs

/-- A run of a relation is one of a larger relation. -/
theorem mono {step' : σ → ℓ → σ → Prop} (h : ∀ s l s', step s l s' → step' s l s')
    (hr : Runs step s₀ tr s) : Runs step' s₀ tr s := by
  induction hr with
  | refl => exact .refl
  | tail _ hs ih => exact ih.tail (h _ _ _ hs)

/-- A run with a step in front. -/
theorem head {l : ℓ} (h : step s₀ l s) (hr : Runs step s tr s') : Runs step s₀ (l :: tr) s' := by
  induction hr with
  | refl => exact Runs.refl.tail h
  | tail _ hs ih => exact ih.tail hs

/-- **Simulation.** When every step between related states has its counterpart, so has
every run. -/
theorem simulate {astep : τ → ℓ → τ → Prop} {R : σ → τ → Prop} {t₀ : τ} (h₀ : R s₀ t₀)
    (h : ∀ s t l s', R s t → step s l s' → ∃ t', astep t l t' ∧ R s' t')
    (hr : Runs step s₀ tr s) : ∃ t, Runs astep t₀ tr t ∧ R s t := by
  induction hr with
  | refl => exact ⟨t₀, .refl, h₀⟩
  | tail _ hs ih =>
    obtain ⟨t, ht, hR⟩ := ih
    obtain ⟨t', hst, hR'⟩ := h _ _ _ _ hR hs
    exact ⟨t', ht.tail hst, hR'⟩

end Runs

/-! ## Computed runs -/

/-- Take the steps of a list, as long as they can be taken. -/
def runAll (next : σ → ℓ → Option σ) : List ℓ → σ → Option σ
  | [], s => some s
  | l :: ls, s => (next s l).bind (runAll next ls)

theorem runs_of_runAll {next : σ → ℓ → Option σ} {s' : σ} {ls : List ℓ} {s : σ}
    (h : runAll next ls s = some s') : Runs (fun s l s' => next s l = some s') s ls s' := by
  induction ls generalizing s with
  | nil =>
    cases h
    exact .refl
  | cons l ls ih =>
    obtain ⟨s₁, hs, h⟩ := Option.bind_eq_some_iff.1 h
    exact .head hs (ih h)

/-- A run that can be computed, with what can be computed of its end. -/
theorem exists_runAll (next : σ → ℓ → Option σ) (s : σ) (ls : List ℓ) {P : σ → Bool}
    (h : (runAll next ls s).any P = true) :
    ∃ s', Runs (fun s l s' => next s l = some s') s ls s' ∧ P s' = true := by
  obtain ⟨s', hrun, hP⟩ := (Option.any_eq_true P _).1 h
  exact ⟨s', runs_of_runAll hrun, hP⟩

end OmniJsonDb

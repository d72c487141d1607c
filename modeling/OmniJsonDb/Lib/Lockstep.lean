import Mathlib.Data.List.Forall2

/-!
# Two machines in lockstep

Machines that are handed the same calls and answer each of them. Which calls keep them together is
a matter of one call; for a sequence it is the same question again at each state the second machine
comes to.

* `lockstep_iff`: they give the same answers and stay related just when each call keeps them so.
-/

namespace OmniJsonDb

namespace Lockstep

variable {C R S T : Type*}

/-- What a machine answers to each call, and its state after it. -/
def trace (f : C → S → R × S) : List C → S → List (R × S)
  | [], _ => []
  | c :: cs, s => f c s :: trace f cs (f c s).2

/-- Every call has the property at the state that it finds. -/
def Along (f : C → S → R × S) (P : C → S → Prop) : List C → S → Prop
  | [], _ => True
  | c :: cs, s => P c s ∧ Along f P cs (f c s).2

/-- The same answer, and related states. -/
def Alike (rel : S → T → Prop) (x : R × S) (y : R × T) : Prop := x.1 = y.1 ∧ rel x.2 y.2

/-- **Lockstep.** When it is known of one call, it is known of all sequences of them. -/
theorem lockstep_iff {f : C → S → R × S} {g : C → T → R × T} {rel : S → T → Prop} {P : C → T → Prop}
    (hstep : ∀ c s t, rel s t → (Alike rel (f c s) (g c t) ↔ P c t)) (cs : List C) :
    ∀ s t, rel s t → (List.Forall₂ (Alike rel) (trace f cs s) (trace g cs t) ↔ Along g P cs t) := by
  induction cs with
  | nil =>
    intro s t _
    exact iff_of_true .nil trivial
  | cons c cs ih =>
    intro s t h
    rw [trace, trace, List.forall₂_cons, Along, hstep c s t h]
    refine and_congr_right fun hp => ?_
    have hnext := ((hstep c s t h).2 hp).2
    exact ih _ _ hnext

end Lockstep

end OmniJsonDb

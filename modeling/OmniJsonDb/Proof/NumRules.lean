import OmniJsonDb.Model.NumRules
import OmniJsonDb.Proof.Transform

/-!
# When a rule raises

A comparison raises where a number divides by zero, or where an integer that is too large meets a
float. A rule raises where one of its operators does, if its turn comes.

* `Leaf.Stumbles`: the values that a comparison does not take.
* `Numerics.Safe`: no operator is handed a value it does not take.
* `queries_return_iff`: with those exceptions transforms and rules return.
-/

namespace OmniJsonDb

open PyVal (floatNum)

/-! ## Arithmetic -/

/-- A float, and an integer that is too large for one. -/
def Clash : Number → Number → Prop
  | .int i, .float _ => tooLarge i
  | .float _, .int j => tooLarge j
  | _, _ => False

/-- `$near` and `$mod` where they do not compute. -/
def Leaf.Stumbles (l : Leaf) (v : PyVal) : Prop :=
  match l with
  | .near target _ => ∃ n, v.number? = some n ∧ Clash n target.number
  | .mod divisor _ => ∃ n, v.number? = some n ∧ (divisor.number.num = .fin 0 ∨ Clash n divisor.number)
  | _ => False

theorem num_int_eq_zero {j : ℤ} : (Number.int j).num = .fin 0 ↔ j = 0 := by
  have hunits : FLOAT_UNITS ≠ 0 := by decide +kernel
  simp [Number.num, hunits]

namespace Numerics

variable {e : Numerics} {a b : Number} {v : PyVal}

theorem floatInt_eq (i : ℤ) : (tooLarge i → e.floatInt i = .error .overflow) ∧ (¬ tooLarge i → e.floatInt i = .ok (e.ofInt i)) := by
  unfold floatInt
  exact ⟨fun h => if_pos h, fun h => if_neg h⟩

/-- Arithmetic that takes all floats returns unless its arguments clash. -/
theorem arith_ok_iff {onInts : ℤ → ℤ → Except Exc Number} {onFloats : ℕ → ℕ → Except Exc Number} {P : Prop}
    (hints : ∀ i j, a = .int i → b = .int j → ((∃ r, onInts i j = .ok r) ↔ P))
    (hfloats : ∀ f g, (∃ r, onFloats f g = .ok r) ↔ P) :
    (∃ r, e.arith onInts onFloats a b = .ok r) ↔ P ∧ ¬ Clash a b := by
  cases a with
  | int i =>
    cases b with
    | int j => simpa [arith, Clash] using hints i j rfl rfl
    | float g =>
      by_cases hi : tooLarge i
      · simp [arith, numFloat, Clash, (floatInt_eq i).1 hi, hi]
      · simp [arith, numFloat, Clash, (floatInt_eq i).2 hi, hi, hfloats]
  | float f =>
    cases b with
    | int j =>
      by_cases hj : tooLarge j
      · simp [arith, numFloat, Clash, (floatInt_eq j).1 hj, hj]
      · simp [arith, numFloat, Clash, (floatInt_eq j).2 hj, hj, hfloats]
    | float g => simp [arith, numFloat, Clash, hfloats]

theorem minus_ok_iff : (∃ r, e.minus a b = .ok r) ↔ ¬ Clash a b := by
  have h := @arith_ok_iff e a b (fun i j => .ok (.int (i - j))) (fun f g => .ok (.float (e.sub f g))) True
    (fun _ _ _ _ => by simp) (fun _ _ => by simp)
  simpa [minus] using h

theorem modulo_ok_iff : (∃ r, e.modulo a b = .ok r) ↔ b.num ≠ .fin 0 ∧ ¬ Clash a b := by
  refine arith_ok_iff ?_ ?_
  · intro i j _ hb
    rw [hb, Ne, num_int_eq_zero]
    split <;> simp_all
  · intro f g
    split <;> simp_all

/-- **A comparison returns** for all values but those. -/
theorem matchLeaf_ok_iff {l : Leaf} {rev : Bool} : (∃ t, e.matchLeaf l rev v = .ok t) ↔ ¬ l.Stumbles v := by
  cases l with
  | cmp c rule => cases hv : v.number? <;> simp [matchLeaf, Leaf.Stumbles, hv]
  | between low high =>
    cases hv : v.number? with
    | none => simp [matchLeaf, Leaf.Stumbles, hv]
    | some n =>
      simp only [matchLeaf, Leaf.Stumbles, hv]
      split <;> simp
  | near target tol =>
    cases hv : v.number? with
    | none => simp [matchLeaf, Leaf.Stumbles, hv]
    | some n => simp [matchLeaf, Leaf.Stumbles, hv, map_eq_ok_iff, minus_ok_iff]
  | mod divisor remainder =>
    cases hv : v.number? with
    | none => simp [matchLeaf, Leaf.Stumbles, hv]
    | some n => simp [matchLeaf, Leaf.Stumbles, hv, map_eq_ok_iff, modulo_ok_iff]
  | among op rule => simp [matchLeaf, Leaf.Stumbles]

/-! ## Rules -/

variable (e : Numerics)

/-- No transform of a path is handed a value it does not take. -/
def Takes : List TransformOp → PyVal → Prop
  | [], _ => True
  | op :: ops, v => ¬ e.Raises op v ∧ ∀ w, e.applyTransform op v = .ok w → w ≠ .none → Takes ops w

mutual

/-- No operator whose turn comes is handed a value it does not take, and no rule whose turn comes lies
too deep. -/
def Safe (level : ℕ) : Rule → PyVal → Prop
  | .num _, _ => level ≤ e.frames
  | .among _, _ => level ≤ e.frames
  | .dict cmds, v => level ≤ e.frames ∧ SafeCmds level cmds v

/-- The turn of a command comes when those before it match. -/
def SafeCmds (level : ℕ) : Cmds → PyVal → Prop
  | .nil, _ => True
  | .leaf rev l rest, v => ¬ l.Stumbles v ∧ (e.matchLeaf l rev v = .ok true → SafeCmds level rest v)
  | .transform rev op ops rule rest, v => e.Takes (op :: ops) v ∧ ∀ w, e.applyAll (op :: ops) v = .ok (some w) →
      Safe (level + 1) rule w ∧ (Test.flip rev (e.matchRule (level + 1) rule w) = .ok true → SafeCmds level rest v)
  | .field rev f rule rest, v => ∀ w, QueryEnv.field? f.name v = some w →
      Safe (level + 1) rule w ∧ (Test.flip rev (e.matchRule (level + 1) rule w) = .ok true → SafeCmds level rest v)

end

theorem applyAll_ok_iff (ops : List TransformOp) (v : PyVal) : (∃ r, e.applyAll ops v = .ok r) ↔ e.Takes ops v := by
  induction ops generalizing v with
  | nil => simp [applyAll, Takes]
  | cons op ops ih =>
    rw [applyAll, Takes, ← applyTransform_ok_iff]
    cases h : e.applyTransform op v with
    | error err => simp
    | ok w =>
      cases w with
      | none => simp
      | _ => simp [ih]

theorem andThen_ok_iff {s t : Test Exc} : (∃ b, Test.andThen s t = .ok b) ↔
    (∃ b, s = .ok b) ∧ (s = .ok true → ∃ b, t = .ok b) := by
  cases s with
  | error err => simp
  | ok b => cases b <;> simp

theorem flip_ok_iff {rev : Bool} {t : Test Exc} : (∃ b, Test.flip rev t = .ok b) ↔ ∃ b, t = .ok b := map_eq_ok_iff

theorem entered_ok_iff {level : ℕ} {t : Test Exc} :
    (∃ b, e.entered level t = .ok b) ↔ level ≤ e.frames ∧ ∃ b, t = .ok b := by
  unfold entered
  split
  · rename_i h
    simp [not_le.2 h]
  · rename_i h
    simp [not_lt.1 h]

mutual

/-- **A rule returns** just when no operator is handed what it does not take and no rule lies too deep. -/
theorem matchRule_ok_iff (level : ℕ) : ∀ (rule : Rule) (v : PyVal),
    (∃ b, e.matchRule level rule v = .ok b) ↔ e.Safe level rule v
  | .num o, v => by
    rw [matchRule, Safe, entered_ok_iff, matchLeaf_ok_iff]
    simp [Leaf.Stumbles]
  | .among os, v => by
    rw [matchRule, Safe, entered_ok_iff, matchLeaf_ok_iff]
    simp [Leaf.Stumbles]
  | .dict cmds, v => by
    rw [matchRule, Safe, entered_ok_iff, matchCmds_ok_iff level cmds v]

theorem matchCmds_ok_iff (level : ℕ) : ∀ (cmds : Cmds) (v : PyVal),
    (∃ b, e.matchCmds level cmds v = .ok b) ↔ e.SafeCmds level cmds v
  | .nil, v => by simp [matchCmds, SafeCmds]
  | .leaf rev l rest, v => by
    rw [matchCmds, SafeCmds, andThen_ok_iff, matchLeaf_ok_iff, matchCmds_ok_iff level rest v]
  | .transform rev op ops rule rest, v => by
    rw [matchCmds, SafeCmds, andThen_ok_iff, ← applyAll_ok_iff, matchCmds_ok_iff level rest v]
    cases h : e.applyAll (op :: ops) v with
    | error err => simp
    | ok r =>
      cases r with
      | none => simp
      | some w =>
        dsimp only
        rw [flip_ok_iff, matchRule_ok_iff (level + 1) rule w]
        simp
  | .field rev f rule rest, v => by
    rw [matchCmds, SafeCmds, andThen_ok_iff, matchCmds_ok_iff level rest v]
    cases h : QueryEnv.field? f.name v with
    | none => simp
    | some w =>
      dsimp only
      rw [flip_ok_iff, matchRule_ok_iff (level + 1) rule w]
      simp

end

/-- **Queries return** just when no operator that is asked is handed a value it does not take, and no rule
whose turn comes lies too deep. -/
theorem queries_return_iff (e : Numerics) :
    (∀ op v, (∃ w, e.applyTransform op v = .ok w) ↔ ¬ e.Raises op v) ∧
    ∀ rule v, (∃ b, e.matchRule 0 rule v = .ok b) ↔ e.Safe 0 rule v :=
  ⟨e.applyTransform_ok_iff, e.matchRule_ok_iff 0⟩

/-- `$ceil` of an infinite float raises, and so does `{'$mod': [0, 0]}` on `5`. -/
theorem queries_raise : (∀ e : Numerics, ¬ ∃ w, e.applyTransform .ceil (.float 0x7FF0000000000000) = .ok w) ∧
    ∀ e : Numerics, ¬ ∃ b, e.matchRule 0 (.dict (.leaf false (.mod (.int 0) (.int 0)) .nil)) (.int 5) = .ok b := by
  have hinf : floatNum 0x7FF0000000000000 = .inf false := by decide +kernel
  refine ⟨fun e ⟨w, hw⟩ => ?_, fun e ⟨b, hb⟩ => ?_⟩
  · have hceil : e.applyTransform .ceil (.float 0x7FF0000000000000) = .error .overflow := by
      simp [applyTransform, compute, ceil, rounding, roundFloat, hinf, excepted, Exc.caught, Except.map]
    rw [hceil] at hw
    cases hw
  · cases hb

end Numerics

end OmniJsonDb

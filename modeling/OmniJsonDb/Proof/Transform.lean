import OmniJsonDb.Lib.Raising
import OmniJsonDb.Model.Transform

/-!
# When a transform raises

Of what Python raises, `OverflowError` and `RecursionError` are not caught. The one comes from an
infinite float that is to be an integer, from an integer that is to be a float and is too large for
one, and from results that are; the other from values that are nested too deep for `str(..)` or for a
comparison.

* `Overflows`, `TooDeep`: the values that an operator does not take.
* `compute_overflow`, `compute_recursion`: on those it raises what is not caught.
* `applyTransform_ok_iff`: for all others it returns.
-/

namespace OmniJsonDb

open PyVal (floatNum)
open Raising

/-! ## What is too large -/

def IsInf (f : ℕ) : Prop := ∃ neg, floatNum f = .inf neg
def IsFin (f : ℕ) : Prop := ∃ n, floatNum f = .fin n

/-- An integer that no float comes near. -/
def HugeInt (v : PyVal) : Prop := ∃ i, v = .int i ∧ tooLarge i

def IsNumber (v : PyVal) : Prop := ∃ n, v.number? = some n
def IsInt (v : PyVal) : Prop := ∃ i, v.number? = some (.int i)
def IsFloat (v : PyVal) : Prop := ∃ f, v.number? = some (.float f)

/-- A value for `Q` with only values for `P` before it. -/
def First (P Q : PyVal → Prop) (xs : List PyVal) : Prop :=
  ∃ pre x post, xs = pre ++ x :: post ∧ (∀ y ∈ pre, P y) ∧ Q x

/-- The sum of the integers. -/
def intSum (xs : List PyVal) : ℤ :=
  (xs.map fun x =>
    match x.number? with
    | some (.int i) => i
    | _ => 0).sum

/-- A float meets a sum of integers that is too large, or an integer that is too large comes after a float. -/
def SumOver (xs : List PyVal) : Prop :=
  ∃ pre x post, xs = pre ++ x :: post ∧ (∀ y ∈ pre, IsNumber y) ∧
    (((∀ y ∈ pre, ¬ IsFloat y) ∧ IsFloat x ∧ tooLarge (intSum pre)) ∨ ((∃ y ∈ pre, IsFloat y) ∧ HugeInt x))

/-- The sum or the mean is too large. -/
def MeanOver (xs : List PyVal) : Prop :=
  SumOver xs ∨ (∀ x ∈ xs, IsInt x) ∧ FLOAT_TOP * xs.length ≤ |intSum xs|

/-- A float whose square is too large. -/
def SquareOver (d : ℕ) : Prop := ∃ n, floatNum d = .fin n ∧ FLOAT_TOP * FLOAT_UNITS ^ 2 ≤ n ^ 2

namespace Numerics

variable (e : Numerics)

/-- What is rounded is infinite, or too large to be converted before; in a list the first that is not taken. -/
def RoundOver (v : PyVal) : Prop :=
  match v with
  | .float f => IsInf f
  | .bool _ | .int _ => False
  | .str _ | .bytes _ => ∃ f, e.toFloat v = .ok f ∧ IsInf f
  | v => ∃ xs, v.iter? = some xs ∧ First (fun y => ∃ f, e.toFloat y = .ok f ∧ IsFin f)
      (fun x => HugeInt x ∨ ∃ f, e.toFloat x = .ok f ∧ IsInf f) xs

def FloatOver (v : PyVal) : Prop :=
  match v with
  | .str _ | .bytes _ | .int _ | .bool _ | .float _ => HugeInt v
  | v => ∃ xs, v.iter? = some xs ∧ First (fun y => ∃ f, e.toFloat y = .ok f) HugeInt xs

def IntOver (v : PyVal) : Prop :=
  match v with
  | .str _ | .bytes _ | .int _ | .bool _ | .float _ => ∃ f, v = .float f ∧ IsInf f
  | v => ∃ xs, v.iter? = some xs ∧ First (fun y => ∃ i, e.toInt y = .ok i) (fun x => ∃ f, x = .float f ∧ IsInf f) xs

/-- Among two or more numbers one is too large, or too far from the mean. -/
def StdOver (xs : List PyVal) : Prop :=
  2 ≤ xs.length ∧ (MeanOver xs ∨
    ∃ m, e.mean xs = .ok m ∧ ∃ x ∈ xs, HugeInt x ∨ ∃ f, e.toFloat x = .ok f ∧ SquareOver (e.sub f m))

/-- The values an operator does not take. -/
def Overflows (op : TransformOp) (v : PyVal) : Prop :=
  match op with
  | .ceil | .floor | .round => e.RoundOver v
  | .float => e.FloatOver v
  | .int => e.IntOver v
  | .sum => ∃ xs, v.sequence? = some xs ∧ SumOver xs
  | .avg => v.asItems ≠ [] ∧ MeanOver v.asItems
  | .std => e.StdOver v.asItems
  | _ => False

/-- What `str(..)` is asked for is nested too deep; in a list the first that is not taken. -/
def StrDeep (v : PyVal) : Prop :=
  match v with
  | .str _ => False
  | .bytes _ | .int _ | .float _ | .bool _ => e.str v = .error .tooDeep
  | v => ∃ xs, v.iter? = some xs ∧ First (fun y => ∃ s, e.str y = .ok s) (fun x => e.str x = .error .tooDeep) xs

/-- A value and the best one before it are nested too deep to be compared. -/
def MostDeep (better : PyVal → PyVal → Except Refusal Bool) (first : PyVal) (xs : List PyVal) : Prop :=
  ∃ pre x post best, xs = pre ++ x :: post ∧ extreme better first pre = .ok best ∧ better x best = .error .tooDeep

/-- The values that are nested too deep for an operator. -/
def TooDeep (op : TransformOp) (v : PyVal) : Prop :=
  match op with
  | .str => e.StrDeep v
  | .max => ∃ x xs, v.sequence? = some (x :: xs) ∧ MostDeep e.greater x xs
  | .min => ∃ x xs, v.sequence? = some (x :: xs) ∧ MostDeep e.less x xs
  | .sort => ∃ xs, v.sequence? = some xs ∧ e.sorted xs = .error .tooDeep
  | _ => False

/-- An operator does not take a value, and says so by an exception that is not caught. -/
def Raises (op : TransformOp) (v : PyVal) : Prop := e.Overflows op v ∨ e.TooDeep op v

end Numerics

/-! ## Conversions -/

theorem map_eq_error_iff {α β ε : Type} {r : Except ε α} {f : α → β} {err : ε} :
    r.map f = .error err ↔ r = .error err := by
  cases r <;> simp [Except.map]

theorem map_eq_ok_iff {α β ε : Type} {r : Except ε α} {f : α → β} :
    (∃ z, r.map f = .ok z) ↔ ∃ y, r = .ok y := by
  cases r <;> simp [Except.map]

theorem map_ne_error {α β ε : Type} {r : Except ε α} {f : α → β} {err : ε} (h : r ≠ .error err) : r.map f ≠ .error err :=
  fun hc => h (map_eq_error_iff.1 hc)

theorem elim_ne_error {α β : Type} {o : Option α} {f : α → β} {err err' : Exc} (h : err ≠ err') :
    o.elim (.error err) (fun x => .ok (f x)) ≠ (.error err' : Except Exc β) := by
  cases o with
  | none =>
    intro hc
    exact h (Except.error.inj hc)
  | some x =>
    intro hc
    cases hc

theorem not_tooLarge {i : ℤ} (h : |i| ≤ 1) : ¬ tooLarge i := by
  have htop : 1 < FLOAT_TOP := by decide +kernel
  exact not_le.2 (lt_of_le_of_lt h htop)

theorem roundFloat_overflow {g : ℤ → ℤ} {f : ℕ} : roundFloat g f = .error .overflow ↔ IsInf f := by
  unfold roundFloat IsInf
  cases floatNum f <;> simp

theorem roundFloat_ok {g : ℤ → ℤ} {f : ℕ} : (∃ i, roundFloat g f = .ok i) ↔ IsFin f := by
  unfold roundFloat IsFin
  cases floatNum f <;> simp

namespace Numerics

variable {e : Numerics} {v x : PyVal}

theorem floatInt_overflow {i : ℤ} : e.floatInt i = .error .overflow ↔ tooLarge i := by
  unfold floatInt
  split <;> simp_all

theorem floatInt_error {i : ℤ} {err : Exc} (h : e.floatInt i = .error err) : err = .overflow := by
  unfold floatInt at h
  split at h
  · exact (Except.error.inj h).symm
  · cases h

theorem toFloat_overflow : e.toFloat v = .error .overflow ↔ HugeInt v := by
  unfold HugeInt
  cases v with
  | bool b =>
    have hsmall : ¬ tooLarge (if b = true then 1 else 0) := not_tooLarge (by cases b <;> simp)
    rw [toFloat, floatInt_overflow]
    simp [hsmall]
  | int i => simp [toFloat, floatInt_overflow]
  | str s => exact iff_of_false (elim_ne_error (by decide)) (by simp)
  | bytes b => exact iff_of_false (elim_ne_error (by decide)) (by simp)
  | bytearray b => exact iff_of_false (elim_ne_error (by decide)) (by simp)
  | _ => simp [toFloat]

theorem toInt_overflow : e.toInt v = .error .overflow ↔ ∃ f, v = .float f ∧ IsInf f := by
  cases v with
  | float f => simp [toInt, roundFloat_overflow]
  | str s => exact iff_of_false (elim_ne_error (by decide)) (by simp)
  | bytes b => exact iff_of_false (elim_ne_error (by decide)) (by simp)
  | bytearray b => exact iff_of_false (elim_ne_error (by decide)) (by simp)
  | _ => simp [toInt]

theorem roundVal_overflow {g : ℤ → ℤ} :
    e.roundVal g v = .error .overflow ↔ HugeInt v ∨ ∃ f, e.toFloat v = .ok f ∧ IsInf f := by
  rw [← toFloat_overflow (e := e)]
  unfold roundVal
  cases e.toFloat v with
  | error err => simp
  | ok f => simp [map_eq_error_iff, roundFloat_overflow]

theorem roundVal_ok {g : ℤ → ℤ} : (∃ z, e.roundVal g v = .ok z) ↔ ∃ f, e.toFloat v = .ok f ∧ IsFin f := by
  unfold roundVal
  cases e.toFloat v with
  | error err => simp
  | ok f => simp [map_eq_ok_iff, roundFloat_ok]

/-! ## Element by element -/

theorem each_error {f : PyVal → Except Exc PyVal} {P Q : PyVal → Prop} {err : Exc} (hP : ∀ x, (∃ z, f x = .ok z) ↔ P x)
    (hQ : ∀ x, f x = .error err ↔ Q x) :
    each f v = .error err ↔ ∃ xs, v.iter? = some xs ∧ First P Q xs := by
  unfold each
  cases v.iter? with
  | none => simp
  | some xs =>
    dsimp only
    rw [map_eq_error_iff, mapM_error_iff]
    simp only [hP, hQ, Option.some.injEq, exists_eq_left']
    exact Iff.rfl

theorem each_ne_error {f : PyVal → Except Exc PyVal} {err : Exc} (h : ∀ x, f x ≠ .error err) : each f v ≠ .error err := by
  rw [Ne, each_error (fun _ => Iff.rfl) (Q := fun _ => False) fun x => iff_of_false (h x) id]
  rintro ⟨xs, -, pre, x, post, -, -, hc⟩
  exact hc

theorem rounding_overflow {g : ℤ → ℤ} : e.rounding g v = .error .overflow ↔ e.RoundOver v := by
  have heach : each (e.roundVal g) v = .error .overflow ↔ _ := each_error (fun _ => roundVal_ok) fun _ => roundVal_overflow
  unfold rounding RoundOver
  cases v with
  | float f => exact map_eq_error_iff.trans roundFloat_overflow
  | str s => simp [roundVal_overflow, HugeInt]
  | bytes b => simp [roundVal_overflow, HugeInt]
  | bool b => simp
  | int i => simp
  | _ => exact heach

theorem float_overflow : e.float v = .error .overflow ↔ e.FloatOver v := by
  have heach : each (fun vv => (e.toFloat vv).map .float) v = .error .overflow ↔ _ :=
    each_error (fun _ => map_eq_ok_iff) fun _ => map_eq_error_iff.trans toFloat_overflow
  unfold float FloatOver
  cases v with
  | str _ | bytes _ | int _ | bool _ | float _ => exact map_eq_error_iff.trans toFloat_overflow
  | _ => exact heach

theorem int_overflow : e.int v = .error .overflow ↔ e.IntOver v := by
  have heach : each (fun vv => (e.toInt vv).map .int) v = .error .overflow ↔ _ :=
    each_error (fun _ => map_eq_ok_iff) fun _ => map_eq_error_iff.trans toInt_overflow
  unfold int IntOver
  cases v with
  | str _ | bytes _ | int _ | bool _ | float _ => exact map_eq_error_iff.trans toInt_overflow
  | _ => exact heach

end Numerics

/-! ## Sums -/

section Sums

variable {P Q : PyVal → Prop} {x y : PyVal} {xs ys : List PyVal} {i : ℤ} {f : ℕ}

theorem first_cons : First P Q (y :: ys) ↔ Q y ∨ P y ∧ First P Q ys := by
  unfold First
  rw [exists_split_cons (A := fun pre x => (∀ y ∈ pre, P y) ∧ Q x)]
  constructor
  · intro h
    rcases h with ⟨-, hQ⟩ | ⟨pre, x, post, hsplit, hpre, hQ⟩
    · exact .inl hQ
    · rw [List.forall_mem_cons] at hpre
      exact .inr ⟨hpre.1, pre, x, post, hsplit, hpre.2, hQ⟩
  · intro h
    rcases h with hQ | ⟨hP, pre, x, post, hsplit, hpre, hQ⟩
    · exact .inl ⟨fun _ h => absurd h List.not_mem_nil, hQ⟩
    · exact .inr ⟨pre, x, post, hsplit, List.forall_mem_cons.2 ⟨hP, hpre⟩, hQ⟩

theorem not_first_nil : ¬ First P Q [] := by
  rintro ⟨pre, x, post, h, -⟩
  simp at h

theorem hugeInt_of_number (h : x.number? = some (.int i)) : HugeInt x ↔ tooLarge i := by
  cases x with
  | bool b =>
    obtain rfl := Number.int.inj (Option.some.inj h)
    have hsmall : ¬ tooLarge (if b = true then 1 else 0) := not_tooLarge (by cases b <;> simp)
    exact iff_of_false (by simp [HugeInt]) hsmall
  | int j =>
    obtain rfl := Number.int.inj (Option.some.inj h)
    simp [HugeInt]
  | _ => cases h

theorem HugeInt.isInt (h : HugeInt x) : IsInt x := by
  obtain ⟨i, rfl, -⟩ := h
  exact ⟨i, rfl⟩

theorem IsInt.not_isFloat (h : IsInt x) : ¬ IsFloat x := by
  obtain ⟨i, hi⟩ := h
  rintro ⟨f, hf⟩
  rw [hi] at hf
  cases hf

theorem intSum_cons_int (h : x.number? = some (.int i)) : intSum (x :: xs) = i + intSum xs := by
  simp [intSum, h]

namespace Numerics

theorem addFloats_overflow : addFloats xs = .error .overflow ↔ First IsNumber HugeInt xs := by
  induction xs with
  | nil => exact iff_of_false (by simp [addFloats]) not_first_nil
  | cons x xs ih =>
    rw [first_cons, addFloats]
    cases hx : x.number? with
    | none =>
      have hno : ¬ IsNumber x := by simp [IsNumber, hx]
      have hhuge : ¬ HugeInt x := fun hc => by
        obtain ⟨i, hi⟩ := hc.isInt
        rw [hx] at hi
        cases hi
      simp [hno, hhuge]
    | some n =>
      have hnum : IsNumber x := ⟨n, hx⟩
      cases n with
      | int i =>
        rw [hugeInt_of_number hx, ← ih]
        by_cases hi : tooLarge i
        · simp [hi]
        · simp [hi, hnum]
      | float f =>
        have hhuge : ¬ HugeInt x := fun hc => hc.isInt.not_isFloat ⟨f, hx⟩
        simp [hhuge, hnum, ih]

/-- The loop of `sum`, from what is added already. -/
theorem addInts_overflow (acc : ℤ) : addInts acc xs = .error .overflow ↔
    ∃ pre x post, xs = pre ++ x :: post ∧ (∀ y ∈ pre, IsNumber y) ∧
      (((∀ y ∈ pre, ¬ IsFloat y) ∧ IsFloat x ∧ tooLarge (acc + intSum pre)) ∨ ((∃ y ∈ pre, IsFloat y) ∧ HugeInt x)) := by
  induction xs generalizing acc with
  | nil => simp [addInts]
  | cons y ys ih =>
    rw [exists_split_cons (A := fun pre x => (∀ y ∈ pre, IsNumber y) ∧
      (((∀ y ∈ pre, ¬ IsFloat y) ∧ IsFloat x ∧ tooLarge (acc + intSum pre)) ∨ ((∃ y ∈ pre, IsFloat y) ∧ HugeInt x))),
      addInts]
    cases hy : y.number? with
    | none =>
      have hno : ¬ IsNumber y := by simp [IsNumber, hy]
      have hfloat : ¬ IsFloat y := by simp [IsFloat, hy]
      simp [hno, hfloat]
    | some n =>
      have hnum : IsNumber y := ⟨n, hy⟩
      cases n with
      | int i =>
        have hfloat : ¬ IsFloat y := IsInt.not_isFloat ⟨i, hy⟩
        dsimp only
        rw [ih]
        simp [hnum, hfloat, intSum_cons_int hy, add_assoc]
      | float f =>
        have hfloat : IsFloat y := ⟨f, hy⟩
        by_cases hacc : tooLarge acc
        · simp [hacc, hfloat, intSum]
        · -- from here on only an integer that is too large is not taken
          dsimp only
          rw [if_neg hacc, map_eq_error_iff, addFloats_overflow]
          simp [hacc, hfloat, hnum, intSum, First]

theorem sumOf_overflow (e : Numerics) : e.sumOf xs = .error .overflow ↔ SumOver xs := by
  unfold sumOf SumOver
  rw [map_eq_error_iff, addInts_overflow]
  simp only [zero_add]

theorem addFloats_ok (h : addFloats xs = .ok ()) : ∀ x ∈ xs, IsNumber x := by
  induction xs with
  | nil => exact fun x hx => absurd hx List.not_mem_nil
  | cons y ys ih =>
    rw [addFloats] at h
    cases hy : y.number? with
    | none =>
      rw [hy] at h
      cases h
    | some n =>
      rw [hy] at h
      refine List.forall_mem_cons.2 ⟨⟨n, hy⟩, ?_⟩
      cases n with
      | float f => exact ih h
      | int i =>
        dsimp only at h
        split at h
        · cases h
        · exact ih h

/-- What was added are numbers. -/
theorem addInts_ok {acc : ℤ} {r : Option ℤ} (h : addInts acc xs = .ok r) : ∀ x ∈ xs, IsNumber x := by
  induction xs generalizing acc with
  | nil => exact fun x hx => absurd hx List.not_mem_nil
  | cons y ys ih =>
    rw [addInts] at h
    cases hy : y.number? with
    | none =>
      rw [hy] at h
      cases h
    | some n =>
      rw [hy] at h
      refine List.forall_mem_cons.2 ⟨⟨n, hy⟩, ?_⟩
      cases n with
      | int i => exact ih h
      | float f =>
        dsimp only at h
        split at h
        · cases h
        · obtain ⟨u, hu⟩ := map_eq_ok_iff.1 ⟨r, h⟩
          exact addFloats_ok hu

/-- The sum of integers is an integer, and no other sum is. -/
theorem addInts_some {acc s : ℤ} : addInts acc xs = .ok (some s) ↔ (∀ x ∈ xs, IsInt x) ∧ s = acc + intSum xs := by
  induction xs generalizing acc with
  | nil => simp [addInts, intSum, eq_comm]
  | cons y ys ih =>
    rw [addInts]
    cases hy : y.number? with
    | none =>
      have hint : ¬ IsInt y := by simp [IsInt, hy]
      simp [hint]
    | some n =>
      cases n with
      | int i =>
        have hint : IsInt y := ⟨i, hy⟩
        dsimp only
        rw [ih]
        simp [hint, intSum_cons_int hy, add_assoc]
      | float f =>
        have hint : ¬ IsInt y := fun hc => hc.not_isFloat ⟨f, hy⟩
        dsimp only
        split
        · simp [hint]
        · cases addFloats ys <;> simp [hint, Except.map]

theorem mean_overflow (e : Numerics) : e.mean xs = .error .overflow ↔ MeanOver xs := by
  unfold mean MeanOver
  rw [← sumOf_overflow e]
  unfold sumOf
  cases h : addInts 0 xs with
  | error err =>
    have hints : ¬ ∀ x ∈ xs, IsInt x := by
      intro hc
      rw [addInts_some.2 ⟨hc, rfl⟩] at h
      cases h
    simp [Except.map, hints]
  | ok r =>
    cases r with
    | none =>
      have hints : ¬ ∀ x ∈ xs, IsInt x := by
        intro hc
        rw [addInts_some.2 ⟨hc, rfl⟩] at h
        cases h
      simp [Except.map, hints]
    | some s =>
      obtain ⟨hints, rfl⟩ := addInts_some.1 h
      simp only [Except.map, zero_add]
      by_cases hover : FLOAT_TOP * xs.length ≤ |intSum xs|
      · simpa [hover] using hints
      · simp [hover]

theorem mean_ok {e : Numerics} {m : ℕ} (h : e.mean xs = .ok m) : ∀ x ∈ xs, IsNumber x := by
  unfold mean sumOf at h
  cases hadd : addInts 0 xs with
  | error err =>
    rw [hadd] at h
    cases h
  | ok r => exact addInts_ok hadd

theorem squareFloat_overflow {e : Numerics} {d : ℕ} : e.squareFloat d = .error .overflow ↔ SquareOver d := by
  unfold squareFloat SquareOver
  cases floatNum d with
  | fin n =>
    dsimp only
    split <;> simp_all
  | inf neg => simp
  | nan => simp

theorem squareFloat_error {e : Numerics} {d : ℕ} {err : Exc} (h : e.squareFloat d = .error err) : err = .overflow := by
  unfold squareFloat at h
  split at h
  · split at h
    · exact (Except.error.inj h).symm
    · cases h
  · cases h

theorem deviation_overflow {e : Numerics} {m : ℕ} : e.deviation m x = .error .overflow ↔
    HugeInt x ∨ ∃ f, e.toFloat x = .ok f ∧ SquareOver (e.sub f m) := by
  rw [← toFloat_overflow (e := e)]
  unfold deviation
  cases e.toFloat x with
  | error err => simp
  | ok f => simp [map_eq_error_iff, squareFloat_overflow]

theorem toFloat_error {e : Numerics} (hx : IsNumber x) {err : Exc} (h : e.toFloat x = .error err) : err = .overflow := by
  obtain ⟨n, hn⟩ := hx
  cases x with
  | bool b => exact floatInt_error h
  | int i => exact floatInt_error h
  | float f => cases h
  | _ => cases hn

/-- Of numbers, all that is raised is what is not caught. -/
theorem deviation_error {e : Numerics} {m : ℕ} (hx : IsNumber x) {err : Exc} (h : e.deviation m x = .error err) :
    err = .overflow := by
  unfold deviation at h
  cases hf : e.toFloat x with
  | error err' =>
    rw [hf] at h
    obtain rfl := Except.error.inj h
    exact toFloat_error hx hf
  | ok f =>
    rw [hf] at h
    exact squareFloat_error (map_eq_error_iff.1 h)

theorem deviations_overflow {e : Numerics} {m : ℕ} (hxs : ∀ x ∈ xs, IsNumber x) :
    xs.mapM (e.deviation m) = .error .overflow ↔ ∃ x ∈ xs, e.deviation m x = .error .overflow := by
  constructor
  · exact mapM_error
  · rintro ⟨x, hx, herr⟩
    cases h : xs.mapM (e.deviation m) with
    | error err =>
      obtain ⟨y, hy, herr'⟩ := mapM_error h
      rw [deviation_error (hxs y hy) herr']
    | ok ys =>
      obtain ⟨z, hz⟩ := mapM_ok_mem h hx
      rw [herr] at hz
      cases hz

theorem std_overflow {e : Numerics} {v : PyVal} : e.std v = .error .overflow ↔ e.StdOver v.asItems := by
  unfold std StdOver
  match v.asItems with
  | [] => simp
  | [_] => simp
  | x :: y :: zs =>
    have hlen : 2 ≤ (x :: y :: zs).length := by simp
    rw [← mean_overflow e]
    simp only [hlen, true_and]
    cases hm : e.mean (x :: y :: zs) with
    | error err => simp
    | ok m =>
      dsimp only
      rw [map_eq_error_iff, deviations_overflow (mean_ok hm)]
      simp only [deviation_overflow, reduceCtorEq, false_or, Except.ok.injEq, exists_eq_left']

end Numerics

end Sums

/-! ## The other operators -/

namespace Numerics

variable {e : Numerics} {v : PyVal}

theorem toFloat_ne_overflow (h : v.number? = none) : e.toFloat v ≠ .error .overflow := by
  rw [Ne, toFloat_overflow]
  intro hc
  obtain ⟨i, hi⟩ := hc.isInt
  rw [h] at hi
  cases hi

theorem abs_ne_overflow : e.abs v ≠ .error .overflow := by
  unfold abs
  split
  · simp
  · refine each_ne_error fun x => ?_
    split
    · simp
    · rename_i hx
      rw [Ne, map_eq_error_iff]
      exact toFloat_ne_overflow hx

theorem neg_ne_overflow : e.neg v ≠ .error .overflow := by
  unfold neg
  split
  · simp
  · rename_i hv
    split
    · split
      · rw [Ne, map_eq_error_iff]
        exact toFloat_ne_overflow hv
      · rw [Ne, map_eq_error_iff, toInt_overflow]
        simp
    · refine each_ne_error fun x => ?_
      split
      · simp [map_eq_error_iff, toInt_overflow]
      · simp [map_eq_error_iff, toInt_overflow]
      · rename_i hint hbool
        rw [Ne, map_eq_error_iff, toFloat_overflow]
        rintro ⟨i, rfl, -⟩
        exact hint i rfl

theorem exc_ne_overflow {r : Refusal} {other : Exc} (h : other ≠ .overflow) : r.exc other ≠ .overflow := by
  cases r with
  | refused => exact h
  | tooDeep => simp [Refusal.exc]

theorem strVal_ne_overflow : e.strVal v ≠ .error .overflow := by
  have hstr : ∀ x, e.strOf x ≠ .error .overflow := by
    intro x
    unfold strOf
    split
    · simp
    · exact fun hc => exc_ne_overflow (by decide) (Except.error.inj hc)
  unfold strVal
  split
  · simp
  · exact hstr _
  · exact hstr _
  · exact hstr _
  · exact hstr _
  · exact each_ne_error hstr

theorem extreme_ne_overflow {better : PyVal → PyVal → Except Refusal Bool} {best : PyVal} {xs : List PyVal} :
    extreme better best xs ≠ .error .overflow := by
  induction xs generalizing best with
  | nil => simp [extreme]
  | cons x xs ih =>
    rw [extreme]
    split
    · exact fun hc => exc_ne_overflow (by decide) (Except.error.inj hc)
    · exact ih

theorem most_ne_overflow {better : PyVal → PyVal → Except Refusal Bool} : most better v ≠ .error .overflow := by
  unfold most
  split
  · simp
  · exact extreme_ne_overflow
  · simp

theorem sort_ne_overflow : e.sort v ≠ .error .overflow := by
  unfold sort
  split
  · split
    · simp
    · exact fun hc => exc_ne_overflow (by decide) (Except.error.inj hc)
  · simp

/-! ## What is caught -/

theorem ne_of_caught {err err' : Exc} (h : err.caught = false) (h' : err'.caught = true) : err' ≠ err := by
  rintro rfl
  rw [h] at h'
  cases h'

section Caught

variable {err : Exc}

theorem uniqueFrom_ne_error (h : err.caught = false) {result xs : List PyVal} : uniqueFrom result xs ≠ .error err := by
  induction xs generalizing result with
  | nil => simp [uniqueFrom]
  | cons x xs ih =>
    rw [uniqueFrom]
    split
    · exact ih
    · exact fun hc => ne_of_caught h rfl (Except.error.inj hc)

theorem unique_ne_error (h : err.caught = false) : unique v ≠ .error err := by
  unfold unique
  split
  · simp
  · simp
  · exact uniqueFrom_ne_error h
  · exact uniqueFrom_ne_error h
  · simp

theorem textual_ne_error (h : err.caught = false) {m : TextMethod} : e.textual m v ≠ .error err := by
  have hmethod : ∀ x, e.method m x ≠ .error err := by
    intro x
    unfold method
    split
    · simp
    · simp
    · simp
    · exact fun hc => ne_of_caught h rfl (Except.error.inj hc)
  unfold textual
  split
  · exact hmethod _
  · exact each_ne_error hmethod

theorem first_ne_error (h : err.caught = false) : first v ≠ .error err := by
  unfold first
  split
  · simp
  · simp
  · exact elim_ne_error (ne_of_caught h rfl)
  · exact elim_ne_error (ne_of_caught h rfl)
  · simp

theorem last_ne_error (h : err.caught = false) : last v ≠ .error err := by
  unfold last
  split
  · simp
  · simp
  · split
    · exact elim_ne_error (ne_of_caught h rfl)
    · simp

theorem flat_ne_error : flat v ≠ .error err := by
  unfold flat
  split <;> simp

end Caught

theorem sum_overflow : e.sum v = .error .overflow ↔ ∃ xs, v.sequence? = some xs ∧ SumOver xs := by
  unfold sum
  cases v.sequence? with
  | none => simp
  | some xs => simp [map_eq_error_iff, sumOf_overflow]

theorem avg_overflow : e.avg v = .error .overflow ↔ v.asItems ≠ [] ∧ MeanOver v.asItems := by
  rw [← mean_overflow e]
  unfold avg
  split
  · rename_i h
    simp [h]
  · rename_i h
    rw [map_eq_error_iff]
    exact (and_iff_right h).symm

/-- **What is not caught**: an operator overflows just on the values it does not take. -/
theorem compute_overflow (e : Numerics) (op : TransformOp) (v : PyVal) :
    e.compute op v = .error .overflow ↔ e.Overflows op v := by
  cases op with
  | ceil | floor | round => exact rounding_overflow
  | float => exact float_overflow
  | int => exact int_overflow
  | sum => exact sum_overflow
  | avg => exact avg_overflow
  | std => exact std_overflow
  | abs => exact iff_of_false abs_ne_overflow id
  | neg => exact iff_of_false neg_ne_overflow id
  | str => exact iff_of_false strVal_ne_overflow id
  | max | min => exact iff_of_false most_ne_overflow id
  | first => exact iff_of_false (first_ne_error rfl) id
  | last => exact iff_of_false (last_ne_error rfl) id
  | flat => exact iff_of_false flat_ne_error id
  | sort => exact iff_of_false sort_ne_overflow id
  | unique => exact iff_of_false (unique_ne_error rfl) id
  | lower | upper | strip => exact iff_of_false (textual_ne_error rfl) id
  | mid | len => exact iff_of_false (by simp [compute, mid, len]) id

/-! ## Nesting -/

theorem floatInt_ne_recursion {i : ℤ} : e.floatInt i ≠ .error .recursion := by
  unfold floatInt
  split <;> simp

theorem toFloat_ne_recursion : e.toFloat v ≠ .error .recursion := by
  cases v with
  | bool b => exact floatInt_ne_recursion
  | int i => exact floatInt_ne_recursion
  | str s => exact elim_ne_error (by decide)
  | bytes b => exact elim_ne_error (by decide)
  | bytearray b => exact elim_ne_error (by decide)
  | _ => simp [toFloat]

theorem roundFloat_ne_recursion {g : ℤ → ℤ} {f : ℕ} : roundFloat g f ≠ .error .recursion := by
  unfold roundFloat
  split <;> simp

theorem toInt_ne_recursion : e.toInt v ≠ .error .recursion := by
  cases v with
  | float f => exact roundFloat_ne_recursion
  | str s => exact elim_ne_error (by decide)
  | bytes b => exact elim_ne_error (by decide)
  | bytearray b => exact elim_ne_error (by decide)
  | _ => simp [toInt]

theorem rounding_ne_recursion {g : ℤ → ℤ} : e.rounding g v ≠ .error .recursion := by
  have hval : ∀ x, e.roundVal g x ≠ .error .recursion := by
    intro x
    unfold roundVal
    split
    · rename_i err herr
      exact fun hc => toFloat_ne_recursion (Except.error.inj hc ▸ herr)
    · exact map_ne_error roundFloat_ne_recursion
  unfold rounding
  split
  · exact map_ne_error roundFloat_ne_recursion
  · simp
  · simp
  · exact hval _
  · exact hval _
  · exact each_ne_error hval

theorem float_ne_recursion : e.float v ≠ .error .recursion := by
  unfold float
  split
  case h_6 => exact each_ne_error fun x => map_ne_error toFloat_ne_recursion
  all_goals exact map_ne_error toFloat_ne_recursion

theorem int_ne_recursion : e.int v ≠ .error .recursion := by
  unfold int
  split
  case h_6 => exact each_ne_error fun x => map_ne_error toInt_ne_recursion
  all_goals exact map_ne_error toInt_ne_recursion

theorem neg_ne_recursion : e.neg v ≠ .error .recursion := by
  unfold neg
  split
  · simp
  · split
    · split
      · exact map_ne_error toFloat_ne_recursion
      · exact map_ne_error toInt_ne_recursion
    · refine each_ne_error fun x => ?_
      split
      · exact map_ne_error toInt_ne_recursion
      · exact map_ne_error toInt_ne_recursion
      · exact map_ne_error toFloat_ne_recursion

theorem abs_ne_recursion : e.abs v ≠ .error .recursion := by
  unfold abs
  split
  · simp
  · refine each_ne_error fun x => ?_
    split
    · simp
    · exact map_ne_error toFloat_ne_recursion

theorem addFloats_ne_recursion {xs : List PyVal} : addFloats xs ≠ .error .recursion := by
  induction xs with
  | nil => simp [addFloats]
  | cons x xs ih =>
    rw [addFloats]
    split
    · simp
    · exact ih
    · split
      · simp
      · exact ih

theorem addInts_ne_recursion {acc : ℤ} {xs : List PyVal} : addInts acc xs ≠ .error .recursion := by
  induction xs generalizing acc with
  | nil => simp [addInts]
  | cons x xs ih =>
    rw [addInts]
    split
    · simp
    · exact ih
    · split
      · simp
      · exact map_ne_error addFloats_ne_recursion

theorem sumOf_ne_recursion {xs : List PyVal} : e.sumOf xs ≠ .error .recursion := map_ne_error addInts_ne_recursion

theorem mean_ne_recursion {xs : List PyVal} : e.mean xs ≠ .error .recursion := by
  unfold mean
  split
  · rename_i err herr
    exact fun hc => sumOf_ne_recursion (Except.error.inj hc ▸ herr)
  · split <;> simp
  · simp

theorem std_ne_recursion : e.std v ≠ .error .recursion := by
  unfold std
  split
  · simp
  · simp
  · split
    · rename_i err herr
      exact fun hc => mean_ne_recursion (Except.error.inj hc ▸ herr)
    · rename_i m _
      refine map_ne_error fun hc => ?_
      obtain ⟨_, x, _, -, -, hx⟩ := mapM_error_iff.1 hc
      unfold deviation at hx
      split at hx
      · rename_i err herr
        exact toFloat_ne_recursion (Except.error.inj hx ▸ herr)
      · rw [map_eq_error_iff] at hx
        unfold squareFloat at hx
        split at hx
        · split at hx <;> cases hx
        · cases hx

theorem sum_ne_recursion : e.sum v ≠ .error .recursion := by
  unfold sum
  split
  · exact map_ne_error sumOf_ne_recursion
  · simp

theorem avg_ne_recursion : e.avg v ≠ .error .recursion := by
  unfold avg
  split
  · simp
  · exact map_ne_error mean_ne_recursion

theorem exc_eq_recursion (r : Refusal) {other : Exc} (h : other ≠ .recursion) :
    r.exc other = .recursion ↔ r = .tooDeep := by
  cases r with
  | refused => simp [Refusal.exc, h]
  | tooDeep => simp [Refusal.exc]

theorem strOf_recursion : e.strOf v = .error .recursion ↔ e.str v = .error .tooDeep := by
  unfold strOf
  cases e.str v with
  | ok s => simp
  | error r => simp [exc_eq_recursion r (show Exc.value ≠ .recursion by decide)]

theorem strVal_recursion : e.strVal v = .error .recursion ↔ e.StrDeep v := by
  have hok : ∀ x, (∃ z, e.strOf x = .ok z) ↔ ∃ s, e.str x = .ok s := by
    intro x
    unfold strOf
    cases e.str x <;> simp
  have heach : each e.strOf v = .error .recursion ↔ _ := each_error hok fun _ => strOf_recursion
  unfold strVal StrDeep
  cases v with
  | str s => simp
  | bytes _ | int _ | float _ | bool _ => exact strOf_recursion
  | _ => exact heach

/-- The loop stops at the first value that cannot be compared with the best one before it. -/
theorem extreme_recursion {better : PyVal → PyVal → Except Refusal Bool} (xs : List PyVal) : ∀ {first : PyVal},
    extreme better first xs = .error .recursion ↔ MostDeep better first xs := by
  induction xs with
  | nil =>
    intro first
    unfold MostDeep
    simp [extreme]
  | cons y ys ih =>
    intro first
    have hsplit : MostDeep better first (y :: ys) ↔ better y first = .error .tooDeep ∨
        ∃ b, better y first = .ok b ∧ MostDeep better (if b then y else first) ys := by
      unfold MostDeep
      constructor
      · rintro ⟨pre, x, post, best, hxs, hpre, hdeep⟩
        cases pre with
        | nil =>
          obtain ⟨rfl, rfl⟩ := List.cons.inj hxs
          obtain rfl := Except.ok.inj hpre
          exact .inl hdeep
        | cons z pre =>
          obtain ⟨rfl, rfl⟩ := List.cons.inj hxs
          rw [extreme] at hpre
          cases hb : better y first with
          | error r =>
            rw [hb] at hpre
            cases hpre
          | ok b =>
            rw [hb] at hpre
            exact .inr ⟨b, rfl, pre, x, post, best, rfl, hpre, hdeep⟩
      · rintro (hdeep | ⟨b, hb, pre, x, post, best, rfl, hpre, hdeep⟩)
        · exact ⟨[], y, ys, first, rfl, rfl, hdeep⟩
        · refine ⟨y :: pre, x, post, best, rfl, ?_, hdeep⟩
          rw [extreme, hb]
          exact hpre
    rw [hsplit, extreme]
    cases hb : better y first with
    | error r => simp [exc_eq_recursion r (show Exc.type ≠ .recursion by decide)]
    | ok b => simp [ih]

theorem most_recursion {better : PyVal → PyVal → Except Refusal Bool} :
    most better v = .error .recursion ↔ ∃ x xs, v.sequence? = some (x :: xs) ∧ MostDeep better x xs := by
  unfold most
  cases v.sequence? with
  | none => simp
  | some xs =>
    cases xs with
    | nil => simp
    | cons x xs => simp [extreme_recursion]

theorem sort_recursion : e.sort v = .error .recursion ↔ ∃ xs, v.sequence? = some xs ∧ e.sorted xs = .error .tooDeep := by
  unfold sort
  cases v.sequence? with
  | none => simp
  | some xs =>
    dsimp only
    cases hs : e.sorted xs with
    | ok ys => simp [hs]
    | error r => simp [hs, exc_eq_recursion r (show Exc.type ≠ .recursion by decide)]

/-- **What is nested too deep** raises, and nothing else does so. -/
theorem compute_recursion (e : Numerics) (op : TransformOp) (v : PyVal) :
    e.compute op v = .error .recursion ↔ e.TooDeep op v := by
  cases op with
  | str => exact strVal_recursion
  | max | min => exact most_recursion
  | sort => exact sort_recursion
  | ceil | floor | round => exact iff_of_false rounding_ne_recursion id
  | float => exact iff_of_false float_ne_recursion id
  | int => exact iff_of_false int_ne_recursion id
  | sum => exact iff_of_false sum_ne_recursion id
  | avg => exact iff_of_false avg_ne_recursion id
  | std => exact iff_of_false std_ne_recursion id
  | abs => exact iff_of_false abs_ne_recursion id
  | neg => exact iff_of_false neg_ne_recursion id
  | first => exact iff_of_false (first_ne_error rfl) id
  | last => exact iff_of_false (last_ne_error rfl) id
  | flat => exact iff_of_false flat_ne_error id
  | unique => exact iff_of_false (unique_ne_error rfl) id
  | lower | upper | strip => exact iff_of_false (textual_ne_error rfl) id
  | mid | len => exact iff_of_false (by simp [compute, mid, len]) id

/-- **A transform returns** for all values but those. -/
theorem applyTransform_ok_iff (e : Numerics) (op : TransformOp) (v : PyVal) :
    (∃ w, e.applyTransform op v = .ok w) ↔ ¬ e.Raises op v := by
  unfold Raises
  rw [← compute_overflow, ← compute_recursion]
  unfold applyTransform excepted
  cases e.compute op v with
  | ok w => simp
  | error err => cases err <;> simp [Exc.caught]

end Numerics

end OmniJsonDb

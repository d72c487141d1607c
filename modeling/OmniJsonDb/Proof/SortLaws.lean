import Mathlib.Order.Defs.LinearOrder
import OmniJsonDb.Model.SortRules
import OmniJsonDb.Proof.GroupBy

/-!
# The order of values

`<` and `==` between sort keys, and between the keys of rows.

* `laws_keys`: `<` between sort keys is an order, NaN apart.
* `linear_upto`: between values with a hash and without a NaN it is linear where it is defined.
-/

namespace OmniJsonDb

open Sorting

namespace PyVal

/-! ## The laws of `<` -/

theorem Num.eq_symm {m n : Num} (h : m.eq n = true) : n.eq m = true := by
  cases m <;> cases n <;> simp_all [Num.eq]

theorem Num.eq_trans {m n o : Num} (h : m.eq n = true) (h' : n.eq o = true) : m.eq o = true := by
  cases m <;> cases n <;> simp_all [Num.eq]

theorem Num.eq_of_eq {m n : Num} (h : m.eq n = true) : m = n := by
  cases m <;> cases n <;> simp_all [Num.eq]

theorem Num.not_lt_of_eq {m n : Num} (h : m.eq n = true) : m.lt n = false := by
  cases m <;> cases n <;> simp_all [Num.eq, Num.lt]

theorem Num.lt_trans {m n o : Num} (h : m.lt n = true) (h' : n.lt o = true) : m.lt o = true := by
  cases m <;> cases n <;> cases o <;> simp_all [Num.lt]
  exact Int.lt_trans h h'

/-- Equal numbers are less than the same ones. -/
theorem Num.lt_congr {m n : Num} (h : m.eq n = true) (o : Num) : m.lt o = n.lt o ∧ o.lt m = o.lt n := by
  cases m <;> cases n <;> simp_all [Num.eq]

theorem Num.lt_irrefl (n : Num) : n.lt n = false := by
  cases n <;> simp [Num.lt]

theorem Num.lt_asymm {m n : Num} (h : m.lt n = true) : n.lt m = false := by
  by_contra hno
  rw [Bool.not_eq_false] at hno
  have hself := Num.lt_trans h hno
  rw [Num.lt_irrefl] at hself
  cases hself

/-- Of two numbers that are not NaN, one is at most the other. -/
theorem Num.le_of_not_lt {m n : Num} (hm : m ≠ .nan) (hn : n ≠ .nan) (h : m.lt n = false) :
    n.eq m = true ∨ n.lt m = true := by
  cases m <;> cases n <;> simp_all [Num.eq, Num.lt]
  · omega
  · grind

/-- Equality of what `<` looks at. -/
def Rank.eq : Rank → Rank → Bool
  | .num m, .num n => m.eq n
  | .str s, .str t => s = t
  | .bytes s, .bytes t => s = t
  | .date m, .date n => m = n
  | .datetime m, .datetime n => m = n
  | _, _ => false

theorem laws_rank : Laws Rank.eq Rank.lt fun _ => True where
  symm := by
    intro a b _ _ h
    cases a <;> cases b <;> simp_all [Rank.eq, Num.eq_symm]
  trans := by
    intro a b c _ _ _ h h'
    cases a <;> cases b <;> cases c <;> simp_all [Rank.eq]
    exact Num.eq_trans h h'
  irrefl := by
    intro a b _ _ h
    cases a <;> cases b <;> simp_all [Rank.eq, Rank.lt, Num.not_lt_of_eq, Num.lt_irrefl]
  lt_trans := by
    intro a b c _ _ _ h h'
    cases a <;> cases b <;> cases c <;> simp_all [Rank.lt]
    · exact Num.lt_trans h h'
    · exact List.lt_trans h h'
    · exact List.lt_trans h h'
    · exact Nat.lt_trans h h'
    · exact Num.lt_trans h h'
  lt_eq := by
    intro a b c _ _ _ h h'
    cases a <;> cases b <;> cases c <;> simp_all [Rank.lt, Rank.eq]
    exact (Num.lt_congr h' _).2 ▸ h
  eq_lt := by
    intro a b c _ _ _ h h'
    cases a <;> cases b <;> cases c <;> simp_all [Rank.lt, Rank.eq]
    exact (Num.lt_congr h _).1 ▸ h'
  asymm := by
    intro a b _ _ h
    cases a <;> cases b <;>
      simp only [Rank.lt, ne_eq, Except.ok.injEq, decide_eq_true_eq, reduceCtorEq] at h ⊢
    · exact ne_true_of_eq_false (Num.lt_asymm h)
    · exact List.lt_asymm h
    · exact List.lt_asymm h
    · exact Nat.lt_asymm h
    · exact ne_true_of_eq_false (Num.lt_asymm h)
  compares := by
    intro a b _ _ h
    cases a <;> cases b <;> simp_all [Rank.lt, Compares]

/-- A scalar and what `<` looks at of it. -/
def Sees (a : PyVal) (m : Rank) : Prop := a.isScalar = true ∧ rankOf a = some m

theorem pyEq_sees {a b : PyVal} {m n : Rank} (ha : Sees a m) (hb : Sees b n) : pyEq a b = m.eq n := by
  obtain ⟨hsa, hra⟩ := ha
  obtain ⟨hsb, hrb⟩ := hb
  cases a <;> simp only [isScalar, Bool.false_eq_true] at hsa <;> cases hra <;>
    cases b <;> simp only [isScalar, Bool.false_eq_true] at hsb <;> cases hrb <;>
    simp [pyEq, atomEq, numOf, Rank.eq]

theorem pyLt_sees {a b : PyVal} {m n : Rank} (ha : Sees a m) (hb : Sees b n) : pyLt a b = m.lt n := by
  obtain ⟨hsa, hra⟩ := ha
  obtain ⟨hsb, hrb⟩ := hb
  have hatom : atomLt a b = m.lt n := by
    unfold atomLt
    rw [hra, hrb]
  cases a <;> simp only [isScalar, Bool.false_eq_true] at hsa <;> rw [pyLt, hatom] <;> simp

theorem sees_rank {a : PyVal} (h : a.isScalar = true) : ∃ m, Sees a m ∧ True := by
  cases a <;> simp only [isScalar, Bool.false_eq_true] at h <;> exact ⟨_, ⟨rfl, rfl⟩, trivial⟩

theorem laws_scalar : Laws pyEq pyLt fun a => a.isScalar = true := by
  have h : Laws pyEq pyLt fun a => ∃ m, Sees a m ∧ True := laws_rank.view pyEq_sees pyLt_sees
  exact h.mono fun _ ha => sees_rank ha

theorem pyEqAll_eq_lex (xs ys : List PyVal) : pyEqAll xs ys = lexEq pyEq xs ys := by
  induction xs generalizing ys with
  | nil => cases ys <;> simp [pyEqAll, lexEq]
  | cons x xs ih => cases ys with
    | nil => simp [pyEqAll, lexEq]
    | cons y ys => rw [pyEqAll, lexEq, ih]

theorem pyLtAll_eq_lex (xs ys : List PyVal) : pyLtAll xs ys = lexLt pyEq pyLt xs ys := by
  induction xs generalizing ys with
  | nil => cases ys <;> simp [pyLtAll, lexLt]
  | cons x xs ih => cases ys with
    | nil => simp [pyLtAll, lexLt]
    | cons y ys => rw [pyLtAll, lexLt, ih]

theorem pyEq_tuple {a b : PyVal} {xs ys : List PyVal} (ha : a = tuple xs) (hb : b = tuple ys) :
    pyEq a b = lexEq pyEq xs ys := by
  rw [ha, hb, pyEq, pyEqAll_eq_lex]

theorem pyLt_tuple {a b : PyVal} {xs ys : List PyVal} (ha : a = tuple xs) (hb : b = tuple ys) :
    pyLt a b = lexLt pyEq pyLt xs ys := by
  rw [ha, hb, pyLt, pyLtAll_eq_lex]

theorem laws_tuple {S : PyVal → Prop} (h : Laws pyEq pyLt S) :
    Laws pyEq pyLt fun a => ∃ xs, a = tuple xs ∧ ∀ x ∈ xs, S x := h.lex.view pyEq_tuple pyLt_tuple

theorem linear_tuple {S : PyVal → Prop} (h : Linear pyEq pyLt S) :
    Linear pyEq pyLt fun a => ∃ xs, a = tuple xs ∧ ∀ x ∈ xs, S x := h.lex.view pyEq_tuple pyLt_tuple

theorem atomLt_tuple (xs : List PyVal) (b : PyVal) : ¬ Compares atomLt (tuple xs) b ∧ ¬ Compares atomLt b (tuple xs) := by
  constructor
  · intro h
    obtain ⟨r, hr⟩ := h
    cases hr
  · intro h
    obtain ⟨r, hr⟩ := h
    unfold atomLt at hr
    cases hb : rankOf b <;> rw [hb] at hr <;> cases hr

/-- A value with a hash that is no tuple. -/
def Flat (a : PyVal) : Prop := a.hashable = true ∧ ∀ xs, a ≠ tuple xs

theorem flat_of_scalar {a : PyVal} (h : a.isScalar = true) : Flat a := by
  cases a <;> simp only [isScalar, Bool.false_eq_true] at h <;> exact ⟨rfl, fun xs hc => by cases hc⟩

section Flat

variable {a : PyVal} (ha : Flat a) (b : PyVal)
include ha

theorem pyEq_flat : pyEq a b = atomEq a b := by
  obtain ⟨hash, hne⟩ := ha
  unfold pyEq
  split
  · cases hash
  · exact absurd rfl (hne _)
  · cases hash
  · cases hash
  · rfl

theorem pyEq_flat_right : pyEq b a = atomEq b a := by
  obtain ⟨hash, hne⟩ := ha
  unfold pyEq
  split
  · cases hash
  · exact absurd rfl (hne _)
  · cases hash
  · cases hash
  · rfl

theorem pyLt_flat : pyLt a b = atomLt a b := by
  obtain ⟨hash, hne⟩ := ha
  unfold pyLt
  split
  · cases hash
  · exact absurd rfl (hne _)
  · cases hash
  · rfl

theorem pyLt_flat_right : pyLt b a = atomLt b a := by
  obtain ⟨hash, hne⟩ := ha
  unfold pyLt
  split
  · cases hash
  · exact absurd rfl (hne _)
  · cases hash
  · rfl

end Flat

/-- A value with a hash is apart from the tuples, unless it is one. -/
theorem apart_tuple (S : PyVal → Prop) : Sorting.Apart pyEq pyLt Flat fun a => ∃ xs, a = tuple xs ∧ ∀ x ∈ xs, S x where
  not_related := by
    intro a b ha hb
    obtain ⟨xs, rfl, -⟩ := hb
    unfold Related Compares
    rw [pyEq_flat ha, pyEq_flat_right ha, pyLt_flat ha, pyLt_flat_right ha]
    intro h
    rcases h with (h | h) | h | h
    · cases a <;> cases h
    · exact (atomLt_tuple xs a).2 h
    · cases a <;> cases h
    · exact (atomLt_tuple xs a).1 h

theorem laws_orderable : Laws pyEq pyLt fun a => a.isOrderable = true := by
  refine (laws_scalar.or (laws_tuple laws_scalar) ⟨fun ha => (apart_tuple _).not_related (flat_of_scalar ha)⟩).mono ?_
  intro a h
  by_cases htup : ∃ xs, a = tuple xs
  · obtain ⟨xs, rfl⟩ := htup
    exact .inr ⟨xs, rfl, List.all_eq_true.1 h⟩
  · left
    unfold isOrderable at h
    split at h
    · exact absurd ⟨_, rfl⟩ htup
    · exact h

/-- **The laws of sort keys.** -/
theorem laws_keys : Laws pyEqAll pyLtAll fun k => ∀ v ∈ k, v.isOrderable = true := by
  have heq : pyEqAll = lexEq pyEq := funext fun xs => funext (pyEqAll_eq_lex xs)
  have hlt : pyLtAll = lexLt pyEq pyLt := funext fun xs => funext (pyLtAll_eq_lex xs)
  rw [heq, hlt]
  exact laws_orderable.lex

theorem pyLt_self {a : PyVal} (h : a.isOrderable = true) : Compares pyLt a a := by
  have hscalar : ∀ {b : PyVal}, b.isScalar = true → Compares pyLt b b := by
    intro b hb
    obtain ⟨m, hm, -⟩ := sees_rank hb
    unfold Compares
    rw [pyLt_sees hm hm]
    cases m <;> exact ⟨_, rfl⟩
  unfold isOrderable at h
  split at h
  · rename_i xs
    have hself : Compares (lexLt pyEq pyLt) xs xs :=
      lexLt_self fun x hx => .inr (hscalar (List.all_eq_true.1 h x hx))
    obtain ⟨r, hr⟩ := hself
    exact ⟨r, (pyLt_tuple rfl rfl).trans hr⟩
  · exact hscalar h

/-- A sort key compares with itself. -/
theorem pyLtAll_self {k : List PyVal} (h : ∀ v ∈ k, v.isOrderable = true) : Compares pyLtAll k k := by
  have hself : Compares (lexLt pyEq pyLt) k k := lexLt_self fun v hv => .inr (pyLt_self (h v hv))
  obtain ⟨r, hr⟩ := hself
  exact ⟨r, (pyLtAll_eq_lex k k).trans hr⟩

/-! ## Without NaN -/

mutual

/-- A value with a hash that holds no NaN. -/
def steady : PyVal → Bool
  | tuple xs => steadyAll xs
  | list _ | dict _ | set _ | bytearray _ => false
  | float n | datetime n => floatNum n ≠ .nan
  | _ => true

def steadyAll : List PyVal → Bool
  | [] => true
  | x :: xs => steady x && steadyAll xs

end

/-- What `<` looks at is no NaN. -/
def Rank.Steady : Rank → Prop
  | .num n | .datetime n => n ≠ .nan
  | _ => True

theorem steady_rank {a : PyVal} {m : Rank} (h : a.steady = true) (hm : Sees a m) : m.Steady := by
  obtain ⟨hscalar, hrank⟩ := hm
  cases a <;> simp only [isScalar, Bool.false_eq_true] at hscalar <;> cases hrank
  case float.refl n => exact (of_decide_eq_true (by rwa [steady] at h) : floatNum n ≠ Num.nan)
  case datetime.refl n => exact (of_decide_eq_true (by rwa [steady] at h) : floatNum n ≠ Num.nan)
  case bool.refl | int.refl => exact fun hc => by cases hc
  all_goals exact trivial

theorem Rank.eq_self {m : Rank} (h : m.Steady) : m.eq m = true := by
  cases m <;> simp_all [Rank.eq, Rank.Steady]
  rename_i n
  cases n <;> simp_all [Num.eq]

/-- Of two values that are no NaN and compare, one is at most the other. -/
theorem Rank.le_of_not_lt {m n : Rank} (hm : m.Steady) (hn : n.Steady) (h : m.lt n = .ok false) :
    n.eq m = true ∨ n.lt m = .ok true := by
  cases m <;> cases n <;> simp only [Rank.lt, Rank.eq, Except.ok.injEq, reduceCtorEq, decide_eq_true_eq,
    decide_eq_false_iff_not] at h ⊢
  · exact Num.le_of_not_lt hm hn h
  · rename_i s t
    by_cases hlt : t < s
    · exact .inr hlt
    · exact .inl (List.le_antisymm (List.not_lt.1 h) (List.not_lt.1 hlt))
  · rename_i s t
    by_cases hlt : t < s
    · exact .inr hlt
    · exact .inl (List.le_antisymm (List.not_lt.1 h) (List.not_lt.1 hlt))
  · omega
  · rcases Num.le_of_not_lt hm hn h with heq | hlt
    · exact .inl (Num.eq_of_eq heq)
    · exact .inr hlt

theorem linear_scalar : Linear pyEq pyLt fun a => a.isScalar = true ∧ a.steady = true where
  toLaws := laws_scalar.mono fun _ ha => ha.1
  refl := by
    intro a ha
    obtain ⟨hscalar, hsteady⟩ := ha
    obtain ⟨m, hm, -⟩ := sees_rank hscalar
    rw [pyEq_sees hm hm]
    exact Rank.eq_self (steady_rank hsteady hm)
  decided := by
    intro a b ha hb hab
    obtain ⟨hscalar, hsteady⟩ := ha
    obtain ⟨hscalar', hsteady'⟩ := hb
    obtain ⟨m, hm, -⟩ := sees_rank hscalar
    obtain ⟨n, hn, -⟩ := sees_rank hscalar'
    unfold Le
    rw [pyEq_sees hn hm, pyLt_sees hn hm]
    rw [pyLt_sees hm hn] at hab
    exact Rank.le_of_not_lt (steady_rank hsteady hm) (steady_rank hsteady' hn) hab

/-- `None`, a database or another object. -/
def Blank : PyVal → Prop
  | none | jdb _ _ | obj _ => True
  | _ => False

theorem Blank.flat {a : PyVal} (h : Blank a) : Flat a := by
  cases a <;> simp only [Blank] at h <;> exact ⟨rfl, fun xs hc => by cases hc⟩

/-- Nothing compares with such a value. -/
theorem not_compares_blank {b : PyVal} (hb : Blank b) (a : PyVal) : ¬ Compares pyLt a b ∧ ¬ Compares pyLt b a := by
  have hrank : rankOf b = Option.none := by
    cases b <;> simp only [Blank] at hb <;> rfl
  unfold Compares
  rw [pyLt_flat hb.flat, pyLt_flat_right hb.flat]
  unfold atomLt
  rw [hrank]
  constructor
  · intro h
    obtain ⟨r, hr⟩ := h
    cases ha : rankOf a <;> rw [ha] at hr <;> cases hr
  · intro h
    obtain ⟨r, hr⟩ := h
    cases hr

theorem linear_blank : Linear pyEq pyLt Blank where
  symm := fun ha hb => per_pyEq.symm ha.flat.1 hb.flat.1
  trans := fun ha hb hc => per_pyEq.trans ha.flat.1 hb.flat.1 hc.flat.1
  irrefl := fun ha _ _ hlt => (not_compares_blank ha _).2 ⟨true, hlt⟩
  lt_trans := fun ha _ _ hlt => absurd ⟨true, hlt⟩ (not_compares_blank ha _).2
  lt_eq := fun ha _ _ hlt => absurd ⟨true, hlt⟩ (not_compares_blank ha _).2
  eq_lt := fun _ hb _ _ hlt => absurd ⟨true, hlt⟩ (not_compares_blank hb _).2
  asymm := fun ha _ hlt => absurd ⟨true, hlt⟩ (not_compares_blank ha _).2
  compares := fun ha _ hlt => absurd hlt (not_compares_blank ha _).2
  refl := by
    intro a ha
    rw [pyEq_flat ha.flat]
    cases a <;> simp only [Blank] at ha <;> simp [atomEq, numOf]
  decided := fun ha _ hlt => absurd ⟨false, hlt⟩ (not_compares_blank ha _).2

/-- A scalar is apart from such a value. -/
theorem apart_blank : Sorting.Apart pyEq pyLt (fun a => a.isScalar = true ∧ a.steady = true) Blank where
  not_related := by
    intro a b ha hb h
    have hne : pyEq a b = false ∧ pyEq b a = false := by
      rw [pyEq_flat hb.flat, pyEq_flat_right hb.flat]
      cases b <;> simp only [Blank] at hb <;> cases a <;> simp only [isScalar, Bool.false_eq_true, false_and] at ha <;>
        exact ⟨rfl, rfl⟩
    rcases h with (h | h) | h | h
    · exact Bool.false_ne_true (hne.1.symm.trans h)
    · exact (not_compares_blank hb a).1 h
    · exact Bool.false_ne_true (hne.2.symm.trans h)
    · exact (not_compares_blank hb a).2 h

/-- Steady values with tuples in tuples up to some depth. -/
def Upto : ℕ → PyVal → Prop
  | 0, a => Flat a ∧ a.steady = true
  | n + 1, a => (Flat a ∧ a.steady = true) ∨ ∃ xs, a = tuple xs ∧ ∀ x ∈ xs, Upto n x

theorem linear_flat : Linear pyEq pyLt fun a => Flat a ∧ a.steady = true := by
  refine (linear_scalar.or linear_blank apart_blank).mono ?_
  intro a ha
  obtain ⟨⟨hash, hne⟩, hsteady⟩ := ha
  cases a
  case none | jdb | obj => exact .inr trivial
  case tuple => exact absurd rfl (hne _)
  case list | dict | set | bytearray => cases hash
  all_goals exact .inl ⟨rfl, hsteady⟩

/-- **Steady values are in a linear order** as far as they compare. -/
theorem linear_upto (n : ℕ) : Linear pyEq pyLt (Upto n) := by
  induction n with
  | zero => exact linear_flat
  | succ n ih => exact linear_flat.or (linear_tuple ih) ⟨fun ha => (apart_tuple _).not_related ha.1⟩

theorem Upto.succ {n : ℕ} {a : PyVal} (h : Upto n a) : Upto (n + 1) a := by
  induction n generalizing a with
  | zero => exact .inl h
  | succ n ih =>
    rcases h with h | ⟨xs, rfl, hxs⟩
    · exact .inl h
    · exact .inr ⟨xs, rfl, fun x hx => ih (hxs x hx)⟩

theorem Upto.mono {m n : ℕ} {a : PyVal} (h : Upto m a) (hmn : m ≤ n) : Upto n a := by
  induction hmn with
  | refl => exact h
  | step _ ih => exact ih.succ

/-- A bound for each is a bound for all. -/
theorem upto_all {xs : List PyVal} (h : ∀ x ∈ xs, ∃ n, Upto n x) : ∃ n, ∀ x ∈ xs, Upto n x := by
  induction xs with
  | nil => exact ⟨0, fun x hx => absurd hx List.not_mem_nil⟩
  | cons x xs ih =>
    rw [List.forall_mem_cons] at h
    obtain ⟨m, hm⟩ := h.1
    obtain ⟨n, hn⟩ := ih h.2
    refine ⟨max m n, List.forall_mem_cons.2 ⟨hm.mono (le_max_left m n), ?_⟩⟩
    intro y hy
    exact (hn y hy).mono (le_max_right m n)

mutual

theorem upto_of_steady (a : PyVal) (h : a.steady = true) : ∃ n, Upto n a := by
  match a with
  | tuple xs =>
    obtain ⟨n, hn⟩ := upto_all (uptoAll_of_steady xs h)
    exact ⟨n + 1, .inr ⟨xs, rfl, hn⟩⟩
  | none | bool _ | int _ | float _ | str _ | bytes _ | date _ | datetime _ | jdb _ _ | obj _ =>
    exact ⟨0, ⟨rfl, fun xs hc => by cases hc⟩, h⟩

theorem uptoAll_of_steady (xs : List PyVal) (h : steadyAll xs = true) : ∀ x ∈ xs, ∃ n, Upto n x := by
  match xs with
  | [] => exact fun x hx => absurd hx List.not_mem_nil
  | x :: xs =>
    obtain ⟨hx, hxs⟩ := Bool.and_eq_true_iff.1 h
    exact List.forall_mem_cons.2 ⟨upto_of_steady x hx, uptoAll_of_steady xs hxs⟩

end

/-! ## What `<` raises -/

theorem Rank.lt_error {m n : Rank} {err : PyErr} (h : m.lt n = .error err) : err = .type := by
  unfold Rank.lt at h
  split at h <;> cases h
  rfl

theorem atomLt_error {a b : PyVal} {err : PyErr} (h : atomLt a b = .error err) : err = .type := by
  unfold atomLt at h
  split at h
  · exact Rank.lt_error h
  · cases h
    rfl

mutual

/-- `<` raises `TypeError` only. -/
theorem pyLt_error (a b : PyVal) {err : PyErr} (h : pyLt a b = .error err) : err = .type := by
  unfold pyLt at h
  split at h
  · exact pyLtAll_error _ _ h
  · exact pyLtAll_error _ _ h
  · cases h
  · exact atomLt_error h

theorem pyLtAll_error (xs ys : List PyVal) {err : PyErr} (h : pyLtAll xs ys = .error err) : err = .type := by
  match xs, ys with
  | [], [] => cases h
  | [], _ :: _ => cases h
  | _ :: _, [] => cases h
  | x :: xs, y :: ys =>
    rw [pyLtAll] at h
    split at h
    · exact pyLtAll_error xs ys h
    · exact pyLt_error x y h

end

end PyVal

end OmniJsonDb

import Mathlib.Data.List.Pairwise
import Mathlib.Order.Antisymmetrization
import Mathlib.Order.Extension.Linear
import Mathlib.Tactic.Common

/-!
# Comparisons that may raise

Equality is a test of its own, which need not even be reflexive: a value that is neither equal to, less
than nor greater than another one is possible.

* `Laws`, `Laws.lex`, `Laws.or`: what is asked of equality and comparison, kept by the lexicographic
  order and by values of two kinds that do not compare.
* `Linear`: of two values that compare, one is at most the other.
* `Linear.exists_order`: two values that do not compare can be put in either order.
-/

namespace OmniJsonDb.Sorting

variable {α ε : Type} {lt : α → α → Except ε Bool} {S : α → Prop}

/-- The comparison does not fail. -/
def Compares (lt : α → α → Except ε Bool) (x y : α) : Prop := ∃ b, lt x y = .ok b

/-! ## Lists in lexicographic order -/

/-- Lists of equal elements. -/
def lexEq (eq : α → α → Bool) : List α → List α → Bool
  | [], [] => true
  | x :: xs, y :: ys => eq x y && lexEq eq xs ys
  | _, _ => false

/-- The comparison of the first elements that are not equal. -/
def lexLt (eq : α → α → Bool) (lt : α → α → Except ε Bool) : List α → List α → Except ε Bool
  | [], [] => .ok false
  | [], _ :: _ => .ok true
  | _ :: _, [] => .ok false
  | x :: xs, y :: ys => if eq x y then lexLt eq lt xs ys else lt x y

/-- What equality and comparison keep to on the values of `S`. -/
structure Laws (eq : α → α → Bool) (lt : α → α → Except ε Bool) (S : α → Prop) : Prop where
  symm : ∀ {a b}, S a → S b → eq a b = true → eq b a = true
  trans : ∀ {a b c}, S a → S b → S c → eq a b = true → eq b c = true → eq a c = true
  irrefl : ∀ {a b}, S a → S b → eq a b = true → lt a b ≠ .ok true
  lt_trans : ∀ {a b c}, S a → S b → S c → lt a b = .ok true → lt b c = .ok true → lt a c = .ok true
  lt_eq : ∀ {a b c}, S a → S b → S c → lt a b = .ok true → eq b c = true → lt a c = .ok true
  eq_lt : ∀ {a b c}, S a → S b → S c → eq a b = true → lt b c = .ok true → lt a c = .ok true
  asymm : ∀ {a b}, S a → S b → lt a b = .ok true → lt b a ≠ .ok true
  compares : ∀ {a b}, S a → S b → Compares lt a b → Compares lt b a

variable {eq : α → α → Bool}

/-- Equal or less. -/
def Le (eq : α → α → Bool) (lt : α → α → Except ε Bool) (a b : α) : Prop := eq a b = true ∨ lt a b = .ok true

theorem Laws.le_trans (h : Laws eq lt S) {a b c : α} (ha : S a) (hb : S b) (hc : S c) (hab : Le eq lt a b)
    (hbc : Le eq lt b c) : Le eq lt a c := by
  rcases hab with hab | hab
  · rcases hbc with hbc | hbc
    · exact .inl (h.trans ha hb hc hab hbc)
    · exact .inr (h.eq_lt ha hb hc hab hbc)
  · rcases hbc with hbc | hbc
    · exact .inr (h.lt_eq ha hb hc hab hbc)
    · exact .inr (h.lt_trans ha hb hc hab hbc)

/-- What is less is not greater or equal. -/
theorem Laws.not_le (h : Laws eq lt S) {a b : α} (ha : S a) (hb : S b) (hab : lt a b = .ok true) : ¬ Le eq lt b a := by
  intro hba
  rcases hba with hba | hba
  · exact h.irrefl ha hb (h.symm hb ha hba) hab
  · exact h.asymm ha hb hab hba

theorem lexEq_cons {x y : α} {xs ys : List α} :
    lexEq eq (x :: xs) (y :: ys) = true ↔ eq x y = true ∧ lexEq eq xs ys = true := Bool.and_eq_true_iff

theorem Laws.lexLt_cons (h : Laws eq lt S) {x y : α} {xs ys : List α} (hx : S x) (hy : S y) :
    lexLt eq lt (x :: xs) (y :: ys) = .ok true ↔
      lt x y = .ok true ∨ (eq x y = true ∧ lexLt eq lt xs ys = .ok true) := by
  rw [lexLt]
  by_cases heq : eq x y = true
  · rw [if_pos heq]
    exact ⟨fun hlt => .inr ⟨heq, hlt⟩, fun hor => hor.elim (fun hlt => absurd hlt (h.irrefl hx hy heq)) And.right⟩
  · rw [if_neg heq]
    exact ⟨.inl, fun hor => hor.elim id fun hc => absurd hc.1 heq⟩

theorem lexEq_symm (h : Laws eq lt S) {xs ys : List α} (hx : ∀ x ∈ xs, S x) (hy : ∀ y ∈ ys, S y)
    (heq : lexEq eq xs ys = true) : lexEq eq ys xs = true := by
  induction xs generalizing ys with
  | nil => cases ys with
    | nil => rfl
    | cons y ys => cases heq
  | cons x xs ih => cases ys with
    | nil => cases heq
    | cons y ys =>
      rw [List.forall_mem_cons] at hx hy
      obtain ⟨hxy, hrest⟩ := lexEq_cons.1 heq
      exact lexEq_cons.2 ⟨h.symm hx.1 hy.1 hxy, ih hx.2 hy.2 hrest⟩

theorem lexEq_trans (h : Laws eq lt S) {xs ys zs : List α} (hx : ∀ x ∈ xs, S x) (hy : ∀ y ∈ ys, S y)
    (hz : ∀ z ∈ zs, S z) (hxy : lexEq eq xs ys = true) (hyz : lexEq eq ys zs = true) : lexEq eq xs zs = true := by
  induction xs generalizing ys zs with
  | nil => cases ys with
    | nil => exact hyz
    | cons y ys => cases hxy
  | cons x xs ih => cases ys with
    | nil => cases hxy
    | cons y ys => cases zs with
      | nil => cases hyz
      | cons z zs =>
        rw [List.forall_mem_cons] at hx hy hz
        obtain ⟨h₁, hxy⟩ := lexEq_cons.1 hxy
        obtain ⟨h₂, hyz⟩ := lexEq_cons.1 hyz
        exact lexEq_cons.2 ⟨h.trans hx.1 hy.1 hz.1 h₁ h₂, ih hx.2 hy.2 hz.2 hxy hyz⟩

theorem lexLt_irrefl (h : Laws eq lt S) {xs ys : List α} (hx : ∀ x ∈ xs, S x) (hy : ∀ y ∈ ys, S y)
    (heq : lexEq eq xs ys = true) : lexLt eq lt xs ys ≠ .ok true := by
  induction xs generalizing ys with
  | nil => cases ys with
    | nil => intro hc; cases hc
    | cons y ys => cases heq
  | cons x xs ih => cases ys with
    | nil => cases heq
    | cons y ys =>
      rw [List.forall_mem_cons] at hx hy
      obtain ⟨hxy, hrest⟩ := lexEq_cons.1 heq
      intro hc
      rcases (h.lexLt_cons hx.1 hy.1).1 hc with hlt | ⟨-, hlt⟩
      · exact h.irrefl hx.1 hy.1 hxy hlt
      · exact ih hx.2 hy.2 hrest hlt

theorem lexLt_trans (h : Laws eq lt S) {xs ys zs : List α} (hx : ∀ x ∈ xs, S x) (hy : ∀ y ∈ ys, S y)
    (hz : ∀ z ∈ zs, S z) (hxy : lexLt eq lt xs ys = .ok true) (hyz : lexLt eq lt ys zs = .ok true) :
    lexLt eq lt xs zs = .ok true := by
  induction xs generalizing ys zs with
  | nil => cases zs with
    | nil => cases ys <;> cases hyz
    | cons z zs => rfl
  | cons x xs ih => cases ys with
    | nil => cases hxy
    | cons y ys => cases zs with
      | nil => cases hyz
      | cons z zs =>
        rw [List.forall_mem_cons] at hx hy hz
        rw [h.lexLt_cons hx.1 hy.1] at hxy
        rw [h.lexLt_cons hy.1 hz.1] at hyz
        rw [h.lexLt_cons hx.1 hz.1]
        rcases hxy with hxy | ⟨hxy, hrest⟩
        · rcases hyz with hyz | ⟨hyz, -⟩
          · exact .inl (h.lt_trans hx.1 hy.1 hz.1 hxy hyz)
          · exact .inl (h.lt_eq hx.1 hy.1 hz.1 hxy hyz)
        · rcases hyz with hyz | ⟨hyz, hrest'⟩
          · exact .inl (h.eq_lt hx.1 hy.1 hz.1 hxy hyz)
          · exact .inr ⟨h.trans hx.1 hy.1 hz.1 hxy hyz, ih hx.2 hy.2 hz.2 hrest hrest'⟩

theorem lexLt_eq (h : Laws eq lt S) {xs ys zs : List α} (hx : ∀ x ∈ xs, S x) (hy : ∀ y ∈ ys, S y)
    (hz : ∀ z ∈ zs, S z) (hxy : lexLt eq lt xs ys = .ok true) (hyz : lexEq eq ys zs = true) :
    lexLt eq lt xs zs = .ok true := by
  induction xs generalizing ys zs with
  | nil => cases ys with
    | nil => cases hxy
    | cons y ys => cases zs with
      | nil => cases hyz
      | cons z zs => rfl
  | cons x xs ih => cases ys with
    | nil => cases hxy
    | cons y ys => cases zs with
      | nil => cases hyz
      | cons z zs =>
        rw [List.forall_mem_cons] at hx hy hz
        obtain ⟨heq, hrest⟩ := lexEq_cons.1 hyz
        rw [h.lexLt_cons hx.1 hy.1] at hxy
        rw [h.lexLt_cons hx.1 hz.1]
        rcases hxy with hxy | ⟨hxy, hlt⟩
        · exact .inl (h.lt_eq hx.1 hy.1 hz.1 hxy heq)
        · exact .inr ⟨h.trans hx.1 hy.1 hz.1 hxy heq, ih hx.2 hy.2 hz.2 hlt hrest⟩

theorem lexEq_lt (h : Laws eq lt S) {xs ys zs : List α} (hx : ∀ x ∈ xs, S x) (hy : ∀ y ∈ ys, S y)
    (hz : ∀ z ∈ zs, S z) (hxy : lexEq eq xs ys = true) (hyz : lexLt eq lt ys zs = .ok true) :
    lexLt eq lt xs zs = .ok true := by
  induction xs generalizing ys zs with
  | nil => cases ys with
    | nil => exact hyz
    | cons y ys => cases hxy
  | cons x xs ih => cases ys with
    | nil => cases hxy
    | cons y ys => cases zs with
      | nil => cases hyz
      | cons z zs =>
        rw [List.forall_mem_cons] at hx hy hz
        obtain ⟨heq, hrest⟩ := lexEq_cons.1 hxy
        rw [h.lexLt_cons hy.1 hz.1] at hyz
        rw [h.lexLt_cons hx.1 hz.1]
        rcases hyz with hyz | ⟨hyz, hlt⟩
        · exact .inl (h.eq_lt hx.1 hy.1 hz.1 heq hyz)
        · exact .inr ⟨h.trans hx.1 hy.1 hz.1 heq hyz, ih hx.2 hy.2 hz.2 hrest hlt⟩

theorem lexLt_compares (h : Laws eq lt S) {xs ys : List α} (hx : ∀ x ∈ xs, S x) (hy : ∀ y ∈ ys, S y)
    (hc : Compares (lexLt eq lt) xs ys) : Compares (lexLt eq lt) ys xs := by
  induction xs generalizing ys with
  | nil => cases ys with
    | nil => exact hc
    | cons y ys => exact ⟨false, rfl⟩
  | cons x xs ih => cases ys with
    | nil => exact ⟨true, rfl⟩
    | cons y ys =>
      rw [List.forall_mem_cons] at hx hy
      obtain ⟨b, hb⟩ := hc
      rw [lexLt] at hb
      unfold Compares
      rw [lexLt]
      by_cases heq : eq x y = true
      · rw [if_pos heq] at hb
        rw [if_pos (h.symm hx.1 hy.1 heq)]
        exact ih hx.2 hy.2 ⟨b, hb⟩
      · rw [if_neg heq] at hb
        rw [if_neg fun hc => heq (h.symm hy.1 hx.1 hc)]
        exact h.compares hx.1 hy.1 ⟨b, hb⟩

theorem lexLt_asymm (h : Laws eq lt S) {xs ys : List α} (hx : ∀ x ∈ xs, S x) (hy : ∀ y ∈ ys, S y)
    (hxy : lexLt eq lt xs ys = .ok true) : lexLt eq lt ys xs ≠ .ok true := by
  induction xs generalizing ys with
  | nil => cases ys with
    | nil => cases hxy
    | cons y ys => intro hc; cases hc
  | cons x xs ih => cases ys with
    | nil => cases hxy
    | cons y ys =>
      rw [List.forall_mem_cons] at hx hy
      intro hyx
      rcases (h.lexLt_cons hx.1 hy.1).1 hxy with hlt | ⟨heq, hlt⟩
      · rcases (h.lexLt_cons hy.1 hx.1).1 hyx with hlt' | ⟨heq', -⟩
        · exact h.asymm hx.1 hy.1 hlt hlt'
        · exact h.irrefl hx.1 hy.1 (h.symm hy.1 hx.1 heq') hlt
      · rcases (h.lexLt_cons hy.1 hx.1).1 hyx with hlt' | ⟨-, hlt'⟩
        · exact h.irrefl hy.1 hx.1 (h.symm hx.1 hy.1 heq) hlt'
        · exact ih hx.2 hy.2 hlt hlt'

/-- A list compares with itself when its elements do, or are equal to themselves. -/
theorem lexLt_self {xs : List α} (hx : ∀ x ∈ xs, eq x x = true ∨ Compares lt x x) : Compares (lexLt eq lt) xs xs := by
  induction xs with
  | nil => exact ⟨false, rfl⟩
  | cons x xs ih =>
    rw [List.forall_mem_cons] at hx
    unfold Compares
    rw [lexLt]
    split
    · exact ih hx.2
    · rename_i hne
      exact hx.1.resolve_left hne

/-- Equal lists compare. -/
theorem lexLt_of_eq {xs ys : List α} (h : lexEq eq xs ys = true) : lexLt eq lt xs ys = .ok false := by
  induction xs generalizing ys with
  | nil => cases ys with
    | nil => rfl
    | cons y ys => cases h
  | cons x xs ih => cases ys with
    | nil => cases h
    | cons y ys =>
      obtain ⟨hxy, hrest⟩ := lexEq_cons.1 h
      rw [lexLt, if_pos hxy]
      exact ih hrest

/-- **The lexicographic order** keeps to the laws of its elements. -/
theorem Laws.lex (h : Laws eq lt S) : Laws (lexEq eq) (lexLt eq lt) fun xs => ∀ x ∈ xs, S x where
  symm := lexEq_symm h
  trans := lexEq_trans h
  irrefl := lexLt_irrefl h
  lt_trans := lexLt_trans h
  lt_eq := lexLt_eq h
  eq_lt := lexEq_lt h
  asymm := lexLt_asymm h
  compares := lexLt_compares h

/-- Values keep to the laws that what is looked at of them keeps to. -/
theorem Laws.view {β : Type} {eq' : β → β → Bool} {lt' : β → β → Except ε Bool} {S' : β → Prop}
    (h : Laws eq' lt' S') {sees : α → β → Prop} (heq : ∀ {a b m n}, sees a m → sees b n → eq a b = eq' m n)
    (hlt : ∀ {a b m n}, sees a m → sees b n → lt a b = lt' m n) :
    Laws eq lt fun a => ∃ m, sees a m ∧ S' m where
  symm := by
    rintro a b ⟨m, ham, hm⟩ ⟨n, hbn, hn⟩ hab
    rw [heq ham hbn] at hab
    rw [heq hbn ham]
    exact h.symm hm hn hab
  trans := by
    rintro a b c ⟨m, ham, hm⟩ ⟨n, hbn, hn⟩ ⟨o, hco, ho⟩ hab hbc
    rw [heq ham hbn] at hab
    rw [heq hbn hco] at hbc
    rw [heq ham hco]
    exact h.trans hm hn ho hab hbc
  irrefl := by
    rintro a b ⟨m, ham, hm⟩ ⟨n, hbn, hn⟩ hab
    rw [heq ham hbn] at hab
    rw [hlt ham hbn]
    exact h.irrefl hm hn hab
  lt_trans := by
    rintro a b c ⟨m, ham, hm⟩ ⟨n, hbn, hn⟩ ⟨o, hco, ho⟩ hab hbc
    rw [hlt ham hbn] at hab
    rw [hlt hbn hco] at hbc
    rw [hlt ham hco]
    exact h.lt_trans hm hn ho hab hbc
  lt_eq := by
    rintro a b c ⟨m, ham, hm⟩ ⟨n, hbn, hn⟩ ⟨o, hco, ho⟩ hab hbc
    rw [hlt ham hbn] at hab
    rw [heq hbn hco] at hbc
    rw [hlt ham hco]
    exact h.lt_eq hm hn ho hab hbc
  eq_lt := by
    rintro a b c ⟨m, ham, hm⟩ ⟨n, hbn, hn⟩ ⟨o, hco, ho⟩ hab hbc
    rw [heq ham hbn] at hab
    rw [hlt hbn hco] at hbc
    rw [hlt ham hco]
    exact h.eq_lt hm hn ho hab hbc
  asymm := by
    rintro a b ⟨m, ham, hm⟩ ⟨n, hbn, hn⟩ hab
    rw [hlt ham hbn] at hab
    rw [hlt hbn ham]
    exact h.asymm hm hn hab
  compares := by
    rintro a b ⟨m, ham, hm⟩ ⟨n, hbn, hn⟩ ⟨r, hab⟩
    rw [hlt ham hbn] at hab
    obtain ⟨r', hr'⟩ := h.compares hm hn ⟨r, hab⟩
    exact ⟨r', (hlt hbn ham).trans hr'⟩

/-- Fewer values keep to the same laws. -/
theorem Laws.mono {T : α → Prop} (h : Laws eq lt S) (hST : ∀ a, T a → S a) : Laws eq lt T where
  symm := fun ha hb => h.symm (hST _ ha) (hST _ hb)
  trans := fun ha hb hc => h.trans (hST _ ha) (hST _ hb) (hST _ hc)
  irrefl := fun ha hb => h.irrefl (hST _ ha) (hST _ hb)
  lt_trans := fun ha hb hc => h.lt_trans (hST _ ha) (hST _ hb) (hST _ hc)
  lt_eq := fun ha hb hc => h.lt_eq (hST _ ha) (hST _ hb) (hST _ hc)
  eq_lt := fun ha hb hc => h.eq_lt (hST _ ha) (hST _ hb) (hST _ hc)
  asymm := fun ha hb => h.asymm (hST _ ha) (hST _ hb)
  compares := fun ha hb => h.compares (hST _ ha) (hST _ hb)

/-- Equal, or comparable, in one direction or the other. -/
def Related (eq : α → α → Bool) (lt : α → α → Except ε Bool) (a b : α) : Prop :=
  (eq a b = true ∨ Compares lt a b) ∨ eq b a = true ∨ Compares lt b a

/-- Values of two kinds are never equal and do not compare. -/
structure Apart (eq : α → α → Bool) (lt : α → α → Except ε Bool) (S T : α → Prop) : Prop where
  not_related : ∀ {a b}, S a → T b → ¬ Related eq lt a b

variable {T : α → Prop}

theorem Apart.symm (h : Apart eq lt S T) : Apart eq lt T S where
  not_related := fun hb ha hr => h.not_related ha hb hr.symm

theorem Apart.left (h : Apart eq lt S T) {a b : α} (ha : S a ∨ T a) (hb : S b) (hr : Related eq lt a b) : S a :=
  ha.elim id fun ha => absurd hr.symm (h.not_related hb ha)

/-- Values of two kinds that are apart keep to the laws that those of each kind keep to. -/
theorem Laws.or (hS : Laws eq lt S) (hT : Laws eq lt T) (h : Apart eq lt S T) : Laws eq lt fun a => S a ∨ T a where
  symm := by
    intro a b ha hb heq
    have hr : Related eq lt a b := .inl (.inl heq)
    rcases hb with hb | hb
    · exact hS.symm (h.left ha hb hr) hb heq
    · exact hT.symm (h.symm.left ha.symm hb hr) hb heq
  trans := by
    intro a b c ha hb hc hab hbc
    have hr : Related eq lt a b := .inl (.inl hab)
    have hr' : Related eq lt c b := .inr (.inl hbc)
    rcases hb with hb | hb
    · exact hS.trans (h.left ha hb hr) hb (h.left hc hb hr') hab hbc
    · exact hT.trans (h.symm.left ha.symm hb hr) hb (h.symm.left hc.symm hb hr') hab hbc
  irrefl := by
    intro a b ha hb heq
    have hr : Related eq lt a b := .inl (.inl heq)
    rcases hb with hb | hb
    · exact hS.irrefl (h.left ha hb hr) hb heq
    · exact hT.irrefl (h.symm.left ha.symm hb hr) hb heq
  lt_trans := by
    intro a b c ha hb hc hab hbc
    have hr : Related eq lt a b := .inl (.inr ⟨true, hab⟩)
    have hr' : Related eq lt c b := .inr (.inr ⟨true, hbc⟩)
    rcases hb with hb | hb
    · exact hS.lt_trans (h.left ha hb hr) hb (h.left hc hb hr') hab hbc
    · exact hT.lt_trans (h.symm.left ha.symm hb hr) hb (h.symm.left hc.symm hb hr') hab hbc
  lt_eq := by
    intro a b c ha hb hc hab hbc
    have hr : Related eq lt a b := .inl (.inr ⟨true, hab⟩)
    have hr' : Related eq lt c b := .inr (.inl hbc)
    rcases hb with hb | hb
    · exact hS.lt_eq (h.left ha hb hr) hb (h.left hc hb hr') hab hbc
    · exact hT.lt_eq (h.symm.left ha.symm hb hr) hb (h.symm.left hc.symm hb hr') hab hbc
  eq_lt := by
    intro a b c ha hb hc hab hbc
    have hr : Related eq lt a b := .inl (.inl hab)
    have hr' : Related eq lt c b := .inr (.inr ⟨true, hbc⟩)
    rcases hb with hb | hb
    · exact hS.eq_lt (h.left ha hb hr) hb (h.left hc hb hr') hab hbc
    · exact hT.eq_lt (h.symm.left ha.symm hb hr) hb (h.symm.left hc.symm hb hr') hab hbc
  compares := by
    intro a b ha hb hlt
    have hr : Related eq lt a b := .inl (.inr hlt)
    rcases hb with hb | hb
    · exact hS.compares (h.left ha hb hr) hb hlt
    · exact hT.compares (h.symm.left ha.symm hb hr) hb hlt
  asymm := by
    intro a b ha hb hab
    have hr : Related eq lt a b := .inl (.inr ⟨true, hab⟩)
    rcases hb with hb | hb
    · exact hS.asymm (h.left ha hb hr) hb hab
    · exact hT.asymm (h.symm.left ha.symm hb hr) hb hab

/-! ## Orders that are linear where they are defined -/

/-- A value is equal to itself, and one that is not less than another is equal or greater. -/
structure Linear (eq : α → α → Bool) (lt : α → α → Except ε Bool) (S : α → Prop) : Prop extends Laws eq lt S where
  refl : ∀ {a}, S a → eq a a = true
  decided : ∀ {a b}, S a → S b → lt a b = .ok false → Le eq lt b a

theorem lexEq_refl {xs : List α} (h : ∀ x ∈ xs, eq x x = true) : lexEq eq xs xs = true := by
  induction xs with
  | nil => rfl
  | cons x xs ih =>
    rw [List.forall_mem_cons] at h
    exact lexEq_cons.2 ⟨h.1, ih h.2⟩

theorem lexLt_decided (h : Linear eq lt S) {xs ys : List α} (hx : ∀ x ∈ xs, S x) (hy : ∀ y ∈ ys, S y)
    (hxy : lexLt eq lt xs ys = .ok false) : Le (lexEq eq) (lexLt eq lt) ys xs := by
  induction xs generalizing ys with
  | nil => cases ys with
    | nil => exact .inl rfl
    | cons y ys => cases hxy
  | cons x xs ih => cases ys with
    | nil => exact .inr rfl
    | cons y ys =>
      rw [List.forall_mem_cons] at hx hy
      rw [lexLt] at hxy
      by_cases heq : eq x y = true
      · rw [if_pos heq] at hxy
        have heq' : eq y x = true := h.symm hx.1 hy.1 heq
        rcases ih hx.2 hy.2 hxy with hle | hle
        · exact .inl (lexEq_cons.2 ⟨heq', hle⟩)
        · exact .inr ((h.lexLt_cons hy.1 hx.1).2 (.inr ⟨heq', hle⟩))
      · rw [if_neg heq] at hxy
        rcases h.decided hx.1 hy.1 hxy with hle | hle
        · exact absurd (h.symm hy.1 hx.1 hle) heq
        · exact .inr ((h.lexLt_cons hy.1 hx.1).2 (.inl hle))

theorem Linear.lex (h : Linear eq lt S) : Linear (lexEq eq) (lexLt eq lt) fun xs => ∀ x ∈ xs, S x where
  toLaws := h.toLaws.lex
  refl := fun hx => lexEq_refl fun x hmem => h.refl (hx x hmem)
  decided := lexLt_decided h

theorem Linear.view {β : Type} {eq' : β → β → Bool} {lt' : β → β → Except ε Bool} {S' : β → Prop}
    (h : Linear eq' lt' S') {sees : α → β → Prop} (heq : ∀ {a b m n}, sees a m → sees b n → eq a b = eq' m n)
    (hlt : ∀ {a b m n}, sees a m → sees b n → lt a b = lt' m n) :
    Linear eq lt fun a => ∃ m, sees a m ∧ S' m where
  toLaws := h.toLaws.view heq hlt
  refl := by
    rintro a ⟨m, ham, hm⟩
    rw [heq ham ham]
    exact h.refl hm
  decided := by
    rintro a b ⟨m, ham, hm⟩ ⟨n, hbn, hn⟩ hab
    rw [hlt ham hbn] at hab
    unfold Le
    rw [heq hbn ham, hlt hbn ham]
    exact h.decided hm hn hab

theorem Linear.mono {T : α → Prop} (h : Linear eq lt S) (hST : ∀ a, T a → S a) : Linear eq lt T where
  toLaws := h.toLaws.mono hST
  refl := fun ha => h.refl (hST _ ha)
  decided := fun ha hb => h.decided (hST _ ha) (hST _ hb)

theorem Linear.or (hS : Linear eq lt S) (hT : Linear eq lt T) (h : Apart eq lt S T) :
    Linear eq lt fun a => S a ∨ T a where
  toLaws := hS.toLaws.or hT.toLaws h
  refl := fun ha => ha.elim hS.refl hT.refl
  decided := by
    intro a b ha hb hab
    have hr : Related eq lt a b := .inl (.inr ⟨false, hab⟩)
    rcases hb with hb | hb
    · exact hS.decided (h.left ha hb hr) hb hab
    · exact hT.decided (h.symm.left ha.symm hb hr) hb hab

/-- The values of `S` with `a` put in front of `b`. -/
def Before (eq : α → α → Bool) (lt : α → α → Except ε Bool) (a b x y : α) : Prop :=
  Le eq lt x y ∨ (Le eq lt x a ∧ Le eq lt b y)

theorem Before.trans (h : Laws eq lt S) {a b x y z : α} (ha : S a) (hb : S b) (hx : S x) (hy : S y) (hz : S z)
    (hxy : Before eq lt a b x y) (hyz : Before eq lt a b y z) : Before eq lt a b x z := by
  rcases hxy with hxy | ⟨hxa, hby⟩
  · rcases hyz with hyz | ⟨hya, hbz⟩
    · exact .inl (h.le_trans hx hy hz hxy hyz)
    · exact .inr ⟨h.le_trans hx hy ha hxy hya, hbz⟩
  · rcases hyz with hyz | ⟨-, hbz⟩
    · exact .inr ⟨hxa, h.le_trans hb hy hz hby hyz⟩
    · exact .inr ⟨hxa, hbz⟩

/-- Putting `a` in front of `b` turns no comparison round. -/
theorem Before.not_turned (h : Laws eq lt S) {a b x y : α} (ha : S a) (hb : S b) (hx : S x) (hy : S y)
    (hba : ¬ Le eq lt b a) (hxy : lt x y = .ok true) : ¬ Before eq lt a b y x := by
  intro hyx
  rcases hyx with hyx | ⟨hya, hbx⟩
  · exact h.not_le hx hy hxy hyx
  · exact hba (h.le_trans hb hx ha hbx (h.le_trans hx hy ha (.inr hxy) hya))

/-- **Two values that do not compare** can be put in either order: some order of all values decides every
comparison as it is decided, and has `a` in front of `b`. -/
theorem Linear.exists_order (h : Linear eq lt S) {a b : α} (ha : S a) (hb : S b) (hba : ¬ Le eq lt b a) :
    ∃ le : α → α → Prop, (∀ x y z, le x y → le y z → le x z) ∧ (∀ x y, S x → S y → le x y ∨ le y x) ∧
      (∀ x y r, S x → S y → lt x y = .ok r → (r = true ↔ ¬ le y x)) ∧ ¬ le b a := by
  let order : Preorder {x // S x} :=
    { le := fun x y => Before eq lt a b x.1 y.1
      le_refl := fun x => .inl (.inl (h.refl x.2))
      le_trans := fun x y z => Before.trans h.toLaws ha hb x.2 y.2 z.2 }
  obtain ⟨line, hline, hext⟩ := extend_partialOrder fun p q : Antisymmetrization {x // S x} (· ≤ ·) => p ≤ q
  let place (x : {x // S x}) : Antisymmetrization {x // S x} (· ≤ ·) := toAntisymmetrization (· ≤ ·) x
  have hbefore : ∀ x y : {x // S x}, Before eq lt a b x.1 y.1 → line (place x) (place y) :=
    fun x y hxy => hext (place x) (place y) hxy
  -- in the line the other way round only when the values are put so
  have hturned : ∀ x y : {x // S x}, Before eq lt a b x.1 y.1 → line (place y) (place x) → Before eq lt a b y.1 x.1 := by
    intro x y hxy hyx
    have heq : place y = place x := hline.antisymm _ _ hyx (hbefore x y hxy)
    exact (AntisymmRel.le (Quotient.exact heq) : y ≤ x)
  refine ⟨fun x y => ∃ hx hy, line (place ⟨x, hx⟩) (place ⟨y, hy⟩), ?_, ?_, ?_, ?_⟩
  · intro x y z hxy hyz
    obtain ⟨hx, hy, hxy⟩ := hxy
    obtain ⟨hy', hz, hyz⟩ := hyz
    exact ⟨hx, hz, hline.trans _ _ _ hxy hyz⟩
  · intro x y hx hy
    exact (hline.total (place ⟨x, hx⟩) (place ⟨y, hy⟩)).imp (fun hxy => ⟨hx, hy, hxy⟩) fun hyx => ⟨hy, hx, hyx⟩
  · intro x y r hx hy hxy
    cases r with
    | true =>
      refine iff_of_true rfl ?_
      intro hle
      obtain ⟨hy, hx, hyx⟩ := hle
      exact Before.not_turned h.toLaws ha hb hx hy hba hxy
        (hturned ⟨x, hx⟩ ⟨y, hy⟩ (.inl (.inr hxy)) hyx)
    | false =>
      refine iff_of_false Bool.false_ne_true ?_
      intro hno
      exact hno ⟨hy, hx, hbefore ⟨y, hy⟩ ⟨x, hx⟩ (.inl (h.decided hx hy hxy))⟩
  · intro hle
    obtain ⟨hb', ha', hle⟩ := hle
    have hab : Before eq lt a b a b := .inr ⟨.inl (h.refl ha), .inl (h.refl hb)⟩
    rcases hturned ⟨a, ha⟩ ⟨b, hb⟩ hab hle with hback | ⟨hback, -⟩
    · exact hba hback
    · exact hba hback

end OmniJsonDb.Sorting

import Mathlib.Tactic.Common

/-!
# Tests that may raise

Truth values that a computation gives or fails to give, and the connectives of a language that
stops at the first answer: the second test runs only where the first leaves the question open.

* `Test.andThen`, `Test.orElse`, `Test.flip`: the connectives.
* `Test.all`, `Test.any`: over a list, from the left.
-/

namespace OmniJsonDb

variable {ε α β : Type*}

/-- A truth value, or what was raised instead. -/
abbrev Test (ε : Type*) := Except ε Bool

namespace Test

/-- Negated if the flag says so. -/
def flip (rev : Bool) (t : Test ε) : Test ε := t.map (· != rev)

def andThen (s t : Test ε) : Test ε :=
  match s with
  | .ok true => t
  | s => s

def orElse (s t : Test ε) : Test ε :=
  match s with
  | .ok false => t
  | s => s

def all (f : α → Test ε) : List α → Test ε
  | [] => .ok true
  | x :: xs => andThen (f x) (all f xs)

def any (f : α → Test ε) : List α → Test ε
  | [] => .ok false
  | x :: xs => orElse (f x) (any f xs)

variable {f g : α → Test ε} {xs ys : List α} {s t u : Test ε}

@[simp] theorem flip_ok (rev b : Bool) : flip rev (.ok b : Test ε) = .ok (b != rev) := rfl
@[simp] theorem flip_error (rev : Bool) (e : ε) : flip rev (.error e : Test ε) = .error e := rfl
@[simp] theorem andThen_true_left : andThen (.ok true : Test ε) t = t := rfl
@[simp] theorem andThen_false_left : andThen (.ok false : Test ε) t = .ok false := rfl
@[simp] theorem andThen_error_left (e : ε) : andThen (.error e : Test ε) t = .error e := rfl
@[simp] theorem orElse_true_left : orElse (.ok true : Test ε) t = .ok true := rfl
@[simp] theorem orElse_false_left : orElse (.ok false : Test ε) t = t := rfl
@[simp] theorem orElse_error_left (e : ε) : orElse (.error e : Test ε) t = .error e := rfl
@[simp] theorem all_nil : all f [] = .ok true := rfl
@[simp] theorem all_cons (x : α) : all f (x :: xs) = andThen (f x) (all f xs) := rfl
@[simp] theorem any_nil : any f [] = .ok false := rfl
@[simp] theorem any_cons (x : α) : any f (x :: xs) = orElse (f x) (any f xs) := rfl

@[simp] theorem flip_false (t : Test ε) : flip false t = t := by
  rcases t with e | b <;> simp

theorem flip_flip (r r' : Bool) (t : Test ε) : flip r (flip r' t) = flip (r' != r) t := by
  rcases t with e | b
  · simp
  · cases b <;> cases r <;> cases r' <;> simp

@[simp] theorem andThen_true_right (t : Test ε) : andThen t (.ok true) = t := by
  rcases t with e | b
  · simp
  · cases b <;> simp

@[simp] theorem orElse_false_right (t : Test ε) : orElse t (.ok false) = t := by
  rcases t with e | b
  · simp
  · cases b <;> simp

theorem andThen_assoc (s t u : Test ε) : andThen (andThen s t) u = andThen s (andThen t u) := by
  rcases s with e | b
  · simp
  · cases b <;> simp

theorem orElse_assoc (s t u : Test ε) : orElse (orElse s t) u = orElse s (orElse t u) := by
  rcases s with e | b
  · simp
  · cases b <;> simp

theorem all_append : all f (xs ++ ys) = andThen (all f xs) (all f ys) := by
  induction xs with
  | nil => simp
  | cons x xs ih => rw [List.cons_append, all_cons, ih, all_cons, andThen_assoc]

theorem any_append : any f (xs ++ ys) = orElse (any f xs) (any f ys) := by
  induction xs with
  | nil => simp
  | cons x xs ih => rw [List.cons_append, any_cons, ih, any_cons, orElse_assoc]

theorem all_map (f : β → Test ε) (g : α → β) (xs : List α) : all f (xs.map g) = all (fun x => f (g x)) xs := by
  induction xs with
  | nil => rfl
  | cons x xs ih => rw [List.map_cons, all_cons, all_cons, ih]

theorem any_map (f : β → Test ε) (g : α → β) (xs : List α) : any f (xs.map g) = any (fun x => f (g x)) xs := by
  induction xs with
  | nil => rfl
  | cons x xs ih => rw [List.map_cons, any_cons, any_cons, ih]

/-- A test of the members, with the proofs that they are. -/
theorem all_attach (f : α → Test ε) (xs : List α) : all (fun x : { x // x ∈ xs } => f x.1) xs.attach = all f xs := by
  rw [← all_map f Subtype.val, List.attach_map_subtype_val]

theorem any_attach (f : α → Test ε) (xs : List α) : any (fun x : { x // x ∈ xs } => f x.1) xs.attach = any f xs := by
  rw [← any_map f Subtype.val, List.attach_map_subtype_val]

end Test

end OmniJsonDb

import Mathlib.Tactic.Common

/-!
# Programs that may raise

What a program that returned, or raised, did on the way.

* `mapM_ok`: a run over a list that returned did so on each element.
* `mapM_error`: one that raised did so on some element.
* `mapM_error_iff`: that is the first element on which it did not return.
-/

namespace OmniJsonDb.Raising

universe u

variable {ε : Type*} {α β : Type u}

/-- A sequence that returned. -/
theorem bind_eq_ok {x : Except ε α} {f : α → Except ε β} {b : β} : (x >>= f) = .ok b ↔ ∃ a, x = .ok a ∧ f a = .ok b := by
  cases x with
  | error err => exact ⟨fun h => (nomatch h), fun ⟨_, h, _⟩ => nomatch h⟩
  | ok a =>
    constructor
    · intro h
      exact ⟨a, rfl, h⟩
    · rintro ⟨_, ha, h⟩
      rw [Except.ok.inj ha]
      exact h

/-- A result that is passed on. -/
theorem map_eq_ok {x : Except ε α} {g : α → β} {b : β} : (do return g (← x)) = (.ok b : Except ε β) ↔ ∃ a, x = .ok a ∧ b = g a := by
  cases x with
  | error err => exact ⟨fun h => (nomatch h), fun ⟨_, h, _⟩ => nomatch h⟩
  | ok a =>
    constructor
    · intro h
      exact ⟨a, rfl, (Except.ok.inj h).symm⟩
    · rintro ⟨_, ha, rfl⟩
      rw [Except.ok.inj ha]
      rfl

theorem mapM_ok {f : α → Except ε β} {xs : List α} {ys : List β} (h : xs.mapM f = .ok ys) :
    List.Forall₂ (fun x y => f x = .ok y) xs ys := by
  induction xs generalizing ys with
  | nil =>
    obtain rfl : [] = ys := Except.ok.inj h
    exact .nil
  | cons x xs ih =>
    rw [List.mapM_cons] at h
    cases hx : f x with
    | error err => rw [hx] at h; cases h
    | ok y =>
      rw [hx] at h
      cases hxs : xs.mapM f with
      | error err => rw [hxs] at h; cases h
      | ok zs =>
        rw [hxs] at h
        obtain rfl : y :: zs = ys := Except.ok.inj h
        exact .cons hx (ih hxs)

/-- A run that returns on each element returns. -/
theorem exists_mapM {f : α → Except ε β} {xs : List α} (h : ∀ x ∈ xs, ∃ y, f x = .ok y) : ∃ ys, xs.mapM f = .ok ys := by
  induction xs with
  | nil => exact ⟨[], rfl⟩
  | cons x xs ih =>
    rw [List.forall_mem_cons] at h
    obtain ⟨y, hy⟩ := h.1
    obtain ⟨ys, hys⟩ := ih h.2
    refine ⟨y :: ys, ?_⟩
    rw [List.mapM_cons, hy, hys]
    rfl

/-- Every element was run on. -/
theorem mapM_ok_mem {f : α → Except ε β} {xs : List α} {ys : List β} (h : xs.mapM f = .ok ys) {x : α} (hx : x ∈ xs) :
    ∃ y, f x = .ok y := by
  have hrun := mapM_ok h
  clear h
  induction hrun with
  | nil => cases hx
  | cons hxy _ ih =>
    rcases List.mem_cons.1 hx with rfl | hx
    · exact ⟨_, hxy⟩
    · exact ih hx

theorem mapM_error {f : α → Except ε β} {xs : List α} {err : ε} (h : xs.mapM f = .error err) :
    ∃ x ∈ xs, f x = .error err := by
  induction xs with
  | nil => cases h
  | cons x xs ih =>
    rw [List.mapM_cons] at h
    cases hx : f x with
    | error err' =>
      rw [hx] at h
      obtain rfl : err' = err := Except.error.inj h
      exact ⟨x, List.mem_cons_self .., hx⟩
    | ok y =>
      rw [hx] at h
      cases hxs : xs.mapM f with
      | error err' =>
        rw [hxs] at h
        obtain rfl : err' = err := Except.error.inj h
        obtain ⟨z, hz, hfz⟩ := ih hxs
        exact ⟨z, List.mem_cons_of_mem _ hz, hfz⟩
      | ok zs => rw [hxs] at h; cases h

/-- A place in a list is its head or a place in its tail. -/
theorem exists_split_cons {α : Type*} {A : List α → α → Prop} {y : α} {ys : List α} :
    (∃ pre x post, y :: ys = pre ++ x :: post ∧ A pre x) ↔
      A [] y ∨ ∃ pre x post, ys = pre ++ x :: post ∧ A (y :: pre) x := by
  constructor
  · rintro ⟨pre, x, post, hsplit, hA⟩
    cases pre with
    | nil =>
      obtain ⟨rfl, rfl⟩ := List.cons.inj hsplit
      exact .inl hA
    | cons z pre =>
      obtain ⟨rfl, hys⟩ := List.cons.inj hsplit
      exact .inr ⟨pre, x, post, hys, hA⟩
  · intro h
    rcases h with hA | ⟨pre, x, post, rfl, hA⟩
    · exact ⟨[], y, ys, rfl, hA⟩
    · exact ⟨y :: pre, x, post, rfl, hA⟩

theorem mapM_error_iff {f : α → Except ε β} {xs : List α} {err : ε} : xs.mapM f = .error err ↔
    ∃ pre x post, xs = pre ++ x :: post ∧ (∀ y ∈ pre, ∃ z, f y = .ok z) ∧ f x = .error err := by
  induction xs with
  | nil =>
    constructor
    · intro h
      cases h
    · rintro ⟨pre, x, post, h, -⟩
      simp at h
  | cons y ys ih =>
    rw [exists_split_cons (A := fun pre x => (∀ y ∈ pre, ∃ z, f y = .ok z) ∧ f x = .error err), List.mapM_cons]
    cases hy : f y with
    | error err' =>
      constructor
      · intro h
        exact .inl ⟨fun _ h => absurd h List.not_mem_nil, congrArg Except.error (Except.error.inj h)⟩
      · intro h
        rcases h with ⟨-, h⟩ | ⟨pre, x, post, -, hpre, -⟩
        · rw [Except.error.inj h]
          rfl
        · obtain ⟨z, hz⟩ := hpre y (List.mem_cons_self ..)
          rw [hy] at hz
          cases hz
    | ok z =>
      have htail : (Except.ok z >>= fun z => ys.mapM f >>= fun zs => pure (z :: zs)) = Except.error err ↔
          ys.mapM f = .error err := by
        cases ys.mapM f <;> simp [bind, Except.bind, pure, Except.pure]
      rw [htail, ih]
      constructor
      · rintro ⟨pre, x, post, hsplit, hpre, hx⟩
        exact .inr ⟨pre, x, post, hsplit, List.forall_mem_cons.2 ⟨⟨z, hy⟩, hpre⟩, hx⟩
      · intro h
        rcases h with ⟨-, h⟩ | ⟨pre, x, post, hsplit, hpre, hx⟩
        · cases h
        · exact ⟨pre, x, post, hsplit, fun w hw => hpre w (List.mem_cons_of_mem _ hw), hx⟩

theorem map_error {f : β → α} {r : Except ε β} {err : ε} (h : r.map f = .error err) : r = .error err := by
  cases r with
  | error err' =>
    obtain rfl : err' = err := Except.error.inj h
    rfl
  | ok y => cases h

theorem bind_ok {r : Except ε α} {f : α → Except ε β} {y : β} (h : (r >>= f) = .ok y) :
    ∃ x, r = .ok x ∧ f x = .ok y := by
  cases r with
  | error err => cases h
  | ok x => exact ⟨x, rfl, h⟩

end OmniJsonDb.Raising

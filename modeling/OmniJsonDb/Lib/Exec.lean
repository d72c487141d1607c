import Mathlib.Tactic.Common

/-!
# Stateful programs that may raise

`Exec σ ε α`: from a state to an outcome and a state. The state is kept when the
program raises, so what a failed call leaves behind can be talked about.

* `Wp x s Q E`: run from `s`, `x` ends in `Q` when it returns and in `E` when it
  raises.
* `wp_bind`, `wp_mono`: the two rules a proof is put together with.
* `wp_zoom`: a program on a part of the state.
* `Maintains`: a property that a program keeps however it ends.
-/

namespace OmniJsonDb

/-- A program over states `σ` that returns an `α` or raises an `ε`. -/
def Exec (σ ε α : Type) := σ → Except ε α × σ

namespace Exec

variable {σ τ ε α β : Type}

/-- Run a program. -/
def run (x : Exec σ ε α) (s : σ) : Except ε α × σ := x s

/-- The error of a run, when there is one. -/
def raised : Except ε α × σ → Option ε
  | (.error e, _) => some e
  | (.ok _, _) => none

theorem eq_of_raised {x : Except ε α × σ} {e : ε} (h : raised x = some e) : ∃ s, x = (.error e, s) := by
  obtain ⟨e' | a, s⟩ := x
  · cases h
    exact ⟨s, rfl⟩
  · cases h

/-- Does a run return, in a state of which `P` holds? -/
def returned (P : σ → Bool) : Except ε α × σ → Bool
  | (.ok _, s) => P s
  | (.error _, _) => false

theorem eq_of_returned {P : σ → Bool} {x : Except ε α × σ} (h : returned P x = true) :
    ∃ a s, x = (.ok a, s) ∧ P s = true := by
  obtain ⟨e | a, s⟩ := x
  · cases h
  · exact ⟨a, s, rfl, h⟩

def ret (a : α) : Exec σ ε α := fun s => (.ok a, s)

def bind (x : Exec σ ε α) (f : α → Exec σ ε β) : Exec σ ε β := fun s =>
  match x s with
  | (.ok a, s') => f a s'
  | (.error e, s') => (.error e, s')

instance : Monad (Exec σ ε) where
  pure := ret
  bind := bind

/-- Raise. -/
def raise (e : ε) : Exec σ ε α := fun s => (.error e, s)

/-- The current state. -/
def get : Exec σ ε σ := fun s => (.ok s, s)

def modify (f : σ → σ) : Exec σ ε Unit := fun s => (.ok (), f s)

/-- Compute a result and the next state. -/
def modifyGet (f : σ → α × σ) : Exec σ ε α := fun s => (.ok (f s).1, (f s).2)

/-- A computation that does not touch the state. -/
def lift (x : Except ε α) : Exec σ ε α := fun s => (x, s)

/-- Run a program on the part of the state that `view` reads and `put` writes. -/
def zoom (view : τ → σ) (put : σ → τ → τ) (x : Exec σ ε α) : Exec τ ε α := fun t =>
  ((x (view t)).1, put (x (view t)).2 t)

/-- Run from `s`, `x` ends in `Q` when it returns and in `E` when it raises. -/
def Wp (x : Exec σ ε α) (s : σ) (Q : α → σ → Prop) (E : ε → σ → Prop) : Prop :=
  match x.run s with
  | (.ok a, s') => Q a s'
  | (.error e, s') => E e s'

variable {x : Exec σ ε α} {f : α → Exec σ ε β} {s : σ} {E E' : ε → σ → Prop}

/-! ## Rules -/

@[simp] theorem wp_ret {a : α} {Q : α → σ → Prop} : Wp (pure a) s Q E ↔ Q a s := Iff.rfl

@[simp] theorem wp_get {Q : σ → σ → Prop} : Wp (get : Exec σ ε σ) s Q E ↔ Q s s := Iff.rfl

@[simp] theorem wp_modify {g : σ → σ} {Q : Unit → σ → Prop} :
    Wp (modify g) s Q E ↔ Q () (g s) := Iff.rfl

@[simp] theorem wp_modifyGet {g : σ → α × σ} {Q : α → σ → Prop} :
    Wp (modifyGet g) s Q E ↔ Q (g s).1 (g s).2 := Iff.rfl

theorem wp_lift {y : Except ε α} {Q : α → σ → Prop} :
    Wp (lift y) s Q E ↔ (∀ a, y = .ok a → Q a s) ∧ ∀ e, y = .error e → E e s := by
  cases y <;> simp [Wp, lift, run]

/-- **Sequencing.** What follows runs from where the first program returned; what it
raises is raised. -/
@[simp] theorem wp_bind {Q : β → σ → Prop} :
    Wp (x >>= f) s Q E ↔ Wp x s (fun a s' => Wp (f a) s' Q E) E := by
  change Wp (Exec.bind x f) s Q E ↔ _
  unfold Wp run Exec.bind
  rcases x s with ⟨a | e, s'⟩ <;> rfl

/-- What follows a run that is known. -/
theorem wp_bind_of_run {Q : β → σ → Prop} {a : α} {s' : σ} (h : x.run s = (.ok a, s')) :
    Wp (x >>= f) s Q E ↔ Wp (f a) s' Q E := by
  rw [wp_bind]
  unfold Wp
  rw [h]

theorem wp_bind_of_raises {Q : β → σ → Prop} {e : ε} {s' : σ} (h : x.run s = (.error e, s')) :
    Wp (x >>= f) s Q E ↔ E e s' := by
  rw [wp_bind]
  unfold Wp
  rw [h]

/-- A known run whose result is passed on. -/
theorem run_map_of_run {g : α → β} {a : α} {s' : σ} (h : x.run s = (.ok a, s')) : (g <$> x).run s = (.ok (g a), s') := by
  change Exec.bind x (fun a => ret (g a)) s = _
  unfold Exec.bind
  rw [show x s = _ from h]
  rfl

theorem run_map_of_raises {g : α → β} {e : ε} {s' : σ} (h : x.run s = (.error e, s')) :
    (g <$> x).run s = (.error e, s') := by
  change Exec.bind x (fun a => ret (g a)) s = _
  unfold Exec.bind
  rw [show x s = _ from h]

/-- A program that never returns raises. -/
theorem Wp.raises {E : ε → σ → Prop} (h : Wp x s (fun _ _ => False) E) : ∃ e s', x.run s = (.error e, s') ∧ E e s' := by
  unfold Wp at h
  rcases hx : x.run s with ⟨e | _, s'⟩ <;> rw [hx] at h
  exacts [⟨e, s', rfl, h⟩, h.elim]

theorem wp_ite {p : Prop} [Decidable p] {y z : Exec σ ε α} {Q : α → σ → Prop} :
    Wp (if p then y else z) s Q E ↔ (p → Wp y s Q E) ∧ (¬ p → Wp z s Q E) := by
  by_cases h : p <;> simp [h]

/-- **Consequence.** -/
theorem wp_mono {Q Q' : α → σ → Prop} (h : Wp x s Q E) (hQ : ∀ a s', Q a s' → Q' a s')
    (hE : ∀ e s', E e s' → E' e s') : Wp x s Q' E' := by
  unfold Wp at h ⊢
  rcases hx : x.run s with ⟨_ | _, s'⟩ <;> rw [hx] at h
  exacts [hE _ _ h, hQ _ _ h]

theorem wp_and {Q Q' : α → σ → Prop} (h : Wp x s Q E) (h' : Wp x s Q' E') :
    Wp x s (fun a s' => Q a s' ∧ Q' a s') (fun e s' => E e s' ∧ E' e s') := by
  unfold Wp at h h' ⊢
  rcases hx : x.run s with ⟨_ | _, s'⟩ <;> rw [hx] at h h' <;> exact ⟨h, h'⟩

/-- The rule read at a run that returned. -/
theorem Wp.ok {Q : α → σ → Prop} {a : α} {s' : σ} (h : Wp x s Q E)
    (hx : x.run s = (.ok a, s')) : Q a s' := by
  unfold Wp at h; rw [hx] at h; exact h

/-- The rule read at a run that raised. -/
theorem Wp.error {Q : α → σ → Prop} {e : ε} {s' : σ} (h : Wp x s Q E)
    (hx : x.run s = (.error e, s')) : E e s' := by
  unfold Wp at h; rw [hx] at h; exact h

/-- A program that never raises returns. -/
theorem Wp.returns {Q : α → σ → Prop} (h : Wp x s Q fun _ _ => False) :
    ∃ a s', x.run s = (.ok a, s') ∧ Q a s' := by
  unfold Wp at h
  rcases hx : x.run s with ⟨_ | a, s'⟩ <;> rw [hx] at h
  exacts [h.elim, ⟨a, s', rfl, h⟩]

theorem wp_trivial (x : Exec σ ε α) (s : σ) : Wp x s (fun _ _ => True) fun _ _ => True := by
  unfold Wp
  rcases x.run s with ⟨_ | _, s'⟩ <;> trivial

/-- **A step that does not matter**: what follows gets there from any state. -/
theorem wp_skip {Q : β → σ → Prop} (h : ∀ a s', Wp (f a) s' Q fun _ _ => True) :
    Wp (x >>= f) s Q fun _ _ => True :=
  wp_bind.2 (wp_mono (wp_trivial x s) (fun a s' _ => h a s') fun _ _ _ => trivial)

theorem wp_of_run {Q : α → σ → Prop}
    (hok : ∀ a s', x.run s = (.ok a, s') → Q a s')
    (herr : ∀ e s', x.run s = (.error e, s') → E e s') : Wp x s Q E := by
  unfold Wp
  rcases hx : x.run s with ⟨_ | _, s'⟩
  exacts [herr _ _ hx, hok _ _ hx]

/-- **Zooming.** A program on a part of the state leaves the rest to `put`. -/
@[simp] theorem wp_zoom {view : τ → σ} {put : σ → τ → τ} {t : τ} {Q : α → τ → Prop}
    {F : ε → τ → Prop} :
    Wp (zoom view put x) t Q F ↔
      Wp x (view t) (fun a s' => Q a (put s' t)) (fun e s' => F e (put s' t)) := by
  unfold Wp run zoom
  rcases x (view t) with ⟨_ | _, s'⟩ <;> rfl

/-- What a program returns, mapped. -/
@[simp] theorem wp_map {g : α → β} {Q : β → σ → Prop} :
    Wp (g <$> x) s Q E ↔ Wp x s (fun a s' => Q (g a) s') E := by
  change Wp (x >>= fun a => pure (g a)) s Q E ↔ _
  simp only [wp_bind, wp_ret]

/-! ## Raising sooner -/

/-- `y` runs like `x`, or raises `e` on the way. -/
def Within (e : ε) (y x : Exec σ ε α) : Prop := ∀ s, y.run s = x.run s ∨ ∃ s', y.run s = (.error e, s')

namespace Within

variable {e : ε} {y y₁ y₂ x₁ x₂ : Exec σ ε α} {g : α → Exec σ ε β}

theorem refl (e : ε) (x : Exec σ ε α) : Within e x x := fun _ => .inl rfl

theorem bind (h : Within e y x) (hg : ∀ a, Within e (g a) (f a)) : Within e (y >>= g) (x >>= f) := by
  intro s
  change Exec.bind y g s = Exec.bind x f s ∨ ∃ s', Exec.bind y g s = (.error e, s')
  unfold Exec.bind
  rcases h s with h | ⟨s', h⟩
  · change y s = x s at h
    rw [h]
    rcases x s with ⟨_ | a, s'⟩
    exacts [.inl rfl, hg a s']
  · change y s = _ at h
    rw [h]
    exact .inr ⟨s', rfl⟩

theorem map {g : α → β} (h : Within e y x) : Within e (g <$> y) (g <$> x) :=
  bind h fun _ => refl e _

theorem ite {p : Prop} [Decidable p] (h₁ : p → Within e y₁ x₁) (h₂ : ¬ p → Within e y₂ x₂) :
    Within e (if p then y₁ else y₂) (if p then x₁ else x₂) := by
  by_cases hp : p
  · simpa [hp] using h₁ hp
  · simpa [hp] using h₂ hp

/-- A step that is only taken sometimes. -/
theorem guard {p : Prop} [Decidable p] {y₀ x₀ : Exec σ ε Unit} {k l : Unit → Exec σ ε α}
    (h : Within e y₀ x₀) (hk : Within e (k ()) (l ())) :
    Within e (if p then y₀ >>= k else k ()) (if p then x₀ >>= l else l ()) :=
  ite (fun _ => bind h fun _ => hk) fun _ => hk

theorem lift {a b : Except ε α} (h : b = a ∨ b = .error e) :
    Within e (Exec.lift b : Exec σ ε α) (Exec.lift a) := by
  intro s
  rcases h with rfl | rfl
  exacts [.inl rfl, .inr ⟨s, rfl⟩]

theorem zoom {view : τ → σ} {put : σ → τ → τ} (h : Within e y x) :
    Within e (Exec.zoom view put y) (Exec.zoom view put x) := by
  intro t
  change (((y (view t)).1, put (y (view t)).2 t) : Except ε α × τ) = ((x (view t)).1, put (x (view t)).2 t) ∨
    ∃ t', (((y (view t)).1, put (y (view t)).2 t) : Except ε α × τ) = (.error e, t')
  rcases h (view t) with h | ⟨s', h⟩
  · change y (view t) = x (view t) at h
    exact .inl (by rw [h])
  · change y (view t) = _ at h
    exact .inr ⟨_, by rw [h]⟩

/-- Where the program that raises sooner returns, the other one does the same. -/
theorem ok (h : Within e y x) {a : α} {s' : σ} (hy : y.run s = (.ok a, s')) :
    x.run s = (.ok a, s') := by
  rcases h s with h | ⟨s'', h⟩
  · exact h ▸ hy
  · rw [h] at hy; cases hy

end Within

/-! ## Keeping a property -/

/-- `x` keeps the property `I` of the state, also when it raises. -/
def Maintains (I : σ → Prop) (x : Exec σ ε α) : Prop := ∀ s, I s → I (x.run s).2

namespace Maintains

variable {I : σ → Prop} {y : Exec σ ε α}

theorem pure (a : α) : Maintains I (Pure.pure a : Exec σ ε α) := fun _ h => h

theorem raise (e : ε) : Maintains I (Exec.raise e : Exec σ ε α) := fun _ h => h

theorem get : Maintains I (Exec.get : Exec σ ε σ) := fun _ h => h

theorem lift (a : Except ε α) : Maintains I (Exec.lift a : Exec σ ε α) := fun _ h => h

theorem modify {g : σ → σ} (h : ∀ s, I s → I (g s)) : Maintains I (Exec.modify g : Exec σ ε Unit) := h

theorem modifyGet {g : σ → α × σ} (h : ∀ s, I s → I (g s).2) :
    Maintains I (Exec.modifyGet g : Exec σ ε α) := h

theorem bind (h : Maintains I x) (hf : ∀ a, Maintains I (f a)) : Maintains I (x >>= f) := by
  intro s hs
  change I (Exec.bind x f s).2
  have := h s hs
  unfold run at this
  unfold Exec.bind
  rcases hx : x s with ⟨_ | a, s'⟩
  · rwa [hx] at this
  · rw [hx] at this
    exact hf a s' this

theorem ite {p : Prop} [Decidable p] (hx : Maintains I x) (hy : Maintains I y) :
    Maintains I (if p then x else y) := by
  by_cases hp : p
  · simpa [hp] using hx
  · simpa [hp] using hy

/-- A step that is only taken sometimes. -/
theorem guard {p : Prop} [Decidable p] {x : Exec σ ε Unit} {k : Unit → Exec σ ε α}
    (h : Maintains I x) (hk : Maintains I (k ())) : Maintains I (if p then x >>= k else k ()) :=
  ite (bind h fun _ => hk) hk

theorem zoom {J : τ → Prop} {view : τ → σ} {put : σ → τ → τ} (hv : ∀ t, J t → I (view t))
    (hp : ∀ s t, I s → J t → J (put s t)) (h : Maintains I x) : Maintains J (Exec.zoom view put x) :=
  fun t ht => hp _ t (h (view t) (hv t ht)) ht

/-- What is kept, as a rule for runs. -/
theorem wp (h : Maintains I x) (hs : I s) : Wp x s (fun _ s' => I s') fun _ s' => I s' := by
  have := h s hs
  unfold Wp
  rcases hx : x.run s with ⟨_ | _, s'⟩ <;> rwa [hx] at this

end Maintains

end Exec

end OmniJsonDb

import Mathlib.Data.List.Forall2
import OmniJsonDb.Lib.Raising

/-!
# Programs that are given ever more fuel

A family of programs, one for each amount of fuel, that raise `out` when it does not suffice.

* `Grows`: more fuel changes nothing but a run that ran out.
* `Settles`: what the family ends in; it is one thing only, and is kept from some amount on.
* `returns_bind`, `returns_mapM`, `raises_mapM`: what a sequence and a run over a list end in.
-/

namespace OmniJsonDb.Fuel

universe u

variable {ε : Type*} {α β : Type u} {out : ε}

/-- More fuel changes nothing but a run that ran out. -/
def Grows (out : ε) (x : ℕ → Except ε α) : Prop := ∀ n, x n = .error out ∨ x (n + 1) = x n

/-- The family ends in `r`. -/
def Settles (out : ε) (x : ℕ → Except ε α) (r : Except ε α) : Prop := r ≠ .error out ∧ ∃ n, x n = r

/-- The family ends with `a`. -/
def Returns (x : ℕ → Except ε α) (a : α) : Prop := ∃ n, x n = .ok a

variable {x : ℕ → Except ε α} {a : α} {r r' : Except ε α}

theorem returns_iff : Returns x a ↔ Settles out x (.ok a) := by
  constructor
  · intro h
    exact ⟨by simp, h⟩
  · intro h
    exact h.2

namespace Grows

theorem le (h : Grows out x) {n m : ℕ} (hn : x n ≠ .error out) (hnm : n ≤ m) : x m = x n := by
  induction hnm with
  | refl => rfl
  | step hnm ih =>
    rename_i m
    have hm : x m ≠ .error out := by rw [ih]; exact hn
    rw [(h m).resolve_left hm, ih]

theorem eventually (h : Grows out x) (hr : Settles out x r) : ∃ n, ∀ m ≥ n, x m = r := by
  obtain ⟨hne, n, rfl⟩ := hr
  exact ⟨n, fun m hm => h.le hne hm⟩

/-- There is one end. -/
theorem unique (h : Grows out x) (hr : Settles out x r) (hr' : Settles out x r') : r = r' := by
  obtain ⟨n, hn⟩ := h.eventually hr
  obtain ⟨m, hm⟩ := h.eventually hr'
  rw [← hn (max n m) (Nat.le_max_left n m), ← hm (max n m) (Nat.le_max_right n m)]

theorem const (r : Except ε α) : Grows out fun _ => r := fun _ => .inr rfl

theorem bind {f : ℕ → α → Except ε β} (h : Grows out x) (hf : ∀ a, Grows out fun n => f n a) :
    Grows out fun n => x n >>= f n := by
  intro n
  rcases h n with hn | hn
  · left
    simp only [hn]
    rfl
  · cases hx : x n with
    | error e =>
      right
      rw [hx] at hn
      simp only [hx, hn]
      rfl
    | ok a =>
      rw [hx] at hn
      simp only [hx, hn]
      exact hf a n

theorem mapM {γ : Type u} {f : ℕ → γ → Except ε β} (hf : ∀ c, Grows out fun n => f n c) (cs : List γ) :
    Grows out fun n => cs.mapM (f n) := by
  induction cs with
  | nil => exact const _
  | cons c cs ih =>
    simp only [List.mapM_cons]
    exact bind (hf c) fun b => bind ih fun bs => const _

end Grows

/-- **A sequence** ends where its second part does. -/
theorem returns_bind {f : ℕ → α → Except ε β} (h : Grows out x) (hf : ∀ a, Grows out fun n => f n a) {b : β} :
    Returns (fun n => x n >>= f n) b ↔ ∃ a, Returns x a ∧ Returns (fun n => f n a) b := by
  constructor
  · rintro ⟨n, hn⟩
    cases hx : x n with
    | error e =>
      simp only [hx] at hn
      cases hn
    | ok a =>
      simp only [hx] at hn
      exact ⟨a, ⟨n, hx⟩, n, hn⟩
  · rintro ⟨a, hx, hfa⟩
    obtain ⟨n, hn⟩ := h.eventually (returns_iff.1 hx)
    obtain ⟨m, hm⟩ := (hf a).eventually (returns_iff.1 hfa)
    refine ⟨max n m, ?_⟩
    simp only [hn (max n m) (Nat.le_max_left n m)]
    exact hm (max n m) (Nat.le_max_right n m)

theorem returns_const {b : β} {y : Except ε β} : Returns (fun _ => y) b ↔ y = .ok b :=
  ⟨fun ⟨_, h⟩ => h, fun h => ⟨0, h⟩⟩

/-- A sequence whose second part needs no fuel. -/
theorem returns_then {y : α → Except ε β} {b : β} : Returns (fun n => x n >>= y) b ↔ ∃ a, Returns x a ∧ y a = .ok b := by
  constructor
  · rintro ⟨n, hn⟩
    cases hx : x n with
    | error e =>
      simp only [hx] at hn
      cases hn
    | ok a =>
      simp only [hx] at hn
      exact ⟨a, ⟨n, hx⟩, hn⟩
  · rintro ⟨a, ⟨n, hn⟩, hy⟩
    refine ⟨n, ?_⟩
    simp only [hn]
    exact hy

/-- A result that is only passed on. -/
theorem returns_map {g : α → β} {b : β} : Returns (fun n => do return g (← x n)) b ↔ ∃ a, Returns x a ∧ g a = b := by
  rw [returns_then]
  have hpure : ∀ a, (pure (g a) : Except ε β) = .ok b ↔ g a = b := fun a => ⟨Except.ok.inj, congrArg _⟩
  simp only [hpure]

/-- **A run over a list** ends element by element. -/
theorem returns_mapM {γ : Type u} {f : ℕ → γ → Except ε β} (hf : ∀ c, Grows out fun n => f n c) {cs : List γ} {bs : List β} :
    Returns (fun n => cs.mapM (f n)) bs ↔ List.Forall₂ (fun c b => Returns (fun n => f n c) b) cs bs := by
  constructor
  · rintro ⟨n, hn⟩
    exact (Raising.mapM_ok hn).imp fun c b hcb => ⟨n, hcb⟩
  · intro h
    induction h with
    | nil => exact ⟨0, rfl⟩
    | cons hcb _ ih =>
      rename_i c b cs bs _
      simp only [List.mapM_cons]
      have hrest : ∀ b, Grows out fun n => cs.mapM (f n) >>= fun bs => (pure (b :: bs) : Except ε (List β)) := by
        intro b
        exact Grows.bind (Grows.mapM hf cs) fun bs => Grows.const _
      refine (returns_bind (hf c) hrest).2 ⟨b, hcb, ?_⟩
      exact returns_map.2 ⟨bs, ih, rfl⟩

/-- It is ended by the first element that raises. -/
theorem raises_mapM {γ : Type u} {f : ℕ → γ → Except ε β} (hf : ∀ c, Grows out fun n => f n c) {pre post : List γ} {c : γ}
    {err : ε} (hpre : ∀ d ∈ pre, ∃ b, Returns (fun n => f n d) b) (hne : err ≠ out) (hc : ∃ n, f n c = .error err) :
    ∃ n, (pre ++ c :: post).mapM (f n) = .error err := by
  induction pre with
  | nil =>
    obtain ⟨n, hn⟩ := hc
    refine ⟨n, ?_⟩
    rw [List.nil_append, List.mapM_cons, hn]
    rfl
  | cons d pre ih =>
    rw [List.forall_mem_cons] at hpre
    obtain ⟨b, hb⟩ := hpre.1
    obtain ⟨m, hm⟩ := ih hpre.2
    obtain ⟨n, hn⟩ := (hf d).eventually (returns_iff.1 hb)
    have hrest : (pre ++ c :: post).mapM (f m) ≠ .error out := by
      rw [hm]
      exact fun hc => hne (Except.error.inj hc)
    have hlater := (Grows.mapM hf (pre ++ c :: post)).le hrest (Nat.le_max_right n m)
    refine ⟨max n m, ?_⟩
    rw [List.cons_append, List.mapM_cons, hn _ (Nat.le_max_left n m)]
    change ((pre ++ c :: post).mapM (f (max n m)) >>= fun bs => pure (b :: bs)) = _
    rw [hlater, hm]
    rfl

end OmniJsonDb.Fuel

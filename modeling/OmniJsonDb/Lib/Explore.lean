import Mathlib.Data.List.Nodup
import Mathlib.Logic.Relation
import Mathlib.Tactic.Common

/-!
# Pre-order

The order in which a depth-first search enters nodes, over any nodes and any lists of neighbours, when
some nodes have been visited before.

* `Visits`: what the search enters, and what has been visited afterwards.
* `Unmet`: a node is led to without a step on what has been visited.
* `Visits.mem_iff`: the search enters what is led to and nothing else; `Visits.nodup`: once.
* `unseen`: how many nodes have not been visited, which bounds how deep the search goes.
-/

namespace OmniJsonDb

namespace Explore

variable {α : Type*} {next : α → List α} {x y : α} {ys zs path more vis vis' vis₁ vis₂ nodes : List α}

/-- From the nodes `ys` one after the other, each with all that it leads to before the next. -/
inductive Visits (next : α → List α) : List α → List α → List α → List α → Prop
  | done (vis : List α) : Visits next [] vis [] vis
  | again {y : α} {ys vis path vis' : List α} : y ∈ vis → Visits next ys vis path vis' →
      Visits next (y :: ys) vis path vis'
  | enter {y : α} {ys vis path vis₁ more vis₂ : List α} : y ∉ vis → Visits next (next y) (y :: vis) path vis₁ →
      Visits next ys vis₁ more vis₂ → Visits next (y :: ys) vis (y :: (path ++ more)) vis₂

namespace Visits

/-- One list of nodes after another. -/
theorem append (h : Visits next ys vis path vis₁) (h' : Visits next zs vis₁ more vis₂) :
    Visits next (ys ++ zs) vis (path ++ more) vis₂ := by
  induction h with
  | done => exact h'
  | again hy _ ih => exact .again hy (ih h')
  | enter hy hin _ _ ih =>
    rw [List.cons_append, List.cons_append, List.append_assoc]
    exact .enter hy hin (ih h')

/-- What has been visited is what was, and what has been entered. -/
theorem mem_visited (h : Visits next ys vis path vis') : x ∈ vis' ↔ x ∈ path ∨ x ∈ vis := by
  induction h with
  | done => simp
  | again _ _ ih => exact ih
  | enter _ _ _ ih ih' =>
    rw [ih', ih, List.mem_cons, List.mem_cons, List.mem_append]
    tauto

theorem not_mem_visited (h : Visits next ys vis path vis') (hx : x ∈ path) : x ∉ vis := by
  induction h with
  | done => exact absurd hx List.not_mem_nil
  | again _ _ ih => exact ih hx
  | enter hy hin _ ih ih' =>
    rcases List.mem_cons.1 hx with rfl | hx
    · exact hy
    rcases List.mem_append.1 hx with hx | hx
    · exact fun hvis => ih hx (List.mem_cons_of_mem _ hvis)
    · exact fun hvis => ih' hx (hin.mem_visited.2 (.inr (List.mem_cons_of_mem _ hvis)))

/-- **No node is entered twice.** -/
theorem nodup (h : Visits next ys vis path vis') : path.Nodup := by
  induction h with
  | done => exact List.nodup_nil
  | again _ _ ih => exact ih
  | @enter y ys vis path vis₁ more vis₂ _ hin hrest ih ih' =>
    rw [List.nodup_cons, List.mem_append, not_or]
    refine ⟨⟨?_, ?_⟩, List.nodup_append'.2 ⟨ih, ih', ?_⟩⟩
    · intro hy
      exact hin.not_mem_visited hy List.mem_cons_self
    · intro hy
      exact hrest.not_mem_visited hy (hin.mem_visited.2 (.inr List.mem_cons_self))
    · intro z hz hz'
      exact hrest.not_mem_visited hz' (hin.mem_visited.2 (.inl hz))

/-- Where the search began has been visited. -/
theorem begun (h : Visits next ys vis path vis') (hy : y ∈ ys) : y ∈ vis' := by
  induction h with
  | done => exact absurd hy List.not_mem_nil
  | again hz hrest ih =>
    rcases List.mem_cons.1 hy with rfl | hy
    · exact hrest.mem_visited.2 (.inr hz)
    · exact ih hy
  | enter _ hin hrest _ ih' =>
    rcases List.mem_cons.1 hy with rfl | hy
    · exact hrest.mem_visited.2 (.inr (hin.mem_visited.2 (.inr List.mem_cons_self)))
    · exact ih' hy

/-- What has been entered leads to nothing that has not been visited. -/
theorem closed (h : Visits next ys vis path vis') (hx : x ∈ path) (hxy : y ∈ next x) : y ∈ vis' := by
  induction h with
  | done => exact absurd hx List.not_mem_nil
  | again _ _ ih => exact ih hx
  | enter _ hin hrest ih ih' =>
    rcases List.mem_cons.1 hx with rfl | hx
    · exact hrest.mem_visited.2 (.inr (hin.begun hxy))
    rcases List.mem_append.1 hx with hx | hx
    · exact hrest.mem_visited.2 (.inr (ih hx))
    · exact ih' hx

end Visits

/-! ## What is led to -/

/-- `y` leads to `x`, and nothing on the way, the two of them included, has been visited. -/
def Unmet (R : α → α → Prop) (vis : List α) (y x : α) : Prop :=
  y ∉ vis ∧ Relation.ReflTransGen (fun a b => R a b ∧ b ∉ vis) y x

theorem Unmet.mono {R : α → α → Prop} (h : Unmet R vis' y x) (hsub : ∀ z ∈ vis, z ∈ vis') : Unmet R vis y x := by
  refine ⟨fun hy => h.1 (hsub y hy), Relation.ReflTransGen.mono ?_ y x h.2⟩
  intro a b hab
  exact ⟨hab.1, fun hb => hab.2 (hsub b hb)⟩

namespace Visits

/-- What has been entered is led to. -/
theorem led (h : Visits next ys vis path vis') (hx : x ∈ path) : ∃ y ∈ ys, Unmet (fun a b => b ∈ next a) vis y x := by
  induction h with
  | done => exact absurd hx List.not_mem_nil
  | again _ _ ih =>
    obtain ⟨z, hz, hled⟩ := ih hx
    exact ⟨z, List.mem_cons_of_mem _ hz, hled⟩
  | @enter y ys vis path vis₁ more vis₂ hy hin _ ih ih' =>
    rcases List.mem_cons.1 hx with rfl | hx
    · exact ⟨x, List.mem_cons_self, hy, .refl⟩
    rcases List.mem_append.1 hx with hx | hx
    · -- by way of a neighbour of `y`
      obtain ⟨z, hz, hled⟩ := ih hx
      have hmono := hled.mono fun a ha => List.mem_cons_of_mem y ha
      exact ⟨y, List.mem_cons_self, hy, .head ⟨hz, hmono.1⟩ hmono.2⟩
    · obtain ⟨z, hz, hled⟩ := ih' hx
      refine ⟨z, List.mem_cons_of_mem _ hz, hled.mono ?_⟩
      intro a ha
      exact hin.mem_visited.2 (.inr (List.mem_cons_of_mem _ ha))

/-- **The search enters what is led to**, and nothing else. -/
theorem mem_iff (h : Visits next ys vis path vis') : x ∈ path ↔ ∃ y ∈ ys, Unmet (fun a b => b ∈ next a) vis y x := by
  constructor
  · exact h.led
  · rintro ⟨y, hy, hout, hled⟩
    induction hled with
    | refl => exact (h.mem_visited.1 (h.begun hy)).resolve_right hout
    | tail _ hstep ih => exact (h.mem_visited.1 (h.closed ih hstep.1)).resolve_right hstep.2

end Visits

/-! ## How deep it goes -/

section Unseen

variable [DecidableEq α]

/-- How many nodes have not been visited. -/
def unseen (nodes vis : List α) : ℕ := nodes.countP fun x => x ∉ vis

theorem Visits.unseen_le (h : Visits next ys vis path vis') : unseen nodes vis' ≤ unseen nodes vis := by
  unfold unseen
  refine List.countP_mono_left ?_
  intro x _ hx
  rw [decide_eq_true_eq] at hx ⊢
  exact fun hin => hx (h.mem_visited.2 (.inr hin))

/-- **A node that is entered** is one less. -/
theorem unseen_enter (hx : x ∈ nodes) (hout : x ∉ vis) : unseen nodes (x :: vis) < unseen nodes vis := by
  have hle : ∀ zs : List α, unseen zs (x :: vis) ≤ unseen zs vis := by
    intro zs
    refine List.countP_mono_left ?_
    intro z _ hz
    rw [decide_eq_true_eq] at hz ⊢
    exact fun hin => hz (List.mem_cons_of_mem _ hin)
  induction nodes with
  | nil => exact absurd hx List.not_mem_nil
  | cons z zs ih =>
    unfold unseen at ih hle ⊢
    rw [List.countP_cons, List.countP_cons]
    by_cases hz : z = x
    · subst hz
      have hin : decide (z ∉ z :: vis) = false := by simp
      have hnew : decide (z ∉ vis) = true := decide_eq_true hout
      have := hle zs
      rw [hin, hnew, if_neg Bool.false_ne_true, if_pos rfl]
      omega
    · have hsame : decide (z ∉ x :: vis) = decide (z ∉ vis) := by simp [hz]
      have := ih ((List.mem_cons.1 hx).resolve_left fun heq => hz heq.symm)
      rw [hsame]
      omega

end Unseen

end Explore

end OmniJsonDb

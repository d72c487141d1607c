import Mathlib.Algebra.Order.Monoid.Defs
import Mathlib.Data.List.Nodup
import Mathlib.Data.List.Perm.Subperm
import OmniJsonDb.Lib.Waves

/-!
# Lightest ways

What a search by weight keeps, over any nodes, any lists of weighed neighbours and any ordered weights.
A pair that is no longer the best for its node stays on the heap until it comes up.

* `Costs`: a way and what it weighs.
* `Search`: the invariant; `b` is the weight of what was settled last.
* `Search.skip`, `Search.settle`, `Search.keep`, `Search.lower`: the moves keep it.
* `Search.bound`, `Search.answer`: what comes up is the lightest.
-/

namespace OmniJsonDb

namespace Lightest

open Waves

variable {α W : Type*} [AddCommMonoid W]

/-- A way from `s`, what it weighs, and where it ends. -/
inductive Costs (E : α → α → W → Prop) (s : α) : W → α → List α → Prop
  | here : Costs E s 0 s [s]
  | step {d w : W} {x y : α} {p : List α} : Costs E s d x p → E x y w → Costs E s (d + w) y (p ++ [y])

/-- A way ends where its steps lead. -/
theorem Costs.holds {E : α → α → W → Prop} {s x : α} {d : W} {p : List α} (h : Costs E s d x p) {q : α → Prop} (hs : q s)
    (hE : ∀ a b w, E a b w → q b) : q x := by
  cases h with
  | here => exact hs
  | step _ hxy => exact hE _ _ _ hxy

/-- What is written down about nodes that the way back does not visit does not matter. -/
theorem traces_congr {parent parent' : α → Option (Option α)} {x : α} {p : List α} (h : Traces parent x p)
    (hp : ∀ y ∈ p, parent' y = parent y) : Traces parent' x p := by
  induction h with
  | @root x hx =>
    refine .root ?_
    rw [hp x List.mem_cons_self]
    exact hx
  | @up x y p hx _ ih =>
    refine .up ?_ (ih fun z hz => hp z (List.mem_cons_of_mem _ hz))
    rw [hp x List.mem_cons_self]
    exact hx

variable [LinearOrder W] {next : α → List (α × W)} {s c x y : α} {b d w : W} {todo : List (α × W)} {done : List α}
  {dist dist' : α → Option W} {parent parent' : α → Option (Option α)} {heap heap' : List (W × α)}

/-- **The invariant**: `done` has been settled, of the last of them, `c`, the neighbours `todo` are
still to be looked at. -/
structure Search (next : α → List (α × W)) (s : α) (b : W) (c : α) (todo : List (α × W)) (done : List α)
    (dist : α → Option W) (parent : α → Option (Option α)) (heap : List (W × α)) : Prop where
  start : dist s = some 0
  nonneg : 0 ≤ b
  edge : ∀ x ∈ done, ∀ y w, (y, w) ∈ next x →
    (x = c ∧ (y, w) ∈ todo) ∨ ∃ dx dy, dist x = some dx ∧ dist y = some dy ∧ dy ≤ dx + w
  queued : ∀ x d, dist x = some d → x ∉ done → (d, x) ∈ heap
  known : ∀ e ∈ heap, ∃ d ≤ e.1, dist e.2 = some d
  nodup : heap.Nodup
  within : ∀ x ∈ done, ∀ d, dist x = some d → d ≤ b
  beyond : ∀ e ∈ heap, b ≤ e.1
  later : ∀ x ∈ done, ∀ d, dist x = some d → ∀ e ∈ heap, e.2 = x → d < e.1
  traced : ∀ x ∈ done, ∃ d p, dist x = some d ∧ Traces parent x p ∧
    Costs (fun a b w => (b, w) ∈ next a) s d x p.reverse ∧ p.Nodup ∧ ∀ y ∈ p, y ∈ done
  pending : ∀ x d, dist x = some d → x ∉ done → (x = s ∧ d = 0 ∧ parent x = some none) ∨
    ∃ y ∈ done, ∃ dy w, dist y = some dy ∧ parent x = some (some y) ∧ (x, w) ∈ next y ∧ d = dy + w
  once : done.Nodup

namespace Search

/-- The search starts. -/
theorem init (hs : dist s = some 0) (ho : ∀ x, x ≠ s → dist x = none) (hp : parent s = some none) :
    Search next s 0 s [] [] dist parent [(0, s)] where
  start := hs
  nonneg := le_rfl
  edge x hx := absurd hx List.not_mem_nil
  queued x d hd _ := by
    by_cases hx : x = s
    · subst hx
      rw [hs] at hd
      rw [← Option.some.inj hd]
      exact List.mem_singleton_self _
    · rw [ho x hx] at hd
      cases hd
  known e he := by
    rw [List.mem_singleton] at he
    rw [he]
    exact ⟨0, le_rfl, hs⟩
  nodup := List.nodup_singleton _
  within x hx := absurd hx List.not_mem_nil
  beyond e he := by
    rw [List.mem_singleton] at he
    rw [he]
  later x hx := absurd hx List.not_mem_nil
  traced x hx := absurd hx List.not_mem_nil
  pending x d hd _ := by
    by_cases hx : x = s
    · subst hx
      rw [hs] at hd
      exact .inl ⟨rfl, (Option.some.inj hd).symm, hp⟩
    · rw [ho x hx] at hd
      cases hd
  once := List.nodup_nil

/-- A pair that is not the best any more comes off. -/
theorem skip (h : Search next s b c todo done dist parent ((d, x) :: heap)) {d' : W} (hd : dist x = some d') (hlt : d' < d) :
    Search next s b c todo done dist parent heap where
  start := h.start
  nonneg := h.nonneg
  edge := h.edge
  queued y dy hy hno := by
    rcases List.mem_cons.1 (h.queued y dy hy hno) with heq | hin
    · obtain ⟨rfl, rfl⟩ := Prod.mk.inj heq
      rw [hd] at hy
      exact absurd (Option.some.inj hy) hlt.ne
    · exact hin
  known e he := h.known e (List.mem_cons_of_mem _ he)
  nodup := (List.nodup_cons.1 h.nodup).2
  within := h.within
  beyond e he := h.beyond e (List.mem_cons_of_mem _ he)
  later y hy dy hdy e he := h.later y hy dy hdy e (List.mem_cons_of_mem _ he)
  traced := h.traced
  pending := h.pending
  once := h.once

/-- What comes up as the best of its node has not been settled. -/
theorem not_done (h : Search next s b c todo done dist parent ((d, x) :: heap)) (hd : dist x = some d) : x ∉ done := by
  intro hx
  exact lt_irrefl d (h.later x hx d hd _ List.mem_cons_self rfl)

/-- The way back from what comes up. -/
theorem trace_head (h : Search next s b c todo done dist parent heap) (hd : dist x = some d) (hx : x ∉ done) :
    ∃ p, Traces parent x p ∧ Costs (fun a b w => (b, w) ∈ next a) s d x p.reverse ∧ p.Nodup ∧ ∀ y ∈ p, y = x ∨ y ∈ done := by
  rcases h.pending x d hd hx with ⟨rfl, rfl, hp⟩ | ⟨y, hy, dy, w, hdy, hp, hnext, rfl⟩
  · refine ⟨[x], .root hp, .here, List.nodup_singleton x, ?_⟩
    intro y hy
    exact .inl (List.mem_singleton.1 hy)
  · obtain ⟨dy', p, hdy', htr, hcost, hnodup, hin⟩ := h.traced y hy
    have hsame : dy' = dy := Option.some.inj (hdy'.symm.trans hdy)
    subst hsame
    refine ⟨x :: p, .up hp htr, ?_, ?_, ?_⟩
    · rw [List.reverse_cons]
      exact hcost.step hnext
    · refine List.nodup_cons.2 ⟨?_, hnodup⟩
      intro hxp
      exact hx (hin x hxp)
    · intro z hz
      rcases List.mem_cons.1 hz with rfl | hz
      · exact .inl rfl
      · exact .inr (hin z hz)

/-- When nothing is to be looked at, every step from what has been settled has been. -/
theorem edge_nil (h : Search next s b c [] done dist parent heap) (hx : x ∈ done) (hxy : (y, w) ∈ next x) :
    ∃ dx dy, dist x = some dx ∧ dist y = some dy ∧ dy ≤ dx + w := by
  rcases h.edge x hx y w hxy with ⟨-, hno⟩ | hright
  · exact absurd hno List.not_mem_nil
  · exact hright

/-- **The best comes up** and is settled; its neighbours are to be looked at. -/
theorem settle (h : Search next s b c [] done dist parent ((d, x) :: heap)) (hd : dist x = some d)
    (hmin : ∀ e ∈ heap, d ≤ e.1) : Search next s d x (next x) (x :: done) dist parent heap := by
  have hx : x ∉ done := h.not_done hd
  have hbd : b ≤ d := h.beyond _ List.mem_cons_self
  refine ⟨h.start, h.nonneg.trans hbd, ?_, ?_, ?_, (List.nodup_cons.1 h.nodup).2, ?_, hmin, ?_, ?_, ?_,
    List.nodup_cons.2 ⟨hx, h.once⟩⟩
  · intro y hy z w hz
    rcases List.mem_cons.1 hy with rfl | hy
    · exact .inl ⟨rfl, hz⟩
    · exact .inr (h.edge_nil hy hz)
  · intro y dy hdy hy
    rw [List.mem_cons, not_or] at hy
    rcases List.mem_cons.1 (h.queued y dy hdy hy.2) with heq | hin
    · exact absurd (Prod.mk.inj heq).2 hy.1
    · exact hin
  · intro e he
    exact h.known e (List.mem_cons_of_mem _ he)
  · intro y hy dy hdy
    rcases List.mem_cons.1 hy with rfl | hy
    · rw [hd] at hdy
      exact (Option.some.inj hdy).ge
    · exact (h.within y hy dy hdy).trans hbd
  · intro y hy dy hdy e he hey
    rcases List.mem_cons.1 hy with rfl | hy
    · have hdyd : d = dy := Option.some.inj (hd.symm.trans hdy)
      subst hdyd
      refine lt_of_le_of_ne (hmin e he) ?_
      -- no pair is on the heap twice
      intro hne
      have hpair : e = (d, y) := Prod.ext hne.symm hey
      exact (List.nodup_cons.1 h.nodup).1 (hpair ▸ he)
    · exact h.later y hy dy hdy e (List.mem_cons_of_mem _ he) hey
  · intro y hy
    rcases List.mem_cons.1 hy with rfl | hy
    · obtain ⟨p, htr, hcost, hnodup, hin⟩ := h.trace_head hd hx
      exact ⟨d, p, hd, htr, hcost, hnodup, fun z hz => List.mem_cons.2 (hin z hz)⟩
    · obtain ⟨dy, p, hdy, htr, hcost, hnodup, hin⟩ := h.traced y hy
      exact ⟨dy, p, hdy, htr, hcost, hnodup, fun z hz => List.mem_cons_of_mem _ (hin z hz)⟩
  · intro y dy hdy hy
    rw [List.mem_cons, not_or] at hy
    rcases h.pending y dy hdy hy.2 with hstart | ⟨z, hz, hrest⟩
    · exact .inl hstart
    · exact .inr ⟨z, List.mem_cons_of_mem _ hz, hrest⟩

/-- A neighbour that is near already. -/
theorem keep (h : Search next s b c ((y, w) :: todo) done dist parent heap) (hb : dist c = some b) {dy : W}
    (hdy : dist y = some dy) (hle : dy ≤ b + w) : Search next s b c todo done dist parent heap :=
  ⟨h.start, h.nonneg, by
    intro x hx z v hz
    rcases h.edge x hx z v hz with ⟨rfl, hin⟩ | hright
    · rcases List.mem_cons.1 hin with heq | hin
      · obtain ⟨rfl, rfl⟩ := Prod.mk.inj heq
        exact .inr ⟨b, dy, hb, hdy, hle⟩
      · exact .inl ⟨rfl, hin⟩
    · exact .inr hright, h.queued, h.known, h.nodup, h.within, h.beyond, h.later, h.traced, h.pending, h.once⟩

variable [IsOrderedAddMonoid W]

/-- **A neighbour that is nearer now.** -/
theorem lower (h : Search next s b c ((y, w) :: todo) done dist parent heap) (hc : c ∈ done) (hb : dist c = some b)
    (hw : 0 ≤ w) (hnext : (y, w) ∈ next c) (hlt : ∀ dy, dist y = some dy → b + w < dy)
    (hy' : dist' y = some (b + w)) (hdist : ∀ x, x ≠ y → dist' x = dist x) (hp' : parent' y = some (some c))
    (hparent : ∀ x, x ≠ y → parent' x = parent x) (hheap : heap'.Perm ((b + w, y) :: heap)) :
    Search next s b c todo done dist' parent' heap' := by
  have hbw : b ≤ b + w := le_add_of_nonneg_right hw
  -- what has been settled is no further away than `c`
  have hy : y ∉ done := by
    intro hin
    obtain ⟨dy, p, hdy, -⟩ := h.traced y hin
    exact absurd (hlt dy hdy) (not_lt.2 ((h.within y hin dy hdy).trans hbw))
  have hdone : ∀ x ∈ done, x ≠ y := by
    rintro x hx rfl
    exact hy hx
  have hmem : ∀ e, e ∈ heap' ↔ e = (b + w, y) ∨ e ∈ heap := by
    intro e
    rw [hheap.mem_iff, List.mem_cons]
  refine ⟨?_, h.nonneg, ?_, ?_, ?_, ?_, ?_, ?_, ?_, ?_, ?_, h.once⟩
  · rw [hdist s, h.start]
    rintro rfl
    exact absurd (hlt 0 h.start) (not_lt.2 (h.nonneg.trans hbw))
  · intro x hx z v hz
    rcases h.edge x hx z v hz with ⟨rfl, hin⟩ | ⟨dx, dz, hdx, hdz, hle⟩
    · rcases List.mem_cons.1 hin with heq | hin
      · obtain ⟨rfl, rfl⟩ := Prod.mk.inj heq
        refine .inr ⟨b, b + v, ?_, hy', le_rfl⟩
        rw [hdist x (hdone x hx)]
        exact hb
      · exact .inl ⟨rfl, hin⟩
    · have hdx' : dist' x = some dx := by rw [hdist x (hdone x hx)]; exact hdx
      by_cases hzy : z = y
      · subst hzy
        exact .inr ⟨dx, b + w, hdx', hy', (hlt dz hdz).le.trans hle⟩
      · exact .inr ⟨dx, dz, hdx', by rw [hdist z hzy]; exact hdz, hle⟩
  · intro x dx hdx hx
    by_cases hxy : x = y
    · subst hxy
      have heq : b + w = dx := Option.some.inj (hy'.symm.trans hdx)
      exact (hmem _).2 (.inl (by rw [heq]))
    · rw [hdist x hxy] at hdx
      exact (hmem _).2 (.inr (h.queued x dx hdx hx))
  · intro e he
    rcases (hmem e).1 he with rfl | he
    · exact ⟨b + w, le_rfl, hy'⟩
    · obtain ⟨de, hle, hde⟩ := h.known e he
      by_cases hey : e.2 = y
      · rw [hey] at hde
        refine ⟨b + w, (hlt de hde).le.trans hle, ?_⟩
        rw [hey]
        exact hy'
      · exact ⟨de, hle, by rw [hdist _ hey]; exact hde⟩
  · rw [hheap.nodup_iff, List.nodup_cons]
    refine ⟨?_, h.nodup⟩
    intro hin
    obtain ⟨de, hle, hde⟩ := h.known _ hin
    exact absurd (hlt de hde) (not_lt.2 hle)
  · intro x hx dx hdx
    rw [hdist x (hdone x hx)] at hdx
    exact h.within x hx dx hdx
  · intro e he
    rcases (hmem e).1 he with rfl | he
    · exact hbw
    · exact h.beyond e he
  · intro x hx dx hdx e he hex
    rw [hdist x (hdone x hx)] at hdx
    rcases (hmem e).1 he with rfl | he
    · exact absurd hex.symm (hdone x hx)
    · exact h.later x hx dx hdx e he hex
  · intro x hx
    obtain ⟨dx, p, hdx, htr, hcost, hnodup, hin⟩ := h.traced x hx
    refine ⟨dx, p, ?_, traces_congr htr fun z hz => hparent z (hdone z (hin z hz)), hcost, hnodup, hin⟩
    rw [hdist x (hdone x hx)]
    exact hdx
  · intro x dx hdx hx
    by_cases hxy : x = y
    · subst hxy
      have heq : b + w = dx := Option.some.inj (hy'.symm.trans hdx)
      refine .inr ⟨c, hc, b, w, ?_, hp', hnext, heq.symm⟩
      rw [hdist c (hdone c hc)]
      exact hb
    · rw [hdist x hxy] at hdx
      rcases h.pending x dx hdx hx with ⟨rfl, rfl, hp⟩ | ⟨z, hz, dz, v, hdz, hp, hzx, rfl⟩
      · exact .inl ⟨rfl, rfl, by rw [hparent x hxy]; exact hp⟩
      · exact .inr ⟨z, hz, dz, v, by rw [hdist z (hdone z hz)]; exact hdz, by rw [hparent x hxy]; exact hp, hzx, rfl⟩

/-- **No way is lighter**: where it leads has been settled within its weight, or something on the heap
is no heavier. -/
theorem bound (h : Search next s b c [] done dist parent heap) (hw : ∀ x y w, (y, w) ∈ next x → 0 ≤ w) {p : List α}
    (hp : Costs (fun a b w => (b, w) ∈ next a) s d x p) :
    (x ∈ done ∧ ∃ dx ≤ d, dist x = some dx) ∨ ∃ e ∈ heap, e.1 ≤ d := by
  have hstep : ∀ x dx, dist x = some dx → ∀ d, dx ≤ d → (x ∈ done ∧ ∃ dx ≤ d, dist x = some dx) ∨ ∃ e ∈ heap, e.1 ≤ d := by
    intro x dx hdx d hle
    by_cases hx : x ∈ done
    · exact .inl ⟨hx, dx, hle, hdx⟩
    · exact .inr ⟨(dx, x), h.queued x dx hdx hx, hle⟩
  induction hp with
  | here => exact hstep s 0 h.start 0 le_rfl
  | @step d w x y p _ hxy ih =>
    rcases ih with ⟨hx, dx, hle, hdx⟩ | ⟨e, he, hle⟩
    · obtain ⟨dx', dy, hdx', hdy, hle'⟩ := h.edge_nil hx hxy
      have hsame : dx' = dx := Option.some.inj (hdx'.symm.trans hdx)
      rw [hsame] at hle'
      exact hstep y dy hdy (d + w) (hle'.trans (add_le_add_left hle w))
    · exact .inr ⟨e, he, hle.trans (le_add_of_nonneg_right (hw x y w hxy))⟩

/-- **What comes up** unsettled weighs what the heap says, by a way that is as light as any. -/
theorem answer (h : Search next s b c [] done dist parent ((d, x) :: heap)) (hx : x ∉ done) (hmin : ∀ e ∈ heap, d ≤ e.1)
    (hw : ∀ x y w, (y, w) ∈ next x → 0 ≤ w) :
    ∃ p, Traces parent x p ∧ Costs (fun a b w => (b, w) ∈ next a) s d x p.reverse ∧ p.length ≤ done.length + 1 ∧
      ∀ d' q, Costs (fun a b w => (b, w) ∈ next a) s d' x q → d ≤ d' := by
  obtain ⟨d', hle, hd'⟩ := h.known _ List.mem_cons_self
  have hall : ∀ e ∈ (d, x) :: heap, d ≤ e.1 := by
    intro e he
    rcases List.mem_cons.1 he with rfl | he
    · exact le_rfl
    · exact hmin e he
  have hd : d' = d := le_antisymm hle (hall _ (h.queued x d' hd' hx))
  subst hd
  obtain ⟨p, htr, hcost, hnodup, hin⟩ := h.trace_head hd' hx
  refine ⟨p, htr, hcost, ?_, ?_⟩
  · have hsub : p ⊆ x :: done := fun y hy => List.mem_cons.2 (hin y hy)
    have hlen := (List.subperm_of_subset hnodup hsub).length_le
    rwa [List.length_cons] at hlen
  · intro d' q hq
    rcases h.bound hw hq with ⟨hxd, -⟩ | ⟨e, he, hle⟩
    · exact absurd hxd hx
    · exact (hall e he).trans hle

end Search

end Lightest

end OmniJsonDb

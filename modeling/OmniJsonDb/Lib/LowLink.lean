import Mathlib.Data.Finset.Max
import Mathlib.Logic.Relation
import Mathlib.Tactic.Common

/-!
# Low links

What a depth-first search with low links keeps, over any nodes and any lists of neighbours. The
search has a path of nodes with the position each has got to, and a stack of the nodes that no
component has been made of.

* `Mutual`, `mutual_iff_mem`: classes of nodes that reach each other.
* `Search.Inv`: the invariant.
* `Inv.enter`, `Inv.advance`, `Inv.retreat`, `Inv.pop`: the four moves keep it.
-/

namespace OmniJsonDb

namespace LowLink

open Relation

variable {α : Type*}

/-! ## Classes -/

section Classes

variable {R : α → α → Prop} {u v w : α}

/-- Each reaches the other. -/
def Mutual (R : α → α → Prop) (u v : α) : Prop := ReflTransGen R u v ∧ ReflTransGen R v u

theorem Mutual.symm (h : Mutual R u v) : Mutual R v u := ⟨h.2, h.1⟩

theorem Mutual.trans (h : Mutual R u v) (h' : Mutual R v w) : Mutual R u w := ⟨h.1.trans h'.1, h'.2.trans h.2⟩

/-- What no edge leaves, no path leaves. -/
theorem mem_of_reach {D : α → Prop} (hD : ∀ a, D a → ∀ b, R a b → D b) (h : ReflTransGen R u v) (hu : D u) : D v := by
  induction h with
  | refl => exact hu
  | tail _ hstep ih => exact hD _ ih _ hstep

/-- **A class.** Where edges only lead from `C` into the closed `D`, and all of `C` goes to and fro
with one node, `C` is the class of each of its nodes. -/
theorem mutual_iff_mem {C D : α → Prop} (hD : ∀ a, D a → ∀ b, R a b → D b)
    (hC : ∀ a, C a → ∀ b, R a b → C b ∨ D b) (hdis : ∀ a, C a → ¬ D a) (hv : ∀ a, C a → Mutual R v a) (hu : C u) :
    C w ↔ Mutual R u w := by
  constructor
  · intro hw
    exact (hv u hu).symm.trans (hv w hw)
  · intro hw
    have hCD : C w ∨ D w := by
      refine mem_of_reach (D := fun a => C a ∨ D a) ?_ hw.1 (.inl hu)
      rintro a (ha | ha) b hab
      · exact hC a ha b hab
      · exact .inr (hD a ha b hab)
    rcases hCD with h | h
    · exact h
    · -- from the closed part there is no way back
      exact absurd (mem_of_reach hD hw.2 h) (hdis u hu)

end Classes

/-! ## The search -/

/-- The search: the path starts with where it is, the stack with what was met last. -/
structure Search (α : Type*) where
  rank : α → ℕ
  low : α → ℕ
  counter : ℕ
  stack : List α
  comps : List (List α)
  path : List (α × ℕ)

namespace Search

variable {next : α → List α} {s : Search α} {u v w x : α} {p : ℕ}

/-- The nodes that components have been made of. -/
def done (s : Search α) : List α := s.comps.flatten

/-- The nodes that have been met. -/
def Met (s : Search α) (v : α) : Prop := v ∈ s.stack ∨ v ∈ s.done

/-- The nodes of the path. -/
def grey (s : Search α) : List α := s.path.map Prod.fst

/-- One position further. -/
def bump : List (α × ℕ) → List (α × ℕ)
  | [] => []
  | (u, p) :: rest => (u, p + 1) :: rest

@[simp] theorem map_bump (path : List (α × ℕ)) : (bump path).map Prod.fst = path.map Prod.fst := by
  cases path <;> rfl

/-- An edge that has been looked at. -/
def Looked (next : α → List α) (path : List (α × ℕ)) (v w : α) : Prop :=
  w ∈ next v ∧ ∀ p, (v, p) ∈ path → w ∈ (next v).take p

/-- The last node of the path that was met no later than `v`. -/
structure Owns (s : Search α) (g v : α) : Prop where
  mem : g ∈ s.grey
  le : s.rank g ≤ s.rank v
  last : ∀ h ∈ s.grey, s.rank h ≤ s.rank v → s.rank h ≤ s.rank g

/-- **The invariant.** -/
structure Inv (next : α → List α) (s : Search α) : Prop where
  rank_lt : ∀ v, s.Met v → s.rank v < s.counter
  order : s.stack.Pairwise fun u v => s.rank v < s.rank u
  apart : ∀ v ∈ s.stack, v ∉ s.done
  nodup : s.done.Nodup
  closed : ∀ v ∈ s.done, ∀ w ∈ next v, w ∈ s.done
  classes : ∀ c ∈ s.comps, ∀ u ∈ c, ∀ w, w ∈ c ↔ Mutual (fun a b => b ∈ next a) u w
  onPath : ∀ g ∈ s.grey, g ∈ s.stack
  pathOrder : s.grey.Pairwise fun g h => s.rank h < s.rank g
  reaches : ∀ g ∈ s.grey, ∀ v ∈ s.stack, s.rank g ≤ s.rank v → ReflTransGen (fun a b => b ∈ next a) g v
  returns : ∀ v ∈ s.stack, ∃ g ∈ s.grey, s.rank g ≤ s.rank v ∧ ReflTransGen (fun a b => b ∈ next a) v g
  low_le : ∀ g ∈ s.grey, s.low g ≤ s.rank g
  low_spec : ∀ g ∈ s.grey, ∃ w ∈ s.stack, s.rank w = s.low g ∧ ReflTransGen (fun a b => b ∈ next a) g w
  seen : ∀ v ∈ s.stack, ∀ w, Looked next s.path v w → s.Met w
  bound : ∀ v ∈ s.stack, ∀ w ∈ s.stack, Looked next s.path v w → ∃ g, s.Owns g v ∧ s.low g ≤ s.rank w

theorem path_ne_nil (hg : u ∈ s.grey) : s.path ≠ [] := by
  intro hnil
  rw [grey, hnil] at hg
  cases hg

/-- Nothing is on the path any more. -/
theorem Inv.stack_eq_nil (h : Inv next s) (hp : s.path = []) : s.stack = [] := by
  rw [List.eq_nil_iff_forall_not_mem]
  intro v hv
  obtain ⟨g, hg, -⟩ := h.returns v hv
  rw [grey, hp] at hg
  cases hg

/-- Every node of the stack has its place on the path. -/
theorem Inv.exists_owns [DecidableEq α] (h : Inv next s) (hv : v ∈ s.stack) : ∃ g, s.Owns g v := by
  obtain ⟨g₀, hg₀, hle, -⟩ := h.returns v hv
  have hne : (s.grey.toFinset.filter fun g => s.rank g ≤ s.rank v).Nonempty :=
    ⟨g₀, by simpa using ⟨hg₀, hle⟩⟩
  obtain ⟨g, hg, hmax⟩ := Finset.exists_max_image _ s.rank hne
  rw [Finset.mem_filter, List.mem_toFinset] at hg
  refine ⟨g, hg.1, hg.2, ?_⟩
  intro k hk hkv
  exact hmax k (by simpa using ⟨hk, hkv⟩)

section Top

variable {rest : List (α × ℕ)}

theorem grey_of_path (hp : s.path = (v, p) :: rest) : s.grey = v :: rest.map Prod.fst := by
  rw [grey, hp]
  rfl

theorem Inv.top_mem (h : Inv next s) (hp : s.path = (v, p) :: rest) : v ∈ s.stack := by
  refine h.onPath v ?_
  rw [grey_of_path hp]
  exact List.mem_cons_self

/-- The rest of the path was met before its end. -/
theorem Inv.rank_lt_top (h : Inv next s) (hp : s.path = (v, p) :: rest) (hg : u ∈ rest.map Prod.fst) :
    s.rank u < s.rank v := by
  have horder := h.pathOrder
  rw [grey_of_path hp, List.pairwise_cons] at horder
  exact horder.1 u hg

theorem Inv.rank_le_top (h : Inv next s) (hp : s.path = (v, p) :: rest) (hg : u ∈ s.grey) : s.rank u ≤ s.rank v := by
  rw [grey_of_path hp, List.mem_cons] at hg
  rcases hg with rfl | hg
  · exact le_refl _
  · exact (h.rank_lt_top hp hg).le

/-- The end of the path owns itself. -/
theorem owns_top (hp : s.path = (v, p) :: rest) : s.Owns v v where
  mem := by rw [grey_of_path hp]; exact List.mem_cons_self
  le := le_refl _
  last _ _ hle := hle

end Top

/-! ## Meeting a node -/

section Enter

variable [DecidableEq α]

/-- A node that is met for the first time. -/
def enter (s : Search α) (v : α) : Search α :=
  { s with
    rank := Function.update s.rank v s.counter
    low := Function.update s.low v s.counter
    counter := s.counter + 1
    stack := v :: s.stack
    path := (v, 0) :: bump s.path }

theorem met_enter : (s.enter v).Met x ↔ x = v ∨ s.Met x := by
  unfold Met enter done
  rw [List.mem_cons, or_assoc]

theorem grey_enter : (s.enter v).grey = v :: s.grey := by
  unfold grey enter
  rw [List.map_cons, map_bump]

theorem rank_enter (hx : x ≠ v) : (s.enter v).rank x = s.rank x := Function.update_of_ne hx _ _

theorem low_enter (hx : x ≠ v) : (s.enter v).low x = s.low x := Function.update_of_ne hx _ _

@[simp] theorem rank_enter_self : (s.enter v).rank v = s.counter := Function.update_self _ _ _

@[simp] theorem low_enter_self : (s.enter v).low v = s.counter := Function.update_self _ _ _

/-- One position further, one edge more has been looked at. -/
theorem looked_of_bump {path : List (α × ℕ)} (h : Looked next (bump path) x w) :
    Looked next path x w ∨ ∃ p, path.head? = some (x, p) ∧ (next x)[p]? = some w := by
  obtain ⟨hw, htake⟩ := h
  cases path with
  | nil => exact .inl ⟨hw, htake⟩
  | cons e rest =>
    obtain ⟨u, p⟩ := e
    by_cases hnew : u = x ∧ (next x)[p]? = some w
    · obtain ⟨rfl, hget⟩ := hnew
      exact .inr ⟨p, rfl, hget⟩
    refine .inl ⟨hw, ?_⟩
    intro q hq
    rw [List.mem_cons] at hq
    rcases hq with heq | hq
    · obtain ⟨rfl, rfl⟩ := Prod.mk.inj heq
      have hmem : w ∈ (next x).take (q + 1) := htake (q + 1) List.mem_cons_self
      rw [List.take_add_one, List.mem_append, Option.mem_toList] at hmem
      rcases hmem with hmem | hget
      · exact hmem
      · exact absurd ⟨rfl, hget⟩ hnew
    · exact htake q (List.mem_cons_of_mem _ hq)

/-- **Meeting a node**, where the path has got to it. -/
theorem Inv.enter (h : Inv next s) (hv : ¬ s.Met v)
    (hhead : ∀ u p, s.path.head? = some (u, p) → (next u)[p]? = some v) : Inv next (s.enter v) := by
  have hne : ∀ x ∈ s.stack, x ≠ v := by
    rintro x hx rfl
    exact hv (.inl hx)
  have hlt : ∀ x ∈ s.stack, s.rank x < s.counter := fun x hx => h.rank_lt x (.inl hx)
  have hgne : ∀ g ∈ s.grey, g ≠ v := fun g hg => hne g (h.onPath g hg)
  -- the node that is met has no edge looked at yet, the others have at most one more
  have hlook : ∀ x w, Looked next (s.enter v).path x w → x ≠ v ∧ (Looked next s.path x w ∨ w = v) := by
    rintro x w ⟨hw, htake⟩
    refine ⟨?_, ?_⟩
    · rintro rfl
      have := htake 0 List.mem_cons_self
      simp at this
    · have hb : Looked next (bump s.path) x w := ⟨hw, fun p hp => htake p (List.mem_cons_of_mem _ hp)⟩
      rcases looked_of_bump hb with hold | ⟨p, hp, hget⟩
      · exact .inl hold
      · rw [hhead x p hp] at hget
        exact .inr (Option.some.inj hget).symm
  have howns : ∀ g x, x ∈ s.stack → s.Owns g x → (s.enter v).Owns g x := by
    rintro g x hx ⟨hmem, hle, hlast⟩
    refine ⟨?_, ?_, ?_⟩
    · rw [grey_enter]
      exact List.mem_cons_of_mem _ hmem
    · rwa [rank_enter (hgne g hmem), rank_enter (hne x hx)]
    · intro k hk hkx
      rw [grey_enter, List.mem_cons] at hk
      rw [rank_enter (hne x hx)] at hkx
      rcases hk with rfl | hk
      · rw [rank_enter_self] at hkx
        have := hlt x hx
        omega
      · rw [rank_enter (hgne k hk)] at hkx ⊢
        rw [rank_enter (hgne g hmem)]
        exact hlast k hk hkx
  refine ⟨?_, ?_, ?_, h.nodup, h.closed, h.classes, ?_, ?_, ?_, ?_, ?_, ?_, ?_, ?_⟩
  · intro x hx
    change (s.enter v).rank x < s.counter + 1
    by_cases hxv : x = v
    · subst hxv
      rw [rank_enter_self]
      omega
    · rw [rank_enter hxv]
      have := h.rank_lt x ((met_enter.1 hx).resolve_left hxv)
      omega
  · change List.Pairwise _ (v :: s.stack)
    rw [List.pairwise_cons]
    refine ⟨?_, ?_⟩
    · intro x hx
      rw [rank_enter (hne x hx), rank_enter_self]
      exact hlt x hx
    · refine h.order.imp_of_mem ?_
      intro a b ha hb hab
      rwa [rank_enter (hne a ha), rank_enter (hne b hb)]
  · intro x hx
    rcases List.mem_cons.1 hx with rfl | hx
    · intro hd
      exact hv (.inr hd)
    · exact h.apart x hx
  · intro g hg
    rw [grey_enter, List.mem_cons] at hg
    rcases hg with rfl | hg
    · exact List.mem_cons_self
    · exact List.mem_cons_of_mem _ (h.onPath g hg)
  · rw [grey_enter, List.pairwise_cons]
    refine ⟨?_, ?_⟩
    · intro g hg
      rw [rank_enter (hgne g hg), rank_enter_self]
      exact hlt g (h.onPath g hg)
    · refine h.pathOrder.imp_of_mem ?_
      intro a b ha hb hab
      rwa [rank_enter (hgne a ha), rank_enter (hgne b hb)]
  · intro g hg x hx hle
    rw [grey_enter, List.mem_cons] at hg
    rcases hg with rfl | hg
    · rcases List.mem_cons.1 hx with rfl | hx
      · exact .refl
      · rw [rank_enter_self, rank_enter (hne x hx)] at hle
        have := hlt x hx
        omega
    · rcases List.mem_cons.1 hx with rfl | hx
      · -- by way of where the path has got to
        obtain ⟨⟨u, p⟩, rest, hpath⟩ := List.exists_cons_of_ne_nil (path_ne_nil hg)
        have hhd : s.path.head? = some (u, p) := by rw [hpath, List.head?_cons]
        have hgu : ReflTransGen (fun a b => b ∈ next a) g u :=
          h.reaches g hg u (h.top_mem hpath) (h.rank_le_top hpath hg)
        exact hgu.tail (List.mem_of_getElem? (hhead u p hhd))
      · rw [rank_enter (hgne g hg), rank_enter (hne x hx)] at hle
        exact h.reaches g hg x hx hle
  · intro x hx
    rcases List.mem_cons.1 hx with rfl | hx
    · refine ⟨x, ?_, le_refl _, .refl⟩
      rw [grey_enter]
      exact List.mem_cons_self
    · obtain ⟨g, hg, hle, hr⟩ := h.returns x hx
      refine ⟨g, ?_, ?_, hr⟩
      · rw [grey_enter]
        exact List.mem_cons_of_mem _ hg
      · rwa [rank_enter (hgne g hg), rank_enter (hne x hx)]
  · intro g hg
    rw [grey_enter, List.mem_cons] at hg
    rcases hg with rfl | hg
    · rw [low_enter_self, rank_enter_self]
    · rw [low_enter (hgne g hg), rank_enter (hgne g hg)]
      exact h.low_le g hg
  · intro g hg
    rw [grey_enter, List.mem_cons] at hg
    rcases hg with rfl | hg
    · exact ⟨g, List.mem_cons_self, by rw [low_enter_self, rank_enter_self], .refl⟩
    · obtain ⟨y, hy, hrank, hr⟩ := h.low_spec g hg
      refine ⟨y, List.mem_cons_of_mem _ hy, ?_, hr⟩
      rw [rank_enter (hne y hy), low_enter (hgne g hg), hrank]
  · intro x hx y hlk
    obtain ⟨hxv, hold | rfl⟩ := hlook x y hlk
    · have hx' : x ∈ s.stack := (List.mem_cons.1 hx).resolve_left hxv
      exact met_enter.2 (.inr (h.seen x hx' y hold))
    · exact met_enter.2 (.inl rfl)
  · intro x hx y hy hlk
    obtain ⟨hxv, hcase⟩ := hlook x y hlk
    have hx' : x ∈ s.stack := (List.mem_cons.1 hx).resolve_left hxv
    by_cases hyv : y = v
    · subst hyv
      obtain ⟨g, hg⟩ := h.exists_owns hx'
      refine ⟨g, howns g x hx' hg, ?_⟩
      rw [low_enter (hgne g hg.mem), rank_enter_self]
      have h₁ := h.low_le g hg.mem
      have h₂ := hlt g (h.onPath g hg.mem)
      omega
    · have hy' : y ∈ s.stack := (List.mem_cons.1 hy).resolve_left hyv
      obtain ⟨g, hg, hle⟩ := h.bound x hx' y hy' (hcase.resolve_right hyv)
      refine ⟨g, howns g x hx' hg, ?_⟩
      rwa [low_enter (hgne g hg.mem), rank_enter hyv]

end Enter

/-! ## Looking at an edge -/

section Advance

variable [DecidableEq α] {rest : List (α × ℕ)}

/-- An edge to a node that has been met. -/
def advance (s : Search α) (v w : α) : Search α :=
  { s with
    low := if w ∈ s.stack ∧ s.rank w < s.low v then Function.update s.low v (s.rank w) else s.low
    path := bump s.path }

@[simp] theorem grey_advance : (s.advance v w).grey = s.grey := map_bump _

theorem low_advance (hx : x ≠ v) : (s.advance v w).low x = s.low x := by
  unfold advance
  dsimp only
  split
  · rw [Function.update_of_ne hx]
  · rfl

/-- The low link goes down to the rank of what the edge leads to. -/
theorem low_advance_self :
    (s.advance v w).low v = if w ∈ s.stack ∧ s.rank w < s.low v then s.rank w else s.low v := by
  unfold advance
  dsimp only
  split
  · rw [Function.update_self]
  · rfl

theorem low_advance_le : (s.advance v w).low x ≤ s.low x := by
  by_cases hx : x = v
  · subst hx
    rw [low_advance_self]
    split <;> omega
  · rw [low_advance hx]

/-- **Looking at an edge** to a node that has been met. -/
theorem Inv.advance (h : Inv next s) (hp : s.path = (v, p) :: rest) (hget : (next v)[p]? = some w) (hw : s.Met w) :
    Inv next (s.advance v w) := by
  have hlook : ∀ x y, Looked next (s.advance v w).path x y → Looked next s.path x y ∨ (x = v ∧ y = w) := by
    intro x y hlk
    rcases looked_of_bump hlk with hold | ⟨q, hq, hgetq⟩
    · exact .inl hold
    · rw [hp, List.head?_cons] at hq
      obtain ⟨rfl, rfl⟩ := Prod.mk.inj (Option.some.inj hq)
      rw [hget] at hgetq
      exact .inr ⟨rfl, (Option.some.inj hgetq).symm⟩
  have howns : ∀ g x, s.Owns g x → (s.advance v w).Owns g x := by
    rintro g x ⟨hmem, hle, hlast⟩
    refine ⟨?_, hle, ?_⟩
    · rwa [grey_advance]
    · rwa [grey_advance]
  refine ⟨h.rank_lt, h.order, h.apart, h.nodup, h.closed, h.classes, ?_, ?_, ?_, ?_, ?_, ?_, ?_, ?_⟩
  · rw [grey_advance]
    exact h.onPath
  · rw [grey_advance]
    exact h.pathOrder
  · rw [grey_advance]
    exact h.reaches
  · rw [grey_advance]
    exact h.returns
  · intro g hg
    rw [grey_advance] at hg
    exact low_advance_le.trans (h.low_le g hg)
  · intro g hg
    rw [grey_advance] at hg
    by_cases hgv : g = v ∧ w ∈ s.stack ∧ s.rank w < s.low v
    · obtain ⟨rfl, hlow⟩ := hgv
      refine ⟨w, hlow.1, ?_, .single (List.mem_of_getElem? hget)⟩
      rw [low_advance_self, if_pos hlow]
      rfl
    · have hsame : (s.advance v w).low g = s.low g := by
        by_cases hg' : g = v
        · subst hg'
          rw [low_advance_self, if_neg fun hlow => hgv ⟨rfl, hlow⟩]
        · exact low_advance hg'
      rw [hsame]
      exact h.low_spec g hg
  · intro x hx y hlk
    rcases hlook x y hlk with hold | ⟨-, rfl⟩
    · exact h.seen x hx y hold
    · exact hw
  · intro x hx y hy hlk
    rcases hlook x y hlk with hold | ⟨rfl, rfl⟩
    · obtain ⟨g, hg, hle⟩ := h.bound x hx y hy hold
      exact ⟨g, howns g x hg, low_advance_le.trans hle⟩
    · refine ⟨x, howns x x (owns_top hp), ?_⟩
      change (s.advance x y).low x ≤ s.rank y
      have hy' : y ∈ s.stack := hy
      rw [low_advance_self]
      by_cases hlt : s.rank y < s.low x
      · rw [if_pos ⟨hy', hlt⟩]
      · rw [if_neg fun hb => hlt hb.2]
        omega

end Advance

/-! ## Leaving a node -/

section Leave

variable {rest : List (α × ℕ)}

/-- All edges of the end of the path have been looked at. -/
theorem Inv.looked_top (h : Inv next s) (hp : s.path = (v, p) :: rest) (hlen : (next v).length ≤ p) (hw : w ∈ next v) :
    Looked next s.path v w := by
  refine ⟨hw, ?_⟩
  intro q hq
  rw [hp, List.mem_cons] at hq
  rcases hq with heq | hq
  · obtain ⟨-, rfl⟩ := Prod.mk.inj heq
    rwa [List.take_of_length_le hlen]
  · have hself : s.rank v < s.rank v := h.rank_lt_top hp (List.mem_map_of_mem (f := Prod.fst) hq)
    omega

/-- Nodes off the path have had all their edges looked at. -/
theorem looked_of_not_grey (hx : x ∉ s.grey) (hw : w ∈ next x) : Looked next s.path x w :=
  ⟨hw, fun _ hq => absurd (List.mem_map_of_mem (f := Prod.fst) hq) hx⟩

/-- What had been looked at with the end of the path off it. -/
theorem looked_cons (hp : s.path = (v, p) :: rest) (hlen : (next v).length ≤ p) (hlk : Looked next rest x w) :
    Looked next s.path x w := by
  refine ⟨hlk.1, ?_⟩
  intro q hq
  rw [hp, List.mem_cons] at hq
  rcases hq with heq | hq
  · obtain ⟨rfl, rfl⟩ := Prod.mk.inj heq
    rw [List.take_of_length_le hlen]
    exact hlk.1
  · exact hlk.2 q hq

/-- A node whose low link is not its rank reaches an earlier node of the path. -/
theorem Inv.exists_earlier (h : Inv next s) (hp : s.path = (v, p) :: rest) (hlow : s.low v ≠ s.rank v) :
    ∃ g ∈ rest.map Prod.fst, ReflTransGen (fun a b => b ∈ next a) v g := by
  have hv : v ∈ s.grey := (owns_top hp).mem
  obtain ⟨y, hy, hrank, hvy⟩ := h.low_spec v hv
  obtain ⟨g, hg, hle, hyg⟩ := h.returns y hy
  have hlt := h.low_le v hv
  rw [grey_of_path hp, List.mem_cons] at hg
  rcases hg with rfl | hg
  · omega
  · exact ⟨g, hg, hvy.trans hyg⟩

end Leave

/-- The end of the path is done, and its low link is not its own rank. -/
def retreat (s : Search α) [DecidableEq α] (v u : α) : Search α :=
  { s with
    low := if s.low v < s.low u then Function.update s.low u (s.low v) else s.low
    path := s.path.tail }

section Retreat

variable [DecidableEq α] {rest : List (α × ℕ)} {q : ℕ}

theorem low_retreat (hx : x ≠ u) : (s.retreat v u).low x = s.low x := by
  unfold retreat
  dsimp only
  split
  · rw [Function.update_of_ne hx]
  · rfl

theorem low_retreat_self : (s.retreat v u).low u = if s.low v < s.low u then s.low v else s.low u := by
  unfold retreat
  dsimp only
  split
  · rw [Function.update_self]
  · rfl

theorem low_retreat_le : (s.retreat v u).low x ≤ s.low x := by
  by_cases hx : x = u
  · subst hx
    rw [low_retreat_self]
    split <;> omega
  · rw [low_retreat hx]

/-- **Leaving a node** that is not the first of its class. -/
theorem Inv.retreat (h : Inv next s) (hp : s.path = (v, p) :: (u, q) :: rest) (hlen : (next v).length ≤ p)
    (hlow : s.low v ≠ s.rank v) : Inv next (s.retreat v u) := by
  have hpath : (s.retreat v u).path = (u, q) :: rest := by
    unfold Search.retreat
    rw [hp, List.tail_cons]
  have hgrey : s.grey = v :: (s.retreat v u).grey := by
    rw [grey_of_path hp, grey, hpath]
  have hsub : ∀ g, g ∈ (s.retreat v u).grey → g ∈ s.grey := by
    intro g hg
    rw [hgrey]
    exact List.mem_cons_of_mem _ hg
  have hu : u ∈ (s.retreat v u).grey := (owns_top hpath).mem
  have huv : s.rank u < s.rank v := h.rank_lt_top hp List.mem_cons_self
  have hvs : v ∈ s.stack := h.top_mem hp
  -- what the end of the path owned, the node before it owns
  have howns : ∀ g x, s.Owns g x → ∃ k, (s.retreat v u).Owns k x ∧ (s.retreat v u).low k ≤ s.low g := by
    rintro g x ⟨hmem, hle, hlast⟩
    by_cases hgv : g = v
    · subst hgv
      refine ⟨u, ⟨hu, huv.le.trans hle, ?_⟩, ?_⟩
      · intro k hk _
        rw [grey, hpath, List.map_cons, List.mem_cons] at hk
        rcases hk with rfl | hk
        · exact le_refl _
        · have horder := h.pathOrder
          rw [hgrey, grey, hpath, List.map_cons, List.pairwise_cons, List.pairwise_cons] at horder
          exact (horder.2.1 k hk).le
      · rw [low_retreat_self]
        split <;> omega
    · rw [hgrey, List.mem_cons] at hmem
      exact ⟨g, ⟨hmem.resolve_left hgv, hle, fun k hk => hlast k (hsub k hk)⟩, low_retreat_le⟩
  refine ⟨h.rank_lt, h.order, h.apart, h.nodup, h.closed, h.classes, ?_, ?_, ?_, ?_, ?_, ?_, ?_, ?_⟩
  · intro g hg
    exact h.onPath g (hsub g hg)
  · have horder := h.pathOrder
    rw [hgrey, List.pairwise_cons] at horder
    exact horder.2
  · intro g hg
    exact h.reaches g (hsub g hg)
  · intro x hx
    obtain ⟨g, hg, hle, hxg⟩ := h.returns x hx
    by_cases hgv : g = v
    · subst hgv
      obtain ⟨k, hk, hgk⟩ := h.exists_earlier hp hlow
      have hlt := h.rank_lt_top hp hk
      refine ⟨k, ?_, hlt.le.trans hle, hxg.trans hgk⟩
      rw [grey, hpath]
      exact hk
    · rw [hgrey, List.mem_cons] at hg
      exact ⟨g, hg.resolve_left hgv, hle, hxg⟩
  · intro g hg
    exact low_retreat_le.trans (h.low_le g (hsub g hg))
  · intro g hg
    by_cases hgu : g = u ∧ s.low v < s.low u
    · obtain ⟨rfl, hlt⟩ := hgu
      obtain ⟨y, hy, hrank, hvy⟩ := h.low_spec v (owns_top hp).mem
      refine ⟨y, hy, ?_, (h.reaches g (hsub g hu) v hvs huv.le).trans hvy⟩
      rw [low_retreat_self, if_pos hlt]
      exact hrank
    · have hsame : (s.retreat v u).low g = s.low g := by
        by_cases hg' : g = u
        · subst hg'
          rw [low_retreat_self, if_neg fun hlt => hgu ⟨rfl, hlt⟩]
        · exact low_retreat hg'
      rw [hsame]
      exact h.low_spec g (hsub g hg)
  · intro x hx y hlk
    rw [hpath] at hlk
    exact h.seen x hx y (looked_cons hp hlen hlk)
  · intro x hx y hy hlk
    rw [hpath] at hlk
    obtain ⟨g, hg, hle⟩ := h.bound x hx y hy (looked_cons hp hlen hlk)
    obtain ⟨k, hk, hkg⟩ := howns g x hg
    exact ⟨k, hk, hkg.trans hle⟩

end Retreat

/-! ## A component -/

section Pop

variable {rest : List (α × ℕ)} {above below : List α}

/-- The stack above the end of the path becomes a component. -/
def pop (s : Search α) (v : α) (above below : List α) : Search α :=
  { s with stack := below, comps := s.comps ++ [above ++ [v]], path := s.path.tail }

theorem done_pop : (s.pop v above below).done = s.done ++ (above ++ [v]) := by
  unfold done pop
  rw [List.flatten_append, List.flatten_singleton]

theorem mem_stack (hs : s.stack = above ++ v :: below) : x ∈ s.stack ↔ x ∈ above ++ [v] ∨ x ∈ below := by
  rw [hs]
  simp only [List.mem_append, List.mem_cons, List.not_mem_nil, or_false]
  tauto

theorem met_pop (hs : s.stack = above ++ v :: below) : (s.pop v above below).Met x ↔ s.Met x := by
  unfold Met
  rw [done_pop, List.mem_append, mem_stack hs]
  change x ∈ below ∨ _ ↔ _
  tauto

/-- The part of the stack that comes off was met no earlier than the end of the path, the rest before. -/
theorem Inv.le_of_above (h : Inv next s) (hs : s.stack = above ++ v :: below) (hx : x ∈ above ++ [v]) :
    s.rank v ≤ s.rank x := by
  have horder := h.order
  rw [hs, List.pairwise_append] at horder
  rcases List.mem_append.1 hx with hx | hx
  · exact (horder.2.2 x hx v List.mem_cons_self).le
  · rw [List.mem_singleton.1 hx]

theorem Inv.lt_of_below (h : Inv next s) (hs : s.stack = above ++ v :: below) (hx : x ∈ below) :
    s.rank x < s.rank v := by
  have horder := h.order
  rw [hs, List.pairwise_append, List.pairwise_cons] at horder
  exact horder.2.1.1 x hx

/-- Where the low link of the end of the path is its rank, edges from above it stay there or lead to what is
done. -/
theorem Inv.edge_above (h : Inv next s) (hp : s.path = (v, p) :: rest) (hlen : (next v).length ≤ p)
    (hlow : s.low v = s.rank v) (hs : s.stack = above ++ v :: below) (hx : x ∈ above ++ [v]) (hw : w ∈ next x) :
    w ∈ above ++ [v] ∨ w ∈ s.done := by
  have hxs : x ∈ s.stack := (mem_stack hs).2 (.inl hx)
  have hvx := h.le_of_above hs hx
  have hlk : Looked next s.path x w := by
    by_cases hxv : x = v
    · subst hxv
      exact h.looked_top hp hlen hw
    · refine looked_of_not_grey ?_ hw
      intro hg
      -- nodes of the path were met before its end, this one after it
      have hle := h.rank_le_top hp hg
      have horder := h.order
      rw [hs, List.pairwise_append] at horder
      have hlt := horder.2.2 x ((List.mem_append.1 hx).resolve_right fun hm => hxv (List.mem_singleton.1 hm)) v
        List.mem_cons_self
      omega
  rcases h.seen x hxs w hlk with hws | hd
  · rcases (mem_stack hs).1 hws with hin | hbelow
    · exact .inl hin
    · obtain ⟨g, hg, hle⟩ := h.bound x hxs w hws hlk
      have hgv : s.rank v ≤ s.rank g := hg.last v (owns_top hp).mem hvx
      have hgeq : g = v := by
        have hmem := hg.mem
        rw [grey_of_path hp, List.mem_cons] at hmem
        refine hmem.resolve_right ?_
        intro hr
        have := h.rank_lt_top hp hr
        omega
      subst hgeq
      have := h.lt_of_below hs hbelow
      omega
  · exact .inr hd

/-- All of it goes to and fro with the end of the path. -/
theorem Inv.mutual_above (h : Inv next s) (hp : s.path = (v, p) :: rest) (hs : s.stack = above ++ v :: below)
    (hx : x ∈ above ++ [v]) : Mutual (fun a b => b ∈ next a) v x := by
  have hxs : x ∈ s.stack := (mem_stack hs).2 (.inl hx)
  obtain ⟨g, hg, -, hxg⟩ := h.returns x hxs
  exact ⟨h.reaches v (owns_top hp).mem x hxs (h.le_of_above hs hx),
    hxg.trans (h.reaches g hg v (h.top_mem hp) (h.rank_le_top hp hg))⟩

/-- **A component** comes off the stack. -/
theorem Inv.pop (h : Inv next s) (hp : s.path = (v, p) :: rest) (hlen : (next v).length ≤ p)
    (hlow : s.low v = s.rank v) (hs : s.stack = above ++ v :: below) : Inv next (s.pop v above below) := by
  have hpath : (s.pop v above below).path = rest := by
    unfold Search.pop
    rw [hp, List.tail_cons]
  have hgrey : s.grey = v :: (s.pop v above below).grey := by
    rw [grey_of_path hp, grey, hpath]
  have hsub : ∀ g, g ∈ (s.pop v above below).grey → g ∈ s.grey := by
    intro g hg
    rw [hgrey]
    exact List.mem_cons_of_mem _ hg
  have hbelow : ∀ x ∈ below, x ∈ s.stack := fun x hx => (mem_stack hs).2 (.inr hx)
  have hstay : ∀ g ∈ s.grey, s.rank g < s.rank v → g ∈ (s.pop v above below).grey := by
    intro g hg hlt
    rw [hgrey, List.mem_cons] at hg
    refine hg.resolve_left ?_
    rintro rfl
    omega
  have hunder : ∀ x ∈ s.stack, s.rank x < s.rank v → x ∈ below := by
    intro x hx hlt
    refine ((mem_stack hs).1 hx).resolve_left ?_
    intro hin
    have := h.le_of_above hs hin
    omega
  have hdis : ∀ x ∈ above ++ [v], x ∉ s.done := fun x hx => h.apart x ((mem_stack hs).2 (.inl hx))
  have hlook : ∀ x ∈ below, ∀ y, Looked next (s.pop v above below).path x y → Looked next s.path x y := by
    intro x hx y hlk
    rw [hpath] at hlk
    exact looked_cons hp hlen hlk
  refine ⟨?_, ?_, ?_, ?_, ?_, ?_, ?_, ?_, ?_, ?_, ?_, ?_, ?_, ?_⟩
  · intro x hx
    exact h.rank_lt x ((met_pop hs).1 hx)
  · have horder := h.order
    rw [hs, List.pairwise_append, List.pairwise_cons] at horder
    exact horder.2.1.2
  · intro x hx hd
    rw [done_pop, List.mem_append] at hd
    rcases hd with hd | hin
    · exact h.apart x (hbelow x hx) hd
    · have h₁ := h.le_of_above hs hin
      have h₂ := h.lt_of_below hs hx
      omega
  · rw [done_pop]
    have hnodup : s.stack.Nodup := by
      refine h.order.imp ?_
      rintro a b hab rfl
      omega
    rw [hs, List.append_cons, List.nodup_append] at hnodup
    rw [List.nodup_append]
    refine ⟨h.nodup, hnodup.1, ?_⟩
    rintro a ha b hb rfl
    exact hdis a hb ha
  · intro x hx y hy
    rw [done_pop, List.mem_append] at hx ⊢
    rcases hx with hx | hx
    · exact .inl (h.closed x hx y hy)
    · exact (h.edge_above hp hlen hlow hs hx hy).symm
  · intro c hc x hx y
    change c ∈ s.comps ++ [above ++ [v]] at hc
    rw [List.mem_append, List.mem_singleton] at hc
    rcases hc with hc | rfl
    · exact h.classes c hc x hx y
    · exact mutual_iff_mem (D := fun a => a ∈ s.done) h.closed
        (fun a ha b hb => h.edge_above hp hlen hlow hs ha hb) hdis (fun a ha => h.mutual_above hp hs ha) hx
  · intro g hg
    have hr : g ∈ rest.map Prod.fst := by
      rw [grey, hpath] at hg
      exact hg
    exact hunder g (h.onPath g (hsub g hg)) (h.rank_lt_top hp hr)
  · have horder := h.pathOrder
    rw [hgrey, List.pairwise_cons] at horder
    exact horder.2
  · intro g hg x hx
    exact h.reaches g (hsub g hg) x (hbelow x hx)
  · intro x hx
    obtain ⟨g, hg, hle, hxg⟩ := h.returns x (hbelow x hx)
    have hlt := h.lt_of_below hs hx
    exact ⟨g, hstay g hg (by omega), hle, hxg⟩
  · intro g hg
    exact h.low_le g (hsub g hg)
  · intro g hg
    obtain ⟨y, hy, hrank, hgy⟩ := h.low_spec g (hsub g hg)
    have hle := h.low_le g (hsub g hg)
    have hr : g ∈ rest.map Prod.fst := by
      rw [grey, hpath] at hg
      exact hg
    have hlt := h.rank_lt_top hp hr
    exact ⟨y, hunder y hy (by omega), hrank, hgy⟩
  · intro x hx y hlk
    exact (met_pop hs).2 (h.seen x (hbelow x hx) y (hlook x hx y hlk))
  · intro x hx y hy hlk
    obtain ⟨g, hg, hle⟩ := h.bound x (hbelow x hx) y (hbelow y hy) (hlook x hx y hlk)
    have hlt := h.lt_of_below hs hx
    have hgx := hg.le
    exact ⟨g, ⟨hstay g hg.mem (by omega), hg.le, fun k hk => hg.last k (hsub k hk)⟩, hle⟩

end Pop

end Search

end LowLink

end OmniJsonDb

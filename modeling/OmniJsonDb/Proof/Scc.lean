import Mathlib.Data.Finset.Card
import OmniJsonDb.Lib.LowLink
import OmniJsonDb.Lib.Raising
import OmniJsonDb.Proof.GraphRuns

/-!
# The components are the classes of mutual reachability

`strongly_connected_components` holds in its dictionaries what a search with low links holds. Each
round of the loop is a few moves of the search, and there are at most two rounds to a node.

* `Agrees`: the dictionaries say what the search holds.
* `scan_spec`, `popTo_spec`, `finish_spec`, `turn_spec`: a round of the loop.
* `spin_spec`, `search_spec`: the loops.
* `stronglyConnectedComponents_spec`: each node that is seen is in one component, and two are in the
  same one iff each is reached from the other.
* `Looked`: whatever the search, what it returns has been looked up.
* `partitions_iff`: the components are those of the graph just when no id holds a newline.
-/

namespace OmniJsonDb

namespace Graph

open Exec LowLink Raising

variable {P C : Type} {cfg : Config P C} {db db' : Db P C}

namespace Tarjan

variable {next : NodeId → List NodeId} {nodes : List NodeId} {st st' : Tarjan} {s s' : Search NodeId} {v w : NodeId}
  {p : ℕ} {rest : List (NodeId × ℕ)}

/-- The dictionaries say what the search holds. -/
structure Agrees (st : Tarjan) (s : Search NodeId) : Prop where
  counter : st.counter = s.counter
  indices : ∀ v i, st.indices.get? v = some i ↔ s.Met v ∧ s.rank v = i
  lowlink : ∀ v, s.Met v → st.lowlink.get? v = some (s.low v)
  isOn : ∀ v, st.isOn v = true ↔ v ∈ s.stack
  stack : st.stack = s.stack
  components : st.components = s.comps

theorem Agrees.contains_iff (h : Agrees st s) : st.indices.contains v = true ↔ s.Met v := by
  rw [OrdDict.contains_iff]
  constructor
  · rintro ⟨i, hi⟩
    exact ((h.indices v i).1 hi).1
  · intro hv
    exact ⟨s.rank v, (h.indices v _).2 ⟨hv, rfl⟩⟩

theorem Agrees.index (h : Agrees st s) (hv : s.Met v) : lookUp st.indices v = .ok (s.rank v) := by
  unfold lookUp
  rw [(h.indices v _).2 ⟨hv, rfl⟩]

theorem Agrees.low (h : Agrees st s) (hv : s.Met v) : lookUp st.lowlink v = .ok (s.low v) := by
  unfold lookUp
  rw [h.lowlink v hv]

/-- The list of work to do says nothing about the dictionaries. -/
theorem Agrees.work (h : Agrees st s) (work : List (NodeId × ℕ)) : Agrees { st with work := work } s :=
  ⟨h.counter, h.indices, h.lowlink, h.isOn, h.stack, h.components⟩

/-- A node is met. -/
theorem Agrees.enter (h : Agrees st s) (hv : ¬ s.Met v) : Agrees (st.enter v) (s.enter v) where
  counter := congrArg (· + 1) h.counter
  indices x i := by
    unfold Tarjan.enter
    rw [OrdDict.get?_set, Search.met_enter]
    by_cases hx : x = v
    · subst hx
      rw [if_pos rfl, Search.rank_enter_self, h.counter]
      simp
    · rw [if_neg hx, Search.rank_enter hx, h.indices]
      simp [hx]
  lowlink x hx := by
    unfold Tarjan.enter
    rw [OrdDict.get?_set]
    by_cases hxv : x = v
    · subst hxv
      rw [if_pos rfl, Search.low_enter_self, h.counter]
    · rw [if_neg hxv, Search.low_enter hxv]
      exact h.lowlink x ((Search.met_enter.1 hx).resolve_left hxv)
  isOn x := by
    change ((st.onStack.set v true).get? x).getD false = true ↔ x ∈ v :: s.stack
    rw [OrdDict.get?_set, List.mem_cons]
    by_cases hx : x = v
    · simp [hx]
    · rw [if_neg hx, ← h.isOn x]
      simp [hx, Tarjan.isOn]
  stack := congrArg (v :: ·) h.stack
  components := h.components

/-! ## The neighbours -/

/-- A low link that goes down. -/
theorem Agrees.setLow (h : Agrees st s) {low : NodeId → ℕ} {n : ℕ} (hv : low v = n) (ho : ∀ x, x ≠ v → low x = s.low x)
    (path : List (NodeId × ℕ)) :
    Agrees { st with lowlink := st.lowlink.set v n } { s with low := low, path := path } where
  counter := h.counter
  indices := h.indices
  lowlink x hx := by
    change (st.lowlink.set v n).get? x = some (low x)
    rw [OrdDict.get?_set]
    by_cases hxv : x = v
    · rw [if_pos hxv, hxv, hv]
    · rw [if_neg hxv, ho x hxv]
      exact h.lowlink x hx
  isOn := h.isOn
  stack := h.stack
  components := h.components

/-- A low link that stays. -/
theorem Agrees.keepLow (h : Agrees st s) {low : NodeId → ℕ} (ho : ∀ x, low x = s.low x) (path : List (NodeId × ℕ)) :
    Agrees st { s with low := low, path := path } where
  counter := h.counter
  indices := h.indices
  lowlink x hx := by
    change _ = some (low x)
    rw [ho x]
    exact h.lowlink x hx
  isOn := h.isOn
  stack := h.stack
  components := h.components

/-- An edge to a node that has been met: on the stack, or done. -/
theorem Agrees.advance_on (h : Agrees st s) (hw : w ∈ s.stack) :
    Agrees (if s.rank w < s.low v then { st with lowlink := st.lowlink.set v (s.rank w) } else st) (s.advance v w) := by
  by_cases hlt : s.rank w < s.low v
  · rw [if_pos hlt]
    refine h.setLow ?_ (fun x hx => Search.low_advance hx) _
    rw [← Search.low_advance_self.trans (if_pos ⟨hw, hlt⟩)]
  · rw [if_neg hlt]
    refine h.keepLow ?_ _
    intro x
    rw [if_neg fun hb => hlt hb.2]

theorem Agrees.advance_off (h : Agrees st s) (hw : w ∉ s.stack) : Agrees st (s.advance v w) := by
  refine h.keepLow ?_ _
  intro x
  rw [if_neg fun hb => hw hb.1]

/-- Where the look at the neighbours of `v` stops: behind the last one, or at one that has not been met. -/
def Stops (next : NodeId → List NodeId) (v : NodeId) (rest : List (NodeId × ℕ)) (s : Search NodeId) (st : Tarjan) :
    Bool → Prop
  | false => ∃ p, s.path = (v, p) :: rest ∧ (next v).length ≤ p ∧ st.work = (v, p) :: rest
  | true => ∃ p w, s.path = (v, p) :: rest ∧ (next v)[p]? = some w ∧ ¬ s.Met w ∧ st.work = (w, 0) :: (v, p + 1) :: rest

/-- **The look at the neighbours**: nothing is met, and the search goes on to where it stops. -/
theorem scan_spec (ws : List NodeId) (p : ℕ) (st : Tarjan) (s : Search NodeId) (h : Agrees st s) (hi : Search.Inv next s)
    (hpath : s.path = (v, p) :: rest) (hws : ws = (next v).drop p) (hwork : st.work.tail = rest) :
    ∃ b st' s', scan v ws p st = .ok (b, st') ∧ Agrees st' s' ∧ Search.Inv next s' ∧ s'.stack = s.stack ∧
      s'.comps = s.comps ∧ Stops next v rest s' st' b := by
  induction ws generalizing p st s with
  | nil =>
    refine ⟨false, _, s, rfl, h.work _, hi, rfl, rfl, p, hpath, ?_, by rw [hwork]⟩
    exact List.drop_eq_nil_iff.1 hws.symm
  | cons w ws ih =>
    have hget : (next v)[p]? = some w := by
      rw [← List.head?_drop, ← hws, List.head?_cons]
    have hws' : ws = (next v).drop (p + 1) := by
      rw [← List.tail_drop, ← hws, List.tail_cons]
    have hv : s.Met v := .inl (hi.top_mem hpath)
    by_cases hw : s.Met w
    · have hcont : st.indices.contains w = true := h.contains_iff.2 hw
      have hpath' : (s.advance v w).path = (v, p + 1) :: rest := by
        change Search.bump s.path = _
        rw [hpath]
        rfl
      have hi' := hi.advance hpath hget hw
      by_cases hon : w ∈ s.stack
      · obtain ⟨b, st', s', hscan, hrest⟩ := ih (p + 1) _ _ (h.advance_on hon) hi' hpath' hws' (by split <;> exact hwork)
        refine ⟨b, st', s', ?_, hrest⟩
        rw [← hscan, scan, hcont, (h.isOn w).2 hon, h.index hw, h.low hv]
        rfl
      · obtain ⟨b, st', s', hscan, hrest⟩ := ih (p + 1) _ _ (h.advance_off hon) hi' hpath' hws' hwork
        refine ⟨b, st', s', ?_, hrest⟩
        have hoff : st.isOn w = false := by
          rw [Bool.eq_false_iff, ne_eq, h.isOn w]
          exact hon
        rw [← hscan, scan, hcont, hoff]
        rfl
    · have hcont : st.indices.contains w = false := by
        rw [Bool.eq_false_iff, ne_eq, h.contains_iff]
        exact hw
      refine ⟨true, _, s, ?_, h.work ((w, 0) :: (v, p + 1) :: rest), hi, rfl, rfl, p, w, hpath, hget, hw, rfl⟩
      rw [scan, hcont, ← hwork]
      rfl

/-! ## A component -/

theorem isOn_off {st : Tarjan} {stack : List NodeId} {comps : List (List NodeId)} {x : NodeId} :
    ({ st with stack := stack, onStack := st.onStack.set v false, components := comps } : Tarjan).isOn x = true ↔
      x ≠ v ∧ st.isOn x = true := by
  change ((st.onStack.set v false).get? x).getD false = true ↔ _
  rw [OrdDict.get?_set]
  by_cases hx : x = v
  · simp [hx]
  · rw [if_neg hx]
    exact (and_iff_right hx).symm

/-- **The stack comes off** down to `v`. -/
theorem popTo_spec {above : List NodeId} (below : List NodeId) (st : Tarjan) (comp : List NodeId) (hv : v ∉ above) :
    ∃ st', popTo v st comp (above ++ v :: below) = .ok st' ∧ st'.counter = st.counter ∧ st'.indices = st.indices ∧
      st'.lowlink = st.lowlink ∧ st'.work = st.work ∧ st'.stack = below ∧
      st'.components = st.components ++ [comp ++ (above ++ [v])] ∧
      ∀ x, st'.isOn x = true ↔ x ∉ above ++ [v] ∧ st.isOn x = true := by
  induction above generalizing st comp with
  | nil =>
    refine ⟨_, if_pos rfl, rfl, rfl, rfl, rfl, rfl, rfl, ?_⟩
    intro x
    rw [List.nil_append, List.mem_singleton]
    exact isOn_off
  | cons a above ih =>
    have hav : a ≠ v := fun he => hv (he ▸ List.mem_cons_self)
    obtain ⟨st', hpop, hc, hidx, hlow, hwork, hstack, hcomps, hon⟩ :=
      ih { st with stack := above ++ v :: below, onStack := st.onStack.set a false } (comp ++ [a])
        fun hm => hv (List.mem_cons_of_mem _ hm)
    refine ⟨st', ?_, hc, hidx, hlow, hwork, hstack, ?_, ?_⟩
    · rw [List.cons_append, popTo, if_neg hav]
      exact hpop
    · rw [hcomps, List.append_assoc]
      rfl
    · intro x
      rw [hon x, List.cons_append, List.mem_cons, not_or, and_assoc, and_left_comm]
      exact and_congr_right fun _ => isOn_off

/-- What comes off the stack is off it. -/
theorem Agrees.pop {above below : List NodeId} (h : Agrees st s) (hi : Search.Inv next s)
    (hs : s.stack = above ++ v :: below) (hc : st'.counter = st.counter) (hidx : st'.indices = st.indices)
    (hlow : st'.lowlink = st.lowlink) (hstack : st'.stack = below)
    (hcomps : st'.components = st.components ++ [above ++ [v]])
    (hon : ∀ x, st'.isOn x = true ↔ x ∉ above ++ [v] ∧ st.isOn x = true) : Agrees st' (s.pop v above below) where
  counter := hc.trans h.counter
  indices x i := by
    rw [hidx, h.indices, Search.met_pop hs]
    rfl
  lowlink x hx := by
    rw [hlow]
    exact h.lowlink x ((Search.met_pop hs).1 hx)
  isOn x := by
    rw [hon x, h.isOn x, Search.mem_stack hs]
    constructor
    · rintro ⟨hno, hx⟩
      exact hx.resolve_left hno
    · intro hx
      refine ⟨?_, .inr hx⟩
      intro hin
      have h₁ := hi.lt_of_below hs hx
      have h₂ := hi.le_of_above hs hin
      omega
  stack := hstack
  components := by
    rw [hcomps, h.components]
    rfl

section Finish

variable {low index : ℕ} {st₁ : Tarjan}

theorem finish_last (hlow : lookUp st.lowlink v = .ok low) (hindex : lookUp st.indices v = .ok index)
    (hpop : (if low = index then popTo v st [] st.stack else .ok st) = .ok st₁) (hwork : st₁.work.tail = []) :
    finish v st = .ok { st₁ with work := [] } := by
  by_cases hroot : low = index
  · rw [if_pos hroot] at hpop
    simp only [finish, hlow, hindex, Bind.bind, Except.bind, if_pos hroot, hpop, hwork]
  · rw [if_neg hroot] at hpop
    cases hpop
    simp only [finish, hlow, hindex, Bind.bind, Except.bind, if_neg hroot, hwork]

theorem finish_before {u : NodeId} {q above : ℕ} {rest : List (NodeId × ℕ)}
    (hlow : lookUp st.lowlink v = .ok low) (hindex : lookUp st.indices v = .ok index)
    (hpop : (if low = index then popTo v st [] st.stack else .ok st) = .ok st₁)
    (hwork : st₁.work.tail = (u, q) :: rest) (hu : lookUp st₁.lowlink u = .ok above) :
    finish v st = .ok (if low < above then
      { st₁ with work := (u, q) :: rest, lowlink := st₁.lowlink.set u low }
      else { st₁ with work := (u, q) :: rest }) := by
  by_cases hroot : low = index
  · rw [if_pos hroot] at hpop
    simp only [finish, hlow, hindex, Bind.bind, Except.bind, if_pos hroot, hpop, hwork, hu]
  · rw [if_neg hroot] at hpop
    cases hpop
    simp only [finish, hlow, hindex, Bind.bind, Except.bind, if_neg hroot, hwork, hu]

end Finish

/-- **A node is left**: it is the first of a component, or its low link goes to the node before it. -/
theorem finish_spec (h : Agrees st s) (hi : Search.Inv next s) (hpath : s.path = (v, p) :: rest)
    (hlen : (next v).length ≤ p) (hwork : st.work = (v, p) :: rest) :
    ∃ st' s', finish v st = .ok st' ∧ Agrees st' s' ∧ Search.Inv next s' ∧ (∀ x, s'.Met x ↔ s.Met x) ∧
      s'.path = rest ∧ st'.work = rest := by
  have hvs : v ∈ s.stack := hi.top_mem hpath
  by_cases hroot : s.low v = s.rank v
  · obtain ⟨above, below, hs, hnot⟩ := List.eq_append_cons_of_mem hvs
    obtain ⟨st₁, hpop, hc, hidx, hlow, hwork₁, hstack, hcomps, hon⟩ := popTo_spec below st [] hnot
    rw [← hs, ← h.stack] at hpop
    have h₁ : Agrees st₁ (s.pop v above below) := h.pop hi hs hc hidx hlow hstack hcomps hon
    have hi₁ := hi.pop hpath hlen hroot hs
    have hpath₁ : (s.pop v above below).path = rest := by
      change s.path.tail = rest
      rw [hpath, List.tail_cons]
    have htail : st₁.work.tail = rest := by rw [hwork₁, hwork, List.tail_cons]
    refine ⟨{ st₁ with work := rest }, _, ?_, h₁.work _, hi₁, fun x => Search.met_pop hs, hpath₁, rfl⟩
    have hlow := h.low (.inl hvs)
    have hindex := h.index (.inl hvs)
    have hone : (if s.low v = s.rank v then popTo v st [] st.stack else .ok st) = .ok st₁ := by
      rw [if_pos hroot]
      exact hpop
    cases rest with
    | nil => exact finish_last hlow hindex hone htail
    | cons e rest =>
      obtain ⟨u, q⟩ := e
      -- the node before it has a lower link already
      have hu : u ∈ s.grey := by
        rw [Search.grey_of_path hpath]
        exact List.mem_cons_of_mem _ List.mem_cons_self
      have hlt : s.rank u < s.rank v := hi.rank_lt_top hpath List.mem_cons_self
      have hle := hi.low_le u hu
      have hmet : (s.pop v above below).Met u := .inl (hi₁.top_mem hpath₁)
      have habove : lookUp st₁.lowlink u = .ok (s.low u) := h₁.low hmet
      rw [finish_before hlow hindex hone htail habove, if_neg (by omega)]
  · obtain ⟨g, hg, -⟩ := hi.exists_earlier hpath hroot
    obtain ⟨⟨u, q⟩, rest, rfl⟩ := List.exists_cons_of_ne_nil (fun hnil : rest = [] => by rw [hnil] at hg; cases hg)
    have hi₁ := hi.retreat hpath hlen hroot
    have hpath₁ : (s.retreat v u).path = (u, q) :: rest := by
      change s.path.tail = _
      rw [hpath, List.tail_cons]
    have hu : s.Met u := .inl (hi₁.top_mem hpath₁)
    have hfin : finish v st = .ok (if s.low v < s.low u then
        { st with work := (u, q) :: rest, lowlink := st.lowlink.set u (s.low v) } else { st with work := (u, q) :: rest }) := by
      have hsame : (if s.low v = s.rank v then popTo v st [] st.stack else .ok st) = .ok st := if_neg hroot
      have htail : st.work.tail = (u, q) :: rest := by
        rw [hwork]
        rfl
      exact finish_before (h.low (.inl hvs)) (h.index (.inl hvs)) hsame htail (h.low hu)
    refine ⟨_, _, hfin, ?_, hi₁, fun x => Iff.rfl, hpath₁, by split <;> rfl⟩
    by_cases hlt : s.low v < s.low u
    · rw [if_pos hlt]
      have hself : (s.retreat v u).low u = s.low v := Search.low_retreat_self.trans (if_pos hlt)
      have hother : ∀ x, x ≠ u → (s.retreat v u).low x = s.low x := fun x hx => Search.low_retreat hx
      exact (h.work ((u, q) :: rest)).setLow hself hother s.path.tail
    · rw [if_neg hlt]
      refine (h.work _).keepLow ?_ _
      intro x
      rw [if_neg hlt]

/-! ## The loops -/

/-- Met, or waiting to be. -/
def Known (st : Tarjan) (v : NodeId) : Prop := st.indices.contains v = true ∨ v ∈ st.work.map Prod.fst

theorem Known.met (h : st.Known v) (hw : st.work = []) : st.indices.contains v = true := by
  unfold Known at h
  rw [hw] at h
  exact h.resolve_right List.not_mem_nil

/-- Between two rounds: the work to do is the path, or there is a new node in front of it. -/
inductive Stage (next : NodeId → List NodeId) (nodes : List NodeId) (st : Tarjan) (s : Search NodeId) : Prop
  | going (hwork : st.work = s.path) (hpos : ∀ e ∈ s.path, e.2 ≠ 0)
  | fresh (w : NodeId) (hw : w ∈ nodes) (hnew : ¬ s.Met w) (hwork : st.work = (w, 0) :: Search.bump s.path)
      (hpos : ∀ e ∈ Search.bump s.path, e.2 ≠ 0) (hhead : ∀ u p, s.path.head? = some (u, p) → (next u)[p]? = some w)

/-- What holds between two rounds. -/
def Ready (next : NodeId → List NodeId) (nodes : List NodeId) (st : Tarjan) : Prop :=
  ∃ s, Agrees st s ∧ Search.Inv next s ∧ (∀ v, s.Met v → v ∈ nodes) ∧ Stage next nodes st s

/-- **Where a round begins**: the new node has been met. -/
theorem Ready.start (h : Ready next nodes st) (hwork : st.work = (v, p) :: rest) :
    ∃ s, Agrees (if p = 0 then st.enter v else st) s ∧ Search.Inv next s ∧ s.path = (v, p) :: rest ∧
      (∀ x, s.Met x → x ∈ nodes) ∧ (∀ e ∈ rest, e.2 ≠ 0) ∧ ∀ x, s.Met x ↔ st.Known x := by
  obtain ⟨s, ha, hi, hsub, hstage⟩ := h
  have hpathMet : ∀ x, x ∈ s.path.map Prod.fst → s.Met x := fun x hx => .inl (hi.onPath x hx)
  cases hstage with
  | going hw hpos =>
    rw [hwork] at hw
    have hp : p ≠ 0 := by
      refine hpos (v, p) ?_
      rw [← hw]
      exact List.mem_cons_self
    rw [if_neg hp]
    refine ⟨s, ha, hi, hw.symm, hsub, ?_, ?_⟩
    · intro e he
      refine hpos e ?_
      rw [← hw]
      exact List.mem_cons_of_mem _ he
    · intro x
      unfold Known
      rw [ha.contains_iff, hwork, hw]
      exact ⟨.inl, fun hx => hx.elim id (hpathMet x)⟩
  | fresh w hwn hnew hw hpos hhead =>
    rw [hwork] at hw
    obtain ⟨he, rfl⟩ := List.cons.inj hw
    obtain ⟨rfl, rfl⟩ := Prod.mk.inj he
    rw [if_pos rfl]
    refine ⟨s.enter v, ha.enter hnew, hi.enter hnew hhead, rfl, ?_, hpos, ?_⟩
    · intro x hx
      rcases Search.met_enter.1 hx with rfl | hx
      · exact hwn
      · exact hsub x hx
    · intro x
      unfold Known
      rw [Search.met_enter, ha.contains_iff, hwork, List.map_cons, List.mem_cons, Search.map_bump]
      constructor
      · rintro (hx | hx)
        · exact .inr (.inl hx)
        · exact .inl hx
      · rintro (hx | hx | hx)
        · exact .inr hx
        · exact .inl hx
        · exact .inr (hpathMet x hx)

/-- The nodes that nothing is known of yet. -/
def unknown (nodes : List NodeId) (st : Tarjan) : Finset NodeId :=
  nodes.toFinset.filter fun v => ¬ (st.indices.contains v = true ∨ v ∈ st.work.map Prod.fst)

/-- How many rounds there are left at most. -/
def rounds (nodes : List NodeId) (st : Tarjan) : ℕ := 2 * (unknown nodes st).card + st.work.length

theorem mem_unknown : v ∈ unknown nodes st ↔ v ∈ nodes ∧ ¬ st.Known v := by
  unfold unknown Known
  rw [Finset.mem_filter, List.mem_toFinset]

variable {adj : OrdDict NodeId (List NodeId)}

theorem turn_cons {v : NodeId} {p : ℕ} {rest : List (NodeId × ℕ)} (hwork : st.work = (v, p) :: rest) :
    turn adj st = (lookUp adj v).bind fun neighbors =>
      (scan v (neighbors.drop p) p (if p = 0 then st.enter v else st)).bind fun r =>
        if r.1 then .ok r.2 else finish v r.2 := by
  unfold turn
  rw [hwork]
  rfl

/-- **A round** goes through, loses nothing that was known, and brings the end nearer. -/
theorem turn_spec (hadj : ∀ v ∈ nodes, adj.get? v = some (next v)) (hnext : ∀ v ∈ nodes, ∀ w ∈ next v, w ∈ nodes)
    (h : Ready next nodes st) (hne : st.work ≠ []) :
    ∃ st', turn adj st = .ok st' ∧ Ready next nodes st' ∧ (∀ x, st.Known x → st'.Known x) ∧
      rounds nodes st' < rounds nodes st := by
  obtain ⟨⟨v, p⟩, rest, hwork⟩ := List.exists_cons_of_ne_nil hne
  obtain ⟨s₁, ha₁, hi₁, hpath₁, hsub₁, hpos, hknown⟩ := h.start hwork
  have hv : v ∈ nodes := hsub₁ v (.inl (hi₁.top_mem hpath₁))
  have hwork₁ : (if p = 0 then st.enter v else st).work.tail = rest := by
    have : (if p = 0 then st.enter v else st).work = st.work := by split <;> rfl
    rw [this, hwork, List.tail_cons]
  obtain ⟨b, st₂, s₂, hscan, ha₂, hi₂, hstack, hcomps, hstop⟩ :=
    scan_spec ((next v).drop p) p _ s₁ ha₁ hi₁ hpath₁ rfl hwork₁
  have hmet : ∀ x, s₂.Met x ↔ st.Known x := by
    intro x
    rw [← hknown x]
    unfold Search.Met Search.done
    rw [hstack, hcomps]
  have hturn : turn adj st = if b then .ok st₂ else finish v st₂ := by
    have hadjv : lookUp adj v = .ok (next v) := by
      unfold lookUp
      rw [hadj v hv]
    rw [turn_cons hwork, hadjv]
    exact congrArg (fun r => r.bind fun r => if r.1 then .ok r.2 else finish v r.2) hscan
  cases b with
  | true =>
    obtain ⟨q, w, hpath₂, hget, hw, hwork₂⟩ := hstop
    have hwn : w ∈ nodes := hnext v hv w (List.mem_of_getElem? hget)
    have hknown₂ : ∀ x, st₂.Known x ↔ x = w ∨ st.Known x := by
      intro x
      rw [← hmet x]
      unfold Known
      rw [ha₂.contains_iff, hwork₂, List.map_cons, List.mem_cons]
      constructor
      · rintro (hx | hx | hx)
        · exact .inr hx
        · exact .inl hx
        · -- the path has been met
          refine .inr (.inl (hi₂.onPath x ?_))
          rw [Search.grey, hpath₂]
          exact hx
      · rintro (hx | hx)
        · exact .inr (.inl hx)
        · exact .inl hx
    refine ⟨st₂, hturn, ⟨s₂, ha₂, hi₂, fun x hx => hsub₁ x ((hknown x).2 ((hmet x).1 hx)), ?_⟩,
      fun x hx => (hknown₂ x).2 (.inr hx), ?_⟩
    · refine .fresh w hwn hw ?_ ?_ ?_
      · rw [hpath₂]
        exact hwork₂
      · rw [hpath₂]
        intro e he
        rcases List.mem_cons.1 he with rfl | he
        · exact Nat.succ_ne_zero q
        · exact hpos e he
      · intro u k hk
        rw [hpath₂, List.head?_cons] at hk
        obtain ⟨rfl, rfl⟩ := Prod.mk.inj (Option.some.inj hk)
        exact hget
    · have hlt : (unknown nodes st₂).card < (unknown nodes st).card := by
        refine Finset.card_lt_card (Finset.ssubset_iff_of_subset ?_ |>.2 ⟨w, ?_, ?_⟩)
        · intro x hx
          rw [mem_unknown] at hx ⊢
          exact ⟨hx.1, fun hk => hx.2 ((hknown₂ x).2 (.inr hk))⟩
        · exact mem_unknown.2 ⟨hwn, fun hk => hw ((hmet w).2 hk)⟩
        · intro hx
          exact (mem_unknown.1 hx).2 ((hknown₂ w).2 (.inl rfl))
      unfold rounds
      rw [hwork₂, hwork]
      simp only [List.length_cons]
      omega
  | false =>
    obtain ⟨q, hpath₂, hlen, hwork₂⟩ := hstop
    obtain ⟨st₃, s₃, hfin, ha₃, hi₃, hmet₃, hpath₃, hwork₃⟩ := finish_spec ha₂ hi₂ hpath₂ hlen hwork₂
    have hknown₃ : ∀ x, st₃.Known x ↔ st.Known x := by
      intro x
      rw [← hmet x, ← hmet₃ x]
      unfold Known
      rw [ha₃.contains_iff, hwork₃, ← hpath₃]
      exact ⟨fun hx => hx.elim id fun hg => .inl (hi₃.onPath x hg), .inl⟩
    refine ⟨st₃, hturn.trans hfin, ⟨s₃, ha₃, hi₃, ?_, ?_⟩, fun x hx => (hknown₃ x).2 hx, ?_⟩
    · intro x hx
      exact hsub₁ x ((hknown x).2 ((hmet x).1 ((hmet₃ x).1 hx)))
    · refine .going (hwork₃.trans hpath₃.symm) ?_
      rw [hpath₃]
      exact hpos
    · have hle : (unknown nodes st₃).card ≤ (unknown nodes st).card := by
        refine Finset.card_le_card ?_
        intro x hx
        rw [mem_unknown] at hx ⊢
        exact ⟨hx.1, fun hk => hx.2 ((hknown₃ x).2 hk)⟩
      unfold rounds
      rw [hwork₃, hwork, List.length_cons]
      omega

/-- **The loop** ends, with all that was known met. -/
theorem spin_spec (hadj : ∀ v ∈ nodes, adj.get? v = some (next v)) (hnext : ∀ v ∈ nodes, ∀ w ∈ next v, w ∈ nodes)
    (fuel : ℕ) (st : Tarjan) (h : Ready next nodes st) (hfuel : rounds nodes st ≤ fuel) :
    ∃ st', spin adj fuel st = .ok (some st') ∧ Ready next nodes st' ∧ st'.work = [] ∧
      ∀ x, st.Known x → st'.indices.contains x = true := by
  induction fuel generalizing st with
  | zero =>
    have hw : st.work = [] := by
      unfold rounds at hfuel
      exact List.length_eq_zero_iff.1 (by omega)
    exact ⟨st, by rw [spin, if_pos hw], h, hw, fun x hx => hx.met hw⟩
  | succ n ih =>
    by_cases hw : st.work = []
    · exact ⟨st, by rw [spin, if_pos hw], h, hw, fun x hx => hx.met hw⟩
    · obtain ⟨st₁, hturn, h₁, hknown, hlt⟩ := turn_spec hadj hnext h hw
      obtain ⟨st', hspin, h', hwork, hmet⟩ := ih st₁ h₁ (by omega)
      refine ⟨st', ?_, h', hwork, fun x hx => hmet x (hknown x hx)⟩
      rw [spin, if_neg hw, hturn]
      exact hspin

/-- **The search** ends, with all roots met. -/
theorem search_spec (hadj : ∀ v ∈ nodes, adj.get? v = some (next v)) (hnext : ∀ v ∈ nodes, ∀ w ∈ next v, w ∈ nodes)
    {fuel : ℕ} (hfuel : 2 * nodes.length < fuel) (roots : List NodeId) (hroots : ∀ v ∈ roots, v ∈ nodes) (st : Tarjan)
    (h : Ready next nodes st) (hw : st.work = []) :
    ∃ st', search adj fuel roots st = .ok (some st') ∧ Ready next nodes st' ∧ st'.work = [] ∧
      (∀ v ∈ roots, st'.indices.contains v = true) ∧ ∀ v, st.indices.contains v = true → st'.indices.contains v = true := by
  induction roots generalizing st with
  | nil => exact ⟨st, rfl, h, hw, fun v hv => absurd hv List.not_mem_nil, fun v hv => hv⟩
  | cons root roots ih =>
    have hroots' : ∀ v ∈ roots, v ∈ nodes := fun v hv => hroots v (List.mem_cons_of_mem _ hv)
    by_cases hin : st.indices.contains root = true
    · obtain ⟨st', hs, h', hw', hmet, hmono⟩ := ih hroots' st h hw
      refine ⟨st', by rw [search, if_pos hin, hs], h', hw', ?_, hmono⟩
      intro v hv
      rcases List.mem_cons.1 hv with rfl | hv
      · exact hmono v hin
      · exact hmet v hv
    · obtain ⟨s, ha, hi, hsub, hstage⟩ := h
      have hpath : s.path = [] := by
        cases hstage with
        | going hwork _ => rw [← hwork, hw]
        | fresh w _ _ hwork => rw [hw] at hwork; cases hwork
      have hnew : ¬ s.Met root := fun hm => hin (ha.contains_iff.2 hm)
      have hready : Ready next nodes { st with work := [(root, 0)] } := by
        refine ⟨s, ha.work _, hi, hsub, .fresh root (hroots root List.mem_cons_self) hnew ?_ ?_ ?_⟩
        · rw [hpath]
          rfl
        · rw [hpath]
          intro e he
          exact absurd he List.not_mem_nil
        · intro u p hp
          rw [hpath] at hp
          cases hp
      have hrounds : rounds nodes { st with work := [(root, 0)] } ≤ fuel := by
        have hcard : (unknown nodes { st with work := [(root, 0)] }).card ≤ nodes.length :=
          (Finset.card_filter_le _ _).trans (List.toFinset_card_le nodes)
        unfold rounds
        rw [List.length_singleton]
        omega
      obtain ⟨st₁, hspin, h₁, hw₁, hknown⟩ := spin_spec hadj hnext fuel _ hready hrounds
      obtain ⟨st', hs, h', hw', hmet, hmono⟩ := ih hroots' st₁ h₁ hw₁
      refine ⟨st', ?_, h', hw', ?_, fun v hv => hmono v (hknown v (.inl hv))⟩
      · rw [search, if_neg hin, hspin]
        exact hs
      · intro v hv
        rcases List.mem_cons.1 hv with rfl | hv
        · exact hmono v (hknown v (.inr List.mem_cons_self))
        · exact hmet v hv

theorem ready_init : Ready next nodes init := by
  refine ⟨⟨fun _ => 0, fun _ => 0, 0, [], [], []⟩, ?_, ?_, ?_, .going rfl fun e he => absurd he List.not_mem_nil⟩
  · refine ⟨rfl, ?_, ?_, ?_, rfl, rfl⟩
    · intro v i
      simp [init, Search.Met, Search.done]
    · intro v hv
      rcases hv with hv | hv <;> cases hv
    · intro v
      simp [init, isOn]
  · constructor <;> simp [Search.grey, Search.done, Search.Met]
  · rintro v (hv | hv) <;> cases hv

/-- **The components** found from all nodes. -/
theorem search_components (hadj : ∀ v ∈ nodes, adj.get? v = some (next v))
    (hnext : ∀ v ∈ nodes, ∀ w ∈ next v, w ∈ nodes) {fuel : ℕ} (hfuel : 2 * nodes.length < fuel) :
    ∃ st, search adj fuel nodes init = .ok (some st) ∧ st.components.flatten.Nodup ∧
      (∀ v, v ∈ st.components.flatten ↔ v ∈ nodes) ∧
      ∀ c ∈ st.components, ∀ u ∈ c, ∀ v, v ∈ c ↔ Mutual (fun a b => b ∈ next a) u v := by
  obtain ⟨st, hs, ⟨s, ha, hi, hsub, hstage⟩, hw, hmet, -⟩ :=
    search_spec hadj hnext hfuel nodes (fun _ hv => hv) init ready_init rfl
  have hpath : s.path = [] := by
    cases hstage with
    | going hwork _ => rw [← hwork, hw]
    | fresh w _ _ hwork => rw [hw] at hwork; cases hwork
  have hstack := hi.stack_eq_nil hpath
  refine ⟨st, hs, ?_, ?_, ?_⟩
  · rw [ha.components]
    exact hi.nodup
  · intro v
    rw [ha.components]
    constructor
    · intro hv
      exact hsub v (.inr hv)
    · intro hv
      have hm := ha.contains_iff.1 (hmet v hv)
      refine hm.resolve_left ?_
      rw [hstack]
      exact List.not_mem_nil
  · rw [ha.components]
    exact hi.classes

end Tarjan

/-! ## The graph -/

variable {u v : NodeId}

/-- Where the entries of a list lead. -/
theorem targets_spec (es : List (List Char)) (h : [] ∉ es) :
    ∃ ts, targets es = .ok ts ∧ ∀ v, v ∈ ts ↔ ∃ kind, kind ≠ '<' ∧ kind :: v ∈ es := by
  induction es with
  | nil => exact ⟨[], rfl, fun v => by simp⟩
  | cons e es ih =>
    rw [List.mem_cons, not_or] at h
    obtain ⟨ts, hts, hmem⟩ := ih h.2
    cases e with
    | nil => exact absurd rfl h.1
    | cons k x =>
      refine ⟨if k = '<' then ts else x :: ts, ?_, ?_⟩
      · rw [targets, hts]
        rfl
      · intro v
        by_cases hk : k = '<'
        · rw [if_pos hk, hmem v]
          constructor
          · rintro ⟨kind, hne, hin⟩
            exact ⟨kind, hne, List.mem_cons_of_mem _ hin⟩
          · rintro ⟨kind, hne, hin⟩
            refine ⟨kind, hne, (List.mem_cons.1 hin).resolve_left ?_⟩
            intro heq
            exact hne ((List.cons.inj heq).1.trans hk)
        · rw [if_neg hk, List.mem_cons, hmem v]
          constructor
          · rintro (rfl | ⟨kind, hne, hin⟩)
            · exact ⟨k, hk, List.mem_cons_self⟩
            · exact ⟨kind, hne, List.mem_cons_of_mem _ hin⟩
          · rintro ⟨kind, hne, hin⟩
            rcases List.mem_cons.1 hin with heq | hin
            · exact .inl (List.cons.inj heq).2
            · exact .inr ⟨kind, hne, hin⟩

/-- **The neighbours of the nodes** are read. -/
theorem Consistent.wp_readTargets (h : Consistent cfg db) (ids : List NodeId) (hids : ∀ id ∈ ids, id ∈ db.nodeIds)
    (adj : OrdDict NodeId (List NodeId)) (db₀ : Db P C) (hs : Same cfg db db₀) :
    Wp (readTargets cfg ids adj) db₀ (fun adj' db' => Same cfg db db' ∧
      (∀ id ∈ ids, ∃ ts, adj'.get? id = some ts ∧ ∀ v, v ∈ ts ↔ db.Leads id v) ∧
      ∀ id, id ∉ ids → adj'.get? id = adj.get? id) fun _ _ => False := by
  induction ids generalizing adj db₀ with
  | nil =>
    unfold readTargets
    rw [wp_ret]
    exact ⟨hs, fun id hid => absurd hid List.not_mem_nil, fun id _ => rfl⟩
  | cons id ids ih =>
    obtain ⟨es, hes, hread⟩ := h.wp_entries (hids id List.mem_cons_self)
    unfold readTargets
    rw [wp_bind]
    refine wp_mono (hread db₀ hs) ?_ fun _ _ h => h
    rintro es db₁ ⟨rfl, hs₁⟩
    obtain ⟨ts, hts, hmem⟩ := targets_spec es fun hnil => nil_not_mem_implied ((hes []).1 hnil)
    rw [hts, wp_bind, wp_lift]
    refine ⟨?_, fun _ he => by cases he⟩
    rintro _ ⟨⟩
    have hleads : ∀ v, v ∈ ts.eraseDups ↔ db.Leads id v := by
      intro v
      rw [List.mem_eraseDups, hmem v, leads_iff]
      simp only [hes]
    refine wp_mono (ih (fun x hx => hids x (List.mem_cons_of_mem _ hx)) _ db₁ hs₁) ?_ fun _ _ h => h
    rintro adj' db' ⟨hs', hin, hout⟩
    refine ⟨hs', ?_, ?_⟩
    · intro x hx
      by_cases hxs : x ∈ ids
      · exact hin x hxs
      · obtain rfl : x = id := (List.mem_cons.1 hx).resolve_right hxs
        refine ⟨ts.eraseDups, ?_, hleads⟩
        rw [hout x hxs, OrdDict.get?_set, if_pos rfl]
    · intro x hx
      rw [List.mem_cons, not_or] at hx
      rw [hout x hx.2, OrdDict.get?_set, if_neg hx.1]

/-- **Strongly connected components.** With two rounds for each node the search ends; every node is in
exactly one component, and two nodes are in the same one iff each is reached from the other. -/
theorem stronglyConnectedComponents_spec (h : Consistent cfg db) {fuel : ℕ} (hfuel : 2 * db.nodeIds.length < fuel) :
    Wp (stronglyConnectedComponents cfg fuel) db (fun r db' => Same cfg db db' ∧ ∃ comps, r = some comps ∧
      comps.flatten.Nodup ∧ (∀ v, v ∈ comps.flatten ↔ v ∈ db.nodeIds) ∧
      ∀ u ∈ db.nodeIds, ∀ v ∈ db.nodeIds, (∃ c ∈ comps, u ∈ c ∧ v ∈ c) ↔
        Relation.ReflTransGen db.Leads u v ∧ Relation.ReflTransGen db.Leads v u) fun _ _ => False := by
  unfold stronglyConnectedComponents
  rw [wp_bind, wp_get, wp_bind]
  refine wp_mono (h.wp_readTargets db.nodeIds (fun _ hid => hid) OrdDict.empty db (Same.refl h.sound)) ?_ fun _ _ h => h
  rintro adj db' ⟨hs, hin, hout⟩
  -- what the dictionary says of the nodes, and nothing of the others
  have hnext : ∀ u v, v ∈ (adj.get? u).getD [] ↔ db.Leads u v := by
    intro u v
    by_cases hu : u ∈ db.nodeIds
    · obtain ⟨ts, hts, hmem⟩ := hin u hu
      rw [hts]
      exact hmem v
    · rw [hout u hu, OrdDict.get?_empty]
      constructor
      · intro hv
        exact absurd hv List.not_mem_nil
      · intro hl
        exact absurd (h.mem_of_leads hl).1 hu
  obtain ⟨st, hst, hnodup, hmem, hclass⟩ :=
    @Tarjan.search_components (fun u => (adj.get? u).getD []) db.nodeIds adj
      (fun v hv => by
        obtain ⟨ts, hts, -⟩ := hin v hv
        rw [hts]
        rfl)
      (fun v _ w hw => (h.mem_of_leads ((hnext v w).1 hw)).2) fuel hfuel
  have hrel : (fun a b => b ∈ (adj.get? a).getD []) = db.Leads := by
    funext a b
    exact propext (hnext a b)
  rw [hrel] at hclass
  rw [wp_bind, wp_lift]
  refine ⟨?_, ?_⟩
  · intro a ha
    rw [hst] at ha
    cases ha
    rw [wp_ret]
    refine ⟨hs, st.components, rfl, hnodup, hmem, ?_⟩
    intro u hu v _
    constructor
    · rintro ⟨c, hc, huc, hvc⟩
      exact (hclass c hc u huc v).1 hvc
    · intro huv
      obtain ⟨c, hc, huc⟩ := List.mem_flatten.1 ((hmem u).2 hu)
      exact ⟨c, hc, huc, (hclass c hc u huc v).2 huv⟩
  · intro e he
    rw [hst] at he
    cases he

/-! ## What the patterns do not see -/

namespace Tarjan

variable {adj : OrdDict NodeId (List NodeId)} {st st' : Tarjan} {node : NodeId}

/-- Whatever is on the stack or in a component has been looked up. -/
def Looked (adj : OrdDict NodeId (List NodeId)) (st : Tarjan) : Prop :=
  ∀ x, x ∈ st.stack ∨ x ∈ st.components.flatten → ∃ ts, adj.get? x = some ts

/-- Neighbours that are looked at go nowhere. -/
theorem scan_keeps (ws : List NodeId) : ∀ {pi : ℕ} {st : Tarjan} {b : Bool}, scan node ws pi st = .ok (b, st') →
    st'.stack = st.stack ∧ st'.components = st.components := by
  induction ws with
  | nil =>
    intro pi st b h
    cases h
    exact ⟨rfl, rfl⟩
  | cons w ws ih =>
    intro pi st b h
    unfold scan at h
    split at h
    · cases h
      exact ⟨rfl, rfl⟩
    · split at h
      · obtain ⟨index, -, h⟩ := bind_ok h
        obtain ⟨low, -, h⟩ := bind_ok h
        obtain ⟨hstack, hcomps⟩ := ih h
        constructor
        · rw [hstack]
          split <;> rfl
        · rw [hcomps]
          split <;> rfl
      · exact ih h

/-- What comes off the stack goes into one component. -/
theorem popTo_keeps (stack : List NodeId) : ∀ {st : Tarjan} {comp : List NodeId}, popTo node st comp stack = .ok st' →
    ∀ x, x ∈ st'.stack ∨ x ∈ st'.components.flatten → x ∈ stack ∨ x ∈ comp ∨ x ∈ st.components.flatten := by
  induction stack with
  | nil =>
    intro st comp h
    cases h
  | cons w rest ih =>
    intro st comp h x hx
    unfold popTo at h
    simp only at h
    split at h
    · cases h
      rcases hx with hx | hx
      · exact .inl (List.mem_cons_of_mem _ hx)
      · simp only [List.flatten_append, List.mem_append, List.flatten_cons, List.flatten_nil, List.append_nil] at hx
        rcases hx with hx | hx | hx
        · exact .inr (.inr hx)
        · exact .inr (.inl hx)
        · exact .inl (List.mem_singleton.1 hx ▸ List.mem_cons_self)
    · rcases ih h x hx with hx | hx | hx
      · exact .inl (List.mem_cons_of_mem _ hx)
      · rcases List.mem_append.1 hx with hx | hx
        · exact .inr (.inl hx)
        · exact .inl (List.mem_singleton.1 hx ▸ List.mem_cons_self)
      · exact .inr (.inr hx)

theorem Looked.finish (h : Looked adj st) (hf : finish node st = .ok st') : Looked adj st' := by
  unfold Tarjan.finish at hf
  obtain ⟨low, -, hf⟩ := bind_ok hf
  obtain ⟨index, -, hf⟩ := bind_ok hf
  have hpop : ∀ st₁, popTo node st [] st.stack = .ok st₁ → Looked adj st₁ := by
    intro st₁ hpop x hx
    rcases popTo_keeps st.stack hpop x hx with hx | hx | hx
    · exact h x (.inl hx)
    · exact absurd hx List.not_mem_nil
    · exact h x (.inr hx)
  dsimp only at hf
  split at hf
  all_goals
    obtain ⟨st₁, hst, hf⟩ := bind_ok hf
    have h₁ : Looked adj st₁ := by
      first
        | exact hpop st₁ hst
        | exact Except.ok.inj hst ▸ h
    split at hf
    · cases hf
      exact h₁
    · obtain ⟨above, -, hf⟩ := bind_ok hf
      cases hf
      split
      · exact h₁
      · exact h₁

/-- **A round** enters a node, and then looks it up. -/
theorem Looked.turn (h : Looked adj st) (ht : turn adj st = .ok st') : Looked adj st' := by
  cases hwork : st.work with
  | nil =>
    unfold Tarjan.turn at ht
    rw [hwork] at ht
    cases ht
    exact h
  | cons top rest =>
    obtain ⟨v, p⟩ := top
    rw [turn_cons hwork] at ht
    obtain ⟨neighbors, hlook, ht⟩ := bind_ok ht
    obtain ⟨r, hscan, ht⟩ := bind_ok ht
    have hv : ∃ ts, adj.get? v = some ts := by
      unfold lookUp at hlook
      split at hlook
      · rename_i ts hts
        exact ⟨ts, hts⟩
      · cases hlook
    have henter : Looked adj (if p = 0 then st.enter v else st) := by
      split
      · rintro x (hx | hx)
        · rcases List.mem_cons.1 hx with rfl | hx
          · exact hv
          · exact h x (.inl hx)
        · exact h x (.inr hx)
      · exact h
    obtain ⟨hstack, hcomps⟩ := scan_keeps _ (show scan v _ p _ = .ok (r.1, r.2) from hscan)
    have hr : Looked adj r.2 := by
      unfold Looked
      rw [hstack, hcomps]
      exact henter
    split at ht
    · cases ht
      exact hr
    · exact hr.finish ht

theorem Looked.spin (n : ℕ) : ∀ {st : Tarjan} {r : Option Tarjan}, Looked adj st → spin adj n st = .ok r →
    ∀ st' ∈ r, Looked adj st' := by
  induction n with
  | zero =>
    intro st r h hs st' hr
    cases hs
    split at hr
    · cases hr
      exact h
    · cases hr
  | succ n ih =>
    intro st r h hs st' hr
    unfold Tarjan.spin at hs
    split at hs
    · cases hs
      cases hr
      exact h
    · obtain ⟨st₁, hturn, hs⟩ := bind_ok hs
      exact ih (h.turn hturn) hs st' hr

theorem Looked.search {fuel : ℕ} (roots : List NodeId) : ∀ {st : Tarjan} {r : Option Tarjan}, Looked adj st →
    search adj fuel roots st = .ok r → ∀ st' ∈ r, Looked adj st' := by
  induction roots with
  | nil =>
    intro st r h hs st' hr
    cases hs
    cases hr
    exact h
  | cons root roots ih =>
    intro st r h hs st' hr
    unfold Tarjan.search at hs
    split at hs
    · exact ih h hs st' hr
    · obtain ⟨r₁, hspin, hs⟩ := bind_ok hs
      split at hs
      · cases hs
        cases hr
      · rename_i st₁
        exact ih (Looked.spin fuel (show Looked adj { st with work := [(root, 0)] } from h) hspin st₁ rfl) hs st' hr

end Tarjan

/-- Lists are read for the nodes that are asked for. -/
theorem wp_readTargets_other (ids : List NodeId) : ∀ {adj : OrdDict NodeId (List NodeId)} {db : Db P C},
    Wp (readTargets cfg ids adj) db (fun adj' _ => ∀ id, id ∉ ids → adj'.get? id = adj.get? id) fun _ _ => True := by
  induction ids with
  | nil =>
    intro adj db id _
    rfl
  | cons id ids ih =>
    intro adj db
    unfold readTargets
    rw [wp_bind]
    refine wp_mono (Exec.wp_trivial (fGetAdj cfg id) db) ?_ fun _ _ h => h
    intro es db₁ _
    rw [wp_bind, wp_lift]
    refine ⟨fun ts _ => ?_, fun _ _ => trivial⟩
    refine wp_mono ih ?_ fun _ _ h => h
    intro adj' _ hadj x hx
    rw [List.mem_cons, not_or] at hx
    rw [hadj x hx.2, OrdDict.get?_set, if_neg hx.1]

/-- **A component has no node that is not seen**, whatever the graph. -/
theorem wp_components_seen {fuel : ℕ} : Wp (stronglyConnectedComponents cfg fuel) db
    (fun r _ => ∀ comps ∈ r, ∀ v ∈ comps.flatten, v ∈ db.nodeIds) fun _ _ => True := by
  unfold stronglyConnectedComponents
  rw [wp_bind, wp_get, wp_bind]
  refine wp_mono (wp_readTargets_other db.nodeIds) ?_ fun _ _ h => h
  intro adj _ hadj
  rw [wp_bind, wp_lift]
  refine ⟨fun r hr => ?_, fun _ _ => trivial⟩
  intro comps hcomps v hv
  obtain ⟨st, hst, rfl⟩ := Option.map_eq_some_iff.1 hcomps
  have hinit : Tarjan.Looked adj Tarjan.init := by
    rintro x (hx | hx) <;> cases hx
  obtain ⟨ts, hts⟩ := Tarjan.Looked.search db.nodeIds hinit hr st hst v (.inr hv)
  by_contra hno
  rw [hadj v hno, OrdDict.get?_empty] at hts
  cases hts

/-- **The classes of mutual reachability**: the search ends, every node that is there is in exactly one
component, and two nodes are in the same one iff each is reached from the other. -/
def Partitions (cfg : Config P C) (db : Db P C) (fuel : ℕ) : Prop :=
  Wp (stronglyConnectedComponents cfg fuel) db (fun r _ => ∃ comps, r = some comps ∧
    comps.flatten.Nodup ∧ (∀ v, v ∈ comps.flatten ↔ db.holds (nodeKey v) = true) ∧
    ∀ u v, db.holds (nodeKey u) = true → db.holds (nodeKey v) = true → ((∃ c ∈ comps, u ∈ c ∧ v ∈ c) ↔
      Relation.ReflTransGen (Leads db.edges) u v ∧ Relation.ReflTransGen (Leads db.edges) v u)) fun _ _ => False

/-- **Strongly connected components** of a graph in order, with two rounds for each node: they are the
classes of mutual reachability just when no id holds a newline. -/
theorem partitions_iff (h : InOrder cfg db) {fuel : ℕ} (hfuel : 2 * db.nodeIds.length < fuel) :
    Partitions cfg db fuel ↔ db.Plain := by
  constructor
  · intro hparts id hid
    -- a node that is not seen is in no component
    obtain ⟨r, db', hrun, comps, rfl, -, hmem, -⟩ := hparts.returns
    have hseen := wp_components_seen.ok hrun comps rfl id ((hmem id).2 hid)
    exact (h.mem_nodeIds.1 hseen).2
  · intro hp
    unfold Partitions
    rw [← h.seenEdges_eq hp]
    refine wp_mono (stronglyConnectedComponents_spec (h.consistent hp) hfuel) ?_ fun _ _ h => h
    rintro r db' ⟨-, comps, rfl, hnodup, hmem, hclass⟩
    refine ⟨comps, rfl, hnodup, fun v => ?_, fun u v hu hv => ?_⟩
    · rw [hmem, h.mem_nodeIds_of_plain hp]
    · rw [← h.mem_nodeIds_of_plain hp] at hu hv
      exact hclass u hu v hv

/-- Each in its place: `b` and `c` reach each other, `a` is not reached. -/
theorem partitions_small : Partitions asIs small 7 ↔ small.Plain :=
  partitions_iff small_inOrder (by rw [small_nodeIds]; decide)

/-- One node, whose id ends in a newline. -/
def ended : Db (List ℕ) (Val (List ℕ)) where
  table := ⟨[(nodeKey ['b', '\n'], .props []), (N_NODES, .num 1)], by decide⟩
  rows := [nodeKey ['b', '\n'], N_NODES]
  cache := OrdDict.empty

theorem ended_inOrder : InOrder asIs ended := by
  have hr : Runs (Update.Step asIs) Db.init [.addNode ['b', '\n'] []] ended := .tail .refl rfl
  exact inOrder_of_runs asIs_lawful ⟨_, rfl⟩ hr

/-- **A node that is not seen**: `add_node` made it, and it is in no component. -/
theorem partitions_ended : (fAddNode asIs (pure ()) ['b', '\n'] []).run Db.init = (.ok true, ended) ∧
    InOrder asIs ended ∧ ¬ Partitions asIs ended 1 := by
  refine ⟨rfl, ended_inOrder, fun h => ?_⟩
  have hrun : (stronglyConnectedComponents asIs 1).run ended = (.ok (some []), ended) := rfl
  obtain ⟨comps, hr, -, hmem, -⟩ := h.ok hrun
  cases hr
  have hb := (hmem ['b', '\n']).2 (by decide)
  cases hb

end Graph

end OmniJsonDb

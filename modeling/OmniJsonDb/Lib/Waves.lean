import Mathlib.Data.List.Chain
import Mathlib.Data.List.Nodup
import Mathlib.Data.List.Perm.Subperm
import Mathlib.Logic.Relation
import Mathlib.Order.Bounds.Defs
import Mathlib.Tactic.Common

/-!
# Waves

What a breadth-first search keeps, over any nodes and any lists of neighbours. The search leaves the
nodes it has met in the order it met them, each with its number of hops from the start.

* `Way`, `Hops`, `Far`: ways, hops, and the least number of hops.
* `fresh`: the neighbours that are new.
* `Wave`: the invariant; `Wave.start` and `Wave.leave` are its two moves.
* `Wave.far`, `Wave.mem_of_hops`, `Wave.far_iff`: what has been met, and how far away it is.
* `Tree`, `Tree.traces`: the way back along the nodes that others were met from.
-/

namespace OmniJsonDb

namespace Waves

variable {α : Type*} {R : α → α → Prop} {next : α → List α} {s t x y : α} {m n d : ℕ} {p : List α}

/-! ## Ways -/

/-- A way from `s` to `t`. -/
structure Way (R : α → α → Prop) (s t : α) (p : List α) : Prop where
  head : p.head? = some s
  last : p.getLast? = some t
  chain : p.IsChain R

theorem Way.single (s : α) : Way R s s [s] := ⟨rfl, rfl, List.isChain_singleton s⟩

theorem Way.length_pos (h : Way R s t p) : 0 < p.length :=
  List.length_pos_of_ne_nil fun hnil => by
    have hhead := h.head
    rw [hnil] at hhead
    cases hhead

/-- A way goes one step further. -/
theorem Way.snoc (h : Way R s x p) (hxy : R x y) : Way R s y (p ++ [y]) where
  head := by rw [List.head?_append, h.head]; rfl
  last := List.getLast?_concat
  chain := by
    rw [List.isChain_append]
    refine ⟨h.chain, List.isChain_singleton y, ?_⟩
    intro a ha b hb
    have hax : a = x := by
      have ha' : p.getLast? = some a := ha
      rw [h.last] at ha'
      exact (Option.some.inj ha').symm
    have hby : b = y := (Option.some.inj hb).symm
    rw [hax, hby]
    exact hxy

/-- A way of more than one node has a last step. -/
theorem Way.unsnoc (h : Way R s y (p ++ [x])) : x = y ∧ (p = [] ∧ s = y ∨ ∃ z, Way R s z p ∧ R z y) := by
  have hxy : x = y := by
    have hlast := h.last
    rw [List.getLast?_concat] at hlast
    exact Option.some.inj hlast
  refine ⟨hxy, ?_⟩
  by_cases hp : p = []
  · refine .inl ⟨hp, ?_⟩
    have hhead := h.head
    rw [hp] at hhead
    have hxs : x = s := Option.some.inj hhead
    rw [← hxs, hxy]
  · have hchain := List.isChain_append.1 h.chain
    refine .inr ⟨p.getLast hp, ⟨?_, List.getLast?_eq_some_getLast hp, hchain.1⟩, ?_⟩
    · have hhead := h.head
      rwa [List.head?_append_of_ne_nil _ hp] at hhead
    · rw [← hxy]
      exact hchain.2.2 _ (List.getLast?_eq_some_getLast hp) x rfl

/-- `n` hops lead from `s` to a node. -/
inductive Hops (next : α → List α) (s : α) : ℕ → α → Prop
  | here : Hops next s 0 s
  | hop {n : ℕ} {x y : α} : Hops next s n x → y ∈ next x → Hops next s (n + 1) y

/-- `n` hops, and no fewer. -/
def Far (next : α → List α) (s : α) (n : ℕ) (x : α) : Prop := IsLeast {m | Hops next s m x} n

theorem Far.unique (h : Far next s n x) (h' : Far next s m x) : n = m :=
  le_antisymm (h.2 h'.1) (h'.2 h.1)

/-- Ways are hops. -/
theorem hops_iff : Hops next s n x ↔ ∃ p, Way (fun a b => b ∈ next a) s x p ∧ p.length = n + 1 := by
  constructor
  · intro h
    induction h with
    | here => exact ⟨[s], Way.single s, rfl⟩
    | hop _ hxy ih =>
      obtain ⟨p, hp, hlen⟩ := ih
      refine ⟨p ++ [_], hp.snoc hxy, ?_⟩
      rw [List.length_append, hlen]
      rfl
  · rintro ⟨p, hp, hlen⟩
    induction p using List.reverseRecOn generalizing n x with
    | nil => cases hp.head
    | append_singleton p z ih =>
      obtain ⟨rfl, ⟨rfl, rfl⟩ | ⟨w, hw, hwx⟩⟩ := hp.unsnoc
      · have hn : n = 0 := by simpa using hlen.symm
        rw [hn]
        exact .here
      · rw [List.length_append, List.length_singleton] at hlen
        have hpos := hw.length_pos
        obtain ⟨k, hk⟩ : ∃ k, n = k + 1 := ⟨n - 1, by omega⟩
        rw [hk]
        exact .hop (ih hw (by omega)) hwx

/-- To be reached is to be some hops away. -/
theorem exists_hops_iff : (∃ n, Hops next s n x) ↔ Relation.ReflTransGen (fun a b => b ∈ next a) s x := by
  constructor
  · rintro ⟨n, h⟩
    induction h with
    | here => exact .refl
    | hop _ hxy ih => exact ih.tail hxy
  · intro h
    induction h with
    | refl => exact ⟨0, .here⟩
    | tail _ hxy ih =>
      obtain ⟨n, hn⟩ := ih
      exact ⟨n + 1, hn.hop hxy⟩

theorem Way.hops (h : Way (fun a b => b ∈ next a) s x p) : Hops next s (p.length - 1) x := by
  have hpos := h.length_pos
  exact hops_iff.2 ⟨p, h, by omega⟩

/-- What no edge leaves, no hops leave. -/
theorem Hops.mem {nodes : List α} (h : Hops next s n x) (hs : s ∈ nodes) (hclosed : ∀ x ∈ nodes, ∀ y ∈ next x, y ∈ nodes) :
    x ∈ nodes := by
  induction h with
  | here => exact hs
  | hop _ hxy ih => exact hclosed _ ih _ hxy

/-! ## Neighbours that are new -/

section Fresh

variable [DecidableEq α] {seen : List α}

/-- The nodes of a list that have not been seen, once each. -/
def fresh (seen : List α) : List α → List α
  | [] => []
  | y :: ys => if y ∈ seen then fresh seen ys else y :: fresh (y :: seen) ys

theorem mem_fresh (ys : List α) : y ∈ fresh seen ys ↔ y ∈ ys ∧ y ∉ seen := by
  induction ys generalizing seen with
  | nil => simp [fresh]
  | cons z ys ih =>
    unfold fresh
    by_cases hz : z ∈ seen
    · rw [if_pos hz, ih, List.mem_cons]
      constructor
      · intro h
        exact ⟨.inr h.1, h.2⟩
      · rintro ⟨rfl | h, hno⟩
        · exact absurd hz hno
        · exact ⟨h, hno⟩
    · rw [if_neg hz, List.mem_cons, List.mem_cons, ih, List.mem_cons]
      by_cases hyz : y = z
      · simp [hyz, hz]
      · simp [hyz]

theorem nodup_fresh (ys : List α) : (fresh seen ys).Nodup := by
  induction ys generalizing seen with
  | nil => exact List.nodup_nil
  | cons z ys ih =>
    unfold fresh
    split
    · exact ih
    · refine List.nodup_cons.2 ⟨?_, ih⟩
      intro hz
      exact ((mem_fresh ys).1 hz).2 List.mem_cons_self

/-- What has been seen once a node has been left. -/
theorem mem_seen_leave {left queue : List (α × ℕ)} (hseen : ∀ y, y ∈ seen ↔ y ∈ (left ++ (x, d) :: queue).map Prod.fst)
    (ys : List α) (y : α) : y ∈ (fresh seen ys).reverse ++ seen ↔
      y ∈ (left ++ [(x, d)] ++ (queue ++ (fresh seen ys).map fun y => (y, d + 1))).map Prod.fst := by
  have hy := hseen y
  simp only [List.map_append, List.map_cons, List.map_nil, List.mem_append, List.mem_cons, List.not_mem_nil, or_false,
    List.map_map, List.mem_map, List.mem_reverse, Function.comp_apply, exists_eq_right] at hy ⊢
  rw [hy, or_comm]
  simp only [or_assoc]

end Fresh

/-! ## The invariant -/

/-- The search has left `left` and is to leave `queue` next, in this order. -/
structure Wave (next : α → List α) (s : α) (left queue : List (α × ℕ)) : Prop where
  nodup : ((left ++ queue).map Prod.fst).Nodup
  started : (s, 0) ∈ left ++ queue
  hops : ∀ e ∈ left ++ queue, Hops next s e.2 e.1
  closed : ∀ e ∈ left, ∀ y ∈ next e.1, ∃ n ≤ e.2 + 1, (y, n) ∈ left ++ queue
  rising : (left ++ queue).Pairwise fun d e => d.2 ≤ e.2
  near : ∀ d ∈ queue, ∀ e ∈ queue, e.2 ≤ d.2 + 1

namespace Wave

variable {left queue new : List (α × ℕ)} {e : α × ℕ}

theorem start (next : α → List α) (s : α) : Wave next s [] [(s, 0)] where
  nodup := List.nodup_singleton s
  started := List.mem_singleton_self _
  hops e he := by
    rw [List.nil_append, List.mem_singleton] at he
    rw [he]
    exact .here
  closed e he := absurd he List.not_mem_nil
  rising := List.pairwise_singleton _ _
  near d hd e he := by
    rw [List.mem_singleton] at hd he
    rw [hd, he]
    exact Nat.le_succ 0

/-- A node has been met at one number of hops. -/
theorem unique (h : Wave next s left queue) (hn : (x, n) ∈ left ++ queue) (hm : (x, m) ∈ left ++ queue) : n = m :=
  congrArg Prod.snd (List.inj_on_of_nodup_map h.nodup hn hm rfl)

/-- **What hops lead to** has been met in time, or something nearer is still to be left. -/
theorem mem_of_hops (h : Wave next s left queue) (hy : Hops next s m y) :
    (∃ n ≤ m, (y, n) ∈ left ++ queue) ∨ ∃ e ∈ queue, e.2 < m := by
  induction hy with
  | here => exact .inl ⟨0, le_rfl, h.started⟩
  | @hop m x y _ hxy ih =>
    rcases ih with ⟨n, hn, hx⟩ | ⟨e, he, hlt⟩
    · rcases List.mem_append.1 hx with hx | hx
      · obtain ⟨k, hk, hmem⟩ := h.closed _ hx y hxy
        exact .inl ⟨k, by omega, hmem⟩
      · exact .inr ⟨(x, n), hx, Nat.lt_succ_of_le hn⟩
    · exact .inr ⟨e, he, by omega⟩

/-- **How far away it is.** -/
theorem far (h : Wave next s left queue) (he : (x, n) ∈ left ++ queue) : Far next s n x := by
  refine ⟨h.hops _ he, ?_⟩
  intro m hm
  by_contra hlt
  rw [not_le] at hlt
  rcases h.mem_of_hops hm with ⟨k, hk, hmem⟩ | ⟨e, hqueue, hem⟩
  · have heq := h.unique he hmem
    omega
  · -- what is left is no further away than what is in the queue, and that is no further than one hop
    have hle : n ≤ e.2 + 1 := by
      rcases List.mem_append.1 he with he | he
      · have hrise := (List.pairwise_append.1 h.rising).2.2 _ he _ hqueue
        exact Nat.le_succ_of_le hrise
      · exact h.near _ hqueue _ he
    omega

/-- Everything up to where the queue starts has been met. -/
theorem mem_of_far (h : Wave next s left queue) (hq : ∀ e ∈ queue, d ≤ e.2) (hy : Far next s n y) (hn : n ≤ d) :
    (y, n) ∈ left ++ queue := by
  rcases h.mem_of_hops hy.1 with ⟨k, hk, hmem⟩ | ⟨e, he, hlt⟩
  · have hkn : k = n := (h.far hmem).unique hy
    rwa [hkn] at hmem
  · have hge := hq e he
    omega

/-- **Nothing is left to do**: what has been met is what can be reached. -/
theorem far_iff (h : Wave next s left []) : (y, n) ∈ left ↔ Far next s n y := by
  constructor
  · intro hy
    exact h.far (List.mem_append_left _ hy)
  · intro hy
    have hmem := h.mem_of_far (d := n) (fun e he => absurd he List.not_mem_nil) hy le_rfl
    rwa [List.append_nil] at hmem

/-- What hops lead to has been met, once nothing is left to do. -/
theorem exists_of_hops (h : Wave next s left []) (hy : Hops next s m y) : ∃ n, (y, n) ∈ left := by
  rcases h.mem_of_hops hy with ⟨n, -, hmem⟩ | ⟨e, he, -⟩
  · rw [List.append_nil] at hmem
    exact ⟨n, hmem⟩
  · exact absurd he List.not_mem_nil

theorem mem_iff_reaches (h : Wave next s left []) :
    y ∈ left.map Prod.fst ↔ Relation.ReflTransGen (fun a b => b ∈ next a) s y := by
  rw [← exists_hops_iff, List.mem_map]
  constructor
  · rintro ⟨e, he, rfl⟩
    exact ⟨e.2, h.hops e (List.mem_append_left _ he)⟩
  · rintro ⟨m, hm⟩
    obtain ⟨n, hn⟩ := h.exists_of_hops hm
    exact ⟨_, hn, rfl⟩

/-- The nodes that have been met are among those that no edge leaves. -/
theorem length_le (h : Wave next s left queue) {nodes : List α} (hs : s ∈ nodes)
    (hclosed : ∀ x ∈ nodes, ∀ y ∈ next x, y ∈ nodes) : (left ++ queue).length ≤ nodes.length := by
  have hsub : (left ++ queue).map Prod.fst ⊆ nodes := by
    intro x hx
    obtain ⟨e, he, rfl⟩ := List.mem_map.1 hx
    exact (h.hops e he).mem hs hclosed
  have hle := (List.subperm_of_subset h.nodup hsub).length_le
  rwa [List.length_map] at hle

/-- **A node is left**: its neighbours that are new join the queue. -/
theorem leave [DecidableEq α] (h : Wave next s left ((x, d) :: queue)) {seen : List α}
    (hseen : ∀ y ∈ next x, y ∈ seen ↔ y ∈ (left ++ (x, d) :: queue).map Prod.fst) :
    Wave next s (left ++ [(x, d)]) (queue ++ (fresh seen (next x)).map fun y => (y, d + 1)) := by
  have happ : left ++ [(x, d)] ++ (queue ++ (fresh seen (next x)).map fun y => (y, d + 1)) =
      (left ++ (x, d) :: queue) ++ (fresh seen (next x)).map fun y => (y, d + 1) := by
    simp
  have hx : (x, d) ∈ left ++ (x, d) :: queue := List.mem_append_right _ List.mem_cons_self
  -- what has been met is no further away than what is met now
  have hle : ∀ e ∈ left ++ (x, d) :: queue, e.2 ≤ d + 1 := by
    intro e he
    rcases List.mem_append.1 he with he | he
    · have hrise := (List.pairwise_append.1 h.rising).2.2 _ he _ List.mem_cons_self
      exact Nat.le_succ_of_le hrise
    · exact h.near _ List.mem_cons_self _ he
  have hnew : ∀ e ∈ (fresh seen (next x)).map fun y => (y, d + 1), e.2 = d + 1 ∧ e.1 ∈ next x ∧ e.1 ∉ seen := by
    intro e he
    obtain ⟨y, hy, rfl⟩ := List.mem_map.1 he
    exact ⟨rfl, (mem_fresh _).1 hy⟩
  refine ⟨?_, ?_, ?_, ?_, ?_, ?_⟩
  · rw [happ, List.map_append, List.nodup_append]
    refine ⟨h.nodup, ?_, ?_⟩
    · have hfresh : (fresh seen (next x)).Nodup := nodup_fresh (next x)
      rw [List.map_map]
      exact (List.map_id _).symm ▸ hfresh
    · intro a ha b hb hab
      obtain ⟨e, he, rfl⟩ := List.mem_map.1 hb
      refine (hnew e he).2.2 ((hseen e.1 (hnew e he).2.1).2 ?_)
      rwa [← hab]
  · rw [happ]
    exact List.mem_append_left _ h.started
  · rw [happ]
    intro e he
    rcases List.mem_append.1 he with he | he
    · exact h.hops e he
    · obtain ⟨hed, hnext, -⟩ := hnew e he
      rw [hed]
      exact .hop (h.hops _ hx) hnext
  · rw [happ]
    intro e he y hy
    rcases List.mem_append.1 he with he | he
    · obtain ⟨n, hn, hmem⟩ := h.closed e he y hy
      exact ⟨n, hn, List.mem_append_left _ hmem⟩
    · obtain rfl := List.mem_singleton.1 he
      by_cases hys : y ∈ seen
      · obtain ⟨⟨z, n⟩, hmem, rfl⟩ := List.mem_map.1 ((hseen y hy).1 hys)
        exact ⟨n, hle _ hmem, List.mem_append_left _ hmem⟩
      · exact ⟨d + 1, le_rfl, List.mem_append_right _ (List.mem_map.2 ⟨y, (mem_fresh _).2 ⟨hy, hys⟩, rfl⟩)⟩
  · rw [happ, List.pairwise_append]
    refine ⟨h.rising, ?_, ?_⟩
    · rw [List.pairwise_map]
      exact List.pairwise_of_forall fun _ _ => le_rfl
    · intro a ha b hb
      rw [(hnew b hb).1]
      exact hle a ha
  · have hge : ∀ e ∈ queue ++ (fresh seen (next x)).map fun y => (y, d + 1), d ≤ e.2 := by
      intro e he
      rcases List.mem_append.1 he with he | he
      · have hrise := (List.pairwise_append.1 h.rising).2.1
        exact (List.pairwise_cons.1 hrise).1 e he
      · rw [(hnew e he).1]
        exact Nat.le_succ d
    intro a ha b hb
    have hda := hge a ha
    have hdb : b.2 ≤ d + 1 := by
      rcases List.mem_append.1 hb with hb | hb
      · exact hle b (List.mem_append_right _ (List.mem_cons_of_mem _ hb))
      · rw [(hnew b hb).1]
    omega

end Wave

/-! ## Levels -/

/-- Nodes that are all `d` hops away. -/
def level (d : ℕ) (xs : List α) : List (α × ℕ) := xs.map fun x => (x, d)

@[simp] theorem level_nil (d : ℕ) : level d ([] : List α) = [] := rfl

theorem mem_level {xs : List α} {e : α × ℕ} : e ∈ level d xs ↔ e.1 ∈ xs ∧ e.2 = d := by
  unfold level
  rw [List.mem_map]
  constructor
  · rintro ⟨x, hx, rfl⟩
    exact ⟨hx, rfl⟩
  · rintro ⟨hx, rfl⟩
    exact ⟨e.1, hx, rfl⟩

@[simp] theorem map_level (d : ℕ) (xs : List α) : (level d xs).map Prod.fst = xs := by
  unfold level
  rw [List.map_map]
  exact List.map_id xs

/-- A search level by level: `xs` is what is to be left of this level, `nxt` what has been met of the
next one. -/
structure Front (next : α → List α) (s : α) (left : List (α × ℕ)) (d : ℕ) (xs nxt seen : List α) : Prop where
  wave : Wave next s left (level d xs ++ level (d + 1) nxt)
  met : ∀ x, x ∈ seen ↔ x ∈ (left ++ (level d xs ++ level (d + 1) nxt)).map Prod.fst
  below : ∀ e ∈ left, e.2 ≤ d

namespace Front

variable {left : List (α × ℕ)} {xs nxt seen : List α}

theorem start (next : α → List α) (s : α) : Front next s [] 0 [s] [] [s] where
  wave := Wave.start next s
  met _ := Iff.rfl
  below _ he := absurd he List.not_mem_nil

/-- A node of the level is left. -/
theorem leave [DecidableEq α] (h : Front next s left d (x :: xs) nxt seen) :
    Front next s (left ++ [(x, d)]) d xs (nxt ++ fresh seen (next x)) ((fresh seen (next x)).reverse ++ seen) := by
  have happ : level d xs ++ level (d + 1) (nxt ++ fresh seen (next x)) =
      level d xs ++ level (d + 1) nxt ++ (fresh seen (next x)).map fun y => (y, d + 1) := by
    unfold level
    rw [List.map_append, List.append_assoc]
  refine ⟨?_, ?_, ?_⟩
  · rw [happ]
    exact h.wave.leave fun y _ => h.met y
  · rw [happ]
    exact mem_seen_leave h.met (next x)
  · intro e he
    rcases List.mem_append.1 he with he | he
    · exact h.below e he
    · rw [List.mem_singleton.1 he]

/-- The next level. -/
theorem turn (h : Front next s left d [] nxt seen) : Front next s left (d + 1) nxt [] seen where
  wave := by
    have hwave := h.wave
    rwa [level_nil, List.nil_append, ← List.append_nil (level (d + 1) nxt)] at hwave
  met x := by
    rw [h.met x, level_nil, level_nil, List.nil_append, List.append_nil]
  below e he := Nat.le_succ_of_le (h.below e he)

/-- **What has been met** when a level starts: what is that many hops away at most. -/
theorem mem_iff (h : Front next s left d xs [] seen) : (y, n) ∈ left ++ level d xs ↔ Far next s n y ∧ n ≤ d := by
  have hwave := h.wave
  rw [level_nil, List.append_nil] at hwave
  constructor
  · intro hy
    refine ⟨hwave.far hy, ?_⟩
    rcases List.mem_append.1 hy with hy | hy
    · exact h.below _ hy
    · exact (mem_level.1 hy).2.le
  · rintro ⟨hfar, hn⟩
    exact hwave.mem_of_far (fun e he => (mem_level.1 he).2.ge) hfar hn

end Front

/-! ## The way back -/

/-- The way back from a node, as it is written down where each was met from. -/
inductive Traces (parent : α → Option (Option α)) : α → List α → Prop
  | root {x : α} : parent x = some none → Traces parent x [x]
  | up {x y : α} {p : List α} : parent x = some (some y) → Traces parent y p → Traces parent x (x :: p)

/-- Each node but the start was met from one that is one hop nearer. -/
structure Tree (next : α → List α) (s : α) (parent : α → Option (Option α)) (met : List (α × ℕ)) : Prop where
  root : parent s = some none
  metFrom : ∀ e ∈ met, e.1 ≠ s → ∃ y n, parent e.1 = some (some y) ∧ e.2 = n + 1 ∧ (y, n) ∈ met ∧ e.1 ∈ next y

/-- **The way back** is as long as the node is far away, and goes over nodes that have been met. -/
theorem Tree.traces {parent : α → Option (Option α)} {met : List (α × ℕ)} (h : Tree next s parent met)
    (hs : (s, 0) ∈ met) (hu : ∀ x n m, (x, n) ∈ met → (x, m) ∈ met → n = m) (hx : (x, n) ∈ met) :
    ∃ p, Traces parent x p ∧ p.length = n + 1 ∧ Way (fun a b => b ∈ next a) s x p.reverse ∧ n < met.length := by
  suffices hall : ∃ p, Traces parent x p ∧ p.length = n + 1 ∧ Way (fun a b => b ∈ next a) s x p.reverse ∧
      p.Nodup ∧ ∀ y ∈ p, ∃ k ≤ n, (y, k) ∈ met by
    obtain ⟨p, htr, hlen, hroute, hnodup, hmet⟩ := hall
    refine ⟨p, htr, hlen, hroute, ?_⟩
    have hsub : p ⊆ met.map Prod.fst := by
      intro y hy
      obtain ⟨k, -, hk⟩ := hmet y hy
      exact List.mem_map.2 ⟨_, hk, rfl⟩
    have hle := (List.subperm_of_subset hnodup hsub).length_le
    rw [List.length_map, hlen] at hle
    exact hle
  induction n generalizing x with
  | zero =>
    have hxs : x = s := by
      by_contra hne
      obtain ⟨_, k, -, hk, -⟩ := h.metFrom _ hx hne
      cases hk
    rw [hxs]
    refine ⟨[s], .root h.root, rfl, Way.single s, List.nodup_singleton s, ?_⟩
    intro y hy
    rw [List.mem_singleton.1 hy]
    exact ⟨0, le_rfl, hs⟩
  | succ n ih =>
    have hne : x ≠ s := by
      intro hxs
      rw [hxs] at hx
      cases hu s _ _ hx hs
    obtain ⟨y, k, hparent, hk, hy, hxy⟩ := h.metFrom _ hx hne
    obtain rfl : n = k := Nat.succ.inj hk
    obtain ⟨p, htr, hlen, hroute, hnodup, hmet⟩ := ih hy
    refine ⟨x :: p, .up hparent htr, ?_, ?_, ?_, ?_⟩
    · rw [List.length_cons, hlen]
    · rw [List.reverse_cons]
      exact hroute.snoc hxy
    · refine List.nodup_cons.2 ⟨?_, hnodup⟩
      intro hin
      obtain ⟨k, hk, hmem⟩ := hmet x hin
      have heq := hu x _ _ hx hmem
      omega
    · intro z hz
      rcases List.mem_cons.1 hz with rfl | hz
      · exact ⟨n + 1, le_rfl, hx⟩
      · obtain ⟨k, hk, hmem⟩ := hmet z hz
        exact ⟨k, Nat.le_succ_of_le hk, hmem⟩

theorem Tree.start {parent : α → Option (Option α)} (h : parent s = some none) : Tree next s parent [(s, 0)] where
  root := h
  metFrom e he hne := by
    rw [List.mem_singleton] at he
    rw [he] at hne
    exact absurd rfl hne

/-- The neighbours that are new are met from the node that is left. -/
theorem Tree.leave [DecidableEq α] {parent parent' : α → Option (Option α)} {left queue : List (α × ℕ)}
    (h : Tree next s parent (left ++ (x, d) :: queue)) (hs : (s, 0) ∈ left ++ (x, d) :: queue) {seen : List α}
    (hseen : ∀ y ∈ next x, y ∈ seen ↔ y ∈ (left ++ (x, d) :: queue).map Prod.fst)
    (hnew : ∀ y ∈ fresh seen (next x), parent' y = some (some x))
    (hold : ∀ y, y ∉ fresh seen (next x) → parent' y = parent y) :
    Tree next s parent' (left ++ [(x, d)] ++ (queue ++ (fresh seen (next x)).map fun y => (y, d + 1))) := by
  have happ : left ++ [(x, d)] ++ (queue ++ (fresh seen (next x)).map fun y => (y, d + 1)) =
      (left ++ (x, d) :: queue) ++ (fresh seen (next x)).map fun y => (y, d + 1) := by
    simp
  have hmet : ∀ e ∈ left ++ (x, d) :: queue, e.1 ∉ fresh seen (next x) := by
    intro e he hin
    obtain ⟨hnext, hno⟩ := (mem_fresh _).1 hin
    exact hno ((hseen e.1 hnext).2 (List.mem_map_of_mem he))
  rw [happ]
  refine ⟨?_, ?_⟩
  · rw [hold s (hmet _ hs)]
    exact h.root
  · intro e he hne
    rcases List.mem_append.1 he with he | he
    · obtain ⟨y, n, hparent, hn, hy, hnext⟩ := h.metFrom e he hne
      refine ⟨y, n, ?_, hn, List.mem_append_left _ hy, hnext⟩
      rw [hold e.1 (hmet e he)]
      exact hparent
    · obtain ⟨y, hy, rfl⟩ := List.mem_map.1 he
      exact ⟨x, d, hnew y hy, rfl, List.mem_append_left _ (List.mem_append_right _ List.mem_cons_self),
        ((mem_fresh _).1 hy).1⟩

end Waves

end OmniJsonDb

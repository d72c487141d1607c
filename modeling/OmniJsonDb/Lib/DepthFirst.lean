import Mathlib.Data.List.Nodup
import Mathlib.Logic.Relation
import Mathlib.Tactic.Common

/-!
# Depth-first search

Depth-first searches over any nodes, any lists of moves and any records behind the moves. A move may
be directed; an undirected record can be walked either way, but not back over itself.

* `Walk`, `IsCycle`: walks, and closed ones over different nodes and records.
* `closes`: a path and an edge back to it are a cycle.
* `Scans`: a search that found nothing; `Scans.clear`: no cycle goes through what it has visited.
* `Sorts`: a search that met none of its ancestors; `First`: the path a search comes by.
-/

namespace OmniJsonDb

namespace DepthFirst

variable {α κ : Type*}

/-- From, whether it is directed, to. -/
abbrev Step (α : Type*) := α × Bool × α

/-! ## Walks -/

section Walks

variable {E : Step α → Prop} {u v w : α} {d : Bool} {e : Step α} {es fs : List (Step α)}

/-- A walk along edges. -/
inductive Walk (E : Step α → Prop) : α → List (Step α) → α → Prop
  | nil (u : α) : Walk E u [] u
  | cons {u : α} {d : Bool} {v : α} {es : List (Step α)} {w : α} :
      E (u, d, v) → Walk E v es w → Walk E u ((u, d, v) :: es) w

/-- Where the edges start. -/
def sources (es : List (Step α)) : List α := es.map Prod.fst

theorem Walk.append (h : Walk E u es v) (h' : Walk E v fs w) : Walk E u (es ++ fs) w := by
  induction h with
  | nil _ => exact h'
  | cons he _ ih => exact .cons he (ih h')

theorem Walk.snoc (h : Walk E u es v) (he : E (v, d, w)) : Walk E u (es ++ [(v, d, w)]) w :=
  h.append (.cons he (.nil w))

theorem Walk.split (h : Walk E u (es ++ fs) w) : ∃ v, Walk E u es v ∧ Walk E v fs w := by
  induction es generalizing u with
  | nil => exact ⟨u, .nil u, h⟩
  | cons e es ih =>
    cases h with
    | cons he h =>
      obtain ⟨v, h₁, h₂⟩ := ih h
      exact ⟨v, .cons he h₁, h₂⟩

theorem Walk.edges (h : Walk E u es v) : ∀ e ∈ es, E e := by
  induction h with
  | nil _ => intro e he; cases he
  | cons he _ ih =>
    intro e hm
    rcases List.mem_cons.1 hm with rfl | hm
    · exact he
    · exact ih e hm

/-- A walk starts where its first edge does. -/
theorem Walk.start (h : Walk E u (e :: es) v) : e.1 = u := by
  cases h with
  | cons _ _ => rfl

theorem Walk.start_mem (h : Walk E u es v) : u ∈ sources es ++ [v] := by
  cases h with
  | nil _ => exact List.mem_singleton.2 rfl
  | cons _ _ => exact List.mem_cons_self

/-- Where an edge of a walk leads, the next one starts, or the walk ends. -/
theorem Walk.target_mem (h : Walk E u es v) : ∀ e ∈ es, e.2.2 ∈ sources es ++ [v] := by
  induction h with
  | nil _ => intro e he; cases he
  | cons he hw ih =>
    intro e hm
    rcases List.mem_cons.1 hm with rfl | hm
    · exact List.mem_cons_of_mem _ hw.start_mem
    · exact List.mem_cons_of_mem _ (ih e hm)

/-- Steps one after another. -/
theorem Walk.reach (h : Walk E u es v) : Relation.ReflTransGen (fun a b => ∃ d, E (a, d, b)) u v := by
  induction h with
  | nil _ => exact .refl
  | cons he _ ih => exact ih.head ⟨_, he⟩

end Walks

/-! ## Cycles -/

section Cycles

variable {E : Step α → Prop} (key : α → Bool → α → κ)

/-- The record of an edge. -/
def record (e : Step α) : κ := key e.1 e.2.1 e.2.2

/-- **A cycle**: closed, over different nodes and different records. -/
structure IsCycle (E : Step α → Prop) (c : List (Step α)) : Prop where
  ne_nil : c ≠ []
  walk : ∃ u, Walk E u c u
  nodes : (sources c).Nodup
  records : (c.map (record key)).Nodup

/-- Edges with one record are the same, or one undirected edge walked either way. -/
def Records (E : Step α → Prop) : Prop :=
  ∀ e f, E e → E f → record key e = record key f →
    e.2.1 = f.2.1 ∧ (e.1 = f.1 ∧ e.2.2 = f.2.2 ∨ e.2.1 = false ∧ e.1 = f.2.2 ∧ e.2.2 = f.1)

/-- No cycle goes through a node. -/
def Clear (E : Step α → Prop) (v : α) : Prop := ∀ c, IsCycle key E c → v ∉ sources c

variable {key} {u v x y : α} {d : Bool} {es : List (Step α)}

/-- The records of a path are different. -/
theorem Walk.records_nodup (hr : Records key E) (h : Walk E u es v) (hn : (sources es ++ [v]).Nodup) :
    (es.map (record key)).Nodup := by
  induction h with
  | nil _ => exact List.nodup_nil
  | @cons u d v es w he hw ih =>
    change (u :: (sources es ++ [w])).Nodup at hn
    rw [List.nodup_cons] at hn
    rw [List.map_cons, List.nodup_cons]
    refine ⟨?_, ih hn.2⟩
    intro hin
    obtain ⟨f, hf, hkey⟩ := List.mem_map.1 hin
    obtain ⟨-, ⟨h₁, -⟩ | ⟨-, -, h₂⟩⟩ := hr f (u, d, v) (hw.edges f hf) he hkey
    · refine hn.1 (List.mem_append_left _ ?_)
      rw [← show f.1 = u from h₁]
      exact List.mem_map_of_mem hf
    · refine hn.1 ?_
      rw [← show f.2.2 = u from h₂]
      exact hw.target_mem f hf

/-- **A path and an edge back to where it starts** are a cycle, unless the edge is the last of the path. -/
theorem closes (hr : Records key E) (h : Walk E y es x) (hn : (sources es ++ [x]).Nodup) (he : E (x, d, y))
    (hne : (es.getLast?).map (record key) ≠ some (key x d y)) : IsCycle key E (es ++ [(x, d, y)]) where
  ne_nil := by simp
  walk := ⟨y, h.snoc he⟩
  nodes := by
    unfold sources
    rw [List.map_append]
    exact hn
  records := by
    rw [List.map_append, List.nodup_append]
    refine ⟨h.records_nodup hr hn, List.nodup_singleton _, ?_⟩
    rintro a ha b hb rfl
    obtain ⟨f, hf, hkey⟩ := List.mem_map.1 ha
    rw [List.map_singleton, List.mem_singleton] at hb
    rw [hb] at hkey
    have hx : x ∉ sources es := by
      rw [List.nodup_append] at hn
      intro hx
      exact hn.2.2 x hx x (List.mem_singleton.2 rfl) rfl
    obtain ⟨-, ⟨h₁, -⟩ | ⟨-, -, h₂⟩⟩ := hr f (x, d, y) (h.edges f hf) he hkey
    · refine hx ?_
      rw [← show f.1 = x from h₁]
      exact List.mem_map_of_mem hf
    · -- an edge that leads to the end of the path is its last
      obtain ⟨pre, post, rfl⟩ := List.append_of_mem hf
      obtain ⟨m, -, hpost⟩ := h.split
      cases post with
      | nil =>
        rw [List.getLast?_concat, Option.map_some, hkey] at hne
        exact hne rfl
      | cons g post =>
        cases hpost with
        | cons _ hpost =>
          refine hx ?_
          rw [← show _ = x from h₂]
          change _ ∈ (pre ++ _ :: g :: post).map Prod.fst
          rw [← hpost.start]
          simp

/-- A cycle can be walked from any of its nodes. -/
theorem IsCycle.rotate {c : List (Step α)} (h : IsCycle key E c) (hv : v ∈ sources c) :
    ∃ d w es, IsCycle key E ((v, d, w) :: es) ∧ Walk E w es v := by
  obtain ⟨⟨a, d, w⟩, he, rfl⟩ := List.mem_map.1 hv
  obtain ⟨pre, post, rfl⟩ := List.append_of_mem he
  obtain ⟨u, hwalk⟩ := h.walk
  obtain ⟨m, h₁, h₂⟩ := hwalk.split
  cases h₂ with
  | cons hE h₂ =>
    have hperm : (pre ++ (a, d, w) :: post).Perm ((a, d, w) :: (post ++ pre)) := by
      refine List.perm_middle.trans (List.Perm.cons _ List.perm_append_comm)
    have hback : Walk E w (post ++ pre) a := h₂.append h₁
    refine ⟨d, w, post ++ pre, ⟨List.cons_ne_nil _ _, ⟨a, .cons hE hback⟩, ?_, ?_⟩, hback⟩
    · exact ((hperm.map Prod.fst).nodup_iff).1 h.nodes
    · exact ((hperm.map (record key)).nodup_iff).1 h.records

/-- No way along different records, over nodes with cycles through them, leads back to the stack. -/
def Lost (key : α → Bool → α → κ) (E : Step α → Prop) (x : α) (parent : Option κ) (stack : List α) (todo : List (Bool × α)) : Prop :=
  ∀ d v es y, (d, v) ∈ todo → some (key x d v) ≠ parent → Walk E v es y → y ∈ stack →
    (((x, d, v) :: es).map (record key)).Nodup → (∀ e ∈ es, ¬ Clear key E e.1) → False

/-- A node all of whose moves have been looked at is on no cycle. -/
theorem clear_of_lost {moves : α → List (Bool × α)} {parent : Option κ} {stack : List α} (hm : ∀ u d v, (d, v) ∈ moves u ↔ E (u, d, v))
    (hne : ∀ m ∈ moves v, some (key v m.1 m.2) ≠ parent) (hl : Lost key E v parent (v :: stack) (moves v)) :
    Clear key E v := by
  intro c hc hv
  obtain ⟨d, w, es, hc', hback⟩ := hc.rotate hv
  obtain ⟨u, hwalk⟩ := hc'.walk
  have hdw : (d, w) ∈ moves v := (hm v d w).2 (hwalk.edges _ List.mem_cons_self)
  refine hl d w es v hdw (hne _ hdw) hback List.mem_cons_self hc'.records ?_
  intro e he hclear
  exact hclear _ hc' (List.mem_cons_of_mem _ (List.mem_map_of_mem he))

end Cycles

/-! ## A search that finds nothing -/

section Scans

variable [BEq α] (moves : α → List (Bool × α)) (key : α → Bool → α → κ)

/-- What a search has done with the moves of `x` when it found nothing: the edge it came by is passed
over, nodes that are visited are, others are searched. A node is visited once all its moves have been
looked at and none was passed over. -/
inductive Scans : α → Option κ → List α → List (Bool × α) → Bool → List α → Bool → List α → Prop
  | done {x parent stack full vis} : Scans x parent stack [] full vis full vis
  | skip {x parent stack d v rest full vis full' vis'} : some (key x d v) = parent →
      Scans x parent stack rest false vis full' vis' → Scans x parent stack ((d, v) :: rest) full vis full' vis'
  | seen {x parent stack d v rest full vis full' vis'} : some (key x d v) ≠ parent → v ∉ stack → v ∈ vis →
      Scans x parent stack rest full vis full' vis' → Scans x parent stack ((d, v) :: rest) full vis full' vis'
  | deep {x parent stack d v rest full vis full₁ vis₁ full' vis'} : some (key x d v) ≠ parent → v ∉ stack →
      v ∉ vis → Scans v (some (key x d v)) (v :: stack) (moves v) true vis full₁ vis₁ →
      Scans x parent stack rest full (if full₁ then vis₁.insert v else vis₁) full' vis' →
      Scans x parent stack ((d, v) :: rest) full vis full' vis'

variable {moves key} {E : Step α → Prop} {x v : α} {parent : Option κ} {stack vis vis' : List α} {todo : List (Bool × α)}
  {full full' : Bool} {d : Bool}

/-- Nothing was passed over. -/
theorem Scans.full_eq (h : Scans moves key x parent stack todo full vis full' vis') (hf : full' = true) :
    full = true ∧ ∀ m ∈ todo, some (key x m.1 m.2) ≠ parent := by
  induction h with
  | done => exact ⟨hf, fun m hm => absurd hm List.not_mem_nil⟩
  | skip _ _ ih => exact absurd (ih hf).1 (by decide)
  | seen hne _ _ _ ih =>
    refine ⟨(ih hf).1, ?_⟩
    intro m hm
    rcases List.mem_cons.1 hm with rfl | hm
    · exact hne
    · exact (ih hf).2 m hm
  | deep hne _ _ _ _ _ ih =>
    refine ⟨(ih hf).1, ?_⟩
    intro m hm
    rcases List.mem_cons.1 hm with rfl | hm
    · exact hne
    · exact (ih hf).2 m hm

/-- A search that came by no edge passes nothing over. -/
theorem Scans.full_of_root (h : Scans moves key x none stack todo true vis full' vis') : full' = true := by
  generalize hf : true = full at h
  generalize hp : none = parent at h
  induction h with
  | done => rfl
  | skip hs _ _ =>
    rw [← hp] at hs
    cases hs
  | seen _ _ _ _ ih => exact ih hf hp
  | deep _ _ _ _ _ _ ih => exact ih hf hp

variable [LawfulBEq α]

/-- **Where a search found nothing**, what it has visited is on no cycle. -/
theorem Scans.clear (hm : ∀ u d v, (d, v) ∈ moves u ↔ E (u, d, v))
    (h : Scans moves key x parent stack todo full vis full' vis') (hv : ∀ v ∈ vis, Clear key E v) :
    (∀ v ∈ vis', Clear key E v) ∧ Lost key E x parent stack todo := by
  induction h with
  | done => exact ⟨hv, fun _ _ _ _ hm => absurd hm List.not_mem_nil⟩
  | @skip x parent stack d v rest full vis full' vis' hp _ ih =>
    obtain ⟨hclear, hlost⟩ := ih hv
    refine ⟨hclear, ?_⟩
    intro d' v' es y hin hne
    rcases List.mem_cons.1 hin with heq | hin
    · obtain ⟨rfl, rfl⟩ := Prod.mk.inj heq
      exact absurd hp hne
    · exact hlost d' v' es y hin hne
  | @seen x parent stack d v rest full vis full' vis' _ hstack hvis _ ih =>
    obtain ⟨hclear, hlost⟩ := ih hv
    refine ⟨hclear, ?_⟩
    intro d' v' es y hin hne hwalk hy hn hnot
    rcases List.mem_cons.1 hin with heq | hin
    · obtain ⟨rfl, rfl⟩ := Prod.mk.inj heq
      cases hwalk with
      | nil _ => exact hstack hy
      | cons _ _ => exact hnot _ List.mem_cons_self (hv _ hvis)
    · exact hlost d' v' es y hin hne hwalk hy hn hnot
  | @deep x parent stack d v rest full vis full₁ vis₁ full' vis' _ hstack _ hdeep _ ih₁ ih =>
    obtain ⟨hclear₁, hlost₁⟩ := ih₁ hv
    have hv₁ : ∀ u ∈ (if full₁ then vis₁.insert v else vis₁), Clear key E u := by
      intro u hu
      cases hf : full₁ with
      | false =>
        rw [hf] at hu
        exact hclear₁ u hu
      | true =>
        rw [hf, if_pos rfl, List.mem_insert_iff] at hu
        rcases hu with rfl | hu
        · exact clear_of_lost hm (hdeep.full_eq hf).2 hlost₁
        · exact hclear₁ u hu
    obtain ⟨hclear, hlost⟩ := ih hv₁
    refine ⟨hclear, ?_⟩
    intro d' v' es y hin hne hwalk hy hn hnot
    rcases List.mem_cons.1 hin with heq | hin
    · obtain ⟨rfl, rfl⟩ := Prod.mk.inj heq
      cases hwalk with
      | nil _ => exact hstack hy
      | @cons _ d₂ v₂ es _ hE hwalk =>
        -- the way goes on from where the search went on
        rw [List.map_cons, List.nodup_cons] at hn
        refine hlost₁ d₂ v₂ es y ((hm _ _ _).2 hE) ?_ hwalk (List.mem_cons_of_mem _ hy) hn.2
          fun e he => hnot e (List.mem_cons_of_mem _ he)
        intro heq
        have hkey : record key (x, d', v') = record key (v', d₂, v₂) := (Option.some.inj heq).symm
        refine hn.1 ?_
        rw [hkey]
        exact List.mem_cons_self
    · exact hlost d' v' es y hin hne hwalk hy hn hnot

end Scans

/-! ## The path a search comes by -/

section First

variable (moves : α → List (Bool × α)) (E : Step α → Prop)

/-- There is a way from `y` to `u` that keeps off the stack. -/
def Avoids (stack : List α) (y u : α) : Prop :=
  y ∉ stack ∧ Relation.ReflTransGen (fun a b => (∃ d, E (a, d, b)) ∧ b ∉ stack) y u

/-- A path on which no earlier move leads to `u` off the path so far. -/
inductive Leading (u : α) : List α → α → List (Step α) → α → Prop
  | nil {stack p} : Leading u stack p [] p
  | cons {stack p d v es q before after} : moves p = before ++ (d, v) :: after → v ∉ p :: stack →
      (∀ m ∈ before, ¬ Avoids E (p :: stack) m.2 u) → Leading u (p :: stack) v es q →
      Leading u stack p ((p, d, v) :: es) q

/-- **The path a search comes by** to `x` on its way to `u`: from the first node that leads to `u`, by the
first moves that do. -/
structure First (nodes : List α) (u r : α) (es : List (Step α)) (x : α) : Prop where
  root : ∃ before after, nodes = before ++ r :: after ∧
    ∀ a ∈ before, ¬ Relation.ReflTransGen (fun a b => ∃ d, E (a, d, b)) a u
  leading : Leading moves E u [] r es x

variable {moves E} {stack stack' : List α} {nodes : List α} {u r r' p q v y : α} {es es' : List (Step α)} {d : Bool}
  {before after : List (Bool × α)}

theorem Avoids.mono (h : Avoids E stack y u) (hs : ∀ a ∈ stack', a ∈ stack) : Avoids E stack' y u := by
  refine ⟨fun hy => h.1 (hs y hy), Relation.ReflTransGen.mono (fun a b => ?_) _ _ h.2⟩
  rintro ⟨hab, hb⟩
  exact ⟨hab, fun hb' => hb (hs b hb')⟩

/-- What is closed off the stack holds all that can be reached off it. -/
theorem Avoids.mem {D : α → Prop} (h : Avoids E stack y u) (hy : D y)
    (hD : ∀ a, D a → a ∉ stack → ∀ d b, E (a, d, b) → D b) : D u := by
  obtain ⟨hns, hr⟩ := h
  have hboth : D u ∧ u ∉ stack := by
    induction hr with
    | refl => exact ⟨hy, hns⟩
    | tail _ hstep ih =>
      obtain ⟨⟨d, he⟩, hb⟩ := hstep
      exact ⟨hD _ ih.1 ih.2 d _ he, hb⟩
  exact hboth.1

theorem Leading.avoids (hm : ∀ u d v, (d, v) ∈ moves u ↔ E (u, d, v)) (h : Leading moves E u stack p es q)
    (hp : p ∉ stack) : Avoids E stack p q := by
  induction h with
  | nil => exact ⟨hp, .refl⟩
  | @cons stack p d v es q before after hmoves hv _ _ ih =>
    have hrest := (ih hv).mono fun a ha => List.mem_cons_of_mem p ha
    refine ⟨hp, hrest.2.head ⟨⟨d, ?_⟩, hrest.1⟩⟩
    refine (hm p d v).1 ?_
    rw [hmoves]
    exact List.mem_append_right _ List.mem_cons_self

theorem Leading.walk (hm : ∀ u d v, (d, v) ∈ moves u ↔ E (u, d, v)) (h : Leading moves E u stack p es q) :
    Walk E p es q := by
  induction h with
  | nil => exact .nil _
  | @cons stack p d v es q before after hmoves _ _ _ ih =>
    refine .cons ((hm p d v).1 ?_) ih
    rw [hmoves]
    exact List.mem_append_right _ List.mem_cons_self

/-- The nodes of the path are off the stack, and different. -/
theorem Leading.nodup (h : Leading moves E u stack p es q) (hp : p ∉ stack) :
    (∀ a ∈ sources es ++ [q], a ∉ stack) ∧ (sources es ++ [q]).Nodup := by
  induction h with
  | nil =>
    refine ⟨?_, List.nodup_singleton _⟩
    intro a ha
    rw [List.mem_singleton.1 ha]
    exact hp
  | @cons stack p d v es q before after _ hv _ _ ih =>
    obtain ⟨hoff, hn⟩ := ih hv
    change (∀ a ∈ p :: (sources es ++ [q]), a ∉ stack) ∧ (p :: (sources es ++ [q])).Nodup
    refine ⟨?_, List.nodup_cons.2 ⟨fun hin => hoff p hin List.mem_cons_self, hn⟩⟩
    intro a ha
    rcases List.mem_cons.1 ha with rfl | ha
    · exact hp
    · exact fun hs => hoff a ha (List.mem_cons_of_mem _ hs)

/-- One move more. -/
theorem Leading.snoc (h : Leading moves E u stack p es q) (hmoves : moves q = before ++ (d, v) :: after)
    (hstack : ∀ a, a ∈ stack' ↔ a ∈ stack ∨ a ∈ sources es ++ [q]) (hv : v ∉ stack')
    (hbefore : ∀ m ∈ before, ¬ Avoids E stack' m.2 u) : Leading moves E u stack p (es ++ [(q, d, v)]) v := by
  induction h with
  | @nil stack p =>
    have hsame : ∀ a, a ∈ stack' ↔ a ∈ p :: stack := by
      intro a
      rw [hstack a, List.mem_cons]
      change a ∈ stack ∨ a ∈ [p] ↔ _
      rw [List.mem_singleton, or_comm]
    refine .cons hmoves (fun hin => hv ((hsame v).2 hin)) ?_ .nil
    intro m hm hav
    exact hbefore m hm (hav.mono fun a ha => (hsame a).1 ha)
  | @cons stack p d' v' es q before' after' hmoves' hv' hbefore' _ ih =>
    refine .cons hmoves' hv' hbefore' (ih hmoves ?_)
    intro a
    rw [hstack a, List.mem_cons]
    change a ∈ stack ∨ a ∈ p :: (sources es ++ [q]) ↔ _
    rw [List.mem_cons]
    tauto

/-- Only one path leads on. -/
theorem Leading.unique (hm : ∀ u d v, (d, v) ∈ moves u ↔ E (u, d, v)) (h : Leading moves E u stack p es q) (hq : u = q)
    (h' : Leading moves E u stack p es' u) : es = es' := by
  -- a path that comes back to its start has left it for good
  have hback : ∀ {stack p v es}, v ∉ p :: stack → Leading moves E u (p :: stack) v es u → p ≠ u := by
    rintro stack p v es hv hl rfl
    exact (hl.nodup hv).1 p (List.mem_append_right _ (List.mem_singleton.2 rfl)) List.mem_cons_self
  induction h generalizing es' with
  | nil =>
    subst hq
    cases h' with
    | nil => rfl
    | cons _ hv _ hl => exact absurd rfl (hback hv hl)
  | @cons stack p d v es q before after hmoves hv hbefore hl ih =>
    subst hq
    cases h' with
    | nil => exact absurd rfl (hback hv hl)
    | @cons _ _ d' v' es₂ _ before' after' hmoves' hv' hbefore' hl' =>
      rw [hmoves, List.append_eq_append_iff] at hmoves'
      rcases hmoves' with ⟨t, rfl, ht⟩ | ⟨t, rfl, ht⟩
      · cases t with
        | nil =>
          obtain ⟨heq, -⟩ := List.cons.inj ht
          obtain ⟨rfl, rfl⟩ := Prod.mk.inj heq
          rw [ih rfl hl']
        | cons m t =>
          obtain ⟨rfl, -⟩ := List.cons.inj ht
          exact absurd (hl.avoids hm hv) (hbefore' _ (List.mem_append_right _ List.mem_cons_self))
      · cases t with
        | nil =>
          obtain ⟨heq, -⟩ := List.cons.inj ht
          obtain ⟨rfl, rfl⟩ := Prod.mk.inj heq
          rw [ih rfl hl']
        | cons m t =>
          obtain ⟨rfl, -⟩ := List.cons.inj ht
          exact absurd (hl'.avoids hm hv') (hbefore _ (List.mem_append_right _ List.mem_cons_self))

theorem First.walk (hm : ∀ u d v, (d, v) ∈ moves u ↔ E (u, d, v)) (h : First moves E nodes u r es q) : Walk E r es q :=
  h.leading.walk hm

theorem First.nodup (h : First moves E nodes u r es q) : (sources es ++ [q]).Nodup :=
  (h.leading.nodup List.not_mem_nil).2

/-- **There is one such path** to a node. -/
theorem First.unique (hm : ∀ u d v, (d, v) ∈ moves u ↔ E (u, d, v)) (h : First moves E nodes u r es u)
    (h' : First moves E nodes u r' es' u) : es = es' := by
  have hroot : r = r' := by
    obtain ⟨before, after, hn, hb⟩ := h.root
    obtain ⟨before', after', hn', hb'⟩ := h'.root
    rw [hn, List.append_eq_append_iff] at hn'
    rcases hn' with ⟨t, rfl, ht⟩ | ⟨t, rfl, ht⟩
    · cases t with
      | nil => exact (List.cons.inj ht).1
      | cons a t =>
        obtain ⟨rfl, -⟩ := List.cons.inj ht
        exact absurd (h.walk hm).reach (hb' _ (List.mem_append_right _ List.mem_cons_self))
    · cases t with
      | nil => exact (List.cons.inj ht).1.symm
      | cons a t =>
        obtain ⟨rfl, -⟩ := List.cons.inj ht
        exact absurd (h'.walk hm).reach (hb _ (List.mem_append_right _ List.mem_cons_self))
  subst hroot
  exact h.leading.unique hm rfl h'.leading

end First

/-! ## A search that meets none of its ancestors -/

section Sorts

variable (moves : α → List (Bool × α)) (key : α → Bool → α → κ)

/-- The undirected edge that a node was come to by. -/
def Arrival (parent : Option κ) (x : α) (d : Bool) (v : α) : Prop := d = false ∧ some (key x d v) = parent

/-- What a search has done with the moves of `x` when it met none of its ancestors: the undirected edge
it came by is passed over, nodes are visited when they are entered, and go out when they are left. -/
inductive Sorts [BEq α] : α → Option κ → List α → List (Bool × α) → List α → List α → List α → List α → Prop
  | done {x parent stack vis out} : Sorts x parent stack [] vis out vis out
  | skip {x parent stack d v rest vis out vis' out'} : Arrival key parent x d v →
      Sorts x parent stack rest vis out vis' out' → Sorts x parent stack ((d, v) :: rest) vis out vis' out'
  | seen {x parent stack d v rest vis out vis' out'} : ¬ Arrival key parent x d v → v ∈ vis → v ∉ stack →
      Sorts x parent stack rest vis out vis' out' → Sorts x parent stack ((d, v) :: rest) vis out vis' out'
  | deep {x parent stack d v rest vis out vis₁ out₁ vis' out'} : ¬ Arrival key parent x d v → v ∉ vis →
      Sorts v (some (key x d v)) (v :: stack) (moves v) (vis.insert v) out vis₁ out₁ →
      Sorts x parent stack rest vis₁ (out₁ ++ [v]) vis' out' →
      Sorts x parent stack ((d, v) :: rest) vis out vis' out'

variable {moves key} {E : Step α → Prop} {nodes : List α} {x v r : α} {parent : Option κ} {stack vis vis' out out' : List α}
  {before todo : List (Bool × α)} {d : Bool} {es : List (Step α)}

/-- The record of the last edge of a path. -/
def lastRecord (key : α → Bool → α → κ) (es : List (Step α)) : Option κ := es.getLast?.map (record key)

theorem lastRecord_concat : lastRecord key (es ++ [(x, d, v)]) = some (key x d v) := by
  unfold lastRecord
  rw [List.getLast?_concat]
  rfl

/-- Of the path a search comes to `u` by, no edge but the one it came by leads back to it. -/
def Open (moves : α → List (Bool × α)) (key : α → Bool → α → κ) (E : Step α → Prop) (nodes : List α) (u : α) : Prop :=
  ∃ r es, First moves E nodes u r es u ∧
    ∀ d v, E (u, d, v) → v ∈ sources es ++ [u] → Arrival key (lastRecord key es) u d v

/-- **Some edge closes** the path its node is come to by. -/
def Closing (moves : α → List (Bool × α)) (key : α → Bool → α → κ) (E : Step α → Prop) (nodes : List α) : Prop :=
  ∃ u r es d v, First moves E nodes u r es u ∧ E (u, d, v) ∧ v ∈ sources es ++ [u] ∧
    ¬ Arrival key (lastRecord key es) u d v

/-- What is visited and what has gone out: nothing is open but the stack. -/
structure Settled (E : Step α → Prop) (stack vis out : List α) : Prop where
  sub : ∀ a ∈ stack, a ∈ vis
  closed : ∀ b ∈ vis, b ∉ stack → ∀ d y, E (b, d, y) → y ∈ vis
  mem_out : ∀ y, y ∈ out ↔ y ∈ vis ∧ y ∉ stack
  nodup : out.Nodup
  order : ∀ pre b post, out = pre ++ b :: post → ∀ y, E (b, true, y) → y ∈ pre

/-- **A node comes out** after all that its directed edges lead to. -/
theorem Settled.leave (h : Settled E (v :: stack) vis out) (hv : v ∉ stack) (hall : ∀ d y, E (v, d, y) → y ∈ vis)
    (hdir : ∀ y, E (v, true, y) → y ∈ out) : Settled E stack vis (out ++ [v]) where
  sub a ha := h.sub a (List.mem_cons_of_mem _ ha)
  closed b hb hbs d y he := by
    by_cases hbv : b = v
    · subst hbv
      exact hall d y he
    · refine h.closed b hb ?_ d y he
      rw [List.mem_cons, not_or]
      exact ⟨hbv, hbs⟩
  mem_out y := by
    have hvis : v ∈ vis := h.sub v List.mem_cons_self
    rw [List.mem_append, h.mem_out y, List.mem_cons, List.mem_singleton]
    constructor
    · rintro (⟨hy, hns⟩ | rfl)
      · exact ⟨hy, fun hs => hns (.inr hs)⟩
      · exact ⟨hvis, hv⟩
    · rintro ⟨hy, hns⟩
      by_cases hyv : y = v
      · exact .inr hyv
      · exact .inl ⟨hy, fun hc => hc.elim hyv hns⟩
  nodup := by
    rw [List.nodup_append]
    refine ⟨h.nodup, List.nodup_singleton _, ?_⟩
    rintro a ha b hb rfl
    rw [List.mem_singleton] at hb
    exact ((h.mem_out a).1 ha).2 (hb ▸ List.mem_cons_self)
  order pre b post heq y he := by
    rcases List.eq_nil_or_concat post with rfl | ⟨post, z, rfl⟩
    · obtain ⟨rfl, hb⟩ := List.append_inj' heq rfl
      obtain rfl := (List.cons.inj hb).1
      exact hdir y he
    · have heq' : out ++ [v] = (pre ++ b :: post) ++ [z] := by
        rw [heq, List.concat_eq_append, List.append_assoc, List.cons_append]
      obtain ⟨rfl, -⟩ := List.append_inj' heq' rfl
      exact h.order pre b post rfl y he

/-- **Where a search is**: at `x`, by the path it comes by, with the moves `todo` left. -/
structure At (moves : α → List (Bool × α)) (key : α → Bool → α → κ) (E : Step α → Prop) (nodes : List α) (r : α)
    (es : List (Step α)) (x : α) (parent : Option κ) (stack : List α) (vis : List α) : Prop where
  here : First moves E nodes x r es x
  white : ∀ u, u ∉ vis → First moves E nodes u r es x
  mem_stack : ∀ a, a ∈ stack ↔ a ∈ sources es ++ [x]
  arrived : parent = lastRecord key es

/-- More is visited. -/
theorem At.mono (h : At moves key E nodes r es x parent stack vis) (hsub : ∀ a ∈ vis, a ∈ vis') :
    At moves key E nodes r es x parent stack vis' :=
  ⟨h.here, fun u hu => h.white u fun hv => hu (hsub u hv), h.mem_stack, h.arrived⟩

/-- The other end of the edge a node was come to by is on the stack. -/
theorem At.arrival (hr : Records key E) (hm : ∀ u d v, (d, v) ∈ moves u ↔ E (u, d, v))
    (h : At moves key E nodes r es x parent stack vis) (ha : Arrival key parent x d v) (he : E (x, d, v)) : v ∈ stack := by
  obtain ⟨-, hp⟩ := ha
  rw [h.arrived] at hp
  obtain ⟨f, hf, hkey⟩ := Option.map_eq_some_iff.1 hp.symm
  have hfm : f ∈ es := List.mem_of_getLast? hf
  have hn := h.here.nodup
  rw [h.mem_stack v]
  obtain ⟨-, ⟨h₁, -⟩ | ⟨-, h₁, -⟩⟩ := hr f (x, d, v) ((h.here.walk hm).edges f hfm) he hkey
  · rw [List.nodup_append] at hn
    refine absurd rfl (hn.2.2 x ?_ x (List.mem_singleton.2 rfl))
    rw [← show f.1 = x from h₁]
    exact List.mem_map_of_mem hfm
  · refine List.mem_append_left _ ?_
    rw [← show f.1 = v from h₁]
    exact List.mem_map_of_mem hfm

/-- Where every node is open, no edge closes its path. -/
theorem not_closing (hm : ∀ u d v, (d, v) ∈ moves u ↔ E (u, d, v))
    (hall : ∀ u d v, E (u, d, v) → Open moves key E nodes u) : ¬ Closing moves key E nodes := by
  rintro ⟨u, r, es, d, v, hfirst, he, hv, hna⟩
  obtain ⟨r', es', hfirst', hopen⟩ := hall u d v he
  obtain rfl := hfirst.unique hm hfirst'
  exact hna (hopen d v he hv)

/-- **An edge that closes a path** closes a cycle. -/
theorem Closing.isCycle (hr : Records key E) (hm : ∀ u d v, (d, v) ∈ moves u ↔ E (u, d, v))
    (h : Closing moves key E nodes) : ∃ c, IsCycle key E c := by
  obtain ⟨u, r, es, d, v, hfirst, he, hv, hna⟩ := h
  have hwalk := hfirst.walk hm
  have hn := hfirst.nodup
  -- an edge with the record of the last one of the path is undirected
  have hne : lastRecord key es ≠ some (key u d v) := by
    intro hl
    obtain ⟨f, hf, hkey⟩ := Option.map_eq_some_iff.1 hl
    have hfm : f ∈ es := List.mem_of_getLast? hf
    obtain ⟨hd, ⟨h₁, -⟩ | ⟨h₂, -⟩⟩ := hr f (u, d, v) (hwalk.edges f hfm) he hkey
    · rw [List.nodup_append] at hn
      refine hn.2.2 u ?_ u (List.mem_singleton.2 rfl) rfl
      rw [← show f.1 = u from h₁]
      exact List.mem_map_of_mem hfm
    · exact hna ⟨hd.symm.trans h₂, hl.symm⟩
  rcases List.mem_append.1 hv with hv | hv
  · obtain ⟨⟨a, d', b⟩, hf, rfl⟩ := List.mem_map.1 hv
    obtain ⟨pre, post, rfl⟩ := List.append_of_mem hf
    obtain ⟨m, -, hpost⟩ := hwalk.split
    obtain rfl : a = m := hpost.start
    refine ⟨_, closes hr hpost ?_ he ?_⟩
    · unfold sources at hn ⊢
      rw [List.map_append, List.append_assoc, List.nodup_append] at hn
      exact hn.2.1
    · unfold lastRecord at hne
      rwa [List.getLast?_append_of_ne_nil _ (List.cons_ne_nil _ _)] at hne
  · rw [List.mem_singleton.1 hv] at he
    exact ⟨_, closes hr (.nil u) (List.nodup_singleton _) he (by simp)⟩

/-- What a search leaves that met none of its ancestors: all it has visited is open, and the moves lead
to what is visited. -/
structure Swept (moves : α → List (Bool × α)) (key : α → Bool → α → κ) (E : Step α → Prop) (nodes : List α) (x : α)
    (parent : Option κ) (stack : List α) (todo : List (Bool × α)) (vis out vis' out' : List α) : Prop where
  settled : Settled E stack vis' out'
  sub : ∀ a ∈ vis, a ∈ vis'
  targets : ∀ m ∈ todo, m.2 ∈ vis'
  back : ∀ m ∈ todo, m.2 ∈ stack → Arrival key parent x m.1 m.2
  directed : ∀ m ∈ todo, m.1 = true → m.2 ∈ out'
  out_sub : ∀ a ∈ out, a ∈ out'
  opened : ∀ u ∈ vis', u ∉ vis → Open moves key E nodes u

/-- One move more. -/
theorem Swept.cons (h : Swept moves key E nodes x parent stack todo vis out vis' out') (hv : v ∈ vis)
    (hback : v ∈ stack → Arrival key parent x d v) (hdir : d = true → v ∈ out') :
    Swept moves key E nodes x parent stack ((d, v) :: todo) vis out vis' out' where
  settled := h.settled
  sub := h.sub
  targets m hm := by
    rcases List.mem_cons.1 hm with rfl | hm
    · exact h.sub v hv
    · exact h.targets m hm
  back m hm := by
    rcases List.mem_cons.1 hm with rfl | hm
    · exact hback
    · exact h.back m hm
  directed m hm := by
    rcases List.mem_cons.1 hm with rfl | hm
    · exact hdir
    · exact h.directed m hm
  out_sub := h.out_sub
  opened := h.opened

variable [BEq α] [LawfulBEq α]

/-- **A search begins** at the first node that is not visited. -/
theorem At.root {pre post : List α} (hs : Settled E [] vis out) (hnodes : nodes = pre ++ x :: post)
    (hpre : ∀ a ∈ pre, a ∈ vis) (hx : x ∉ vis) : At moves key E nodes x [] x none [x] (vis.insert x) := by
  have hfirst : ∀ u, u ∉ vis → First moves E nodes u x [] x := by
    intro u hu
    refine ⟨⟨pre, post, hnodes, ?_⟩, .nil⟩
    intro a ha hr
    refine hu ?_
    induction hr with
    | refl => exact hpre a ha
    | tail _ hstep ih =>
      obtain ⟨d, he⟩ := hstep
      by_contra hnot
      refine hnot (hs.closed _ ?_ List.not_mem_nil d _ he)
      by_contra hnot'
      exact hnot' (ih hnot')
  refine ⟨hfirst x hx, ?_, fun a => Iff.rfl, rfl⟩
  intro u hu
  exact hfirst u fun hin => hu (List.mem_insert_of_mem hin)

/-- The search goes on to a node that is not visited. -/
theorem At.step (h : At moves key E nodes r es x parent stack vis) (hs : Settled E stack vis out)
    (hmoves : moves x = before ++ (d, v) :: todo) (hbefore : ∀ m ∈ before, m.2 ∈ vis) (hv : v ∉ vis) :
    At moves key E nodes r (es ++ [(x, d, v)]) v (some (key x d v)) (v :: stack) (vis.insert v) := by
  have hvs : v ∉ stack := fun hin => hv (hs.sub v hin)
  have hstep : ∀ u, u ∉ vis → First moves E nodes u r (es ++ [(x, d, v)]) v := by
    intro u hu
    refine ⟨(h.white u hu).root, (h.white u hu).leading.snoc hmoves ?_ hvs ?_⟩
    · intro a
      rw [h.mem_stack a]
      exact ⟨.inr, fun ha => ha.resolve_left List.not_mem_nil⟩
    · -- what is visited off the stack leads to what is visited
      intro m hm hav
      exact hu (hav.mem (D := fun a => a ∈ vis) (hbefore m hm) fun a ha hna d b he => hs.closed a ha hna d b he)
  refine ⟨hstep v hv, ?_, ?_, lastRecord_concat.symm⟩
  · intro u hu
    exact hstep u fun hin => hu (List.mem_insert_of_mem hin)
  · intro a
    have hsources : sources (es ++ [(x, d, v)]) = sources es ++ [x] := List.map_append
    rw [hsources, List.mem_cons, h.mem_stack a, List.mem_append (t := [v]), List.mem_singleton, or_comm]

/-- A node is entered. -/
theorem Settled.enter (h : Settled E stack vis out) (hv : v ∉ vis) : Settled E (v :: stack) (vis.insert v) out where
  sub a ha := by
    rcases List.mem_cons.1 ha with rfl | ha
    · exact List.mem_insert_self
    · exact List.mem_insert_of_mem (h.sub a ha)
  closed b hb hbs d y he := by
    rw [List.mem_cons, not_or] at hbs
    have hb' : b ∈ vis := (List.mem_insert_iff.1 hb).resolve_left hbs.1
    exact List.mem_insert_of_mem (h.closed b hb' hbs.2 d y he)
  mem_out y := by
    rw [h.mem_out y, List.mem_insert_iff, List.mem_cons]
    constructor
    · rintro ⟨hy, hns⟩
      refine ⟨.inr hy, ?_⟩
      rintro (rfl | hin)
      · exact hv hy
      · exact hns hin
    · rintro ⟨hy, hns⟩
      rw [not_or] at hns
      exact ⟨hy.resolve_left hns.1, hns.2⟩
  nodup := h.nodup
  order := h.order

/-- **A node is done**: it is open itself, and comes out last. -/
theorem Swept.node (hm : ∀ u d v, (d, v) ∈ moves u ↔ E (u, d, v))
    (hat : At moves key E nodes r es v parent (v :: stack) (vis.insert v)) (hs : Settled E stack vis out) (hv : v ∉ vis)
    (h : Swept moves key E nodes v parent (v :: stack) (moves v) (vis.insert v) out vis' out') :
    Settled E stack vis' (out' ++ [v]) ∧ (∀ a ∈ vis, a ∈ vis') ∧ v ∈ vis' ∧
      ∀ u ∈ vis', u ∉ vis → Open moves key E nodes u := by
  refine ⟨?_, ?_, ?_, ?_⟩
  · refine h.settled.leave (fun hin => hv (hs.sub v hin)) ?_ ?_
    · intro d y he
      exact h.targets (d, y) ((hm v d y).2 he)
    · intro y he
      exact h.directed (true, y) ((hm v true y).2 he) rfl
  · intro a ha
    exact h.sub a (List.mem_insert_of_mem ha)
  · exact h.sub v List.mem_insert_self
  · intro u hu hnu
    by_cases huv : u = v
    · subst huv
      refine ⟨r, es, hat.here, ?_⟩
      intro d y he hy
      rw [← hat.arrived]
      exact h.back (d, y) ((hm u d y).2 he) ((hat.mem_stack y).2 hy)
    · refine h.opened u hu ?_
      rw [List.mem_insert_iff, not_or]
      exact ⟨huv, hnu⟩

/-- **A search that met none of its ancestors** leaves things so. -/
theorem Sorts.swept (hr : Records key E) (hm : ∀ u d v, (d, v) ∈ moves u ↔ E (u, d, v))
    (h : Sorts moves key x parent stack todo vis out vis' out') (r : α) (es : List (Step α)) (before : List (Bool × α))
    (hat : At moves key E nodes r es x parent stack vis) (hs : Settled E stack vis out)
    (hmoves : moves x = before ++ todo) (hbefore : ∀ m ∈ before, m.2 ∈ vis) :
    Swept moves key E nodes x parent stack todo vis out vis' out' := by
  -- the moves that have been looked at, with one more
  have hmore : ∀ {d v} {vis₁ : List α} {before : List (Bool × α)}, v ∈ vis₁ → (∀ m ∈ before, m.2 ∈ vis₁) →
      ∀ m ∈ before ++ [((d, v) : Bool × α)], m.2 ∈ vis₁ := by
    intro d v vis₁ before hv hb m hm
    rcases List.mem_append.1 hm with hm | hm
    · exact hb m hm
    · rw [List.mem_singleton.1 hm]
      exact hv
  induction h generalizing r es before with
  | done =>
    refine ⟨hs, fun a ha => ha, ?_, ?_, ?_, fun a ha => ha, fun u hu hnu => absurd hu hnu⟩ <;>
      exact fun m hm => absurd hm List.not_mem_nil
  | @skip x parent stack d v rest vis out vis' out' harr _ ih =>
    have he : E (x, d, v) := (hm x d v).1 (by rw [hmoves]; exact List.mem_append_right _ List.mem_cons_self)
    have hv : v ∈ vis := hs.sub v (hat.arrival hr hm harr he)
    have hrest := ih r es (before ++ [(d, v)]) hat hs (by rw [hmoves, List.append_assoc]; rfl)
      (hmore hv hbefore)
    refine hrest.cons hv (fun _ => harr) ?_
    intro hd
    rw [harr.1] at hd
    cases hd
  | @seen x parent stack d v rest vis out vis' out' _ hv hvs _ ih =>
    have hrest := ih r es (before ++ [(d, v)]) hat hs (by rw [hmoves, List.append_assoc]; rfl)
      (hmore hv hbefore)
    exact hrest.cons hv (fun hin => absurd hin hvs) fun _ => hrest.out_sub v ((hs.mem_out v).2 ⟨hv, hvs⟩)
  | @deep x parent stack d v rest vis out vis₁ out₁ vis' out' _ hv _ _ ih₁ ih =>
    have hvs : v ∉ stack := fun hin => hv (hs.sub v hin)
    have hat₁ := hat.step hs hmoves hbefore hv
    have hinner := ih₁ r _ [] hat₁ (hs.enter hv) rfl fun m hm => absurd hm List.not_mem_nil
    obtain ⟨hs₁, hsub, hv₁, hopen⟩ := hinner.node hm hat₁ hs hv
    have hrest := ih r es (before ++ [(d, v)]) (hat.mono hsub) hs₁ (by rw [hmoves, List.append_assoc]; rfl)
      (hmore hv₁ fun m hm => hsub _ (hbefore m hm))
    have hall : Swept moves key E nodes x parent stack ((d, v) :: rest) vis₁ (out₁ ++ [v]) vis' out' :=
      hrest.cons hv₁ (fun hin => absurd hin hvs)
        fun _ => hrest.out_sub v (List.mem_append_right _ (List.mem_singleton.2 rfl))
    refine ⟨hall.settled, fun a ha => hall.sub a (hsub a ha), hall.targets, hall.back, hall.directed, ?_, ?_⟩
    · intro a ha
      exact hall.out_sub a (List.mem_append_left _ (hinner.out_sub a ha))
    · intro u hu hnu
      by_cases hu₁ : u ∈ vis₁
      · exact hopen u hu₁ hnu
      · exact hall.opened u hu hu₁

end Sorts

end DepthFirst

end OmniJsonDb

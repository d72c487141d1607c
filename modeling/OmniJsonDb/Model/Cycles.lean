import OmniJsonDb.Model.Scc

/-!
# Cycles and orders

`is_cyclic`, `find_cycle` and `topological_sort`, depth first and by recursion. `none` is a
`RecursionError`.

* `seek`: the search of `is_cyclic` and `find_cycle`, which follow the same rule.
* `sortFrom`: the search of `topological_sort`, which marks a node when it is entered.
-/

namespace OmniJsonDb

namespace Graph

variable {P C R : Type} (cfg : Config P C)

def MAX_RECURSION : ℕ := 500

/-- An edge as it is walked: from, whether it is directed, to. -/
abbrev Walked := NodeId × Bool × NodeId

/-- The path of the search: each node with the key and the edge it was left by. -/
abbrev Path := List (NodeId × Key × Walked)

/-! ## Cycles -/

/-- `visited`, and `stack` without an order. -/
structure Marks where
  visited : List NodeId
  stack : List NodeId

section Seek

-- what is returned when a successor is on the stack
variable (found : Path → Walked → R)

/-- The loop over the list of `id`; `full` is `is_fully_explored`. -/
def seekEach (dfs : NodeId → Key → Path → Marks → GraphM P C (Option (Option R × Marks))) (id : NodeId)
    (parentKey : Option Key) (path : Path) :
    List (List Char) → Bool → Marks → GraphM P C (Option (Option R × Bool × Marks))
  | [], full, m => pure (some (none, full, m))
  | [] :: _, _, _ => Exec.raise .value
  | (kind :: successor) :: entries, full, m =>
    if kind = '<' then seekEach dfs id parentKey path entries full m
    else
      let key := generateEdgeKey id successor (kind = '>')
      let tuple := (id, decide (kind = '>'), successor)
      if some key = parentKey then seekEach dfs id parentKey path entries false m
      else if successor ∈ m.stack then pure (some (some (found path tuple), full, m))
      else if successor ∉ m.visited then do
        match ← dfs successor key (path ++ [(id, key, tuple)]) m with
        | none => pure none
        | some (some r, m) => pure (some (some r, full, m))
        | some (none, m) => seekEach dfs id parentKey path entries full m
      else seekEach dfs id parentKey path entries full m

/-- `dfs`, so many levels deep at most. -/
def seek : ℕ → NodeId → Option Key → Path → Marks → GraphM P C (Option (Option R × Marks))
  | 0, _, _, _, _ => pure none
  | n + 1, id, parentKey, path, m => do
    let m := { m with stack := m.stack.insert id }
    let entries ← fGetAdj cfg id
    match ← seekEach found (fun id key path m => seek n id (some key) path m) id parentKey path entries true m with
    | none => pure none
    | some (some r, _, m) => pure (some (some r, m))
    | some (none, full, m) =>
      pure (some (none, ⟨if full then m.visited.insert id else m.visited, m.stack.erase id⟩))

/-- The search from each node that has not been visited; `reset` is what is done to the marks first. -/
def seekRoots (reset : Marks → Marks) : List NodeId → Marks → GraphM P C (Option (Option R))
  | [], _ => pure (some none)
  | id :: ids, m =>
    if id ∈ m.visited then seekRoots reset ids m
    else do
      match ← seek cfg found MAX_RECURSION id none [] (reset m) with
      | none => pure none
      | some (some r, _) => pure (some (some r))
      | some (none, m) => seekRoots reset ids m

end Seek

/-- `is_cyclic`. -/
def isCyclic : GraphM P C (Option Bool) := do
  let db ← Exec.get
  let r ← seekRoots cfg (fun _ _ => ()) id db.nodeIds ⟨[], []⟩
  pure (r.map Option.isSome)

/-- The path from where `successor` was left, and the edge back to it. -/
def closing (path : Path) (tuple : Walked) : List Walked :=
  (path.dropWhile fun item => item.1 ≠ tuple.2.2).map (·.2.2) ++ [tuple]

/-- `find_cycle`. -/
def findCycle (source : Option NodeId) : GraphM P C (Option (List Walked)) := do
  let db ← Exec.get
  let ids ← match source with
    | none => pure db.nodeIds
    | some id => if db.holds (nodeKey id) then pure [id] else Exec.raise .value
  match ← seekRoots cfg closing (fun m => { m with stack := [] }) ids ⟨[], []⟩ with
  | none => pure none
  | some (some cycle) => pure (some cycle)
  | some none => Exec.raise .value

/-! ## Orders -/

/-- `visited`, `rec_stack`, and the nodes that are done. -/
structure Sorting where
  visited : List NodeId
  recStack : List NodeId
  stack : List NodeId

/-- The loop over the list of `id`. -/
def sortEach (dfs : NodeId → Key → Sorting → GraphM P C (Option (Bool × Sorting))) (id : NodeId)
    (parentKey : Option Key) : List (List Char) → Sorting → GraphM P C (Option (Bool × Sorting))
  | [], st => pure (some (false, st))
  | [] :: _, _ => Exec.raise .value
  | (kind :: successor) :: entries, st =>
    if kind = '<' then sortEach dfs id parentKey entries st
    else
      let key := generateEdgeKey id successor (kind = '>')
      if ¬ (kind = '-' ∧ some key = parentKey) then
        if successor ∉ st.visited then do
          match ← dfs successor key st with
          | none => pure none
          | some (true, st) => pure (some (true, st))
          | some (false, st) => sortEach dfs id parentKey entries st
        else if successor ∈ st.recStack then pure (some (true, st))
        else sortEach dfs id parentKey entries st
      else sortEach dfs id parentKey entries st

/-- `dfs`, so many levels deep at most; whether a cycle was met. -/
def sortFrom : ℕ → NodeId → Option Key → Sorting → GraphM P C (Option (Bool × Sorting))
  | 0, _, _, _ => pure none
  | n + 1, id, parentKey, st => do
    let st := { st with visited := st.visited.insert id, recStack := st.recStack.insert id }
    let entries ← fGetAdj cfg id
    match ← sortEach (fun id key st => sortFrom n id (some key) st) id parentKey entries st with
    | none => pure none
    | some (true, st) => pure (some (true, st))
    | some (false, st) => pure (some (false, { st with recStack := st.recStack.erase id, stack := st.stack ++ [id] }))

def sortRoots : List NodeId → Sorting → GraphM P C (Option Sorting)
  | [], st => pure (some st)
  | id :: ids, st =>
    if id ∈ st.visited then sortRoots ids st
    else do
      match ← sortFrom cfg MAX_RECURSION id none st with
      | none => pure none
      | some (true, _) => Exec.raise .value
      | some (false, st) => sortRoots ids st

/-- `topological_sort`. -/
def topologicalSort : GraphM P C (Option (List NodeId)) := do
  let db ← Exec.get
  let st ← sortRoots cfg db.nodeIds ⟨[], [], []⟩
  pure (st.map fun st => st.stack.reverse)

end Graph

end OmniJsonDb

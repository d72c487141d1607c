import Mathlib.Data.Rat.Defs
import Mathlib.Algebra.Order.Ring.Rat
import OmniJsonDb.Model.Cycles

/-!
# Searches of the graph

Breadth first: `bfs_shortest_path`, `connected_components`, `k_hop_neighbors`, `descendants`,
`ancestors`. By weight: `dijkstra_shortest_path`. Depth first: `dfs_traverse`. A loop without a bound
of its own takes one; `none` is when it was not enough, and a `RecursionError` of `dfs_traverse`.

* `passes`: the question to `edge_filter`.
* `eachNew`: the loop over the list of a node, for the neighbours that are new.
* `walkBack`: the path, from its end.
-/

namespace OmniJsonDb

namespace Graph

variable {P C : Type} (cfg : Config P C)

/-! ## Which edges are followed -/

/-- `direction`. What is neither `out` nor `in` is `both`. -/
inductive Direction where
  | out
  | inward
  | both
  deriving DecidableEq

/-- `direction == 'out' and d == '<'`, and the other way round. -/
def Direction.skips : Direction → Char → Bool
  | .out, kind => kind = '<'
  | .inward, kind => kind = '>'
  | .both, _ => false

/-- `None`, as a value that is no properties either. -/
def noProps : Val P := .num 0

/-- `props if isinstance(props, dict) else {}`. -/
def asDict : Val P → P
  | .props p => if cfg.isDict p then p else cfg.empty
  | _ => cfg.empty

/-- Whether `edge_filter` lets the edge of an entry of the list of `id` through. -/
def passes (edgeFilter : Option (P → Bool)) (id : NodeId) (kind : Char) (neighbor : NodeId) : GraphM P C Bool :=
  match edgeFilter with
  | none => pure true
  | some keep => do
    let props ← fRead cfg (incidentKey id kind neighbor) noProps
    pure (keep (asDict cfg props))

section Each

variable {σ : Type} (dir : Direction) (edgeFilter : Option (P → Bool)) (id : NodeId) (meet : NodeId → σ → σ)

/-- The loop over the list of `id`: `meet` is what is done to a neighbour that has not been visited. -/
def eachNew : List (List Char) → List NodeId → σ → GraphM P C (List NodeId × σ)
  | [], visited, st => pure (visited, st)
  | [] :: _, _, _ => Exec.raise .value
  | (kind :: neighbor) :: entries, visited, st =>
    if dir.skips kind then eachNew entries visited st
    else if neighbor ∈ visited then eachNew entries visited st
    else do
      match ← passes cfg edgeFilter id kind neighbor with
      | true => eachNew entries (neighbor :: visited) (meet neighbor st)
      | false => eachNew entries visited st

end Each

/-! ## Paths -/

/-- `while current_node is not None`, for so many nodes at most; the path from its end. -/
def walkBack (previous : OrdDict NodeId (Option NodeId)) : ℕ → NodeId → Except Err (Option (List NodeId))
  | 0, _ => .ok none
  | n + 1, node => do
    match ← lookUp previous node with
    | none => .ok (some [node])
    | some before => do
      let rest ← walkBack previous n before
      .ok (rest.map (node :: ·))

/-- `path[::-1]`. -/
def pathTo (previous : OrdDict NodeId (Option NodeId)) (fuel : ℕ) (node : NodeId) : Except Err (Option (List NodeId)) := do
  let path ← walkBack previous fuel node
  .ok (path.map List.reverse)

/-- What `bfs_shortest_path` carries beside `visited`. -/
structure Bfs where
  previous : OrdDict NodeId (Option NodeId)
  queue : List NodeId

/-- A neighbour that has not been visited. -/
def Bfs.meet (current neighbor : NodeId) (st : Bfs) : Bfs where
  previous := st.previous.set neighbor (some current)
  queue := st.queue ++ [neighbor]

/-- `while queue`. -/
def bfsLoop (dir : Direction) (edgeFilter : Option (P → Bool)) (target : NodeId) (fuel : ℕ) :
    ℕ → List NodeId → Bfs → GraphM P C (Option (List NodeId))
  | 0, _, _ => pure none
  | n + 1, visited, st =>
    match st.queue with
    | [] => pure (some [])
    | current :: queue =>
      if current = target then Exec.lift (pathTo st.previous fuel current)
      else do
        let adj ← fGetAdj cfg current
        let (visited, st) ← eachNew cfg dir edgeFilter current (Bfs.meet current) adj visited { st with queue := queue }
        bfsLoop dir edgeFilter target fuel n visited st

/-- `bfs_shortest_path`. -/
def bfsShortestPath (fuel : ℕ) (source target : NodeId) (dir : Direction) (edgeFilter : Option (P → Bool)) :
    GraphM P C (Option (List NodeId)) := do
  let db ← Exec.get
  if !db.holds (nodeKey source) || !db.holds (nodeKey target) then pure (some [])
  else bfsLoop cfg dir edgeFilter target fuel fuel [source] ⟨OrdDict.empty.set source none, [source]⟩

/-! ## What can be reached -/

/-- The loop over the list of a node, by what stands behind the mark. -/
def queueNew : List (List Char) → List NodeId → List NodeId → List NodeId × List NodeId
  | [], visited, queue => (visited, queue)
  | entry :: entries, visited, queue =>
    if entry.tail ∈ visited then queueNew entries visited queue
    else queueNew entries (entry.tail :: visited) (queue ++ [entry.tail])

/-- `while queue` of a component. -/
def componentLoop : ℕ → List NodeId → List NodeId → List NodeId → GraphM P C (Option (List NodeId × List NodeId))
  | 0, _, _, _ => pure none
  | n + 1, visited, component, queue =>
    match queue with
    | [] => pure (some (visited, component))
    | current :: queue => do
      let adj ← fGetAdj cfg current
      let (visited, queue) := queueNew adj visited queue
      componentLoop n visited (component ++ [current]) queue

/-- `for node_id in f_iter_nodes`. -/
def componentsFrom (fuel : ℕ) : List NodeId → List NodeId → List (List NodeId) → GraphM P C (Option (List (List NodeId)))
  | [], _, components => pure (some components)
  | id :: ids, visited, components =>
    if id ∈ visited then componentsFrom fuel ids visited components
    else do
      match ← componentLoop cfg fuel (id :: visited) [] [id] with
      | none => pure none
      | some (visited, component) => componentsFrom fuel ids visited (components ++ [component])

/-- `connected_components`. -/
def connectedComponents (fuel : ℕ) : GraphM P C (Option (List (List NodeId))) := do
  let db ← Exec.get
  componentsFrom cfg fuel db.nodeIds [] []

section Levels

variable {ρ : Type} (dir : Direction) (add : NodeId → ρ → ρ)

/-- What a level carries beside `visited`: the result, and the next level. -/
def Level.meet (neighbor : NodeId) (st : ρ × List NodeId) : ρ × List NodeId := (add neighbor st.1, st.2 ++ [neighbor])

/-- `for cur in frontier`. -/
def eachOf : List NodeId → List NodeId → ρ × List NodeId → GraphM P C (List NodeId × ρ × List NodeId)
  | [], visited, st => pure (visited, st)
  | id :: ids, visited, st => do
    let adj ← fGetAdj cfg id
    let (visited, st) ← eachNew cfg dir none id (Level.meet add) adj visited st
    eachOf ids visited st

end Levels

/-- `for depth in range(depth, k + 1)`, of which there are so many. -/
def hopLoop (dir : Direction) : ℕ → ℕ → List NodeId → OrdDict NodeId ℕ → List NodeId → GraphM P C (OrdDict NodeId ℕ)
  | 0, _, _, result, _ => pure result
  | n + 1, depth, visited, result, frontier => do
    let (visited, result, nxt) ← eachOf cfg dir (fun id result => result.set id depth) frontier visited (result, [])
    if nxt = [] then pure result else hopLoop dir n (depth + 1) visited result nxt

/-- `k_hop_neighbors`. -/
def kHopNeighbors (id : NodeId) (k : ℤ) (dir : Direction) : GraphM P C (OrdDict NodeId ℕ) := do
  let db ← Exec.get
  if !db.holds (nodeKey id) || k < 1 then pure OrdDict.empty
  else hopLoop cfg dir k.toNat 1 [id] OrdDict.empty [id]

/-- `while frontier`. -/
def reachLoop (dir : Direction) : ℕ → List NodeId → List NodeId → List NodeId → GraphM P C (Option (List NodeId))
  | 0, _, _, _ => pure none
  | n + 1, visited, result, frontier =>
    if frontier = [] then pure (some result)
    else do
      let (visited, result, nxt) ← eachOf cfg dir List.insert frontier visited (result, [])
      reachLoop dir n visited result nxt

/-- The ids that can be reached, one level after the other. -/
def reached (fuel : ℕ) (source : NodeId) (dir : Direction) : GraphM P C (Option (List NodeId)) := do
  let db ← Exec.get
  if !db.holds (nodeKey source) then pure (some []) else reachLoop cfg dir fuel [source] [] [source]

/-- `descendants`. -/
def descendants (fuel : ℕ) (source : NodeId) : GraphM P C (Option (List NodeId)) := reached cfg fuel source .out

/-- `ancestors`. -/
def ancestors (fuel : ℕ) (source : NodeId) : GraphM P C (Option (List NodeId)) := reached cfg fuel source .inward

/-! ## By weight -/

section Weight

-- `props.get(weight_key, 1)`; a weight that is no number is a `TypeError`
variable (weigh : P → Except Err ℚ)

/-- The weight of an edge. -/
def weightOf : Val P → Except Err ℚ
  | .props p => if cfg.isDict p then weigh p else .ok 1
  | _ => .ok 1

/-- The order of pairs on the heap. -/
def heapLe (a b : ℚ × NodeId) : Bool := a.1 < b.1 || (a.1 = b.1 && a.2 ≤ b.2)

/-- `heappush`, where `heappop` takes the first. -/
def heappush (e : ℚ × NodeId) : List (ℚ × NodeId) → List (ℚ × NodeId)
  | [] => [e]
  | x :: xs => if heapLe e x then e :: x :: xs else x :: heappush e xs

/-- `distance < distances.get(neighbor, inf)`. -/
def nearer (distance : ℚ) : Option ℚ → Bool
  | none => true
  | some d => distance < d

/-- What `dijkstra_shortest_path` carries. -/
structure Dijkstra where
  distances : OrdDict NodeId ℚ
  previous : OrdDict NodeId (Option NodeId)
  queue : List (ℚ × NodeId)

/-- A neighbour at a distance. -/
def Dijkstra.relax (current neighbor : NodeId) (distance : ℚ) (st : Dijkstra) : Dijkstra :=
  if nearer distance (st.distances.get? neighbor) then
    { distances := st.distances.set neighbor distance
      previous := st.previous.set neighbor (some current)
      queue := heappush (distance, neighbor) st.queue }
  else st

/-- The loop over the list of `current`. -/
def relaxEach (current : NodeId) (currentDist : ℚ) : List (List Char) → Dijkstra → GraphM P C Dijkstra
  | [], st => pure st
  | [] :: _, _ => Exec.raise .value
  | (kind :: neighbor) :: entries, st =>
    if kind = '<' then relaxEach current currentDist entries st
    else do
      let props ← fRead cfg (generateEdgeKey current neighbor (kind = '>')) noProps
      let weight ← Exec.lift (weightOf cfg weigh props)
      relaxEach current currentDist entries (st.relax current neighbor (currentDist + weight))

/-- `while queue`; the distance is `inf` when there is no path. -/
def dijkstraLoop (target : NodeId) (fuel : ℕ) : ℕ → Dijkstra → GraphM P C (Option (Option ℚ × List NodeId))
  | 0, _ => pure none
  | n + 1, st =>
    match st.queue with
    | [] => pure (some (none, []))
    | (currentDist, current) :: queue =>
      let st := { st with queue := queue }
      if current = target then do
        let path ← Exec.lift (pathTo st.previous fuel current)
        pure (path.map fun path => (some currentDist, path))
      else if (st.distances.get? current).any fun d => d < currentDist then dijkstraLoop target fuel n st
      else do
        let adj ← fGetAdj cfg current
        let st ← relaxEach cfg weigh current currentDist adj st
        dijkstraLoop target fuel n st

/-- `dijkstra_shortest_path`. -/
def dijkstraShortestPath (fuel : ℕ) (source target : NodeId) : GraphM P C (Option (Option ℚ × List NodeId)) := do
  let db ← Exec.get
  if !db.holds (nodeKey source) || !db.holds (nodeKey target) then pure (some (none, []))
  else
    dijkstraLoop cfg weigh target fuel fuel
      ⟨OrdDict.empty.set source 0, OrdDict.empty.set source none, [(0, source)]⟩

end Weight

/-! ## Depth first -/

section Traverse

variable (dir : Direction) (edgeFilter : Option (P → Bool))

/-- The loop over the list of `id`. -/
def traverseEach (dfs : NodeId → List NodeId → GraphM P C (Option (List NodeId × List NodeId))) (id : NodeId) :
    List (List Char) → List NodeId → List NodeId → GraphM P C (Option (List NodeId × List NodeId))
  | [], path, visited => pure (some (path, visited))
  | [] :: _, _, _ => Exec.raise .value
  | (kind :: successor) :: entries, path, visited =>
    if dir.skips kind then traverseEach dfs id entries path visited
    else do
      match ← passes cfg edgeFilter id kind successor with
      | false => traverseEach dfs id entries path visited
      | true => do
        match ← dfs successor visited with
        | none => pure none
        | some (more, visited) => traverseEach dfs id entries (path ++ more) visited

/-- `dfs`, so many levels deep at most. -/
def traverse : ℕ → NodeId → List NodeId → GraphM P C (Option (List NodeId × List NodeId))
  | 0, _, _ => pure none
  | n + 1, id, visited =>
    if id ∈ visited then pure (some ([], visited))
    else do
      let adj ← fGetAdj cfg id
      traverseEach cfg dir edgeFilter (traverse n) id adj [id] (id :: visited)

/-- `dfs_traverse`, with what has been visited afterwards. -/
def dfsTraverse (source : NodeId) (visited : List NodeId) : GraphM P C (Option (List NodeId × List NodeId)) := do
  let db ← Exec.get
  if db.holds (nodeKey source) then traverse cfg dir edgeFilter MAX_RECURSION source visited
  else pure (some ([], visited))

end Traverse

end Graph

end OmniJsonDb

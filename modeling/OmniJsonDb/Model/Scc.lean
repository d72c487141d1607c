import OmniJsonDb.Model.Graph

/-!
# Strongly connected components

`strongly_connected_components`: the nodes and where their edges lead are read first, then the
components are found by Tarjan's algorithm with its own stack of nodes and positions.

* `fIterNodes`, `targets`: the nodes, and the neighbours an adjacency list leads to.
* `Tarjan.turn`: one round of `while work`.
* `Tarjan.search`: `for root in nodes`.
-/

namespace OmniJsonDb

namespace Graph

variable {P C : Type} (cfg : Config P C)

/-- `f_iter_nodes`, the ids. -/
def Db.nodeIds (db : Db P C) : List NodeId := db.table.keys.filterMap nodeMatch

/-- `entry[1:] for entry in … if entry[0] != '<'`. -/
def targets : List (List Char) → Except Err (List NodeId)
  | [] => .ok []
  | [] :: _ => .error .value
  | (kind :: neighbor) :: entries => do
    let rest ← targets entries
    .ok (if kind = '<' then rest else neighbor :: rest)

/-- `adj[nid] = list(dict.fromkeys(…))` for each node. -/
def readTargets : List NodeId → OrdDict NodeId (List NodeId) → GraphM P C (OrdDict NodeId (List NodeId))
  | [], adj => pure adj
  | id :: ids, adj => do
    let entries ← fGetAdj cfg id
    let next ← Exec.lift (targets entries)
    readTargets ids (adj.set id next.eraseDups)

/-- `d[k]`. -/
def lookUp {α : Type} (d : OrdDict NodeId α) (k : NodeId) : Except Err α :=
  match d.get? k with
  | some a => .ok a
  | none => .error .key

/-- What the search carries; the lists start with what was put there last. -/
structure Tarjan where
  counter : ℕ
  indices : OrdDict NodeId ℕ
  lowlink : OrdDict NodeId ℕ
  onStack : OrdDict NodeId Bool
  stack : List NodeId
  components : List (List NodeId)
  work : List (NodeId × ℕ)

namespace Tarjan

def init : Tarjan := ⟨0, OrdDict.empty, OrdDict.empty, OrdDict.empty, [], [], []⟩

/-- A node that is met for the first time. -/
def enter (node : NodeId) (st : Tarjan) : Tarjan :=
  { st with
    indices := st.indices.set node st.counter
    lowlink := st.lowlink.set node st.counter
    counter := st.counter + 1
    stack := node :: st.stack
    onStack := st.onStack.set node true }

/-- `on_stack.get(w)`. -/
def isOn (st : Tarjan) (w : NodeId) : Bool := (st.onStack.get? w).getD false

/-- The neighbours from position `pi` on, up to one that has not been met; whether there is one. -/
def scan (node : NodeId) : List NodeId → ℕ → Tarjan → Except Err (Bool × Tarjan)
  | [], pi, st => .ok (false, { st with work := (node, pi) :: st.work.tail })
  | w :: ws, pi, st =>
    if !st.indices.contains w then .ok (true, { st with work := (w, 0) :: (node, pi + 1) :: st.work.tail })
    else if st.isOn w then do
      let index ← lookUp st.indices w
      let low ← lookUp st.lowlink node
      scan node ws (pi + 1) (if index < low then { st with lowlink := st.lowlink.set node index } else st)
    else scan node ws (pi + 1) st

/-- `stack.pop()` until `node` has come off. -/
def popTo (node : NodeId) (st : Tarjan) (comp : List NodeId) : List NodeId → Except Err Tarjan
  | [] => .error .value
  | w :: rest =>
    let st := { st with stack := rest, onStack := st.onStack.set w false }
    if w = node then .ok { st with components := st.components ++ [comp ++ [w]] }
    else popTo node st (comp ++ [w]) rest

/-- The node at the top has no neighbour left. -/
def finish (node : NodeId) (st : Tarjan) : Except Err Tarjan := do
  let low ← lookUp st.lowlink node
  let index ← lookUp st.indices node
  let st ← if low = index then popTo node st [] st.stack else .ok st
  let st := { st with work := st.work.tail }
  match st.work with
  | [] => .ok st
  | (parent, _) :: _ => do
    let above ← lookUp st.lowlink parent
    .ok (if low < above then { st with lowlink := st.lowlink.set parent low } else st)

/-- One round of `while work`. -/
def turn (adj : OrdDict NodeId (List NodeId)) (st : Tarjan) : Except Err Tarjan :=
  match st.work with
  | [] => .ok st
  | (node, pi) :: _ => do
    let st := if pi = 0 then st.enter node else st
    let neighbors ← lookUp adj node
    let (recursed, st) ← scan node (neighbors.drop pi) pi st
    if recursed then .ok st else finish node st

/-- `while work`, for so many rounds at most. -/
def spin (adj : OrdDict NodeId (List NodeId)) : ℕ → Tarjan → Except Err (Option Tarjan)
  | 0, st => .ok (if st.work = [] then some st else none)
  | n + 1, st => if st.work = [] then .ok (some st) else do
    let st ← turn adj st
    spin adj n st

/-- `for root in nodes`. -/
def search (adj : OrdDict NodeId (List NodeId)) (fuel : ℕ) : List NodeId → Tarjan → Except Err (Option Tarjan)
  | [], st => .ok (some st)
  | root :: roots, st =>
    if st.indices.contains root then search adj fuel roots st
    else do
      match ← spin adj fuel { st with work := [(root, 0)] } with
      | none => .ok none
      | some st => search adj fuel roots st

end Tarjan

/-- `strongly_connected_components`, with so many rounds for each root; `none` when they were not
enough. -/
def stronglyConnectedComponents (fuel : ℕ) : GraphM P C (Option (List (List NodeId))) := do
  let db ← Exec.get
  let nodes := db.nodeIds
  let adj ← readTargets cfg nodes OrdDict.empty
  let st ← Exec.lift (Tarjan.search adj fuel nodes Tarjan.init)
  pure (st.map Tarjan.components)

end Graph

end OmniJsonDb

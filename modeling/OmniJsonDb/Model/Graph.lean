import Mathlib.Data.Char
import Mathlib.Data.List.Lex
import Mathlib.Data.List.Sort
import OmniJsonDb.Lib.Exec
import OmniJsonDb.Lib.OrdDict
import OmniJsonDb.Model.Row

/-!
# The graph layer

`GraphDb`: nodes, edges, adjacency lists and counters as records of a store. The store is seen as
the graph sees it, records without lifetimes, locks or links: the key table with the stored values,
the rows, and the read cache whose objects the graph edits in place.

* `nodeMatch`, `edgeMatch`, `adjMatch`: what the patterns read off a key.
* `fRead`, `fWrite`, `fDelete`: the store.
* `fAddNode`, `fAddEdge`, `fRemoveNode`, `fRemoveEdge`: the updates. `window` is what other handles
  do while the shared lock is exchanged for the exclusive one.
* `Update`, `Update.Step`, `Call`, `Call.Ends`: the calls of one handle that is alone.
* `verifyIndex`, `reindex`.
-/

namespace OmniJsonDb

namespace Graph

/-! ## Keys -/

abbrev NodeId := List Char

/-- `N:{id}:`. -/
def nodeKey (id : NodeId) : Key := 'N' :: ':' :: id ++ [':']

/-- `X:{id}:`. -/
def adjKey (id : NodeId) : Key := 'X' :: ':' :: id ++ [':']

/-- `>` for a directed edge, `-` for an undirected one. -/
def mark (directed : Bool) : Char := if directed then '>' else '-'

/-- `E:{u}:>:{v}:` or `E:{u}:-:{v}:`. -/
def edgeKey (u : NodeId) (directed : Bool) (v : NodeId) : Key :=
  'E' :: ':' :: u ++ ':' :: mark directed :: ':' :: v ++ [':']

/-- `_generate_edge_key`. -/
def generateEdgeKey (u v : NodeId) (directed : Bool) : Key :=
  if directed then edgeKey u true v
  else
    let (u, v) := if v < u then (v, u) else (u, v)
    edgeKey u false v

def N_NODES : Key := ['#', ':', 'N', ':']
def N_EDGES : Key := ['#', ':', 'E', ':']
def N_DIRECTED : Key := ['#', ':', '>', ':']

/-- The entry of an edge in the list of its first and of its second endpoint. -/
def outEntry (directed : Bool) (v : NodeId) : List Char := (if directed then '>' else '-') :: v
def inEntry (directed : Bool) (u : NodeId) : List Char := (if directed then '<' else '-') :: u

/-! ## Patterns -/

section Patterns

-- what the dot of a pattern stands for
variable (dot : Char → Bool)

/-- `(.+?):$` behind what has been read; `$` is also in front of a newline at the end. -/
def lastId (seen : List Char) : List Char → Option NodeId
  | [] => none
  | c :: cs =>
    if seen ≠ [] ∧ c = ':' ∧ (cs = [] ∨ cs = ['\n']) then some seen.reverse
    else if dot c then lastId (c :: seen) cs
    else none

/-- `:([->]):(.+?):$`. -/
def markAndLast : List Char → Option (Bool × NodeId)
  | c₁ :: m :: c₂ :: rest =>
    if c₁ = ':' ∧ c₂ = ':' ∧ (m = '>' ∨ m = '-') then (lastId dot [] rest).map fun dst => (m = '>', dst) else none
  | _ => none

/-- `(.+?):([->]):(.+?):$` behind what has been read. -/
def edgeTail (seen : List Char) : List Char → Option (NodeId × Bool × NodeId)
  | [] => none
  | c :: cs =>
    match if seen = [] then none else markAndLast dot (c :: cs) with
    | some (directed, dst) => some (seen.reverse, directed, dst)
    | none => if dot c then edgeTail (c :: seen) cs else none

end Patterns

/-- The dot stands for no newline. -/
def noNewline (c : Char) : Bool := c ≠ '\n'

/-- What stands behind a letter and a colon. -/
def behind (letter : Char) : Key → Option (List Char)
  | c₁ :: c₂ :: rest => if c₁ = letter ∧ c₂ = ':' then some rest else none
  | _ => none

/-- `NODE_RE.match`. -/
def nodeMatch (key : Key) : Option NodeId := behind 'N' key >>= lastId noNewline []

/-- `ADJ_RE.match`. -/
def adjMatch (key : Key) : Option NodeId := behind 'X' key >>= lastId noNewline []

/-- `EDGE_RE.match`. -/
def edgeMatch (key : Key) : Option (NodeId × Bool × NodeId) := behind 'E' key >>= edgeTail noNewline []

/-- `key.find(':>:')`. -/
def findDirected (i : ℕ) : List Char → Option ℕ
  | [] => none
  | c :: cs => if [':', '>', ':'].isPrefixOf (c :: cs) then some i else findDirected (i + 1) cs

/-- `key.find(':>:') >= 3`. -/
def looksDirected (key : Key) : Bool :=
  match findDirected 0 key with
  | some i => 3 ≤ i
  | none => false

/-! ## The store -/

/-- What is stored: properties, an adjacency list or a counter. -/
inductive Val (P : Type) where
  | props (p : P)
  | adj (entries : List (List Char))
  | num (n : ℤ)
  deriving DecidableEq

/-- The store's configuration: what properties are, how values are coded, which keys it has room
for, and how many values it remembers. -/
structure Config (P C : Type) where
  /-- `{}`. -/
  empty : P
  isDict : P → Bool
  /-- `{**old, **new}`. -/
  merge : P → P → P
  /-- `==`. -/
  same : P → P → Bool
  dumps : Val P → Except Err C
  loads : C → Except Err (Val P)
  takes : Key → Bool
  cacheLimit : ℤ

/-- The store: the key table with what is stored under each key, the key of each row, and the
cache. -/
structure Db (P C : Type) where
  table : OrdDict Key C
  rows : List Key
  cache : OrdDict Key (Val P)

abbrev GraphM (P C : Type) := Exec (Db P C) Err

variable {P C : Type} [DecidableEq C] (cfg : Config P C)

def Db.init : Db P C := ⟨OrdDict.empty, [], OrdDict.empty⟩

/-- `key in key_table`. -/
def Db.holds (db : Db P C) (key : Key) : Bool := db.table.contains key

/-- `key_table.get(key, -1)`. -/
def Db.row (db : Db P C) (key : Key) : ℕ := db.rows.idxOf key

/-- `==` of values. -/
def Val.same : Val P → Val P → Bool
  | props a, props b => cfg.same a b
  | adj a, adj b => a = b
  | num a, num b => a = b
  | _, _ => false

/-- `_update_cache`. -/
def updateCache (key : Key) (v : Val P) : GraphM P C Unit :=
  if cfg.cacheLimit = 0 then pure ()
  else
    Exec.modify fun db =>
      let cache := if 0 < cfg.cacheLimit ∧ 0 < db.cache.size ∧ cfg.cacheLimit ≤ db.cache.size
          ∧ !db.cache.contains key then db.cache.popFirst else db.cache
      { db with cache := (cache.set key v).touch key }

/-- The value of a record, from the cache or as it is stored. -/
def decode (key : Key) (data : C) : GraphM P C (Val P) := do
  let db ← Exec.get
  match if cfg.cacheLimit = 0 then none else db.cache.get? key with
  | some v =>
    Exec.modify fun db => { db with cache := db.cache.touch key }
    pure v
  | none =>
    let v ← Exec.lift (cfg.loads data)
    updateCache cfg key v
    pure v

/-- `f_read`. -/
def fRead (key : Key) (defaultVal : Val P) : GraphM P C (Val P) := do
  let db ← Exec.get
  match db.cache.get? key with
  | some v =>
    Exec.modify fun db => { db with cache := db.cache.touch key }
    pure v
  | none =>
    match db.table.get? key with
    | none => pure defaultVal
    | some data => decode cfg key data

/-- A value that was read is edited in place: so is the cached object. -/
def editCached (key : Key) (v : Val P) : GraphM P C Unit :=
  Exec.modify fun db => if db.cache.contains key then { db with cache := db.cache.set key v } else db

/-- `_cache[key] == val`, when the cache is to be looked at. -/
def cachedSame (db : Db P C) (key : Key) (v : Val P) (overwrite : Bool) : Option Bool :=
  if overwrite ∨ cfg.cacheLimit = 0 then none else (db.cache.get? key).map fun old => old.same cfg v

/-- `f_write` under the exclusive lock. -/
def fWrite (key : Key) (v : Val P) (overwrite : Bool) : GraphM P C Bool := do
  if !cfg.takes key then Exec.raise .key
  else
    let db ← Exec.get
    match db.table.get? key with
    | some old =>
      match cachedSame cfg db key v overwrite with
      | some true =>
        Exec.modify fun db => { db with cache := db.cache.touch key }
        pure false
      | same =>
        let data ← Exec.lift (cfg.dumps v)
        if !overwrite && same.isNone && decide (data = old) then
          updateCache cfg key v
          pure false
        else
          Exec.modify fun db => { db with table := db.table.set key data }
          updateCache cfg key v
          pure true
    | none =>
      let data ← Exec.lift (cfg.dumps v)
      updateCache cfg key v
      Exec.modify fun db => { db with table := db.table.set key data, rows := db.rows ++ [key] }
      pure true

/-- Whether `f_write` asks for the exclusive lock. -/
def asks (db : Db P C) (key : Key) (v : Val P) (overwrite : Bool) : Bool :=
  cfg.takes key &&
    match db.table.get? key with
    | none => true
    | some old =>
      let same := cachedSame cfg db key v overwrite
      same != some true &&
        match cfg.dumps v with
        | .ok data => overwrite || same.isSome || decide (data ≠ old)
        | .error _ => false

/-- `f_write` under the shared lock: once it has the exclusive one it looks at its record again. -/
def fWriteShared (window : GraphM P C Unit) (key : Key) (v : Val P) (overwrite : Bool) : GraphM P C Bool := do
  let db ← Exec.get
  if asks cfg db key v overwrite then window
  fWrite cfg key v overwrite

/-- The last row moves to the one that goes. -/
def dropRow (rows : List Key) (key : Key) : List Key :=
  let r := rows.idxOf key
  if r + 1 < rows.length then (rows.set r (rows.getLastD key)).dropLast else rows.dropLast

/-- `f_delete`; it looks the row up by the key. -/
def fDelete (key : Key) (readValue : Bool) : GraphM P C (Option (Val P)) := do
  Exec.modify fun db => { db with cache := db.cache.pop key }
  let db ← Exec.get
  match db.table.get? key with
  | none => Exec.raise .key
  | some data =>
    let v ← if readValue then some <$> Exec.lift (cfg.loads data) else pure none
    Exec.modify fun db => { db with table := db.table.pop key, rows := dropRow db.rows key }
    pure v

def asNum : Val P → Except Err ℤ
  | .num n => .ok n
  | _ => .error .type

def asAdj : Val P → Except Err (List (List Char))
  | .adj entries => .ok entries
  | _ => .error .type

/-- A counter. -/
def readNum (key : Key) : GraphM P C ℤ := do
  let v ← fRead cfg key (.num 0)
  Exec.lift (asNum v)

/-- `f_get_adj`. -/
def fGetAdj (id : NodeId) : GraphM P C (List (List Char)) := do
  let v ← fRead cfg (adjKey id) (.adj [])
  Exec.lift (asAdj v)

/-! ## Nodes and edges -/

/-- `not node_id or node_id.find(':') >= 0`. -/
def badId (id : NodeId) : Bool := id = [] || id.contains ':'

/-- `f_write(fp, key, n)` of a counter. -/
def writeNum (key : Key) (n : ℤ) : GraphM P C Unit := (fun _ => ()) <$> fWrite cfg key (.num n) false

variable (window : GraphM P C Unit)

/-- `f_add_node`. -/
def fAddNode (id : NodeId) (p : P) : GraphM P C Bool := do
  if badId id then Exec.raise .key
  else
    let db ← Exec.get
    if !db.holds (nodeKey id) then
      if ← fWriteShared cfg window (nodeKey id) (.props p) false then
        let n ← readNum cfg N_NODES
        writeNum cfg N_NODES (max n 0 + 1)
        pure true
      else pure false
    else
      match ← fRead cfg (nodeKey id) (.props p) with
      | .props old =>
        if cfg.isDict old then
          let new := cfg.merge old p
          if !cfg.same new old then fWriteShared cfg window (nodeKey id) (.props new) false else pure false
        else fWriteShared cfg window (nodeKey id) (.props p) false
      | _ => fWriteShared cfg window (nodeKey id) (.props p) false

/-- A missing endpoint; `n` counts the nodes. -/
def addEndpoint (id : NodeId) (n : ℤ) : GraphM P C ℤ := do
  let db ← Exec.get
  if !db.holds (nodeKey id) then
    let _ ← fWrite cfg (nodeKey id) (.props cfg.empty) true
    pure (n + 1)
  else pure n

/-- The list under `X:{id}:`, or `[]` without such a key. -/
def readAdj (id : NodeId) : GraphM P C (List (List Char)) := do
  let db ← Exec.get
  if db.holds (adjKey id) then fGetAdj cfg id else pure []

/-- `adj.append(entry)`, written unless it is there. -/
def addEntry (id : NodeId) (entry : List Char) : GraphM P C Unit := do
  let adj ← readAdj cfg id
  if entry ∉ adj then
    editCached (adjKey id) (.adj (adj ++ [entry]))
    let _ ← fWrite cfg (adjKey id) (.adj (adj ++ [entry])) true

/-- `adj.remove(entry)`, written if it was there. -/
def removeEntry (id : NodeId) (entry : List Char) : GraphM P C Unit := do
  let adj ← readAdj cfg id
  if entry ∈ adj then
    editCached (adjKey id) (.adj (adj.erase entry))
    let _ ← fWrite cfg (adjKey id) (.adj (adj.erase entry)) true

/-- One more or one less, not below zero. -/
def raiseNum (key : Key) : GraphM P C Unit := do
  let n ← readNum cfg key
  writeNum cfg key (max n 0 + 1)

def lowerNum (key : Key) : GraphM P C Unit := do
  let n ← readNum cfg key
  writeNum cfg key (max 0 (n - 1))

/-- A new edge, under the exclusive lock. -/
def addNewEdge (u v : NodeId) (directed : Bool) (p : P) : GraphM P C Bool := do
  let n ← readNum cfg N_NODES
  let n ← addEndpoint cfg u n
  let n ← addEndpoint cfg v n
  addEntry cfg u (outEntry directed v)
  addEntry cfg v (inEntry directed u)
  writeNum cfg N_NODES (max 0 n)
  if ← fWrite cfg (generateEdgeKey u v directed) (.props p) false then
    raiseNum cfg N_EDGES
    if directed then raiseNum cfg N_DIRECTED
    pure true
  else pure false

/-- `f_add_edge`. -/
def fAddEdge (u v : NodeId) (directed : Bool) (p : P) : GraphM P C Bool := do
  if u = v then Exec.raise .key
  else if badId u || badId v then Exec.raise .key
  else
    let key := generateEdgeKey u v directed
    let db ← Exec.get
    if !db.holds key then
      window
      addNewEdge cfg u v directed p
    else
      match ← fRead cfg key (.props p) with
      | .props old =>
        if cfg.isDict old then
          let new := cfg.merge old p
          if !cfg.same new old then fWriteShared cfg window key (.props new) false else pure false
        else fWriteShared cfg window key (.props p) false
      | _ => fWriteShared cfg window key (.props p) false

/-- An edge that is there goes, under the exclusive lock. -/
def removeOldEdge (u v : NodeId) (directed : Bool) : GraphM P C (OrdDict Key (Option (Val P))) := do
  let key := generateEdgeKey u v directed
  let props ← fDelete cfg key true
  lowerNum cfg N_EDGES
  if directed then lowerNum cfg N_DIRECTED
  removeEntry cfg u (outEntry directed v)
  removeEntry cfg v (inEntry directed u)
  pure (OrdDict.empty.set key props)

/-- `f_remove_edge`. -/
def fRemoveEdge (u v : NodeId) (directed : Bool) : GraphM P C (OrdDict Key (Option (Val P))) := do
  let db ← Exec.get
  if db.holds (generateEdgeKey u v directed) then
    window
    removeOldEdge cfg u v directed
  else pure OrdDict.empty

/-! ## Removing a node -/

/-- What the loop over the adjacency list carries: the records to delete, the lists cleaned so far,
and whether the exclusive lock is held. -/
structure Sweep where
  matched : List (ℕ × Key)
  cleaned : List Key
  exclusive : Bool

/-- The edge an entry of the list of `id` stands for. -/
def incidentKey (id : NodeId) (kind : Char) (neighbor : NodeId) : Key :=
  if kind = '<' then generateEdgeKey neighbor id true else generateEdgeKey id neighbor (kind = '>')

/-- The neighbour's list without `id`. -/
def cleanNeighbor (id neighbor : NodeId) (st : Sweep) : GraphM P C Sweep := do
  let db ← Exec.get
  let key := adjKey neighbor
  if db.holds key ∧ key ∉ st.cleaned ∧ (db.row key, key) ∉ st.matched then
    let st := { st with cleaned := key :: st.cleaned }
    let old ← fGetAdj cfg neighbor
    let new := old.filter fun entry => entry.tail ≠ id
    if new = [] then pure { st with matched := st.matched ++ [(db.row key, key)] }
    else if new ≠ old then
      if !st.exclusive then window
      let _ ← fWrite cfg key (.adj new) true
      pure { st with exclusive := true }
    else pure st
  else pure st

/-- The loop over the adjacency list. -/
def sweep (id : NodeId) : List (List Char) → Sweep → GraphM P C Sweep
  | [], st => pure st
  | [] :: _, _ => Exec.raise .value
  | (kind :: neighbor) :: entries, st => do
    let db ← Exec.get
    let key := incidentKey id kind neighbor
    let st := if db.holds key then { st with matched := st.matched ++ [(db.row key, key)] } else st
    let st ← cleanNeighbor cfg window id neighbor st
    sweep id entries st

/-- Later rows first. -/
def laterFirst (a b : ℕ × Key) : Bool := b.1 < a.1 || (a.1 = b.1 && b.2 ≤ a.2)

/-- The three counters. -/
structure Counts where
  nodes : ℤ
  edges : ℤ
  directed : ℤ

/-- What a deleted key takes off the counters. -/
def Counts.without (n : Counts) (key : Key) : Counts :=
  if key.head? = some 'N' ∧ key.tail.head? = some ':' then { n with nodes := n.nodes - 1 }
  else if key.head? = some 'E' ∧ key.tail.head? = some ':' then
    if looksDirected key then { n with edges := n.edges - 1, directed := n.directed - 1 }
    else { n with edges := n.edges - 1 }
  else n

/-- Delete the records in order. -/
def deleteAll : List (ℕ × Key) → Counts → OrdDict Key (Option (Val P)) →
    GraphM P C (Counts × OrdDict Key (Option (Val P)))
  | [], n, ret => pure (n, ret)
  | (_, key) :: rest, n, ret => do
    let v ← fDelete cfg key true
    deleteAll rest (n.without key) (ret.set key v)

/-- Delete what was matched and take it off the counters. -/
def deleteMatched (matched : List (ℕ × Key)) : GraphM P C (OrdDict Key (Option (Val P))) := do
  let nodes ← readNum cfg N_NODES
  let edges ← readNum cfg N_EDGES
  let directed ← readNum cfg N_DIRECTED
  let (n, ret) ← deleteAll cfg (matched.mergeSort laterFirst) ⟨nodes, edges, directed⟩ OrdDict.empty
  writeNum cfg N_NODES (max 0 n.nodes)
  writeNum cfg N_EDGES (max 0 n.edges)
  writeNum cfg N_DIRECTED (max 0 n.directed)
  pure ret

/-- `f_remove_node`. -/
def fRemoveNode (id : NodeId) : GraphM P C (OrdDict Key (Option (Val P))) := do
  let db ← Exec.get
  let matched := if db.holds (nodeKey id) then [(db.row (nodeKey id), nodeKey id)] else []
  let st ← if db.holds (adjKey id) then do
      let adj ← fGetAdj cfg id
      sweep cfg window id adj ⟨matched ++ [(db.row (adjKey id), adjKey id)], [], false⟩
    else pure ⟨matched, [], false⟩
  if st.matched = [] then pure OrdDict.empty
  else
    if !st.exclusive then window
    deleteMatched cfg st.matched

/-! ## Calls -/

/-- A call that changes the graph, or reads a record. -/
inductive Update (P : Type) where
  | addNode (id : NodeId) (p : P)
  | addEdge (u v : NodeId) (directed : Bool) (p : P)
  | removeNode (id : NodeId)
  | removeEdge (u v : NodeId) (directed : Bool)
  | read (key : Key) (defaultVal : Val P)

/-- Run a call. -/
def Update.exec : Update P → GraphM P C Unit
  | addNode id p => (fun _ => ()) <$> fAddNode cfg window id p
  | addEdge u v directed p => (fun _ => ()) <$> fAddEdge cfg window u v directed p
  | removeNode id => (fun _ => ()) <$> fRemoveNode cfg window id
  | removeEdge u v directed => (fun _ => ()) <$> fRemoveEdge cfg window u v directed
  | read key defaultVal => (fun _ => ()) <$> fRead cfg key defaultVal

/-- A call that returns, while no other handle does anything. -/
def Update.Step (db : Db P C) (c : Update P) (db' : Db P C) : Prop := (c.exec cfg (pure ())).run db = (.ok (), db')

/-- A loop of calls: how many of them wrote. -/
def countWrites {α : Type} (call : α → GraphM P C Bool) : List α → GraphM P C ℕ
  | [] => pure 0
  | x :: xs => do
    let wrote ← call x
    let n ← countWrites call xs
    pure (if wrote then n + 1 else n)

/-- `add_nodes`. -/
def addNodes (nodes : List (NodeId × P)) : GraphM P C ℕ :=
  countWrites (fun (id, p) => fAddNode cfg window id p) nodes

/-- `add_edges`. -/
def addEdges (edges : List (NodeId × NodeId × Bool × P)) : GraphM P C ℕ :=
  countWrites (fun (u, v, directed, p) => fAddEdge cfg window u v directed p) edges

/-- `import_graph`. -/
def importGraph (nodes : List (NodeId × P)) (edges : List (NodeId × NodeId × Bool × P)) : GraphM P C (ℕ × ℕ) := do
  let n ← addNodes cfg window nodes
  let m ← addEdges cfg window edges
  pure (n, m)

/-- A call, or a loop of calls. -/
inductive Call (P : Type) where
  | one (c : Update P)
  | addNodes (nodes : List (NodeId × P))
  | addEdges (edges : List (NodeId × NodeId × Bool × P))
  | importGraph (nodes : List (NodeId × P)) (edges : List (NodeId × NodeId × Bool × P))

def Call.exec : Call P → GraphM P C Unit
  | one c => c.exec cfg window
  | addNodes nodes => (fun _ => ()) <$> Graph.addNodes cfg window nodes
  | addEdges edges => (fun _ => ()) <$> Graph.addEdges cfg window edges
  | importGraph nodes edges => (fun _ => ()) <$> Graph.importGraph cfg window nodes edges

/-- A call returns or raises. After an error that it does not expect `open` also forgets what was read. -/
def Call.Ends (db : Db P C) (c : Call P) (db' : Db P C) : Prop :=
  ∃ r db₁, (c.exec cfg (pure ())).run db = (r, db₁) ∧
    (db' = db₁ ∨ (∃ e, r = .error e) ∧ db' = { db₁ with cache := OrdDict.empty })

/-! ## Reading -/

/-- `number_of_nodes`. -/
def numberOfNodes : GraphM P C (Val P) := fRead cfg N_NODES (.num 0)

/-- `number_of_edges`. -/
def numberOfEdges : GraphM P C (Val P) := fRead cfg N_EDGES (.num 0)

/-- `neighbors`. -/
def neighbors (id : NodeId) : GraphM P C (List NodeId) := do
  let adj ← fGetAdj cfg id
  pure (adj.map List.tail).dedup

/-- What `degree` counts. -/
structure Degree where
  incoming : ℕ
  outgoing : ℕ
  undirected : ℕ
  deriving DecidableEq

def Degree.total (d : Degree) : ℕ := d.incoming + d.outgoing + d.undirected

/-- One more edge of a kind. -/
def Degree.count (d : Degree) (kind : Char) : Degree :=
  if kind = '<' then { d with incoming := d.incoming + 1 }
  else if kind = '>' then { d with outgoing := d.outgoing + 1 }
  else if kind = '-' then { d with undirected := d.undirected + 1 }
  else d

def countEntries : List (List Char) → Degree → Except Err Degree
  | [], d => .ok d
  | [] :: _, _ => .error .value
  | (kind :: _) :: entries, d => countEntries entries (d.count kind)

/-- `degree`. -/
def degree (id : NodeId) : GraphM P C Degree := do
  let db ← Exec.get
  if db.holds (nodeKey id) then
    let adj ← fGetAdj cfg id
    Exec.lift (countEntries adj ⟨0, 0, 0⟩)
  else pure ⟨0, 0, 0⟩

/-! ## Checking and rebuilding -/

/-- `setdefault(id, []).append(entry)`. -/
def appendTo (d : OrdDict NodeId (List (List Char))) (id : NodeId) (entry : List Char) :
    OrdDict NodeId (List (List Char)) :=
  d.set id ((d.get? id).getD [] ++ [entry])

/-- `setdefault(id, set()).add(entry)`. -/
def addTo (d : OrdDict NodeId (List (List Char))) (id : NodeId) (entry : List Char) :
    OrdDict NodeId (List (List Char)) :=
  d.set id (((d.get? id).getD []).insert entry)

/-- What the scan of the edges finds: the entries they imply, and how many there are. -/
structure Expected where
  entries : OrdDict NodeId (List (List Char))
  edges : ℕ
  directed : ℕ

def Expected.scan (keys : List Key) : Expected :=
  keys.foldl (fun ex key =>
    match edgeMatch key with
    | some (src, directed, dst) =>
      { entries := addTo (addTo ex.entries src (outEntry directed dst)) dst (inEntry directed src)
        edges := ex.edges + 1
        directed := if directed then ex.directed + 1 else ex.directed }
    | none => ex) ⟨OrdDict.empty, 0, 0⟩

/-- The lists of the keys that match, `f_iter_adjs`. -/
def iterAdjs : List Key → OrdDict NodeId (List (List Char)) → GraphM P C (OrdDict NodeId (List (List Char)))
  | [], actual => pure actual
  | key :: keys, actual =>
    match adjMatch key with
    | none => iterAdjs keys actual
    | some id => do
      let db ← Exec.get
      match db.table.get? key with
      | none => iterAdjs keys actual
      | some data =>
        let v ← decode cfg key data
        let adj ← Exec.lift (asAdj v)
        iterAdjs keys (actual.set id adj.dedup)

/-- What `verify_index` returns. -/
structure Report (P : Type) where
  missing : List (NodeId × List Char)
  orphan : List (NodeId × List Char)
  counters : List (Key × Val P × ℕ)

/-- Nothing is amiss. -/
def Report.Clean (r : Report P) : Prop := r.missing = [] ∧ r.orphan = [] ∧ r.counters = []

def sortText (xs : List (List Char)) : List (List Char) := xs.mergeSort fun a b => a ≤ b

/-- The entries of the first that the second does not have, node by node. -/
def surplus (ids : List NodeId) (a b : OrdDict NodeId (List (List Char))) : List (NodeId × List Char) :=
  ids.flatMap fun id =>
    (sortText (((a.get? id).getD []).filter fun entry => entry ∉ (b.get? id).getD [])).map fun entry => (id, entry)

/-- A counter that is not what was counted. -/
def counterOff (name : Key) (cached : Val P) (actual : ℕ) : List (Key × Val P × ℕ) :=
  if cached.same cfg (.num actual) then [] else [(name, cached, actual)]

/-- `verify_index`. -/
def verifyIndex : GraphM P C (Report P) := do
  let db ← Exec.get
  let expected := Expected.scan db.table.keys
  let actual ← iterAdjs cfg db.table.keys OrdDict.empty
  let nNodes := (db.table.keys.filter fun key => (nodeMatch key).isSome).length
  let nodes ← fRead cfg N_NODES (.num 0)
  let edges ← fRead cfg N_EDGES (.num 0)
  let directed ← fRead cfg N_DIRECTED (.num 0)
  let ids := sortText (expected.entries.keys ++ actual.keys).dedup
  pure
    { missing := surplus ids expected.entries actual
      orphan := surplus ids actual expected.entries
      counters := counterOff cfg N_NODES nodes nNodes ++ counterOff cfg N_EDGES edges expected.edges
        ++ counterOff cfg N_DIRECTED directed expected.directed }

/-- What `reindex` gathers in its scan. -/
structure Gathered where
  oldKeys : List (ℕ × Key)
  newAdj : OrdDict NodeId (List (List Char))
  nodes : ℕ
  edges : ℕ
  directed : ℕ

/-- The scan of `reindex`, one key. -/
def Gathered.key (db : Db P C) (g : Gathered) (key : Key) : Gathered :=
  if (adjMatch key).isSome then { g with oldKeys := g.oldKeys ++ [(db.row key, key)] }
  else
    match edgeMatch key with
    | some (src, directed, dst) =>
      if !db.holds (nodeKey src) || !db.holds (nodeKey dst) then
        { g with oldKeys := g.oldKeys ++ [(db.row key, key)] }
      else
        { g with
          newAdj := appendTo (appendTo g.newAdj src (outEntry directed dst)) dst (inEntry directed src)
          edges := g.edges + 1
          directed := if directed then g.directed + 1 else g.directed }
    | none => if (nodeMatch key).isSome then { g with nodes := g.nodes + 1 } else g

/-- Delete the old keys. -/
def dropKeys : List (ℕ × Key) → GraphM P C Unit
  | [] => pure ()
  | (_, key) :: rest => do
    let _ ← fDelete cfg key false
    dropKeys rest

/-- Write the new lists. -/
def writeAdjs : List (NodeId × List (List Char)) → GraphM P C Unit
  | [] => pure ()
  | (id, entries) :: rest => do
    let _ ← fWrite cfg (adjKey id) (.adj entries) true
    writeAdjs rest

/-- `reindex`: how many keys were removed, and how many lists there are now. -/
def reindex : GraphM P C (ℕ × ℕ) := do
  let db ← Exec.get
  let g := db.table.keys.foldl (Gathered.key db) ⟨[], OrdDict.empty, 0, 0, 0⟩
  dropKeys cfg (g.oldKeys.mergeSort laterFirst)
  writeAdjs cfg g.newAdj.entries
  writeNum cfg N_NODES g.nodes
  writeNum cfg N_EDGES g.edges
  writeNum cfg N_DIRECTED g.directed
  pure (g.oldKeys.length, g.newAdj.size)

end Graph

end OmniJsonDb

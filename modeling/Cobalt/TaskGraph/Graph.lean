/-
Cobalt.TaskGraph.Graph — building and compiling a task graph (taskgraph.c).

A graph is a vector of nodes, each with the ids of its successors and its
static in-degree. `compile` counts the nodes that Kahn's elimination
reaches, refuses the graph if some are left, and otherwise rebuilds the
cache of the nodes to start from. The outcome of every allocation that
`compile` makes is an argument, so that a statement about all outcomes is a
statement about all `Outcomes`. Writes that C leaves undefined end the call
with a `Fault`.
-/
import Mathlib

namespace Cobalt.TaskGraph

inductive Fault where
  /-- a write through a null pointer -/
  | null
  /-- an access outside an array -/
  | bounds
  /-- the loop did not end within the fuel -/
  | fuel
  deriving DecidableEq, Repr

/-! ## The vector of root ids (vector.c) -/

/-- A vector of ids; `items` says whether its array was allocated. -/
structure Vec where
  items : Bool
  capacity : Nat
  data : List Nat
  deriving DecidableEq, Repr

/-- `SIZE_MAX / sizeof(void *)`. -/
def maxCap : Nat := (2 ^ 64 - 1) / 8

/-- `cobalt_vector_create`: the allocation of the array is not checked. -/
def vectorCreate (initialCapacity : Nat) (structOk itemsOk : Bool) : Option Vec :=
  if structOk then some ⟨itemsOk, initialCapacity, []⟩ else none

/-- The capacity that `vector_push_internal` asks for when the vector is full. -/
def newCap (capacity : Nat) : Nat :=
  if capacity = 0 then 1
  else if capacity > maxCap / 2 then maxCap
  else capacity * 2

/-- `vec->items[vec->size++] = item`. -/
def Vec.store (v : Vec) (x : Nat) : Except Fault Vec :=
  if v.items = false then .error .null
  else if v.capacity ≤ v.data.length then .error .bounds
  else .ok { v with data := v.data ++ [x] }

/-- `cobalt_vector_push`; `grown` is the outcome of the `realloc`, if there is one. -/
def vectorPush (v : Option Vec) (grown : Bool) (x : Nat) : Except Fault (Int × Option Vec) :=
  match v with
  | none => .ok (-1, none)
  | some v =>
    if v.capacity ≤ v.data.length then
      if grown then do
        let v' ← Vec.store { v with items := true, capacity := newCap v.capacity } x
        pure (0, some v')
      else .ok (-1, some v)
    else do
      let v' ← v.store x
      pure (0, some v')

/-! ## The graph -/

/-- `cobalt_task_node_t`, without the callback and its argument. -/
structure Node where
  staticInDegree : Nat
  successors : List Nat
  deriving DecidableEq, Repr

/-- `struct cobalt_taskgraph`, as far as building and compiling read it. -/
structure Graph where
  nodes : List Node
  rootNodes : Option Vec
  compiled : Bool
  deriving DecidableEq, Repr

namespace Graph

/-- The ids that `root_nodes` holds; a null vector has size zero. -/
def roots (g : Graph) : List Nat := (g.rootNodes.map Vec.data).getD []

/-- `cobalt_taskgraph_create`, where its allocations succeed. -/
def create : Graph := ⟨[], vectorCreate 8 true true, false⟩

/-- `cobalt_taskgraph_add_node`: the id of the node, `none` for
`COBALT_INVALID_TASK_ID`; `ok` says that its allocations succeed. A vector
has no room for more than `maxCap` items. -/
def addNode (ok : Bool) (g : Graph) : Graph × Option Nat :=
  if g.compiled then (g, none)
  else if ok = true ∧ g.nodes.length < maxCap then
    ({ g with nodes := g.nodes ++ [⟨0, []⟩] }, some g.nodes.length)
  else (g, none)

/-- `cobalt_taskgraph_add_edge`; `ok` is the outcome of the `push`. -/
def addEdge (ok : Bool) (g : Graph) (fromId toId : Nat) : Graph × Int :=
  if g.compiled then (g, -1)
  else match g.nodes[fromId]?, g.nodes[toId]? with
    | some fromNode, some _ =>
      if toId ∈ fromNode.successors then (g, 0)
      else if ok then
        let linked := g.nodes.modify fromId fun node =>
          { node with successors := node.successors ++ [toId] }
        let counted := linked.modify toId fun node =>
          { node with staticInDegree := (node.staticInDegree + 1) % 2 ^ 64 }
        ({ g with nodes := counted }, 0)
      else (g, -1)
    | _, _ => (g, -1)

end Graph

/-- One call that builds the graph, with the outcome of its allocations. -/
inductive Op where
  | addNode (ok : Bool)
  | addEdge (ok : Bool) (fromId toId : Nat)
  deriving DecidableEq, Repr

namespace Graph

def apply (g : Graph) : Op → Graph
  | .addNode ok => (g.addNode ok).1
  | .addEdge ok fromId toId => (g.addEdge ok fromId toId).1

/-- The graph after a sequence of calls. -/
def build (ops : List Op) : Graph := ops.foldl apply create

end Graph

/-! ## Kahn's elimination -/

/-- The two arrays of `cobalt_taskgraph_compile`: the in-degrees that are left
and the part of the queue that is written. -/
structure Kahn where
  inDegree : Nat → Nat
  queue : List Nat

/-- `x--` on a `size_t`. -/
def decr (x : Nat) : Nat := (x + (2 ^ 64 - 1)) % 2 ^ 64

/-- The body of the inner loop, for the successor `v`. -/
def relax (numNodes : Nat) (k : Kahn) (v : Nat) : Except Fault Kahn :=
  if v < numNodes then
    let inDegree := Function.update k.inDegree v (decr (k.inDegree v))
    if inDegree v = 0 then
      if k.queue.length < numNodes then .ok ⟨inDegree, k.queue ++ [v]⟩ else .error .bounds
    else .ok ⟨inDegree, k.queue⟩
  else .error .bounds

/-- The loop over the queue, from `q_head` on: how many nodes it visits. -/
def drain (nodes : List Node) : Nat → Nat → Nat → Kahn → Except Fault Nat
  | 0, _, _, _ => .error .fuel
  | fuel + 1, head, visited, k =>
    match k.queue[head]? with
    | none => .ok visited
    | some u =>
      match nodes[u]? with
      | none => .error .bounds
      | some node => do
        let k' ← node.successors.foldlM (relax nodes.length) k
        drain nodes fuel (head + 1) (visited + 1) k'

/-- The successors of node `u`. -/
def succs (nodes : List Node) (u : Nat) : List Nat := (nodes[u]?.map Node.successors).getD []

/-- The edge relation of the graph. -/
def Edge (nodes : List Node) (u v : Nat) : Prop := v ∈ succs nodes u

/-- The static in-degree of node `i`. -/
def inDegreeOf (nodes : List Node) (i : Nat) : Nat := (nodes[i]?.map Node.staticInDegree).getD 0

/-- The ids whose static in-degree is zero, in order. -/
def zeroIds (nodes : List Node) : List Nat :=
  (List.range nodes.length).filter fun i => inDegreeOf nodes i = 0

/-- The arrays after the loop that fills them. -/
def initial (nodes : List Node) : Kahn := ⟨inDegreeOf nodes, zeroIds nodes⟩

/-! ## Compiling -/

/-- The outcomes of the allocations of `cobalt_taskgraph_compile`: the arrays
`in_degree` and `queue`, the two allocations of the new vector, and for each
id the `realloc` of the push that stores it. -/
structure Outcomes where
  inDegree : Bool
  queue : Bool
  vector : Bool
  items : Bool
  grow : Nat → Bool

/-- The loop that fills the new vector; what a push returns is dropped. -/
def cacheRoots (o : Outcomes) (v : Option Vec) (ids : List Nat) : Except Fault (Option Vec) :=
  ids.foldlM (fun v i => do pure (← vectorPush v (o.grow i) i).2) v

/-- `cobalt_taskgraph_compile`. -/
def Graph.compile (o : Outcomes) (g : Graph) : Except Fault (Int × Graph) :=
  if g.compiled then .ok (0, g)
  else if g.nodes.length = 0 then .ok (0, { g with compiled := true })
  else if o.inDegree = true ∧ o.queue = true then do
    let visited ← drain g.nodes (g.nodes.length + 1) 0 0 (initial g.nodes)
    if visited = g.nodes.length then
      let fresh := vectorCreate 8 o.vector o.items
      let rootNodes ← cacheRoots o fresh (zeroIds g.nodes)
      pure (0, { g with rootNodes := rootNodes, compiled := true })
    else pure (-1, g)
  else .ok (-1, g)

end Cobalt.TaskGraph

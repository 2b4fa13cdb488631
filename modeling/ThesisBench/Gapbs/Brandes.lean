/-
Betweenness centrality: `PBFS` and `Brandes` of `sources/gapbs/src/bc.cc`,
up to the normalisation, in exact arithmetic.

`PBFS` searches level by level. It counts the shortest paths to each
vertex, marks the edges from a level to the next in a bitmap that is
indexed by the position of the edge in the array of all neighbours, and
keeps where each level starts in the queue. `Brandes` then goes back from
the last level to the first and adds up what depends on each vertex.

The parallel loops are regions of tasks. In a level of `PBFS` the tasks
are the threads of the team, since each has a buffer of its own: how the
vertices are divided among them, and in which order a thread takes its
share, is left open. A read of `depths`, a compare-and-swap, a flush and
an addition to `path_counts` are steps of their own. The last test of
`depths[v]` goes with the addition after it, since nothing changes a
depth that is not -1, and so does the edge's own bit. The private `depth`
of the threads is one variable, since all of them count the same levels.
In the way back each iteration is a task, and each neighbour it reads a
step.

A depth is below the number of vertices, so a `NodeID` holds it. An
access outside an array does not happen, and blocks the program for ever.
-/
import Mathlib.Algebra.Field.Rat
import ThesisBench.Gapbs.Graph
import ThesisBench.Gapbs.SlidingQueue
import ThesisBench.Lib.Parallel

namespace ThesisBench.Gapbs.Brandes

open Parallel

-- =============================================================== memory

/-- The variables of `Brandes` and `PBFS`. -/
structure Memory where
  depths : List Int
  pathCounts : List ℚ
  succ : List Bool
  depthIndex : List Nat
  queue : SlidingQueue
  depth : Int
  deltas : List ℚ
  scores : List ℚ
  d : Int
  deriving DecidableEq

/-- Assignments. -/
def assign (f : Memory → Memory) : Prog Memory := .act fun m m' => m' = f m

-- ============================================================ the graph

/-- A graph without loops and multiple edges, whose neighbourhoods can be
read and hold vertices. An undirected one has every edge in both
directions. The number of edges is what the constructors make of the
index. -/
structure Simple (g : CSRGraph Nat) : Prop where
  outNeigh : ∀ u < g.numNodes, ∃ l, g.outNeigh u = some l ∧ ∀ v ∈ l, v < g.numNodes
  nodup : ∀ u < g.numNodes, (g.outs u).Nodup
  loopless : ∀ u < g.numNodes, u ∉ g.outs u
  symm : g.directed = false → ∀ u < g.numNodes, ∀ v ∈ g.outs u, u ∈ g.outs v
  numEdges : ∃ size, g.outgoing.size g.numNodes = some size
    ∧ g.numEdges = if g.directed then size else size.tdiv 2

/-- What `for (NodeID &v : g.out_neigh(u))` visits: the offset
`&v - g_out_start` of each neighbour, and the neighbour. -/
def outRefs (g : CSRGraph Nat) (u : Nat) : List (Nat × Nat) :=
  let offset := g.outgoing.index.getD u 0 - g.outgoing.index.getD 0 0
  (g.outs u).mapIdx fun j v => ((offset + j).toNat, v)

-- ================================================================= PBFS

/-- Where a thread stands in a level. -/
inductive At
  /-- at the loop over the queue's window -/
  | next
  /-- at the loop over `out_neigh(u)` -/
  | edges (u : Nat) (refs : List (Nat × Nat))
  /-- before `compare_and_swap(depths[v], -1, depth)` -/
  | swap (u p v : Nat) (refs : List (Nat × Nat))
  /-- before `lqueue.push_back(v)` -/
  | push (u p v : Nat) (refs : List (Nat × Nat))
  /-- before `if (depths[v] == depth)` -/
  | count (u p v : Nat) (refs : List (Nat × Nat))
  | done
  deriving DecidableEq, Repr

structure Thread where
  todo : List Nat
  buffer : List Nat
  pc : At
  deriving DecidableEq, Repr

/-- `succ.set_bit_atomic(p)` and `path_counts[v] += path_counts[u]` -/
def Memory.countPaths (m : Memory) (u p v : Nat) : Option Memory := do
  let cv ← m.pathCounts[v]?
  let cu ← m.pathCounts[u]?
  if p < m.succ.length then
    some { m with succ := m.succ.set p true, pathCounts := m.pathCounts.set v (cv + cu) }
  else none

def next (g : CSRGraph Nat) : Thread → Memory → Option (Thread × Memory)
  | ⟨u :: todo, b, .next⟩, m => some (⟨todo, b, .edges u (outRefs g u)⟩, m)
  | ⟨[], b, .next⟩, m => (m.queue.flush g.numNodes b).map fun q =>
      (⟨[], [], .done⟩, { m with queue := q })
  | ⟨todo, b, .edges _ []⟩, m => some (⟨todo, b, .next⟩, m)
  | ⟨todo, b, .edges u ((p, v) :: refs)⟩, m => m.depths[v]?.map fun dv =>
      (⟨todo, b, if dv = -1 then .swap u p v refs else .count u p v refs⟩, m)
  | ⟨todo, b, .swap u p v refs⟩, m => m.depths[v]?.map fun dv =>
      if dv = -1 then (⟨todo, b, .push u p v refs⟩, { m with depths := m.depths.set v m.depth })
      else (⟨todo, b, .count u p v refs⟩, m)
  | ⟨todo, b, .push u p v refs⟩, m => (m.queue.bufferPush g.numNodes b v).map fun c =>
      (⟨todo, c.2.1, if c.1 then .count u p v refs else .push u p v refs⟩,
        { m with queue := c.2.2 })
  | ⟨todo, b, .count u p v refs⟩, m => do
      let dv ← m.depths[v]?
      if dv = m.depth then (m.countPaths u p v).map fun m => (⟨todo, b, .edges u refs⟩, m)
      else some (⟨todo, b, .edges u refs⟩, m)
  | ⟨_, _, .done⟩, _ => none

def threads (g : CSRGraph Nat) : Tasks Memory where
  State := Thread
  next := next g
  done l := l.pc = .done

/-- The loop over the window and the flush after it, up to the barrier. -/
def level (g : CSRGraph Nat) : Prog Memory :=
  .fork (threads g) fun m ts => ∃ shares : List (List Nat),
    shares.flatten.Perm m.queue.window ∧ ts = shares.map fun share => ⟨share, [], .next⟩

/-- `depth_index.push_back(queue.begin())` -/
def Memory.pushBegin (m : Memory) : Memory :=
  { m with depthIndex := m.depthIndex ++ [m.queue.outStart] }

/-- `depth_index.push_back(queue.begin()); queue.slide_window();` -/
def Memory.endLevel (m : Memory) : Memory :=
  { m.pushBegin with queue := m.queue.slideWindow }

/-- What stands before the levels. -/
def start (g : CSRGraph Nat) (source : Nat) : Prog Memory :=
  .act fun m m' => ∃ q, source < m.pathCounts.length ∧ source < g.numNodes ∧
    m.queue.pushBack g.numNodes source = some q ∧
    m' = ({ m with
      depths := (List.replicate g.numNodes (-1)).set source 0
      pathCounts := m.pathCounts.set source 1
      queue := q
      depth := 0 } : Memory).endLevel

/-- The loop `while (!queue.empty())` -/
def levels (g : CSRGraph Nat) : Prog Memory :=
  .loop (fun m => !m.queue.empty) <|
    .seq (assign fun m => { m with depth := m.depth + 1 }) <|
    .seq (level g) (assign Memory.endLevel)

/-- `PBFS` -/
def pbfs (g : CSRGraph Nat) (source : Nat) : Prog Memory :=
  .seq (start g source) <| .seq (levels g) (assign Memory.pushBegin)

-- ============================================================== Brandes

/-- Where an iteration of the way back stands. -/
inductive BackAt
  /-- at the loop over `out_neigh(u)`, with `delta_u` -/
  | sum (refs : List (Nat × Nat)) (delta : ℚ)
  | done
  deriving DecidableEq

/-- `(path_counts[u] / path_counts[v]) * (1 + deltas[v])`, if the edge's
bit is set -/
def Memory.term (m : Memory) (u p v : Nat) : Option ℚ := do
  let bit ← m.succ[p]?
  if bit then
    let cu ← m.pathCounts[u]?
    let cv ← m.pathCounts[v]?
    let dv ← m.deltas[v]?
    some (cu / cv * (1 + dv))
  else some 0

/-- `deltas[u] = delta_u; scores[u] += delta_u;` -/
def Memory.store (m : Memory) (u : Nat) (delta : ℚ) : Option Memory := do
  let score ← m.scores[u]?
  if u < m.deltas.length then
    some { m with deltas := m.deltas.set u delta, scores := m.scores.set u (score + delta) }
  else none

def backTasks : Tasks Memory where
  State := Nat × BackAt
  next
    | (u, .sum ((p, v) :: refs) delta), m =>
        (m.term u p v).map fun x => ((u, .sum refs (delta + x)), m)
    | (u, .sum [] delta), m => (m.store u delta).map fun m => ((u, .done), m)
    | (_, .done), _ => none
  done l := l.2 = .done

/-- From the iterator `depth_index[d]` up to `depth_index[d+1]`. -/
def Memory.atDepth (m : Memory) : List Nat :=
  m.queue.between (m.depthIndex.getD m.d.toNat 0) (m.depthIndex.getD (m.d.toNat + 1) 0)

/-- The loop over the levels, from the last to the first. -/
def back (g : CSRGraph Nat) : Prog Memory :=
  .seq (assign fun m => { m with
    deltas := List.replicate g.numNodes 0
    d := (m.depthIndex.length : Int) - 2 }) <|
  .loop (fun m => m.d ≥ 0) <|
    .seq (.forEach backTasks Memory.atDepth fun u => (u, .sum (outRefs g u) 0))
      (assign fun m => { m with d := m.d - 1 })

/-- What stands before `PBFS` in an iteration. -/
def reset (g : CSRGraph Nat) : Prog Memory :=
  assign fun m => { m with
    pathCounts := List.replicate g.numNodes 0
    depthIndex := []
    queue := .reset
    succ := List.replicate g.numEdgesDirected.toNat false }

/-- The body of the loop over the sources. -/
def iteration (g : CSRGraph Nat) (source : Nat) : Prog Memory :=
  .seq (reset g) <| .seq (pbfs g source) (back g)

/-- `Brandes` up to the normalisation, for the sources that the picker
gives. -/
def brandes (g : CSRGraph Nat) (sources : List Nat) : Prog Memory :=
  .seq (assign fun m => { m with scores := List.replicate g.numNodes 0 }) <|
  .seqs (sources.map (iteration g))

end ThesisBench.Gapbs.Brandes

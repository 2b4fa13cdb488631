/-
Direction-optimising breadth-first search: `DOBFS` of
`sources/gapbs/src/bfs.cc`, with the queue of `sliding_queue.h` and the
bitmap of `bitmap.h`.

The search goes level by level, top down from a queue or bottom up from
a bitmap. A value of `parent` below zero is an unvisited vertex. The
parallel loops are regions of tasks. In `TDStep` and `BitmapToQueue` the
tasks are the threads of the team, since each has a buffer of its own:
how the iterations are divided among them, and in which order a thread
takes its share, is left open. The tasks of the other loops are the
iterations. A read of `parent`, a compare-and-swap and a flush are steps
of their own. What a task alone reads and writes before the region joins
goes with the step before: the sums of the reductions, a vertex's own
parent and bit in `BUStep`. A flush reserves its slots in one atomic
addition, and nothing reads them before the join.

The array of the queue has room for `num_nodes` values. A flush that
does not fit does not happen, and blocks the search for ever, and so do a
division by zero and a negation that overflows.
-/
import ThesisBench.Gapbs.Graph
import ThesisBench.Gapbs.SlidingQueue
import ThesisBench.Lib.Distance
import ThesisBench.Lib.Parallel

namespace ThesisBench.Gapbs.Bfs

open Distance Parallel

-- ============================================================= the tree

def IsEdge (g : CSRGraph Nat) (u v : Nat) : Prop := u < g.numNodes ∧ v ∈ g.outs u

/-- What the search is for. -/
structure IsBfsTree (g : CSRGraph Nat) (source : Nat) (parent : List Int) : Prop where
  length : parent.length = g.numNodes
  root : parent[source]? = some (source : Int)
  unreachable : ∀ v < g.numNodes, (∀ k, ¬ Walk (IsEdge g) source k v) → parent[v]? = some (-1)
  reachable : ∀ v < g.numNodes, v ≠ source → (∃ k, Walk (IsEdge g) source k v) →
    ∃ u k : Nat, parent[v]? = some (u : Int) ∧ IsEdge g u v
      ∧ Dist (IsEdge g) source k u ∧ Dist (IsEdge g) source (k + 1) v

-- =============================================================== memory

/-- The variables of `DOBFS`. -/
structure Memory extends queue : SlidingQueue where
  parent : List Int
  front : List Bool
  curr : List Bool
  edgesToCheck : Int
  scoutCount : Int
  awakeCount : Int
  oldAwakeCount : Int
  deriving DecidableEq, Repr

/-- `queue.slide_window()` -/
def Memory.slideWindow (m : Memory) : Memory := { m with queue := m.queue.slideWindow }

-- =============================================================== parent

/-- `parent[v] = x` -/
def Memory.setParent (m : Memory) (v : Nat) (x : Int) : Option Memory :=
  if v < m.parent.length then some { m with parent := m.parent.set v x } else none

/-- Where a thread of `TDStep` stands. -/
inductive TDAt
  /-- at the loop over the queue's window -/
  | next
  /-- at the loop over `out_neigh(u)` -/
  | edges (u : Nat) (vs : List Nat)
  /-- before `compare_and_swap(parent[v], curr_val, u)` -/
  | swap (u v : Nat) (currVal : Int) (vs : List Nat)
  /-- before `lqueue.push_back(v)` -/
  | push (u v : Nat) (vs : List Nat)
  | done
  deriving DecidableEq, Repr

structure TDThread where
  id : Nat
  todo : List Nat
  buffer : List Nat
  pc : TDAt
  deriving DecidableEq, Repr

inductive BUAt
  /-- before the test `parent[u] < 0` -/
  | test
  /-- at the loop over `in_neigh(u)` -/
  | scan (vs : List Nat)
  | done
  deriving DecidableEq, Repr

/-- `QueueToBitmap` -/
def queueToBitmap : Prog Memory :=
  .forEach (once fun u m =>
    if u < m.front.length then some { m with front := m.front.set u true } else none)
    (fun m => m.window) fun u => (u, false)

/-- Where a thread of `BitmapToQueue` stands. -/
inductive BQAt
  | next
  /-- before `lqueue.push_back(n)` -/
  | push (n : Nat)
  | done
  deriving DecidableEq, Repr

structure BQThread where
  id : Nat
  todo : List Nat
  buffer : List Nat
  pc : BQAt
  deriving DecidableEq, Repr

/-- Assignments. -/
def assign (f : Memory → Memory) : Prog Memory := .act fun m m' => m' = f m

/-- What stands before the main loop, after `InitParent`. -/
def prepare (g : CSRGraph Nat) (source : Nat) : Prog Memory :=
  .act fun m m' => ∃ m₁ q, m.setParent source source = some m₁ ∧
    SlidingQueue.reset.pushBack g.numNodes source = some q ∧
    m' = { m₁ with
      queue := q.slideWindow
      front := List.replicate g.numNodes false
      curr := List.replicate g.numNodes false
      edgesToCheck := g.numEdgesDirected
      scoutCount := g.outDegree source }

end ThesisBench.Gapbs.Bfs

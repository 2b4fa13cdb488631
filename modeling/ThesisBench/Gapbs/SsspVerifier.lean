/-
The check of shortest distances: `SSSPVerifier` of
`sources/gapbs/src/sssp.cc`.

Dijkstra's algorithm, with a queue that keeps what is out of date: an
entry counts only if its distance is still that of its vertex. The
priority queue is the list of its elements in order, the top first; two
equal pairs cannot be told apart. A read or write outside an array, and
a search that goes on after `fuel` turns, are `none`.
-/
import ThesisBench.Gapbs.Sssp
import ThesisBench.Lib.While

namespace ThesisBench.Gapbs.Sssp

/-- `operator<` of `WN` -/
def before (a b : Int × Nat) : Bool :=
  decide (a.1 < b.1) || (decide (a.1 = b.1) && decide (a.2 < b.2))

/-- `mq.push(p)` -/
def push (p : Int × Nat) : List (Int × Nat) → List (Int × Nat)
  | [] => [p]
  | q :: mq => if before q p then q :: push p mq else p :: q :: mq

structure Dijkstra where
  oracleDist : List Int
  mq : List (Int × Nat)
  deriving DecidableEq, Repr

/-- A smaller distance for `v`, which is to be visited again. -/
def Dijkstra.lower (s : Dijkstra) (v : Nat) (d : Int) : Dijkstra where
  oracleDist := s.oracleDist.set v d
  mq := push (d, v) s.mq

/-- The body of the loop over `out_neigh(u)`. -/
def Dijkstra.relax (td : Int) (s : Dijkstra) (wn : NodeWeight) : Option Dijkstra :=
  s.oracleDist[wn.v]?.map fun d =>
    if int32 (td + wn.w.toInt) < d then s.lower wn.v (int32 (td + wn.w.toInt)) else s

/-- The body of the loop over the queue. -/
def Dijkstra.settle (g : CSRGraph NodeWeight) (s : Dijkstra) : Option Dijkstra :=
  match s.mq with
  | [] => none
  | (td, u) :: mq => do
      let d ← s.oracleDist[u]?
      if td = d then (← g.outNeigh u).foldlM (Dijkstra.relax td) { s with mq := mq }
      else some { s with mq := mq }

/-- What stands before the loop. -/
def Dijkstra.start (g : CSRGraph NodeWeight) (source : Nat) : Dijkstra where
  oracleDist := (List.replicate g.numNodes kDistInf).set source 0
  mq := [(0, source)]

/-- The body of the loop over the vertices. -/
def checkDist (distToTest oracleDist : List Int) (allOk : Bool) (n : Nat) : Option Bool := do
  let d ← distToTest[n]?
  let o ← oracleDist[n]?
  some (if d ≠ o then false else allOk)

/-- `SSSPVerifier` -/
def ssspVerifier (fuel : Nat) (g : CSRGraph NodeWeight) (source : Nat) (distToTest : List Int) :
    Option Bool :=
  if source < g.numNodes then do
    let s ← While.loop (fun s => !s.mq.isEmpty) (Dijkstra.settle g) fuel (.start g source)
    (List.range g.numNodes).foldlM (checkDist distToTest s.oracleDist) true
  else none

end ThesisBench.Gapbs.Sssp

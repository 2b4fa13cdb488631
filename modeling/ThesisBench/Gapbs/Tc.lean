/-
Triangle counting: `sources/gapbs/src/tc.cc`, with `RelabelByDegree` of
`sources/gapbs/src/builder.h`.

`OrderedCount` counts a triangle where its corners come in decreasing
order. The common neighbours of an edge are found by an iterator that is
never compared with the end of its neighbourhood; what is left of the
neighbourhood stands for it here, and a read past the end is `none`.
`Hybrid` counts in the graph or in a copy whose vertices are renamed, as
the heuristic `WorthRelabelling` says: `worth` is what it returns.

The iterations of the first two loops of `RelabelByDegree` are a step
each, since an iteration writes only to slots of its own. In the third
loop every store to `neighs` is a step, and so is the sort of a
neighbourhood; that the neighbourhoods are disjoint is not assumed. The
tasks of the counting loop are the threads, for any division of the
vertices among them. An access outside an array or to an element that
was never written, a read past the end of a neighbourhood, and the exit
of `RelabelByDegree` for a directed graph, block the program for ever.
-/
import ThesisBench.Gapbs.InPlace
import ThesisBench.Lib.Parallel

namespace ThesisBench.Gapbs.Tc

open Parallel Slots

-- ============================================================ the graph

/-- "Input graph requirements": every edge in both directions, and sorted
neighbourhoods that hold a vertex once and never their own. They can be
read. -/
structure Undirected (g : CSRGraph Nat) : Prop where
  outNeigh : ∀ u < g.numNodes, ∃ l, g.outNeigh u = some l ∧ ∀ v ∈ l, v < g.numNodes
  sorted : ∀ u < g.numNodes, (g.outs u).Pairwise (· < ·)
  loopless : ∀ u < g.numNodes, u ∉ g.outs u
  symm : ∀ u < g.numNodes, ∀ v ∈ g.outs u, u ∈ g.outs v

theorem Undirected.outs_lt {g : CSRGraph Nat} (hg : Undirected g) {u v : Nat}
    (hu : u < g.numNodes) (hv : v ∈ g.outs u) : v < g.numNodes := by
  obtain ⟨l, hl, hlt⟩ := hg.outNeigh u hu
  rw [CSRGraph.outs, hl, Option.getD_some] at hv
  exact hlt v hv

/-- The neighbourhood of a vertex can be read. -/
theorem Undirected.outNeigh_eq {g : CSRGraph Nat} (hg : Undirected g) {u : Nat}
    (hu : u < g.numNodes) : g.outNeigh u = some (g.outs u) := by
  obtain ⟨l, hl, -⟩ := hg.outNeigh u hu
  rw [CSRGraph.outs, hl, Option.getD_some]

-- =============================================================== memory

/-- The variables of `RelabelByDegree`, the graph that `OrderedCount` is
given, and its `total`. -/
structure Memory where
  g : CSRGraph Nat
  degreeIdPairs : List (Int × Nat)
  degrees : List (Option Int)
  newIds : List (Option Nat)
  offsets : List Int
  index : List Int
  neighs : List (Option Nat)
  total : Nat
  deriving DecidableEq, Repr

/-- Assignments, which may fault. -/
def assign (f : Memory → Option Memory) : Prog Memory := .act fun m m' => f m = some m'

/-- A parallel loop over the vertices. -/
def vertexFor (t : Tasks Memory) (start : Nat → t.State) : Prog Memory :=
  .forEach t (fun m => List.range m.g.numNodes) start

-- ====================================================== RelabelByDegree

/-- The body of the first loop. -/
def pairStep (n : Nat) (m : Memory) : Option Memory := do
  let degreeIdPairs ← write m.degreeIdPairs n (m.g.outDegree n, n)
  some { m with degreeIdPairs }

/-- `!std::greater<degree_node_p>()(b, a)` -/
def notAfter (a b : Int × Nat) : Bool :=
  decide (b.1 < a.1) || (decide (a.1 = b.1) && decide (b.2 ≤ a.2))

/-- The body of the second loop. -/
def idStep (n : Nat) (m : Memory) : Option Memory := do
  let p ← m.degreeIdPairs[n]?
  let degrees ← write m.degrees n (some (int32 p.1))
  let newIds ← write m.newIds p.2 (some n)
  some { m with degrees, newIds }

/-- The arrays of the new graph, before anything is stored in them. -/
def allocate (m : Memory) : Option Memory := do
  let degrees ← m.degrees.mapM id
  let offsets := parallelPrefixSum degrees
  let size ← offsets[m.g.numNodes]?
  some { m with
    offsets
    neighs := List.replicate size.toNat none
    index := genIndex offsets }

/-- Where an iteration of the third loop stands. -/
inductive At
  | next
  /-- at the loop over `out_neigh(u)` -/
  | copy (vs : List Nat)
  | done
  deriving DecidableEq, Repr

/-- `neighs[offsets[new_ids[u]]++] = new_ids[v]` -/
def Memory.store (m : Memory) (u v : Nat) : Option Memory := do
  let k ← fetch m.newIds u
  let offset ← m.offsets[k]?
  let x ← fetch m.newIds v
  let neighs ← write m.neighs offset (some x)
  some { m with neighs, offsets := m.offsets.set k (offset + 1) }

/-- `std::sort(index[new_ids[u]], index[new_ids[u]+1])` -/
def Memory.sort (m : Memory) (u : Nat) : Option Memory := do
  let k ← fetch m.newIds u
  let first ← m.index[k]?
  let last ← m.index[k + 1]?
  let neighs ← sortRange m.neighs first last
  some { m with neighs }

def relabelNext (u : Nat) : At → Memory → Option (At × Memory)
  | .next, m => (m.g.outNeigh u).map fun vs => (.copy vs, m)
  | .copy (v :: vs), m => (m.store u v).map fun m => (.copy vs, m)
  | .copy [], m => (m.sort u).map fun m => (.done, m)
  | .done, _ => none

def relabelTasks : Tasks Memory where
  State := Nat × At
  next l m := (relabelNext l.1 l.2 m).map fun c => ((l.1, c.1), c.2)
  done l := decide (l.2 = .done)

/-- `RelabelByDegree`, which leaves the new graph for the old one. -/
def relabelByDegree : Prog Memory := .seqs
  [ -- `if (g.directed()) std::exit(-11)`
    assign fun m => if m.g.directed then none else some m,
    assign fun m => some { m with degreeIdPairs := List.replicate m.g.numNodes (0, 0) },
    vertexFor (once pairStep) fun n => (n, false),
    assign fun m => some { m with degreeIdPairs := m.degreeIdPairs.mergeSort notAfter },
    assign fun m => some { m with
      degrees := List.replicate m.g.numNodes none
      newIds := List.replicate m.g.numNodes none },
    vertexFor (once idStep) fun n => (n, false),
    assign allocate,
    vertexFor relabelTasks fun u => (u, .next),
    assign fun m => (CSRGraph.undirected m.g.numNodes ⟨m.index, m.neighs⟩).map fun g =>
      { m with g } ]

-- ========================================================= OrderedCount

/-- `while (*it < w) it++` -/
def advance (w : Nat) : List Nat → Option (List Nat)
  | [] => none
  | x :: it => if x < w then advance w it else some (x :: it)

/-- The loop over `w`. -/
def countCommon (v : Nat) : List Nat → List Nat → Nat → Option Nat
  | [], _, total => some total
  | w :: ws, it, total =>
      if w > v then some total
      else do
        let it ← advance w it
        let x ← it.head?
        countCommon v ws it (if w = x then (total + 1) % 2 ^ 64 else total)

/-- The loop over `v`. -/
def countEdges (g : CSRGraph Nat) (u : Nat) : List Nat → Nat → Option Nat
  | [], total => some total
  | v :: vs, total =>
      if v > u then some total
      else do
        let it ← g.outNeigh v
        let ws ← g.outNeigh u
        let total ← countCommon v ws it total
        countEdges g u vs total

/-- A thread, with its own `total` and the vertices it still has to do. -/
structure Counter where
  todo : List Nat
  total : Nat
  added : Bool
  deriving DecidableEq, Repr

def countNext : Counter → Memory → Option (Counter × Memory)
  | ⟨u :: todo, total, false⟩, m => do
      let vs ← m.g.outNeigh u
      let total ← countEdges m.g u vs total
      some (⟨todo, total, false⟩, m)
  | ⟨[], total, false⟩, m =>
      some (⟨[], total, true⟩, { m with total := (m.total + total) % 2 ^ 64 })
  | ⟨_, _, true⟩, _ => none

/-- `std::set_intersection` -/
def setIntersection : List Nat → List Nat → List Nat
  | [], _ => []
  | _ :: _, [] => []
  | x :: xs, y :: ys =>
      if x < y then setIntersection xs (y :: ys)
      else if y < x then setIntersection (x :: xs) ys
      else x :: setIntersection xs ys
  termination_by xs ys => xs.length + ys.length

/-- The body of the loop over `v`. -/
def verifyEdge (g : CSRGraph Nat) (u : Nat) (total v : Nat) : Option Nat := do
  let us ← g.outNeigh u
  let vs ← g.outNeigh v
  some ((total + (setIntersection us vs).length) % 2 ^ 64)

/-- The body of the loop over `u`. -/
def verifyVertex (g : CSRGraph Nat) (total u : Nat) : Option Nat := do
  let vs ← g.outNeigh u
  vs.foldlM (verifyEdge g u) total

/-- `TCVerifier` -/
def tcVerifier (g : CSRGraph Nat) (testTotal : Nat) : Option Bool := do
  let total ← (List.range g.numNodes).foldlM (verifyVertex g) 0
  some (decide (total / 6 = testTotal))

end ThesisBench.Gapbs.Tc

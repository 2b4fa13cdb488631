/-
Single-source shortest paths by delta-stepping: `RelaxEdges` and
`DeltaStep` of `sources/gapbs/src/sssp.cc`.

The threads of the team go through the same loop, with two barriers in
each turn. What stands between two barriers is a region here, whose tasks
are the threads, and the loop is around the regions: its condition reads
a variable that no thread writes between the last barrier and the test.
What a thread keeps from a region to the next, its bins, is with the
memory. The two halves of `shared_indexes` and of `frontier_tails` are
the current and the next one, which change places when `iter` grows.

A read of `dist`, a compare-and-swap and the update of the next bin are
steps of their own; how the frontier is divided among the threads, and in
which order a thread takes its share, is left open. A thread that copies
a bin reserves its part of `frontier` by one atomic addition, and nobody
reads the part before the barrier, so the copy goes with the addition.
The `single` block is a task beside the copies.

`frontier` has room for `num_edges_directed` values. It is given here by
what stands at each distance from its start, and `overrun` says that the
program has left it; what the program does from then on is undefined, and
the model says what it would do if the room were larger. The bins can
grow without bound.
-/
import ThesisBench.Gapbs.Graph
import ThesisBench.Lib.Parallel
import ThesisBench.Lib.Relax

namespace ThesisBench.Gapbs.Sssp

open Parallel Relax

-- ============================================================ the graph

/-- `kDistInf` -/
def kDistInf : Int := (2 ^ 31 - 1) / 2

/-- `kMaxBin` -/
def kMaxBin : Nat := (2 ^ 64 - 1) / 2

/-- `kBinSizeThreshold` -/
def kBinSizeThreshold : Nat := 1000

/-- An edge of weight `w`. -/
def Arc (g : CSRGraph NodeWeight) (u : Nat) (w : Int) (v : Nat) : Prop :=
  u < g.numNodes ∧ ∃ wn ∈ g.outs u, wn.v = v ∧ wn.w.toInt = w

/-- Neighbourhoods that can be read and hold vertices, and weights that
are not negative and add up with a distance to a `WeightT`. -/
structure Weighted (g : CSRGraph NodeWeight) : Prop where
  outNeigh : ∀ u < g.numNodes, ∃ l, g.outNeigh u = some l ∧ ∀ wn ∈ l, wn.v < g.numNodes
  weight : ∀ u < g.numNodes, ∀ wn ∈ g.outs u, 0 ≤ wn.w.toInt ∧ wn.w.toInt ≤ 2 ^ 30

theorem Weighted.lt {g : CSRGraph NodeWeight} (h : Weighted g) {u : Nat} {wn : NodeWeight}
    (hu : u < g.numNodes) (hwn : wn ∈ g.outs u) : wn.v < g.numNodes := by
  obtain ⟨l, hl, hlt⟩ := h.outNeigh u hu
  rw [CSRGraph.outs, hl, Option.getD_some] at hwn
  exact hlt wn hwn

-- =============================================================== memory

/-- The variables of `DeltaStep`; `localBins` are the `local_bins` of the
threads. -/
structure Memory where
  dist : List Int
  frontier : Nat → Option Nat
  currBinIndex : Nat
  nextBinIndex : Nat
  currFrontierTail : Nat
  nextFrontierTail : Nat
  localBins : List (List (List Nat))
  overrun : Bool

/-- The `local_bins` of a thread. -/
def Memory.binsOf (m : Memory) (t : Nat) : List (List Nat) := m.localBins.getD t []

/-- `resize` if need be, and `push_back` -/
def pushBin (bins : List (List Nat)) (destBin v : Nat) : List (List Nat) :=
  let bins := bins ++ List.replicate (destBin + 1 - bins.length) []
  bins.set destBin (bins.getD destBin [] ++ [v])

/-- The bin of a distance: `new_dist / delta` as a `size_t` -/
def destBin (delta newDist : Int) : Nat := (newDist.tdiv delta).toNat

/-- `delta * static_cast<WeightT>(curr_bin_index)` -/
def lowest (delta : Int) (currBinIndex : Nat) : Int := int32 (delta * int32 currBinIndex)

-- =========================================================== RelaxEdges

/-- Where a thread stands. -/
inductive At
  /-- between two calls of `RelaxEdges` -/
  | next
  /-- at the loop over `out_neigh(u)` -/
  | edges (u : Nat) (wns : List NodeWeight)
  /-- before `dist[u] + wn.w` -/
  | add (u : Nat) (wn : NodeWeight) (oldDist : Int) (wns : List NodeWeight)
  /-- before `compare_and_swap(dist[wn.v], old_dist, new_dist)` -/
  | swap (u : Nat) (wn : NodeWeight) (oldDist newDist : Int) (wns : List NodeWeight)
  /-- before `old_dist = dist[wn.v]` -/
  | reload (u : Nat) (wn : NodeWeight) (newDist : Int) (wns : List NodeWeight)
  | done
  deriving DecidableEq, Repr

/-- A thread, with the iterations of the loop over the frontier that it
still has to do and the rest of `curr_bin_copy`. -/
structure Thread where
  id : Nat
  todo : List Nat
  binCopy : List Nat
  pc : At
  deriving DecidableEq, Repr

/-- At the condition `new_dist < old_dist`. -/
def testDist (u : Nat) (wn : NodeWeight) (oldDist newDist : Int) (wns : List NodeWeight) : At :=
  if newDist < oldDist then .swap u wn oldDist newDist wns else .edges u wns

/-- The successful swap, and what is done with the vertex. -/
def Memory.lower (m : Memory) (delta : Int) (t v : Nat) (newDist : Int) : Memory :=
  { m with
    dist := m.dist.set v newDist
    localBins := m.localBins.set t (pushBin (m.binsOf t) (destBin delta newDist) v) }

/-- The steps of `RelaxEdges(u)`. -/
def relaxEdges (delta : Int) (t : Nat) : At → Memory → Option (At × Memory)
  | .edges _ [], m => some (.next, m)
  | .edges u (wn :: wns), m => m.dist[wn.v]?.map fun oldDist => (.add u wn oldDist wns, m)
  | .add u wn oldDist wns, m => m.dist[u]?.map fun du =>
      (testDist u wn oldDist (int32 (du + wn.w.toInt)) wns, m)
  | .swap u wn oldDist newDist wns, m => m.dist[wn.v]?.map fun dv =>
      if dv = oldDist then (.edges u wns, m.lower delta t wn.v newDist)
      else (.reload u wn newDist wns, m)
  | .reload u wn newDist wns, m => m.dist[wn.v]?.map fun oldDist =>
      (testDist u wn oldDist newDist wns, m)
  | .next, _ => none
  | .done, _ => none

-- ====================================================== the first region

/-- `resize(0)` on a bin of a thread. -/
def Memory.clearBin (m : Memory) (t b : Nat) : Memory :=
  { m with localBins := m.localBins.set t ((m.binsOf t).set b []) }

/-- The last loop before the barrier: the thread's vote. -/
def Memory.vote (m : Memory) (t : Nat) : Memory :=
  match (List.range' m.currBinIndex ((m.binsOf t).length - m.currBinIndex)).find?
      fun i => !((m.binsOf t).getD i []).isEmpty with
  | some i => { m with nextBinIndex := min m.nextBinIndex i }
  | none => m

/-- The condition of the loop that goes on with the thread's own bin. -/
def Memory.fuses (m : Memory) (t : Nat) : Bool :=
  let bin := (m.binsOf t).getD m.currBinIndex []
  decide (m.currBinIndex < (m.binsOf t).length) && !bin.isEmpty
    && decide (bin.length < kBinSizeThreshold)

/-- What a thread does between two calls of `RelaxEdges`. -/
def pick (g : CSRGraph NodeWeight) (delta : Int) (id : Nat) :
    List Nat → List Nat → Memory → Option (Thread × Memory)
  | i :: todo, copy, m => do
      let u ← m.frontier i
      let du ← m.dist[u]?
      some (⟨id, todo, copy,
        if du ≥ lowest delta m.currBinIndex then .edges u (g.outs u) else .next⟩, m)
  | [], u :: copy, m => some (⟨id, [], copy, .edges u (g.outs u)⟩, m)
  | [], [], m =>
      if m.fuses id then
        some (⟨id, [], (m.binsOf id).getD m.currBinIndex [], .next⟩,
          m.clearBin id m.currBinIndex)
      else some (⟨id, [], [], .done⟩, m.vote id)

def relaxNext (g : CSRGraph NodeWeight) (delta : Int) (l : Thread) (m : Memory) :
    Option (Thread × Memory) :=
  match l.pc with
  | .next => pick g delta l.id l.todo l.binCopy m
  | pc => (relaxEdges delta l.id pc m).map fun c => ({ l with pc := c.1 }, c.2)

def relaxThreads (g : CSRGraph NodeWeight) (delta : Int) : Tasks Memory where
  State := Thread
  next := relaxNext g delta
  done l := l.pc = .done

/-- From the start of a turn to the first barrier, for any division of the
frontier among the threads. -/
def relaxRegion (g : CSRGraph NodeWeight) (delta : Int) : Prog Memory :=
  .fork (relaxThreads g delta) fun m ts => ∃ shares : List (List Nat),
    shares.length = m.localBins.length ∧ shares.flatten.Perm (List.range m.currFrontierTail)
      ∧ ts = shares.mapIdx fun id share => ⟨id, share, [], .next⟩

-- ===================================================== the second region

/-- What stands at each distance from the start of an array after a copy. -/
def copyTo (frontier : Nat → Option Nat) (start : Nat) (bin : List Nat) : Nat → Option Nat :=
  fun i => if start ≤ i ∧ i < start + bin.length then bin[i - start]? else frontier i

/-- What the tasks between the barriers do: `none` is the `single` block,
`some t` the copy of thread `t`. -/
def gather (capacity : Int) : Option Nat → Memory → Option Memory
  | none, m => some { m with currBinIndex := kMaxBin, currFrontierTail := 0 }
  | some t, m =>
      if m.nextBinIndex < (m.binsOf t).length then
        let bin := (m.binsOf t).getD m.nextBinIndex []
        some { m with
          frontier := copyTo m.frontier m.nextFrontierTail bin
          nextFrontierTail := m.nextFrontierTail + bin.length
          overrun := m.overrun || decide ((m.nextFrontierTail + bin.length : Nat) > capacity)
          localBins := m.localBins.set t ((m.binsOf t).set m.nextBinIndex []) }
      else some m

def gatherRegion (g : CSRGraph NodeWeight) : Prog Memory :=
  .forEach (once (gather g.numEdgesDirected))
    (fun m => none :: (List.range m.localBins.length).map some) fun a => (a, false)

-- ============================================================ DeltaStep

/-- `iter++` -/
def Memory.swapHalves (m : Memory) : Memory :=
  { m with
    currBinIndex := m.nextBinIndex
    nextBinIndex := m.currBinIndex
    currFrontierTail := m.nextFrontierTail
    nextFrontierTail := m.currFrontierTail }

/-- A turn of the loop. -/
def turn (g : CSRGraph NodeWeight) (delta : Int) : Prog Memory :=
  .seq (relaxRegion g delta) <|
  .seq (gatherRegion g) <|
  .act fun m m' => m' = m.swapHalves

/-- The memory before the loop, with a team of `numThreads`. -/
def start (g : CSRGraph NodeWeight) (source numThreads : Nat) : Memory where
  dist := (List.replicate g.numNodes kDistInf).set source 0
  frontier i := if i = 0 then some source else none
  currBinIndex := 0
  nextBinIndex := kMaxBin
  currFrontierTail := 1
  nextFrontierTail := 0
  localBins := List.replicate numThreads []
  overrun := decide (1 > g.numEdgesDirected)

/-- `DeltaStep`, from `start` on. -/
def deltaStep (g : CSRGraph NodeWeight) (delta : Int) : Prog Memory :=
  .loop (fun m => m.currBinIndex != kMaxBin) (turn g delta)

end ThesisBench.Gapbs.Sssp

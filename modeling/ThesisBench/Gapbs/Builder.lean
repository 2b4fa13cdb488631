/-
How the GAP benchmarks build a graph from a list of edges:
`BuilderBase` of `sources/gapbs/src/builder.h`, with incoming edges
(`invert`). The edges of a weighted graph have their weights already
(`InsertWeights`).

The plain path counts the degrees, turns them into offsets, lets the
edges take slots of the neighbour array by `fetch_and_add`, and then
squishes the graph: every neighbourhood is sorted and loses repetitions
and the vertex itself, and the rest is copied to arrays of its own. The
loops over the edges are parallel. The order of their atomic additions
is free, and so is the order of their writes; both appear as
permutations. The regions of the neighbour array that `SquishCSR`
sorts in place are disjoint, so they are read from the array as it was.
-/
import ThesisBench.Gapbs.Graph

namespace ThesisBench.Gapbs

open Slots

variable {δ : Type} [DestID δ]

/-- The fields of the builder that the construction reads. -/
structure Builder where
  symmetrize : Bool
  inPlace : Bool
  deriving DecidableEq, Repr

/-- `FindMaxNodeID` -/
def findMaxNodeID (el : List (Edge δ)) : Nat :=
  el.foldl (fun maxSeen e => max (max maxSeen e.u) (DestID.node e.v)) 0

-- ============================================================== degrees

/-- The vertices whose degree `CountDegrees` adds one to, edge by edge. -/
def increments (b : Builder) (transpose : Bool) (el : List (Edge δ)) : List Nat :=
  el.flatMap fun e =>
    (if b.symmetrize || (!b.symmetrize && !transpose) then [e.u] else [])
      ++ if (b.symmetrize && !b.inPlace) || (!b.symmetrize && transpose)
        then [DestID.node e.v] else []

/-- `fetch_and_add(degrees[u], 1)`, on a `NodeID` -/
def addDegree (degrees : List Int) (u : Nat) : Option (List Int) :=
  degrees[u]?.map fun d => degrees.set u (int32 (d + 1))

/-- `CountDegrees`, the additions in some order. -/
def CountDegrees (b : Builder) (numNodes : Nat) (el : List (Edge δ)) (transpose : Bool)
    (degrees : Option (List Int)) : Prop :=
  ∃ s : List Nat, s.Perm (increments b transpose el)
    ∧ degrees = s.foldlM addDegree (List.replicate numNodes 0)

-- ========================================================== prefix sums

/-- `num_blocks` -/
def numBlocks (blockSize : Nat) (degrees : List Int) : Nat :=
  (degrees.length + blockSize - 1) / blockSize

/-- The degrees from `block * block_size` up to `block_end`. -/
def blockOf (blockSize : Nat) (degrees : List Int) (block : Nat) : List Int :=
  (degrees.take (min ((block + 1) * blockSize) degrees.length)).drop (block * blockSize)

/-- Each element replaced by the total before it, which starts at
`total`. -/
def runningTotals : Int → List Int → List Int
  | _, [] => []
  | total, d :: ds => total :: runningTotals (total + d) ds

/-- `local_sums` -/
def localSums (blockSize : Nat) (degrees : List Int) : List Int :=
  (List.range (numBlocks blockSize degrees)).map fun block =>
    (blockOf blockSize degrees block).sum

/-- `bulk_prefix` -/
def bulkPrefix (blockSize : Nat) (degrees : List Int) : List Int :=
  runningTotals 0 (localSums blockSize degrees) ++ [(localSums blockSize degrees).sum]

/-- `ParallelPrefixSum`, for any `block_size` -/
def prefixSumBy (blockSize : Nat) (degrees : List Int) : List Int :=
  (List.range (numBlocks blockSize degrees)).flatMap (fun block =>
      runningTotals ((bulkPrefix blockSize degrees).getD block 0)
        (blockOf blockSize degrees block))
    ++ [(bulkPrefix blockSize degrees).getD (numBlocks blockSize degrees) 0]

/-- `ParallelPrefixSum` -/
@[irreducible] def parallelPrefixSum (degrees : List Int) : List Int :=
  prefixSumBy (2 ^ 20) degrees

-- ============================================================== MakeCSR

/-- The values that `MakeCSR` places, each with the vertex whose offset
it takes its slot from, edge by edge. -/
def placements (b : Builder) (transpose : Bool) (el : List (Edge δ)) : List (Nat × δ) :=
  el.flatMap fun e =>
    (if b.symmetrize || (!b.symmetrize && !transpose) then [(e.u, e.v)] else [])
      ++ if b.symmetrize || (!b.symmetrize && transpose)
        then [(DestID.node e.v, DestID.getSource e.u e.v)] else []

/-- `MakeCSR`: `s` is the order of the atomic additions, `w` that of the
writes. -/
def MakeCSR (b : Builder) (numNodes : Nat) (el : List (Edge δ)) (transpose : Bool)
    (out : Option (Csr δ)) : Prop :=
  ∃ degrees, CountDegrees b numNodes el transpose degrees ∧
    match degrees with
    | none => out = none
    | some degrees =>
        let offsets := parallelPrefixSum degrees
        ∃ s w, s.Perm (placements b transpose el) ∧
          match placeAll offsets s with
          | none => out = none
          | some placed => w.Perm placed ∧
              out = (storeAll (List.replicate (offsets.getD numNodes 0).toNat none) w).map
                fun neighs => ⟨genIndex offsets, neighs⟩

/-- The arrays that `MakeGraphFromEL` builds, on the path that is not in
place. -/
def MakeGraphFromEL (b : Builder) (el : List (Edge δ)) (out : Option (CSRGraph δ)) :
    Prop :=
  let numNodes := findMaxNodeID el + 1
  ∃ csr, MakeCSR b numNodes el false csr ∧
    if b.symmetrize then out = csr.bind (CSRGraph.undirected numNodes)
    else ∃ inv, MakeCSR b numNodes el true inv ∧
      out = csr.bind fun csr => inv.bind fun inv => CSRGraph.ofDirected numNodes csr inv

-- =============================================================== squish

/-- The loop of `std::unique` by `operator==`, which compares the nodes;
`x` is the last element that stayed. -/
def uniqueFrom (x : δ) : List δ → List δ
  | [] => [x]
  | y :: l =>
      if DestID.node x = DestID.node y then uniqueFrom x l else x :: uniqueFrom y l

/-- `std::unique`: of equal elements in a row the first stays. -/
def unique : List δ → List δ
  | [] => []
  | x :: l => uniqueFrom x l

/-- What `SquishCSR` leaves of a neighbourhood: sorted, once each, and
without the vertex. -/
def squish (n : Nat) (neighs : List δ) : List δ :=
  (unique (neighs.mergeSort DestID.le)).filter (DestID.node · ≠ n)

/-- `SquishCSR`; the copies to the new array come in some order. -/
def SquishCSR (numNodes : Nat) (g : Csr δ) (out : Option (Csr δ)) : Prop :=
  match (List.range numNodes).mapM fun n => (g.neigh n).map (squish n) with
  | none => out = none
  | some squished =>
      let diffs := squished.map fun l => int32 l.length
      let sqOffsets := parallelPrefixSum diffs
      ∃ w : List (Int × δ),
        w.Perm ((List.range numNodes).flatMap fun n =>
            enumFrom (sqOffsets.getD n 0) ((squished.getD n []).take (diffs.getD n 0).toNat))
          ∧ out = (storeAll (List.replicate (sqOffsets.getD numNodes 0).toNat none) w).map
              fun neighs => ⟨genIndex sqOffsets, neighs⟩

/-- `SquishGraph` -/
def SquishGraph (g : CSRGraph δ) (out : Option (CSRGraph δ)) : Prop :=
  ∃ outgoing, SquishCSR g.numNodes g.outgoing outgoing ∧
    if g.directed then ∃ incoming, SquishCSR g.numNodes g.incoming incoming ∧
      out = outgoing.bind fun outgoing => incoming.bind fun incoming =>
        CSRGraph.ofDirected g.numNodes outgoing incoming
    else out = outgoing.bind (CSRGraph.undirected g.numNodes)

/-- `MakeGraph` from a list of edges, on the path that is not in place. -/
def MakeGraph (b : Builder) (el : List (Edge δ)) (out : Option (CSRGraph δ)) : Prop :=
  ∃ g, MakeGraphFromEL b el g ∧
    match g with
    | none => out = none
    | some g => SquishGraph g out

end ThesisBench.Gapbs

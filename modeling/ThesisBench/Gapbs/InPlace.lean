/-
The graph that the GAP benchmarks build in place (option `-m`):
`MakeCSRInPlace` of `sources/gapbs/src/builder.h`, for unweighted graphs
and with incoming edges.

The list of edges is sorted and squished, and then its memory is reused:
an edge is two words, and the loop over the edges overwrites the words
from the front with the neighbours. For a symmetric graph the lists
are then moved apart, from the back on, and the inverse edges that are
missing are put into the free slots before them; which ones are missing
is asked of a binary search, over a range of which the front part is in
descending order.

The memory is allocated by `new` and reallocated by `std::realloc`,
which is `malloc`'s in the GNU C library: of size zero, it frees the
block and returns a null pointer, unless it was given one. That there
is enough memory is taken for granted.
-/
import ThesisBench.Gapbs.Builder
import ThesisBench.Lib.Search
import Mathlib.Data.List.Destutter

namespace ThesisBench.Gapbs

open Slots Search

-- ============================================================ the edges

/-- A `pvector`: its elements, and whether `start_` points to storage. -/
structure PVector (α : Type) where
  elems : List α
  allocated : Bool
  allocated_of_ne_nil : elems ≠ [] → allocated = true

/-- `!(b < a)` for `operator<` of `EdgePair` -/
def Edge.le (a b : Edge Nat) : Bool :=
  if a.u = b.u then decide (a.v ≤ b.v) else decide (a.u < b.u)

/-- What stays of the list: sorted, once each, without self-loops. -/
def squishEdges (el : List (Edge Nat)) : List (Edge Nat) :=
  ((el.mergeSort Edge.le).destutter (· ≠ ·)).filter fun e => e.u ≠ e.v

/-- The memory of the list, as the words that `neighs` points to. -/
def words (el : List (Edge Nat)) : List (Option Nat) :=
  el.flatMap fun e => [some e.u, some e.v]

/-- One round of the loop that overwrites the edges: the `i`-th is read
from the memory that the rounds before it wrote to. -/
def overwriteStep (st : List (Option Nat) × List Int) (i : Nat) :
    Option (List (Option Nat) × List Int) := do
  let u ← fetch st.1 (2 * i)
  let v ← fetch st.1 (2 * i + 1)
  place st (u, v)

def overwrite (neighs : List (Option Nat)) (offsets : List Int) (numEdges : Nat) :
    Option (List (Option Nat) × List Int) :=
  (List.range numEdges).foldlM overwriteStep (neighs, offsets)

/-- The offsets shifted down, from the last on. -/
def revertOffsets (numNodes : Nat) (offsets : List Int) : List Int :=
  (List.range (numNodes + 1)).reverse.foldl (fun offsets n =>
    offsets.set n (if n ≠ 0 then offsets.getD (n - 1) 0 else 0)) offsets

/-- The block that `std::realloc` returns; what was not in the old one
was not written. -/
def realloc (neighs : List (Option Nat)) (size : Nat) : List (Option Nat) :=
  neighs.take size ++ List.replicate (size - neighs.length) none

-- ======================================================= incoming edges

/-- The loop that fills `inv_neighs`; the outgoing neighbours are only
read. -/
def fillInverse (numNodes : Nat) (g : Csr Nat) (inoffsets : List Int) : Option (Csr Nat) := do
  let st ← (List.range numNodes).foldlM (fun st u => do
      let neighs ← g.neigh u
      neighs.foldlM (fun st v => place st (v, u)) st)
    (List.replicate (inoffsets.getD numNodes 0).toNat none, inoffsets)
  pure ⟨genIndex inoffsets, st.1⟩

-- ======================================================= inverse edges

/-- Step 1, `invs_needed`: how many inverses each vertex lacks. -/
def countInverses (numNodes : Nat) (g : Csr Nat) : Option (List Int) :=
  (List.range numNodes).foldlM (fun needed u => do
      let neighs ← g.neigh u
      neighs.foldlM (fun needed v => do
        let range ← g.neigh v
        if binarySearch range u then pure needed else addDegree needed v) needed)
    (List.replicate numNodes 0)

/-- The offsets with room for the inverses, and `total_missing_inv`. -/
def increaseOffsets (numNodes : Nat) (offsets needed : List Int) : List Int × Int :=
  let st := (List.range numNodes).foldl (fun (st : List Int × Int) n =>
    (st.1.set n (st.1.getD n 0 + st.2), st.2 + needed.getD n 0)) (offsets, 0)
  (st.1.set numNodes (st.1.getD numNodes 0 + st.2), st.2)

/-- The inner loop of step 2, from `i` down: it returns the memory and
`tail_index`. -/
def moveBack (total : Int) : Nat → Int → Int → List (Option Nat) →
    Option (List (Option Nat) × Int)
  | 0, _, tail, neighs => some (neighs, tail)
  | count + 1, i, tail, neighs => do
      let x ← fetch neighs (i - total)
      let neighs ← write neighs tail (some x)
      moveBack total count (i - 1) (tail - 1) neighs

/-- The variables of step 2. -/
structure Spreading where
  neighs : List (Option Nat)
  total : Int
  tail : Int

def spreadStep (offsets needed : List Int) (st : Spreading) (n : Nat) : Option Spreading := do
  let newStart := offsets.getD n 0 + needed.getD n 0
  let last := offsets.getD (n + 1) 0
  let (neighs, tail) ← moveBack st.total (last - newStart).toNat (last - 1) st.tail st.neighs
  pure ⟨neighs, st.total - needed.getD n 0, tail - needed.getD n 0⟩

/-- Step 2: the neighbours move back and leave free slots before them. -/
def spread (numNodes : Nat) (offsets needed : List Int) (total : Int)
    (neighs : List (Option Nat)) : Option (List (Option Nat)) :=
  ((List.range numNodes).reverse.foldlM (spreadStep offsets needed)
    ⟨neighs, total, offsets.getD numNodes 0 - 1⟩).map Spreading.neighs

/-- One round of step 3: the memory and `invs_needed`. -/
def addInverse (offsets : List Int) (u : Nat) (i : Int)
    (st : List (Option Nat) × List Int) : Option (List (Option Nat) × List Int) := do
  let v ← fetch st.1 i
  let free ← st.2[v]?
  let first ← offsets[v]?
  let last ← offsets[v + 1]?
  let range ← slice st.1 (first + free) last
  let range ← range.mapM id
  if binarySearch range u then pure st
  else
    let neighs ← write st.1 (first + free - 1) (some u)
    pure (neighs, st.2.set v (int32 (free - 1)))

def addInversesFrom (offsets : List Int) (u : Nat) : Nat → Int →
    List (Option Nat) × List Int → Option (List (Option Nat) × List Int)
  | 0, _, st => some st
  | count + 1, i, st => do
      let st ← addInverse offsets u i st
      addInversesFrom offsets u count (i + 1) st

/-- Step 3: the missing inverses go into the free slots. -/
def addInverses (numNodes : Nat) (offsets needed : List Int) (neighs : List (Option Nat)) :
    Option (List (Option Nat) × List Int) :=
  (List.range numNodes).foldlM (fun st u =>
      let first := offsets.getD u 0 + st.2.getD u 0
      addInversesFrom offsets u (offsets.getD (u + 1) 0 - first).toNat first st)
    (neighs, needed)

/-- `std::sort` of one neighbourhood -/
def sortRange (neighs : List (Option Nat)) (first last : Int) :
    Option (List (Option Nat)) := do
  let range ← slice neighs first last
  let range ← range.mapM id
  pure (neighs.take first.toNat ++ (range.mergeSort DestID.le).map some
    ++ neighs.drop last.toNat)

def sortRanges (numNodes : Nat) (offsets : List Int) (neighs : List (Option Nat)) :
    Option (List (Option Nat)) :=
  (List.range numNodes).foldlM (fun neighs n =>
    sortRange neighs (offsets.getD n 0) (offsets.getD (n + 1) 0)) neighs

/-- The branch that symmetrizes. A null pointer of `std::realloc` ends
the program with `exit(-33)`. -/
def symmetrizeInPlace (numNodes : Nat) (allocated : Bool) (neighs : List (Option Nat))
    (offsets : List Int) : Option (Except Int (Csr Nat)) := do
  let needed ← countInverses numNodes ⟨offsets, neighs⟩
  let (offsets, total) := increaseOffsets numNodes offsets needed
  let size := (offsets.getD numNodes 0).toNat
  if allocated = true ∧ size = 0 then pure (.error (-33))
  else
    let neighs ← spread numNodes offsets needed total (realloc neighs size)
    let (neighs, _) ← addInverses numNodes offsets needed neighs
    let neighs ← sortRanges numNodes offsets neighs
    pure (.ok ⟨genIndex offsets, neighs⟩)

-- ============================================================ the graph

/-- `MakeCSRInPlace` from the degrees on, and the constructor of the
graph. -/
def makeCSRInPlace (symmetrize : Bool) (numNodes : Nat) (allocated : Bool)
    (es : List (Edge Nat)) (degrees indegrees : List Int) :
    Option (Except Int (CSRGraph Nat)) := do
  let (neighs, offsets) ← overwrite (words es) (parallelPrefixSum degrees) es.length
  let offsets := revertOffsets numNodes offsets
  if symmetrize then
    match ← symmetrizeInPlace numNodes allocated neighs offsets with
    | .error code => pure (.error code)
    | .ok csr => (CSRGraph.undirected numNodes csr).map .ok
  else
    let outgoing : Csr Nat := ⟨genIndex offsets, realloc neighs es.length⟩
    let incoming ← fillInverse numNodes outgoing (parallelPrefixSum indegrees)
    (CSRGraph.ofDirected numNodes outgoing incoming).map .ok

/-- `MakeGraph` in place: a graph, or the code the program exits with. -/
def MakeGraphInPlace (symmetrize : Bool) (el : PVector (Edge Nat))
    (out : Option (Except Int (CSRGraph Nat))) : Prop :=
  let numNodes := findMaxNodeID el.elems + 1
  let es := squishEdges el.elems
  ∃ degrees indegrees, CountDegrees ⟨symmetrize, true⟩ numNodes es false degrees
    ∧ CountDegrees ⟨symmetrize, true⟩ numNodes es true indegrees
    ∧ out = degrees.bind fun degrees => indegrees.bind fun indegrees =>
        makeCSRInPlace symmetrize numNodes el.allocated es degrees indegrees

end ThesisBench.Gapbs

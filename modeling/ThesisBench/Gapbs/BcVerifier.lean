/-
The normalisation of the centralities and their check: the end of
`Brandes` and `BCVerifier` of `sources/gapbs/src/bc.cc`, in exact
arithmetic.

The verifier runs the algorithm serially. It finds the vertices in a
vector that grows while it is traversed, as the check of a breadth-first
search does, and counts paths on the way; then it sorts the vertices into
a list for each depth and goes back from the last list to the first,
where the edges to the next level are those whose depths say so.

The scores are divided by the largest one. Nothing but zero is ever
divided by zero there, which is not a number and differs from nothing:
`none`. A use outside an array, the largest of no scores, and a traversal
that goes on after `fuel` iterations are `none` too, of the whole.
-/
import ThesisBench.Gapbs.BfsVerifier
import ThesisBench.Gapbs.Brandes
import Mathlib.Algebra.Order.Ring.Rat

namespace ThesisBench.Gapbs.BcVerifier

open Slots Parallel

-- ======================================================== normalisation

/-- A score, or not a number. -/
abbrev Score := Option ℚ

/-- The end of `Brandes`. -/
structure Norm where
  scores : List Score
  biggestScore : ℚ
  deriving DecidableEq

def quotient (x biggestScore : ℚ) : Score :=
  if biggestScore = 0 then none else some (x / biggestScore)

/-- `scores[n] = scores[n] / biggest_score` -/
def normStep (n : Nat) (m : Norm) : Option Norm := do
  let score ← fetch m.scores n
  let scores ← write m.scores n (quotient score m.biggestScore)
  pure { m with scores := scores }

/-- The end of `Brandes`, from the largest score on. -/
def normalize (g : CSRGraph Nat) : Prog Norm :=
  .seq (.act fun m m' => m' = { m with biggestScore := (m.scores.filterMap id).foldl max 0 }) <|
  .parallelFor (once normStep) g.numNodes fun n => (n, false)

-- =========================================================== the search

structure Search where
  visit : Bfs.Visit
  pathCounts : List ℚ
  deriving DecidableEq

/-- The body of the loop over `out_neigh(u)`. -/
def Search.edge (room u : Nat) (s : Search) (v : Nat) : Option Search := do
  let visit ← Bfs.visitEdge room u s.visit v
  let dv ← visit.depth[v]?
  let du ← visit.depth[u]?
  if dv = du + 1 then
    let cv ← s.pathCounts[v]?
    let cu ← s.pathCounts[u]?
    some ⟨visit, s.pathCounts.set v (cv + cu)⟩
  else some ⟨visit, s.pathCounts⟩

/-- The traversal of `to_visit` from position `it` on. -/
def searchFrom (g : CSRGraph Nat) : Nat → Nat → Search → Option Search
  | 0, _, _ => none
  | fuel + 1, it, s =>
      match s.visit.toVisit[it]? with
      | none => some s
      | some u => do
          let vs ← g.outNeigh u
          let s ← vs.foldlM (Search.edge g.numNodes u) s
          searchFrom g fuel (it + 1) s

/-- What stands before the traversal. -/
def searchStart (g : CSRGraph Nat) (source : Nat) : Option Search := do
  let visit ← Bfs.visitStart g source
  pure ⟨visit, (List.replicate g.numNodes 0).set source 1⟩

-- ============================================================ the levels

/-- `if (depths[n] >= verts_at_depth.size()) verts_at_depth.resize(depths[n] + 1)` -/
def resize (vertsAtDepth : List (List Nat)) (dn : Int) : List (List Nat) :=
  if dn ≥ vertsAtDepth.length then
    vertsAtDepth ++ List.replicate (dn + 1 - vertsAtDepth.length).toNat []
  else vertsAtDepth

/-- The body of the loop over `vertices()`. -/
def placeVertex (depths : List Int) (vertsAtDepth : List (List Nat)) (n : Nat) :
    Option (List (List Nat)) := do
  let dn ← depths[n]?
  if dn = -1 then some vertsAtDepth
  else
    let vertsAtDepth := resize vertsAtDepth dn
    let verts ← read vertsAtDepth dn
    write vertsAtDepth dn (verts ++ [n])

-- ========================================================== the way back

/-- `deltas[u] += (path_counts[u] / path_counts[v]) * (1 + deltas[v])`, if
`v` is one level further -/
def pullEdge (s : Search) (u : Nat) (deltas : List ℚ) (v : Nat) : Option (List ℚ) := do
  let dv ← s.visit.depth[v]?
  let du ← s.visit.depth[u]?
  if dv = du + 1 then
    let cu ← s.pathCounts[u]?
    let cv ← s.pathCounts[v]?
    let deltaV ← deltas[v]?
    let deltaU ← deltas[u]?
    some (deltas.set u (deltaU + cu / cv * (1 + deltaV)))
  else some deltas

/-- The body of the loop over `verts_at_depth[depth]`, on `deltas` and
`scores`. -/
def pullVertex (g : CSRGraph Nat) (s : Search) (st : List ℚ × List ℚ) (u : Nat) :
    Option (List ℚ × List ℚ) := do
  let deltas ← (← g.outNeigh u).foldlM (pullEdge s u) st.1
  let score ← st.2[u]?
  let delta ← deltas[u]?
  some (deltas, st.2.set u (score + delta))

/-- The body of the loop over the sources. -/
def verifySource (fuel : Nat) (g : CSRGraph Nat) (scores : List ℚ) (source : Nat) :
    Option (List ℚ) := do
  let s ← searchStart g source
  let s ← searchFrom g fuel 0 s
  let vertsAtDepth ← (List.range g.numNodes).foldlM (placeVertex s.visit.depth) []
  let (_, scores) ← vertsAtDepth.reverse.foldlM (fun st verts => verts.foldlM (pullVertex g s) st)
    (List.replicate g.numNodes 0, scores)
  pure scores

-- ============================================================ the check

/-- `std::numeric_limits<ScoreT>::epsilon()` -/
def epsilon : ℚ := 1 / 2 ^ 23

/-- `abs(x - y) > epsilon()` -/
def differ : Score → Score → Bool
  | some x, some y => decide (|x - y| > epsilon)
  | _, _ => false

/-- The body of the last loop, on `all_ok`. -/
def compareScore (scores scoresToTest : List Score) (allOk : Bool) (n : Nat) : Option Bool := do
  let x ← scoresToTest[n]?
  let y ← scores[n]?
  pure (if differ x y then false else allOk)

/-- `BCVerifier`, for the sources that the picker gives. -/
def bcVerifier (fuel : Nat) (g : CSRGraph Nat) (sources : List Nat) (scoresToTest : List Score) :
    Option Bool := do
  let scores ← sources.foldlM (verifySource fuel g) (List.replicate g.numNodes 0)
  let biggestScore ← scores.max?
  let scores := scores.map (quotient · biggestScore)
  (List.range g.numNodes).foldlM (compareScore scores scoresToTest) true

end ThesisBench.Gapbs.BcVerifier

/-
PageRank by sparse products: `PageRankPull` of
`sources/gapbs/src/pr_spmv.cc`, over the rational numbers.

Both loops over the vertices are parallel regions whose iterations are
steps in any order; an iteration reads nothing that another one of its
loop writes. What an iteration adds to `error` is kept apart until the
loop joins, where the reduction adds it all up. What the division by an
out-degree of zero gives is a parameter, a number for each iteration and
vertex. A contribution that was not written is `none`, and a step that
reads it, or that leaves an array, does not happen.
-/
import ThesisBench.Gapbs.Graph
import ThesisBench.Lib.Parallel
import Mathlib.Algebra.Order.Ring.Rat

namespace ThesisBench.Gapbs.PageRank

open Slots Parallel

/-- `kDamp` -/
def kDamp : Rat := 17 / 20

structure Memory where
  scores : List Rat
  outgoingContrib : List (Option Rat)
  changes : List Rat
  error : Rat
  iter : Nat
  stop : Bool

/-- Incoming lists that are the transpose of the outgoing ones, edge by
edge, over neighbourhoods that can be read and hold vertices. -/
structure Transposed (g : CSRGraph Nat) : Prop where
  outNeigh : ∀ u < g.numNodes, ∃ l, g.outNeigh u = some l ∧ ∀ v ∈ l, v < g.numNodes
  inNeigh : ∀ u < g.numNodes, ∃ l, g.inNeigh u = some l ∧ ∀ v ∈ l, v < g.numNodes
  count_ins : ∀ u < g.numNodes, ∀ v < g.numNodes, (g.ins u).count v = (g.outs v).count u

variable (g : CSRGraph Nat)

def initScore : Rat := 1 / g.numNodes

def baseScore : Rat := (1 - kDamp) / g.numNodes

/-- `scores[n] / g.out_degree(n)` -/
def contrib (byZero score : Rat) (n : Nat) : Rat :=
  if g.outDegree n = 0 then byZero else score / g.outDegree n

def contribStep (byZero : Nat → Nat → Rat) (n : Nat) (m : Memory) : Option Memory := do
  let score ← m.scores[n]?
  let outgoingContrib ← write m.outgoingContrib n (some (contrib g (byZero m.iter n) score n))
  pure { m with outgoingContrib := outgoingContrib }

/-- The sum of the contributions of `in_neigh(u)`. -/
def incomingTotal (outgoingContrib : List (Option Rat)) (vs : List Nat) : Option Rat :=
  vs.foldlM (fun total (v : Nat) => (fetch outgoingContrib v).map (total + ·)) 0

def scoreStep (u : Nat) (m : Memory) : Option Memory := do
  let total ← incomingTotal m.outgoingContrib (← g.inNeigh u)
  let oldScore ← m.scores[u]?
  let score := baseScore g + kDamp * total
  let scores ← write m.scores u score
  let changes ← write m.changes u |score - oldScore|
  pure { m with scores := scores, changes := changes }

/-- An iteration; `stop` is its `break`. -/
def iteration (epsilon : Rat) (byZero : Nat → Nat → Rat) : Prog Memory :=
  .seqs [
    .forEach (once (contribStep g byZero)) (fun _ => List.range g.numNodes) fun n => (n, false),
    .forEach (once (scoreStep g)) (fun _ => List.range g.numNodes) fun u => (u, false),
    .act fun m m' => m' = { m with error := m.changes.sum },
    .act fun m m' =>
      m' = if m.error < epsilon then { m with stop := true } else { m with iter := m.iter + 1 }]

/-- The memory before the loop. -/
def start : Memory where
  scores := List.replicate g.numNodes (initScore g)
  outgoingContrib := List.replicate g.numNodes none
  changes := List.replicate g.numNodes 0
  error := 0
  iter := 0
  stop := false

/-- `PageRankPull` -/
def pageRankPull (maxIters : Int) (epsilon : Rat) (byZero : Nat → Nat → Rat) : Prog Memory :=
  .loop (fun m => !m.stop && decide ((m.iter : Int) < maxIters)) (iteration g epsilon byZero)

end ThesisBench.Gapbs.PageRank

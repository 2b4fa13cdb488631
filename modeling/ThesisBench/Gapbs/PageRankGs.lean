/-
PageRank in place, and its check: `PageRankPullGS` and `PRVerifier` of
`sources/gapbs/src/pr.cc`, over the rational numbers.

An iteration of the loop over the vertices reads the contributions of
others while these write theirs: what it reads of another vertex is the
contribution before or after. So a read of `outgoing_contrib`, the store
to `scores` and the store to `outgoing_contrib` are steps of their own.
The rest is as for the loop by sparse products.
-/
import ThesisBench.Gapbs.PageRank

namespace ThesisBench.Gapbs.PageRank

open Slots Parallel

variable (g : CSRGraph Nat)

-- ======================================================= PageRankPullGS

/-- The loop before the iterations. -/
def initContribStep (byZero : Nat → Nat → Rat) (n : Nat) (m : Memory) : Option Memory := do
  let outgoingContrib ←
    write m.outgoingContrib n (some (contrib g (byZero m.iter n) (initScore g) n))
  pure { m with outgoingContrib := outgoingContrib }

/-- Where an iteration of the loop over the vertices stands. -/
inductive GsAt
  | next
  /-- at the loop over `in_neigh(u)` -/
  | adding (incomingTotal : Rat) (vs : List Nat)
  /-- before the store to `outgoing_contrib[u]` -/
  | scored
  | done
  deriving DecidableEq

/-- `scores[u] = base_score + kDamp * incoming_total` and what it adds to
`error`. -/
def Memory.setScore (m : Memory) (u : Nat) (incomingTotal : Rat) : Option Memory := do
  let oldScore ← m.scores[u]?
  let score := baseScore g + kDamp * incomingTotal
  let scores ← write m.scores u score
  let changes ← write m.changes u |score - oldScore|
  pure { m with scores := scores, changes := changes }

def gsNext (byZero : Nat → Nat → Rat) (u : Nat) : GsAt → Memory → Option (GsAt × Memory)
  | .next, m => (g.inNeigh u).map fun vs => (.adding 0 vs, m)
  | .adding incomingTotal (v :: vs), m =>
      (fetch m.outgoingContrib v).map fun c => (.adding (incomingTotal + c) vs, m)
  | .adding incomingTotal [], m => (m.setScore g u incomingTotal).map fun m => (.scored, m)
  | .scored, m => do
      let score ← m.scores[u]?
      let outgoingContrib ←
        write m.outgoingContrib u (some (contrib g (byZero (m.iter + 1) u) score u))
      pure (.done, { m with outgoingContrib := outgoingContrib })
  | .done, _ => none

def gsTasks (byZero : Nat → Nat → Rat) : Tasks Memory where
  State := Nat × GsAt
  next l m := (gsNext g byZero l.1 l.2 m).map fun c => ((l.1, c.1), c.2)
  done l := decide (l.2 = .done)

/-- An iteration; `stop` is its `break`. -/
def gsIteration (epsilon : Rat) (byZero : Nat → Nat → Rat) : Prog Memory :=
  .seq (.parallelFor (gsTasks g byZero) g.numNodes fun u => (u, .next)) <|
  .seq (.act fun m m' => m' = { m with error := m.changes.sum }) <|
  .act fun m m' =>
    m' = if m.error < epsilon then { m with stop := true } else { m with iter := m.iter + 1 }

/-- `PageRankPullGS` -/
def pageRankPullGS (maxIters : Int) (epsilon : Rat) (byZero : Nat → Nat → Rat) : Prog Memory :=
  .seq (.parallelFor (once (initContribStep g byZero)) g.numNodes fun n => (n, false)) <|
  .loop (fun m => !m.stop && decide ((m.iter : Int) < maxIters)) (gsIteration g epsilon byZero)

-- =========================================================== PRVerifier

/-- `incoming_sums[v] += outgoing_contrib` -/
def pushStep (outgoingContrib : Rat) (incomingSums : List Rat) (v : Nat) : Option (List Rat) := do
  let sum ← incomingSums[v]?
  write incomingSums v (sum + outgoingContrib)

/-- The body of the first loop. -/
def pushVertex (byZero : Nat → Rat) (scores incomingSums : List Rat) (u : Nat) :
    Option (List Rat) := do
  let score ← scores[u]?
  (← g.outNeigh u).foldlM (pushStep (contrib g (byZero u) score u)) incomingSums

/-- The body of the second loop, on `error` and `incoming_sums`. -/
def errorStep (scores : List Rat) (st : Rat × List Rat) (n : Nat) : Option (Rat × List Rat) := do
  let sum ← st.2[n]?
  let score ← scores[n]?
  let incomingSums ← write st.2 n 0
  pure (st.1 + |baseScore g + kDamp * sum - score|, incomingSums)

/-- `PRVerifier` -/
def prVerifier (byZero : Nat → Rat) (scores : List Rat) (targetError : Rat) : Option Bool := do
  let vertices := List.range g.numNodes
  let incomingSums ← vertices.foldlM (pushVertex g byZero scores) (List.replicate g.numNodes 0)
  let (error, _) ← vertices.foldlM (errorStep g scores) (0, incomingSums)
  pure (decide (error < targetError))

end ThesisBench.Gapbs.PageRank

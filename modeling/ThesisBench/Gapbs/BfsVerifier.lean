/-
The check of a breadth-first search: `BFSVerifier` of
`sources/gapbs/src/bfs.cc`.

The verifier searches serially from the same source, with the depths in
an array and the vertices to visit in a vector that grows while it is
traversed, and then compares every vertex's depth with the candidate's
entry. The traversal holds an iterator into the vector, which stays valid
because the vector was given room for `num_nodes` elements; a push beyond
that, a read or write outside an array, and a traversal that goes on
after `fuel` iterations are `none`. A depth is below the number of
vertices, so an `int` holds it.
-/
import ThesisBench.Gapbs.Bfs

namespace ThesisBench.Gapbs.Bfs

-- =========================================================== the search

structure Visit where
  depth : List Int
  toVisit : List Nat
  deriving DecidableEq, Repr

/-- `to_visit.push_back(v)`, within the reserved room -/
def Visit.push (s : Visit) (room v : Nat) : Option Visit :=
  if s.toVisit.length < room then some { s with toVisit := s.toVisit ++ [v] } else none

/-- The body of the loop over `out_neigh(u)`. -/
def visitEdge (room u : Nat) (s : Visit) (v : Nat) : Option Visit := do
  let dv ← s.depth[v]?
  if dv = -1 then
    let du ← s.depth[u]?
    { s with depth := s.depth.set v (du + 1) }.push room v
  else some s

/-- The traversal of `to_visit` from position `it` on. -/
def visitFrom (g : CSRGraph Nat) : Nat → Nat → Visit → Option Visit
  | 0, _, _ => none
  | fuel + 1, it, s =>
      match s.toVisit[it]? with
      | none => some s
      | some u => do
          let vs ← g.outNeigh u
          let s ← vs.foldlM (visitEdge g.numNodes u) s
          visitFrom g fuel (it + 1) s

/-- What stands before the traversal. -/
def visitStart (g : CSRGraph Nat) (source : Nat) : Option Visit :=
  if source < g.numNodes then
    Visit.push ⟨(List.replicate g.numNodes (-1)).set source 0, []⟩ g.numNodes source
  else none

-- ============================================================ the check

/-- The loop over `in_neigh(u)`: `parent_found`, unless the depths are
wrong. -/
def findParent (depth : List Int) (du pu : Int) : List Nat → Option Bool
  | [] => some false
  | v :: vs =>
      if (v : Int) = pu then depth[v]?.map fun dv => decide (dv = du - 1)
      else findParent depth du pu vs

/-- The body of the loop over the vertices; `false` is a return. -/
def checkVertex (g : CSRGraph Nat) (source : Nat) (depth parent : List Int) (u : Nat) :
    Option Bool := do
  let du ← depth[u]?
  let pu ← parent[u]?
  if du ≠ -1 ∧ pu ≠ -1 then
    if u = source then some (decide (pu = u ∧ du = 0))
    else findParent depth du pu (← g.inNeigh u)
  else some (decide (du = pu))

/-- The loop over the vertices, left at the first wrong one. -/
def checkVertices (g : CSRGraph Nat) (source : Nat) (depth parent : List Int) :
    List Nat → Option Bool
  | [] => some true
  | u :: us => do
      if ← checkVertex g source depth parent u then checkVertices g source depth parent us
      else some false

/-- `BFSVerifier` -/
def bfsVerifier (fuel : Nat) (g : CSRGraph Nat) (source : Nat) (parent : List Int) :
    Option Bool := do
  let s ← visitStart g source
  let s ← visitFrom g fuel 0 s
  checkVertices g source s.depth parent (List.range g.numNodes)

end ThesisBench.Gapbs.Bfs

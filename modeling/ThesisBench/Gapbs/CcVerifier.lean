/-
The check of connected components: `CCVerifier` of
`sources/gapbs/src/cc.cc`, and the same one of `cc_sv.cc`.

The verifier keeps one vertex for each label in a hash map and searches
from these vertices, in the order in which the map is traversed. The
searches share the bitmap of visited vertices. A search holds an iterator
into the vector of vertices to visit, which stays valid because the
vector was given room for `num_nodes` elements; a push beyond that, an
access outside an array, and a search that goes on after `fuel`
iterations are `none`.
-/
import ThesisBench.Gapbs.Graph

namespace ThesisBench.Gapbs.Components

-- ====================================================== label_to_source

/-- `label_to_source[label] = source` -/
def assign : List (Int × Nat) → Int → Nat → List (Int × Nat)
  | [], label, source => [(label, source)]
  | (l, s) :: rest, label, source =>
      if l = label then (l, source) :: rest else (l, s) :: assign rest label source

/-- `label_to_source` after the loop over the vertices. -/
def labelToSource (numNodes : Nat) (comp : List Int) : Option (List (Int × Nat)) :=
  (List.range numNodes).foldlM
    (fun map n => do
      let label ← comp[n]?
      pure (assign map label n))
    []

-- =========================================================== the search

structure Search where
  visited : List Bool
  frontier : List Nat
  deriving DecidableEq, Repr

/-- `visited.set_bit(v)` and `frontier.push_back(v)`, within the reserved
room -/
def Search.visit (s : Search) (room v : Nat) : Option Search :=
  if v < s.visited.length ∧ s.frontier.length < room then
    some ⟨s.visited.set v true, s.frontier ++ [v]⟩
  else none

variable (comp : List Int) (room : Nat) (currLabel : Int)

/-- A loop over neighbours; the inner `none` is `return false`. -/
def visitAll : List Nat → Search → Option (Option Search)
  | [], s => some (some s)
  | v :: vs, s => do
      let label ← comp[v]?
      if label ≠ currLabel then some none
      else if ← s.visited[v]? then visitAll vs s
      else visitAll vs (← s.visit room v)

/-- The loop over `in_neigh(u)`, of a directed graph only. -/
def visitIns (g : CSRGraph Nat) (u : Nat) (s : Search) : Option (Option Search) :=
  if g.directed then do visitAll comp room currLabel (← g.inNeigh u) s
  else some (some s)

/-- The traversal of `frontier` from position `it` on. -/
def searchFrom (g : CSRGraph Nat) : Nat → Nat → Search → Option (Option Search)
  | 0, _, _ => none
  | fuel + 1, it, s =>
      match s.frontier[it]? with
      | none => some (some s)
      | some u => do
          match ← visitAll comp room currLabel (← g.outNeigh u) s with
          | none => some none
          | some s =>
              match ← visitIns comp room currLabel g u s with
              | none => some none
              | some s => searchFrom g fuel (it + 1) s

-- ============================================================ the check

/-- The loop over the map. -/
def searchLabels (fuel : Nat) (g : CSRGraph Nat) (comp : List Int) :
    List (Int × Nat) → List Bool → Option (Option (List Bool))
  | [], visited => some (some visited)
  | (currLabel, source) :: rest, visited => do
      let s ← Search.visit ⟨visited, []⟩ g.numNodes source
      match ← searchFrom comp g.numNodes currLabel g fuel 0 s with
      | none => some none
      | some s => searchLabels fuel g comp rest s.visited

/-- `CCVerifier`, when the map is traversed in the order `order`. -/
def ccVerifier (fuel : Nat) (g : CSRGraph Nat) (comp : List Int) (order : List (Int × Nat)) :
    Option Bool := do
  match ← searchLabels fuel g comp order (List.replicate g.numNodes false) with
  | none => some false
  | some visited => (List.range g.numNodes).allM fun n => visited[n]?

end ThesisBench.Gapbs.Components

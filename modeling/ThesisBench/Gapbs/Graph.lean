/-
The graph of the GAP benchmarks: `CSRGraph` of `sources/gapbs/src/graph.h`.

A direction of the graph is an index and an array of neighbours. The
index has one entry more than there are vertices, and the neighbours of
vertex `n` are the array's elements from `index[n]` up to `index[n+1]`.
An entry of the index is a pointer into the array; here it is the
distance from the array's start. An element that was never written is
`none`, and so is every read outside an array.

`NodeID` is a 32-bit integer and `SGOffset` a 64-bit one. The former
wraps around here where the code converts to it; the latter holds any
sum of fewer than `2 ^ 31` values of the former.
-/
import ThesisBench.Lib.Slots

namespace ThesisBench.Gapbs

open Slots

/-- Conversion to `NodeID`. -/
@[irreducible] def int32 (x : Int) : Int := x.bmod (2 ^ 32)

-- ========================================================= destinations

/-- What the templates use of `DestID_`: the conversion to `NodeID_`, the
order that `operator<` gives, and `GetSource`, the source of an edge with
what else the edge carries. -/
class DestID (δ : Type) where
  node : δ → Nat
  /-- `!(b < a)` -/
  le : δ → δ → Bool
  getSource : Nat → δ → δ
  le_trans : ∀ a b c, le a b = true → le b c = true → le a c = true
  le_total : ∀ a b, (le a b || le b a) = true
  node_le : ∀ a b, le a b = true → node a ≤ node b
  node_getSource : ∀ u d, node (getSource u d) = u

/-- Unweighted graphs. -/
instance : DestID Nat where
  node v := v
  le a b := decide (a ≤ b)
  getSource u _ := u
  le_trans a b c hab hbc := by
    rw [decide_eq_true_eq] at *
    omega
  le_total a b := by
    rw [Bool.or_eq_true, decide_eq_true_eq, decide_eq_true_eq]
    omega
  node_le a b h := of_decide_eq_true h
  node_getSource _ _ := rfl

/-- `NodeWeight` with `int32_t` weights. -/
structure NodeWeight where
  v : Nat
  w : BitVec 32
  deriving DecidableEq, Repr

/-- `!(b < a)` for `operator<` of `NodeWeight` -/
def NodeWeight.le (a b : NodeWeight) : Bool :=
  if a.v = b.v then decide (a.w.toInt ≤ b.w.toInt) else decide (a.v < b.v)

/-- The order of weighted neighbours, by vertex and then by weight. -/
theorem NodeWeight.le_iff (a b : NodeWeight) :
    a.le b = true ↔ a.v < b.v ∨ (a.v = b.v ∧ a.w.toInt ≤ b.w.toInt) := by
  unfold NodeWeight.le
  split <;> rw [decide_eq_true_eq] <;> omega

/-- Weighted graphs. -/
instance : DestID NodeWeight where
  node d := d.v
  le := NodeWeight.le
  getSource u d := ⟨u, d.w⟩
  le_trans a b c hab hbc := by
    rw [NodeWeight.le_iff] at *
    omega
  le_total a b := by
    rw [Bool.or_eq_true, NodeWeight.le_iff, NodeWeight.le_iff]
    omega
  node_le a b h := by
    rw [NodeWeight.le_iff] at h
    omega
  node_getSource _ _ := rfl

/-- `EdgePair` -/
structure Edge (δ : Type) where
  u : Nat
  v : δ
  deriving DecidableEq, Repr

-- =============================================================== arrays

/-- One direction of a graph. -/
structure Csr (δ : Type) where
  index : List Int
  neighs : List (Option δ)
  deriving DecidableEq, Repr

variable {δ : Type}

/-- `GenIndex`: as many entries as `NodeID_ length = offsets.size()` says. -/
def genIndex (offsets : List Int) : List Int :=
  offsets.take (int32 offsets.length).toNat

/-- `Neighborhood(n, index, 0)`, all of whose elements were written:
`std::min(0, end() - begin())` leaves the whole neighbourhood. -/
def Csr.neigh (g : Csr δ) (n : Nat) : Option (List δ) := do
  let nStart ← g.index[n]?
  let nEnd ← g.index[n + 1]?
  let elements ← slice g.neighs nStart nEnd
  elements.mapM id

structure CSRGraph (δ : Type) where
  directed : Bool
  numNodes : Nat
  numEdges : Int
  outgoing : Csr δ
  incoming : Csr δ
  deriving DecidableEq, Repr

/-- `out_index_[num_nodes_] - out_index_[0]` -/
def Csr.size (g : Csr δ) (numNodes : Nat) : Option Int := do
  let last ← g.index[numNodes]?
  let first ← g.index[0]?
  pure (last - first)

/-- The constructor of an undirected graph, whose two directions are the
same arrays. -/
def CSRGraph.undirected (numNodes : Nat) (g : Csr δ) : Option (CSRGraph δ) := do
  let size ← g.size numNodes
  pure ⟨false, numNodes, size.tdiv 2, g, g⟩

/-- The constructor of a directed graph. -/
def CSRGraph.ofDirected (numNodes : Nat) (outgoing incoming : Csr δ) :
    Option (CSRGraph δ) := do
  let size ← outgoing.size numNodes
  pure ⟨true, numNodes, size, outgoing, incoming⟩

/-- `out_neigh` -/
def CSRGraph.outNeigh (g : CSRGraph δ) (n : Nat) : Option (List δ) := g.outgoing.neigh n

/-- `in_neigh` -/
def CSRGraph.inNeigh (g : CSRGraph δ) (n : Nat) : Option (List δ) := g.incoming.neigh n

/-- `out_degree` -/
def CSRGraph.outDegree (g : CSRGraph δ) (v : Nat) : Int :=
  g.outgoing.index.getD (v + 1) 0 - g.outgoing.index.getD v 0

/-- `num_edges_directed` -/
def CSRGraph.numEdgesDirected (g : CSRGraph δ) : Int :=
  if g.directed then g.numEdges else 2 * g.numEdges

-- ========================================================= traversals

/-- What a loop over `out_neigh(n)` visits. -/
def CSRGraph.outs (g : CSRGraph δ) (n : Nat) : List δ := (g.outNeigh n).getD []

/-- What a loop over `in_neigh(n)` visits. -/
def CSRGraph.ins (g : CSRGraph δ) (n : Nat) : List δ := (g.inNeigh n).getD []

/-- A slice is as long as its bounds say. -/
theorem length_of_slice {α : Type} {l a : List α} {i j : Int}
    (h : Slots.slice l i j = some a) : (a.length : Int) = j - i := by
  unfold Slots.slice at h
  split at h
  case isTrue hbounds =>
    cases h
    rw [List.length_take, List.length_drop]
    omega
  case isFalse => cases h

/-- Reading slot by slot keeps the length. -/
theorem length_of_mapM {α : Type} {l : List (Option α)} {a : List α}
    (h : l.mapM id = some a) : a.length = l.length := by
  induction l generalizing a with
  | nil =>
      cases h
      rfl
  | cons x l ih =>
      rw [List.mapM_cons] at h
      obtain ⟨y, -, h⟩ := Option.bind_eq_some_iff.mp h
      obtain ⟨b, hb, h⟩ := Option.bind_eq_some_iff.mp h
      cases h
      rw [List.length_cons, List.length_cons, ih hb]

/-- The index says how many neighbours are visited. -/
theorem CSRGraph.length_outs {g : CSRGraph δ} {u : Nat} {l : List δ}
    (hl : g.outNeigh u = some l) : ((g.outs u).length : Int) = g.outDegree u := by
  rw [CSRGraph.outs, hl, Option.getD_some]
  obtain ⟨i, hi, hl⟩ := Option.bind_eq_some_iff.mp hl
  obtain ⟨j, hj, hl⟩ := Option.bind_eq_some_iff.mp hl
  obtain ⟨a, ha, hl⟩ := Option.bind_eq_some_iff.mp hl
  rw [CSRGraph.outDegree, List.getD_eq_getElem?_getD, List.getD_eq_getElem?_getD, hi, hj,
    length_of_mapM hl, length_of_slice ha]
  rfl

/-- A graph whose neighbourhoods can be read and hold vertices, and whose
incoming lists are the transpose of the outgoing ones; of an undirected
graph both are the same arrays, so its lists are symmetric. -/
structure CSRGraph.Transposed (g : CSRGraph Nat) : Prop where
  outNeigh : ∀ u < g.numNodes, ∃ l, g.outNeigh u = some l ∧ ∀ v ∈ l, v < g.numNodes
  inNeigh : ∀ u < g.numNodes, ∃ l, g.inNeigh u = some l ∧ ∀ v ∈ l, v < g.numNodes
  incoming : g.directed = false → g.incoming = g.outgoing
  mem_ins : ∀ u < g.numNodes, ∀ v < g.numNodes, v ∈ g.ins u ↔ u ∈ g.outs v

variable {g : CSRGraph Nat} {u v : Nat}

/-- Outgoing edges lead to vertices of the graph. -/
theorem CSRGraph.Transposed.outs_lt (hg : g.Transposed) (hu : u < g.numNodes)
    (hv : v ∈ g.outs u) : v < g.numNodes := by
  obtain ⟨l, hl, hlt⟩ := hg.outNeigh u hu
  rw [CSRGraph.outs, hl, Option.getD_some] at hv
  exact hlt v hv

/-- Incoming edges come from vertices of the graph. -/
theorem CSRGraph.Transposed.ins_lt (hg : g.Transposed) (hu : u < g.numNodes)
    (hv : v ∈ g.ins u) : v < g.numNodes := by
  obtain ⟨l, hl, hlt⟩ := hg.inNeigh u hu
  rw [CSRGraph.ins, hl, Option.getD_some] at hv
  exact hlt v hv

end ThesisBench.Gapbs

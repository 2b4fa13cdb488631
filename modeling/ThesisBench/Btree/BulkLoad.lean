/-
`bulk_load` of `sources/btree/btree.c`: a tree from sorted pairs, built
bottom up.

The arrays `keys` and `records` are one list of pairs, and the index
that runs over them (`key_idx`, `child_idx`) is the list that is left.
Every level is packed from the left: the last leaf takes what remains,
and so does the last parent of each level, down to a single child.
-/
import ThesisBench.Btree.Ops

namespace ThesisBench.Btree

open CArray

-- =============================================================== leaves

/-- The loop that fills one leaf; answers `count` and what is left. -/
def fillLeaf (leaf : NodeId) : Nat → Heap → Nat → List (U64 × RecId) →
    Except Fault (Nat × List (U64 × RecId) × Heap)
  | room + 1, h, count, e :: es => do
      let nd := h.nodes leaf
      let keys ← chk (put nd.keys count e.1)
      let pointers ← chk (put nd.pointers count (.record e.2))
      fillLeaf leaf room
        (h.setNode leaf { nd with keys := keys, pointers := pointers })
        (count + 1) es
  | _, h, count, es => .ok (count, es, h)

/-- `leaf->pointers[order - 1] = p;` -/
def setChain (order : Nat) (h : Heap) (leaf : NodeId) (p : Ptr) :
    Except Fault Heap := do
  let nd := h.nodes leaf
  let pointers ← chk (put nd.pointers (order - 1) p)
  .ok (h.setNode leaf { nd with pointers := pointers })

/-- `if (i > 0) leaves[i-1]->pointers[order - 1] = leaves[i];` -/
def linkLeaf (order : Nat) (h : Heap) (leaf : NodeId) :
    Option NodeId → Except Fault Heap
  | none => .ok h
  | some prev => setChain order h prev (.node leaf)

/-- The loop over `num_leaves`; `prev` is the leaf before. -/
def bulkLeaves (order : Nat) : Nat → Heap → Option NodeId →
    List (U64 × RecId) → Except Fault (List NodeId × Heap)
  | 0, h, _, _ => .ok ([], h)
  | k + 1, h, prev, es => do
      let (leaf, h) ← makeLeaf order h
      let (count, es, h) ← fillLeaf leaf (order - 1) h 0 es
      let h := h.setNode leaf { h.nodes leaf with numKeys := count }
      let h ← linkLeaf order h leaf prev
      let (leaves, h) ← bulkLeaves order k h (some leaf) es
      .ok (leaf :: leaves, h)

-- ============================================================== parents

/-- `while (!temp->is_leaf) temp = temp->pointers[0];` and then
`temp->keys[0]`. -/
def leftmostKey (h : Heap) : Nat → NodeId → Except Fault U64
  | 0, _ => .error .outOfFuel
  | fuel + 1, n =>
      if (h.nodes n).isLeaf then chk (h.nodes n).keys[0]?
      else do
        let p ← chk (h.nodes n).pointers[0]?
        let c ← asNode p
        leftmostKey h fuel c

/-- The loop that gives a parent its further children; answers
`key_count` and the children left. -/
def fillNode (parent : NodeId) : Nat → Heap → Nat → List NodeId →
    Except Fault (Nat × List NodeId × Heap)
  | room + 1, h, keyCount, child :: cs => do
      let separator ← leftmostKey h (h.carvedNodes + 1) child
      let nd := h.nodes parent
      let keys ← chk (put nd.keys keyCount separator)
      let pointers ← chk (put nd.pointers (keyCount + 1) (.node child))
      let h := h.setNode parent { nd with keys := keys, pointers := pointers }
      let h := h.setParent child (some parent)
      fillNode parent room h (keyCount + 1) cs
  | _, h, keyCount, cs => .ok (keyCount, cs, h)

/-- One round of the parent loop: a new parent for the next children;
answers the parent and the children left. -/
def bulkParent (order : Nat) (h : Heap) (cs : List NodeId) :
    Except Fault (NodeId × List NodeId × Heap) := do
  let (parent, h) ← makeNode order h
  match cs with
  | [] => .error .outOfBounds
  | child :: cs => do
      let nd := h.nodes parent
      let pointers ← chk (put nd.pointers 0 (.node child))
      let h := h.setNode parent { nd with pointers := pointers }
      let h := h.setParent child (some parent)
      let (keyCount, cs, h) ← fillNode parent (order - 1) h 0 cs
      .ok (parent, cs,
        h.setNode parent { h.nodes parent with numKeys := keyCount })

/-- The loop over `num_parents`. -/
def bulkParents (order : Nat) : Nat → Heap → List NodeId →
    Except Fault (List NodeId × Heap)
  | 0, h, _ => .ok ([], h)
  | k + 1, h, cs => do
      let (parent, cs, h) ← bulkParent order h cs
      let (parents, h) ← bulkParents order k h cs
      .ok (parent :: parents, h)

/-- `(a + b - 1) / b` -/
def ceilDiv (a b : Nat) : Nat := (a + b - 1) / b

/-- The loop over the levels. -/
def bulkLevels (order : Nat) : Nat → Heap → List NodeId →
    Except Fault (NodeId × Heap)
  | 0, _, _ => .error .outOfFuel
  | _, _, [] => .error .outOfBounds
  | _, h, [n] => .ok (n, h)
  | fuel + 1, h, level => do
      let (parents, h) ← bulkParents order (ceilDiv level.length order) h level
      bulkLevels order fuel h parents

/-- `bulk_load` -/
def bulkLoad (order : Nat) (h : Heap) (es : List (U64 × RecId)) :
    Except Fault (Option NodeId × Heap) :=
  if es.length = 0 then .ok (none, h)
  else do
    let (leaves, h) ← bulkLeaves order (ceilDiv es.length (order - 1)) h none es
    let last ← chk leaves.getLast?
    let h ← setChain order h last .null
    let (root, h) ← bulkLevels order leaves.length h leaves
    .ok (some root, h)

-- ============================================================== loading

/-- The caller's part: a record for every value. -/
def makeRecords : Heap → List (U64 × U64) →
    Except Fault (List (U64 × RecId) × Heap)
  | h, [] => .ok ([], h)
  | h, p :: ps => do
      let (r, h) ← makeRecord h p.2
      let (es, h) ← makeRecords h ps
      .ok ((p.1, r) :: es, h)

/-- Records for the pairs, then `bulk_load`, in a fresh program. -/
def load (order : Nat) (pairs : List (U64 × U64)) : Except Fault State := do
  let (es, h) ← makeRecords Heap.empty pairs
  let (root, h) ← bulkLoad order h es
  .ok ⟨root, h⟩

/-- The map the pairs stand for. -/
def Contents.ofPairs (pairs : List (U64 × U64)) : Contents :=
  fun k => pairs.lookup k

/-- No level of `count` nodes that gets parents leaves one of them with a
single child. -/
def noOrphan (order : Nat) : Nat → Nat → Bool
  | 0, _ => true
  | fuel + 1, count =>
      if count ≤ 1 then true
      else decide (count % order ≠ 1) && noOrphan order fuel (ceilDiv count order)

/-- The condition on the number of pairs: read off the number of leaves,
level by level. -/
def Packs (order n : Nat) : Prop :=
  noOrphan order (ceilDiv n (order - 1)) (ceilDiv n (order - 1)) = true

end ThesisBench.Btree

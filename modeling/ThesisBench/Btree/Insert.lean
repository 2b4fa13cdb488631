/-
Insertion into the B+ tree of `sources/btree/btree.c`: `insert`,
`insert_unique` and the split machinery under them.

The C recursion `insert_into_parent` / `insert_into_node_after_splitting`
climbs parent links. It is one recursion on fuel here, and the splitting
function takes the climb it ends in as an argument, so each C function
keeps a definition of its own.
-/
import ThesisBench.Btree.Basic

namespace ThesisBench.Btree

open CArray

/-- The climb a split ends in: `insert_into_parent(root, left, key,
right)` on a heap. -/
abbrev Climb :=
  Heap → NodeId → NodeId → U64 → NodeId → Except Fault (NodeId × Heap)

-- ================================================================ leaves

/-- `start_new_tree` -/
def startNewTree (order : Nat) (h : Heap) (key : U64) (pointer : RecId) :
    Except Fault (NodeId × Heap) := do
  let (root, h) ← makeLeaf order h
  let nd := h.nodes root
  let keys ← chk (put nd.keys 0 key)
  let pointers ← chk (put nd.pointers 0 (.record pointer))
  let pointers ← chk (put pointers (order - 1) .null)
  .ok (root, h.setNode root
    { nd with keys := keys, pointers := pointers, parent := none
              numKeys := nd.numKeys + 1 })

/-- `insert_into_leaf` -/
def insertIntoLeaf (h : Heap) (leaf : NodeId) (key : U64) (pointer : RecId) :
    Except Fault Heap := do
  let nd := h.nodes leaf
  let insertionPoint ← chk (scanWhile (fun k => decide (k < key)) nd.keys
    0 nd.numKeys)
  let keys ← chk (shiftUp nd.keys insertionPoint nd.numKeys)
  let pointers ← chk (shiftUp nd.pointers insertionPoint nd.numKeys)
  let keys ← chk (put keys insertionPoint key)
  let pointers ← chk (put pointers insertionPoint (.record pointer))
  .ok (h.setNode leaf
    { nd with keys := keys, pointers := pointers
              numKeys := nd.numKeys + 1 })

/-- `insert_into_leaf_after_splitting`: gather the full leaf and the new
entry in the temporary blocks, deal them out to the old leaf and a new
one, link the new leaf behind the old, and climb. -/
def insertIntoLeafAfterSplitting (order : Nat) (climb : Climb) (h : Heap)
    (root leaf : NodeId) (key : U64) (pointer : RecId) :
    Except Fault (NodeId × Heap) := do
  let (newLeaf, h) ← makeLeaf order h
  let nd := h.nodes leaf
  let insertionIndex ← chk (scanWhile (fun k => decide (k < key)) nd.keys
    0 (order - 1))
  let tempKeys ← chk (copyGap nd.keys insertionIndex
    (List.replicate (order + 1) 0) 0 0 nd.numKeys)
  let tempPointers ← chk (copyGap nd.pointers insertionIndex
    (List.replicate (order + 1) .null) 0 0 nd.numKeys)
  let tempKeys ← chk (put tempKeys insertionIndex key)
  let tempPointers ← chk (put tempPointers insertionIndex (.record pointer))
  let split := cut (order - 1)
  let pointers ← chk (copy tempPointers 0 nd.pointers 0 split)
  let keys ← chk (copy tempKeys 0 nd.keys 0 split)
  let nw := h.nodes newLeaf
  let newPointers ← chk (copy tempPointers split nw.pointers 0 (order - split))
  let newKeys ← chk (copy tempKeys split nw.keys 0 (order - split))
  let chain ← chk pointers[order - 1]?
  let newPointers ← chk (put newPointers (order - 1) chain)
  let pointers ← chk (put pointers (order - 1) (.node newLeaf))
  let pointers ← chk (fill pointers .null split (order - 1 - split))
  let newPointers ← chk (fill newPointers .null (order - split)
    (order - 1 - (order - split)))
  let h := h.setNode leaf
    { nd with keys := keys, pointers := pointers, numKeys := split }
  let h := h.setNode newLeaf
    { nw with keys := newKeys, pointers := newPointers
              numKeys := order - split, parent := nd.parent }
  let newKey ← chk newKeys[0]?
  climb h root leaf newKey newLeaf

-- ======================================================== internal nodes

/-- `get_left_index`: one past the last pointer when `left` is not a
child of `parent`. -/
def getLeftIndex (h : Heap) (parent left : NodeId) : Except Fault Nat :=
  chk (scanWhile (fun p => decide (p ≠ .node left)) (h.nodes parent).pointers
    0 ((h.nodes parent).numKeys + 1))

/-- The ghost side of `get_left_index`: count a search that found
nothing. -/
def Heap.noteMiss (h : Heap) (parent : NodeId) (leftIndex : Nat) : Heap :=
  if (h.nodes parent).numKeys < leftIndex
  then { h with misses := h.misses + 1 } else h

/-- `insert_into_node` -/
def insertIntoNode (h : Heap) (n : NodeId) (leftIndex : Nat) (key : U64)
    (right : NodeId) : Except Fault Heap := do
  let nd := h.nodes n
  let pointers ← chk (shiftUp nd.pointers (leftIndex + 1) (nd.numKeys + 1))
  let keys ← chk (shiftUp nd.keys leftIndex nd.numKeys)
  let pointers ← chk (put pointers (leftIndex + 1) (.node right))
  let keys ← chk (put keys leftIndex key)
  .ok (h.setNode n
    { nd with keys := keys, pointers := pointers
              numKeys := nd.numKeys + 1 })

/-- `for (; i < i + k; i++) n->pointers[i]->parent = n;` -/
def adoptChildren (h : Heap) (n : NodeId) (i : Nat) : Nat → Except Fault Heap
  | 0 => .ok h
  | k + 1 => do
      let p ← chk (h.nodes n).pointers[i]?
      let child ← asNode p
      adoptChildren (h.setParent child (some n)) n (i + 1) k

/-- `insert_into_node_after_splitting` -/
def insertIntoNodeAfterSplitting (order : Nat) (climb : Climb) (h : Heap)
    (root oldNode : NodeId) (leftIndex : Nat) (key : U64) (right : NodeId) :
    Except Fault (NodeId × Heap) := do
  let od := h.nodes oldNode
  let tempPointers ← chk (copyGap od.pointers (leftIndex + 1)
    (List.replicate (order + 1) .null) 0 0 (od.numKeys + 1))
  let tempKeys ← chk (copyGap od.keys leftIndex
    (List.replicate order 0) 0 0 od.numKeys)
  let tempPointers ← chk (put tempPointers (leftIndex + 1) (.node right))
  let tempKeys ← chk (put tempKeys leftIndex key)
  let split := cut order
  let (newNode, h) ← makeNode order h
  let od := h.nodes oldNode
  let nw := h.nodes newNode
  let pointers ← chk (copy tempPointers 0 od.pointers 0 (split - 1))
  let keys ← chk (copy tempKeys 0 od.keys 0 (split - 1))
  let last ← chk tempPointers[split - 1]?
  let pointers ← chk (put pointers (split - 1) last)
  let kPrime ← chk tempKeys[split - 1]?
  let newPointers ← chk (copy tempPointers split nw.pointers 0 (order - split))
  let newKeys ← chk (copy tempKeys split nw.keys 0 (order - split))
  let newLast ← chk tempPointers[order]?
  let newPointers ← chk (put newPointers (order - split) newLast)
  let h := h.setNode oldNode
    { od with keys := keys, pointers := pointers, numKeys := split - 1 }
  let h := h.setNode newNode
    { nw with keys := newKeys, pointers := newPointers
              numKeys := order - split, parent := od.parent }
  let h ← adoptChildren h newNode 0 (order - split + 1)
  climb h root oldNode kPrime newNode

/-- `insert_into_new_root` -/
def insertIntoNewRoot (order : Nat) (h : Heap) (left : NodeId) (key : U64)
    (right : NodeId) : Except Fault (NodeId × Heap) := do
  let (root, h) ← makeNode order h
  let nd := h.nodes root
  let keys ← chk (put nd.keys 0 key)
  let pointers ← chk (put nd.pointers 0 (.node left))
  let pointers ← chk (put pointers 1 (.node right))
  let h := h.setNode root
    { nd with keys := keys, pointers := pointers
              numKeys := nd.numKeys + 1, parent := none }
  let h := h.setParent left (some root)
  let h := h.setParent right (some root)
  .ok (root, h)

/-- `insert_into_parent` -/
def insertIntoParent (order : Nat) : Nat → Climb
  | 0, _, _, _, _, _ => .error .outOfFuel
  | fuel + 1, h, root, left, key, right =>
      match (h.nodes left).parent with
      | none => insertIntoNewRoot order h left key right
      | some parent => do
          let leftIndex ← getLeftIndex h parent left
          let h := h.noteMiss parent leftIndex
          if (h.nodes parent).numKeys < order - 1 then do
            let h ← insertIntoNode h parent leftIndex key right
            .ok (root, h)
          else
            insertIntoNodeAfterSplitting order (insertIntoParent order fuel)
              h root parent leftIndex key right

-- ================================================================== tops

/-- `insert` -/
def insert (order : Nat) (h : Heap) (root : Option NodeId) (key value : U64) :
    Except Fault (Option NodeId × Heap) := do
  let (recordPointer, _) ← find h root key
  match recordPointer with
  | some r => .ok (root, h.setRec r (.value value))
  | none => do
      let (r, h) ← makeRecord h value
      match root with
      | none => do
          let (root, h) ← startNewTree order h key r
          .ok (some root, h)
      | some root => do
          let leaf ← findLeaf h root key
          if (h.nodes leaf).numKeys < order - 1 then do
            let h ← insertIntoLeaf h leaf key r
            .ok (some root, h)
          else do
            let (root, h) ← insertIntoLeafAfterSplitting order
              (insertIntoParent order (h.carvedNodes + 1)) h root leaf key r
            .ok (some root, h)

/-- `insert_unique`, with its append fast path. -/
def insertUnique (order : Nat) (h : Heap) (root : Option NodeId) (key : U64)
    (r : RecId) : Except Fault (Option NodeId × Heap) :=
  match root with
  | none => do
      let (root, h) ← startNewTree order h key r
      .ok (some root, h)
  | some root => do
      let leaf ← findLeaf h root key
      let nd := h.nodes leaf
      if nd.numKeys < order - 1 then do
        let append ← if nd.numKeys = 0 then .ok true else do
          let last ← chk nd.keys[nd.numKeys - 1]?
          .ok (decide (last < key))
        if append then do
          let keys ← chk (put nd.keys nd.numKeys key)
          let pointers ← chk (put nd.pointers nd.numKeys (.record r))
          .ok (some root, h.setNode leaf
            { nd with keys := keys, pointers := pointers
                      numKeys := nd.numKeys + 1 })
        else do
          let h ← insertIntoLeaf h leaf key r
          .ok (some root, h)
      else do
        let (root, h) ← insertIntoLeafAfterSplitting order
          (insertIntoParent order (h.carvedNodes + 1)) h root leaf key r
        .ok (some root, h)

end ThesisBench.Btree

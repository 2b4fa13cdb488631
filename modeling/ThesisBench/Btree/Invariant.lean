/-
The representation invariant of the B+ tree, stated on memory alone.

Nothing here mentions the abstract tree of Tree.lean: a node is an
address, its children are what its `pointers` block names, and the
bounds a node must respect are handed down from its parent's keys. A
subtree of height `d` is one all of whose leaves are `d` pointers below
its root, so a single `d` for the root says that all leaves have the
same depth.
-/
import ThesisBench.Btree.Basic
import ThesisBench.Lib.FreeList

namespace ThesisBench.Btree

/-- The keys of a node that are in use. -/
def Heap.keysOf (h : Heap) (n : NodeId) : List U64 :=
  (h.nodes n).keys.take (h.nodes n).numKeys

/-- `lo ≤ k < hi`, where a missing bound bounds nothing. -/
def InRange (lo hi : Option U64) (k : U64) : Prop :=
  (∀ a ∈ lo, a ≤ k) ∧ ∀ b ∈ hi, k < b

/-- The least number of keys of a node that is not the root, `height`
levels above the leaves. -/
def minOccupancy (order height : Nat) : Nat :=
  if height = 0 then cut (order - 1) else cut order - 1

/-- What holds of every node, whatever its kind. -/
structure NodeInv (order : Nat) (h : Heap) (isLeaf : Bool) (n : NodeId)
    (par : Option NodeId) (lo hi : Option U64) : Prop where
  kind : (h.nodes n).isLeaf = isLeaf
  parent : (h.nodes n).parent = par
  keys_length : (h.nodes n).keys.length = order - 1
  pointers_length : (h.nodes n).pointers.length = order
  numKeys_le : (h.nodes n).numKeys ≤ order - 1
  increasing : (h.keysOf n).Pairwise (· < ·)
  range : ∀ k ∈ h.keysOf n, InRange lo hi k

/-- The invariant of the subtree at `n`, of height `d`, whose keys lie in
`[lo, hi)`. Under `pointers[j]` the range is `[keys[j-1], keys[j])`. -/
def SubtreeInv (order : Nat) (h : Heap) :
    Nat → NodeId → Option NodeId → Option U64 → Option U64 → Prop
  | 0, n, par, lo, hi =>
      NodeInv order h true n par lo hi
        ∧ ∀ j < (h.nodes n).numKeys,
            ∃ r, (h.nodes n).pointers[j]? = some (.record r)
  | d + 1, n, par, lo, hi =>
      NodeInv order h false n par lo hi
        ∧ ∀ j ≤ (h.nodes n).numKeys,
            ∃ c, (h.nodes n).pointers[j]? = some (.node c)
              ∧ minOccupancy order d ≤ (h.nodes c).numKeys
              ∧ SubtreeInv order h d c (some n)
                  (if j = 0 then lo else (h.keysOf n)[j - 1]?)
                  (if j = (h.nodes n).numKeys then hi else (h.keysOf n)[j]?)

/-- The nodes that `pointers[0]` to `pointers[num_keys]` name. -/
def Heap.children (h : Heap) (n : NodeId) : List NodeId :=
  ((h.nodes n).pointers.take ((h.nodes n).numKeys + 1)).filterMap fun
    | .node c => some c
    | _ => none

/-- The leaves under a node of height `d`, left to right. -/
def leavesUnder (h : Heap) : Nat → NodeId → List NodeId
  | 0, n => [n]
  | d + 1, n => (h.children n).flatMap (leavesUnder h d)

/-- All nodes under a node of height `d`, itself first. -/
def nodesUnder (h : Heap) : Nat → NodeId → List NodeId
  | 0, n => [n]
  | d + 1, n => n :: (h.children n).flatMap (nodesUnder h d)

/-- The records that the slots of a leaf in use refer to. -/
def Heap.recordsOf (h : Heap) (n : NodeId) : List RecId :=
  ((h.nodes n).pointers.take (h.nodes n).numKeys).filterMap fun
    | .record r => some r
    | _ => none

/-- The leaf that `pointers[0]` leads to. -/
def leftmost (h : Heap) : Nat → NodeId → NodeId
  | 0, n => n
  | d + 1, n => leftmost h d ((h.children n).headD n)

/-- Following `pointers[order - 1]` from `p` visits these leaves and ends
at NULL. -/
inductive Chain (order : Nat) (h : Heap) : Ptr → List NodeId → Prop
  | null : Chain order h .null []
  | leaf {n : NodeId} {p : Ptr} {ns : List NodeId} :
      (h.nodes n).pointers[order - 1]? = some p → Chain order h p ns →
      Chain order h (.node n) (n :: ns)

/-- All leaves of the tree at `n` lie `d` pointers below it, and every
child's parent field names its parent. -/
def Uniform (h : Heap) : Nat → NodeId → Option NodeId → Prop
  | 0, n, par => (h.nodes n).isLeaf = true ∧ (h.nodes n).parent = par
  | d + 1, n, par =>
      ((h.nodes n).isLeaf = false ∧ (h.nodes n).parent = par)
        ∧ ∀ j ≤ (h.nodes n).numKeys,
            ∃ c, (h.nodes n).pointers[j]? = some (.node c)
              ∧ Uniform h d c (some n)

/-- The entries of a leaf: its keys in use, each with its pointer. -/
def Heap.pairsOf (h : Heap) (n : NodeId) : List (U64 × Ptr) :=
  (h.keysOf n).zip ((h.nodes n).pointers.take (h.nodes n).numKeys)

/-- The invariant of a whole tree. -/
structure TreeInv (order : Nat) (h : Heap) (root : NodeId) (d : Nat) :
    Prop where
  subtree : SubtreeInv order h d root none none none
  root_pos : 1 ≤ (h.nodes root).numKeys
  chain : Chain order h (.node (leftmost h d root)) (leavesUnder h d root)
  once : (leavesUnder h d root).Nodup
  ordered : ((leavesUnder h d root).flatMap h.keysOf).Pairwise (· < ·)

/-- `root` is NULL or a tree that satisfies the invariant, the tree's
nodes are the ones in use, and its keys are these. -/
inductive BPlusTree (order : Nat) (h : Heap) :
    Option NodeId → List U64 → Prop
  | empty :
      FreeList.Pool (fun i => (h.nodes i).next) h.freeNodes h.carvedNodes [] →
      BPlusTree order h none []
  | tree {root : NodeId} {d : Nat} : TreeInv order h root d →
      FreeList.Pool (fun i => (h.nodes i).next) h.freeNodes h.carvedNodes
        (nodesUnder h d root) →
      BPlusTree order h (some root) ((leavesUnder h d root).flatMap h.keysOf)

end ThesisBench.Btree

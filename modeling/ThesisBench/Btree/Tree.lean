/-
The abstract B+ tree and what it means for memory to hold one.

# The tree

`Tree d` is a tree of uniform depth `d`, so that all leaves have the
same depth by construction. Every node carries its address, because
the C program's parent links and leaf chain are statements about
addresses. `flat` is the tree's reading as tokens (`Lib/SepList`): the
search order, the node key order and the subtree ranges are all
`Sorted (flat t)`.

# Representation

`Rep order m d t par nxt` says that memory `m` holds the tree `t` below
a node whose parent field is `par`, and that the leaf chain leaves `t`
through the pointer `nxt`. It describes every field of every node of
`t`: the two blocks up to `num_keys`, `num_keys` itself, `is_leaf`, the
parent link, and in a leaf the chain pointer in the last slot. The
blocks beyond `num_keys` are unconstrained, as the C code leaves stale
words there.

# Fill

`Filled lm nm` is the lower occupancy bound of a node and everything
under it, at least `lm` keys in a leaf and `nm` in an internal node;
the upper bound follows from the block lengths. It takes the bounds as
parameters because a bulk-loaded tree satisfies weaker ones.
-/
import ThesisBench.Btree.Basic
import ThesisBench.Lib.SepList

namespace ThesisBench.Btree

open SepList

-- ============================================================= the tree

/-- A leaf: its address and its entries. -/
structure Leaf where
  id : NodeId
  es : List (U64 × RecId)

/-- An internal node: its address, its keys and its children. -/
structure Branch (T : Type) where
  id : NodeId
  ks : List U64
  cs : List T

/-- Trees whose leaves all lie `d` levels down. -/
def Tree : Nat → Type
  | 0 => Leaf
  | d + 1 => Branch (Tree d)

/-- The address of the root node. -/
def tid : (d : Nat) → Tree d → NodeId
  | 0, t => Leaf.id t
  | _ + 1, t => Branch.id t

/-- The root node's `num_keys`. -/
def count : (d : Nat) → Tree d → Nat
  | 0, t => (Leaf.es t).length
  | _ + 1, t => (Branch.ks t).length

/-- The addresses of all nodes, root first. -/
def ids : (d : Nat) → Tree d → List NodeId
  | 0, t => [Leaf.id t]
  | d + 1, t => Branch.id t :: (Branch.cs t).flatMap (ids d)

/-- The flat reading. -/
def flat : (d : Nat) → Tree d → List (Tok U64 RecId)
  | 0, t => toks (Leaf.es t)
  | d + 1, t => weave (Branch.ks t) ((Branch.cs t).map (flat d))

/-- The leaves' addresses, left to right. -/
def leaves : (d : Nat) → Tree d → List NodeId
  | 0, t => [Leaf.id t]
  | d + 1, t => (Branch.cs t).flatMap (leaves d)

/-- The leftmost leaf. -/
def firstLeaf : (d : Nat) → Tree d → NodeId
  | 0, t => Leaf.id t
  | d + 1, t =>
      match Branch.cs t with
      | [] => Branch.id t
      | c :: _ => firstLeaf d c

/-- The records, left to right. -/
def recsOf (d : Nat) (t : Tree d) : List RecId :=
  (ents (flat d t)).map Prod.snd

/-- At least `lm` keys in every leaf and `nm` in every internal node. -/
def Filled (lm nm : Nat) : (d : Nat) → Tree d → Prop
  | 0, t => lm ≤ (Leaf.es t).length
  | d + 1, t => nm ≤ (Branch.ks t).length ∧ ∀ c ∈ Branch.cs t, Filled lm nm d c

/-- `Filled` below the root. -/
def FilledBelow (lm nm : Nat) : (d : Nat) → Tree d → Prop
  | 0, _ => True
  | d + 1, t => ∀ c ∈ Branch.cs t, Filled lm nm d c

theorem tid_mem_ids (d : Nat) (t : Tree d) : tid d t ∈ ids d t := by
  cases d with
  | zero => exact List.mem_singleton.mpr rfl
  | succ d => exact List.mem_cons_self ..

/-- The addresses, with the root's split off. -/
theorem ids_eq_cons (d : Nat) (t : Tree d) :
    ids d t = tid d t :: (ids d t).tail := by
  cases d <;> rfl

/-- The roots of a list of subtrees are among their nodes. -/
theorem mem_ids_of_mem_tids {d : Nat} {cs : List (Tree d)} {x : NodeId}
    (hx : x ∈ cs.map (tid d)) : x ∈ cs.flatMap (ids d) := by
  obtain ⟨c, hc, rfl⟩ := List.mem_map.mp hx
  exact List.mem_flatMap.mpr ⟨c, hc, tid_mem_ids d c⟩

/-- Siblings that share no node have different roots. -/
theorem tids_nodup {d : Nat} {cs : List (Tree d)}
    (h : (cs.flatMap (ids d)).Nodup) : (cs.map (tid d)).Nodup := by
  induction cs with
  | nil => exact List.nodup_nil
  | cons c cs ih =>
      rw [List.flatMap_cons] at h
      obtain ⟨-, hcs, hdisj⟩ := List.nodup_append.mp h
      refine List.nodup_cons.mpr ⟨fun hm => ?_, ih hcs⟩
      exact hdisj _ (tid_mem_ids d c) _ (mem_ids_of_mem_tids hm) rfl

/-- A tree that is filled throughout is filled below its root. -/
theorem Filled.below {lm nm d : Nat} {t : Tree d} (h : Filled lm nm d t) :
    FilledBelow lm nm d t := by
  cases d with
  | zero => trivial
  | succ d => exact h.2

/-- The bound of `Filled` on a node of the given height. -/
def least (lm nm : Nat) : Nat → Nat
  | 0 => lm
  | _ + 1 => nm

/-- A node is filled when its own count is and everything below is. -/
theorem filled_iff {lm nm d : Nat} {t : Tree d} :
    Filled lm nm d t ↔ least lm nm d ≤ count d t ∧ FilledBelow lm nm d t := by
  cases d with
  | zero => exact ⟨fun h => ⟨h, trivial⟩, fun h => h.1⟩
  | succ d => exact Iff.rfl

-- ======================================================= representation

/-- A leaf's fields. -/
structure LeafRep (order : Nat) (nd : Node) (par : Option NodeId)
    (es : List (U64 × RecId)) (nxt : Ptr) : Prop where
  isLeaf : nd.isLeaf = true
  parent : nd.parent = par
  numKeys : nd.numKeys = es.length
  keys : ∃ kr, nd.keys = es.map Prod.fst ++ kr
    ∧ es.length + kr.length = order - 1
  pointers : ∃ pr, nd.pointers
      = es.map (fun e => Ptr.record e.2) ++ (pr ++ [nxt])
    ∧ es.length + pr.length + 1 = order

/-- An internal node's fields, with its children's addresses. -/
structure NodeRep (order : Nat) (nd : Node) (par : Option NodeId)
    (ks : List U64) (cids : List NodeId) : Prop where
  isLeaf : nd.isLeaf = false
  parent : nd.parent = par
  numKeys : nd.numKeys = ks.length
  fan : cids.length = ks.length + 1
  keys : ∃ kr, nd.keys = ks ++ kr ∧ ks.length + kr.length = order - 1
  pointers : ∃ pr, nd.pointers = cids.map Ptr.node ++ pr
    ∧ cids.length + pr.length = order

/-- Where the leaf chain enters a list of subtrees. -/
def headPtr {T : Type} (first : T → NodeId) (nxt : Ptr) : List T → Ptr
  | [] => nxt
  | c :: _ => .node (first c)

/-- A list of subtrees, each chained to the next and the last to
`nxt`. -/
def Kids {T : Type} (R : T → Ptr → Prop) (first : T → NodeId) (nxt : Ptr) :
    List T → Prop
  | [] => True
  | c :: cs => R c (headPtr first nxt cs) ∧ Kids R first nxt cs

/-- Memory holds the tree. -/
def Rep (order : Nat) (m : NodeId → Node) :
    (d : Nat) → Tree d → Option NodeId → Ptr → Prop
  | 0, t, par, nxt => LeafRep order (m (Leaf.id t)) par (Leaf.es t) nxt
  | d + 1, t, par, nxt =>
      NodeRep order (m (Branch.id t)) par (Branch.ks t)
          ((Branch.cs t).map (tid d))
        ∧ Kids (fun c n => Rep order m d c (some (Branch.id t)) n)
            (firstLeaf d) nxt (Branch.cs t)

-- ============================================================ the kids

section Kids

variable {T : Type} {R R' : T → Ptr → Prop} {first : T → NodeId} {nxt : Ptr}

/-- The pointer that precedes a row of trees, when the row is cut in two. -/
theorem headPtr_append (cs ds : List T) :
    headPtr first nxt (cs ++ ds) = headPtr first (headPtr first nxt ds) cs := by
  cases cs <;> rfl

/-- A row of trees, cut in two: the first part leads on to the second. -/
theorem kids_append {cs ds : List T} :
    Kids R first nxt (cs ++ ds)
      ↔ Kids R first (headPtr first nxt ds) cs ∧ Kids R first nxt ds := by
  induction cs with
  | nil => simp [Kids]
  | cons c cs ih =>
      simp only [List.cons_append, Kids, ih, headPtr_append]
      exact and_assoc.symm

/-- What holds of each tree of a row may be weakened. -/
theorem Kids.imp {cs : List T} (h : Kids R first nxt cs)
    (hR : ∀ c ∈ cs, ∀ n, R c n → R' c n) : Kids R' first nxt cs := by
  induction cs with
  | nil => trivial
  | cons c cs ih =>
      exact ⟨hR c (List.mem_cons_self ..) _ h.1,
        ih h.2 fun c hc => hR c (List.mem_cons_of_mem _ hc)⟩

/-- Each tree of a row is followed by something. -/
theorem Kids.mem {cs : List T} (h : Kids R first nxt cs) {c : T}
    (hc : c ∈ cs) : ∃ n, R c n := by
  induction cs with
  | nil => cases hc
  | cons b cs ih =>
      rcases List.mem_cons.mp hc with rfl | hc
      · exact ⟨_, h.1⟩
      · exact ih h.2 hc

/-- The children list seen from one child. -/
theorem kids_focus {cs ds : List T} {c : T} :
    Kids R first nxt (cs ++ c :: ds)
      ↔ Kids R first (.node (first c)) cs
        ∧ R c (headPtr first nxt ds) ∧ Kids R first nxt ds := by
  rw [kids_append]
  rfl

/-- The children list seen from two adjacent children. -/
theorem kids_focus₂ {cs ds : List T} {b c : T} :
    Kids R first nxt (cs ++ b :: c :: ds)
      ↔ Kids R first (.node (first b)) cs ∧ R b (.node (first c))
        ∧ R c (headPtr first nxt ds) ∧ Kids R first nxt ds := by
  rw [kids_append]
  rfl

end Kids

-- ========================================================= the frame

variable {order : Nat} {m m' : NodeId → Node}

/-- A subtree's representation reads only its own nodes. -/
theorem Rep.frame : ∀ {d : Nat} {t : Tree d} {par : Option NodeId} {nxt : Ptr},
    Rep order m d t par nxt → (∀ i ∈ ids d t, m' i = m i) →
    Rep order m' d t par nxt := by
  intro d
  induction d with
  | zero =>
      intro t par nxt h hm
      unfold Rep at h ⊢
      rw [hm (Leaf.id t) (List.mem_singleton.mpr rfl)]
      exact h
  | succ d ih =>
      intro t par nxt h hm
      obtain ⟨hn, hk⟩ := h
      refine ⟨?_, hk.imp fun c hc n hR => ih hR fun i hi => ?_⟩
      · rw [hm (Branch.id t) (List.mem_cons_self ..)]
        exact hn
      · exact hm i (List.mem_cons_of_mem _ (List.mem_flatMap.mpr ⟨c, hc, hi⟩))

theorem LeafRep.reparent {nd : Node} {par : Option NodeId}
    {es : List (U64 × RecId)} {nxt : Ptr} (h : LeafRep order nd par es nxt)
    (p : Option NodeId) : LeafRep order { nd with parent := p } p es nxt :=
  ⟨h.isLeaf, rfl, h.numKeys, h.keys, h.pointers⟩

/-- An inner node may be given another parent. -/
theorem NodeRep.reparent {nd : Node} {par : Option NodeId} {ks : List U64}
    {cids : List NodeId} (h : NodeRep order nd par ks cids)
    (p : Option NodeId) : NodeRep order { nd with parent := p } p ks cids :=
  ⟨h.isLeaf, rfl, h.numKeys, h.fan, h.keys, h.pointers⟩

/-- Writing the root's parent field moves the subtree. -/
theorem Rep.reparent {d : Nat} {t : Tree d} {par p : Option NodeId} {nxt : Ptr}
    (h : Rep order m d t par nxt)
    (hroot : m' (tid d t) = { m (tid d t) with parent := p })
    (hrest : ∀ i ∈ (ids d t).tail, m' i = m i) :
    Rep order m' d t p nxt := by
  cases d with
  | zero =>
      unfold Rep at h ⊢
      rw [show m' (Leaf.id t) = _ from hroot]
      exact h.reparent p
  | succ d =>
      obtain ⟨hn, hk⟩ := h
      refine ⟨?_, hk.imp fun c hc n hR => hR.frame fun i hi => ?_⟩
      · rw [show m' (Branch.id t) = _ from hroot]
        exact hn.reparent p
      · exact hrest i (List.mem_flatMap.mpr ⟨c, hc, hi⟩)

-- ================================================== what a node's word says

/-- The root node's fields that do not depend on its kind. -/
theorem Rep.root {d : Nat} {t : Tree d} {par : Option NodeId} {nxt : Ptr}
    (h : Rep order m d t par nxt) :
    (m (tid d t)).parent = par ∧ (m (tid d t)).numKeys = count d t
      ∧ (m (tid d t)).isLeaf = (match d with | 0 => true | _ + 1 => false) := by
  cases d with
  | zero => exact ⟨h.parent, h.numKeys, h.isLeaf⟩
  | succ d => exact ⟨h.1.parent, h.1.numKeys, h.1.isLeaf⟩

/-- The upper occupancy bound is the block length. -/
theorem Rep.count_le {d : Nat} {t : Tree d} {par : Option NodeId} {nxt : Ptr}
    (h : Rep order m d t par nxt) : count d t ≤ order - 1 := by
  cases d with
  | zero =>
      obtain ⟨kr, -, hlen⟩ := h.keys
      show (Leaf.es t).length ≤ _
      omega
  | succ d =>
      obtain ⟨kr, -, hlen⟩ := h.1.keys
      show (Branch.ks t).length ≤ _
      omega

/-- A tree of depth `d` has more than `d` nodes. -/
theorem Rep.depth_lt {d : Nat} {t : Tree d} {par : Option NodeId} {nxt : Ptr}
    (h : Rep order m d t par nxt) : d < (ids d t).length := by
  induction d generalizing par nxt with
  | zero => exact Nat.one_pos
  | succ d ih =>
      obtain ⟨hn, hk⟩ := h
      match hcs : Branch.cs t with
      | [] =>
          have hfan := hn.fan
          rw [hcs] at hfan
          simp at hfan
      | c :: cs =>
          rw [hcs] at hk
          have hc := ih hk.1
          show d + 1 < (Branch.id t :: (Branch.cs t).flatMap (ids d)).length
          rw [hcs, List.flatMap_cons, List.length_cons, List.length_append]
          omega

end ThesisBench.Btree

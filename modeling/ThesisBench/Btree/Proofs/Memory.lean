/-
What the heap primitives and the slab allocators do, stated so that no
later proof unfolds them.

`Owns h ns` and `OwnsRecs h rs` are the two pools of `Lib/FreeList`
read off a heap: `ns` are the node addresses in use, `rs` the record
addresses in use, and every other carved object is on its free list.
An allocation adds one address to the front and touches no other object
in use; a release takes one away. `Owns` is kept by every write to a
node in use, which is what makes it a frame: a proof about one subtree
carries the addresses of everything else in `ns` and gets them back
unchanged.
-/
import ThesisBench.Btree.Delete
import ThesisBench.Lib.FreeList
import Mathlib.Tactic.NormNum

namespace ThesisBench.Btree

open FreeList

-- ====================================================== the error monad

@[simp] theorem ok_bind {α β : Type} (a : α) (f : α → Except Fault β) :
    (Except.ok a >>= f) = f a := rfl

@[simp] theorem error_bind {α β : Type} (e : Fault) (f : α → Except Fault β) :
    ((Except.error e : Except Fault α) >>= f) = .error e := rfl

@[simp] theorem chk_some {α : Type} (a : α) : chk (some a) = .ok a := rfl

@[simp] theorem asNode_node (n : NodeId) : asNode (.node n) = .ok n := rfl

@[simp] theorem asRecord_record (r : RecId) :
    asRecord (.record r) = .ok (some r) := rfl

@[simp] theorem deref_some (n : NodeId) : deref (some n) = .ok n := rfl

-- ========================================================= heap updates

@[simp] theorem setNode_self (h : Heap) (n : NodeId) (nd : Node) :
    (h.setNode n nd).nodes n = nd := by simp [Heap.setNode]

theorem setNode_other (h : Heap) {n i : NodeId} (nd : Node) (hi : i ≠ n) :
    (h.setNode n nd).nodes i = h.nodes i := by simp [Heap.setNode, hi]

@[simp] theorem setParent_self (h : Heap) (c : NodeId) (p : Option NodeId) :
    (h.setParent c p).nodes c = { h.nodes c with parent := p } := by
  simp [Heap.setParent]

/-- Setting a parent leaves the other nodes alone. -/
theorem setParent_other (h : Heap) {c i : NodeId} (p : Option NodeId)
    (hi : i ≠ c) : (h.setParent c p).nodes i = h.nodes i := by
  simp [Heap.setParent, setNode_other h _ hi]

/-- The record side of the heap and the ghost counter did not move. -/
structure SameRecs (h h' : Heap) : Prop where
  recs : h'.recs = h.recs
  freeRecs : h'.freeRecs = h.freeRecs
  carvedRecs : h'.carvedRecs = h.carvedRecs
  misses : h'.misses = h.misses

theorem SameRecs.refl (h : Heap) : SameRecs h h := ⟨rfl, rfl, rfl, rfl⟩

/-- Records that stay through both halves stay. -/
theorem SameRecs.trans {h₁ h₂ h₃ : Heap} (a : SameRecs h₁ h₂)
    (b : SameRecs h₂ h₃) : SameRecs h₁ h₃ :=
  ⟨b.recs.trans a.recs, b.freeRecs.trans a.freeRecs,
    b.carvedRecs.trans a.carvedRecs, b.misses.trans a.misses⟩

theorem sameRecs_setNode (h : Heap) (n : NodeId) (nd : Node) :
    SameRecs h (h.setNode n nd) := ⟨rfl, rfl, rfl, rfl⟩

theorem sameRecs_setParent (h : Heap) (c : NodeId) (p : Option NodeId) :
    SameRecs h (h.setParent c p) := ⟨rfl, rfl, rfl, rfl⟩

/-- Two heaps agree on the nodes in a list. -/
def Agree (h h' : Heap) (ns : List NodeId) : Prop :=
  ∀ i ∈ ns, h'.nodes i = h.nodes i

theorem Agree.refl (h : Heap) (ns : List NodeId) : Agree h h ns :=
  fun _ _ => rfl

theorem Agree.trans {h₁ h₂ h₃ : Heap} {ns : List NodeId}
    (a : Agree h₁ h₂ ns) (b : Agree h₂ h₃ ns) : Agree h₁ h₃ ns :=
  fun i hi => (b i hi).trans (a i hi)

theorem Agree.mono {h h' : Heap} {ns ms : List NodeId} (a : Agree h h' ns)
    (hsub : ∀ i ∈ ms, i ∈ ns) : Agree h h' ms :=
  fun i hi => a i (hsub i hi)

/-- A write agrees with what was there on all other nodes. -/
theorem agree_setNode (h : Heap) {n : NodeId} (nd : Node) {ns : List NodeId}
    (hn : n ∉ ns) : Agree h (h.setNode n nd) ns :=
  fun _ hi => setNode_other h nd fun he => hn (he ▸ hi)

/-- Setting a parent agrees with what was there on all other nodes. -/
theorem agree_setParent (h : Heap) {c : NodeId} (p : Option NodeId)
    {ns : List NodeId} (hc : c ∉ ns) : Agree h (h.setParent c p) ns :=
  agree_setNode h _ hc

-- ====================================================== node ownership

/-- `ns` are the nodes in use; the other carved nodes are free. -/
def Owns (h : Heap) (ns : List NodeId) : Prop :=
  Pool (fun i => (h.nodes i).next) h.freeNodes h.carvedNodes ns

theorem owns_empty : Owns Heap.empty [] := Pool.nil _

/-- The order of the owned nodes does not matter. -/
theorem Owns.perm {h : Heap} {ns ms : List NodeId} (o : Owns h ns)
    (hp : ms.Perm ns) : Owns h ms := Pool.perm o hp

theorem Owns.nodup {h : Heap} {ns : List NodeId} (o : Owns h ns) :
    ns.Nodup := Pool.nodup o

/-- No more nodes are owned than were ever carved. -/
theorem Owns.length_le {h : Heap} {ns : List NodeId} (o : Owns h ns) :
    ns.length ≤ h.carvedNodes := Pool.length_le o

/-- Writing to a node in use. -/
theorem Owns.setNode {h : Heap} {ns : List NodeId} (o : Owns h ns)
    {n : NodeId} (hn : n ∈ ns) (nd : Node) : Owns (h.setNode n nd) ns := by
  refine Pool.congr o fun i _ hi => ?_
  have hne : i ≠ n := fun he => hi (he ▸ hn)
  rw [setNode_other h nd hne]

/-- Setting the parent of an owned node keeps the books. -/
theorem Owns.setParent {h : Heap} {ns : List NodeId} (o : Owns h ns)
    {c : NodeId} (hc : c ∈ ns) (p : Option NodeId) :
    Owns (h.setParent c p) ns := o.setNode hc _

/-- The record side does not enter node ownership. -/
theorem Owns.of_nodes {h h' : Heap} {ns : List NodeId} (o : Owns h ns)
    (hn : h'.nodes = h.nodes) (hf : h'.freeNodes = h.freeNodes)
    (hc : h'.carvedNodes = h.carvedNodes) : Owns h' ns := by
  unfold Owns
  rw [hn, hf, hc]
  exact o

theorem nodesPerSlab_ne_zero : nodesPerSlab ≠ 0 := by
  norm_num [nodesPerSlab]

theorem recsPerSlab_ne_zero : recsPerSlab ≠ 0 := by
  norm_num [recsPerSlab]

/-- Carving a slab puts fresh nodes on the free list and touches nothing
that is owned. -/
theorem Owns.carveNodes {ns : List NodeId} (k : Nat) :
    ∀ {h : Heap}, Owns h ns →
      Owns (carveNodes k h) ns ∧ Agree h (Btree.carveNodes k h) ns
        ∧ SameRecs h (Btree.carveNodes k h)
        ∧ ((Btree.carveNodes k h).freeNodes = none → k = 0)
        ∧ h.carvedNodes ≤ (Btree.carveNodes k h).carvedNodes := by
  induction k with
  | zero =>
      intro h o
      exact ⟨o, Agree.refl _ _, SameRecs.refl _, fun _ => rfl, Nat.le_refl _⟩
  | succ k ih =>
      intro h o
      have hnot : h.carvedNodes ∉ ns := fun hm => Nat.lt_irrefl _ (Pool.lt o hm)
      have o' : Owns { h.setNode h.carvedNodes
            { h.nodes h.carvedNodes with next := h.freeNodes } with
          freeNodes := some h.carvedNodes
          carvedNodes := h.carvedNodes + 1 } ns := by
        refine Pool.carve o ?_ ?_
        · simp
        · intro i hi
          show ((h.setNode _ _).nodes i).next = _
          rw [setNode_other h _ hi]
      obtain ⟨h₁, h₂, h₃, h₄, h₅⟩ := ih o'
      refine ⟨h₁, ?_, ?_, ?_, ?_⟩
      · exact Agree.trans (agree_setNode h _ hnot) h₂
      · exact ⟨h₃.recs, h₃.freeRecs, h₃.carvedRecs, h₃.misses⟩
      · intro hnone
        have hk := h₄ hnone
        subst hk
        simp [Btree.carveNodes] at hnone
      · exact Nat.le_trans (Nat.le_succ _) h₅

/-- Popping a free list that is not empty. -/
theorem popNode_spec {g : Heap} {ns : List NodeId} (o : Owns g ns)
    (hne : g.freeNodes ≠ none) :
    ∃ n h', popNode g = .ok (n, h') ∧ Owns h' (n :: ns)
      ∧ h'.nodes = g.nodes ∧ SameRecs g h'
      ∧ h'.carvedNodes = g.carvedNodes := by
  unfold popNode
  cases hf : g.freeNodes with
  | none => exact absurd hf hne
  | some n =>
      have o' : Pool (fun i => (g.nodes i).next) (some n) g.carvedNodes ns := by
        rw [← hf]
        exact o
      exact ⟨n, _, rfl, Pool.pop o', rfl, ⟨rfl, rfl, rfl, rfl⟩, rfl⟩

/-- `alloc_node` hands out a node that nobody uses. -/
theorem allocNode_spec {h : Heap} {ns : List NodeId} (o : Owns h ns) :
    ∃ n h', allocNode h = .ok (n, h') ∧ Owns h' (n :: ns) ∧ Agree h h' ns
      ∧ SameRecs h h' ∧ h.carvedNodes ≤ h'.carvedNodes := by
  unfold allocNode
  cases hf : h.freeNodes with
  | some n =>
      obtain ⟨m, h', hrun, o', hn, hr, hc⟩ :=
        popNode_spec o (by rw [hf]; exact Option.some_ne_none n)
      exact ⟨m, h', hrun, o', fun i _ => by rw [hn], hr, Nat.le_of_eq hc.symm⟩
  | none =>
      obtain ⟨oc, ha, hrc, hne, hle⟩ := Owns.carveNodes nodesPerSlab o
      have hne' : (carveNodes nodesPerSlab h).freeNodes ≠ none := by
        intro h0
        exact absurd (hne h0) nodesPerSlab_ne_zero
      obtain ⟨m, h', hrun, o', hn, hr, hc⟩ := popNode_spec oc hne'
      exact ⟨m, h', hrun, o', fun i hi => by rw [hn]; exact ha i hi,
        hrc.trans hr, Nat.le_trans hle (Nat.le_of_eq hc.symm)⟩

/-- `make_node` hands out a zeroed internal node. -/
theorem makeNode_spec (order : Nat) {h : Heap} {ns : List NodeId}
    (o : Owns h ns) :
    ∃ n h', makeNode order h = .ok (n, h') ∧ Owns h' (n :: ns)
      ∧ Agree h h' ns ∧ h'.nodes n = blankNode order false
      ∧ SameRecs h h' ∧ h.carvedNodes ≤ h'.carvedNodes := by
  obtain ⟨n, h', hrun, o', ha, hr, hle⟩ := allocNode_spec o
  have hn : n ∉ ns := (List.nodup_cons.mp o'.nodup).1
  refine ⟨n, h'.setNode n (blankNode order false), ?_,
    o'.setNode (List.mem_cons_self ..) _, ha.trans (agree_setNode h' _ hn),
    setNode_self .., hr.trans (sameRecs_setNode ..), hle⟩
  simp [makeNode, hrun]

/-- `make_leaf` hands out a zeroed leaf. -/
theorem makeLeaf_spec (order : Nat) {h : Heap} {ns : List NodeId}
    (o : Owns h ns) :
    ∃ n h', makeLeaf order h = .ok (n, h') ∧ Owns h' (n :: ns)
      ∧ Agree h h' ns ∧ h'.nodes n = blankNode order true
      ∧ SameRecs h h' ∧ h.carvedNodes ≤ h'.carvedNodes := by
  obtain ⟨n, h', hrun, o', ha, hblank, hr, hle⟩ := makeNode_spec order o
  have hn : n ∉ ns := (List.nodup_cons.mp o'.nodup).1
  refine ⟨n, h'.setNode n { h'.nodes n with isLeaf := true }, ?_,
    o'.setNode (List.mem_cons_self ..) _, ha.trans (agree_setNode h' _ hn),
    ?_, hr.trans (sameRecs_setNode ..), hle⟩
  · simp [makeLeaf, hrun]
  · rw [setNode_self, hblank]
    rfl

/-- `free_node` returns one node to the pool. -/
theorem freeNode_spec {h : Heap} {n : NodeId} {ns : List NodeId}
    (o : Owns h (n :: ns)) :
    Owns (freeNode h n) ns ∧ Agree h (freeNode h n) ns
      ∧ SameRecs h (freeNode h n) := by
  have hn : n ∉ ns := (List.nodup_cons.mp o.nodup).1
  refine ⟨Pool.push o ?_ ?_, agree_setNode h _ hn, ⟨rfl, rfl, rfl, rfl⟩⟩
  · simp [freeNode]
  · intro i hi
    show ((h.setNode _ _).nodes i).next = _
    rw [setNode_other h _ hi]

-- ==================================================== record ownership

/-- `rs` are the records in use; the other carved records are free. -/
def OwnsRecs (h : Heap) (rs : List RecId) : Prop :=
  Pool (fun i => (h.recs i).link) h.freeRecs h.carvedRecs rs

theorem ownsRecs_empty : OwnsRecs Heap.empty [] := Pool.nil _

/-- The order of the owned records does not matter. -/
theorem OwnsRecs.perm {h : Heap} {rs qs : List RecId} (o : OwnsRecs h rs)
    (hp : qs.Perm rs) : OwnsRecs h qs := Pool.perm o hp

theorem OwnsRecs.nodup {h : Heap} {rs : List RecId} (o : OwnsRecs h rs) :
    rs.Nodup := Pool.nodup o

/-- The node side does not enter record ownership. -/
theorem OwnsRecs.same {h h' : Heap} {rs : List RecId} (o : OwnsRecs h rs)
    (hs : SameRecs h h') : OwnsRecs h' rs := by
  unfold OwnsRecs
  rw [hs.recs, hs.freeRecs, hs.carvedRecs]
  exact o

/-- Writing to a record in use. -/
theorem OwnsRecs.setRec {h : Heap} {rs : List RecId} (o : OwnsRecs h rs)
    {r : RecId} (hr : r ∈ rs) (rc : Record) :
    OwnsRecs (h.setRec r rc) rs := by
  refine Pool.congr o fun i _ hi => ?_
  have hne : i ≠ r := fun he => hi (he ▸ hr)
  simp [Heap.setRec, hne]

/-- The node side and the ghost counter did not move. -/
structure SameNodes (h h' : Heap) : Prop where
  nodes : h'.nodes = h.nodes
  freeNodes : h'.freeNodes = h.freeNodes
  carvedNodes : h'.carvedNodes = h.carvedNodes
  misses : h'.misses = h.misses

theorem SameNodes.refl (h : Heap) : SameNodes h h := ⟨rfl, rfl, rfl, rfl⟩

/-- Owning nodes is a matter of the nodes alone. -/
theorem Owns.same {h h' : Heap} {ns : List NodeId} (o : Owns h ns)
    (hs : SameNodes h h') : Owns h' ns :=
  o.of_nodes hs.nodes hs.freeNodes hs.carvedNodes

/-- Carving a slab puts fresh records on the free list and touches nothing
that is owned. -/
theorem OwnsRecs.carveRecs {rs : List RecId} (k : Nat) :
    ∀ {h : Heap}, OwnsRecs h rs →
      OwnsRecs (carveRecs k h) rs
        ∧ (∀ r ∈ rs, (Btree.carveRecs k h).recs r = h.recs r)
        ∧ SameNodes h (Btree.carveRecs k h)
        ∧ ((Btree.carveRecs k h).freeRecs = none → k = 0) := by
  induction k with
  | zero =>
      intro h o
      exact ⟨o, fun _ _ => rfl, SameNodes.refl _, fun _ => rfl⟩
  | succ k ih =>
      intro h o
      have o' : OwnsRecs { h.setRec h.carvedRecs (.next h.freeRecs) with
          freeRecs := some h.carvedRecs
          carvedRecs := h.carvedRecs + 1 } rs := by
        refine Pool.carve o ?_ ?_
        · simp [Heap.setRec, Record.link]
        · intro i hi
          simp [Heap.setRec, hi]
      obtain ⟨h₁, h₂, h₃, h₄⟩ := ih o'
      refine ⟨h₁, ?_, ⟨h₃.nodes, h₃.freeNodes, h₃.carvedNodes, h₃.misses⟩, ?_⟩
      · intro r hr
        have hne : r ≠ h.carvedRecs := fun he =>
          Nat.lt_irrefl _ (he ▸ Pool.lt o hr)
        exact (h₂ r hr).trans (by simp [Heap.setRec, hne])
      · intro hnone
        have hk := h₄ hnone
        subst hk
        simp [Btree.carveRecs] at hnone

/-- Popping a free list that is not empty. -/
theorem popRec_spec {g : Heap} {rs : List RecId} (o : OwnsRecs g rs)
    (hne : g.freeRecs ≠ none) :
    ∃ r h', popRec g = .ok (r, h') ∧ OwnsRecs h' (r :: rs)
      ∧ h'.recs = g.recs ∧ SameNodes g h' := by
  unfold popRec
  cases hf : g.freeRecs with
  | none => exact absurd hf hne
  | some r =>
      have o' : Pool (fun i => (g.recs i).link) (some r) g.carvedRecs rs := by
        rw [← hf]
        exact o
      exact ⟨r, _, rfl, Pool.pop o', rfl, ⟨rfl, rfl, rfl, rfl⟩⟩

/-- `alloc_record` hands out a record that nobody uses. -/
theorem allocRecord_spec {h : Heap} {rs : List RecId} (o : OwnsRecs h rs) :
    ∃ r h', allocRecord h = .ok (r, h') ∧ OwnsRecs h' (r :: rs)
      ∧ (∀ q ∈ rs, h'.recs q = h.recs q) ∧ SameNodes h h' := by
  unfold allocRecord
  cases hf : h.freeRecs with
  | some r =>
      obtain ⟨m, h', hrun, o', hr, hs⟩ :=
        popRec_spec o (by rw [hf]; exact Option.some_ne_none r)
      exact ⟨m, h', hrun, o', fun q _ => by rw [hr], hs⟩
  | none =>
      obtain ⟨oc, ha, hsc, hne⟩ := OwnsRecs.carveRecs recsPerSlab o
      have hne' : (carveRecs recsPerSlab h).freeRecs ≠ none := by
        intro h0
        exact absurd (hne h0) recsPerSlab_ne_zero
      obtain ⟨m, h', hrun, o', hr, hs⟩ := popRec_spec oc hne'
      exact ⟨m, h', hrun, o', fun q hq => by rw [hr]; exact ha q hq,
        ⟨hs.nodes.trans hsc.nodes, hs.freeNodes.trans hsc.freeNodes,
          hs.carvedNodes.trans hsc.carvedNodes, hs.misses.trans hsc.misses⟩⟩

/-- `make_record` hands out a record that nobody uses, holding the
value. -/
theorem makeRecord_spec {h : Heap} {rs : List RecId} (o : OwnsRecs h rs)
    (value : U64) :
    ∃ r h', makeRecord h value = .ok (r, h') ∧ OwnsRecs h' (r :: rs)
      ∧ (∀ q ∈ rs, h'.recs q = h.recs q) ∧ h'.recs r = .value value
      ∧ SameNodes h h' := by
  obtain ⟨r, h', hrun, o', ha, hs⟩ := allocRecord_spec o
  have hr : r ∉ rs := (List.nodup_cons.mp o'.nodup).1
  refine ⟨r, h'.setRec r (.value value), ?_, o'.setRec (List.mem_cons_self ..) _,
    ?_, by simp [Heap.setRec],
    ⟨hs.nodes, hs.freeNodes, hs.carvedNodes, hs.misses⟩⟩
  · simp [makeRecord, hrun]
  · intro q hq
    have hne : q ≠ r := fun he => hr (he ▸ hq)
    rw [← ha q hq]
    simp [Heap.setRec, hne]

/-- `free_record` returns one record to the pool. -/
theorem freeRecord_spec {h : Heap} {r : RecId} {rs : List RecId}
    (o : OwnsRecs h (r :: rs)) :
    OwnsRecs (freeRecord h r) rs
      ∧ (∀ q ∈ rs, (freeRecord h r).recs q = h.recs q)
      ∧ SameNodes h (freeRecord h r) := by
  have hr : r ∉ rs := (List.nodup_cons.mp o.nodup).1
  refine ⟨Pool.push o ?_ ?_, ?_, ⟨rfl, rfl, rfl, rfl⟩⟩
  · simp [freeRecord, Heap.setRec, Record.link]
  · intro i hi
    simp [freeRecord, Heap.setRec, hi]
  · intro q hq
    have hne : q ≠ r := fun he => hr (he ▸ hq)
    simp [freeRecord, Heap.setRec, hne]

end ThesisBench.Btree

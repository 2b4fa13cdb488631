/-
What `bulk_load` builds.

# Levels as forests

Between two rounds of the outer loop memory holds a forest: the trees
of one level, side by side, without parents, their leaves in one chain.
The leaf loop builds the forest of depth 0, and each round of
`bulkParents` turns a forest of depth `d` into one of depth `d + 1`
with the same leaves, taking `order` trees at a time from the left.

# Order

The separator of a child is the first key below it, so the flat reading
of every tree is its leaves' entries glued by first keys
(`SepList.glue`), whatever the shape above them.

# Occupancy

Every node but the last of a level is full. The last parent has a
single child, and no key, exactly when the level below has one node
more than a multiple of `order`.
-/
import ThesisBench.Btree.BulkLoad
import ThesisBench.Btree.Proofs.Ops
import ThesisBench.Lib.Chunk

namespace ThesisBench.Btree

open CArray SepList Chunk

variable {order : Nat}

-- ========================================================= heap algebra

/-- Writing back what is there changes nothing. -/
theorem setNode_eta (h : Heap) (n : NodeId) : h.setNode n (h.nodes n) = h := by
  unfold Heap.setNode
  have hn : (fun i => if i = n then h.nodes n else h.nodes i) = h.nodes := by
    funext i
    split
    · next hi => rw [hi]
    · rfl
  rw [hn]

/-- The later of two writes to a node wins. -/
theorem setNode_setNode (h : Heap) (n : NodeId) (a b : Node) :
    (h.setNode n a).setNode n b = h.setNode n b := by
  unfold Heap.setNode
  congr 1
  funext i
  by_cases hi : i = n
  · simp [hi]
  · simp [hi]

-- =========================================================== one leaf

/-- The filling loop appends entries to a leaf's two blocks. -/
theorem fillLeaf_spec (leaf : NodeId) (nxt : Ptr) :
    ∀ (room : Nat) (h : Heap) (done es : List (U64 × RecId)) (kr : List U64)
      (pr : List Ptr),
      (h.nodes leaf).keys = done.map Prod.fst ++ kr →
      (h.nodes leaf).pointers
        = done.map (fun e => Ptr.record e.2) ++ (pr ++ [nxt]) →
      kr.length = room → pr.length = room →
      ∃ kr' pr', fillLeaf leaf room h done.length es
          = .ok ((done ++ es.take room).length, es.drop room, h.setNode leaf
            { h.nodes leaf with
              keys := (done ++ es.take room).map Prod.fst ++ kr'
              pointers := (done ++ es.take room).map (fun e => Ptr.record e.2)
                ++ (pr' ++ [nxt]) })
        ∧ (es.take room).length + kr'.length = room
        ∧ (es.take room).length + pr'.length = room := by
  intro room
  induction room with
  | zero =>
      intro h done es kr pr hk hp hkr hpr
      refine ⟨kr, pr, ?_, by simpa using hkr, by simpa using hpr⟩
      simp only [fillLeaf, List.take_zero, List.append_nil, List.drop_zero]
      rw [← hk, ← hp, setNode_eta]
  | succ room ih =>
      intro h done es kr pr hk hp hkr hpr
      cases es with
      | nil =>
          refine ⟨kr, pr, ?_, by simpa using hkr, by simpa using hpr⟩
          simp only [fillLeaf, List.take_nil, List.append_nil, List.drop_nil]
          rw [← hk, ← hp, setNode_eta]
      | cons e es =>
          obtain ⟨kz, kr, rfl, hkr'⟩ := exists_cons_of_length hkr
          obtain ⟨pz, pr, rfl, hpr'⟩ := exists_cons_of_length hpr
          have hputk : put (h.nodes leaf).keys done.length e.1
              = some (done.map Prod.fst ++ e.1 :: kr) := by
            rw [hk]
            exact put_seam _ _ _ _ (by simp)
          have hputp : put (h.nodes leaf).pointers done.length (.record e.2)
              = some (done.map (fun e => Ptr.record e.2)
                ++ .record e.2 :: (pr ++ [nxt])) := by
            rw [hp]
            exact put_seam _ _ _ _ (by simp)
          generalize hg : h.setNode leaf { h.nodes leaf with
              keys := done.map Prod.fst ++ e.1 :: kr
              pointers := done.map (fun e => Ptr.record e.2)
                ++ .record e.2 :: (pr ++ [nxt]) } = g
          have hgl : g.nodes leaf = { h.nodes leaf with
              keys := done.map Prod.fst ++ e.1 :: kr
              pointers := done.map (fun e => Ptr.record e.2)
                ++ .record e.2 :: (pr ++ [nxt]) } := by
            rw [← hg, setNode_self]
          obtain ⟨kr', pr', hrun, hkl, hpl⟩ := ih g (done ++ [e]) es kr pr
            (by rw [hgl]; simp) (by rw [hgl]; simp) hkr' hpr'
          refine ⟨kr', pr', ?_, ?_, ?_⟩
          · rw [List.length_append, List.length_singleton] at hrun
            simp only [fillLeaf, hputk, hputp, chk_some, ok_bind, hg, hrun]
            rw [hgl, ← hg, setNode_setNode]
            simp
          · rw [List.take_succ_cons, List.length_cons]
            omega
          · rw [List.take_succ_cons, List.length_cons]
            omega

/-- Relinking a leaf. -/
theorem setChain_spec {h : Heap} {leaf : NodeId} {par : Option NodeId}
    {es : List (U64 × RecId)} {nxt : Ptr}
    (hl : LeafRep order (h.nodes leaf) par es nxt) (p : Ptr) :
    ∃ nd, setChain order h leaf p = .ok (h.setNode leaf nd)
      ∧ LeafRep order nd par es p := by
  obtain ⟨pr, hp, hpl⟩ := hl.pointers
  have hput : put (h.nodes leaf).pointers (order - 1) p
      = some (es.map (fun e => Ptr.record e.2) ++ (pr ++ [p])) := by
    rw [hp, ← List.append_assoc, put_seam _ _ _ _ (by simp; omega)]
    simp
  refine ⟨{ h.nodes leaf with
      pointers := es.map (fun e => Ptr.record e.2) ++ (pr ++ [p]) }, ?_,
    hl.isLeaf, hl.parent, hl.numKeys, hl.keys, ⟨pr, rfl, hpl⟩⟩
  simp only [setChain, hput, chk_some, ok_bind]

/-- One leaf of the leaf loop, before it is linked. -/
theorem newLeaf_spec (horder : 3 ≤ order) {h : Heap} {ns : List NodeId}
    (o : Owns h ns) (es : List (U64 × RecId)) :
    ∃ leaf h₁ h', makeLeaf order h = .ok (leaf, h₁)
      ∧ fillLeaf leaf (order - 1) h₁ 0 es
          = .ok ((es.take (order - 1)).length, es.drop (order - 1), h')
      ∧ LeafRep order { h'.nodes leaf with
            numKeys := (es.take (order - 1)).length } none
          (es.take (order - 1)) .null
      ∧ Owns h' (leaf :: ns) ∧ Agree h h' ns ∧ SameRecs h h' := by
  obtain ⟨leaf, h₁, hmk, o₁, ha, hblank, hs, -⟩ := makeLeaf_spec order o
  have hn : leaf ∉ ns := (List.nodup_cons.mp o₁.nodup).1
  obtain ⟨kr', pr', hrun, hkl, hpl⟩ := fillLeaf_spec leaf .null (order - 1) h₁
    [] es (List.replicate (order - 1) 0) (List.replicate (order - 1) .null)
    (by rw [hblank]; rfl)
    (by
      rw [hblank]
      show List.replicate order Ptr.null = _
      rw [← List.replicate_succ']
      congr 1
      omega)
    (by simp) (by simp)
  rw [List.nil_append] at hrun
  refine ⟨leaf, h₁, _, hmk, hrun, ?_, o₁.setNode (List.mem_cons_self ..) _,
    ha.trans (agree_setNode _ _ hn), hs.trans (sameRecs_setNode ..)⟩
  rw [setNode_self, hblank]
  refine ⟨rfl, rfl, rfl, ⟨kr', rfl, hkl⟩, ⟨pr', rfl, ?_⟩⟩
  omega

-- ========================================================== the leaves

/-- The leaf before the ones being built, if there is one. -/
def TailRep (order : Nat) (h : Heap) : Option Leaf → Ptr → Prop
  | none, _ => True
  | some l, nxt => LeafRep order (h.nodes l.id) none l.es nxt

/-- Linking a new leaf behind the previous one touches nothing but that
one's last pointer. -/
theorem linkLeaf_spec {h : Heap} {prev : Option Leaf} {nxt : Ptr}
    (hp : TailRep order h prev nxt) {leaf : NodeId} {O : List NodeId}
    (o : Owns h (leaf :: ((prev.map Leaf.id).toList ++ O))) :
    ∃ h', linkLeaf order h leaf (prev.map Leaf.id) = .ok h'
      ∧ TailRep order h' prev (.node leaf)
      ∧ Owns h' (leaf :: ((prev.map Leaf.id).toList ++ O))
      ∧ Agree h h' (leaf :: O) ∧ SameRecs h h' := by
  cases prev with
  | none => exact ⟨h, rfl, trivial, o, Agree.refl _ _, SameRecs.refl _⟩
  | some l =>
      obtain ⟨nd, hrun, hnd⟩ := setChain_spec (h := h) hp (.node leaf)
      have hnot : l.id ∉ leaf :: O := by
        have hnd := o.nodup
        simp only [Option.map_some, Option.toList_some, List.singleton_append,
          List.nodup_cons, List.mem_cons, not_or] at hnd ⊢
        exact ⟨fun he => hnd.1.1 he.symm, hnd.2.1⟩
      refine ⟨h.setNode l.id nd, hrun, ?_, o.setNode (by simp) _,
        agree_setNode h nd hnot, sameRecs_setNode ..⟩
      show LeafRep order ((h.setNode l.id nd).nodes l.id) none l.es _
      rw [setNode_self]
      exact hnd

/-- The leaves the loop makes hold the sorted pairs in order, `order - 1`
to a leaf, and are chained behind the leaf before them. -/
theorem bulkLeaves_spec (horder : 3 ≤ order) : ∀ (k : Nat) (h : Heap)
    (prev : Option Leaf) (es : List (U64 × RecId)) (O : List NodeId),
    TailRep order h prev .null →
    Owns h ((prev.map Leaf.id).toList ++ O) →
    ∃ (ls : List Leaf) (h' : Heap),
      bulkLeaves order k h (prev.map Leaf.id) es = .ok (ls.map Leaf.id, h')
      ∧ Kids (fun c n => Rep order h'.nodes 0 c none n) (firstLeaf 0) .null ls
      ∧ TailRep order h' prev (headPtr (firstLeaf 0) .null ls)
      ∧ ls.map Leaf.es = chunk (order - 1) k es
      ∧ Owns h' (ls.map Leaf.id ++ ((prev.map Leaf.id).toList ++ O))
      ∧ Agree h h' O ∧ SameRecs h h' := by
  intro k
  induction k with
  | zero =>
      intro h prev es O hp o
      exact ⟨[], h, rfl, trivial, hp, rfl, o, Agree.refl _ _, SameRecs.refl _⟩
  | succ k ih =>
      intro h prev es O hp o
      obtain ⟨leaf, h₁, h₂, hmk, hfill, hrep, o₂, ha₂, hs₂⟩ :=
        newLeaf_spec horder o es
      generalize hc : es.take (order - 1) = fs at hfill hrep
      generalize hg₃ : h₂.setNode leaf { h₂.nodes leaf with
        numKeys := fs.length } = h₃
      have hleaf₃ : LeafRep order (h₃.nodes leaf) none fs .null := by
        rw [← hg₃, setNode_self]
        exact hrep
      have o₃ : Owns h₃ (leaf :: ((prev.map Leaf.id).toList ++ O)) := by
        rw [← hg₃]
        exact o₂.setNode (List.mem_cons_self ..) _
      have hnot := (List.nodup_cons.mp o₂.nodup).1
      have ha₃ : Agree h h₃ ((prev.map Leaf.id).toList ++ O) := by
        rw [← hg₃]
        exact ha₂.trans (agree_setNode _ _ hnot)
      have hs₃ : SameRecs h h₃ := by
        rw [← hg₃]
        exact hs₂.trans (sameRecs_setNode ..)
      have hp₃ : TailRep order h₃ prev .null := by
        cases prev with
        | none => trivial
        | some l =>
            show LeafRep order (h₃.nodes l.id) none l.es .null
            rw [ha₃ l.id (by simp)]
            exact hp
      obtain ⟨h₄, hlink, hp₄, o₄, ha₄, hs₄⟩ := linkLeaf_spec hp₃ o₃
      have hleaf₄ : TailRep order h₄ (some ⟨leaf, fs⟩) .null := by
        show LeafRep order (h₄.nodes leaf) none fs .null
        rw [ha₄ leaf (List.mem_cons_self ..)]
        exact hleaf₃
      obtain ⟨ls, h', hrun, hkids, htail, hcut, o', ha', hs'⟩ :=
        ih h₄ (some ⟨leaf, fs⟩) (es.drop (order - 1))
          ((prev.map Leaf.id).toList ++ O) hleaf₄ o₄
      refine ⟨⟨leaf, fs⟩ :: ls, h', ?_, ⟨htail, hkids⟩, ?_, ?_, ?_, ?_, ?_⟩
      · have hrun' : bulkLeaves order k h₄ (some leaf) (es.drop (order - 1))
            = .ok (ls.map Leaf.id, h') := hrun
        simp only [bulkLeaves, hmk, ok_bind, hfill, hg₃, hlink, hrun',
          List.map_cons]
      · cases prev with
        | none => trivial
        | some l =>
            show LeafRep order (h'.nodes l.id) none l.es (.node leaf)
            rw [ha' l.id (by simp)]
            exact hp₄
      · rw [List.map_cons, hcut, ← hc]
        rfl
      · refine o'.perm ?_
        rw [List.perm_iff_count]
        intro a
        simp only [List.map_cons, Option.map_some, Option.toList_some,
          List.cons_append, List.nil_append, List.count_cons,
          List.count_append]
        omega
      · have hO : ∀ x ∈ O, x ∈ (prev.map Leaf.id).toList ++ O :=
          fun x hx => List.mem_append_right _ hx
        exact ((ha₃.mono hO).trans (ha₄.mono fun x hx =>
          List.mem_cons_of_mem _ hx)).trans (ha'.mono hO)
      · exact (hs₃.trans hs₄).trans hs'

-- ============================================================ first keys

/-- The entries of the leaves, left to right. -/
def chunks : (d : Nat) → Tree d → List (List (U64 × RecId))
  | 0, t => [Leaf.es t]
  | d + 1, t => (Branch.cs t).flatMap (chunks d)

/-- No leaf is empty and no internal node is childless. -/
def Stocked : (d : Nat) → Tree d → Prop
  | 0, t => Leaf.es t ≠ []
  | d + 1, t => Branch.cs t ≠ [] ∧ ∀ c ∈ Branch.cs t, Stocked d c

/-- The first key of a row of chunks. -/
def headKey : List (List (U64 × RecId)) → U64
  | (e :: _) :: _ => e.1
  | _ => 0

/-- A stocked tree has leaves, and none is empty. -/
theorem Stocked.chunks : ∀ {d : Nat} {t : Tree d}, Stocked d t →
    chunks d t ≠ [] ∧ ∀ c ∈ chunks d t, c ≠ [] := by
  intro d
  induction d with
  | zero =>
      intro t hst
      exact ⟨List.cons_ne_nil _ _, fun c hc => by
        rw [List.mem_singleton.mp hc]; exact hst⟩
  | succ d ih =>
      intro t hst
      refine ⟨fun hnil => ?_, fun c hc => ?_⟩
      · obtain ⟨b, hb⟩ := List.exists_mem_of_ne_nil _ hst.1
        exact (ih (hst.2 b hb)).1 (List.flatMap_eq_nil_iff.mp hnil b hb)
      · obtain ⟨b, hb, hcb⟩ := List.mem_flatMap.mp hc
        exact (ih (hst.2 b hb)).2 c hcb

/-- The descent for a separator finds the first key below a node. -/
theorem leftmostKey_spec {h : Heap} (extra : Nat) : ∀ {d : Nat} {t : Tree d}
    {par : Option NodeId} {nxt : Ptr}, Rep order h.nodes d t par nxt →
    Stocked d t →
    leftmostKey h (d + 1 + extra) (tid d t) = .ok (headKey (chunks d t)) := by
  intro d
  induction d with
  | zero =>
      intro t par nxt hr hst
      obtain ⟨i, es⟩ := t
      have hr' : LeafRep order (h.nodes i) par es nxt := hr
      cases es with
      | nil => exact absurd rfl hst
      | cons e es =>
          obtain ⟨kr, hk, -⟩ := hr'.keys
          show leftmostKey h (0 + 1 + extra) i = .ok e.1
          rw [show 0 + 1 + extra = extra + 1 by omega, leftmostKey,
            if_pos hr'.isLeaf, hk]
          rfl
  | succ d ih =>
      intro t par nxt hr hst
      obtain ⟨i, ks, cs⟩ := t
      obtain ⟨hn, hk⟩ := hr
      obtain ⟨c, cs', rfl, -⟩ := exists_cons_of_length (by simpa using hn.fan)
      obtain ⟨pr, hp, -⟩ := hn.pointers
      have hptr : (h.nodes i).pointers[0]? = some (.node (tid d c)) := by
        rw [show (h.nodes i).pointers = _ from hp]
        rfl
      have hif : ((h.nodes i).isLeaf = true) = False := by
        simp [show (h.nodes i).isLeaf = false from hn.isLeaf]
      have hstc : Stocked d c := hst.2 c (List.mem_cons_self ..)
      have hhead : headKey (chunks (d + 1) (⟨i, ks, c :: cs'⟩ : Branch (Tree d)))
          = headKey (chunks d c) := by
        show headKey ((c :: cs').flatMap (chunks d)) = _
        rw [List.flatMap_cons]
        match hc : chunks d c, hstc.chunks.1, hstc.chunks.2 with
        | [] :: _, _, hne => exact absurd rfl (hne [] (List.mem_cons_self ..))
        | (_ :: _) :: _, _, _ => rfl
      rw [hhead, ← ih hk.1 hstc, show d + 1 + 1 + extra = (d + 1 + extra) + 1 by
        omega]
      show leftmostKey h (d + 1 + extra + 1) i = _
      simp only [leftmostKey, hif, if_false, hptr, chk_some, ok_bind,
        asNode_node]

/-- The weave of glued children under their first keys is glued. -/
theorem weave_glue {d : Nat} (c : Tree d) (cs : List (Tree d))
    (hst : ∀ t ∈ c :: cs, Stocked d t)
    (hg : ∀ t ∈ c :: cs, flat d t = glue (chunks d t)) :
    weave (cs.map fun t => headKey (chunks d t)) ((c :: cs).map (flat d))
      = glue ((c :: cs).flatMap (chunks d)) := by
  induction cs generalizing c with
  | nil =>
      rw [List.map_nil, List.map_singleton, weave_singleton,
        List.flatMap_singleton]
      exact hg c (List.mem_cons_self ..)
  | cons b cs ih =>
      have hrest := ih b (fun t ht => hst t (List.mem_cons_of_mem _ ht))
        fun t ht => hg t (List.mem_cons_of_mem _ ht)
      have hc := (hst c (List.mem_cons_self ..)).chunks.1
      have hb := (hst b (by simp)).chunks
      have hsplit : (c :: b :: cs).flatMap (chunks d)
          = chunks d c ++ (b :: cs).flatMap (chunks d) := List.flatMap_cons
      rw [List.map_cons, List.map_cons, weave, hrest, hsplit,
        glue_append _ _ hc, hg c (List.mem_cons_self ..)]
      congr 1
      rw [List.flatMap_cons]
      cases hcb : chunks d b with
      | nil => exact absurd hcb hb.1
      | cons x fs =>
          cases x with
          | nil => exact absurd rfl (hb.2 [] (hcb ▸ List.mem_cons_self))
          | cons e f =>
              rw [List.cons_append, flatMap_seam]
              rfl

-- =========================================================== one parent

/-- The filling loop appends separators and children to a parent's two
blocks and sets the children's parent fields. -/
theorem fillNode_spec {d : Nat} (p : NodeId) :
    ∀ (room : Nat) (h : Heap) (ks : List U64) (cids : List NodeId)
      (cs : List (Tree d)) (kr : List U64) (pr : List Ptr) (O : List NodeId),
      (h.nodes p).keys = ks ++ kr →
      (h.nodes p).pointers = cids.map Ptr.node ++ pr →
      cids.length = ks.length + 1 → kr.length = room → pr.length = room →
      (∀ c ∈ cs, Stocked d c) →
      (∀ c ∈ cs, ∃ nxt, Rep order h.nodes d c none nxt) →
      Owns h (p :: (cs.flatMap (ids d) ++ O)) →
      ∃ h', fillNode p room h ks.length (cs.map (tid d))
          = .ok (ks.length + (cs.take room).length, (cs.drop room).map (tid d),
              h')
        ∧ h'.nodes p = { h.nodes p with
            keys := ks ++ (cs.take room).map (fun c => headKey (chunks d c))
              ++ kr.drop (cs.take room).length
            pointers := (cids ++ (cs.take room).map (tid d)).map Ptr.node
              ++ pr.drop (cs.take room).length }
        ∧ (∀ x, x ≠ p → h'.nodes x = if x ∈ (cs.take room).map (tid d)
            then { h.nodes x with parent := some p } else h.nodes x)
        ∧ Owns h' (p :: (cs.flatMap (ids d) ++ O)) ∧ SameRecs h h' := by
  intro room
  induction room with
  | zero =>
      intro h ks cids cs kr pr O hk hp _ _ _ _ _ o
      refine ⟨h, ?_, ?_, fun x _ => by simp, o, SameRecs.refl h⟩
      · simp [fillNode]
      · simp only [List.take_zero, List.map_nil, List.append_nil,
          List.length_nil, List.drop_zero, ← hk, ← hp]
  | succ room ih =>
      intro h ks cids cs kr pr O hk hp hfan hkr hpr hst hrep o
      cases cs with
      | nil =>
          refine ⟨h, ?_, ?_, fun x _ => by simp, o, SameRecs.refl h⟩
          · simp [fillNode]
          · simp only [List.take_nil, List.map_nil, List.append_nil,
              List.length_nil, List.drop_zero, ← hk, ← hp]
      | cons c cs =>
          obtain ⟨kz, kr, rfl, hkr'⟩ := exists_cons_of_length hkr
          obtain ⟨pz, pr, rfl, hpr'⟩ := exists_cons_of_length hpr
          obtain ⟨nxt, hc⟩ := hrep c (List.mem_cons_self ..)
          have hnd := o.nodup
          rw [List.flatMap_cons, List.append_assoc, List.nodup_cons] at hnd
          obtain ⟨hpn, hnd⟩ := hnd
          obtain ⟨-, hnd₂, hdisj⟩ := List.nodup_append.mp hnd
          have hcp : tid d c ≠ p := fun he => hpn (by
            rw [← he]
            exact List.mem_append_left _ (tid_mem_ids d c))
          have hdepth := hc.depth_lt
          have hlen := o.length_le
          simp only [List.flatMap_cons, List.length_cons, List.length_append]
            at hlen
          have hsep : leftmostKey h (h.carvedNodes + 1) (tid d c)
              = .ok (headKey (chunks d c)) := by
            have := leftmostKey_spec (h.carvedNodes - d) hc
              (hst c (List.mem_cons_self ..))
            rwa [show d + 1 + (h.carvedNodes - d) = h.carvedNodes + 1 by omega]
              at this
          have hputk : put (h.nodes p).keys ks.length (headKey (chunks d c))
              = some (ks ++ headKey (chunks d c) :: kr) := by
            rw [hk]
            exact put_seam _ _ _ _ rfl
          have hputp : put (h.nodes p).pointers (ks.length + 1)
              (.node (tid d c))
              = some (cids.map Ptr.node ++ .node (tid d c) :: pr) := by
            rw [hp]
            exact put_seam _ _ _ _ (by simp [hfan])
          generalize hg : (h.setNode p { h.nodes p with
              keys := ks ++ headKey (chunks d c) :: kr
              pointers := cids.map Ptr.node ++ .node (tid d c) :: pr }).setParent
            (tid d c) (some p) = g
          have hgp : g.nodes p = { h.nodes p with
              keys := ks ++ headKey (chunks d c) :: kr
              pointers := cids.map Ptr.node ++ .node (tid d c) :: pr } := by
            rw [← hg, setParent_other _ _ (Ne.symm hcp), setNode_self]
          have hgx : ∀ x, x ≠ p → g.nodes x = if x = tid d c
              then { h.nodes x with parent := some p } else h.nodes x := by
            intro x hx
            rw [← hg]
            by_cases hxc : x = tid d c
            · rw [hxc, setParent_self, setNode_other _ _ hcp, if_pos rfl]
            · rw [setParent_other _ _ hxc, setNode_other _ _ hx, if_neg hxc]
          have og : Owns g (p :: ((c :: cs).flatMap (ids d) ++ O)) := by
            rw [← hg]
            refine (o.setNode (List.mem_cons_self ..) _).setParent ?_ _
            rw [List.flatMap_cons]
            simp [tid_mem_ids]
          have og' : Owns g (p :: (cs.flatMap (ids d) ++ (ids d c ++ O))) := by
            refine og.perm ?_
            rw [List.perm_iff_count]
            intro a
            simp only [List.flatMap_cons, List.count_append, List.count_cons]
            omega
          have hrep' : ∀ b ∈ cs, ∃ nxt, Rep order g.nodes d b none nxt := by
            intro b hb
            obtain ⟨nxt, hR⟩ := hrep b (List.mem_cons_of_mem _ hb)
            refine ⟨nxt, hR.frame fun x hx => ?_⟩
            have hx' : x ∈ cs.flatMap (ids d) ++ O :=
              List.mem_append_left _ (List.mem_flatMap.mpr ⟨b, hb, hx⟩)
            rw [hgx x (fun he => hpn (he ▸ List.mem_append_right _ hx')),
              if_neg fun he => hdisj _ (tid_mem_ids d c) x hx' he.symm]
          obtain ⟨h', hrun, hpn', hother, o', hs'⟩ := ih g
            (ks ++ [headKey (chunks d c)]) (cids ++ [tid d c]) cs kr pr
            (ids d c ++ O) (by rw [hgp]; simp) (by rw [hgp]; simp)
            (by simp [hfan]) hkr' hpr'
            (fun b hb => hst b (List.mem_cons_of_mem _ hb)) hrep' og'
          refine ⟨h', ?_, ?_, ?_, ?_, ?_⟩
          · rw [List.length_append, List.length_singleton] at hrun
            simp only [List.map_cons, fillNode, hsep, hputk, hputp, chk_some,
              ok_bind, hg, hrun, List.take_succ_cons, List.length_cons,
              List.drop_succ_cons]
            congr 2
            omega
          · rw [hpn', hgp]
            simp
          · intro x hx
            rw [hother x hx, hgx x hx]
            by_cases hxc : x = tid d c
            · -- a child adopted twice is still adopted once
              simp [hxc]
            · simp [hxc]
          · refine o'.perm ?_
            rw [List.perm_iff_count]
            intro a
            simp only [List.flatMap_cons, List.count_append, List.count_cons]
            omega
          · refine SameRecs.trans ?_ hs'
            rw [← hg]
            exact (sameRecs_setNode ..).trans (sameRecs_setParent ..)

/-- A level between two rounds: trees without parents, their leaves in
one chain, each ordered by first keys. -/
structure Forest (order : Nat) (h : Heap) (d : Nat) (ts : List (Tree d)) :
    Prop where
  kids : Kids (fun c n => Rep order h.nodes d c none n) (firstLeaf d) .null ts
  stocked : ∀ t ∈ ts, Stocked d t
  glued : ∀ t ∈ ts, flat d t = glue (chunks d t)

/-- The children of a tree's root. -/
def kidsOf (d : Nat) (t : Tree (d + 1)) : List (Tree d) := Branch.cs t

/-- The parent built over the children `c :: cs`. -/
def parentOf {d : Nat} (p : NodeId) (c : Tree d) (cs : List (Tree d)) :
    Tree (d + 1) :=
  (⟨p, cs.map fun t => headKey (chunks d t), c :: cs⟩ : Branch (Tree d))

theorem parentOf_stocked {d : Nat} (p : NodeId) {c : Tree d}
    {cs : List (Tree d)} (hst : ∀ t ∈ c :: cs, Stocked d t) :
    Stocked (d + 1) (parentOf p c cs) :=
  ⟨List.cons_ne_nil _ _, hst⟩

/-- A parent's contents are what its leaves glue to, if its children's are. -/
theorem parentOf_glued {d : Nat} (p : NodeId) {c : Tree d}
    {cs : List (Tree d)} (hst : ∀ t ∈ c :: cs, Stocked d t)
    (hg : ∀ t ∈ c :: cs, flat d t = glue (chunks d t)) :
    flat (d + 1) (parentOf p c cs) = glue (chunks (d + 1) (parentOf p c cs)) :=
  weave_glue c cs hst hg

/-- One round of the parent loop. -/
theorem bulkParent_spec (horder : 3 ≤ order) {h : Heap} {d : Nat} {c : Tree d}
    {cs : List (Tree d)} {O : List NodeId} (hf : Forest order h d (c :: cs))
    (o : Owns h ((c :: cs).flatMap (ids d) ++ O)) :
    ∃ p h', bulkParent order h ((c :: cs).map (tid d))
        = .ok (p, (cs.drop (order - 1)).map (tid d), h')
      ∧ Rep order h'.nodes (d + 1) (parentOf p c (cs.take (order - 1))) none
          (headPtr (firstLeaf d) .null (cs.drop (order - 1)))
      ∧ Forest order h' d (cs.drop (order - 1))
      ∧ (cs.take (order - 1) = [] →
          (h'.nodes p).pointers[1]? = some .null)
      ∧ (∀ x ∈ (c :: cs).flatMap (ids d),
          (h'.nodes x).pointers = (h.nodes x).pointers)
      ∧ Owns h' (ids (d + 1) (parentOf p c (cs.take (order - 1)))
          ++ ((cs.drop (order - 1)).flatMap (ids d) ++ O))
      ∧ Agree h h' O ∧ SameRecs h h' := by
  obtain ⟨p, h₁, hmk, o₁, ha₁, hblank, hs₁, -⟩ := makeNode_spec order o
  have hpn := (List.nodup_cons.mp o₁.nodup).1
  have hnd₁ := (List.nodup_cons.mp o₁.nodup).2
  have hcp : tid d c ≠ p := fun he => hpn (by
    rw [← he, List.flatMap_cons]
    simp [tid_mem_ids])
  have hput : put (h₁.nodes p).pointers 0 (.node (tid d c))
      = some (.node (tid d c) :: List.replicate (order - 1) .null) := by
    rw [hblank]
    show put (List.replicate order Ptr.null) 0 _ = _
    rw [show order = (order - 1) + 1 by omega, List.replicate_succ]
    exact put_seam [] _ _ _ rfl
  generalize hg : (h₁.setNode p { h₁.nodes p with
      pointers := .node (tid d c) :: List.replicate (order - 1) .null
    }).setParent (tid d c) (some p) = g
  have hgp : g.nodes p = { blankNode order false with
      pointers := .node (tid d c) :: List.replicate (order - 1) .null } := by
    rw [← hg, setParent_other _ _ (Ne.symm hcp), setNode_self, hblank]
  have hgx : ∀ x, x ≠ p → g.nodes x = if x = tid d c
      then { h₁.nodes x with parent := some p } else h₁.nodes x := by
    intro x hx
    rw [← hg]
    by_cases hxc : x = tid d c
    · rw [hxc, setParent_self, setNode_other _ _ hcp, if_pos rfl]
    · rw [setParent_other _ _ hxc, setNode_other _ _ hx, if_neg hxc]
  have og : Owns g (p :: ((c :: cs).flatMap (ids d) ++ O)) := by
    rw [← hg]
    refine (o₁.setNode (List.mem_cons_self ..) _).setParent ?_ _
    rw [List.flatMap_cons]
    simp [tid_mem_ids]
  have og' : Owns g (p :: (cs.flatMap (ids d) ++ (ids d c ++ O))) := by
    refine og.perm ?_
    rw [List.perm_iff_count]
    intro a
    simp only [List.flatMap_cons, List.count_append, List.count_cons]
    omega
  have hdisj : ∀ x ∈ cs.flatMap (ids d) ++ O, x ≠ tid d c := by
    intro x hx he
    rw [List.flatMap_cons, List.append_assoc] at hnd₁
    exact (List.nodup_append.mp hnd₁).2.2 _ (tid_mem_ids d c) x hx he.symm
  have hxp : ∀ x ∈ (c :: cs).flatMap (ids d) ++ O, x ≠ p :=
    fun x hx he => hpn (he ▸ hx)
  have hrep : ∀ b ∈ cs, ∃ nxt, Rep order g.nodes d b none nxt := by
    intro b hb
    obtain ⟨nxt, hR⟩ := hf.kids.mem (List.mem_cons_of_mem _ hb)
    refine ⟨nxt, hR.frame fun x hx => ?_⟩
    have hx' : x ∈ cs.flatMap (ids d) := List.mem_flatMap.mpr ⟨b, hb, hx⟩
    have hx'' : x ∈ (c :: cs).flatMap (ids d) ++ O := by
      rw [List.flatMap_cons]
      simp [hx']
    rw [hgx x (hxp x hx''), if_neg (hdisj x (List.mem_append_left _ hx')),
      ha₁ x hx'']
  obtain ⟨h₂, hrun, hp₂, hother, o₂, hs₂⟩ := fillNode_spec p (order - 1) g []
    [tid d c] cs (List.replicate (order - 1) 0)
    (List.replicate (order - 1) .null) (ids d c ++ O)
    (by rw [hgp]; rfl) (by rw [hgp]; rfl) rfl (by simp) (by simp)
    (fun b hb => hf.stocked b (List.mem_cons_of_mem _ hb)) hrep og'
  have hlen := List.length_take (i := order - 1) (l := cs)
  have hdrop : cs = cs.take (order - 1) ++ cs.drop (order - 1) :=
    (List.take_append_drop _ _).symm
  generalize cs.take (order - 1) = bs at *
  generalize cs.drop (order - 1) = rest at *
  subst hdrop
  -- the children that were taken hang under `p`, all else is as before
  have hmem : ∀ x ∈ (c :: (bs ++ rest)).flatMap (ids d) ++ O,
      h₂.nodes x = if x ∈ (c :: bs).map (tid d)
        then { h.nodes x with parent := some p } else h.nodes x := by
    intro x hx
    rw [hother x (hxp x hx), hgx x (hxp x hx), ha₁ x hx]
    by_cases hxc : x = tid d c
    · simp [hxc]
    · simp [hxc]
  generalize hg' : h₂.setNode p { h₂.nodes p with
    numKeys := ([] : List U64).length + bs.length } = h'
  have hp' : h'.nodes p = { h₂.nodes p with
      numKeys := ([] : List U64).length + bs.length } := by
    rw [← hg', setNode_self]
  have hx' : ∀ x ∈ (c :: (bs ++ rest)).flatMap (ids d) ++ O,
      h'.nodes x = if x ∈ (c :: bs).map (tid d)
        then { h.nodes x with parent := some p } else h.nodes x := by
    intro x hx
    rw [← hg', setNode_other _ _ (hxp x hx), hmem x hx]
  have hle : bs.length ≤ order - 1 := by omega
  have hkids := hf.kids
  rw [show c :: (bs ++ rest) = (c :: bs) ++ rest from rfl, kids_append] at hkids
  rw [show c :: (bs ++ rest) = (c :: bs) ++ rest from rfl, List.flatMap_append,
    List.append_assoc] at hx' hnd₁
  obtain ⟨hndb, -, hdb⟩ := List.nodup_append.mp hnd₁
  refine ⟨p, h', ?_, ⟨?_, ?_⟩, ⟨?_, ?_, ?_⟩, ?_, ?_, ?_, ?_, ?_⟩
  · simp only [List.map_cons, bulkParent, hmk, ok_bind, hput, chk_some, hg]
    rw [List.length_nil] at hrun hg'
    simp only [hrun, ok_bind, hg']
  · show NodeRep order (h'.nodes p) none _ _
    rw [hp', hp₂, hgp]
    refine ⟨rfl, rfl, ?_, ?_, ⟨(List.replicate (order - 1) 0).drop bs.length,
      ?_, ?_⟩, ⟨(List.replicate (order - 1) .null).drop bs.length, ?_, ?_⟩⟩
    · simp [parentOf]
    · simp [parentOf]
    · simp [parentOf]
    · simp only [parentOf, List.length_map, List.length_drop,
        List.length_replicate]
      omega
    · simp [parentOf]
    · simp only [parentOf, List.length_map, List.length_cons, List.length_drop,
        List.length_replicate]
      omega
  · exact Kids.reparent hkids.1 hndb fun x hx =>
      hx' x (List.mem_append_left _ hx)
  · refine hkids.2.frame fun x hx => ?_
    rw [hx' x (List.mem_append_right _ (List.mem_append_left _ hx)), if_neg]
    exact fun hm => hdb x (mem_ids_of_mem_tids hm) x
      (List.mem_append_left _ hx) rfl
  · exact fun t ht => hf.stocked t (by simp [ht])
  · exact fun t ht => hf.glued t (by simp [ht])
  · rintro rfl
    rw [hp', hp₂]
    obtain ⟨n, hn⟩ : ∃ n, order - 1 = n + 1 := ⟨order - 2, by omega⟩
    simp [hn, List.replicate_succ]
  · intro x hx
    rw [hx' x (by
      rw [← List.append_assoc, ← List.flatMap_append]
      exact List.mem_append_left _ hx)]
    split <;> rfl
  · rw [← hg']
    refine (o₂.perm ?_).setNode (List.mem_cons_self ..) _
    show (p :: (c :: bs).flatMap (ids d)
      ++ (rest.flatMap (ids d) ++ O)).Perm _
    rw [List.perm_iff_count]
    intro a
    simp only [List.flatMap_append, List.flatMap_cons,
      List.cons_append, List.count_append, List.count_cons]
    omega
  · intro x hx
    rw [hx' x (List.mem_append_right _ (List.mem_append_right _ hx)), if_neg]
    exact fun hm => hdb x (mem_ids_of_mem_tids hm) x
      (List.mem_append_right _ hx) rfl
  · rw [← hg', ← hg] at *
    exact hs₁.trans (((sameRecs_setNode ..).trans (sameRecs_setParent ..)).trans
      (hs₂.trans (sameRecs_setNode ..)))

/-- One round of the outer loop: the level above, child by child. -/
theorem bulkParents_spec (horder : 3 ≤ order) {d : Nat} : ∀ (k : Nat)
    (h : Heap) (ts : List (Tree d)) (O : List NodeId),
    Cuts order k ts.length → Forest order h d ts →
    Owns h (ts.flatMap (ids d) ++ O) →
    ∃ (ps : List (Tree (d + 1))) (h' : Heap),
      bulkParents order k h (ts.map (tid d)) = .ok (ps.map (tid (d + 1)), h')
      ∧ Forest order h' (d + 1) ps
      ∧ ps.map (kidsOf d) = chunk order k ts
      ∧ headPtr (firstLeaf (d + 1)) .null ps = headPtr (firstLeaf d) .null ts
      ∧ (∀ b ∈ ps, count (d + 1) b = 0 →
          (h'.nodes (tid (d + 1) b)).pointers[1]? = some .null)
      ∧ (∀ x ∈ ts.flatMap (ids d),
          (h'.nodes x).pointers = (h.nodes x).pointers)
      ∧ Owns h' (ps.flatMap (ids (d + 1)) ++ O)
      ∧ Agree h h' O ∧ SameRecs h h' := by
  intro k
  induction k with
  | zero =>
      intro h ts O hcut _ o
      have hnil : ts = [] := List.length_eq_zero_iff.mp (by
        have := hcut.le
        omega)
      subst hnil
      exact ⟨[], h, rfl, ⟨trivial, by simp, by simp⟩, rfl, rfl, by simp,
        fun _ _ => rfl, o, Agree.refl _ _, SameRecs.refl _⟩
  | succ k ih =>
      intro h ts O hcut hf o
      match ts, hcut.ne_nil with
      | c :: cs, _ =>
          obtain ⟨p, h₁, hrun, hrep, hf₁, hnull, hptr₁, o₁, ha₁, hs₁⟩ :=
            bulkParent_spec horder hf o
          have htake : (c :: cs).take order = c :: cs.take (order - 1) := by
            rw [show order = (order - 1) + 1 by omega]
            rfl
          have hdrop : (c :: cs).drop order = cs.drop (order - 1) := by
            rw [show order = (order - 1) + 1 by omega]
            rfl
          have hcut' := hcut.drop
          rw [hdrop] at hcut'
          obtain ⟨ps, h', hruns, hf', hchunk, hhead, hnulls, hptr', o', ha',
              hs'⟩ :=
            ih h₁ (cs.drop (order - 1))
              (ids (d + 1) (parentOf p c (cs.take (order - 1))) ++ O) hcut' hf₁
              (o₁.perm (by
                rw [List.perm_iff_count]
                intro a
                simp only [List.count_append]
                omega))
          have hmem : ∀ t ∈ c :: cs.take (order - 1), t ∈ c :: cs := by
            intro t ht
            rcases List.mem_cons.mp ht with rfl | ht
            · exact List.mem_cons_self ..
            · exact List.mem_cons_of_mem _ (List.mem_of_mem_take ht)
          refine ⟨parentOf p c (cs.take (order - 1)) :: ps, h', ?_,
            ⟨⟨?_, hf'.kids⟩, ?_, ?_⟩, ?_, rfl, ?_, ?_, ?_, ?_, hs₁.trans hs'⟩
          · simp only [bulkParents, hrun, ok_bind, hruns]
            rfl
          · rw [hhead]
            exact hrep.frame fun x hx => ha' x (List.mem_append_left _ hx)
          · intro t ht
            rcases List.mem_cons.mp ht with rfl | ht
            · exact parentOf_stocked p fun t ht => hf.stocked t (hmem t ht)
            · exact hf'.stocked t ht
          · intro t ht
            rcases List.mem_cons.mp ht with rfl | ht
            · exact parentOf_glued p (fun t ht => hf.stocked t (hmem t ht))
                fun t ht => hf.glued t (hmem t ht)
            · exact hf'.glued t ht
          · rw [List.map_cons, hchunk, chunk, htake, hdrop]
            rfl
          · intro b hb hks
            rcases List.mem_cons.mp hb with rfl | hb
            · have hnil : cs.take (order - 1) = [] := by
                refine List.length_eq_zero_iff.mp (Eq.trans ?_ hks)
                exact (List.length_map _).symm
              show (h'.nodes p).pointers[1]? = some .null
              rw [ha' p (List.mem_append_left _ (tid_mem_ids (d + 1)
                (parentOf p c (cs.take (order - 1)))))]
              exact hnull hnil
            · exact hnulls b hb hks
          · -- a child is touched in its own round and in no later one
            intro x hx
            rw [← hptr₁ x hx]
            rw [← List.take_append_drop order (c :: cs), htake, hdrop,
              List.flatMap_append] at hx
            rcases List.mem_append.mp hx with hx | hx
            · rw [ha' x (List.mem_append_left _ (List.mem_cons_of_mem _ hx))]
            · exact hptr' x hx
          · refine o'.perm ?_
            rw [List.perm_iff_count]
            intro a
            simp only [List.flatMap_cons, List.count_append]
            omega
          · exact ha₁.trans (ha'.mono fun x hx => List.mem_append_right _ hx)

-- ============================================================ occupancy

/-- On the right edge of the tree there is a parent with one child, and
the slot where `delete_entry` would look for a sibling holds NULL. -/
def Orphaned (h : Heap) : (d : Nat) → Tree d → Prop
  | 0, _ => False
  | d + 1, t =>
      (∃ x, kidsOf d t = [x] ∧ Filled 1 1 d x
        ∧ (h.nodes (tid (d + 1) t)).pointers[1]? = some .null)
      ∨ ∃ (cs : List (Tree d)) (c : Tree d), kidsOf d t = cs ++ [c]
        ∧ Orphaned h d c

/-- The leaves stay orphaned while nobody writes their pointers. -/
theorem Orphaned.frame {h h' : Heap} : ∀ {d : Nat} {t : Tree d},
    Orphaned h d t →
    (∀ x ∈ ids d t, (h'.nodes x).pointers = (h.nodes x).pointers) →
    Orphaned h' d t := by
  intro d
  induction d with
  | zero => exact fun ho _ => ho.elim
  | succ d ih =>
      intro t ho hp
      rcases ho with ⟨x, hx, hf, hnull⟩ | ⟨cs, c, hc, ho⟩
      · refine Or.inl ⟨x, hx, hf, ?_⟩
        rw [hp _ (tid_mem_ids _ t)]
        exact hnull
      · refine Or.inr ⟨cs, c, hc, ih ho fun x hx => hp x ?_⟩
        refine List.mem_cons_of_mem _ (List.mem_flatMap.mpr ⟨c, ?_, hx⟩)
        show c ∈ kidsOf d t
        rw [hc]
        simp

/-- All trees of a level are filled, or its last one is orphaned. -/
def Level (h : Heap) (d : Nat) (ts : List (Tree d)) (good : Bool) : Prop :=
  if good then ∀ t ∈ ts, Filled 1 1 d t
  else ∃ ts' t, ts = ts' ++ [t] ∧ Orphaned h d t

/-- A node has one key less than children. -/
theorem Forest.count_kids {h : Heap} {d : Nat} {ps : List (Tree (d + 1))}
    (hf : Forest order h (d + 1) ps) {b : Tree (d + 1)} (hb : b ∈ ps) :
    (kidsOf d b).length = count (d + 1) b + 1 := by
  obtain ⟨n, hr⟩ := hf.kids.mem hb
  have hfan := hr.1.fan
  rw [List.length_map] at hfan
  exact hfan

/-- What the next level is like. -/
theorem Level.up (horder : 3 ≤ order) {h h' : Heap} {d m : Nat}
    {ts : List (Tree d)} {good : Bool} (hl : Level h d ts good)
    (hcut : Cuts order (m + 1) ts.length) {ps : List (Tree (d + 1))}
    (hf : Forest order h' (d + 1) ps)
    (hps : ps.map (kidsOf d) = chunk order (m + 1) ts)
    (hnull : ∀ b ∈ ps, count (d + 1) b = 0 →
      (h'.nodes (tid (d + 1) b)).pointers[1]? = some .null)
    (hptr : ∀ x ∈ ts.flatMap (ids d),
      (h'.nodes x).pointers = (h.nodes x).pointers) :
    Level h' (d + 1) ps (good && decide (ts.length % order ≠ 1)) := by
  obtain ⟨css, c, l', hlast, hsuf, hone⟩ := chunk_last hcut
  obtain ⟨ps', b, rfl, hb⟩ : ∃ ps' b, ps = ps' ++ [b] ∧ kidsOf d b = c := by
    rcases List.eq_nil_or_concat ps with rfl | ⟨ps', b, rfl⟩
    · have := congrArg List.length (hps.trans hlast)
      simp at this
    · have heq := hps.trans hlast
      rw [List.concat_eq_append, List.map_append, List.map_singleton] at heq
      have := List.append_inj_right' heq rfl
      exact ⟨ps', b, List.concat_eq_append .., by simpa using this⟩
  cases good with
  | true =>
      have hfill : ∀ t ∈ ts, Filled 1 1 d t := hl
      by_cases hmod : ts.length % order = 1
      · -- one child is left over
        rw [hmod]
        refine ⟨ps', b, rfl, Or.inl ?_⟩
        obtain ⟨x, hx⟩ := List.length_eq_one_iff.mp (hone hmod)
        refine ⟨x, hb.trans hx, hfill x ?_, hnull b (by simp) ?_⟩
        · rw [hsuf, hx]
          simp
        · have := hf.count_kids (b := b) (by simp)
          rw [hb, hone hmod] at this
          omega
      · rw [decide_eq_true hmod]
        intro t ht
        have hmem : kidsOf d t ∈ chunk order (m + 1) ts := by
          rw [← hps]
          exact List.mem_map_of_mem ht
        refine filled_iff.mpr ⟨?_, fun x hx => hfill x ?_⟩
        · have htwo := two_le_chunk (by omega) hcut hmod _ hmem
          rw [hf.count_kids ht] at htwo
          show 1 ≤ count (d + 1) t
          omega
        · rw [← flatten_chunk hcut]
          exact List.mem_flatten.mpr ⟨_, hmem, hx⟩
  | false =>
      obtain ⟨ts', t, rfl, ho⟩ := hl
      have hne : c ≠ [] := chunk_ne_nil (by omega) hcut c (by rw [hlast]; simp)
      obtain ⟨c', t', rfl⟩ : ∃ c' t', c = c' ++ [t'] := by
        rcases List.eq_nil_or_concat c with rfl | ⟨c', t', rfl⟩
        · exact absurd rfl hne
        · exact ⟨c', t', List.concat_eq_append ..⟩
      rw [← List.append_assoc] at hsuf
      have htt : t = t' := by simpa using List.append_inj_right' hsuf rfl
      refine ⟨ps', b, rfl, Or.inr ⟨c', t', hb, ?_⟩⟩
      rw [← htt]
      refine ho.frame fun x hx => hptr x ?_
      exact List.mem_flatMap.mpr ⟨t, by simp, hx⟩

-- ========================================================== the levels

/-- Every level has fewer nodes than the one below. -/
theorem ceilDiv_lt (horder : 3 ≤ order) {n : Nat} (hn : 2 ≤ n) :
    ceilDiv n order < n := by
  unfold ceilDiv
  rw [Nat.div_lt_iff_lt_mul (by omega)]
  have hmul : n * order = n * (order - 1) + n := by
    rw [← Nat.mul_succ]
    congr 1
    omega
  have hle : 2 * (order - 1) ≤ n * (order - 1) := Nat.mul_le_mul_right _ hn
  omega

/-- Parents keep the leaves. -/
theorem flatMap_chunks_kids {d : Nat} (ps : List (Tree (d + 1))) :
    ps.flatMap (chunks (d + 1))
      = (ps.map (kidsOf d)).flatten.flatMap (chunks d) := by
  induction ps with
  | nil => rfl
  | cons p ps ih =>
      rw [List.flatMap_cons, ih, List.map_cons, List.flatten_cons,
        List.flatMap_append]
      rfl

/-- The outer loop ends with one tree over all the leaves. -/
theorem bulkLevels_spec (horder : 3 ≤ order) : ∀ (fuel : Nat) {d : Nat}
    (h : Heap) (ts : List (Tree d)) (good : Bool) (O : List NodeId),
    ts ≠ [] → ts.length ≤ fuel → Forest order h d ts → Level h d ts good →
    Owns h (ts.flatMap (ids d) ++ O) →
    ∃ (d' : Nat) (t : Tree d') (h' : Heap),
      bulkLevels order fuel h (ts.map (tid d)) = .ok (tid d' t, h')
      ∧ Forest order h' d' [t] ∧ chunks d' t = ts.flatMap (chunks d)
      ∧ Level h' d' [t] (good && noOrphan order fuel ts.length)
      ∧ Owns h' (ids d' t ++ O) ∧ Agree h h' O ∧ SameRecs h h' := by
  intro fuel
  induction fuel with
  | zero =>
      intro d h ts good O hne hlen
      exact absurd (List.length_eq_zero_iff.mp (Nat.le_zero.mp hlen)) hne
  | succ fuel ih =>
      intro d h ts good O hne hlen hf hl o
      match ts, hne with
      | [t], _ =>
          refine ⟨d, t, h, rfl, hf, ?_, ?_, ?_, Agree.refl _ _, SameRecs.refl h⟩
          · rw [List.flatMap_singleton]
          · rw [show noOrphan order (fuel + 1) [t].length = true from rfl,
              Bool.and_true]
            exact hl
          · rwa [List.flatMap_singleton] at o
      | a :: b :: ts, _ =>
          generalize hts : a :: b :: ts = us at *
          have htwo : 2 ≤ us.length := by
            rw [← hts]
            simp
          have hlt := ceilDiv_lt horder htwo
          have hcut := cuts_ceil (k := order) (by omega) us.length
          obtain ⟨m, hm⟩ : ∃ m, ceilDiv us.length order = m + 1 := by
            refine Nat.exists_eq_succ_of_ne_zero fun hz => ?_
            have hle := hcut.le
            rw [show (us.length + order - 1) / order = 0 from hz] at hle
            omega
          rw [show (us.length + order - 1) / order = m + 1 from hm] at hcut
          obtain ⟨ps, h₁, hrun, hf₁, hchunk, -, hnull, hptr, o₁, ha₁, hs₁⟩ :=
            bulkParents_spec horder (m + 1) h us O hcut hf o
          have hlen₁ : ps.length = m + 1 := by
            rw [← List.length_map (f := kidsOf d), hchunk, length_chunk]
          obtain ⟨d', t, h', hruns, hf', hch, hl', o', ha', hs'⟩ := ih h₁ ps _ O
            (by rintro rfl; cases hlen₁) (by omega) hf₁
            (hl.up horder hcut hf₁ hchunk hnull hptr) o₁
          refine ⟨d', t, h', ?_, hf', ?_, ?_, o', ha₁.trans ha', hs₁.trans hs'⟩
          · have hmap : us.map (tid d) = tid d a :: tid d b :: ts.map (tid d) := by
              rw [← hts]
              rfl
            rw [← hm] at hrun
            rw [hmap] at hrun ⊢
            simp only [bulkLevels]
            rw [← hmap, List.length_map, hmap, hrun, ok_bind, hruns]
          · rw [hch, flatMap_chunks_kids, hchunk, flatten_chunk hcut]
          · rw [noOrphan, if_neg (by omega), ← Bool.and_assoc]
            rw [hlen₁, ← hm] at hl'
            exact hl'

-- ============================================================ bulk_load

/-- Glued chunks of increasing entries are ordered. -/
theorem glue_spec {cs : List (List (U64 × RecId))} {es : List (U64 × RecId)}
    (hne : cs ≠ []) (hcs : ∀ c ∈ cs, c ≠ []) (hes : cs.flatten = es)
    (hpw : es.Pairwise fun a b => a.1 < b.1) :
    Sorted (glue cs) ∧ ents (glue cs) = es := by
  match cs, hne with
  | c :: cs, _ =>
      have hr := refines_glue c cs hcs
      rw [hes] at hr
      have hs : Sorted (toks es) := List.pairwise_map.mpr hpw
      refine ⟨by simpa using hr.2 [] [] (by simpa using hs), ?_⟩
      rw [hr.1, ents_toks]

/-- The chain's last link is written again. -/
theorem setChain_last {h : Heap} {ls : List Leaf} {O : List NodeId}
    (hne : ls ≠ [])
    (hk : Kids (fun c n => Rep order h.nodes 0 c none n) (firstLeaf 0) .null ls)
    (o : Owns h (ls.map Leaf.id ++ O)) :
    ∃ last h', (ls.map Leaf.id).getLast? = some last
      ∧ setChain order h last .null = .ok h'
      ∧ Kids (fun c n => Rep order h'.nodes 0 c none n) (firstLeaf 0) .null ls
      ∧ Owns h' (ls.map Leaf.id ++ O) ∧ Agree h h' O ∧ SameRecs h h' := by
  obtain ⟨ls, l, rfl⟩ : ∃ ls' l, ls = ls' ++ [l] := by
    rcases List.eq_nil_or_concat ls with rfl | ⟨ls', l, rfl⟩
    · exact absurd rfl hne
    · exact ⟨ls', l, List.concat_eq_append ..⟩
  obtain ⟨hk₁, hl, -⟩ := kids_focus.mp hk
  have hl' : LeafRep order (h.nodes l.id) none l.es .null := hl
  obtain ⟨nd, hrun, hnd⟩ := setChain_spec hl' .null
  have hnodup := List.nodup_append.mp o.nodup
  have hnot : l.id ∉ ls.map Leaf.id := by
    have hnd := hnodup.1
    rw [List.map_append] at hnd
    exact fun hm => (List.nodup_append.mp hnd).2.2 _ hm _ (by simp) rfl
  have hO : l.id ∉ O := fun hm => hnodup.2.2 _ (by simp) _ hm rfl
  refine ⟨l.id, h.setNode l.id nd, by simp, hrun, ?_, o.setNode (by simp) _,
    agree_setNode _ _ hO, sameRecs_setNode ..⟩
  refine kids_focus.mpr ⟨hk₁.imp fun c hc n hR => ?_, ?_, trivial⟩
  · refine hR.frame fun x hx => setNode_other _ _ ?_
    rw [show x = c.id from List.mem_singleton.mp hx]
    exact fun he => hnot (he ▸ List.mem_map_of_mem hc)
  · show LeafRep order ((h.setNode l.id nd).nodes l.id) none l.es .null
    rw [setNode_self]
    exact hnd

/-- What `bulk_load` leaves in memory. -/
structure Loaded (order : Nat) (h : Heap) (d : Nat) (t : Tree d)
    (es : List (U64 × RecId)) : Prop where
  rep : Rep order h.nodes d t none .null
  owns : Owns h (ids d t)
  sorted : Sorted (flat d t)
  ents : ents (flat d t) = es

/-- `bulk_load` beside the nodes `O` that are in use already. -/
theorem bulkLoad_frame (horder : 3 ≤ order) {h : Heap} {O : List NodeId}
    (o : Owns h O) {es : List (U64 × RecId)} (hne : es ≠ [])
    (hpw : es.Pairwise fun a b => a.1 < b.1) :
    ∃ (d : Nat) (t : Tree d) (h' : Heap),
      bulkLoad order h es = .ok (some (tid d t), h')
      ∧ Rep order h'.nodes d t none .null ∧ Owns h' (ids d t ++ O)
      ∧ Sorted (flat d t) ∧ ents (flat d t) = es
      ∧ Agree h h' O ∧ SameRecs h h'
      ∧ (Packs order es.length → Filled 1 1 d t)
      ∧ (¬ Packs order es.length → Orphaned h' d t) := by
  have hcut := cuts_ceil (k := order - 1) (by omega) es.length
  have hlen : es.length ≠ 0 := fun hz => hne (List.length_eq_zero_iff.mp hz)
  have hnum : ceilDiv es.length (order - 1) ≠ 0 := by
    intro hz
    have hle := hcut.le
    rw [show (es.length + (order - 1) - 1) / (order - 1) = 0 from hz] at hle
    omega
  obtain ⟨ls, h₁, hrun₁, hk₁, -, hchunk, o₁, ha₁, hs₁⟩ := bulkLeaves_spec horder
    (ceilDiv es.length (order - 1)) h none es O trivial o
  have hlens : ls.length = ceilDiv es.length (order - 1) := by
    rw [← List.length_map (f := Leaf.es), hchunk, length_chunk]
  have hls : ls ≠ [] := by
    rintro rfl
    exact hnum hlens.symm
  obtain ⟨last, h₂, hlast, hset, hk₂, o₂, ha₂, hs₂⟩ :=
    setChain_last hls hk₁ o₁
  have hstock : ∀ l ∈ ls, l.es ≠ [] := fun l hl =>
    chunk_ne_nil (by omega) hcut _ (by
      rw [show (es.length + (order - 1) - 1) / (order - 1) = _ from rfl]
      exact hchunk ▸ List.mem_map_of_mem hl)
  have hf₂ : Forest order h₂ 0 ls :=
    ⟨hk₂, hstock, fun l _ => (List.append_nil _).symm⟩
  have hids : ls.flatMap (ids 0) = ls.map Leaf.id := by
    rw [List.map_eq_flatMap]
    rfl
  have hcs : ls.flatMap (chunks 0) = ls.map Leaf.es := by
    rw [List.map_eq_flatMap]
    rfl
  obtain ⟨d, t, h', hrun', hf', hch, hl', o', ha', hs'⟩ := bulkLevels_spec horder
    ls.length (d := 0) h₂ ls true O hls (Nat.le_refl _) hf₂
    (fun l hl => List.length_pos_iff.mpr (hstock l hl)) (by rw [hids]; exact o₂)
  rw [hcs, hchunk] at hch
  have hlevel : Level h' d [t] (noOrphan order ls.length ls.length) := by
    rw [Bool.true_and] at hl'
    exact hl'
  rw [hlens] at hlevel
  have hst := (hf'.stocked t (by simp)).chunks
  have hglue := glue_spec hst.1 hst.2 (by rw [hch]; exact flatten_chunk hcut) hpw
  have hflat := hf'.glued t (by simp)
  refine ⟨d, t, h', ?_, hf'.kids.1, o', hflat ▸ hglue.1, hflat ▸ hglue.2,
    (ha₁.trans ha₂).trans ha', (hs₁.trans hs₂).trans hs', fun hp => ?_,
    fun hp => ?_⟩
  · have hrun₁' : bulkLeaves order (ceilDiv es.length (order - 1)) h none es
        = .ok (ls.map Leaf.id, h₁) := hrun₁
    have hrun'' : bulkLevels order ls.length h₂ (ls.map Leaf.id)
        = .ok (tid d t, h') := hrun'
    simp only [bulkLoad, if_neg hlen, hrun₁', ok_bind, hlast, chk_some, hset,
      List.length_map, hrun'']
  · rw [show noOrphan _ _ _ = true from hp] at hlevel
    exact hlevel t (by simp)
  · rw [show noOrphan _ _ _ = false from Bool.eq_false_iff.mpr hp] at hlevel
    obtain ⟨ts, b, hts, ho⟩ := hlevel
    have htb : t = b := by
      have := List.append_inj_right' (show [] ++ [t] = ts ++ [b] from hts) rfl
      simpa using this
    rw [htb]
    exact ho

/-- `bulk_load` where no node is in use. -/
theorem bulkLoad_spec (horder : 3 ≤ order) {h : Heap} (o : Owns h [])
    {es : List (U64 × RecId)} (hne : es ≠ [])
    (hpw : es.Pairwise fun a b => a.1 < b.1) :
    ∃ (d : Nat) (t : Tree d) (h' : Heap),
      bulkLoad order h es = .ok (some (tid d t), h') ∧ Loaded order h' d t es
      ∧ SameRecs h h' ∧ (Packs order es.length → Filled 1 1 d t)
      ∧ (¬ Packs order es.length → Orphaned h' d t) := by
  obtain ⟨d, t, h', hrun, hrep, o', hsort, hents, -, hs, hfill, horph⟩ :=
    bulkLoad_frame horder o hne hpw
  rw [List.append_nil] at o'
  exact ⟨d, t, h', hrun, ⟨hrep, o', hsort, hents⟩, hs, hfill, horph⟩

/-- A record for every value. -/
theorem makeRecords_spec (pairs : List (U64 × U64)) : ∀ {h : Heap}
    {rs : List RecId}, OwnsRecs h rs →
    ∃ es h', makeRecords h pairs = .ok (es, h')
      ∧ es.map Prod.fst = pairs.map Prod.fst
      ∧ OwnsRecs h' (es.map Prod.snd ++ rs)
      ∧ (∀ q ∈ rs, h'.recs q = h.recs q)
      ∧ es.map (fun e => h'.recs e.2) = pairs.map (fun p => .value p.2)
      ∧ SameNodes h h' := by
  induction pairs with
  | nil =>
      intro h rs o
      exact ⟨[], h, rfl, rfl, o, fun _ _ => rfl, rfl, SameNodes.refl h⟩
  | cons p pairs ih =>
      intro h rs o
      obtain ⟨r, h₁, hmk, o₁, hold, hnew, hs₁⟩ := makeRecord_spec o p.2
      obtain ⟨es, h', hrun, hkeys, o', hold', hvals, hs'⟩ := ih o₁
      refine ⟨(p.1, r) :: es, h', ?_, ?_, ?_, ?_, ?_, ?_⟩
      · simp only [makeRecords, hmk, ok_bind, hrun]
      · rw [List.map_cons, List.map_cons, hkeys]
      · refine o'.perm ?_
        rw [List.map_cons]
        exact List.perm_middle.symm
      · intro q hq
        rw [hold' q (List.mem_cons_of_mem _ hq), hold q hq]
      · rw [List.map_cons, List.map_cons, hvals, hold' r (List.mem_cons_self ..),
          hnew]
      · exact ⟨hs'.nodes.trans hs₁.nodes, hs'.freeNodes.trans hs₁.freeNodes,
          hs'.carvedNodes.trans hs₁.carvedNodes, hs'.misses.trans hs₁.misses⟩

/-- Entries that carry the pairs' keys and values in order read as the
pairs' map. -/
theorem reads_ofPairs {h : Heap} : ∀ {pairs : List (U64 × U64)}
    {es : List (U64 × RecId)}, es.map Prod.fst = pairs.map Prod.fst →
    es.map (fun e => h.recs e.2) = pairs.map (fun p => .value p.2) →
    es.Pairwise (fun a b => a.1 < b.1) →
    Reads h es (Contents.ofPairs pairs) := by
  intro pairs
  induction pairs with
  | nil =>
      intro es hk _ _
      rw [List.map_nil, List.map_eq_nil_iff] at hk
      subst hk
      exact ⟨by simp, fun _ _ => rfl⟩
  | cons p pairs ih =>
      intro es hk hv hpw
      match es, hk, hv, hpw with
      | [], hk, _, _ => cases hk
      | e :: es, hk, hv, hpw =>
          simp only [List.map_cons, List.cons.injEq] at hk hv
          obtain ⟨hlt, hpw⟩ := List.pairwise_cons.mp hpw
          obtain ⟨hpres, habs⟩ := ih hk.2 hv.2 hpw
          have hlook : ∀ k, Contents.ofPairs (p :: pairs) k
              = if k = e.1 then some p.2 else Contents.ofPairs pairs k := by
            intro k
            obtain ⟨a, v⟩ := p
            unfold Contents.ofPairs
            rw [List.lookup_cons, show e.1 = a from hk.1]
            by_cases hka : k = a
            · rw [if_pos hka, beq_iff_eq.mpr hka]
            · rw [if_neg hka, beq_eq_false_iff_ne.mpr hka]
          refine ⟨fun f hf => ?_, fun k hno => ?_⟩
          · rcases List.mem_cons.mp hf with rfl | hf
            · exact ⟨p.2, hv.1, by rw [hlook, if_pos rfl]⟩
            · obtain ⟨v, hrec, hm⟩ := hpres f hf
              refine ⟨v, hrec, ?_⟩
              rw [hlook, if_neg (ne_of_gt (hlt f hf)), hm]
          · have hne : k ≠ e.1 := fun he => hno e.2 (by simp [he])
            rw [hlook, if_neg hne]
            exact habs k fun r hr => hno r (List.mem_cons_of_mem _ hr)

/-- The state after loading: the tree, the records and the map. -/
theorem load_spec (horder : 3 ≤ order) {pairs : List (U64 × U64)}
    (hne : pairs ≠ []) (hpw : (pairs.map Prod.fst).Pairwise (· < ·)) :
    ∃ (d : Nat) (t : Tree d) (h : Heap) (es : List (U64 × RecId)),
      load order pairs = .ok ⟨some (tid d t), h⟩ ∧ Loaded order h d t es
      ∧ OwnsRecs h (es.map Prod.snd) ∧ Reads h es (Contents.ofPairs pairs)
      ∧ h.misses = 0
      ∧ (Packs order pairs.length → Filled 1 1 d t)
      ∧ (¬ Packs order pairs.length → Orphaned h d t) := by
  obtain ⟨es, h₁, hrun₁, hkeys, o₁, -, hvals, hs₁⟩ :=
    makeRecords_spec pairs ownsRecs_empty
  have hlen : es.length = pairs.length := by
    simpa using congrArg List.length hkeys
  have hes : es ≠ [] := by
    rintro rfl
    exact hne (List.length_eq_zero_iff.mp hlen.symm)
  have hpw' : es.Pairwise fun a b => a.1 < b.1 := by
    rw [← hkeys] at hpw
    exact List.pairwise_map.mp hpw
  obtain ⟨d, t, h, hrun, hl, hs, hfill, horph⟩ :=
    bulkLoad_spec horder (owns_empty.same hs₁) hes hpw'
  refine ⟨d, t, h, es, ?_, hl, ?_, ?_, ?_, ?_, ?_⟩
  · simp only [load, hrun₁, ok_bind, hrun]
  · exact (o₁.perm (by simp)).same hs
  · obtain ⟨hp, ha⟩ := reads_ofPairs hkeys hvals hpw'
    refine ⟨fun e he => ?_, ha⟩
    rw [hs.recs]
    exact hp e he
  · rw [hs.misses, hs₁.misses]
    rfl
  · exact hlen ▸ hfill
  · exact hlen ▸ horph

end ThesisBench.Btree

/-
What the deletion functions do to the nodes they write: removing an
entry, pouring a node into its left neighbour, and the four borrows.

As in InsertNodes.lean, each theorem goes from the fields before to the
fields after in the vocabulary of `LeafRep` and `NodeRep`, and says what
happened to every other node.
-/
import ThesisBench.Btree.Proofs.InsertNodes

namespace ThesisBench.Btree

open CArray SepList

variable {order : Nat}

-- ============================================================== removal

/-- Removing a pair from a leaf closes the gap in both blocks. -/
theorem removeEntry_leaf {h : Heap} {n : NodeId} {par : Option NodeId}
    {a b : List (U64 × RecId)} {key : U64} {r : RecId} {nxt : Ptr}
    (hr : LeafRep order (h.nodes n) par (a ++ (key, r) :: b) nxt)
    (hkey : ∀ e ∈ a, e.1 ≠ key) (hrec : ∀ e ∈ a, e.2 ≠ r) :
    ∃ nd, removeEntryFromNode order h n key (.record r) = .ok (h.setNode n nd)
      ∧ LeafRep order nd par (a ++ b) nxt := by
  obtain ⟨kr, hk, hkl⟩ := hr.keys
  obtain ⟨pr, hp, hpl⟩ := hr.pointers
  have hnum := hr.numKeys
  simp only [List.length_append, List.length_cons] at hkl hpl hnum
  have hk' : (h.nodes n).keys
      = a.map Prod.fst ++ key :: (b.map Prod.fst ++ kr) := by
    rw [hk]
    simp
  have hp' : (h.nodes n).pointers
      = a.map (fun e => Ptr.record e.2)
        ++ .record r :: (b.map (fun e => Ptr.record e.2) ++ (pr ++ [nxt])) := by
    rw [hp]
    simp
  have hscank : scanFor (fun k => decide (k = key)) (h.nodes n).keys
      = some a.length := by
    rw [hk', scanFor_spec _ _ _ _ ?_ (by simp), List.length_map]
    intro k hkm
    obtain ⟨e, he, rfl⟩ := List.mem_map.mp hkm
    simpa using hkey e he
  have hscanp : scanFor (fun p => decide (p = Ptr.record r))
      (h.nodes n).pointers = some a.length := by
    rw [hp', scanFor_spec _ _ _ _ ?_ (by simp), List.length_map]
    intro p hpm
    obtain ⟨e, he, rfl⟩ := List.mem_map.mp hpm
    simpa using hrec e he
  have hcount : (h.nodes n).numKeys - (a.length + 1) = b.length := by omega
  obtain ⟨ky, hks⟩ := shiftDown_spec (a.map Prod.fst) key (b.map Prod.fst) kr
    (i := a.length) (n := b.length) (by simp) (by simp)
  obtain ⟨py, hps⟩ := shiftDown_spec (a.map fun e => Ptr.record e.2)
    (.record r) (b.map fun e => Ptr.record e.2) (pr ++ [nxt])
    (i := a.length) (n := b.length) (by simp) (by simp)
  have hnum' : (h.nodes n).numKeys - 1 = a.length + b.length := by omega
  have hfill : fill (a.map (fun e => Ptr.record e.2)
        ++ b.map (fun e => Ptr.record e.2) ++ py :: (pr ++ [nxt])) .null
        (a.length + b.length) (order - 1 - (a.length + b.length))
      = some ((a.map (fun e => Ptr.record e.2)
        ++ b.map (fun e => Ptr.record e.2))
        ++ List.replicate (order - 1 - (a.length + b.length)) .null
        ++ [nxt]) := by
    rw [show a.map (fun e => Ptr.record e.2)
        ++ b.map (fun e => Ptr.record e.2) ++ py :: (pr ++ [nxt])
      = (a.map (fun e => Ptr.record e.2) ++ b.map (fun e => Ptr.record e.2))
        ++ (py :: pr) ++ [nxt] by simp]
    exact fill_spec _ _ _ _ (by simp) (by rw [List.length_cons]; omega)
  rw [← hk'] at hks
  rw [← hp'] at hps
  refine ⟨{ h.nodes n with
      keys := a.map Prod.fst ++ b.map Prod.fst ++ ky :: kr
      pointers := (a.map (fun e => Ptr.record e.2)
        ++ b.map (fun e => Ptr.record e.2))
        ++ List.replicate (order - 1 - (a.length + b.length)) .null ++ [nxt]
      numKeys := a.length + b.length }, ?_,
    ⟨hr.isLeaf, hr.parent, ?_, ⟨ky :: kr, ?_, ?_⟩, ⟨List.replicate
      (order - 1 - (a.length + b.length)) .null, ?_, ?_⟩⟩⟩
  · have hstale : h.noteStale (decide ((h.nodes n).numKeys ≤ a.length)
        || decide ((h.nodes n).numKeys ≤ a.length)) = h := by
      rw [decide_eq_false (by omega)]
      rfl
    unfold removeEntryFromNode
    simp only [hscank, chk_some, ok_bind, hcount, hks, hr.isLeaf, if_true,
      hscanp, hps, hnum', hfill, hstale]
  · simp
  · simp
  · simp only [List.length_append, List.length_cons]
    omega
  · rw [List.map_append, List.append_assoc]
  · simp only [List.length_append, List.length_replicate]
    omega

/-- Removing a key and the child after it from an inner node closes both
gaps. -/
theorem removeEntry_node {h : Heap} {n c x : NodeId} {par : Option NodeId}
    {k₁ k₂ : List U64} {k : U64} {c₁ c₂ : List NodeId}
    (hn : NodeRep order (h.nodes n) par (k₁ ++ k :: k₂) (c₁ ++ c :: x :: c₂))
    (hl : k₁.length = c₁.length) (hk₁ : k ∉ k₁) (hx : x ∉ c₁ ++ [c]) :
    ∃ nd, removeEntryFromNode order h n k (.node x) = .ok (h.setNode n nd)
      ∧ NodeRep order nd par (k₁ ++ k₂) (c₁ ++ c :: c₂) := by
  obtain ⟨kr, hk, hkl⟩ := hn.keys
  obtain ⟨pr, hp, hpl⟩ := hn.pointers
  have hnum := hn.numKeys
  have hfan := hn.fan
  simp only [List.length_append, List.length_cons] at hkl hpl hnum hfan
  have hk' : (h.nodes n).keys = k₁ ++ k :: (k₂ ++ kr) := by
    rw [hk]
    simp
  have hp' : (h.nodes n).pointers = (c₁ ++ [c]).map Ptr.node
      ++ .node x :: (c₂.map Ptr.node ++ pr) := by
    rw [hp]
    simp
  have hscank : scanFor (fun a => decide (a = k)) (h.nodes n).keys
      = some k₁.length := by
    rw [hk', scanFor_spec _ _ _ _ ?_ (by simp)]
    intro a ha
    have hne : a ≠ k := fun he => hk₁ (he ▸ ha)
    simp [hne]
  have hscanp : scanFor (fun p => decide (p = Ptr.node x))
      (h.nodes n).pointers = some (c₁.length + 1) := by
    rw [hp', scanFor_spec _ _ _ _ ?_ (by simp), List.length_map,
      List.length_append, List.length_singleton]
    intro p hpm
    obtain ⟨y, hy, rfl⟩ := List.mem_map.mp hpm
    have hne : y ≠ x := fun he => hx (he ▸ hy)
    simp [hne]
  have hcountk : (h.nodes n).numKeys - (k₁.length + 1) = k₂.length := by omega
  have hcountp : (h.nodes n).numKeys + 1 - (c₁.length + 1 + 1) = c₂.length := by
    omega
  obtain ⟨ky, hks⟩ := shiftDown_spec k₁ k k₂ kr rfl rfl
  obtain ⟨py, hps⟩ := shiftDown_spec ((c₁ ++ [c]).map Ptr.node) (.node x)
    (c₂.map Ptr.node) pr (i := c₁.length + 1) (n := c₂.length) (by simp)
    (by simp)
  have hnum' : (h.nodes n).numKeys - 1 = k₁.length + k₂.length := by omega
  have hfill : fill ((c₁ ++ [c]).map Ptr.node ++ c₂.map Ptr.node ++ py :: pr)
        .null (k₁.length + k₂.length + 1)
        (order - (k₁.length + k₂.length + 1))
      = some (((c₁ ++ [c]).map Ptr.node ++ c₂.map Ptr.node)
        ++ List.replicate (order - (k₁.length + k₂.length + 1)) .null
        ++ []) := by
    rw [show (c₁ ++ [c]).map Ptr.node ++ c₂.map Ptr.node ++ py :: pr
      = ((c₁ ++ [c]).map Ptr.node ++ c₂.map Ptr.node) ++ (py :: pr) ++ [] by
        simp]
    exact fill_spec _ _ _ _ (by simp; omega)
      (by rw [List.length_cons]; omega)
  rw [← hk'] at hks
  rw [← hp'] at hps
  refine ⟨{ h.nodes n with
      keys := k₁ ++ k₂ ++ ky :: kr
      pointers := ((c₁ ++ [c]).map Ptr.node ++ c₂.map Ptr.node)
        ++ List.replicate (order - (k₁.length + k₂.length + 1)) .null ++ []
      numKeys := k₁.length + k₂.length }, ?_,
    ⟨hn.isLeaf, hn.parent, ?_, ?_, ⟨ky :: kr, rfl, ?_⟩, ⟨List.replicate
      (order - (k₁.length + k₂.length + 1)) .null, ?_, ?_⟩⟩⟩
  · have hstale : h.noteStale (decide ((h.nodes n).numKeys ≤ k₁.length)
        || decide ((h.nodes n).numKeys + 1 ≤ c₁.length + 1)) = h := by
      rw [decide_eq_false (by omega), decide_eq_false (by omega)]
      rfl
    unfold removeEntryFromNode
    simp only [hscank, chk_some, ok_bind, hcountk, hks, hn.isLeaf,
      Bool.false_eq_true, if_false, hscanp, hcountp, hps, hnum', hfill, hstale]
  · simp
  · simp only [List.length_append, List.length_cons]
    omega
  · simp only [List.length_append, List.length_cons]
    omega
  · simp
  · simp only [List.length_append, List.length_cons, List.length_replicate]
    omega

/-- The index of the left neighbour, `-1` for the first child. -/
theorem getNeighborIndex_spec {h : Heap} {n parent : NodeId}
    {par : Option NodeId} {ks : List U64} {c₁ c₂ : List NodeId}
    (hpar : (h.nodes n).parent = some parent)
    (hn : NodeRep order (h.nodes parent) par ks (c₁ ++ n :: c₂))
    (hc : n ∉ c₁) : getNeighborIndex h n = .ok ((c₁.length : Int) - 1) := by
  obtain ⟨pr, hp, -⟩ := hn.pointers
  have hfan := hn.fan
  rw [List.length_append, List.length_cons] at hfan
  unfold getNeighborIndex
  rw [hpar, deref_some, ok_bind, hp, hn.numKeys,
    scan_child c₁ n c₂ pr hc (by omega), chk_some, ok_bind, if_pos (by omega)]

-- ============================================================== merging

/-- Pouring a leaf into its left neighbour. -/
theorem pour_leaf {h : Heap} {n nb : NodeId} {par par' : Option NodeId}
    {L R : List (U64 × RecId)} {nxt mid : Ptr}
    (hl : LeafRep order (h.nodes nb) par L mid)
    (hr : LeafRep order (h.nodes n) par' R nxt)
    (hroom : L.length + R.length ≤ order - 1) (k : U64) :
    ∃ nd, pour order h n nb k = .ok (h.setNode nb nd)
      ∧ LeafRep order nd par (L ++ R) nxt := by
  obtain ⟨kl, hkl, hkll⟩ := hl.keys
  obtain ⟨pl, hpl, hpll⟩ := hl.pointers
  obtain ⟨kr, hkr, -⟩ := hr.keys
  obtain ⟨pr, hpr, hprl⟩ := hr.pointers
  obtain ⟨ka, kb, rfl, hka⟩ := exists_split kl R.length (by omega)
  obtain ⟨pa, pb, rfl, hpa⟩ := exists_split pl R.length (by omega)
  rw [List.length_append] at hkll hpll
  have hck : copy (h.nodes n).keys 0 (h.nodes nb).keys L.length R.length
      = some (L.map Prod.fst ++ R.map Prod.fst ++ kb) := by
    rw [hkl, hkr, ← List.append_assoc]
    exact copy_spec [] _ _ _ ka kb rfl (by simp) (by simp) hka.symm
  have hcp : copy (h.nodes n).pointers 0 (h.nodes nb).pointers L.length
      R.length = some (L.map (fun e => Ptr.record e.2)
        ++ R.map (fun e => Ptr.record e.2) ++ (pb ++ [mid])) := by
    rw [hpl, hpr, List.append_assoc pa, ← List.append_assoc (L.map _)]
    exact copy_spec [] _ _ _ pa _ rfl (by simp) (by simp) hpa.symm
  have hchain : (h.nodes n).pointers[order - 1]? = some nxt := by
    rw [hpr, ← List.append_assoc]
    exact getElem?_seam _ _ _ (by simp; omega)
  have hput : put (L.map (fun e => Ptr.record e.2)
        ++ R.map (fun e => Ptr.record e.2) ++ (pb ++ [mid])) (order - 1) nxt
      = some (L.map (fun e => Ptr.record e.2)
        ++ R.map (fun e => Ptr.record e.2) ++ pb ++ [nxt]) := by
    rw [← List.append_assoc]
    exact put_seam _ _ _ _ (by simp; omega)
  refine ⟨{ h.nodes nb with
      keys := L.map Prod.fst ++ R.map Prod.fst ++ kb
      pointers := L.map (fun e => Ptr.record e.2)
        ++ R.map (fun e => Ptr.record e.2) ++ pb ++ [nxt]
      numKeys := L.length + R.length }, ?_,
    ⟨hl.isLeaf, hl.parent, ?_, ⟨kb, ?_, ?_⟩, ⟨pb, ?_, ?_⟩⟩⟩
  · unfold pour
    simp only [hr.isLeaf, if_true, hl.numKeys, hr.numKeys, hck, hcp, chk_some,
      ok_bind, hchain, hput]
  · simp
  · simp
  · rw [List.length_append]
    omega
  · simp
  · rw [List.length_append]
    omega

/-- Pouring an internal node into its left neighbour, the separator
between them. -/
theorem pour_node {h : Heap} {n nb : NodeId} {par par' : Option NodeId}
    {kl kr : List U64} {cl cr : List NodeId} {O : List NodeId}
    (hl : NodeRep order (h.nodes nb) par kl cl)
    (hr : NodeRep order (h.nodes n) par' kr cr)
    (hroom : kl.length + kr.length + 1 ≤ order - 1)
    (o : Owns h (nb :: n :: O)) (hkids : ∀ x ∈ cl ++ cr, x ∈ O) (k : U64) :
    ∃ h', pour order h n nb k = .ok h'
      ∧ NodeRep order (h'.nodes nb) par (kl ++ k :: kr) (cl ++ cr)
      ∧ (h'.nodes n).parent = par'
      ∧ (∀ x ∈ O, h'.nodes x = if x ∈ cl ++ cr
          then { h.nodes x with parent := some nb } else h.nodes x)
      ∧ Owns h' (nb :: n :: O) ∧ SameRecs h h' := by
  obtain ⟨kls, hkl, hkll⟩ := hl.keys
  obtain ⟨pls, hpl, hpll⟩ := hl.pointers
  obtain ⟨krs, hkr, -⟩ := hr.keys
  obtain ⟨prs, hpr, -⟩ := hr.pointers
  have hfl := hl.fan
  have hfr := hr.fan
  obtain ⟨kz, kls, rfl, hkls⟩ := exists_cons_of_length (l := kls)
    (n := order - 1 - kl.length - 1) (by omega)
  rw [List.length_cons] at hkll
  obtain ⟨ka, kb, rfl, hka⟩ := exists_split kls kr.length (by omega)
  obtain ⟨pa, pb', rfl, hpa⟩ := exists_split pls kr.length (by omega)
  rw [List.length_append] at hkll hpll
  obtain ⟨pz, pb, rfl, hpb⟩ := exists_cons_of_length (l := pb')
    (n := order - cl.length - kr.length - 1) (by omega)
  obtain ⟨cr', c, hcr, hcrl⟩ := exists_concat_of_length hfr
  rw [List.length_cons] at hpll
  have hnd := o.nodup
  simp only [List.nodup_cons, List.mem_cons, not_or] at hnd
  obtain ⟨⟨hnbn, hnbO⟩, hnO, -⟩ := hnd
  have hputk : put (h.nodes nb).keys kl.length k
      = some (kl ++ k :: (ka ++ kb)) := by
    rw [hkl]
    exact put_seam _ _ _ _ rfl
  have hck : copy (h.nodes n).keys 0 (kl ++ k :: (ka ++ kb)) (kl.length + 1)
      kr.length = some (kl ++ [k] ++ kr ++ kb) := by
    rw [hkr, show kl ++ k :: (ka ++ kb) = (kl ++ [k]) ++ ka ++ kb by simp]
    exact copy_spec [] _ _ _ ka kb rfl (by simp) rfl hka.symm
  have hcp : copy (h.nodes n).pointers 0 (h.nodes nb).pointers
      (kl.length + 1) kr.length
      = some (cl.map Ptr.node ++ cr'.map Ptr.node ++ pz :: pb) := by
    rw [hpl, hpr, hcr, List.map_append, List.append_assoc (cr'.map _),
      ← List.append_assoc (cl.map _)]
    exact copy_spec [] _ _ _ pa _ rfl (by simp [hfl]) (by simp [hcrl]) hpa.symm
  have hlast : (h.nodes n).pointers[kr.length]? = some (.node c) := by
    rw [hpr, hcr, List.map_append, List.append_assoc]
    exact getElem?_seam _ _ _ (by simp [hcrl])
  have hputp : put (cl.map Ptr.node ++ cr'.map Ptr.node ++ pz :: pb)
      (kl.length + 1 + kr.length) (.node c)
      = some (cl.map Ptr.node ++ cr'.map Ptr.node ++ .node c :: pb) :=
    put_seam _ _ _ _ (by simp [hfl, hcrl])
  generalize hg : (h.setNode nb { h.nodes nb with
        keys := kl ++ [k] ++ kr ++ kb
        pointers := cl.map Ptr.node ++ cr'.map Ptr.node ++ .node c :: pb
        numKeys := kl.length + 1 + kr.length }).setNode n
      { h.nodes n with numKeys := 0 } = g
  have hgnb : g.nodes nb = { h.nodes nb with
        keys := kl ++ [k] ++ kr ++ kb
        pointers := cl.map Ptr.node ++ cr'.map Ptr.node ++ .node c :: pb
        numKeys := kl.length + 1 + kr.length } := by
    rw [← hg, setNode_other _ _ hnbn, setNode_self]
  have hnbk : nb ∉ cl ++ cr := fun hm => hnbO (hkids _ hm)
  have hnk : n ∉ cl ++ cr := fun hm => hnO (hkids _ hm)
  have hadopt : adoptChildren g nb 0 (kl.length + 1 + kr.length + 1)
      = .ok (adopt g nb (cl ++ cr)) := by
    rw [show kl.length + 1 + kr.length + 1 = (cl ++ cr).length by
      rw [List.length_append]; omega]
    refine adoptChildren_spec nb (cl ++ cr) pb hnbk [] g ?_
    rw [hgnb, hcr]
    simp
  refine ⟨adopt g nb (cl ++ cr), ?_, ?_, ?_, ?_, ?_, ?_⟩
  · have hif : ((h.nodes n).isLeaf = true) = False := by simp [hr.isLeaf]
    unfold pour
    simp only [hif, if_false, hl.numKeys, hr.numKeys, hputk, chk_some, ok_bind,
      hck, hcp, hlast, hputp, hg, hadopt]
  · rw [adopt_nodes, if_neg hnbk, hgnb]
    refine ⟨hl.isLeaf, hl.parent, ?_, ?_, ⟨kb, ?_, ?_⟩, ⟨pb, ?_, ?_⟩⟩
    · simp only [List.length_append, List.length_cons]
      omega
    · simp only [List.length_append, List.length_cons]
      omega
    · simp
    · simp only [List.length_append, List.length_cons]
      omega
    · rw [hcr]
      simp
    · simp only [List.length_append]
      omega
  · rw [adopt_nodes, if_neg hnk, ← hg, setNode_self]
    exact hr.parent
  · intro x hx
    have hxnb : x ≠ nb := fun he => hnbO (he ▸ hx)
    have hxn : x ≠ n := fun he => hnO (he ▸ hx)
    rw [adopt_nodes, ← hg, setNode_other _ _ hxn, setNode_other _ _ hxnb]
  · refine Owns.adopt nb _ ?_ fun x hx => by
      exact List.mem_cons_of_mem _ (List.mem_cons_of_mem _ (hkids x hx))
    rw [← hg]
    exact (o.setNode (by simp) _).setNode (by simp) _
  · refine SameRecs.trans ?_ (adopt_sameRecs ..)
    rw [← hg]
    exact (sameRecs_setNode ..).trans (sameRecs_setNode ..)

-- ============================================================ borrowing

/-- A parent whose separator was overwritten. -/
theorem NodeRep.setKey {nd : Node} {par : Option NodeId} {k₁ k₂ : List U64}
    {k : U64} {cids : List NodeId}
    (hn : NodeRep order nd par (k₁ ++ k :: k₂) cids) (k' : U64) {i : Nat}
    (hi : i = k₁.length) :
    ∃ keys, put nd.keys i k' = some keys
      ∧ NodeRep order { nd with keys := keys } par (k₁ ++ k' :: k₂) cids := by
  obtain ⟨kr, hk, hkl⟩ := hn.keys
  refine ⟨k₁ ++ k' :: (k₂ ++ kr), ?_, hn.isLeaf, hn.parent, ?_, ?_,
    ⟨kr, ?_, ?_⟩, hn.pointers⟩
  · rw [hk, List.append_assoc, List.cons_append]
    exact put_seam _ _ _ _ hi
  · rw [hn.numKeys]
    simp
  · rw [hn.fan]
    simp
  · simp
  · rw [← hkl]
    simp

/-- A borrow between `n` and `nb` under `p` writes those three nodes. -/
theorem three_writes {h : Heap} {p n nb : NodeId} {O : List NodeId}
    (o : Owns h (p :: n :: nb :: O)) (dp dn db : Node) :
    ∃ g, ((h.setNode p dp).setNode n dn).setNode nb db = g
      ∧ g.nodes p = dp ∧ g.nodes n = dn ∧ g.nodes nb = db
      ∧ (∀ x ∈ O, g.nodes x = h.nodes x)
      ∧ Owns g (p :: n :: nb :: O) ∧ SameRecs h g := by
  have hnd := o.nodup
  simp only [List.nodup_cons, List.mem_cons, not_or] at hnd
  obtain ⟨⟨hpn, hpb, hpO⟩, ⟨hnb, hnO⟩, hbO, -⟩ := hnd
  refine ⟨_, rfl, ?_, ?_, setNode_self .., ?_, ?_, ?_⟩
  · rw [setNode_other _ _ hpb, setNode_other _ _ hpn, setNode_self]
  · rw [setNode_other _ _ hnb, setNode_self]
  · intro x hx
    have hp : x ≠ p := fun he => hpO (he ▸ hx)
    have hn : x ≠ n := fun he => hnO (he ▸ hx)
    have hb : x ≠ nb := fun he => hbO (he ▸ hx)
    rw [setNode_other _ _ hb, setNode_other _ _ hn, setNode_other _ _ hp]
  · exact ((o.setNode (by simp) _).setNode (by simp) _).setNode (by simp) _
  · exact (sameRecs_setNode ..).trans
      ((sameRecs_setNode ..).trans (sameRecs_setNode ..))

/-- A leaf's blocks with their last entry in view. -/
theorem LeafRep.last {nd : Node} {par : Option NodeId}
    {L : List (U64 × RecId)} {e : U64 × RecId} {nxt : Ptr}
    (hl : LeafRep order nd par (L ++ [e]) nxt) :
    ∃ kl pl, nd.numKeys - 1 = L.length
      ∧ nd.keys = L.map Prod.fst ++ e.1 :: kl
      ∧ nd.pointers = L.map (fun e => Ptr.record e.2)
          ++ .record e.2 :: (pl ++ [nxt])
      ∧ L.length + 1 + kl.length = order - 1
      ∧ L.length + 1 + pl.length + 1 = order := by
  obtain ⟨kl, hkl, hkll⟩ := hl.keys
  obtain ⟨pl, hpl, hpll⟩ := hl.pointers
  have hnl := hl.numKeys
  simp only [List.length_append, List.length_singleton] at hkll hpll hnl
  refine ⟨kl, pl, by omega, ?_, ?_, hkll, hpll⟩
  · rw [hkl]
    simp
  · rw [hpl]
    simp

/-- A leaf's blocks with a free slot in view. -/
theorem LeafRep.room {nd : Node} {par : Option NodeId}
    {R : List (U64 × RecId)} {nxt : Ptr} (hr : LeafRep order nd par R nxt)
    (hroom : R.length < order - 1) :
    ∃ kz kr pz pr, nd.keys = R.map Prod.fst ++ kz :: kr
      ∧ nd.pointers = R.map (fun e => Ptr.record e.2) ++ pz :: (pr ++ [nxt])
      ∧ R.length + 1 + kr.length = order - 1
      ∧ R.length + 1 + pr.length + 1 = order := by
  obtain ⟨kr, hkr, hkrl⟩ := hr.keys
  obtain ⟨pr, hpr, hprl⟩ := hr.pointers
  obtain ⟨kz, kr, rfl, hkz⟩ := exists_cons_of_length (l := kr)
    (n := order - 1 - R.length - 1) (by omega)
  obtain ⟨pz, pr, rfl, hpz⟩ := exists_cons_of_length (l := pr)
    (n := order - 1 - R.length - 1) (by omega)
  exact ⟨kz, kr, pz, pr, hkr, hpr, by omega, by omega⟩

/-- An internal node's blocks with a free slot in view. -/
theorem NodeRep.room {nd : Node} {par : Option NodeId} {ks : List U64}
    {cids : List NodeId} (hr : NodeRep order nd par ks cids)
    (hroom : ks.length < order - 1) :
    ∃ kz kr pz pr, nd.keys = ks ++ kz :: kr
      ∧ nd.pointers = cids.map Ptr.node ++ pz :: pr
      ∧ ks.length + 1 + kr.length = order - 1
      ∧ cids.length + 1 + pr.length = order := by
  obtain ⟨kr, hkr, hkrl⟩ := hr.keys
  obtain ⟨pr, hpr, hprl⟩ := hr.pointers
  have hfan := hr.fan
  obtain ⟨kz, kr, rfl, hkz⟩ := exists_cons_of_length (l := kr)
    (n := order - 1 - ks.length - 1) (by omega)
  obtain ⟨pz, pr, rfl, hpz⟩ := exists_cons_of_length (l := pr)
    (n := order - cids.length - 1) (by omega)
  exact ⟨kz, kr, pz, pr, hkr, hpr, by omega, by omega⟩

/-- What a borrow leaves behind. `moved` is the child that changed
parents, if the pair is internal. -/
structure Borrowed (h h' : Heap) (p n nb : NodeId) (moved : Option NodeId)
    (O : List NodeId) : Prop where
  others : ∀ x ∈ O, h'.nodes x = if moved = some x
    then { h.nodes x with parent := some n } else h.nodes x
  owns : Owns h' (p :: n :: nb :: O)
  recs : SameRecs h h'

/-- A leaf takes the last pair of its left neighbour to its front. -/
theorem borrowFromLeft_leaf {h : Heap} {p n nb : NodeId}
    {par pp : Option NodeId} {L R : List (U64 × RecId)} {e : U64 × RecId}
    {mid nxt : Ptr} {k₁ k₂ : List U64} {k : U64} {cids O : List NodeId}
    (hl : LeafRep order (h.nodes nb) par (L ++ [e]) mid)
    (hr : LeafRep order (h.nodes n) par R nxt)
    (hp : NodeRep order (h.nodes p) pp (k₁ ++ k :: k₂) cids)
    (hroom : R.length < order - 1) (o : Owns h (p :: n :: nb :: O)) :
    ∃ h', borrowFromLeft h n nb p k₁.length k = .ok h'
      ∧ LeafRep order (h'.nodes nb) par L mid
      ∧ LeafRep order (h'.nodes n) par (e :: R) nxt
      ∧ NodeRep order (h'.nodes p) pp (k₁ ++ e.1 :: k₂) cids
      ∧ Borrowed h h' p n nb none O := by
  obtain ⟨kl, pl, hlast, hbk, hbp, hkll, hpll⟩ := hl.last
  obtain ⟨kz, kr, pz, pr, hkr, hpr, hkrl, hprl⟩ := hr.room hroom
  obtain ⟨ky, hks⟩ := shiftUp_spec [] (R.map Prod.fst) kz kr (i := 0)
    (j := R.length) rfl (by simp)
  obtain ⟨py, hps⟩ := shiftUp_spec [] (R.map fun e => Ptr.record e.2) pz
    (pr ++ [nxt]) (i := 0) (j := R.length) rfl (by simp)
  have hks' : shiftUp (h.nodes n).keys 0 (h.nodes n).numKeys
      = some (ky :: (R.map Prod.fst ++ kr)) := by
    rw [hkr, hr.numKeys]
    exact hks
  have hps' : shiftUp (h.nodes n).pointers 0 (h.nodes n).numKeys
      = some (py :: (R.map (fun e => Ptr.record e.2) ++ (pr ++ [nxt]))) := by
    rw [hpr, hr.numKeys]
    exact hps
  have hreadp : (h.nodes nb).pointers[L.length]? = some (.record e.2) := by
    rw [hbp]
    exact getElem?_seam _ _ _ (by simp)
  have hreadk : (h.nodes nb).keys[L.length]? = some e.1 := by
    rw [hbk]
    exact getElem?_seam _ _ _ (by simp)
  have hputb : put (h.nodes nb).pointers L.length .null
      = some (L.map (fun e => Ptr.record e.2) ++ .null :: (pl ++ [mid])) := by
    rw [hbp]
    exact put_seam _ _ _ _ (by simp)
  have hputp : put (py :: (R.map (fun e => Ptr.record e.2) ++ (pr ++ [nxt])))
      0 (.record e.2)
      = some (.record e.2 :: (R.map (fun e => Ptr.record e.2)
        ++ (pr ++ [nxt]))) := put_seam [] _ _ _ rfl
  have hputk : put (ky :: (R.map Prod.fst ++ kr)) 0 e.1
      = some (e.1 :: (R.map Prod.fst ++ kr)) := put_seam [] _ _ _ rfl
  obtain ⟨keys, hkeys, hpk⟩ := hp.setKey e.1 rfl
  have hif : ((h.nodes n).isLeaf = true) = True := by simp [hr.isLeaf]
  obtain ⟨g, hg, hgp, hgn, hgb, hgo, og, sg⟩ := three_writes o
    { h.nodes p with keys := keys }
    { h.nodes n with
      keys := e.1 :: (R.map Prod.fst ++ kr)
      pointers := .record e.2 :: (R.map (fun e => Ptr.record e.2)
        ++ (pr ++ [nxt]))
      numKeys := (h.nodes n).numKeys + 1 }
    { h.nodes nb with
      pointers := L.map (fun e => Ptr.record e.2) ++ .null :: (pl ++ [mid])
      numKeys := L.length }
  refine ⟨g, ?_, ?_, ?_, ?_, ?_, og, sg⟩
  · unfold borrowFromLeft
    simp only [hif, if_true, hks', hps', chk_some, ok_bind, hlast, hreadp,
      hputp, hputb, hreadk, hputk, hkeys, hg]
  · rw [hgb]
    refine ⟨hl.isLeaf, hl.parent, rfl, ⟨e.1 :: kl, hbk, ?_⟩,
      ⟨.null :: pl, by simp, ?_⟩⟩
    · rw [List.length_cons]
      omega
    · rw [List.length_cons]
      omega
  · rw [hgn]
    refine ⟨hr.isLeaf, hr.parent, by simp [hr.numKeys], ⟨kr, by simp, ?_⟩,
      ⟨pr, by simp, ?_⟩⟩
    · rw [List.length_cons]
      omega
    · rw [List.length_cons]
      omega
  · rw [hgp]
    exact hpk
  · intro x hx
    rw [if_neg (by simp)]
    exact hgo x hx

/-- A leaf takes the first pair of its right neighbour to its end. -/
theorem borrowFromRight_leaf {h : Heap} {p n nb : NodeId}
    {par pp : Option NodeId} {L R : List (U64 × RecId)} {e f : U64 × RecId}
    {mid nxt : Ptr} {k₁ k₂ : List U64} {k : U64} {cids O : List NodeId}
    (hl : LeafRep order (h.nodes n) par L mid)
    (hr : LeafRep order (h.nodes nb) par (e :: f :: R) nxt)
    (hp : NodeRep order (h.nodes p) pp (k₁ ++ k :: k₂) cids)
    (hroom : L.length < order - 1) (o : Owns h (p :: n :: nb :: O)) :
    ∃ h', borrowFromRight h n nb p k₁.length k = .ok h'
      ∧ LeafRep order (h'.nodes n) par (L ++ [e]) mid
      ∧ LeafRep order (h'.nodes nb) par (f :: R) nxt
      ∧ NodeRep order (h'.nodes p) pp (k₁ ++ f.1 :: k₂) cids
      ∧ Borrowed h h' p n nb none O := by
  obtain ⟨kz, kl, pz, pl, hkl, hpl, hkll, hpll⟩ := hl.room hroom
  obtain ⟨kr, hkr, hkrl⟩ := hr.keys
  obtain ⟨pr, hpr, hprl⟩ := hr.pointers
  have hnr := hr.numKeys
  simp only [List.length_cons] at hkrl hprl hnr
  have hcount : (h.nodes nb).numKeys - 1 = (f :: R).length := by
    rw [List.length_cons]
    omega
  obtain ⟨ky, hks⟩ := shiftDown_spec [] e.1 ((f :: R).map Prod.fst) kr
    (i := 0) (n := (f :: R).length) rfl (by simp)
  obtain ⟨py, hps⟩ := shiftDown_spec [] (Ptr.record e.2)
    ((f :: R).map fun e => Ptr.record e.2) (pr ++ [nxt])
    (i := 0) (n := (f :: R).length) rfl (by simp)
  have hks' : shiftDown (h.nodes nb).keys 0 (f :: R).length
      = some ((f :: R).map Prod.fst ++ ky :: kr) := by
    rw [hkr]
    exact hks
  have hps' : shiftDown (h.nodes nb).pointers 0 (f :: R).length
      = some ((f :: R).map (fun e => Ptr.record e.2) ++ py :: (pr ++ [nxt])) := by
    rw [hpr]
    exact hps
  have hreadk : (h.nodes nb).keys[0]? = some e.1 := by
    rw [hkr]
    rfl
  have hreadk₁ : (h.nodes nb).keys[1]? = some f.1 := by
    rw [hkr]
    rfl
  have hreadp : (h.nodes nb).pointers[0]? = some (.record e.2) := by
    rw [hpr]
    rfl
  have hputk : put (h.nodes n).keys (h.nodes n).numKeys e.1
      = some (L.map Prod.fst ++ e.1 :: kl) := by
    rw [hkl]
    exact put_seam _ _ _ _ (by simp [hl.numKeys])
  have hputp : put (h.nodes n).pointers (h.nodes n).numKeys (.record e.2)
      = some (L.map (fun e => Ptr.record e.2)
        ++ .record e.2 :: (pl ++ [mid])) := by
    rw [hpl]
    exact put_seam _ _ _ _ (by simp [hl.numKeys])
  obtain ⟨keys, hkeys, hpk⟩ := hp.setKey f.1 rfl
  have hif : ((h.nodes n).isLeaf = true) = True := by simp [hl.isLeaf]
  obtain ⟨g, hg, hgp, hgn, hgb, hgo, og, sg⟩ := three_writes o
    { h.nodes p with keys := keys }
    { h.nodes n with
      keys := L.map Prod.fst ++ e.1 :: kl
      pointers := L.map (fun e => Ptr.record e.2)
        ++ .record e.2 :: (pl ++ [mid])
      numKeys := (h.nodes n).numKeys + 1 }
    { h.nodes nb with
      keys := (f :: R).map Prod.fst ++ ky :: kr
      pointers := (f :: R).map (fun e => Ptr.record e.2) ++ py :: (pr ++ [nxt])
      numKeys := (f :: R).length }
  refine ⟨g, ?_, ?_, ?_, ?_, ?_, og, sg⟩
  · unfold borrowFromRight
    simp only [hif, if_true, hks', hps', chk_some, ok_bind, hcount, hreadp,
      hputp, hreadk, hreadk₁, hputk, hkeys, hg]
  · rw [hgn]
    refine ⟨hl.isLeaf, hl.parent, by simp [hl.numKeys], ⟨kl, by simp, ?_⟩,
      ⟨pl, by simp, ?_⟩⟩
    · rw [List.length_append, List.length_singleton]
      omega
    · rw [List.length_append, List.length_singleton]
      omega
  · rw [hgb]
    refine ⟨hr.isLeaf, hr.parent, rfl, ⟨ky :: kr, rfl, ?_⟩,
      ⟨py :: pr, rfl, ?_⟩⟩
    · simp only [List.length_cons]
      omega
    · simp only [List.length_cons]
      omega
  · rw [hgp]
    exact hpk
  · intro x hx
    rw [if_neg (by simp)]
    exact hgo x hx

/-- The last move of an internal borrow: the child that changed sides
gets its new parent. -/
theorem Borrowed.move {h g : Heap} {p n nb c : NodeId} {O : List NodeId}
    (hgo : ∀ x ∈ O, g.nodes x = h.nodes x)
    (og : Owns g (p :: n :: nb :: O)) (sg : SameRecs h g) (hc : c ∈ O) :
    Borrowed h (g.setParent c (some n)) p n nb (some c) O
      ∧ (g.setParent c (some n)).nodes p = g.nodes p
      ∧ (g.setParent c (some n)).nodes n = g.nodes n
      ∧ (g.setParent c (some n)).nodes nb = g.nodes nb := by
  have hnd := og.nodup
  simp only [List.nodup_cons, List.mem_cons, not_or] at hnd
  obtain ⟨⟨-, -, hpO⟩, ⟨-, hnO⟩, hbO, -⟩ := hnd
  refine ⟨⟨?_, og.setParent (by simp [hc]) _, sg.trans (sameRecs_setParent ..)⟩,
    setParent_other _ _ (fun he => hpO (he ▸ hc)),
    setParent_other _ _ (fun he => hnO (he ▸ hc)),
    setParent_other _ _ (fun he => hbO (he ▸ hc))⟩
  intro x hx
  by_cases hxc : x = c
  · rw [hxc, if_pos rfl, setParent_self, hgo c hc]
  · rw [setParent_other _ _ hxc, if_neg (by simpa using Ne.symm hxc), hgo x hx]

/-- An inner node takes the last child of its left neighbour to its front. -/
theorem borrowFromLeft_node {h : Heap} {p n nb c : NodeId}
    {par pp : Option NodeId} {kl kr k₁ k₂ : List U64} {k k' : U64}
    {cl cr cids O : List NodeId}
    (hl : NodeRep order (h.nodes nb) par (kl ++ [k']) (cl ++ [c]))
    (hr : NodeRep order (h.nodes n) par kr cr)
    (hp : NodeRep order (h.nodes p) pp (k₁ ++ k :: k₂) cids)
    (hroom : kr.length < order - 1) (o : Owns h (p :: n :: nb :: O))
    (hc : c ∈ O) :
    ∃ h', borrowFromLeft h n nb p k₁.length k = .ok h'
      ∧ NodeRep order (h'.nodes nb) par kl cl
      ∧ NodeRep order (h'.nodes n) par (k :: kr) (c :: cr)
      ∧ NodeRep order (h'.nodes p) pp (k₁ ++ k' :: k₂) cids
      ∧ Borrowed h h' p n nb (some c) O := by
  obtain ⟨kbs, hkb, hkbl⟩ := hl.keys
  obtain ⟨pbs, hpb, hpbl⟩ := hl.pointers
  have hfl := hl.fan
  have hnl := hl.numKeys
  simp only [List.length_append, List.length_singleton]
    at hkbl hpbl hfl hnl
  obtain ⟨kz, krs, pz, prs, hkr, hpr, hkrl, hprl⟩ := hr.room hroom
  have hfr := hr.fan
  obtain ⟨cr', c', hcr, hcrl⟩ := exists_concat_of_length hfr
  have hbk : (h.nodes nb).keys = kl ++ k' :: kbs := by
    rw [hkb]
    simp
  have hbp : (h.nodes nb).pointers
      = cl.map Ptr.node ++ .node c :: pbs := by
    rw [hpb]
    simp
  have hlast : (h.nodes n).pointers[kr.length]? = some (.node c') := by
    rw [hpr, hcr, List.map_append, List.append_assoc]
    exact getElem?_seam _ _ _ (by simp [hcrl])
  have hput₀ : put (h.nodes n).pointers (kr.length + 1) (.node c')
      = some (cr'.map Ptr.node ++ .node c' :: .node c' :: prs) := by
    rw [hpr, put_seam _ _ _ _ (by simp [hfr]), hcr]
    simp
  obtain ⟨ky, hks⟩ := shiftUp_spec [] kr kz krs (i := 0)
    (j := kr.length) rfl (by simp)
  obtain ⟨py, hps⟩ := shiftUp_spec [] (cr'.map Ptr.node) (Ptr.node c')
    (Ptr.node c' :: prs) (i := 0) (j := kr.length) rfl (by simp [hcrl])
  have hks' : shiftUp (h.nodes n).keys 0 kr.length
      = some (ky :: (kr ++ krs)) := by
    rw [hkr]
    exact hks
  have hreadp : (h.nodes nb).pointers[kl.length + 1]? = some (.node c) := by
    rw [hbp]
    exact getElem?_seam _ _ _ (by simp; omega)
  have hreadk : (h.nodes nb).keys[kl.length]? = some k' := by
    rw [hbk]
    exact getElem?_seam _ _ _ rfl
  have hputb : put (h.nodes nb).pointers (kl.length + 1) .null
      = some (cl.map Ptr.node ++ .null :: pbs) := by
    rw [hbp]
    exact put_seam _ _ _ _ (by simp; omega)
  have hputp : put (py :: (cr'.map Ptr.node ++ .node c' :: prs)) 0 (.node c)
      = some (.node c :: (cr'.map Ptr.node ++ .node c' :: prs)) :=
    put_seam [] _ _ _ rfl
  have hputk : put (ky :: (kr ++ krs)) 0 k = some (k :: (kr ++ krs)) :=
    put_seam [] _ _ _ rfl
  obtain ⟨keys, hkeys, hpk⟩ := hp.setKey k' rfl
  have hif : ((h.nodes n).isLeaf = true) = False := by simp [hr.isLeaf]
  obtain ⟨g, hg, hgp, hgn, hgb, hgo, og, sg⟩ := three_writes o
    { h.nodes p with keys := keys }
    { h.nodes n with
      keys := k :: (kr ++ krs)
      pointers := .node c :: (cr'.map Ptr.node ++ .node c' :: prs)
      numKeys := kr.length + 1 }
    { h.nodes nb with
      pointers := cl.map Ptr.node ++ .null :: pbs
      numKeys := kl.length }
  obtain ⟨hbor, hmp, hmn, hmb⟩ := Borrowed.move hgo og sg hc
  refine ⟨g.setParent c (some n), ?_, ?_, ?_, ?_, hbor⟩
  · simp only [List.nil_append] at hps
    unfold borrowFromLeft
    simp only [hif, if_false, hr.numKeys, hnl, hlast, hput₀, hks', hps,
      chk_some, ok_bind, Nat.add_sub_cancel, hreadp, hputp, asNode_node,
      hputb, hreadk, hputk, hkeys, hg]
  · rw [hmb, hgb]
    refine ⟨hl.isLeaf, hl.parent, rfl, by omega, ⟨k' :: kbs, hbk, ?_⟩,
      ⟨.null :: pbs, rfl, ?_⟩⟩
    · rw [List.length_cons]
      omega
    · rw [List.length_cons]
      omega
  · rw [hmn, hgn]
    refine ⟨hr.isLeaf, hr.parent, rfl, by simp [hfr], ⟨krs, rfl, ?_⟩,
      ⟨prs, ?_, ?_⟩⟩
    · rw [List.length_cons]
      omega
    · rw [hcr]
      simp
    · rw [List.length_cons]
      omega
  · rw [hmp, hgp]
    exact hpk

/-- An inner node takes the first child of its right neighbour to its end. -/
theorem borrowFromRight_node {h : Heap} {p n nb c : NodeId}
    {par pp : Option NodeId} {kl kr k₁ k₂ : List U64} {k k' : U64}
    {cl cr cids O : List NodeId}
    (hl : NodeRep order (h.nodes n) par kl cl)
    (hr : NodeRep order (h.nodes nb) par (k' :: kr) (c :: cr))
    (hp : NodeRep order (h.nodes p) pp (k₁ ++ k :: k₂) cids)
    (hroom : kl.length < order - 1) (o : Owns h (p :: n :: nb :: O))
    (hc : c ∈ O) :
    ∃ h', borrowFromRight h n nb p k₁.length k = .ok h'
      ∧ NodeRep order (h'.nodes n) par (kl ++ [k]) (cl ++ [c])
      ∧ NodeRep order (h'.nodes nb) par kr cr
      ∧ NodeRep order (h'.nodes p) pp (k₁ ++ k' :: k₂) cids
      ∧ Borrowed h h' p n nb (some c) O := by
  obtain ⟨kz, kls, pz, pls, hkl, hpl, hkll, hpll⟩ := hl.room hroom
  obtain ⟨krs, hkr, hkrl⟩ := hr.keys
  obtain ⟨prs, hpr, hprl⟩ := hr.pointers
  have hfl := hl.fan
  have hfr := hr.fan
  have hnr := hr.numKeys
  simp only [List.length_cons] at hkrl hprl hfr hnr
  obtain ⟨ky, hks⟩ := shiftDown_spec [] k' kr krs (i := 0) (n := kr.length)
    rfl rfl
  obtain ⟨py, hps⟩ := shiftDown_spec [] (Ptr.node c) (cr.map Ptr.node) prs
    (i := 0) (n := kr.length + 1) rfl (by simp; omega)
  have hks' : shiftDown (h.nodes nb).keys 0 kr.length
      = some (kr ++ ky :: krs) := by
    rw [hkr]
    exact hks
  have hps' : shiftDown (h.nodes nb).pointers 0 (kr.length + 1)
      = some (cr.map Ptr.node ++ py :: prs) := by
    rw [hpr]
    exact hps
  have hreadk : (h.nodes nb).keys[0]? = some k' := by
    rw [hkr]
    rfl
  have hreadp : (h.nodes nb).pointers[0]? = some (.node c) := by
    rw [hpr]
    rfl
  have hputk : put (h.nodes n).keys kl.length k = some (kl ++ k :: kls) := by
    rw [hkl]
    exact put_seam _ _ _ _ rfl
  have hputp : put (h.nodes n).pointers (kl.length + 1) (.node c)
      = some (cl.map Ptr.node ++ .node c :: pls) := by
    rw [hpl]
    exact put_seam _ _ _ _ (by simp [hfl])
  obtain ⟨keys, hkeys, hpk⟩ := hp.setKey k' rfl
  have hif : ((h.nodes n).isLeaf = true) = False := by simp [hl.isLeaf]
  obtain ⟨g, hg, hgp, hgn, hgb, hgo, og, sg⟩ := three_writes o
    { h.nodes p with keys := keys }
    { h.nodes n with
      keys := kl ++ k :: kls
      pointers := cl.map Ptr.node ++ .node c :: pls
      numKeys := kl.length + 1 }
    { h.nodes nb with
      keys := kr ++ ky :: krs
      pointers := cr.map Ptr.node ++ py :: prs
      numKeys := kr.length }
  obtain ⟨hbor, hmp, hmn, hmb⟩ := Borrowed.move hgo og sg hc
  refine ⟨g.setParent c (some n), ?_, ?_, ?_, ?_, hbor⟩
  · unfold borrowFromRight
    simp only [hif, if_false, hl.numKeys, hnr, hks', hps', chk_some, ok_bind,
      Nat.add_sub_cancel, hreadp, hputp, asNode_node, hreadk, hputk, hkeys, hg]
  · rw [hmn, hgn]
    refine ⟨hl.isLeaf, hl.parent, by simp, by simp [hfl], ⟨kls, by simp, ?_⟩,
      ⟨pls, by simp, ?_⟩⟩
    · rw [List.length_append, List.length_singleton]
      omega
    · rw [List.length_append, List.length_singleton]
      omega
  · rw [hmb, hgb]
    refine ⟨hr.isLeaf, hr.parent, rfl, by omega, ⟨ky :: krs, rfl, ?_⟩,
      ⟨py :: prs, rfl, ?_⟩⟩
    · rw [List.length_cons]
      omega
    · rw [List.length_cons]
      omega
  · rw [hmp, hgp]
    exact hpk

end ThesisBench.Btree

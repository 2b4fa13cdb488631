/-
What the insertion functions do to the one or two nodes they write.

Each theorem takes the node's fields as `LeafRep` or `NodeRep`, runs one
C function, and hands back the new fields in the same vocabulary; the
array loops are discharged here by the specifications of `Lib/CArray`
and do not appear again.

The splitting functions end in a climb. Their theorems say which climb:
the heap it starts from and its three arguments.
-/
import ThesisBench.Btree.Tree
import ThesisBench.Btree.Proofs.Memory

namespace ThesisBench.Btree

open CArray SepList

variable {order : Nat}

-- ============================================================== cutting

/-- `cut` halves, rounding up. -/
theorem cut_eq (n : Nat) : cut n = (n + 1) / 2 := by
  unfold cut
  split <;> omega

/-- `cut` of two or more leaves something on both sides. -/
theorem cut_between {n : Nat} (h : 1 < n) : 0 < cut n ∧ cut n < n := by
  rw [cut_eq]
  omega

-- ================================================================ leaves

/-- The entries an insertion passes over. -/
def below (key : U64) (e : U64 × RecId) : Bool := decide (e.1 < key)

/-- A leaf's entries after an insertion. -/
def insertEntry (es : List (U64 × RecId)) (key : U64) (r : RecId) :
    List (U64 × RecId) :=
  es.takeWhile (below key) ++ (key, r) :: es.dropWhile (below key)

/-- An insert makes the list longer by one. -/
theorem insertEntry_length (es : List (U64 × RecId)) (key : U64) (r : RecId) :
    (insertEntry es key r).length = es.length + 1 := by
  have h := congrArg List.length
    (List.takeWhile_append_dropWhile (p := below key) (l := es))
  rw [List.length_append] at h
  rw [insertEntry, List.length_append, List.length_cons]
  omega

/-- The insertion-point scan over a leaf's keys. -/
theorem scan_below (es : List (U64 × RecId)) (kr : List U64) (key : U64)
    {n : Nat} (hn : n = es.length) :
    scanWhile (fun k => decide (k < key)) (es.map Prod.fst ++ kr) 0 n
      = some (es.takeWhile (below key)).length := by
  rw [scanWhile_spec _ _ _ (by rw [hn, List.length_map]), List.takeWhile_map,
    List.length_map]
  rfl

/-- `insert_into_leaf` puts the pair in its place by key. -/
theorem insertIntoLeaf_spec {h : Heap} {leaf : NodeId} {par : Option NodeId}
    {es : List (U64 × RecId)} {nxt : Ptr}
    (hr : LeafRep order (h.nodes leaf) par es nxt)
    (hroom : es.length < order - 1) (key : U64) (r : RecId) :
    ∃ nd, insertIntoLeaf h leaf key r = .ok (h.setNode leaf nd)
      ∧ LeafRep order nd par (insertEntry es key r) nxt := by
  obtain ⟨kr, hk, hkl⟩ := hr.keys
  obtain ⟨pr, hp, hpl⟩ := hr.pointers
  obtain ⟨kz, kr, rfl, hkr⟩ := exists_cons_of_length (l := kr)
    (n := order - 1 - es.length - 1) (by omega)
  obtain ⟨pz, pr, rfl, hpr⟩ := exists_cons_of_length (l := pr)
    (n := order - 1 - es.length - 1) (by omega)
  have hscan := scan_below es (kz :: kr) key rfl
  have hes : es = es.takeWhile (below key) ++ es.dropWhile (below key) :=
    List.takeWhile_append_dropWhile.symm
  have hins : insertEntry es key r
      = es.takeWhile (below key) ++ (key, r) :: es.dropWhile (below key) := rfl
  have hlen : es.length = (es.takeWhile (below key)).length
      + (es.dropWhile (below key)).length := by
    rw [← List.length_append, ← hes]
  rw [hins]
  generalize es.takeWhile (below key) = a at *
  generalize es.dropWhile (below key) = b at *
  obtain ⟨ky, hks⟩ := shiftUp_spec (a.map Prod.fst) (b.map Prod.fst) kz kr
    (i := a.length) (j := es.length) (by simp) (by simp [hlen])
  obtain ⟨py, hps⟩ := shiftUp_spec (a.map fun e => Ptr.record e.2)
    (b.map fun e => Ptr.record e.2) pz (pr ++ [nxt])
    (i := a.length) (j := es.length) (by simp) (by simp [hlen])
  have hk' : (h.nodes leaf).keys
      = a.map Prod.fst ++ b.map Prod.fst ++ kz :: kr := by
    rw [hk, hes, List.map_append]
  have hp' : (h.nodes leaf).pointers
      = a.map (fun e => Ptr.record e.2) ++ b.map (fun e => Ptr.record e.2)
        ++ pz :: (pr ++ [nxt]) := by
    rw [hp, hes, List.map_append]
    rfl
  refine ⟨{ h.nodes leaf with
      keys := a.map Prod.fst ++ key :: (b.map Prod.fst ++ kr)
      pointers := a.map (fun e => Ptr.record e.2)
        ++ .record r :: (b.map (fun e => Ptr.record e.2) ++ (pr ++ [nxt]))
      numKeys := es.length + 1 }, ?_,
    ⟨hr.isLeaf, hr.parent, ?_, ⟨kr, ?_, ?_⟩, ⟨pr, ?_, ?_⟩⟩⟩
  · unfold insertIntoLeaf
    simp only [hr.numKeys]
    rw [hk, hscan, chk_some, ok_bind, ← hk, hk', hks, chk_some, ok_bind, hp',
      hps, chk_some, ok_bind, put_seam _ _ _ _ (by simp), chk_some, ok_bind,
      put_seam _ _ _ _ (by simp), chk_some, ok_bind]
  · simp only [List.length_append, List.length_cons]
    omega
  · simp
  · simp only [List.length_append, List.length_cons]
    omega
  · simp
  · simp only [List.length_append, List.length_cons]
    omega

/-- Gathering a block and one new word in a temporary block that is
larger by `extra + 1`. -/
theorem gather_steps {α : Type} (a b tail : List α) (z x : α) (extra : Nat)
    {g n m : Nat} (hg : g = a.length) (hn : n = a.length + b.length)
    (hm : m = n + 1 + extra) :
    ∃ t, copyGap (a ++ b ++ tail) g (List.replicate m z) 0 0 n = some t
      ∧ put t g x = some (a ++ x :: (b ++ List.replicate extra z)) := by
  have hrep : List.replicate m z = List.replicate a.length z
      ++ z :: (List.replicate b.length z ++ List.replicate extra z) := by
    rw [List.replicate_append_replicate, ← List.replicate_succ,
      List.replicate_append_replicate]
    congr 1
    omega
  rw [hrep, copyGap_spec a b tail _ z _ _ hg hn (by simp) (by simp)]
  exact ⟨_, rfl, put_seam _ _ _ _ hg⟩

/-- Copying a block into a fresh zeroed one. -/
theorem copy_fresh {α : Type} (sp s sr : List α) (z : α)
    {si n len : Nat} (hsi : si = sp.length) (hs : n = s.length)
    (hlen : n ≤ len) :
    copy (sp ++ s ++ sr) si (List.replicate len z) 0 n
      = some (s ++ List.replicate (len - n) z) := by
  have hrep : List.replicate len z
      = [] ++ List.replicate n z ++ List.replicate (len - n) z := by
    rw [List.nil_append, List.replicate_append_replicate]
    congr 1
    omega
  rw [hrep]
  exact copy_spec sp s sr [] _ _ hsi rfl hs (by simp)

/-- A full leaf and the new pair are shared with a fresh leaf behind it,
whose first key is what the climb inserts. -/
theorem insertIntoLeafAfterSplitting_spec (horder : 3 ≤ order) {h : Heap}
    {leaf : NodeId} {par : Option NodeId} {es : List (U64 × RecId)} {nxt : Ptr}
    {O : List NodeId} (hr : LeafRep order (h.nodes leaf) par es nxt)
    (hfull : es.length = order - 1) (o : Owns h (leaf :: O)) (climb : Climb)
    (root : NodeId) (key : U64) (r : RecId) :
    ∃ new h' L R k,
      insertIntoLeafAfterSplitting order climb h root leaf key r
          = climb h' root leaf k new
        ∧ L ++ R = insertEntry es key r ∧ L.length = cut (order - 1)
        ∧ R.head?.map Prod.fst = some k
        ∧ LeafRep order (h'.nodes leaf) par L (.node new)
        ∧ LeafRep order (h'.nodes new) par R nxt
        ∧ Owns h' (new :: leaf :: O) ∧ Agree h h' O ∧ SameRecs h h' := by
  obtain ⟨new, h₁, hmk, o₁, ha, hblank, hs, -⟩ := makeLeaf_spec order o
  have hnew : new ∉ leaf :: O := (List.nodup_cons.mp o₁.nodup).1
  have hleafO : leaf ∉ O := (List.nodup_cons.mp o.nodup).1
  have hleaf : h₁.nodes leaf = h.nodes leaf := ha leaf (List.mem_cons_self ..)
  rw [← hleaf] at hr
  obtain ⟨kr, hk, hkl⟩ := hr.keys
  obtain ⟨pr, hp, hpl⟩ := hr.pointers
  have hkr : kr = [] := List.length_eq_zero_iff.mp (by omega)
  have hpr : pr = [] := List.length_eq_zero_iff.mp (by omega)
  subst hkr hpr
  have hcut := cut_between (n := order - 1) (by omega)
  have hscan := scan_below es [] key (n := order - 1) (by omega)
  have hins := insertEntry_length es key r
  have hinsdef : insertEntry es key r
      = es.takeWhile (below key) ++ (key, r) :: es.dropWhile (below key) := rfl
  have hes : es = es.takeWhile (below key) ++ es.dropWhile (below key) :=
    List.takeWhile_append_dropWhile.symm
  generalize es.takeWhile (below key) = a at *
  generalize es.dropWhile (below key) = b at *
  have hab : es.length = a.length + b.length := by
    rw [hes, List.length_append]
  -- the temporary blocks hold the entries in order, then one spare word
  obtain ⟨tk, htk₁, htk₂⟩ := gather_steps (a.map Prod.fst) (b.map Prod.fst)
    [] (0 : U64) key 1 (g := a.length) (n := es.length) (m := order + 1)
    (by simp) (by simp [hab]) (by omega)
  obtain ⟨tp, htp₁, htp₂⟩ := gather_steps (a.map fun e => Ptr.record e.2)
    (b.map fun e => Ptr.record e.2) [nxt] Ptr.null (.record r) 1
    (g := a.length) (n := es.length) (m := order + 1)
    (by simp) (by simp [hab]) (by omega)
  obtain ⟨L, R, hLR, hL, hR⟩ := exists_split_of_length
    (l := insertEntry es key r) (m := cut (order - 1))
    (n := order - cut (order - 1)) (by omega)
  have htk : a.map Prod.fst ++ key :: (b.map Prod.fst ++ List.replicate 1 0)
      = L.map Prod.fst ++ R.map Prod.fst ++ [0] := by
    rw [← List.map_append, ← hLR, hinsdef]
    simp
  have htp : a.map (fun e => Ptr.record e.2) ++ .record r
        :: (b.map (fun e => Ptr.record e.2) ++ List.replicate 1 Ptr.null)
      = L.map (fun e => Ptr.record e.2) ++ R.map (fun e => Ptr.record e.2)
        ++ [.null] := by
    rw [← List.map_append, ← hLR, hinsdef]
    simp
  rw [htk] at htk₂
  rw [htp] at htp₂
  -- the old leaf's blocks, cut where the copy ends
  have hrest : es.length
      = cut (order - 1) + (order - 1 - cut (order - 1)) := by omega
  obtain ⟨ka, kb, hkab, hka, hkb⟩ := exists_split_of_length
    (l := es.map Prod.fst) (by rw [List.length_map, hrest])
  obtain ⟨pa, pb, hpab, hpa, hpb⟩ := exists_split_of_length
    (l := es.map fun e => Ptr.record e.2) (by rw [List.length_map, hrest])
  -- every step below is about the words as the heap holds them
  have hscan' : scanWhile (fun k => decide (k < key)) (h₁.nodes leaf).keys
      0 (order - 1) = some a.length := by rw [hk]; exact hscan
  have hgk : copyGap (h₁.nodes leaf).keys a.length
      (List.replicate (order + 1) 0) 0 0 es.length = some tk := by
    rw [hk, hes, List.map_append, ← hes]
    exact htk₁
  have hgp : copyGap (h₁.nodes leaf).pointers a.length
      (List.replicate (order + 1) Ptr.null) 0 0 es.length = some tp := by
    rw [hp, hes, List.map_append, ← hes]
    exact htp₁
  have hck : copy (L.map Prod.fst ++ R.map Prod.fst ++ [0]) 0
      (h₁.nodes leaf).keys 0 (cut (order - 1))
      = some (L.map Prod.fst ++ kb) := by
    rw [hk, List.append_nil, hkab, List.append_assoc]
    exact copy_spec [] _ _ [] ka kb rfl rfl (by simp [hL]) hka.symm
  have hcp : copy (L.map (fun e => Ptr.record e.2)
        ++ R.map (fun e => Ptr.record e.2) ++ [.null]) 0
      (h₁.nodes leaf).pointers 0 (cut (order - 1))
      = some (L.map (fun e => Ptr.record e.2) ++ (pb ++ [nxt])) := by
    rw [hp, List.nil_append, hpab, List.append_assoc, List.append_assoc]
    exact copy_spec [] _ _ [] pa _ rfl rfl (by simp [hL]) hpa.symm
  have hcnk : copy (L.map Prod.fst ++ R.map Prod.fst ++ [0])
      (cut (order - 1)) (h₁.nodes new).keys 0 (order - cut (order - 1))
      = some (R.map Prod.fst
        ++ List.replicate (order - 1 - (order - cut (order - 1))) 0) := by
    rw [hblank]
    exact copy_fresh _ _ _ _ (by simp [hL]) (by simp [hR]) (by omega)
  have hspare : order - (order - cut (order - 1))
      = order - 1 - (order - cut (order - 1)) + 1 := by omega
  have hcnp : copy (L.map (fun e => Ptr.record e.2)
        ++ R.map (fun e => Ptr.record e.2) ++ [.null])
      (cut (order - 1)) (h₁.nodes new).pointers 0 (order - cut (order - 1))
      = some (R.map (fun e => Ptr.record e.2)
        ++ List.replicate (order - 1 - (order - cut (order - 1))) .null
        ++ [.null]) := by
    rw [hblank, List.append_assoc (R.map _), ← List.replicate_succ', ← hspare]
    exact copy_fresh _ _ _ _ (by simp [hL]) (by simp [hR]) (by omega)
  have hchain : (L.map (fun e => Ptr.record e.2) ++ (pb ++ [nxt]))[order - 1]?
      = some nxt := by
    rw [← List.append_assoc]
    exact getElem?_seam _ _ _ (by simp [hL, hpb]; omega)
  have hlast : put (R.map (fun e => Ptr.record e.2)
        ++ List.replicate (order - 1 - (order - cut (order - 1))) .null
        ++ [.null]) (order - 1) nxt
      = some (R.map (fun e => Ptr.record e.2)
        ++ List.replicate (order - 1 - (order - cut (order - 1))) .null
        ++ [nxt]) := by
    exact put_seam _ _ _ _ (by simp [hR]; omega)
  have hlink : put (L.map (fun e => Ptr.record e.2) ++ (pb ++ [nxt]))
        (order - 1) (.node new)
      = some (L.map (fun e => Ptr.record e.2) ++ (pb ++ [.node new])) := by
    rw [← List.append_assoc, ← List.append_assoc]
    exact put_seam _ _ _ _ (by simp [hL, hpb]; omega)
  have hfill : fill (L.map (fun e => Ptr.record e.2) ++ (pb ++ [.node new]))
        .null (cut (order - 1)) (order - 1 - cut (order - 1))
      = some (L.map (fun e => Ptr.record e.2)
        ++ List.replicate (order - 1 - cut (order - 1)) .null
        ++ [.node new]) := by
    rw [← List.append_assoc]
    exact fill_spec _ _ _ _ (by simp [hL]) hpb.symm
  have hfill' : fill (R.map (fun e => Ptr.record e.2)
        ++ List.replicate (order - 1 - (order - cut (order - 1))) .null
        ++ [nxt]) .null (order - cut (order - 1))
        (order - 1 - (order - cut (order - 1)))
      = some (R.map (fun e => Ptr.record e.2)
        ++ List.replicate (order - 1 - (order - cut (order - 1))) .null
        ++ [nxt]) :=
    fill_spec _ _ _ _ (by simp [hR]) (by simp)
  obtain ⟨e0, R', hR0, -⟩ := exists_cons_of_length (l := R)
    (n := order - cut (order - 1) - 1) (by omega)
  have hnewKey : (R.map Prod.fst ++ List.replicate
      (order - 1 - (order - cut (order - 1))) 0)[0]? = some e0.1 := by
    rw [hR0]
    rfl
  have hne : leaf ≠ new := fun he => hnew (he ▸ List.mem_cons_self ..)
  refine ⟨new,
    (h₁.setNode leaf { h₁.nodes leaf with
        keys := L.map Prod.fst ++ kb
        pointers := L.map (fun e => Ptr.record e.2)
          ++ List.replicate (order - 1 - cut (order - 1)) .null ++ [.node new]
        numKeys := cut (order - 1) }).setNode new
      { h₁.nodes new with
        keys := R.map Prod.fst
          ++ List.replicate (order - 1 - (order - cut (order - 1))) 0
        pointers := R.map (fun e => Ptr.record e.2)
          ++ List.replicate (order - 1 - (order - cut (order - 1))) .null
          ++ [nxt]
        numKeys := order - cut (order - 1)
        parent := par },
    L, R, e0.1, ?_, hLR.symm, hL, by rw [hR0]; rfl, ?_, ?_, ?_, ?_, ?_⟩
  · unfold insertIntoLeafAfterSplitting
    simp only [hmk, ok_bind, hr.numKeys, hr.parent, hscan', chk_some, hgk, hgp,
      htk₂, htp₂, hck, hcp, hcnk, hcnp, hchain, hlast, hlink, hfill, hfill',
      hnewKey]
  · rw [setNode_other _ _ hne, setNode_self]
    refine ⟨hr.isLeaf, hr.parent, hL.symm, ⟨kb, rfl, by omega⟩,
      ⟨_, List.append_assoc .., ?_⟩⟩
    rw [List.length_replicate]
    omega
  · rw [setNode_self]
    refine ⟨by rw [hblank]; rfl, rfl, hR.symm, ⟨_, rfl, ?_⟩,
      ⟨_, List.append_assoc .., ?_⟩⟩
    · rw [List.length_replicate]
      omega
    · rw [List.length_replicate]
      omega
  · exact (o₁.setNode (by simp) _).setNode (by simp) _
  · refine (Agree.mono ha fun i hi => List.mem_cons_of_mem _ hi).trans ?_
    refine (agree_setNode h₁ _ hleafO).trans (agree_setNode _ _ ?_)
    exact fun hm => hnew (List.mem_cons_of_mem _ hm)
  · exact hs.trans ((sameRecs_setNode ..).trans (sameRecs_setNode ..))

/-- `start_new_tree` makes a leaf with one entry. -/
theorem startNewTree_spec (horder : 3 ≤ order) {h : Heap} {O : List NodeId}
    (o : Owns h O) (key : U64) (r : RecId) :
    ∃ root h', startNewTree order h key r = .ok (root, h')
      ∧ LeafRep order (h'.nodes root) none [(key, r)] .null
      ∧ Owns h' (root :: O) ∧ SameRecs h h' := by
  obtain ⟨root, h₁, hmk, o₁, ha, hblank, hs, -⟩ := makeLeaf_spec order o
  obtain ⟨n, hn⟩ : ∃ n, order = n + 3 := ⟨order - 3, by omega⟩
  subst hn
  have hlast : put (Ptr.record r :: List.replicate (n + 2) .null) (n + 2) .null
      = some ([.record r] ++ (List.replicate (n + 1) .null ++ [.null])) := by
    have := put_seam (Ptr.record r :: List.replicate (n + 1) .null) .null
      .null [] (i := n + 2) (by simp)
    rw [List.replicate_succ']
    simpa using this
  refine ⟨root, h₁.setNode root { h₁.nodes root with
    keys := key :: List.replicate (n + 1) 0
    pointers := [.record r] ++ (List.replicate (n + 1) .null ++ [.null])
    parent := none
    numKeys := 1 }, ?_, ?_, o₁.setNode (List.mem_cons_self ..) _,
    hs.trans (sameRecs_setNode ..)⟩
  · unfold startNewTree
    have hk : put (h₁.nodes root).keys 0 key
        = some (key :: List.replicate (n + 1) 0) := by
      rw [hblank]
      exact put_seam [] _ _ _ rfl
    have hp : put (h₁.nodes root).pointers 0 (.record r)
        = some (.record r :: List.replicate (n + 2) .null) := by
      rw [hblank]
      exact put_seam [] _ _ _ rfl
    have hz : (h₁.nodes root).numKeys + 1 = 1 := by rw [hblank]; rfl
    simp only [hmk, ok_bind, hk, chk_some, hp, hz,
      show n + 3 - 1 = n + 2 from rfl, hlast]
  · rw [setNode_self]
    exact ⟨by rw [hblank]; rfl, rfl, rfl,
      ⟨List.replicate (n + 1) 0, rfl, by simp; omega⟩,
      ⟨List.replicate (n + 1) .null, rfl, by simp; omega⟩⟩

-- ======================================================== internal nodes

/-- The child scan stops at the child. -/
theorem scan_child (c₁ : List NodeId) (c : NodeId) (c₂ : List NodeId)
    (pr : List Ptr) (hc : c ∉ c₁) {n : Nat} (hn : n = c₁.length + c₂.length + 1) :
    scanWhile (fun p => decide (p ≠ Ptr.node c))
      ((c₁ ++ c :: c₂).map Ptr.node ++ pr) 0 n = some c₁.length := by
  rw [scanWhile_spec _ _ _ (by simp [hn]; omega)]
  congr 1
  clear hn
  induction c₁ with
  | nil => simp
  | cons x c₁ ih =>
      have hx : x ≠ c := fun he => hc (he ▸ List.mem_cons_self ..)
      have ih' := ih (fun hm => hc (List.mem_cons_of_mem _ hm))
      rw [List.cons_append, List.map_cons, List.takeWhile_cons,
        if_pos (by simp [hx]), List.length_cons, ih', List.length_cons]

/-- The index of a child is the number of children before it. -/
theorem getLeftIndex_spec {h : Heap} {parent left : NodeId}
    {par : Option NodeId} {ks : List U64} {c₁ c₂ : List NodeId}
    (hn : NodeRep order (h.nodes parent) par ks (c₁ ++ left :: c₂))
    (hc : left ∉ c₁) : getLeftIndex h parent left = .ok c₁.length := by
  obtain ⟨pr, hp, -⟩ := hn.pointers
  have hfan := hn.fan
  unfold getLeftIndex
  rw [hp, hn.numKeys, scan_child c₁ left c₂ pr hc
    (by rw [← hfan, List.length_append, List.length_cons]; omega), chk_some]

/-- `insert_into_node` puts the key and the right child after the left one. -/
theorem insertIntoNode_spec {h : Heap} {n c : NodeId} (right : NodeId)
    {par : Option NodeId} {k₁ k₂ : List U64} {c₁ c₂ : List NodeId}
    (hn : NodeRep order (h.nodes n) par (k₁ ++ k₂) (c₁ ++ c :: c₂))
    (h₁ : k₁.length = c₁.length) (hroom : (k₁ ++ k₂).length < order - 1)
    (key : U64) :
    ∃ nd, insertIntoNode h n c₁.length key right = .ok (h.setNode n nd)
      ∧ NodeRep order nd par (k₁ ++ key :: k₂) (c₁ ++ c :: right :: c₂) := by
  obtain ⟨kr, hk, hkl⟩ := hn.keys
  obtain ⟨pr, hp, hpl⟩ := hn.pointers
  have hfan := hn.fan
  simp only [List.length_append, List.length_cons] at hkl hpl hfan hroom
  obtain ⟨kz, kr, rfl, -⟩ := exists_cons_of_length (l := kr)
    (n := order - 1 - k₁.length - k₂.length - 1) (by omega)
  obtain ⟨pz, pr, rfl, -⟩ := exists_cons_of_length (l := pr)
    (n := order - c₁.length - c₂.length - 2) (by omega)
  simp only [List.length_cons] at hkl hpl
  obtain ⟨ky, hks⟩ := shiftUp_spec k₁ k₂ kz kr (i := c₁.length)
    (j := k₁.length + k₂.length) h₁.symm rfl
  obtain ⟨py, hps⟩ := shiftUp_spec ((c₁ ++ [c]).map Ptr.node)
    (c₂.map Ptr.node) pz pr (i := c₁.length + 1)
    (j := k₁.length + k₂.length + 1) (by simp) (by simp; omega)
  have hp' : (h.nodes n).pointers
      = (c₁ ++ [c]).map Ptr.node ++ c₂.map Ptr.node ++ pz :: pr := by
    rw [hp]
    simp
  refine ⟨{ h.nodes n with
      keys := k₁ ++ key :: (k₂ ++ kr)
      pointers := (c₁ ++ [c]).map Ptr.node
        ++ .node right :: (c₂.map Ptr.node ++ pr)
      numKeys := k₁.length + k₂.length + 1 }, ?_,
    ⟨hn.isLeaf, hn.parent, ?_, ?_, ⟨kr, ?_, ?_⟩, ⟨pr, ?_, ?_⟩⟩⟩
  · unfold insertIntoNode
    simp only [hn.numKeys, List.length_append]
    rw [hp', hps, chk_some, ok_bind, hk, hks, chk_some, ok_bind,
      put_seam _ _ _ _ (by simp), chk_some, ok_bind,
      put_seam _ _ _ _ h₁.symm, chk_some, ok_bind]
  · simp only [List.length_append, List.length_cons]
    omega
  · simp only [List.length_append, List.length_cons]
    omega
  · simp
  · simp only [List.length_append, List.length_cons]
    omega
  · simp
  · simp only [List.length_append, List.length_cons]
    omega

/-- The heap after a list of children changed parents. -/
def adopt (h : Heap) (n : NodeId) (cids : List NodeId) : Heap :=
  cids.foldl (fun h c => h.setParent c (some n)) h

/-- Adopted nodes get the parent, and nothing else changes. -/
theorem adopt_nodes (n : NodeId) (cids : List NodeId) : ∀ (h : Heap) (x : NodeId),
    (adopt h n cids).nodes x
      = if x ∈ cids then { h.nodes x with parent := some n }
        else h.nodes x := by
  induction cids with
  | nil => intro h x; simp [adopt]
  | cons c cids ih =>
      intro h x
      rw [show adopt h n (c :: cids) = adopt (h.setParent c (some n)) n cids
        from rfl, ih]
      by_cases hx : x = c
      · subst hx
        simp
      · rw [setParent_other h _ hx]
        simp [hx]

theorem adopt_sameRecs (n : NodeId) (cids : List NodeId) :
    ∀ (h : Heap), SameRecs h (adopt h n cids) := by
  induction cids with
  | nil => exact fun h => SameRecs.refl h
  | cons c cids ih => exact fun h => (sameRecs_setParent ..).trans (ih _)

/-- Adopting nodes that are owned keeps the books. -/
theorem Owns.adopt {ns : List NodeId} (n : NodeId) (cids : List NodeId) :
    ∀ {h : Heap}, Owns h ns → (∀ c ∈ cids, c ∈ ns) →
      Owns (Btree.adopt h n cids) ns := by
  induction cids with
  | nil => exact fun o _ => o
  | cons c cids ih =>
      intro h o hsub
      exact ih (o.setParent (hsub c (List.mem_cons_self ..)) _)
        fun c hc => hsub c (List.mem_cons_of_mem _ hc)

/-- The parent-update loop is `adopt`. -/
theorem adoptChildren_spec (n : NodeId) (cids : List NodeId) (rest : List Ptr)
    (hn : n ∉ cids) :
    ∀ (done : List Ptr) (h : Heap),
      (h.nodes n).pointers = done ++ cids.map Ptr.node ++ rest →
      adoptChildren h n done.length cids.length = .ok (adopt h n cids) := by
  induction cids with
  | nil => intro done h _; rfl
  | cons c cids ih =>
      intro done h hp
      have hnc : n ≠ c := fun he => hn (he ▸ List.mem_cons_self ..)
      rw [List.length_cons, adoptChildren]
      have hread : (h.nodes n).pointers[done.length]? = some (.node c) := by
        rw [hp, List.append_assoc, List.map_cons, List.cons_append]
        exact getElem?_seam _ _ _ rfl
      rw [hread, chk_some, ok_bind, asNode_node, ok_bind]
      have hrec := ih (fun hm => hn (List.mem_cons_of_mem _ hm))
        (done ++ [.node c]) (h.setParent c (some n))
        (by rw [setParent_other h _ hnc, hp]; simp)
      rw [List.length_append, List.length_singleton] at hrec
      exact hrec

/-- `insert_into_new_root` puts two trees under a fresh root. -/
theorem insertIntoNewRoot_spec (horder : 3 ≤ order) {h : Heap}
    {left right : NodeId} {O : List NodeId} (o : Owns h (left :: right :: O))
    (key : U64) :
    ∃ root h', insertIntoNewRoot order h left key right = .ok (root, h')
      ∧ NodeRep order (h'.nodes root) none [key] [left, right]
      ∧ h'.nodes left = { h.nodes left with parent := some root }
      ∧ h'.nodes right = { h.nodes right with parent := some root }
      ∧ Owns h' (root :: left :: right :: O) ∧ Agree h h' O
      ∧ SameRecs h h' := by
  obtain ⟨root, h₁, hmk, o₁, ha, hblank, hs, -⟩ := makeNode_spec order o
  obtain ⟨n, hn⟩ : ∃ n, order = n + 3 := ⟨order - 3, by omega⟩
  subst hn
  have hnd := o₁.nodup
  simp only [List.nodup_cons, List.mem_cons, not_or] at hnd
  obtain ⟨⟨hrl, hrr, hrO⟩, ⟨hlr, hlO⟩, hrO', -⟩ := hnd
  have hpp : put (Ptr.node left :: List.replicate (n + 2) .null) 1
      (.node right)
      = some (.node left :: .node right :: List.replicate (n + 1) .null) :=
    put_seam [Ptr.node left] .null (.node right)
      (List.replicate (n + 1) .null) rfl
  have hrun : insertIntoNewRoot (n + 3) h left key right = .ok (root,
      ((h₁.setNode root { h₁.nodes root with
        keys := key :: List.replicate (n + 1) 0
        pointers := .node left :: .node right :: List.replicate (n + 1) .null
        numKeys := 1, parent := none }).setParent left (some root)).setParent
          right (some root)) := by
    unfold insertIntoNewRoot
    have hk : put (h₁.nodes root).keys 0 key
        = some (key :: List.replicate (n + 1) 0) := by
      rw [hblank]
      exact put_seam [] _ _ _ rfl
    have hp : put (h₁.nodes root).pointers 0 (.node left)
        = some (.node left :: List.replicate (n + 2) .null) := by
      rw [hblank]
      exact put_seam [] _ _ _ rfl
    have hz : (h₁.nodes root).numKeys + 1 = 1 := by rw [hblank]; rfl
    simp only [hmk, ok_bind, hk, chk_some, hp, hz, hpp]
  refine ⟨root, _, hrun, ?_, ?_, ?_, ?_, ?_, ?_⟩
  · rw [setParent_other _ _ hrr, setParent_other _ _ hrl, setNode_self]
    exact ⟨by rw [hblank]; rfl, rfl, rfl, rfl,
      ⟨List.replicate (n + 1) 0, rfl, by simp; omega⟩,
      ⟨List.replicate (n + 1) .null, rfl, by simp; omega⟩⟩
  · rw [setParent_other _ _ hlr, setParent_self,
      setNode_other _ _ (Ne.symm hrl), ha left (by simp)]
  · rw [setParent_self, setParent_other _ _ (Ne.symm hlr),
      setNode_other _ _ (Ne.symm hrr), ha right (by simp)]
  · exact (((o₁.setNode (by simp) _).setParent (by simp) _).setParent
      (by simp) _)
  · refine (Agree.mono ha fun i hi => by simp [hi]).trans ?_
    exact ((agree_setNode h₁ _ hrO).trans (agree_setParent _ _ hlO)).trans
      (agree_setParent _ _ hrO')
  · exact hs.trans ((sameRecs_setNode ..).trans
      ((sameRecs_setParent ..).trans (sameRecs_setParent ..)))

/-- An overfull node cut in two: one of its keys goes up, and each half has
one child more than keys. -/
theorem exists_halves {κ γ : Type} (ks : List κ) (cs : List γ) {m n : Nat}
    (hm : 0 < m ∧ m < n) (hks : ks.length = n) (hcs : cs.length = n + 1) :
    ∃ KL k KR CL cl CR cr,
      ks = KL ++ k :: KR ∧ cs = (CL ++ [cl]) ++ (CR ++ [cr])
        ∧ KL.length = m - 1 ∧ KR.length = n - m
        ∧ CL.length = m - 1 ∧ CR.length = n - m := by
  obtain ⟨hm₁, hm₂⟩ := hm
  obtain ⟨KL, KR', hK, hKL, hKR'⟩ := exists_split_of_length (l := ks)
    (m := m - 1) (n := n - m + 1) (by omega)
  obtain ⟨k, KR, rfl, hKR⟩ := exists_cons_of_length hKR'
  obtain ⟨CL', CR', hC, hCL', hCR'⟩ := exists_split_of_length (l := cs)
    (m := m - 1 + 1) (n := n - m + 1) (by omega)
  obtain ⟨CL, cl, rfl, hCL⟩ := exists_concat_of_length hCL'
  obtain ⟨CR, cr, rfl, hCR⟩ := exists_concat_of_length hCR'
  exact ⟨KL, k, KR, CL, cl, CR, cr, hK, hC, hKL, hKR, hCL, hCR⟩

/-- A full inner node, the new key and the new child are shared with a
fresh node; the key in the middle goes up, and the fresh node adopts its
children. -/
theorem insertIntoNodeAfterSplitting_spec (horder : 3 ≤ order) {h : Heap}
    {old c : NodeId} (right : NodeId) {par : Option NodeId} {k₁ k₂ : List U64}
    {c₁ c₂ O : List NodeId}
    (hn : NodeRep order (h.nodes old) par (k₁ ++ k₂) (c₁ ++ c :: c₂))
    (h₁ : k₁.length = c₁.length) (hfull : (k₁ ++ k₂).length = order - 1)
    (o : Owns h (old :: O)) (hkids : ∀ x ∈ c₁ ++ c :: right :: c₂, x ∈ O)
    (climb : Climb) (root : NodeId) (key : U64) :
    ∃ new h' KL KR CL CR k,
      insertIntoNodeAfterSplitting order climb h root old c₁.length key right
          = climb h' root old k new
        ∧ KL ++ k :: KR = k₁ ++ key :: k₂
        ∧ CL ++ CR = c₁ ++ c :: right :: c₂
        ∧ KL.length = cut order - 1 ∧ KR.length = order - cut order
        ∧ NodeRep order (h'.nodes old) par KL CL
        ∧ NodeRep order (h'.nodes new) par KR CR
        ∧ (∀ x ∈ O, h'.nodes x = if x ∈ CR
            then { h.nodes x with parent := some new } else h.nodes x)
        ∧ Owns h' (new :: old :: O) ∧ SameRecs h h' := by
  obtain ⟨new, g, hmk, o₁, ha, hblank, hs, -⟩ := makeNode_spec order o
  have hnew : new ∉ old :: O := (List.nodup_cons.mp o₁.nodup).1
  have holdO : old ∉ O := (List.nodup_cons.mp o.nodup).1
  have hold : g.nodes old = h.nodes old := ha old (List.mem_cons_self ..)
  obtain ⟨kr, hk, hkl⟩ := hn.keys
  obtain ⟨pr, hp, hpl⟩ := hn.pointers
  have hfan := hn.fan
  simp only [List.length_append, List.length_cons] at hkl hpl hfan hfull
  have hkr : kr = [] := List.length_eq_zero_iff.mp (by omega)
  have hpr : pr = [] := List.length_eq_zero_iff.mp (by omega)
  subst hkr hpr
  have hcut := cut_between (n := order) (by omega)
  -- the temporary blocks hold the keys and pointers in order
  obtain ⟨tp, htp₁, htp₂⟩ := gather_steps ((c₁ ++ [c]).map Ptr.node)
    (c₂.map Ptr.node) [] Ptr.null (.node right) 0 (g := c₁.length + 1)
    (n := k₁.length + k₂.length + 1) (m := order + 1) (by simp)
    (by simp; omega) (by omega)
  obtain ⟨tk, htk₁, htk₂⟩ := gather_steps k₁ k₂ [] (0 : U64) key 0
    (g := c₁.length) (n := k₁.length + k₂.length) (m := order)
    h₁.symm rfl (by omega)
  obtain ⟨KL, k, KR, CL, cl, CR, cr, hK, hC, hKL, hKR, hCL, hCR⟩ :=
    exists_halves (k₁ ++ key :: k₂) (c₁ ++ c :: right :: c₂) hcut
      (by rw [List.length_append, List.length_cons]; omega)
      (by rw [List.length_append, List.length_cons, List.length_cons]; omega)
  have htk : k₁ ++ key :: (k₂ ++ List.replicate 0 0) = KL ++ k :: KR := by
    rw [List.replicate_zero, List.append_nil, hK]
  have htp : (c₁ ++ [c]).map Ptr.node ++ .node right
        :: (c₂.map Ptr.node ++ List.replicate 0 Ptr.null)
      = CL.map Ptr.node ++ .node cl :: (CR.map Ptr.node ++ [.node cr]) := by
    have hC' := congrArg (List.map Ptr.node) hC
    simpa using hC'
  rw [htk] at htk₂
  rw [htp] at htp₂
  have hgp : copyGap (h.nodes old).pointers (c₁.length + 1)
      (List.replicate (order + 1) Ptr.null) 0 0 (k₁.length + k₂.length + 1)
      = some tp := by
    rw [hp, ← htp₁]
    simp
  have hgk : copyGap (h.nodes old).keys c₁.length
      (List.replicate order 0) 0 0 (k₁.length + k₂.length) = some tk := by
    rw [hk]
    exact htk₁
  -- the old node's blocks, cut where the copy ends
  obtain ⟨ka, kb, hkab, hka, hkb⟩ := exists_split_of_length
    (l := k₁ ++ k₂) (m := cut order - 1) (n := order - cut order)
    (by rw [List.length_append]; omega)
  obtain ⟨pa, pb', hpab, hpa, hpb'⟩ := exists_split_of_length
    (l := (c₁ ++ c :: c₂).map Ptr.node) (m := cut order - 1)
    (n := order - cut order + 1) (by
      rw [List.length_map, List.length_append, List.length_cons]; omega)
  obtain ⟨pz, pb, rfl, hpb⟩ := exists_cons_of_length hpb'
  have hcp : copy (CL.map Ptr.node ++ .node cl :: (CR.map Ptr.node ++ [.node cr]))
      0 (g.nodes old).pointers 0 (cut order - 1)
      = some (CL.map Ptr.node ++ pz :: pb) := by
    rw [hold, hp, List.append_nil, hpab]
    exact copy_spec [] _ _ [] pa _ rfl rfl (by simp [hCL]) hpa.symm
  have hck : copy (KL ++ k :: KR) 0 (g.nodes old).keys 0 (cut order - 1)
      = some (KL ++ kb) := by
    rw [hold, hk, List.append_nil, hkab]
    exact copy_spec [] _ _ [] ka kb rfl rfl hKL.symm hka.symm
  have hlast : (CL.map Ptr.node ++ .node cl
        :: (CR.map Ptr.node ++ [.node cr]))[cut order - 1]? = some (.node cl) :=
    getElem?_seam _ _ _ (by simp [hCL])
  have hputl : put (CL.map Ptr.node ++ pz :: pb) (cut order - 1) (.node cl)
      = some (CL.map Ptr.node ++ .node cl :: pb) :=
    put_seam _ _ _ _ (by simp [hCL])
  have hkp : (KL ++ k :: KR)[cut order - 1]? = some k :=
    getElem?_seam _ _ _ hKL.symm
  have hcutS : cut order = cut order - 1 + 1 := by omega
  have hspare : order - (order - cut order) = cut order - 1 + 1 := by omega
  have hcnp : copy (CL.map Ptr.node ++ .node cl
        :: (CR.map Ptr.node ++ [.node cr]))
      (cut order) (g.nodes new).pointers 0 (order - cut order)
      = some (CR.map Ptr.node
        ++ .null :: List.replicate (cut order - 1) .null) := by
    rw [hblank, ← List.replicate_succ, ← hspare,
      show CL.map Ptr.node ++ .node cl :: (CR.map Ptr.node ++ [.node cr])
        = (CL.map Ptr.node ++ [.node cl]) ++ CR.map Ptr.node ++ [.node cr]
          by simp]
    exact copy_fresh _ _ _ _ (by simpa [hCL] using hcutS) (by simp [hCR])
      (Nat.sub_le ..)
  have hcnk : copy (KL ++ k :: KR) (cut order) (g.nodes new).keys 0
      (order - cut order)
      = some (KR ++ List.replicate (order - 1 - (order - cut order)) 0) := by
    rw [hblank, show KL ++ k :: KR = (KL ++ [k]) ++ KR ++ [] by simp]
    exact copy_fresh _ _ _ _ (by simpa [hKL] using hcutS) hKR.symm (by omega)
  have hnl : (CL.map Ptr.node ++ .node cl
        :: (CR.map Ptr.node ++ [.node cr]))[order]? = some (.node cr) := by
    rw [show CL.map Ptr.node ++ .node cl :: (CR.map Ptr.node ++ [.node cr])
        = (CL.map Ptr.node ++ .node cl :: CR.map Ptr.node) ++ [.node cr]
          by simp]
    exact getElem?_seam _ _ _ (by simp [hCL, hCR]; omega)
  have hputnl : put (CR.map Ptr.node
        ++ .null :: List.replicate (cut order - 1) .null)
      (order - cut order) (.node cr)
      = some (CR.map Ptr.node
        ++ .node cr :: List.replicate (cut order - 1) .null) :=
    put_seam _ _ _ _ (by simp [hCR])
  have hleft : (CL ++ [cl]).length = cut order - 1 + 1 := by simp [hCL]
  have hright : (CR ++ [cr]).length = order - cut order + 1 := by simp [hCR]
  have hne : old ≠ new := fun he => hnew (he ▸ List.mem_cons_self ..)
  have hCRO : ∀ x ∈ CR ++ [cr], x ∈ O := fun x hx =>
    hkids x (hC ▸ List.mem_append_right _ hx)
  have hnewCR : new ∉ CR ++ [cr] := fun hm =>
    hnew (List.mem_cons_of_mem _ (hCRO _ hm))
  have holdCR : old ∉ CR ++ [cr] := fun hm => holdO (hCRO _ hm)
  generalize hg' : (g.setNode old { g.nodes old with
        keys := KL ++ kb
        pointers := CL.map Ptr.node ++ .node cl :: pb
        numKeys := cut order - 1 }).setNode new
      { g.nodes new with
        keys := KR ++ List.replicate (order - 1 - (order - cut order)) 0
        pointers := CR.map Ptr.node
          ++ .node cr :: List.replicate (cut order - 1) .null
        numKeys := order - cut order
        parent := (g.nodes old).parent } = g'
  have hgold : g'.nodes old = { g.nodes old with
        keys := KL ++ kb
        pointers := CL.map Ptr.node ++ .node cl :: pb
        numKeys := cut order - 1 } := by
    rw [← hg', setNode_other _ _ hne, setNode_self]
  have hgnew : g'.nodes new = { g.nodes new with
        keys := KR ++ List.replicate (order - 1 - (order - cut order)) 0
        pointers := CR.map Ptr.node
          ++ .node cr :: List.replicate (cut order - 1) .null
        numKeys := order - cut order
        parent := (g.nodes old).parent } := by
    rw [← hg', setNode_self]
  have hadopt : adoptChildren g' new 0 (order - cut order + 1)
      = .ok (adopt g' new (CR ++ [cr])) := by
    rw [← hright]
    refine adoptChildren_spec new _ (List.replicate (cut order - 1) .null)
      hnewCR [] g' ?_
    rw [hgnew]
    simp
  refine ⟨new, adopt g' new (CR ++ [cr]), KL, KR, CL ++ [cl], CR ++ [cr], k,
    ?_, hK.symm, hC.symm, hKL, hKR, ?_, ?_, ?_, ?_, ?_⟩
  · unfold insertIntoNodeAfterSplitting
    simp only [hn.numKeys, List.length_append, hgp, hgk, htp₂, htk₂, chk_some,
      ok_bind, hmk, hcp, hck, hlast, hputl, hkp, hcnp, hcnk, hnl, hputnl,
      hg', hadopt]
  · rw [adopt_nodes, if_neg holdCR, hgold]
    refine ⟨by rw [hold]; exact hn.isLeaf, by rw [hold]; exact hn.parent,
      hKL.symm, by omega, ⟨kb, rfl, by omega⟩, ⟨pb, ?_, by omega⟩⟩
    simp
  · rw [adopt_nodes, if_neg hnewCR, hgnew]
    refine ⟨by rw [hblank]; rfl, by rw [hold]; exact hn.parent, hKR.symm, by omega,
      ⟨_, rfl, ?_⟩, ⟨List.replicate (cut order - 1) .null, ?_, ?_⟩⟩
    · rw [List.length_replicate]
      omega
    · simp
    · rw [List.length_replicate]
      omega
  · intro x hx
    have hxold : x ≠ old := fun he => holdO (he ▸ hx)
    have hxnew : x ≠ new := fun he => hnew (List.mem_cons_of_mem _ (he ▸ hx))
    rw [adopt_nodes, ← hg', setNode_other _ _ hxnew, setNode_other _ _ hxold,
      ha x (List.mem_cons_of_mem _ hx)]
  · refine Owns.adopt new _ ?_ fun x hx => by simp [hCRO x hx]
    rw [← hg']
    exact (o₁.setNode (by simp) _).setNode (by simp) _
  · refine hs.trans (SameRecs.trans ?_ (adopt_sameRecs ..))
    rw [← hg']
    exact (sameRecs_setNode ..).trans (sameRecs_setNode ..)

end ThesisBench.Btree

/-
Every reachable state satisfies the representation invariant of
Invariant.lean.

The abstract tree is the bridge: memory that holds a tree (`Rep`), with
the tree ordered and filled, satisfies the invariant read off memory.
-/
import ThesisBench.Btree.Invariant
import ThesisBench.Btree.Proofs.Ops

namespace ThesisBench.Btree

open CArray SepList

variable {order lm nm : Nat} {h : Heap}

-- ========================================================== node fields

/-- The keys in use of a leaf are those of its pairs. -/
theorem LeafRep.keysOf_eq {n : NodeId} {par : Option NodeId}
    {es : List (U64 × RecId)} {nxt : Ptr}
    (hl : LeafRep order (h.nodes n) par es nxt) :
    h.keysOf n = es.map Prod.fst := by
  obtain ⟨kr, hk, -⟩ := hl.keys
  unfold Heap.keysOf
  rw [hk, hl.numKeys]
  exact List.take_left' (by simp)

theorem NodeRep.keysOf_eq {n : NodeId} {par : Option NodeId} {ks : List U64}
    {cids : List NodeId} (hn : NodeRep order (h.nodes n) par ks cids) :
    h.keysOf n = ks := by
  obtain ⟨kr, hk, -⟩ := hn.keys
  unfold Heap.keysOf
  rw [hk, hn.numKeys]
  exact List.take_left' rfl

/-- The children a node's block names. -/
theorem NodeRep.children_eq {n : NodeId} {par : Option NodeId}
    {ks : List U64} {cids : List NodeId}
    (hn : NodeRep order (h.nodes n) par ks cids) : h.children n = cids := by
  obtain ⟨pr, hp, -⟩ := hn.pointers
  have htake : (h.nodes n).pointers.take ((h.nodes n).numKeys + 1)
      = cids.map Ptr.node := by
    rw [hp, hn.numKeys, ← hn.fan]
    exact List.take_left' (by simp)
  unfold Heap.children
  rw [htake, List.filterMap_map]
  exact List.filterMap_some

/-- A leaf satisfies the invariant of a node. -/
theorem LeafRep.nodeInv {n : NodeId} {par : Option NodeId}
    {es : List (U64 × RecId)} {nxt : Ptr} {lo hi : Option U64}
    (hl : LeafRep order (h.nodes n) par es nxt)
    (hpw : es.Pairwise fun a b => a.1 < b.1)
    (hr : ∀ e ∈ es, InRange lo hi e.1) : NodeInv order h true n par lo hi := by
  obtain ⟨kr, hk, hkl⟩ := hl.keys
  obtain ⟨pr, hp, hpl⟩ := hl.pointers
  refine ⟨hl.isLeaf, hl.parent, ?_, ?_, ?_, ?_, ?_⟩
  · rw [hk]
    simpa using hkl
  · rw [hp]
    simp only [List.length_append, List.length_map, List.length_singleton]
    omega
  · rw [hl.numKeys]
    omega
  · rw [hl.keysOf_eq, List.pairwise_map]
    exact hpw
  · rw [hl.keysOf_eq]
    intro k hkm
    obtain ⟨e, he, rfl⟩ := List.mem_map.mp hkm
    exact hr e he

/-- An inner node satisfies the invariant of a node. -/
theorem NodeRep.nodeInv {n : NodeId} {par : Option NodeId} {ks : List U64}
    {cids : List NodeId} {lo hi : Option U64}
    (hn : NodeRep order (h.nodes n) par ks cids) (hpw : ks.Pairwise (· < ·))
    (hr : ∀ k ∈ ks, InRange lo hi k) : NodeInv order h false n par lo hi := by
  obtain ⟨kr, hk, hkl⟩ := hn.keys
  obtain ⟨pr, hp, hpl⟩ := hn.pointers
  refine ⟨hn.isLeaf, hn.parent, ?_, ?_, ?_, ?_, ?_⟩
  · rw [hk]
    simpa using hkl
  · rw [hp]
    simpa using hpl
  · rw [hn.numKeys]
    omega
  · rw [hn.keysOf_eq]
    exact hpw
  · rw [hn.keysOf_eq]
    exact hr

-- =============================================================== ranges

/-- The tokens of one child lie between the separators around it. -/
theorem range_focus {k₁ k₂ : List U64} {c₁ c₂ : List (List (Tok U64 RecId))}
    {x : List (Tok U64 RecId)} {lo hi : Option U64}
    (h₁ : k₁.length = c₁.length) (h₂ : k₂.length = c₂.length)
    (hs : Sorted (weaveL k₁ c₁ ++ (x ++ weaveR k₂ c₂)))
    (hr : ∀ τ ∈ weaveL k₁ c₁ ++ (x ++ weaveR k₂ c₂), InRange lo hi τ.key) :
    ∀ τ ∈ x, InRange (if k₁.length = 0 then lo else (k₁ ++ k₂)[k₁.length - 1]?)
      (if k₂.length = 0 then hi else (k₁ ++ k₂)[k₁.length]?) τ.key := by
  intro τ hτ
  obtain ⟨hlo, hhi⟩ := hr τ (by simp [hτ])
  refine ⟨?_, ?_⟩
  · -- below: the separator just before the child, if there is one
    rcases List.eq_nil_or_concat k₁ with rfl | ⟨k₁', s, rfl⟩
    · simpa using hlo
    · rcases List.eq_nil_or_concat c₁ with rfl | ⟨c₁', c, rfl⟩
      · simp at h₁
      · simp only [List.concat_eq_append] at h₁ hs ⊢
        rw [weaveL_append _ _ _ _ (by simpa using h₁)] at hs
        have hb := (sorted_append.mp hs).2.2 (.sep s) (by simp) τ
          (by simp [hτ])
        intro a ha
        have has : a = s := by
          simpa [List.getElem?_append_left, eq_comm] using ha
        rw [has]
        exact Tok.le_of_sep_before hb
  · cases k₂ with
    | nil => simpa using hhi
    | cons s k₂ =>
        cases c₂ with
        | nil => simp at h₂
        | cons c c₂ =>
            have hs' := (sorted_append.mp hs).2.1
            have hb := (sorted_append.mp hs').2.2 τ hτ (.sep s) (by simp)
            intro b hbm
            have hbs : b = s := by
              simpa [eq_comm] using hbm
            rw [hbs]
            exact Tok.lt_of_before_sep hb

/-- The two ways of saying how many keys a node must have agree. -/
theorem minOccupancy_eq (d : Nat) : minOccupancy order d = minKeys order d := by
  cases d <;> rfl

/-- Memory that holds an ordered, filled tree satisfies the invariant. -/
theorem Rep.subtreeInv : ∀ {d : Nat} {t : Tree d} {par : Option NodeId}
    {nxt : Ptr} {lo hi : Option U64}, Rep order h.nodes d t par nxt →
    FilledBelow (cut (order - 1)) (cut order - 1) d t → Sorted (flat d t) →
    (∀ τ ∈ flat d t, InRange lo hi τ.key) →
    SubtreeInv order h d (tid d t) par lo hi := by
  intro d
  induction d with
  | zero =>
      intro t par nxt lo hi hr _ hs hrange
      have hpw := ents_pairwise hs
      rw [show flat 0 t = toks (Leaf.es t) from rfl, ents_toks] at hpw
      refine ⟨LeafRep.nodeInv hr hpw fun e he =>
        hrange (.ent e.1 e.2) (List.mem_map_of_mem he), fun j hj => ?_⟩
      obtain ⟨pr, hp, -⟩ := LeafRep.pointers hr
      rw [show (h.nodes (tid 0 t)).numKeys = _ from LeafRep.numKeys hr] at hj
      refine ⟨(Leaf.es t)[j].2, ?_⟩
      rw [show (h.nodes (tid 0 t)).pointers = _ from hp,
        List.getElem?_append_left (by simpa using hj), List.getElem?_map,
        List.getElem?_eq_getElem hj]
      rfl
  | succ d ih =>
      intro t par nxt lo hi hr hf hs hrange
      obtain ⟨i, ks, cs⟩ := t
      obtain ⟨hn, hk⟩ := hr
      have hn' : NodeRep order (h.nodes i) par ks (cs.map (tid d)) := hn
      have hfan : cs.length = ks.length + 1 := by simpa using hn.fan
      have hlen : (cs.map (flat d)).length = ks.length + 1 := by
        rw [List.length_map, hfan]
      show SubtreeInv order h (d + 1) i par lo hi
      refine ⟨NodeRep.nodeInv hn' (seps_pairwise hlen hs) fun k hkm =>
        hrange (.sep k) ((seps_sublist_weave _ _ hlen).subset
          (List.mem_map_of_mem hkm)), fun j hj => ?_⟩
      rw [hn'.numKeys] at hj ⊢
      -- the child at `j`, with the separators and siblings around it
      obtain ⟨k₁, k₂, rfl, rfl⟩ := exists_split ks j hj
      rw [List.length_append] at hfan
      obtain ⟨c₁, cs', rfl, hc₁⟩ := exists_split cs k₁.length (by omega)
      rw [List.length_append] at hfan
      obtain ⟨c, c₂, rfl, hc₂⟩ := exists_cons_of_length (l := cs')
        (n := k₂.length) (by omega)
      obtain ⟨-, hc, -⟩ := kids_focus.mp hk
      have hfc : Filled (cut (order - 1)) (cut order - 1) d c := hf c (by simp)
      obtain ⟨pr, hp, -⟩ := hn'.pointers
      have hflat : flat (d + 1) (⟨i, k₁ ++ k₂, c₁ ++ c :: c₂⟩ : Branch (Tree d))
          = weaveL k₁ (c₁.map (flat d))
            ++ (flat d c ++ weaveR k₂ (c₂.map (flat d))) := by
        show weave (k₁ ++ k₂) ((c₁ ++ c :: c₂).map (flat d)) = _
        rw [List.map_append, List.map_cons]
        exact weave_focus _ _ _ _ _ (by rw [List.length_map, hc₁])
          (by rw [List.length_map, hc₂])
      rw [hflat] at hs hrange
      refine ⟨tid d c, ?_, ?_, ?_⟩
      · rw [hp, List.map_append, List.map_append, List.append_assoc]
        exact getElem?_seam _ _ _ (by simp [hc₁])
      · rw [hc.root.2.1, minOccupancy_eq]
        exact (filled_iff.mp hfc).1
      · rw [hn'.keysOf_eq]
        refine ih hc hfc.below
          (sorted_append.mp (sorted_append.mp hs).2.1).1 ?_
        have hfoc := range_focus (by rw [List.length_map, hc₁])
          (by rw [List.length_map, hc₂]) hs hrange
        have hif : (k₁.length = (k₁ ++ k₂).length) = (k₂.length = 0) := by
          rw [List.length_append, eq_iff_iff]
          omega
        simp only [hif]
        exact hfoc

-- ============================================================= the chain

/-- The leaves found in memory are the leaves of the tree. -/
theorem Rep.leavesUnder_eq : ∀ {d : Nat} {t : Tree d} {par : Option NodeId}
    {nxt : Ptr}, Rep order h.nodes d t par nxt →
    leavesUnder h d (tid d t) = leaves d t := by
  intro d
  induction d with
  | zero => exact fun _ => rfl
  | succ d ih =>
      intro t par nxt hr
      obtain ⟨hn, hk⟩ := hr
      show (h.children (Branch.id t)).flatMap (leavesUnder h d)
        = (Branch.cs t).flatMap (leaves d)
      rw [hn.children_eq, List.flatMap_map]
      refine List.flatMap_congr fun c hc => ?_
      obtain ⟨n, hR⟩ := hk.mem hc
      exact ih hR

/-- Following the first pointers leads to the tree's first leaf. -/
theorem Rep.leftmost_eq : ∀ {d : Nat} {t : Tree d} {par : Option NodeId}
    {nxt : Ptr}, Rep order h.nodes d t par nxt →
    leftmost h d (tid d t) = firstLeaf d t := by
  intro d
  induction d with
  | zero => exact fun _ => rfl
  | succ d ih =>
      intro t par nxt hr
      obtain ⟨i, ks, cs⟩ := t
      obtain ⟨hn, hk⟩ := hr
      obtain ⟨c, cs', rfl, -⟩ := exists_cons_of_length (by simpa using hn.fan)
      show leftmost h d ((h.children i).headD i) = firstLeaf d c
      rw [show h.children i = _ from hn.children_eq]
      exact ih hk.1

/-- The chain through a tree, continued by the chain behind it. -/
theorem Rep.chain : ∀ {d : Nat} {t : Tree d} {par : Option NodeId}
    {nxt : Ptr} {ns : List NodeId}, Rep order h.nodes d t par nxt →
    Chain order h nxt ns →
    Chain order h (.node (firstLeaf d t)) (leaves d t ++ ns) := by
  intro d
  induction d with
  | zero =>
      intro t par nxt ns hr hc
      obtain ⟨pr, hp, hpl⟩ := LeafRep.pointers hr
      refine Chain.leaf ?_ hc
      rw [show (h.nodes (firstLeaf 0 t)).pointers = _ from hp,
        ← List.append_assoc]
      exact getElem?_seam _ _ _ (by simp; omega)
  | succ d ih =>
      intro t par nxt ns hr hc
      obtain ⟨i, ks, cs⟩ := t
      obtain ⟨hn, hk⟩ := hr
      have hkids : ∀ {cs : List (Tree d)}, Kids (fun c n =>
          Rep order h.nodes d c (some i) n) (firstLeaf d) nxt cs →
          Chain order h (headPtr (firstLeaf d) nxt cs)
            (cs.flatMap (leaves d) ++ ns) := by
        intro cs
        induction cs with
        | nil => exact fun _ => hc
        | cons c cs ihc =>
            intro hk
            rw [List.flatMap_cons, List.append_assoc]
            exact ih hk.1 (ihc hk.2)
      obtain ⟨c, cs', rfl, -⟩ := exists_cons_of_length (by simpa using hn.fan)
      exact hkids hk

/-- The leaves are among the nodes, in their order. -/
theorem leaves_sublist_ids : ∀ (d : Nat) (t : Tree d),
    (leaves d t).Sublist (ids d t) := by
  intro d
  induction d with
  | zero => exact fun _ => List.Sublist.refl _
  | succ d ih =>
      intro t
      show ((Branch.cs t).flatMap (leaves d)).Sublist
        (Branch.id t :: (Branch.cs t).flatMap (ids d))
      refine List.Sublist.cons _ ?_
      induction Branch.cs t with
      | nil => exact List.Sublist.refl _
      | cons c cs ihc =>
          rw [List.flatMap_cons, List.flatMap_cons]
          exact (ih c).append ihc

/-- The keys along the leaves are the keys of the entries. -/
theorem Rep.leaf_keys : ∀ {d : Nat} {t : Tree d} {par : Option NodeId}
    {nxt : Ptr}, Rep order h.nodes d t par nxt →
    (leaves d t).flatMap h.keysOf = (ents (flat d t)).map Prod.fst := by
  intro d
  induction d with
  | zero =>
      intro t par nxt hr
      show [Leaf.id t].flatMap h.keysOf = (ents (toks (Leaf.es t))).map Prod.fst
      rw [ents_toks, List.flatMap_singleton, LeafRep.keysOf_eq hr]
  | succ d ih =>
      intro t par nxt hr
      obtain ⟨hn, hk⟩ := hr
      show ((Branch.cs t).flatMap (leaves d)).flatMap h.keysOf
        = (ents (weave (Branch.ks t) ((Branch.cs t).map (flat d)))).map Prod.fst
      rw [ents_weave _ _ (by simpa using hn.fan), List.flatMap_map,
        List.flatMap_assoc, List.map_flatMap]
      refine List.flatMap_congr fun c hc => ?_
      obtain ⟨n, hR⟩ := hk.mem hc
      exact ih hR

/-- All nodes, as memory names them. -/
theorem Rep.nodesUnder_eq : ∀ {d : Nat} {t : Tree d} {par : Option NodeId}
    {nxt : Ptr}, Rep order h.nodes d t par nxt →
    nodesUnder h d (tid d t) = ids d t := by
  intro d
  induction d with
  | zero => exact fun _ => rfl
  | succ d ih =>
      intro t par nxt hr
      obtain ⟨hn, hk⟩ := hr
      show Branch.id t :: (h.children (Branch.id t)).flatMap (nodesUnder h d)
        = Branch.id t :: (Branch.cs t).flatMap (ids d)
      rw [hn.children_eq, List.flatMap_map]
      congr 1
      refine List.flatMap_congr fun c hc => ?_
      obtain ⟨n, hR⟩ := hk.mem hc
      exact ih hR

/-- Memory that holds a tree is uniform. -/
theorem Rep.uniform : ∀ {d : Nat} {t : Tree d} {par : Option NodeId}
    {nxt : Ptr}, Rep order h.nodes d t par nxt →
    Uniform h d (tid d t) par := by
  intro d
  induction d with
  | zero => exact fun hr => ⟨LeafRep.isLeaf hr, LeafRep.parent hr⟩
  | succ d ih =>
      intro t par nxt hr
      obtain ⟨hn, hk⟩ := hr
      refine ⟨⟨hn.isLeaf, hn.parent⟩, fun j hj => ?_⟩
      have hfan := hn.fan
      rw [List.length_map] at hfan
      have hj' : j < (Branch.cs t).length := by
        rw [show (h.nodes (tid (d + 1) t)).numKeys = _ from hn.numKeys] at hj
        omega
      obtain ⟨pr, hp, -⟩ := hn.pointers
      obtain ⟨n, hR⟩ := hk.mem (List.getElem_mem hj')
      refine ⟨tid d (Branch.cs t)[j], ?_, ih hR⟩
      rw [show (h.nodes (tid (d + 1) t)).pointers = _ from hp,
        List.getElem?_append_left (by simpa using hj'), List.getElem?_map,
        List.getElem?_map, List.getElem?_eq_getElem hj']
      rfl

-- ====================================================== reachable states

/-- A tree that memory holds satisfies the invariant. -/
theorem Holds.treeInv {d : Nat} {t : Tree d}
    (ht : Holds order (cut (order - 1)) (cut order - 1) h d t) :
    TreeInv order h (tid d t) d where
  subtree := ht.rep.subtreeInv ht.filled ht.sorted fun _ _ =>
    ⟨by simp, by simp⟩
  root_pos := by
    rw [ht.rep.root.2.1]
    exact ht.count
  chain := by
    rw [ht.rep.leftmost_eq, ht.rep.leavesUnder_eq]
    simpa using ht.rep.chain Chain.null
  once := by
    rw [ht.rep.leavesUnder_eq]
    exact (leaves_sublist_ids d t).nodup ht.owns.nodup
  ordered := by
    rw [ht.rep.leavesUnder_eq, ht.rep.leaf_keys, List.pairwise_map]
    exact ents_pairwise ht.sorted

/-- After any legal sequence of calls the tree satisfies the invariant,
no call has faulted, and no search has missed its target. -/
theorem treeInv_runs (order : Nat) (horder : 3 ≤ order) (ops : List Op)
    (hlegal : Legal ops Contents.empty) :
    ∃ s, runs order ops State.empty = .ok s ∧ s.heap.misses = 0
      ∧ ∀ root, s.root = some root → ∃ d, TreeInv order s.heap root d := by
  obtain ⟨s, es, hrun, hm⟩ := runs_models (bounds_cut horder) ops models_empty
    hlegal
  refine ⟨s, hrun, hm.misses, fun root hroot => ?_⟩
  have hst := hm.stored
  rw [hroot] at hst
  cases hst with
  | tree ht => exact ⟨_, ht.treeInv⟩

/-- Five inserts, which at order 3 split leaves and then the root. -/
def splitting : List Op :=
  [.call (.insert 10 1), .insertUnique 20 2, .call (.insert 30 3), .insertUnique 40 4,
    .call (.insert 50 5)]

/-- The keys in every node of a tree of height `d`, from the root down. -/
def State.keysUnder (s : State) (d : Nat) : Option (List (List U64)) :=
  s.root.map fun root => (nodesUnder s.heap d root).map s.heap.keysOf

/-- The inserts build three levels. The delete then merges two leaves and,
above them, two inner nodes, so that one level goes away. -/
theorem treeInv_runs_three :
    (runs 3 splitting State.empty).toOption.map (·.keysUnder 2)
        = some (some [[30], [20], [10], [20], [40], [30], [40, 50]])
      ∧ (runs 3 (splitting ++ [.call (.delete 10)]) State.empty).toOption.map (·.keysUnder 1)
        = some (some [[30, 40], [20], [30], [40, 50]])
      ∧ Legal (splitting ++ [.call (.delete 10)]) Contents.empty
      ∧ ∃ s, runs 3 (splitting ++ [.call (.delete 10)]) State.empty = .ok s
        ∧ s.heap.misses = 0
        ∧ ∀ root, s.root = some root → ∃ d, TreeInv 3 s.heap root d :=
  have hlegal : Legal (splitting ++ [.call (.delete 10)]) Contents.empty :=
    ⟨trivial, rfl, trivial, rfl, trivial, trivial, trivial⟩
  ⟨by decide +kernel, by decide +kernel, hlegal, treeInv_runs 3 (by decide) _ hlegal⟩

end ThesisBench.Btree

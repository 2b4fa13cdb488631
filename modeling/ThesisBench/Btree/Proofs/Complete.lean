/-
The representation invariant is enough: memory that satisfies
Invariant.lean holds a tree of Tree.lean.

This is the converse of Proofs/Invariant.lean, so that what is proved of
trees can be stated of memory. The leaf chain is followed from left to
right while the tree is put together; a separator is strictly above the
lower bound of its node because the subtree before it is not empty.
-/
import ThesisBench.Btree.Proofs.Invariant

namespace ThesisBench.Btree

open CArray SepList

variable {order : Nat} {h : Heap}

-- ================================================================ bounds

/-- A token between two separators, either of which may be missing. -/
def Within (lo hi : Option U64) (τ : Tok U64 RecId) : Prop :=
  (∀ a ∈ lo, Tok.Before (.sep a) τ) ∧ ∀ b ∈ hi, Tok.Before τ (.sep b)

/-- An entry lies within the bounds of its key. -/
theorem Within.ent {lo hi : Option U64} {k : U64} {r : RecId}
    (hk : InRange lo hi k) : Within lo hi (.ent k r) := hk

/-- Bounds around a token that is in between bound each other. -/
theorem Within.lt {lo : Option U64} {k : U64} {τ : Tok U64 RecId}
    (hτ : Within lo (some k) τ) : ∀ a ∈ lo, a < k := fun a ha =>
  lt_of_le_of_lt (Tok.le_of_sep_before (hτ.1 a ha))
    (Tok.lt_of_before_sep (hτ.2 k rfl))

/-- A token below a separator stands before one that is not. -/
theorem before_of_sep {k : U64} {σ τ : Tok U64 RecId}
    (hσ : Tok.Before σ (.sep k)) (hτ : Tok.Before (.sep k) τ) :
    Tok.Before σ τ := by
  cases σ with
  | sep a =>
      cases τ with
      | sep b => exact lt_trans hσ hτ
      | ent b q => exact le_of_lt (lt_of_lt_of_le hσ hτ)
  | ent a p =>
      cases τ with
      | sep b => exact lt_trans hσ hτ
      | ent b q => exact lt_of_lt_of_le hσ hτ

/-- Widening the lower bound. -/
theorem Within.widen_lo {lo hi : Option U64} {k : U64} {τ : Tok U64 RecId}
    (hτ : Within (some k) hi τ) (hlo : ∀ a ∈ lo, a < k) : Within lo hi τ :=
  ⟨fun a ha => before_of_sep (σ := .sep a) (hlo a ha) (hτ.1 k rfl), hτ.2⟩

/-- Widening the upper bound. -/
theorem Within.widen_hi {lo hi : Option U64} {k : U64} {τ : Tok U64 RecId}
    (hτ : Within lo (some k) τ) (hhi : ∀ b ∈ hi, k < b) : Within lo hi τ :=
  ⟨hτ.1, fun b hb => before_of_sep (τ := .sep b) (hτ.2 k rfl) (hhi b hb)⟩

-- ================================================================ blocks

/-- The entries of a block that are all of one kind. -/
theorem exists_map_append {α β : Type} {f : β → α} {l : List α} {k : Nat}
    (hk : k ≤ l.length) (hf : ∀ j < k, ∃ b, l[j]? = some (f b)) :
    ∃ (bs : List β) (rest : List α), l = bs.map f ++ rest ∧ bs.length = k := by
  induction k generalizing l with
  | zero => exact ⟨[], l, rfl, rfl⟩
  | succ k ih =>
      match l, hk with
      | a :: l, hk =>
          obtain ⟨b, hb⟩ := hf 0 (Nat.succ_pos k)
          obtain ⟨bs, rest, rfl, hlen⟩ := ih (l := l) (by simpa using hk)
            fun j hj => by simpa using hf (j + 1) (by omega)
          have hab : a = f b := by simpa using hb
          exact ⟨b :: bs, rest, by rw [hab]; rfl, by rw [List.length_cons, hlen]⟩

/-- A leaf whose used pointers are all records. -/
theorem exists_leafRep (horder : 3 ≤ order) {n : NodeId}
    {par : Option NodeId} {lo hi : Option U64} {nxt : Ptr}
    (hinv : NodeInv order h true n par lo hi)
    (hrec : ∀ j < (h.nodes n).numKeys,
      ∃ r, (h.nodes n).pointers[j]? = some (.record r))
    (hchain : (h.nodes n).pointers[order - 1]? = some nxt) :
    ∃ es, LeafRep order (h.nodes n) par es nxt := by
  have hklen := hinv.keys_length
  have hplen := hinv.pointers_length
  have hle := hinv.numKeys_le
  obtain ⟨rs, rest, hp, hrs⟩ := exists_map_append (by omega) hrec
  obtain ⟨ks, kr, hk, hks⟩ := exists_split (h.nodes n).keys (h.nodes n).numKeys
    (by omega)
  have hrest : rest.length = (order - 1 - rs.length) + 1 := by
    rw [hp, List.length_append, List.length_map] at hplen
    omega
  obtain ⟨pr, x, rfl, hpr⟩ := exists_concat_of_length hrest
  have hx : x = nxt := by
    rw [hp, ← List.append_assoc] at hchain
    have hat := getElem?_seam (rs.map Ptr.record ++ pr) x [] (i := order - 1)
      (by rw [List.length_append, List.length_map]; omega)
    rw [hat] at hchain
    exact Option.some.inj hchain
  subst hx
  have hzip : (ks.zip rs).length = (h.nodes n).numKeys := by
    rw [List.length_zip, hks, hrs, Nat.min_self]
  refine ⟨ks.zip rs, hinv.kind, hinv.parent, hzip.symm, ⟨kr, ?_, ?_⟩,
    ⟨pr, ?_, ?_⟩⟩
  · rw [List.map_fst_zip (by omega)]
    exact hk
  · rw [hzip, ← hklen, hk, List.length_append, hks]
  · have hmap : (ks.zip rs).map (fun e => Ptr.record e.2) = rs.map Ptr.record := by
      have hsnd : (ks.zip rs).map Prod.snd = rs := List.map_snd_zip (by omega)
      rw [← hsnd, List.map_map, hsnd]
      rfl
    rw [hmap]
    exact hp
  · omega

-- ============================================================== the tree

/-- What is found below a node: a tree, and where the chain goes on. -/
structure Found (order : Nat) (h : Heap) (d : Nat) (par : Option NodeId)
    (lo hi : Option U64) (ns : List NodeId) (t : Tree d) (nxt : Ptr) :
    Prop where
  rep : Rep order h.nodes d t par nxt
  chain : Chain order h nxt ns
  sorted : Sorted (flat d t)
  nonempty : flat d t ≠ []
  within : ∀ τ ∈ flat d t, Within lo hi τ
  filled : FilledBelow (cut (order - 1)) (cut order - 1) d t

/-- A tree that is not empty leaves room between its bounds. -/
theorem Found.lt {d : Nat} {par : Option NodeId} {lo : Option U64} {k : U64}
    {ns : List NodeId} {t : Tree d} {nxt : Ptr}
    (hf : Found order h d par lo (some k) ns t nxt) : ∀ a ∈ lo, a < k := by
  obtain ⟨τ, hτ⟩ := List.exists_mem_of_ne_nil _ hf.nonempty
  exact (hf.within τ hτ).lt

/-- What is found below the children from some child on. -/
structure FoundKids (order : Nat) (h : Heap) (d : Nat) (i : NodeId)
    (lo hi : Option U64) (ns : List NodeId) (p : Ptr) (ks : List U64)
    (cids : List NodeId) (cs : List (Tree d)) (nxt : Ptr) : Prop where
  tids : cs.map (tid d) = cids
  kids : Kids (fun c n => Rep order h.nodes d c (some i) n) (firstLeaf d) nxt cs
  head : headPtr (firstLeaf d) nxt cs = p
  chain : Chain order h nxt ns
  sorted : Sorted (weave ks (cs.map (flat d)))
  nonempty : weave ks (cs.map (flat d)) ≠ []
  within : ∀ τ ∈ weave ks (cs.map (flat d)), Within lo hi τ
  filled : ∀ c ∈ cs, Filled (cut (order - 1)) (cut order - 1) d c

/-- The children of a node, one after the other. -/
theorem exists_kids {d : Nat} (i : NodeId) (hi : Option U64)
    (ns : List NodeId)
    (ih : ∀ {c : NodeId} {lo hi : Option U64} {p : Ptr} {ns : List NodeId},
      SubtreeInv order h d c (some i) lo hi →
      minOccupancy order d ≤ (h.nodes c).numKeys →
      Chain order h p (leavesUnder h d c ++ ns) →
      ∃ t nxt, tid d t = c ∧ p = .node (firstLeaf d t)
        ∧ Found order h d (some i) lo hi ns t nxt)
    (ks : List U64) : ∀ (cids : List NodeId) (lo : Option U64) (p : Ptr),
    cids.length = ks.length + 1 →
    (∀ j ≤ ks.length, ∃ c, cids[j]? = some c
      ∧ minOccupancy order d ≤ (h.nodes c).numKeys
      ∧ SubtreeInv order h d c (some i) (if j = 0 then lo else ks[j - 1]?)
          (if j = ks.length then hi else ks[j]?)) →
    (∀ k ∈ ks, ∀ b ∈ hi, k < b) →
    Chain order h p (cids.flatMap (leavesUnder h d) ++ ns) →
    ∃ cs nxt, FoundKids order h d i lo hi ns p ks cids cs nxt := by
  have hfill : ∀ {lo hi : Option U64} {ns : List NodeId} {t : Tree d} {nxt : Ptr},
      Found order h d (some i) lo hi ns t nxt →
      minOccupancy order d ≤ (h.nodes (tid d t)).numKeys →
      Filled (cut (order - 1)) (cut order - 1) d t := by
    intro lo hi ns t nxt hf hocc
    rw [hf.rep.root.2.1, minOccupancy_eq] at hocc
    exact filled_iff.mpr ⟨hocc, hf.filled⟩
  induction ks with
  | nil =>
      intro cids lo p hlen hsub _ hchain
      obtain ⟨c, rest, rfl, hrest⟩ := exists_cons_of_length hlen
      rw [List.length_nil, List.length_eq_zero_iff] at hrest
      subst hrest
      obtain ⟨c', hc', hocc, hinv⟩ := hsub 0 (Nat.le_refl _)
      cases (Option.some.inj hc' : c = c')
      rw [List.flatMap_cons, List.flatMap_nil, List.append_nil] at hchain
      obtain ⟨t, nxt, rfl, hp, hf⟩ := ih hinv hocc hchain
      refine ⟨[t], nxt, rfl, ⟨hf.rep, trivial⟩, hp.symm, hf.chain, hf.sorted,
        hf.nonempty, hf.within, fun c hc => ?_⟩
      rw [List.mem_singleton.mp hc]
      exact hfill hf hocc
  | cons k ks ihk =>
      intro cids lo p hlen hsub hhi hchain
      obtain ⟨c, cids, rfl, hlen'⟩ := exists_cons_of_length hlen
      obtain ⟨c', hc', hocc, hinv⟩ := hsub 0 (Nat.zero_le _)
      cases (Option.some.inj hc' : c = c')
      rw [List.flatMap_cons, List.append_assoc] at hchain
      obtain ⟨t, p', rfl, hp, hf⟩ := ih hinv hocc hchain
      have hf' : Found order h d (some i) lo (some k) _ t p' := hf
      -- the further children lie from the first separator on
      obtain ⟨cs, nxt, hk⟩ := ihk cids (some k) p' hlen' (fun j hj => by
          obtain ⟨c, hc, hocc, hinv⟩ := hsub (j + 1) (by simpa using hj)
          refine ⟨c, by simpa using hc, hocc, ?_⟩
          cases j with
          | zero => simpa [eq_comm (a := 0)] using hinv
          | succ j => simpa using hinv)
        (fun k' hk' => hhi k' (List.mem_cons_of_mem _ hk')) hf.chain
      have hkhi : ∀ b ∈ hi, k < b := hhi k (List.mem_cons_self ..)
      refine ⟨t :: cs, nxt, ?_, ⟨?_, hk.kids⟩, hp.symm, hk.chain, ?_, ?_, ?_, ?_⟩
      · rw [List.map_cons, hk.tids]
      · show Rep order h.nodes d t (some i) (headPtr (firstLeaf d) nxt cs)
        rw [hk.head]
        exact hf.rep
      · show Sorted (flat d t ++ .sep k :: weave ks (cs.map (flat d)))
        refine sorted_append.mpr ⟨hf.sorted, sorted_cons.mpr
          ⟨fun τ hτ => (hk.within τ hτ).1 k rfl, hk.sorted⟩, fun σ hσ τ hτ => ?_⟩
        have hσk := (hf'.within σ hσ).2 k rfl
        rcases List.mem_cons.mp hτ with rfl | hτ
        · exact hσk
        · exact before_of_sep hσk ((hk.within τ hτ).1 k rfl)
      · show flat d t ++ .sep k :: weave ks (cs.map (flat d)) ≠ []
        simp
      · intro τ hτ
        have hτ' : τ ∈ flat d t ++ .sep k :: weave ks (cs.map (flat d)) := hτ
        rcases List.mem_append.mp hτ' with hτ | hτ
        · exact (hf'.within τ hτ).widen_hi hkhi
        · rcases List.mem_cons.mp hτ with rfl | hτ
          · exact ⟨hf'.lt, hkhi⟩
          · exact (hk.within τ hτ).widen_lo hf'.lt
      · intro c hc
        rcases List.mem_cons.mp hc with rfl | hc
        · exact hfill hf hocc
        · exact hk.filled c hc

/-- Memory that satisfies the invariant below a node holds a tree
there. -/
theorem exists_found (horder : 3 ≤ order) : ∀ {d : Nat} {n : NodeId}
    {par : Option NodeId} {lo hi : Option U64} {p : Ptr} {ns : List NodeId},
    SubtreeInv order h d n par lo hi → 1 ≤ (h.nodes n).numKeys →
    Chain order h p (leavesUnder h d n ++ ns) →
    ∃ t nxt, tid d t = n ∧ p = .node (firstLeaf d t)
      ∧ Found order h d par lo hi ns t nxt := by
  intro d
  induction d with
  | zero =>
      intro n par lo hi p ns hinv hpos hchain
      obtain ⟨hnode, hrec⟩ := hinv
      cases hchain with
      | @leaf _ nxt _ hp hrest =>
          obtain ⟨es, hl⟩ := exists_leafRep horder hnode hrec hp
          have hkeys := hl.keysOf_eq
          have hpw : es.Pairwise fun a b => a.1 < b.1 := by
            have := hnode.increasing
            rw [hkeys, List.pairwise_map] at this
            exact this
          refine ⟨(⟨n, es⟩ : Leaf), nxt, rfl, rfl, hl, hrest,
            List.pairwise_map.mpr hpw, ?_, ?_, trivial⟩
          · intro hnil
            have hes : es = [] := by simpa [flat, toks] using hnil
            rw [hl.numKeys, hes] at hpos
            exact absurd hpos (by decide)
          · intro τ hτ
            obtain ⟨e, he, rfl⟩ := List.mem_map.mp hτ
            refine Within.ent (hnode.range e.1 ?_)
            rw [hkeys]
            exact List.mem_map_of_mem he
  | succ d ih =>
      intro n par lo hi p ns hinv _ hchain
      obtain ⟨hnode, hsub⟩ := hinv
      have hle := hnode.numKeys_le
      have hplen := hnode.pointers_length
      have hklen := hnode.keys_length
      obtain ⟨cids, pr, hptr, hclen⟩ := exists_map_append
        (l := (h.nodes n).pointers) (f := Ptr.node)
        (k := (h.nodes n).numKeys + 1) (by omega)
        fun j hj => by
          obtain ⟨c, hc, -⟩ := hsub j (by omega)
          exact ⟨c, hc⟩
      have hkeys : (h.keysOf n).length = (h.nodes n).numKeys := by
        unfold Heap.keysOf
        rw [List.length_take]
        omega
      have hchild : h.children n = cids := by
        unfold Heap.children
        rw [hptr, List.take_left' (by rw [List.length_map, hclen]),
          List.filterMap_map]
        exact List.filterMap_some
      have hocc : 1 ≤ minOccupancy order d := by
        have h₁ := cut_eq (order - 1)
        have h₂ := cut_eq order
        unfold minOccupancy
        split <;> omega
      obtain ⟨cs, nxt, hk⟩ := exists_kids n hi ns
        (fun hinv hc hch => ih hinv (Nat.le_trans hocc hc) hch) (h.keysOf n)
        cids lo p (by rw [hclen, hkeys])
        (fun j hj => by
          rw [hkeys] at hj ⊢
          obtain ⟨c, hc, hrest⟩ := hsub j hj
          refine ⟨c, ?_, hrest⟩
          rw [hptr, List.getElem?_append_left (by simp; omega),
            List.getElem?_map] at hc
          obtain ⟨c', hc', he⟩ := Option.map_eq_some_iff.mp hc
          rw [hc', Ptr.node.inj he])
        (fun k hk => (hnode.range k hk).2)
        (by
          rw [← hchild]
          exact hchain)
      obtain ⟨c, cs', rfl, -⟩ := exists_cons_of_length (l := cs)
        (n := (h.nodes n).numKeys) (by
          rw [← List.length_map (f := tid d), hk.tids, hclen])
      refine ⟨(⟨n, h.keysOf n, c :: cs'⟩ : Branch (Tree d)), nxt, rfl,
        hk.head.symm, ⟨?_, hk.kids⟩, hk.chain, hk.sorted, hk.nonempty, hk.within,
        hk.filled⟩
      show NodeRep order (h.nodes n) par (h.keysOf n) ((c :: cs').map (tid d))
      rw [hk.tids]
      refine ⟨hnode.kind, hnode.parent, hkeys.symm, by rw [hclen, hkeys],
        ⟨(h.nodes n).keys.drop (h.nodes n).numKeys, ?_, ?_⟩, ⟨pr, hptr, ?_⟩⟩
      · exact (List.take_append_drop _ _).symm
      · rw [hkeys, List.length_drop]
        omega
      · rw [← hplen, hptr, List.length_append, List.length_map]

/-- The entries of memory that satisfies the invariant. -/
theorem BPlusTree.stored (horder : 3 ≤ order) {root : Option NodeId}
    {ks : List U64} (ht : BPlusTree order h root ks) :
    ∃ es, Stored order (cut (order - 1)) (cut order - 1) h root es
      ∧ es.map Prod.fst = ks := by
  cases ht with
  | empty o => exact ⟨[], .empty o, rfl⟩
  | @tree root d hinv o =>
      have hchain : Chain order h (.node (leftmost h d root))
          (leavesUnder h d root ++ []) := by
        rw [List.append_nil]
        exact hinv.chain
      obtain ⟨t, nxt, rfl, -, hf⟩ := exists_found horder hinv.subtree
        hinv.root_pos hchain
      have hnxt : nxt = .null := by
        cases hf.chain
        rfl
      subst hnxt
      have o' : Owns h (ids d t) := by
        rw [← hf.rep.nodesUnder_eq]
        exact o
      have hpos : 1 ≤ count d t := by
        rw [← hf.rep.root.2.1]
        exact hinv.root_pos
      refine ⟨_, .tree ⟨hf.rep, o', hf.sorted, hf.filled, hpos⟩, ?_⟩
      rw [hf.rep.leavesUnder_eq, hf.rep.leaf_keys]

-- ====================================================== insert and its twin

/-- `make_record` succeeds on any memory and touches no node. -/
theorem makeRecord_ok (h : Heap) (value : U64) :
    ∃ r h', makeRecord h value = .ok (r, h') ∧ SameNodes h h' := by
  have hcarve : ∀ (k : Nat) (h : Heap), SameNodes h (carveRecs k h)
      ∧ ((carveRecs k h).freeRecs = none → k = 0) := by
    intro k
    induction k with
    | zero => exact fun h => ⟨SameNodes.refl h, fun _ => rfl⟩
    | succ k ih =>
        intro h
        obtain ⟨hs, hne⟩ := ih { h.setRec h.carvedRecs (.next h.freeRecs) with
          freeRecs := some h.carvedRecs
          carvedRecs := h.carvedRecs + 1 }
        refine ⟨⟨hs.nodes, hs.freeNodes, hs.carvedNodes, hs.misses⟩, fun h0 => ?_⟩
        have hk := hne h0
        subst hk
        cases h0
  have hpop : ∀ g : Heap, g.freeRecs ≠ none →
      ∃ r h', popRec g = .ok (r, h') ∧ SameNodes g h' := by
    intro g hne
    unfold popRec
    cases hf : g.freeRecs with
    | none => exact absurd hf hne
    | some r => exact ⟨r, _, rfl, ⟨rfl, rfl, rfl, rfl⟩⟩
  obtain ⟨r, h', hrun, hs⟩ : ∃ r h', allocRecord h = .ok (r, h')
      ∧ SameNodes h h' := by
    unfold allocRecord
    cases hf : h.freeRecs with
    | some r => exact hpop h (by rw [hf]; exact Option.some_ne_none r)
    | none =>
        obtain ⟨hs, hne⟩ := hcarve recsPerSlab h
        obtain ⟨r, h', hrun, hs'⟩ := hpop (carveRecs recsPerSlab h) fun h0 =>
          absurd (hne h0) recsPerSlab_ne_zero
        exact ⟨r, h', hrun, ⟨hs'.nodes.trans hs.nodes,
          hs'.freeNodes.trans hs.freeNodes, hs'.carvedNodes.trans hs.carvedNodes,
          hs'.misses.trans hs.misses⟩⟩
  refine ⟨r, h'.setRec r (.value value), ?_,
    ⟨hs.nodes, hs.freeNodes, hs.carvedNodes, hs.misses⟩⟩
  simp only [makeRecord, hrun, ok_bind]

/-- On every tree and for every absent key, `insert_unique` with the
record that `insert` makes leaves the memory that `insert` leaves. -/
theorem insertUnique_eq_insert (order : Nat) (horder : 3 ≤ order) (h : Heap)
    (root : Option NodeId) (ks : List U64) (ht : BPlusTree order h root ks)
    (key : U64) (habs : key ∉ ks) (value : U64) :
    ∃ r h₁ root' h', makeRecord h value = .ok (r, h₁)
      ∧ insert order h root key value = .ok (root', h')
      ∧ insertUnique order h₁ root key r = .ok (root', h') := by
  obtain ⟨es, hst, hks⟩ := ht.stored horder
  have hno : ∀ r, (key, r) ∉ es := fun r hr =>
    habs (hks ▸ List.mem_map_of_mem hr)
  obtain ⟨leaf, hf⟩ : ∃ leaf, find h root key = .ok (none, leaf) := by
    rcases hst.find key with ⟨r, leaf, hr, -⟩ | ⟨-, hf⟩
    · exact absurd hr (hno r)
    · exact hf
  obtain ⟨r, h₁, hmk, hs⟩ := makeRecord_ok h value
  have hst₁ := hst.same hs
  obtain ⟨root', h', -, -, hrun, -⟩ := insertNew_spec horder (Nat.le_refl _)
    (Nat.le_refl _) hst₁ key r hno
  refine ⟨r, h₁, root', h', hmk, ?_, ?_⟩
  · rw [insert_absent hf, hmk]
    exact hrun
  · rw [insertUnique_eq hst₁]
    exact hrun

/-- The second key, at the smallest order. -/
theorem insertUnique_eq_insert_two :
    ∃ h root, BPlusTree 3 h (some root) [1]
      ∧ ∃ r h₁ root' h', makeRecord h 20 = .ok (r, h₁)
        ∧ insert 3 h (some root) 2 20 = .ok (root', h')
        ∧ insertUnique 3 h₁ (some root) 2 r = .ok (root', h') := by
  obtain ⟨root, h, -, hrep, o, -⟩ :=
    startNewTree_spec (Nat.le_refl 3) owns_empty 1 0
  have hh : Holds 3 (cut 2) (cut 3 - 1) h 0 (⟨root, [(1, 0)]⟩ : Leaf) :=
    ⟨hrep, o, by simp [flat, Sorted], trivial, Nat.le_refl _⟩
  have hkeys : (leavesUnder h 0 root).flatMap h.keysOf = [1] := by
    rw [leavesUnder, List.flatMap_singleton]
    exact LeafRep.keysOf_eq hrep
  have ht : BPlusTree 3 h (some root) [1] := by
    rw [← hkeys]
    exact .tree hh.treeInv o
  exact ⟨h, root, ht, insertUnique_eq_insert 3 (Nat.le_refl 3) h (some root) [1]
    ht 2 (by decide) 20⟩

end ThesisBench.Btree

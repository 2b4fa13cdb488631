/-
What `bulk_load` of `sources/btree/btree.c` returns, read off memory:
the shape of the tree, what `find` answers on it, and the leaf chain.

Nothing here asks for the occupancy bounds, so it also holds of the
trees whose last parent has a single child and no key.
-/
import ThesisBench.Btree.Proofs.BulkLoad
import ThesisBench.Btree.Proofs.Invariant

namespace ThesisBench.Btree

open CArray SepList

variable {order : Nat} {h : Heap}

-- ============================================================= the pairs

/-- The entries read from memory are the leaf's pairs. -/
theorem LeafRep.pairsOf_eq {n : NodeId} {par : Option NodeId}
    {es : List (U64 × RecId)} {nxt : Ptr}
    (hl : LeafRep order (h.nodes n) par es nxt) :
    h.pairsOf n = es.map fun e => (e.1, .record e.2) := by
  obtain ⟨pr, hp, -⟩ := hl.pointers
  have htake : (h.nodes n).pointers.take (h.nodes n).numKeys
      = es.map fun e => Ptr.record e.2 := by
    rw [hp, hl.numKeys]
    exact List.take_left' (by simp)
  unfold Heap.pairsOf
  rw [hl.keysOf_eq, htake, List.zip_map']

/-- The entries along the leaves are the entries of the tree. -/
theorem Rep.leaf_pairs : ∀ {d : Nat} {t : Tree d} {par : Option NodeId}
    {nxt : Ptr}, Rep order h.nodes d t par nxt →
    (leaves d t).flatMap h.pairsOf
      = (ents (flat d t)).map fun e => (e.1, .record e.2) := by
  intro d
  induction d with
  | zero =>
      intro t par nxt hr
      show [Leaf.id t].flatMap h.pairsOf = (ents (toks (Leaf.es t))).map _
      rw [ents_toks, List.flatMap_singleton, LeafRep.pairsOf_eq hr]
  | succ d ih =>
      intro t par nxt hr
      obtain ⟨hn, hk⟩ := hr
      show ((Branch.cs t).flatMap (leaves d)).flatMap h.pairsOf
        = (ents (weave (Branch.ks t) ((Branch.cs t).map (flat d)))).map _
      rw [ents_weave _ _ (by simpa using hn.fan), List.flatMap_map,
        List.flatMap_assoc, List.map_flatMap]
      refine List.flatMap_congr fun c hc => ?_
      obtain ⟨n, hR⟩ := hk.mem hc
      exact ih hR

-- ============================================================== the claim

/-- `bulk_load` of increasing keys returns a tree of uniform depth whose
parent links are right, on which `find` answers exactly the pairs and
whose leaf chain lists them in order. -/
theorem bulkLoad_returns (order : Nat) (horder : 3 ≤ order) (h : Heap)
    (O : List NodeId) (o : Owns h O) (es : List (U64 × RecId)) (hne : es ≠ [])
    (hpw : (es.map Prod.fst).Pairwise (· < ·)) :
    ∃ root h' d, bulkLoad order h es = .ok (some root, h')
      ∧ Uniform h' d root none
      ∧ (∀ k r, (k, r) ∈ es →
          ∃ leaf, find h' (some root) k = .ok (some r, leaf))
      ∧ (∀ k, k ∉ es.map Prod.fst →
          ∃ leaf, find h' (some root) k = .ok (none, leaf))
      ∧ Chain order h' (.node (leftmost h' d root)) (leavesUnder h' d root)
      ∧ (leavesUnder h' d root).flatMap h'.pairsOf
          = es.map fun e => (e.1, .record e.2) := by
  have hpw' : es.Pairwise fun a b => a.1 < b.1 := List.pairwise_map.mp hpw
  obtain ⟨d, t, h', hrun, hrep, o', hsort, hents, -⟩ :=
    bulkLoad_frame horder o hne hpw'
  refine ⟨tid d t, h', d, hrun, hrep.uniform, fun k r hr => ?_, fun k hk => ?_,
    ?_, ?_⟩
  · obtain ⟨leaf, -, ⟨q, hq, hf⟩ | ⟨hno, -⟩⟩ := find_spec hrep hsort o' k
    · rw [← hents] at hr
      rw [ents_unique hsort hr hq]
      exact ⟨some leaf, hf⟩
    · exact absurd (hents ▸ hr) (hno r)
  · obtain ⟨leaf, -, ⟨q, hq, -⟩ | ⟨-, hf⟩⟩ := find_spec hrep hsort o' k
    · exact absurd (List.mem_map_of_mem (hents ▸ hq)) hk
    · exact ⟨some leaf, hf⟩
  · rw [hrep.leftmost_eq, hrep.leavesUnder_eq]
    simpa using hrep.chain Chain.null
  · rw [hrep.leavesUnder_eq, hrep.leaf_pairs, hents]

/-- Seven pairs at order three: the second parent has one child. -/
theorem bulkLoad_returns_seven :
    ∃ root h' d, bulkLoad 3 Heap.empty
          [(1, 0), (2, 1), (3, 2), (4, 3), (5, 4), (6, 5), (7, 6)]
        = .ok (some root, h')
      ∧ Uniform h' d root none := by
  obtain ⟨root, h', d, hrun, hu, -⟩ := bulkLoad_returns 3 (by decide) Heap.empty
    [] owns_empty [(1, 0), (2, 1), (3, 2), (4, 3), (5, 4), (6, 5), (7, 6)]
    (by decide) (by decide)
  exact ⟨root, h', d, hrun, hu⟩

end ThesisBench.Btree

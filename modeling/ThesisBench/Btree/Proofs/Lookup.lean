/-
Lookup on represented trees: where the descent of `find_leaf` goes, and
that `find` answers exactly the entries of the tree.
-/
import ThesisBench.Btree.Tree
import ThesisBench.Btree.Proofs.Memory
import Mathlib.Data.List.TakeWhile

namespace ThesisBench.Btree

open CArray SepList

variable {order : Nat}

-- ============================================================== routing

/-- Where the descent of `find_leaf` goes at an internal node. -/
structure Route (key : U64) {d : Nat} (t : Branch (Tree d))
    (k₁ k₂ : List U64) (c₁ : List (Tree d)) (c : Tree d)
    (c₂ : List (Tree d)) : Prop where
  ks : t.ks = k₁ ++ k₂
  cs : t.cs = c₁ ++ c :: c₂
  left : k₁.length = c₁.length
  right : k₂.length = c₂.length
  le : ∀ k ∈ k₁, k ≤ key
  lt : ∀ k ∈ k₂.head?, key < k

/-- One step of the descent. -/
theorem route_step {h : Heap} {d : Nat} {t : Branch (Tree d)}
    {par : Option NodeId} {nxt : Ptr}
    (hr : Rep order h.nodes (d + 1) t par nxt) (key : U64) :
    ∃ k₁ k₂ c₁ c c₂, Route key t k₁ k₂ c₁ c c₂
      ∧ ∀ fuel, findLeafFrom h key (fuel + 1) t.id
          = findLeafFrom h key fuel (tid d c) := by
  obtain ⟨hn, -⟩ := hr
  have hfan := hn.fan
  rw [List.length_map] at hfan
  obtain ⟨kr, hk, -⟩ := hn.keys
  obtain ⟨pr, hp, -⟩ := hn.pointers
  have hks : t.ks = t.ks.takeWhile (fun k => decide (k ≤ key))
      ++ t.ks.dropWhile (fun k => decide (k ≤ key)) :=
    List.takeWhile_append_dropWhile.symm
  have hlen := congrArg List.length hks
  rw [List.length_append] at hlen
  obtain ⟨c₁, c', hcs, hc₁⟩ := exists_split t.cs
    (t.ks.takeWhile fun k => decide (k ≤ key)).length (by omega)
  have hcl := congrArg List.length hcs
  rw [List.length_append] at hcl
  obtain ⟨c, c₂, rfl, hc₂⟩ := exists_cons_of_length (l := c')
    (n := (t.ks.dropWhile fun k => decide (k ≤ key)).length) (by omega)
  refine ⟨_, _, c₁, c, c₂, ⟨hks, hcs, hc₁.symm, hc₂.symm, ?_, ?_⟩, ?_⟩
  · intro k hkm
    simpa using List.mem_takeWhile_imp hkm
  · intro k hkm
    have hnot := List.head?_dropWhile_not (fun k => decide (k ≤ key)) t.ks
    rw [Option.mem_def.mp hkm] at hnot
    simpa using hnot
  · intro fuel
    rw [findLeafFrom, hn.isLeaf, if_neg (by decide), hn.numKeys]
    have hscan := scanWhile_spec (fun k => decide (k ≤ key)) t.ks kr rfl
    rw [← hk] at hscan
    rw [hscan, chk_some, ok_bind]
    have hread : (h.nodes t.id).pointers[
        (t.ks.takeWhile fun k => decide (k ≤ key)).length]?
        = some (.node (tid d c)) := by
      rw [hp, hcs, List.map_append, List.map_append, List.map_cons,
        List.map_cons, List.append_assoc]
      exact getElem?_seam _ _ _ (by simp [hc₁])
    rw [hread, chk_some, ok_bind, asNode_node, ok_bind]

/-- The addresses under a routed node, child first. -/
theorem Route.ids_perm {key : U64} {d : Nat} {t : Branch (Tree d)}
    {k₁ k₂ : List U64} {c₁ : List (Tree d)} {c : Tree d} {c₂ : List (Tree d)}
    (hrt : Route key t k₁ k₂ c₁ c c₂) (O : List NodeId) :
    (ids d c ++ (t.id :: (c₁.flatMap (ids d) ++ c₂.flatMap (ids d)) ++ O)).Perm
      (ids (d + 1) t ++ O) := by
  have hids : ids (d + 1) t = t.id :: (c₁.flatMap (ids d)
      ++ (ids d c ++ c₂.flatMap (ids d))) := by
    show t.id :: t.cs.flatMap (ids d) = _
    rw [hrt.cs, List.flatMap_append, List.flatMap_cons]
  rw [hids, List.perm_iff_count]
  intro a
  simp only [List.cons_append, List.count_append, List.count_cons]
  omega

/-- The flat reading of a routed node. -/
theorem Route.flat_eq {key : U64} {d : Nat} {t : Branch (Tree d)}
    {k₁ k₂ : List U64} {c₁ : List (Tree d)} {c : Tree d} {c₂ : List (Tree d)}
    (hrt : Route key t k₁ k₂ c₁ c c₂) :
    flat (d + 1) t = weaveL k₁ (c₁.map (flat d))
      ++ (flat d c ++ weaveR k₂ (c₂.map (flat d))) := by
  show weave t.ks (t.cs.map (flat d)) = _
  rw [hrt.ks, hrt.cs, List.map_append, List.map_cons]
  exact weave_focus _ _ _ _ _ (by rw [List.length_map]; exact hrt.left)
    (by rw [List.length_map]; exact hrt.right)

/-- A subtree of an ordered tree is ordered. -/
theorem Route.sorted {key : U64} {d : Nat} {t : Branch (Tree d)}
    {k₁ k₂ : List U64} {c₁ : List (Tree d)} {c : Tree d} {c₂ : List (Tree d)}
    (hrt : Route key t k₁ k₂ c₁ c c₂) (hs : Sorted (flat (d + 1) t)) :
    Sorted (flat d c) := by
  rw [hrt.flat_eq] at hs
  exact (sorted_append.mp (sorted_append.mp hs).2.1).1

/-- The key can only be in the routed child. -/
theorem Route.mem_ents {key : U64} {d : Nat} {t : Branch (Tree d)}
    {k₁ k₂ : List U64} {c₁ : List (Tree d)} {c : Tree d} {c₂ : List (Tree d)}
    (hrt : Route key t k₁ k₂ c₁ c c₂) (hs : Sorted (flat (d + 1) t))
    (r : RecId) :
    (key, r) ∈ ents (flat (d + 1) t) ↔ (key, r) ∈ ents (flat d c) := by
  rw [hrt.flat_eq] at hs ⊢
  have hf := Fits.route (c₁.map (flat d)) (c₂.map (flat d))
    (A := []) (B := []) (by rw [List.length_map]; exact hrt.left)
    (by rw [List.length_map]; exact hrt.right) hrt.le hrt.lt (flat d c)
    (by simpa using hs) ⟨by simp, by simp⟩
  simp only [List.nil_append, List.append_nil] at hf
  simp only [ents_append, List.mem_append]
  constructor
  · rintro (hm | hm | hm)
    · exact absurd (hf.left _ (SepList.mem_ents.mp hm)) (lt_irrefl key)
    · exact hm
    · exact absurd (hf.right _ (SepList.mem_ents.mp hm)) (lt_irrefl key)
  · exact fun hm => Or.inr (Or.inl hm)

-- =============================================================== lookup

/-- The descent reaches a leaf, and the key is in the tree exactly when
it is in that leaf. -/
theorem findLeafFrom_spec {h : Heap} (key : U64) (extra : Nat) :
    ∀ {d : Nat} {t : Tree d} {par : Option NodeId} {nxt : Ptr},
      Rep order h.nodes d t par nxt → Sorted (flat d t) →
      ∃ leaf es par' nxt', findLeafFrom h key (d + 1 + extra) (tid d t)
          = .ok leaf
        ∧ LeafRep order (h.nodes leaf) par' es nxt'
        ∧ es.Pairwise (fun a b => a.1 < b.1)
        ∧ ∀ r, (key, r) ∈ ents (flat d t) ↔ (key, r) ∈ es := by
  intro d
  induction d with
  | zero =>
      intro t par nxt hr hs
      refine ⟨Leaf.id t, Leaf.es t, par, nxt, ?_, hr, ?_, fun r => ?_⟩
      · rw [show 0 + 1 + extra = extra + 1 by omega, findLeafFrom]
        exact if_pos hr.isLeaf
      · simpa [flat] using ents_pairwise hs
      · show (key, r) ∈ ents (toks (Leaf.es t)) ↔ _
        rw [ents_toks]
  | succ d ih =>
      intro t par nxt hr hs
      obtain ⟨k₁, k₂, c₁, c, c₂, hrt, hstep⟩ := route_step hr key
      have hk := hr.2
      rw [hrt.cs] at hk
      obtain ⟨-, hc, -⟩ := kids_focus.mp hk
      obtain ⟨leaf, es, par', nxt', hrun, hleaf, hpw, hmem⟩ :=
        ih hc (hrt.sorted hs)
      refine ⟨leaf, es, par', nxt', ?_, hleaf, hpw, fun r => ?_⟩
      · rw [show d + 1 + 1 + extra = (d + 1 + extra) + 1 by omega, ← hrun]
        exact hstep _
      · rw [hrt.mem_ents hs, hmem]

/-- The search loop of `find` inside one leaf. -/
theorem scan_key {nd : Node} {par : Option NodeId} {es : List (U64 × RecId)}
    {nxt : Ptr} (hl : LeafRep order nd par es nxt) (key : U64) :
    ∃ i, scanWhile (fun k => decide (k ≠ key)) nd.keys 0 nd.numKeys = some i
      ∧ ((i = nd.numKeys ∧ ∀ r, (key, r) ∉ es)
        ∨ (i ≠ nd.numKeys ∧ ∃ r, (key, r) ∈ es
            ∧ nd.pointers[i]? = some (.record r))) := by
  obtain ⟨kr, hk, -⟩ := hl.keys
  obtain ⟨pr, hp, -⟩ := hl.pointers
  refine ⟨_, by rw [hk, hl.numKeys]; exact scanWhile_spec _ _ _ (by simp), ?_⟩
  have hsplit : es = es.takeWhile (fun e => decide (e.1 ≠ key))
      ++ es.dropWhile (fun e => decide (e.1 ≠ key)) :=
    List.takeWhile_append_dropWhile.symm
  have hidx : ((es.map Prod.fst).takeWhile fun k => decide (k ≠ key)).length
      = (es.takeWhile fun e => decide (e.1 ≠ key)).length := by
    rw [List.takeWhile_map, List.length_map]
    rfl
  rw [hidx, hl.numKeys]
  have hpass : ∀ e ∈ es.takeWhile (fun e => decide (e.1 ≠ key)), e.1 ≠ key :=
    fun e he => by simpa using List.mem_takeWhile_imp he
  have hnot := List.head?_dropWhile_not
    (fun e : U64 × RecId => decide (e.1 ≠ key)) es
  match hd : es.dropWhile (fun e => decide (e.1 ≠ key)) with
  | [] =>
      rw [hd, List.append_nil] at hsplit
      left
      refine ⟨by rw [← hsplit], fun r hr => ?_⟩
      rw [hsplit] at hr
      exact hpass _ hr rfl
  | e :: rest =>
      rw [hd] at hsplit hnot
      have he : e.1 = key := by simpa using hnot
      right
      refine ⟨?_, e.2, ?_, ?_⟩
      · intro hlen
        have := congrArg List.length hsplit
        rw [List.length_append, List.length_cons] at this
        omega
      · rw [hsplit, ← he]
        simp
      · rw [hp]
        generalize es.takeWhile (fun e => decide (e.1 ≠ key)) = a at *
        rw [hsplit, List.map_append, List.map_cons, List.append_assoc]
        exact getElem?_seam _ _ _ (by simp)

/-- `find` answers the record of the key, and the leaf the key belongs
to. -/
theorem find_spec {h : Heap} {d : Nat} {t : Tree d} {ns : List NodeId}
    (hr : Rep order h.nodes d t none .null) (hs : Sorted (flat d t))
    (ho : Owns h (ids d t ++ ns)) (key : U64) :
    ∃ leaf, findLeaf h (tid d t) key = .ok leaf
      ∧ ((∃ r, (key, r) ∈ ents (flat d t)
          ∧ find h (some (tid d t)) key = .ok (some r, some leaf))
        ∨ ((∀ r, (key, r) ∉ ents (flat d t))
          ∧ find h (some (tid d t)) key = .ok (none, some leaf))) := by
  have hdepth := hr.depth_lt
  have hlen := ho.length_le
  rw [List.length_append] at hlen
  obtain ⟨leaf, es, par', nxt', hrun, hleaf, -, hmem⟩ :=
    findLeafFrom_spec key (h.carvedNodes - d) hr hs
  rw [show d + 1 + (h.carvedNodes - d) = h.carvedNodes + 1 by omega] at hrun
  have hfl : findLeaf h (tid d t) key = .ok leaf := hrun
  refine ⟨leaf, hfl, ?_⟩
  obtain ⟨i, hscan, hcase⟩ := scan_key hleaf key
  rcases hcase with ⟨hi, hno⟩ | ⟨hi, r, hr', hp⟩
  · right
    refine ⟨fun r hm => hno r ((hmem r).mp hm), ?_⟩
    simp only [find, hfl, ok_bind, hscan, chk_some, if_pos hi]
  · left
    refine ⟨r, (hmem r).mpr hr', ?_⟩
    simp only [find, hfl, ok_bind, hscan, chk_some, if_neg hi, hp,
      asRecord_record]

end ThesisBench.Btree

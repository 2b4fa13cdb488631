/-
Deletion on represented trees.

# The induction

As for insertion, the proof descends while the code climbs. For a
subtree `t` of the tree being changed, the run that starts by removing
an entry from the leaf below `t` either is over (some node below `t`
kept enough entries, or borrowed), or has come to the point where
`delete_entry` has just removed something from `t`'s root and looks at
what is left. In the second case some nodes below `t` have been merged
away: the C code frees each of them only after the recursive call
returns, so they are still owned, and the list of them (`pend`) is
released when the whole call returns.

# Neighbours

A merge or a borrow acts on two adjacent children and the separator
between them, whichever of the two underflowed. The pair lemmas say
what each does to the flat reading of the pair; the parent lemmas put
the pair back among its siblings.
-/
import ThesisBench.Btree.Proofs.DeleteNodes
import ThesisBench.Btree.Proofs.Insert

namespace ThesisBench.Btree

open CArray SepList

variable {order lm nm : Nat}

-- =========================================================== the outcome

/-- The subtree `t` became `t'` in place: same address, same first leaf,
same parent and chain, and the nodes in `O` untouched. The nodes in
`pend` are cut off but not yet freed. -/
structure Becomes (order : Nat) (h h' : Heap) (d : Nat) (t t' : Tree d)
    (par : Option NodeId) (nxt : Ptr) (pend O : List NodeId)
    (edit : List (Tok U64 RecId) → List (Tok U64 RecId) → Prop) : Prop where
  rep : Rep order h'.nodes d t' par nxt
  tid : tid d t' = tid d t
  first : firstLeaf d t' = firstLeaf d t
  owns : Owns h' (ids d t' ++ (pend ++ O))
  agree : Agree h h' O
  recs : SameRecs h h'
  edit : edit (flat d t) (flat d t')

/-- A removal followed by a change that keeps the entries. -/
theorem Becomes.trans {h h₁ h₂ : Heap} {d : Nat} {t t₁ t₂ : Tree d}
    {par : Option NodeId} {nxt : Ptr} {p₁ p₂ O : List NodeId} {key : U64}
    {r : RecId}
    (a : Becomes order h h₁ d t t₁ par nxt p₁ O (Removes key r))
    (b : Becomes order h₁ h₂ d t₁ t₂ par nxt p₂ (p₁ ++ O) Refines) :
    Becomes order h h₂ d t t₂ par nxt (p₂ ++ p₁) O (Removes key r) where
  rep := b.rep
  tid := b.tid.trans a.tid
  first := b.first.trans a.first
  owns := by
    rw [List.append_assoc]
    exact b.owns
  agree := a.agree.trans (b.agree.mono fun _ hi => List.mem_append_right _ hi)
  recs := a.recs.trans b.recs
  edit := a.edit.trans b.edit

/-- `free_node` on each node of a list. -/
def freeAll (ns : List NodeId) (h : Heap) : Heap := ns.foldl freeNode h

/-- The frees that wait for a recursive call to return. -/
def release (ns : List NodeId) (p : Option NodeId × Heap) :
    Except Fault (Option NodeId × Heap) :=
  .ok (p.1, freeAll ns p.2)

/-- Freed nodes are no longer owned; the others keep their contents. -/
theorem freeAll_spec {ns O : List NodeId} {h : Heap} (o : Owns h (ns ++ O)) :
    Owns (freeAll ns h) O ∧ Agree h (freeAll ns h) O
      ∧ SameRecs h (freeAll ns h) := by
  induction ns generalizing h with
  | nil => exact ⟨o, Agree.refl _ _, SameRecs.refl _⟩
  | cons n ns ih =>
      obtain ⟨o', ha, hs⟩ := freeNode_spec o
      obtain ⟨o₂, ha₂, hs₂⟩ := ih o'
      refine ⟨o₂, Agree.trans ?_ ha₂, hs.trans hs₂⟩
      exact ha.mono fun _ hi => List.mem_append_right _ hi

/-- Releasing the pending nodes keeps the tree. -/
theorem Becomes.free {h h' : Heap} {d : Nat} {t t' : Tree d}
    {par : Option NodeId} {nxt : Ptr} {pend O : List NodeId}
    {edit : List (Tok U64 RecId) → List (Tok U64 RecId) → Prop}
    (b : Becomes order h h' d t t' par nxt pend O edit) :
    Becomes order h (freeAll pend h') d t t' par nxt [] O edit := by
  have o : Owns h' (pend ++ (ids d t' ++ O)) := by
    refine b.owns.perm ?_
    rw [← List.append_assoc, ← List.append_assoc]
    exact List.Perm.append_right _ List.perm_append_comm
  obtain ⟨o', ha, hs⟩ := freeAll_spec o
  refine ⟨b.rep.frame fun i hi => ha i (List.mem_append_left _ hi), b.tid,
    b.first, o', ?_, b.recs.trans hs, b.edit⟩
  exact b.agree.trans (ha.mono fun _ hi => List.mem_append_right _ hi)

/-- Changing the routed child changes the node. -/
theorem Route.becomes {key : U64} {d : Nat} {t : Branch (Tree d)}
    {k₁ k₂ : List U64} {c₁ : List (Tree d)} {c c' : Tree d}
    {c₂ : List (Tree d)} (hrt : Route key t k₁ k₂ c₁ c c₂) {h h' : Heap}
    {par : Option NodeId} {nxt : Ptr} {pend O : List NodeId} {r : RecId}
    (hr : Rep order h.nodes (d + 1) t par nxt)
    (b : Becomes order h h' d c c' (some t.id) (headPtr (firstLeaf d) nxt c₂)
      pend (t.id :: (c₁.flatMap (ids d) ++ c₂.flatMap (ids d)) ++ O)
      (Removes key r)) :
    Becomes order h h' (d + 1) t
      (⟨t.id, k₁ ++ k₂, c₁ ++ c' :: c₂⟩ : Branch (Tree d)) par nxt pend O
      (Removes key r) := by
  obtain ⟨i, ks, cs⟩ := t
  obtain ⟨hks, hcs, hl, hrl, hle, hlt⟩ := id hrt
  simp only at hks hcs
  subst hks hcs
  obtain ⟨hn, hk⟩ := hr
  obtain ⟨hk₁, -, hk₂⟩ := kids_focus.mp hk
  have hcids : (c₁ ++ c' :: c₂).map (tid d) = (c₁ ++ c :: c₂).map (tid d) := by
    simp [b.tid]
  have hrt' : Route key (⟨i, k₁ ++ k₂, c₁ ++ c' :: c₂⟩ : Branch (Tree d))
      k₁ k₂ c₁ c' c₂ := ⟨rfl, rfl, hl, hrl, hle, hlt⟩
  refine ⟨⟨?_, ?_⟩, rfl, ?_, ?_, ?_, b.recs, ?_⟩
  · show NodeRep order (h'.nodes i) par (k₁ ++ k₂) _
    rw [hcids, b.agree i (by simp)]
    exact hn
  · refine kids_focus.mpr ⟨?_, b.rep, ?_⟩
    · rw [b.first]
      exact hk₁.frame fun x hx => b.agree x (by simp [hx])
    · exact hk₂.frame fun x hx => b.agree x (by simp [hx])
  · exact firstLeaf_congr (head?_firstLeaf_focus b.first) (by simp)
  · refine (b.owns.perm ?_).perm (hrt'.ids_perm (pend ++ O)).symm
    rw [List.perm_iff_count]
    intro a
    simp only [List.cons_append, List.count_append, List.count_cons]
    omega
  · exact Agree.mono b.agree fun x hx => by simp [hx]
  · rw [hrt.flat_eq, hrt'.flat_eq]
    exact b.edit.frame _ _

-- ============================================================= merging

/-- The sum of key counts below which two siblings are merged. -/
def capacity (order : Nat) : Nat → Nat
  | 0 => order
  | _ + 1 => order - 1

/-- Two adjacent siblings became one. -/
structure Merged (order : Nat) (h h' : Heap) (d : Nat) (l n m : Tree d)
    (par : Option NodeId) (nxt : Ptr) (O : List NodeId) (k : U64) : Prop where
  rep : Rep order h'.nodes d m par nxt
  addr : tid d m = tid d l
  first : firstLeaf d m = firstLeaf d l
  owns : Owns h' (ids d m ++ (tid d n :: O))
  agree : Agree h h' O
  recs : SameRecs h h'
  refines : Refines (flat d l ++ .sep k :: flat d n) (flat d m)
  parent : (h'.nodes (tid d n)).parent = par
  filled : ∀ lm nm, FilledBelow lm nm d l → FilledBelow lm nm d n →
    FilledBelow lm nm d m
  countl : count d l ≤ count d m
  countn : count d n ≤ count d m

/-- Pouring a leaf into its left neighbour leaves one leaf with the pairs
of both. -/
theorem pour_leaves {h : Heap} {l n : Leaf} {par : Option NodeId} {nxt mid : Ptr}
    {O : List NodeId} (hl : Rep order h.nodes 0 l par mid)
    (hn : Rep order h.nodes 0 n par nxt)
    (hroom : count 0 l + count 0 n < capacity order 0)
    (o : Owns h (ids 0 l ++ (ids 0 n ++ O))) (k : U64) :
    ∃ m h', pour order h (tid 0 n) (tid 0 l) k = .ok h'
      ∧ Merged order h h' 0 l n m par nxt O k := by
  obtain ⟨i, L⟩ := l
  obtain ⟨j, R⟩ := n
  have hroom' : L.length + R.length < order := hroom
  have hl' : LeafRep order (h.nodes i) par L mid := hl
  have hn' : LeafRep order (h.nodes j) par R nxt := hn
  obtain ⟨nd, hrun, hrep⟩ :=
    pour_leaf hl' hn' (Nat.le_sub_one_of_lt hroom') k
  have hnd := o.nodup
  simp only [ids, List.singleton_append, List.nodup_cons, List.mem_cons,
    not_or] at hnd
  obtain ⟨⟨hij, hiO⟩, -, -⟩ := hnd
  refine ⟨(⟨i, L ++ R⟩ : Leaf), h.setNode i nd, hrun, ?_, rfl, rfl,
    o.setNode (List.mem_cons_self ..) nd, agree_setNode h nd hiO,
    sameRecs_setNode .., ?_, ?_, fun _ _ _ _ => trivial, ?_, ?_⟩
  · show LeafRep order ((h.setNode i nd).nodes i) par (L ++ R) nxt
    rw [setNode_self]
    exact hrep
  · show Refines (toks L ++ .sep k :: toks R) (toks (L ++ R))
    rw [toks_append]
    exact refines_drop_sep _ _ _
  · show ((h.setNode i nd).nodes j).parent = par
    rw [setNode_other _ _ (Ne.symm hij)]
    exact hn.parent
  · show L.length ≤ (L ++ R).length
    simp
  · show R.length ≤ (L ++ R).length
    simp

/-- Pouring an inner node into its left neighbour leaves one node with the
keys of both and the separator between them. -/
theorem pour_branches {h : Heap} {d : Nat} {l n : Branch (Tree d)}
    {par : Option NodeId} {nxt : Ptr} {O : List NodeId}
    (hl : Rep order h.nodes (d + 1) l par (.node (firstLeaf (d + 1) n)))
    (hn : Rep order h.nodes (d + 1) n par nxt)
    (hroom : count (d + 1) l + count (d + 1) n < capacity order (d + 1))
    (o : Owns h (ids (d + 1) l ++ (ids (d + 1) n ++ O))) (k : U64) :
    ∃ m h', pour order h (tid (d + 1) n) (tid (d + 1) l) k = .ok h'
      ∧ Merged order h h' (d + 1) l n m par nxt O k := by
  obtain ⟨i, kl, cl⟩ := l
  obtain ⟨j, kr, cr⟩ := n
  obtain ⟨hnl, hkl⟩ := hl
  obtain ⟨hnn, hkn⟩ := hn
  have hfl : cl.length = kl.length + 1 := by simpa using hnl.fan
  have hfr : cr.length = kr.length + 1 := by simpa using hnn.fan
  have hcr : cr ≠ [] := by
    intro he
    simp [he] at hfr
  have hroom' : kl.length + kr.length < order - 1 := hroom
  have o' : Owns h (i :: j :: ((cl.flatMap (ids d) ++ cr.flatMap (ids d)) ++ O)) := by
    refine o.perm ?_
    rw [List.perm_iff_count]
    intro a
    simp only [ids, List.cons_append, List.count_append, List.count_cons]
    omega
  have hkids : ∀ x ∈ cl.map (tid d) ++ cr.map (tid d),
      x ∈ (cl.flatMap (ids d) ++ cr.flatMap (ids d)) ++ O := by
    intro x hx
    rcases List.mem_append.mp hx with hx | hx
    · simp only [List.mem_append, mem_ids_of_mem_tids hx, true_or]
    · simp only [List.mem_append, mem_ids_of_mem_tids hx, true_or, or_true]
  obtain ⟨h', hrun, hrep, hpar, hoth, o₂, hs⟩ :=
    pour_node hnl hnn (Nat.succ_le_of_lt hroom') o' hkids k
  have hnd := (List.nodup_cons.mp (List.nodup_cons.mp o'.nodup).2).2
  rw [List.append_assoc] at hnd
  obtain ⟨hndl, hnd₂, hdl⟩ := List.nodup_append.mp hnd
  obtain ⟨hndr, -, hdr⟩ := List.nodup_append.mp hnd₂
  refine ⟨(⟨i, kl ++ k :: kr, cl ++ cr⟩ : Branch (Tree d)), h', hrun, ⟨?_, ?_⟩,
    rfl, ?_, ?_, ?_, hs, ?_, hpar, ?_, ?_, ?_⟩
  · show NodeRep order (h'.nodes i) par (kl ++ k :: kr) ((cl ++ cr).map (tid d))
    rw [List.map_append]
    exact hrep
  · -- every child now hangs under `i`, and the chain crosses the seam
    show Kids (fun c n => Rep order h'.nodes d c (some i) n) (firstLeaf d) nxt
      (cl ++ cr)
    refine kids_append.mpr ⟨?_, ?_⟩
    · rw [headPtr_eq_firstLeaf hcr j kr]
      refine Kids.reparent hkl hndl fun x hx => ?_
      rw [hoth x (by simp only [List.mem_append, hx, true_or])]
      have hxr : x ∉ cr.map (tid d) := fun hm =>
        hdl x hx x (List.mem_append_left _ (mem_ids_of_mem_tids hm)) rfl
      simp only [List.mem_append, hxr, or_false]
    · refine Kids.reparent hkn hndr fun x hx => ?_
      rw [hoth x (by simp only [List.mem_append, hx, true_or, or_true])]
      have hxl : x ∉ cl.map (tid d) := fun hm =>
        hdl x (mem_ids_of_mem_tids hm) x (List.mem_append_left _ hx) rfl
      simp only [List.mem_append, hxl, false_or]
  · obtain ⟨c, cl', rfl, -⟩ := exists_cons_of_length hfl
    rfl
  · refine o₂.perm ?_
    rw [List.perm_iff_count]
    intro a
    simp only [ids, tid, List.flatMap_append, List.cons_append,
      List.count_append, List.count_cons]
    omega
  · intro x hx
    rw [hoth x (by simp only [List.mem_append, hx, or_true]), if_neg]
    intro hm
    rcases List.mem_append.mp hm with hm | hm
    · exact hdl x (mem_ids_of_mem_tids hm) x (List.mem_append_right _ hx) rfl
    · exact hdr x (mem_ids_of_mem_tids hm) x hx rfl
  · show Refines (weave kl (cl.map (flat d)) ++ .sep k
        :: weave kr (cr.map (flat d)))
      (weave (kl ++ k :: kr) ((cl ++ cr).map (flat d)))
    rw [List.map_append, weave_split _ _ _ _ _ (by rw [List.length_map, hfl])]
    exact Refines.refl _
  · intro lm nm hfl hfr c hc
    rcases List.mem_append.mp hc with hc | hc
    · exact hfl c hc
    · exact hfr c hc
  · show kl.length ≤ (kl ++ k :: kr).length
    simp
  · show kr.length ≤ (kl ++ k :: kr).length
    rw [List.length_append, List.length_cons]
    omega

/-- Pouring a node into its left sibling. -/
theorem pour_pair {h : Heap} {d : Nat} {l n : Tree d} {par : Option NodeId}
    {nxt : Ptr} {O : List NodeId}
    (hl : Rep order h.nodes d l par (.node (firstLeaf d n)))
    (hn : Rep order h.nodes d n par nxt)
    (hroom : count d l + count d n < capacity order d)
    (o : Owns h (ids d l ++ (ids d n ++ O))) (k : U64) :
    ∃ m h', pour order h (tid d n) (tid d l) k = .ok h'
      ∧ Merged order h h' d l n m par nxt O k := by
  cases d with
  | zero => exact pour_leaves hl hn hroom o k
  | succ d => exact pour_branches hl hn hroom o k

/-- A separator is not among those before it. -/
theorem sep_not_mem {d : Nat} {i : NodeId} {k₁ k₂ : List U64} {k : U64}
    {cs : List (Tree d)} (hl : cs.length = (k₁ ++ k :: k₂).length + 1)
    (hs : Sorted (flat (d + 1) (⟨i, k₁ ++ k :: k₂, cs⟩ : Branch (Tree d)))) :
    k ∉ k₁ := by
  intro hk
  have hp := seps_pairwise (by rw [List.length_map]; exact hl) hs
  exact lt_irrefl k ((List.pairwise_append.mp hp).2.2 k hk k (by simp))

/-- The addresses of a children list around two adjacent children. -/
theorem ids_pair_perm {d : Nat} (i : NodeId) (ks : List U64)
    (c₁ : List (Tree d)) (l n : Tree d) (c₂ : List (Tree d))
    (O : List NodeId) :
    (ids (d + 1) (⟨i, ks, c₁ ++ l :: n :: c₂⟩ : Branch (Tree d)) ++ O).Perm
      (ids d l ++ (ids d n
        ++ (i :: (c₁.flatMap (ids d) ++ c₂.flatMap (ids d)) ++ O))) :=
  ids_parted_perm i c₁ l n c₂ O

/-- The flat reading of a node around two adjacent children. -/
theorem flat_pair {d : Nat} (i : NodeId) {k₁ : List U64} (k : U64)
    {k₂ : List U64} {c₁ : List (Tree d)} (l n : Tree d) {c₂ : List (Tree d)}
    (h₁ : k₁.length = c₁.length) (h₂ : k₂.length = c₂.length) :
    flat (d + 1) (⟨i, k₁ ++ k :: k₂, c₁ ++ l :: n :: c₂⟩ : Branch (Tree d))
      = weaveL k₁ (c₁.map (flat d))
        ++ ((flat d l ++ .sep k :: flat d n) ++ weaveR k₂ (c₂.map (flat d))) := by
  show weave (k₁ ++ k :: k₂) ((c₁ ++ l :: n :: c₂).map (flat d)) = _
  rw [List.map_append, List.map_cons, List.map_cons,
    weave_focus _ _ _ _ _ (by rw [List.length_map, h₁])
      (by rw [List.length_cons, List.length_cons, List.length_map, h₂])]
  simp

/-- The merge half of `coalesce_nodes`, its arguments in order. -/
def coalesce (order : Nat) (del : DeleteEntry) (h : Heap)
    (root l n : NodeId) (k : U64) : Except Fault (Option NodeId × Heap) := do
  let h ← pour order h n l k
  let parent ← deref (h.nodes n).parent
  let p ← del h root parent k (.node n)
  .ok (p.1, freeNode p.2 n)

/-- The merge of two adjacent children, down to the point where
`delete_entry` looks at the parent. -/
theorem merge_children {h : Heap} {d : Nat} {i : NodeId} {k₁ k₂ : List U64}
    {k : U64} {c₁ c₂ : List (Tree d)} {l n : Tree d} {par : Option NodeId}
    {nxt : Ptr} {O : List NodeId} (h₁ : k₁.length = c₁.length)
    (h₂ : k₂.length = c₂.length)
    (hr : Rep order h.nodes (d + 1)
      (⟨i, k₁ ++ k :: k₂, c₁ ++ l :: n :: c₂⟩ : Branch (Tree d)) par nxt)
    (o : Owns h (ids (d + 1)
      (⟨i, k₁ ++ k :: k₂, c₁ ++ l :: n :: c₂⟩ : Branch (Tree d)) ++ O))
    (hs : Sorted (flat (d + 1)
      (⟨i, k₁ ++ k :: k₂, c₁ ++ l :: n :: c₂⟩ : Branch (Tree d))))
    (hroom : count d l + count d n < capacity order d) (fuel : Nat)
    (root : NodeId) :
    ∃ m h', coalesce order (deleteEntry order (fuel + 1)) h root (tid d l)
          (tid d n) k
        = (afterRemoval order (deleteEntry order fuel) h' root i
            >>= release [tid d n])
      ∧ Becomes order h h' (d + 1)
          (⟨i, k₁ ++ k :: k₂, c₁ ++ l :: n :: c₂⟩ : Branch (Tree d))
          (⟨i, k₁ ++ k₂, c₁ ++ m :: c₂⟩ : Branch (Tree d)) par nxt [tid d n] O
          Refines
      ∧ (∀ lm nm, FilledBelow lm nm d l → FilledBelow lm nm d n →
          FilledBelow lm nm d m)
      ∧ count d l ≤ count d m ∧ count d n ≤ count d m := by
  obtain ⟨hn, hk⟩ := hr
  obtain ⟨hk₁, hrl, hrn, hk₂⟩ := kids_focus₂.mp hk
  have o' := o.perm (ids_pair_perm i (k₁ ++ k :: k₂) c₁ l n c₂ O).symm
  obtain ⟨m, h₁', hpour, hm⟩ := pour_pair hrl hrn hroom o' k
  have hrep : NodeRep order (h₁'.nodes i) par (k₁ ++ k :: k₂)
      (c₁.map (tid d) ++ tid d l :: tid d n :: c₂.map (tid d)) := by
    rw [hm.agree i (by simp)]
    simpa using hn
  have hknot : k ∉ k₁ := sep_not_mem (by simp [h₁, h₂]; omega) hs
  have hnnot : tid d n ∉ c₁.map (tid d) ++ [tid d l] := by
    rw [show c₁ ++ l :: n :: c₂ = (c₁ ++ [l]) ++ n :: c₂ by simp] at o
    simpa using tid_not_before o
  obtain ⟨nd, hrem, hnd⟩ := removeEntry_node hrep (by rw [List.length_map, h₁])
    hknot hnnot
  refine ⟨m, h₁'.setNode i nd, ?_, ?_, hm.filled, hm.countl, hm.countn⟩
  · simp only [coalesce, hpour, ok_bind, hm.parent, deref_some, deleteEntry,
      hrem]
    rfl
  · have o₁ : Owns h₁' (i :: ((c₁ ++ m :: c₂).flatMap (ids d)
        ++ ([tid d n] ++ O))) := by
      refine hm.owns.perm ?_
      rw [List.perm_iff_count]
      intro a
      simp only [List.flatMap_append, List.flatMap_cons, List.cons_append,
        List.nil_append, List.count_append, List.count_cons]
      omega
    have hi := (List.nodup_cons.mp o₁.nodup).1
    have hkids : Kids (fun c n => Rep order h₁'.nodes d c (some i) n)
        (firstLeaf d) nxt (c₁ ++ m :: c₂) := by
      refine kids_focus.mpr ⟨?_, hm.rep, ?_⟩
      · rw [hm.first]
        exact hk₁.frame fun x hx => hm.agree x (by simp [hx])
      · exact hk₂.frame fun x hx => hm.agree x (by simp [hx])
    refine ⟨⟨?_, ?_⟩, rfl, ?_, o₁.setNode (List.mem_cons_self ..) _, ?_,
      hm.recs.trans (sameRecs_setNode ..), ?_⟩
    · show NodeRep order ((h₁'.setNode i nd).nodes i) par (k₁ ++ k₂) _
      rw [setNode_self]
      simpa [hm.addr] using hnd
    · exact hkids.frame fun x hx => setNode_other _ _ fun he =>
        hi (List.mem_append_left _ (he ▸ hx))
    · exact firstLeaf_congr (head?_firstLeaf_focus hm.first) (by simp)
    · refine Agree.trans (hm.agree.mono fun x hx => by simp [hx])
        (agree_setNode _ _ fun hm => hi ?_)
      exact List.mem_append_right _ (List.mem_append_right _ hm)
    · rw [flat_pair i k l n h₁ h₂]
      show Refines _ (weave (k₁ ++ k₂) ((c₁ ++ m :: c₂).map (flat d)))
      rw [List.map_append, List.map_cons,
        weave_focus _ _ _ _ _ (by rw [List.length_map, h₁])
          (by rw [List.length_map, h₂])]
      exact hm.refines.frame _ _

-- ============================================================ borrowing

/-- An entry moved between two adjacent siblings. -/
structure Shared (order : Nat) (h h' : Heap) (d : Nat) (l n l' n' : Tree d)
    (i : NodeId) (nxt : Ptr) (O : List NodeId) (k k' : U64) : Prop where
  repl : Rep order h'.nodes d l' (some i) (.node (firstLeaf d n'))
  repn : Rep order h'.nodes d n' (some i) nxt
  addrl : tid d l' = tid d l
  addrn : tid d n' = tid d n
  first : firstLeaf d l' = firstLeaf d l
  owns : Owns h' (ids d l' ++ (ids d n' ++ (i :: O)))
  agree : Agree h h' O
  recs : SameRecs h h'
  refines : Refines (flat d l ++ .sep k :: flat d n)
    (flat d l' ++ .sep k' :: flat d n')
  filled : ∀ lm nm, FilledBelow lm nm d l → FilledBelow lm nm d n →
    FilledBelow lm nm d l' ∧ FilledBelow lm nm d n'

/-- A leaf borrows the last pair of its left neighbour, and the separator
becomes that pair's key. -/
theorem borrowLeft_leaves {h : Heap} {i : NodeId} {l n : Leaf} {nxt : Ptr}
    {O : List NodeId} {pp : Option NodeId} {k₁ k₂ : List U64} {k : U64}
    {cids : List NodeId}
    (hl : Rep order h.nodes 0 l (some i) (.node (firstLeaf 0 n)))
    (hn : Rep order h.nodes 0 n (some i) nxt)
    (hp : NodeRep order (h.nodes i) pp (k₁ ++ k :: k₂) cids)
    (hmany : 2 ≤ count 0 l) (hroom : count 0 n < order - 1)
    (o : Owns h (ids 0 l ++ (ids 0 n ++ (i :: O)))) :
    ∃ l' n' k' h', borrowFromLeft h (tid 0 n) (tid 0 l) i k₁.length k = .ok h'
      ∧ Shared order h h' 0 l n l' n' i nxt O k k'
      ∧ NodeRep order (h'.nodes i) pp (k₁ ++ k' :: k₂) cids
      ∧ count 0 l = count 0 l' + 1 ∧ count 0 n' = count 0 n + 1 := by
  obtain ⟨a, es⟩ := l
  obtain ⟨b, R⟩ := n
  obtain ⟨L, e, rfl, hL⟩ := exists_concat_of_length (l := es)
    (n := es.length - 1) (by
      have : 2 ≤ es.length := hmany
      omega)
  have hlen : 2 ≤ (L ++ [e]).length := hmany
  rw [List.length_append, List.length_singleton] at hlen
  have o' : Owns h (i :: b :: a :: O) := by
    refine o.perm ?_
    rw [List.perm_iff_count]
    intro x
    simp only [ids, List.cons_append, List.nil_append, List.count_cons]
    omega
  have hl' : LeafRep order (h.nodes a) (some i) (L ++ [e]) (.node b) := hl
  have hn' : LeafRep order (h.nodes b) (some i) R nxt := hn
  obtain ⟨h', hrun, hrl, hrn, hpp, hb⟩ :=
    borrowFromLeft_leaf hl' hn' hp hroom o'
  refine ⟨(⟨a, L⟩ : Leaf), (⟨b, e :: R⟩ : Leaf), e.1, h', hrun,
    ⟨hrl, hrn, rfl, rfl, rfl, ?_, ?_, hb.recs, ?_,
      fun _ _ _ _ => ⟨trivial, trivial⟩⟩, hpp, ?_, ?_⟩
  · refine hb.owns.perm ?_
    rw [List.perm_iff_count]
    intro x
    simp only [ids, List.cons_append, List.nil_append, List.count_cons]
    omega
  · intro x hx
    rw [hb.others x hx, if_neg (by simp)]
  · -- an entry before the new separator keeps it above everything left
    obtain ⟨L', e₀, rfl, -⟩ := exists_concat_of_length (l := L)
      (n := L.length - 1) (by omega)
    have hdrop := refines_drop_sep (toks (L' ++ [e₀] ++ [e])) k (toks R)
    refine hdrop.trans ?_
    have hsep := refines_sep_before (toks L') e₀.1 e₀.2 e.1 e.2 (toks R)
    simpa [flat] using hsep
  · show (L ++ [e]).length = L.length + 1
    simp
  · show (e :: R).length = R.length + 1
    simp

/-- A leaf borrows the first pair of its right neighbour, and the separator
becomes the key of the pair after it. -/
theorem borrowRight_leaves {h : Heap} {i : NodeId} {l n : Leaf} {nxt : Ptr}
    {O : List NodeId} {pp : Option NodeId} {k₁ k₂ : List U64} {k : U64}
    {cids : List NodeId}
    (hl : Rep order h.nodes 0 l (some i) (.node (firstLeaf 0 n)))
    (hn : Rep order h.nodes 0 n (some i) nxt)
    (hp : NodeRep order (h.nodes i) pp (k₁ ++ k :: k₂) cids)
    (hmany : 2 ≤ count 0 n) (hroom : count 0 l < order - 1)
    (o : Owns h (ids 0 l ++ (ids 0 n ++ (i :: O)))) :
    ∃ l' n' k' h', borrowFromRight h (tid 0 l) (tid 0 n) i k₁.length k = .ok h'
      ∧ Shared order h h' 0 l n l' n' i nxt O k k'
      ∧ NodeRep order (h'.nodes i) pp (k₁ ++ k' :: k₂) cids
      ∧ count 0 l' = count 0 l + 1 ∧ count 0 n = count 0 n' + 1 := by
  obtain ⟨a, L⟩ := l
  obtain ⟨b, es⟩ := n
  have hmany' : 2 ≤ es.length := hmany
  obtain ⟨e, es, rfl, hes⟩ := exists_cons_of_length (l := es)
    (n := es.length - 1) (by omega)
  rw [List.length_cons] at hmany'
  obtain ⟨f, R, rfl, -⟩ := exists_cons_of_length (l := es)
    (n := es.length - 1) (by omega)
  have o' : Owns h (i :: a :: b :: O) := by
    refine o.perm ?_
    rw [List.perm_iff_count]
    intro x
    simp only [ids, List.cons_append, List.nil_append, List.count_cons]
    omega
  have hl' : LeafRep order (h.nodes a) (some i) L (.node b) := hl
  have hn' : LeafRep order (h.nodes b) (some i) (e :: f :: R) nxt := hn
  obtain ⟨h', hrun, hrl, hrn, hpp, hb⟩ :=
    borrowFromRight_leaf hl' hn' hp hroom o'
  refine ⟨(⟨a, L ++ [e]⟩ : Leaf), (⟨b, f :: R⟩ : Leaf), f.1, h', hrun,
    ⟨hrl, hrn, rfl, rfl, rfl, ?_, ?_, hb.recs, ?_,
      fun _ _ _ _ => ⟨trivial, trivial⟩⟩, hpp, ?_, ?_⟩
  · refine hb.owns.perm ?_
    rw [List.perm_iff_count]
    intro x
    simp only [ids, List.cons_append, List.nil_append, List.count_cons]
    omega
  · intro x hx
    rw [hb.others x hx, if_neg (by simp)]
  · have hdrop := refines_drop_sep (toks L) k (toks (e :: f :: R))
    refine hdrop.trans ?_
    have hsep := refines_sep_before (toks L) e.1 e.2 f.1 f.2 (toks R)
    simpa [flat] using hsep
  · show (L ++ [e]).length = L.length + 1
    simp
  · show (e :: f :: R).length = (f :: R).length + 1
    simp

/-- The child that moves in an internal borrow, seen in the new heap. -/
theorem Borrowed.moved {h h' : Heap} {d : Nat} {c : Tree d}
    {i n nb : NodeId} {par : Option NodeId} {nxt : Ptr} {O : List NodeId}
    (hb : Borrowed h h' i n nb (some (tid d c)) O)
    (hc : Rep order h.nodes d c par nxt) (hO : ∀ x ∈ ids d c, x ∈ O)
    (hnd : (ids d c).Nodup) : Rep order h'.nodes d c (some n) nxt := by
  refine hc.reparent ?_ fun x hx => ?_
  · rw [hb.others _ (hO _ (tid_mem_ids d c)), if_pos rfl]
  · have hne : tid d c ≠ x := by
      rw [ids_eq_cons] at hnd
      exact fun he => (List.nodup_cons.mp hnd).1 (he ▸ hx)
    have hx' : x ∈ ids d c := by
      rw [ids_eq_cons]
      exact List.mem_cons_of_mem _ hx
    rw [hb.others x (hO x hx'), if_neg (by simpa using hne)]

/-- The children that do not move in an internal borrow. -/
theorem Borrowed.stay {h h' : Heap} {d : Nat} {cs : List (Tree d)}
    {i n nb c : NodeId} {par : Option NodeId} {nxt : Ptr} {O : List NodeId}
    (hb : Borrowed h h' i n nb (some c) O)
    (hk : Kids (fun c n => Rep order h.nodes d c par n) (firstLeaf d) nxt cs)
    (hO : ∀ x ∈ cs.flatMap (ids d), x ∈ O)
    (hc : c ∉ cs.flatMap (ids d)) :
    Kids (fun c n => Rep order h'.nodes d c par n) (firstLeaf d) nxt cs := by
  refine hk.frame fun x hx => ?_
  have hne : c ≠ x := fun he => hc (he ▸ hx)
  rw [hb.others x (hO x hx), if_neg (by simpa using hne)]

/-- An inner node borrows the last child of its left neighbour; the keys
rotate through the separator. -/
theorem borrowLeft_branches {h : Heap} {d : Nat} {i : NodeId}
    {l n : Branch (Tree d)} {nxt : Ptr} {O : List NodeId}
    {pp : Option NodeId} {k₁ k₂ : List U64} {k : U64} {cids : List NodeId}
    (hl : Rep order h.nodes (d + 1) l (some i) (.node (firstLeaf (d + 1) n)))
    (hn : Rep order h.nodes (d + 1) n (some i) nxt)
    (hp : NodeRep order (h.nodes i) pp (k₁ ++ k :: k₂) cids)
    (hmany : 2 ≤ count (d + 1) l) (hroom : count (d + 1) n < order - 1)
    (o : Owns h (ids (d + 1) l ++ (ids (d + 1) n ++ (i :: O)))) :
    ∃ l' n' k' h', borrowFromLeft h (tid (d + 1) n) (tid (d + 1) l) i
          k₁.length k = .ok h'
      ∧ Shared order h h' (d + 1) l n l' n' i nxt O k k'
      ∧ NodeRep order (h'.nodes i) pp (k₁ ++ k' :: k₂) cids
      ∧ count (d + 1) l = count (d + 1) l' + 1
      ∧ count (d + 1) n' = count (d + 1) n + 1 := by
  obtain ⟨a, kl, cl⟩ := l
  obtain ⟨b, kr, cr⟩ := n
  obtain ⟨hnl, hkl⟩ := hl
  obtain ⟨hnn, hkn⟩ := hn
  have hmany' : 2 ≤ kl.length := hmany
  have hfl : cl.length = kl.length + 1 := by simpa using hnl.fan
  have hfr : cr.length = kr.length + 1 := by simpa using hnn.fan
  obtain ⟨cl, c, rfl, hcl⟩ := exists_concat_of_length hfl
  obtain ⟨kl, k', rfl, hkl'⟩ := exists_concat_of_length (l := kl)
    (n := kl.length - 1) (by omega)
  simp only [List.length_append, List.length_singleton] at hcl hmany'
  have hcr : cr ≠ [] := by
    rintro rfl
    simp at hfr
  obtain ⟨hkl, hc, -⟩ := kids_focus.mp hkl
  have o' : Owns h (i :: b :: a :: (ids d c ++ (cl.flatMap (ids d)
      ++ (cr.flatMap (ids d) ++ O)))) := by
    refine o.perm ?_
    rw [List.perm_iff_count]
    intro x
    simp only [ids, List.flatMap_append, List.flatMap_cons, List.flatMap_nil,
      List.append_nil, List.cons_append, List.count_append, List.count_cons]
    omega
  have hnd := (List.nodup_cons.mp (List.nodup_cons.mp
    (List.nodup_cons.mp o'.nodup).2).2).2
  obtain ⟨hndc, hndr, hdc⟩ := List.nodup_append.mp hnd
  have hnl' : NodeRep order (h.nodes a) (some i) (kl ++ [k'])
      (cl.map (tid d) ++ [tid d c]) := by simpa using hnl
  have hnn' : NodeRep order (h.nodes b) (some i) kr (cr.map (tid d)) := hnn
  obtain ⟨h', hrun, hrl, hrn, hpp, hb⟩ :=
    borrowFromLeft_node hnl' hnn' hp hroom o'
      (List.mem_append_left _ (tid_mem_ids d c))
  refine ⟨(⟨a, kl, cl⟩ : Branch (Tree d)), (⟨b, k :: kr, c :: cr⟩ :
    Branch (Tree d)), k', h', hrun, ⟨⟨hrl, ?_⟩, ⟨hrn, ?_, ?_⟩, rfl, rfl, ?_,
      ?_, ?_, hb.recs, ?_, ?_⟩, hpp, ?_, ?_⟩
  · exact hb.stay hkl (fun x hx => by simp only [List.mem_append, hx, true_or,
      or_true]) fun hm => hdc _ (tid_mem_ids d c) _ (List.mem_append_left _ hm) rfl
  · show Rep order h'.nodes d c (some b) (headPtr (firstLeaf d) nxt cr)
    rw [headPtr_eq_firstLeaf hcr b kr]
    exact hb.moved hc (fun x hx => List.mem_append_left _ hx) hndc
  · exact hb.stay hkn (fun x hx => by simp only [List.mem_append, hx, true_or,
      or_true]) fun hm => hdc _ (tid_mem_ids d c) _
        (List.mem_append_right _ (List.mem_append_left _ hm)) rfl
  · obtain ⟨e, cl', rfl, -⟩ := exists_cons_of_length hcl
    rfl
  · refine hb.owns.perm ?_
    rw [List.perm_iff_count]
    intro x
    simp only [ids, List.flatMap_cons, List.cons_append, List.count_append,
      List.count_cons]
    omega
  · intro x hx
    have hne : tid d c ≠ x := hdc _ (tid_mem_ids d c) x
      (List.mem_append_right _ (List.mem_append_right _ hx))
    rw [hb.others x (by simp only [List.mem_append, hx, or_true]),
      if_neg (by simpa using hne)]
  · show Refines (weave (kl ++ [k']) ((cl ++ [c]).map (flat d)) ++ .sep k
        :: weave kr (cr.map (flat d)))
      (weave kl (cl.map (flat d)) ++ .sep k'
        :: weave (k :: kr) ((c :: cr).map (flat d)))
    have hw := weave_split kl k' [] (cl.map (flat d)) [flat d c]
      (by rw [List.length_map, hcl])
    obtain ⟨e, cr', rfl, -⟩ := exists_cons_of_length hfr
    rw [List.map_append, List.map_singleton, hw]
    simp only [weave, List.map_cons, List.append_assoc, List.cons_append]
    exact Refines.refl _
  · intro lm nm hfl hfr
    refine ⟨fun x hx => hfl x (List.mem_append_left _ hx), fun x hx => ?_⟩
    rcases List.mem_cons.mp hx with rfl | hx
    · exact hfl x (by simp)
    · exact hfr x hx
  · show (kl ++ [k']).length = kl.length + 1
    simp
  · show (k :: kr).length = kr.length + 1
    simp

/-- An inner node borrows the first child of its right neighbour; the keys
rotate through the separator. -/
theorem borrowRight_branches {h : Heap} {d : Nat} {i : NodeId}
    {l n : Branch (Tree d)} {nxt : Ptr} {O : List NodeId}
    {pp : Option NodeId} {k₁ k₂ : List U64} {k : U64} {cids : List NodeId}
    (hl : Rep order h.nodes (d + 1) l (some i) (.node (firstLeaf (d + 1) n)))
    (hn : Rep order h.nodes (d + 1) n (some i) nxt)
    (hp : NodeRep order (h.nodes i) pp (k₁ ++ k :: k₂) cids)
    (hmany : 2 ≤ count (d + 1) n) (hroom : count (d + 1) l < order - 1)
    (o : Owns h (ids (d + 1) l ++ (ids (d + 1) n ++ (i :: O)))) :
    ∃ l' n' k' h', borrowFromRight h (tid (d + 1) l) (tid (d + 1) n) i
          k₁.length k = .ok h'
      ∧ Shared order h h' (d + 1) l n l' n' i nxt O k k'
      ∧ NodeRep order (h'.nodes i) pp (k₁ ++ k' :: k₂) cids
      ∧ count (d + 1) l' = count (d + 1) l + 1
      ∧ count (d + 1) n = count (d + 1) n' + 1 := by
  obtain ⟨a, kl, cl⟩ := l
  obtain ⟨b, kr, cr⟩ := n
  obtain ⟨hnl, hkl⟩ := hl
  obtain ⟨hnn, hkn⟩ := hn
  have hmany' : 2 ≤ kr.length := hmany
  have hfl : cl.length = kl.length + 1 := by simpa using hnl.fan
  have hfr : cr.length = kr.length + 1 := by simpa using hnn.fan
  obtain ⟨c, cr, rfl, hcr⟩ := exists_cons_of_length hfr
  obtain ⟨k', kr, rfl, hkr'⟩ := exists_cons_of_length (l := kr)
    (n := kr.length - 1) (by omega)
  rw [List.length_cons] at hcr
  have hcrne : cr ≠ [] := by
    rintro rfl
    simp at hcr
  obtain ⟨hc, hkn⟩ := hkn
  have o' : Owns h (i :: a :: b :: (ids d c ++ (cl.flatMap (ids d)
      ++ (cr.flatMap (ids d) ++ O)))) := by
    refine o.perm ?_
    rw [List.perm_iff_count]
    intro x
    simp only [ids, List.flatMap_cons, List.cons_append, List.count_append,
      List.count_cons]
    omega
  have hnd := (List.nodup_cons.mp (List.nodup_cons.mp
    (List.nodup_cons.mp o'.nodup).2).2).2
  obtain ⟨hndc, hndr, hdc⟩ := List.nodup_append.mp hnd
  have hnl' : NodeRep order (h.nodes a) (some i) kl (cl.map (tid d)) := hnl
  have hnn' : NodeRep order (h.nodes b) (some i) (k' :: kr)
      (tid d c :: cr.map (tid d)) := hnn
  obtain ⟨h', hrun, hrl, hrn, hpp, hb⟩ :=
    borrowFromRight_node hnl' hnn' hp hroom o'
      (List.mem_append_left _ (tid_mem_ids d c))
  refine ⟨(⟨a, kl ++ [k], cl ++ [c]⟩ : Branch (Tree d)), (⟨b, kr, cr⟩ :
    Branch (Tree d)), k', h', hrun, ⟨⟨?_, ?_⟩, ⟨hrn, ?_⟩, rfl, rfl, ?_,
      ?_, ?_, hb.recs, ?_, ?_⟩, hpp, ?_, ?_⟩
  · simpa using hrl
  · refine kids_focus.mpr ⟨?_, ?_, trivial⟩
    · exact hb.stay hkl (fun x hx => by simp only [List.mem_append, hx,
        true_or, or_true]) fun hm =>
          hdc _ (tid_mem_ids d c) _ (List.mem_append_left _ hm) rfl
    · show Rep order h'.nodes d c (some a)
        (.node (firstLeaf (d + 1) (⟨b, kr, cr⟩ : Branch (Tree d))))
      rw [← headPtr_eq_firstLeaf (p := nxt) hcrne b kr]
      exact hb.moved hc (fun x hx => List.mem_append_left _ hx) hndc
  · exact hb.stay hkn (fun x hx => by simp only [List.mem_append, hx, true_or,
      or_true]) fun hm => hdc _ (tid_mem_ids d c) _
        (List.mem_append_right _ (List.mem_append_left _ hm)) rfl
  · obtain ⟨e, cl', rfl, -⟩ := exists_cons_of_length hfl
    rfl
  · refine hb.owns.perm ?_
    rw [List.perm_iff_count]
    intro x
    simp only [ids, List.flatMap_append, List.flatMap_cons, List.flatMap_nil,
      List.append_nil, List.cons_append, List.count_append, List.count_cons]
    omega
  · intro x hx
    have hne : tid d c ≠ x := hdc _ (tid_mem_ids d c) x
      (List.mem_append_right _ (List.mem_append_right _ hx))
    rw [hb.others x (by simp only [List.mem_append, hx, or_true]),
      if_neg (by simpa using hne)]
  · show Refines (weave kl (cl.map (flat d)) ++ .sep k
        :: weave (k' :: kr) ((c :: cr).map (flat d)))
      (weave (kl ++ [k]) ((cl ++ [c]).map (flat d)) ++ .sep k'
        :: weave kr (cr.map (flat d)))
    have hw := weave_split kl k [] (cl.map (flat d)) [flat d c]
      (by rw [List.length_map, hfl])
    obtain ⟨e, cr', rfl, -⟩ := exists_cons_of_length hcr
    rw [List.map_append, List.map_singleton, hw]
    simp only [weave, List.map_cons, List.append_assoc, List.cons_append]
    exact Refines.refl _
  · intro lm nm hfl hfr
    refine ⟨fun x hx => ?_, fun x hx => hfr x (List.mem_cons_of_mem _ hx)⟩
    rcases List.mem_append.mp hx with hx | hx
    · exact hfl x hx
    · rw [List.mem_singleton.mp hx]
      exact hfr c (List.mem_cons_self ..)
  · show (kl ++ [k]).length = kl.length + 1
    simp
  · show (k' :: kr).length = kr.length + 1
    simp

/-- The parent of two siblings that shared an entry. -/
theorem Shared.becomes {h h' : Heap} {d : Nat} {i : NodeId}
    {k₁ k₂ : List U64} {k k' : U64} {c₁ c₂ : List (Tree d)}
    {l n l' n' : Tree d} {par : Option NodeId} {nxt : Ptr} {O : List NodeId}
    (h₁ : k₁.length = c₁.length) (h₂ : k₂.length = c₂.length)
    (hr : Rep order h.nodes (d + 1)
      (⟨i, k₁ ++ k :: k₂, c₁ ++ l :: n :: c₂⟩ : Branch (Tree d)) par nxt)
    (hsh : Shared order h h' d l n l' n' i (headPtr (firstLeaf d) nxt c₂)
      ((c₁.flatMap (ids d) ++ c₂.flatMap (ids d)) ++ O) k k')
    (hp : NodeRep order (h'.nodes i) par (k₁ ++ k' :: k₂)
      ((c₁ ++ l :: n :: c₂).map (tid d))) :
    Becomes order h h' (d + 1)
      (⟨i, k₁ ++ k :: k₂, c₁ ++ l :: n :: c₂⟩ : Branch (Tree d))
      (⟨i, k₁ ++ k' :: k₂, c₁ ++ l' :: n' :: c₂⟩ : Branch (Tree d)) par nxt
      [] O Refines := by
  obtain ⟨-, hk⟩ := hr
  obtain ⟨hk₁, -, -, hk₂⟩ := kids_focus₂.mp hk
  have hcids : (c₁ ++ l' :: n' :: c₂).map (tid d)
      = (c₁ ++ l :: n :: c₂).map (tid d) := by
    simp [hsh.addrl, hsh.addrn]
  refine ⟨⟨?_, ?_⟩, rfl, ?_, ?_, ?_, hsh.recs, ?_⟩
  · show NodeRep order (h'.nodes i) par (k₁ ++ k' :: k₂) _
    rw [hcids]
    exact hp
  · refine kids_focus₂.mpr ⟨?_, hsh.repl, hsh.repn, ?_⟩
    · rw [hsh.first]
      exact hk₁.frame fun x hx => hsh.agree x (by simp [hx])
    · exact hk₂.frame fun x hx => hsh.agree x (by simp [hx])
  · exact firstLeaf_congr (head?_firstLeaf_focus hsh.first) (by simp)
  · exact hsh.owns.perm (ids_pair_perm i _ c₁ l' n' c₂ O)
  · exact hsh.agree.mono fun x hx => by simp [hx]
  · rw [flat_pair i k l n h₁ h₂, flat_pair i k' l' n' h₁ h₂]
    exact hsh.refines.frame _ _

/-- An entry moves from the left child of a pair to the right one. -/
theorem borrow_left {h : Heap} {d : Nat} {i : NodeId} {k₁ k₂ : List U64}
    {k : U64} {c₁ c₂ : List (Tree d)} {l n : Tree d} {par : Option NodeId}
    {nxt : Ptr} {O : List NodeId} (h₁ : k₁.length = c₁.length)
    (h₂ : k₂.length = c₂.length)
    (hr : Rep order h.nodes (d + 1)
      (⟨i, k₁ ++ k :: k₂, c₁ ++ l :: n :: c₂⟩ : Branch (Tree d)) par nxt)
    (o : Owns h (ids (d + 1)
      (⟨i, k₁ ++ k :: k₂, c₁ ++ l :: n :: c₂⟩ : Branch (Tree d)) ++ O))
    (hmany : 2 ≤ count d l) (hroom : count d n < order - 1) :
    ∃ l' n' k' h', borrowFromLeft h (tid d n) (tid d l) i k₁.length k = .ok h'
      ∧ Becomes order h h' (d + 1)
          (⟨i, k₁ ++ k :: k₂, c₁ ++ l :: n :: c₂⟩ : Branch (Tree d))
          (⟨i, k₁ ++ k' :: k₂, c₁ ++ l' :: n' :: c₂⟩ : Branch (Tree d)) par
          nxt [] O Refines
      ∧ (∀ lm nm, FilledBelow lm nm d l → FilledBelow lm nm d n →
          FilledBelow lm nm d l' ∧ FilledBelow lm nm d n')
      ∧ count d l = count d l' + 1 ∧ count d n' = count d n + 1 := by
  have o' := o.perm (ids_pair_perm i (k₁ ++ k :: k₂) c₁ l n c₂ O).symm
  obtain ⟨hn, hk⟩ := id hr
  obtain ⟨-, hrl, hrn, -⟩ := kids_focus₂.mp hk
  obtain ⟨l', n', k', h', hrun, hsh, hp, hcl, hcn⟩ : ∃ l' n' k' h',
      borrowFromLeft h (tid d n) (tid d l) i k₁.length k = .ok h'
      ∧ Shared order h h' d l n l' n' i (headPtr (firstLeaf d) nxt c₂)
          ((c₁.flatMap (ids d) ++ c₂.flatMap (ids d)) ++ O) k k'
      ∧ NodeRep order (h'.nodes i) par (k₁ ++ k' :: k₂)
          ((c₁ ++ l :: n :: c₂).map (tid d))
      ∧ count d l = count d l' + 1 ∧ count d n' = count d n + 1 := by
    cases d with
    | zero => exact borrowLeft_leaves hrl hrn hn hmany hroom o'
    | succ d => exact borrowLeft_branches hrl hrn hn hmany hroom o'
  exact ⟨l', n', k', h', hrun, hsh.becomes h₁ h₂ hr hp, hsh.filled, hcl, hcn⟩

/-- An entry moves from the right child of a pair to the left one. -/
theorem borrow_right {h : Heap} {d : Nat} {i : NodeId} {k₁ k₂ : List U64}
    {k : U64} {c₁ c₂ : List (Tree d)} {l n : Tree d} {par : Option NodeId}
    {nxt : Ptr} {O : List NodeId} (h₁ : k₁.length = c₁.length)
    (h₂ : k₂.length = c₂.length)
    (hr : Rep order h.nodes (d + 1)
      (⟨i, k₁ ++ k :: k₂, c₁ ++ l :: n :: c₂⟩ : Branch (Tree d)) par nxt)
    (o : Owns h (ids (d + 1)
      (⟨i, k₁ ++ k :: k₂, c₁ ++ l :: n :: c₂⟩ : Branch (Tree d)) ++ O))
    (hmany : 2 ≤ count d n) (hroom : count d l < order - 1) :
    ∃ l' n' k' h', borrowFromRight h (tid d l) (tid d n) i k₁.length k = .ok h'
      ∧ Becomes order h h' (d + 1)
          (⟨i, k₁ ++ k :: k₂, c₁ ++ l :: n :: c₂⟩ : Branch (Tree d))
          (⟨i, k₁ ++ k' :: k₂, c₁ ++ l' :: n' :: c₂⟩ : Branch (Tree d)) par
          nxt [] O Refines
      ∧ (∀ lm nm, FilledBelow lm nm d l → FilledBelow lm nm d n →
          FilledBelow lm nm d l' ∧ FilledBelow lm nm d n')
      ∧ count d l' = count d l + 1 ∧ count d n = count d n' + 1 := by
  have o' := o.perm (ids_pair_perm i (k₁ ++ k :: k₂) c₁ l n c₂ O).symm
  obtain ⟨hn, hk⟩ := id hr
  obtain ⟨-, hrl, hrn, -⟩ := kids_focus₂.mp hk
  obtain ⟨l', n', k', h', hrun, hsh, hp, hcl, hcn⟩ : ∃ l' n' k' h',
      borrowFromRight h (tid d l) (tid d n) i k₁.length k = .ok h'
      ∧ Shared order h h' d l n l' n' i (headPtr (firstLeaf d) nxt c₂)
          ((c₁.flatMap (ids d) ++ c₂.flatMap (ids d)) ++ O) k k'
      ∧ NodeRep order (h'.nodes i) par (k₁ ++ k' :: k₂)
          ((c₁ ++ l :: n :: c₂).map (tid d))
      ∧ count d l' = count d l + 1 ∧ count d n = count d n' + 1 := by
    cases d with
    | zero => exact borrowRight_leaves hrl hrn hn hmany hroom o'
    | succ d => exact borrowRight_branches hrl hrn hn hmany hroom o'
  exact ⟨l', n', k', h', hrun, hsh.becomes h₁ h₂ hr hp, hsh.filled, hcl, hcn⟩

-- ====================================================== the underflow

/-- `min_keys` of `delete_entry`, by level. -/
def minKeys (order : Nat) : Nat → Nat := least (cut (order - 1)) (cut order - 1)

/-- The least number of keys as `delete_entry` computes it from the node. -/
theorem Rep.minKeys_eq {h : Heap} {d : Nat} {t : Tree d}
    {par : Option NodeId} {nxt : Ptr} (hr : Rep order h.nodes d t par nxt) :
    (if (h.nodes (tid d t)).isLeaf then cut (order - 1) else cut order - 1)
      = minKeys order d := by
  rw [hr.root.2.2]
  cases d <;> rfl

/-- The capacity as `delete_entry` computes it from the node. -/
theorem Rep.capacity_eq {h : Heap} {d : Nat} {t : Tree d}
    {par : Option NodeId} {nxt : Ptr} (hr : Rep order h.nodes d t par nxt) :
    (if (h.nodes (tid d t)).isLeaf then order else order - 1)
      = capacity order d := by
  rw [hr.root.2.2]
  cases d <;> rfl

/-- An underflowing node that is not the first child deals with its left
sibling. -/
theorem afterRemoval_left {h : Heap} {d : Nat} {i : NodeId}
    {k₁ k₂ : List U64} {k : U64} {c₁ c₂ : List (Tree d)} {l n : Tree d}
    {par : Option NodeId} {nxt : Ptr} {O : List NodeId}
    (h₁ : k₁.length = c₁.length)
    (hr : Rep order h.nodes (d + 1)
      (⟨i, k₁ ++ k :: k₂, c₁ ++ l :: n :: c₂⟩ : Branch (Tree d)) par nxt)
    (o : Owns h (ids (d + 1)
      (⟨i, k₁ ++ k :: k₂, c₁ ++ l :: n :: c₂⟩ : Branch (Tree d)) ++ O))
    {root : NodeId} (hroot : tid d n ≠ root)
    (hmin : count d n < minKeys order d) (del : DeleteEntry) :
    afterRemoval order del h root (tid d n)
      = if count d l + count d n < capacity order d
        then coalesce order del h root (tid d l) (tid d n) k
        else borrowFromLeft h (tid d n) (tid d l) i k₁.length k
          >>= fun h => .ok (some root, h) := by
  obtain ⟨hn, hk⟩ := hr
  obtain ⟨-, hrl, hrn, -⟩ := kids_focus₂.mp hk
  have hn' : NodeRep order (h.nodes i) par (k₁ ++ k :: k₂)
      ((c₁ ++ [l]).map (tid d) ++ tid d n :: c₂.map (tid d)) := by
    simpa using hn
  have hnnot : tid d n ∉ (c₁ ++ [l]).map (tid d) := by
    rw [show c₁ ++ l :: n :: c₂ = (c₁ ++ [l]) ++ n :: c₂ by simp] at o
    exact tid_not_before o
  have hidx := getNeighborIndex_spec hrn.root.1 hn' hnnot
  rw [List.length_map, List.length_append, List.length_singleton,
    show ((c₁.length + 1 : Nat) : Int) - 1 = (c₁.length : Int) by omega] at hidx
  have hne : ¬ ((c₁.length : Int) = -1) := by omega
  obtain ⟨kr, hkeys, -⟩ := hn.keys
  obtain ⟨pr, hptrs, -⟩ := hn.pointers
  have hkey : (h.nodes i).keys[c₁.length]? = some k := by
    rw [show (h.nodes i).keys = _ from hkeys, List.append_assoc]
    exact getElem?_seam _ _ _ h₁.symm
  have hptr : (h.nodes i).pointers[c₁.length]? = some (.node (tid d l)) := by
    rw [show (h.nodes i).pointers = _ from hptrs, List.map_append,
      List.map_append, List.append_assoc]
    exact getElem?_seam _ _ _ (by simp)
  unfold afterRemoval
  simp only [if_neg hroot, hrn.minKeys_eq, hrn.capacity_eq, hrn.root.2.1,
    hrl.root.2.1, if_neg (Nat.not_le.mpr hmin), hidx, ok_bind, hne, if_false,
    Int.toNat_natCast, hrn.root.1, deref_some, hkey, hptr, chk_some,
    asNode_node, coalesceNodes, redistributeNodes, ne_eq,
    not_false_eq_true, if_true, h₁]
  rfl

/-- An underflowing first child deals with its right sibling. -/
theorem afterRemoval_right {h : Heap} {d : Nat} {i : NodeId}
    {k₂ : List U64} {k : U64} {c₂ : List (Tree d)} {l n : Tree d}
    {par : Option NodeId} {nxt : Ptr}
    (hr : Rep order h.nodes (d + 1)
      (⟨i, k :: k₂, l :: n :: c₂⟩ : Branch (Tree d)) par nxt)
    {root : NodeId} (hroot : tid d l ≠ root)
    (hmin : count d l < minKeys order d) (del : DeleteEntry) :
    afterRemoval order del h root (tid d l)
      = if count d n + count d l < capacity order d
        then coalesce order del h root (tid d l) (tid d n) k
        else borrowFromRight h (tid d l) (tid d n) i 0 k
          >>= fun h => .ok (some root, h) := by
  obtain ⟨hn, hk⟩ := hr
  obtain ⟨hrl, hrn, -⟩ := hk
  have hn' : NodeRep order (h.nodes i) par (k :: k₂)
      ([] ++ tid d l :: tid d n :: c₂.map (tid d)) := hn
  have hidx := getNeighborIndex_spec hrl.root.1 hn' (by simp)
  rw [List.length_nil, show ((0 : Nat) : Int) - 1 = -1 by omega] at hidx
  obtain ⟨kr, hkeys, -⟩ := hn.keys
  obtain ⟨pr, hptrs, -⟩ := hn.pointers
  have hkey : (h.nodes i).keys[0]? = some k := by
    rw [show (h.nodes i).keys = _ from hkeys]
    rfl
  have hptr : (h.nodes i).pointers[1]? = some (.node (tid d n)) := by
    rw [show (h.nodes i).pointers = _ from hptrs]
    rfl
  unfold afterRemoval
  simp only [if_neg hroot, hrl.minKeys_eq, hrl.capacity_eq, hrl.root.2.1,
    hrn.root.2.1, if_neg (Nat.not_le.mpr hmin), hidx, ok_bind, if_true,
    hrl.root.1, deref_some, hkey, hptr, chk_some,
    asNode_node, coalesceNodes, redistributeNodes, ne_eq, not_true_eq_false,
    if_false]
  rfl

/-- A node with enough entries left ends the deletion. -/
theorem afterRemoval_enough {h : Heap} {d : Nat} {n : Tree d}
    {par : Option NodeId} {nxt : Ptr} (hr : Rep order h.nodes d n par nxt)
    {root : NodeId} (hroot : tid d n ≠ root)
    (hmin : minKeys order d ≤ count d n) (del : DeleteEntry) :
    afterRemoval order del h root (tid d n) = .ok (some root, h) := by
  unfold afterRemoval
  simp only [if_neg hroot, hr.minKeys_eq, hr.root.2.1, if_pos hmin]

/-- A sibling that cannot be merged with has entries to spare. -/
theorem spare (horder : 3 ≤ order) {d a b : Nat}
    (hcap : ¬ a + b < capacity order d) (hmin : b < minKeys order d) :
    2 ≤ a ∧ b < order - 1 ∧ minKeys order d ≤ a - 1 := by
  cases d with
  | zero =>
      have hcap' : ¬ a + b < order := hcap
      have hmin' : b < cut (order - 1) := hmin
      show 2 ≤ a ∧ b < order - 1 ∧ cut (order - 1) ≤ a - 1
      have := cut_eq (order - 1)
      omega
  | succ d =>
      have hcap' : ¬ a + b < order - 1 := hcap
      have hmin' : b < cut order - 1 := hmin
      show 2 ≤ a ∧ b < order - 1 ∧ cut order - 1 ≤ a - 1
      have := cut_eq order
      omega

theorem release_nil (x : Except Fault (Option NodeId × Heap)) :
    x >>= release [] = x := by
  cases x <;> rfl

theorem release_release (ns ms : List NodeId)
    (x : Except Fault (Option NodeId × Heap)) :
    (x >>= release ns) >>= release ms = x >>= release (ns ++ ms) := by
  cases x with
  | error e => rfl
  | ok p =>
      show Except.ok (p.1, freeAll ms (freeAll ns p.2)) = Except.ok _
      rw [freeAll, freeAll, ← List.foldl_append]
      rfl

-- =========================================================== one level up

section Run

variable (order lm nm : Nat) (h : Heap) (root : NodeId) (key : U64) (r : RecId)

/-- The deletion is over, and the subtree's root kept its count. -/
def Settled (d : Nat) (t : Tree d) (par : Option NodeId) (nxt : Ptr)
    (O : List NodeId) (run : Except Fault (Option NodeId × Heap)) : Prop :=
  ∃ t' h', run = .ok (some root, h')
    ∧ Becomes order h h' d t t' par nxt [] O (Removes key r)
    ∧ FilledBelow lm nm d t' ∧ count d t' = count d t

/-- The deletion is about to look at the subtree's root, which lost at
most one entry. -/
def Waiting (fuel : Nat) (d : Nat) (t : Tree d) (par : Option NodeId)
    (nxt : Ptr) (O : List NodeId)
    (run : Except Fault (Option NodeId × Heap)) : Prop :=
  ∃ t' h' pend,
    run = (afterRemoval order (deleteEntry order fuel) h' root (tid d t')
      >>= release pend)
    ∧ Becomes order h h' d t t' par nxt pend O (Removes key r)
    ∧ FilledBelow lm nm d t' ∧ count d t ≤ count d t' + 1

end Run

variable {h : Heap} {root : NodeId} {key : U64} {r : RecId}

/-- Replacing one child keeps the others filled. -/
theorem filled_replace {d : Nat} {c₁ c₂ : List (Tree d)} {c c' : Tree d}
    (hf : ∀ b ∈ c₁ ++ c :: c₂, Filled lm nm d b) (hc : Filled lm nm d c') :
    ∀ b ∈ c₁ ++ c' :: c₂, Filled lm nm d b := by
  intro b hb
  simp only [List.mem_append, List.mem_cons] at hb
  rcases hb with hb | rfl | hb
  · exact hf b (List.mem_append_left _ hb)
  · exact hc
  · exact hf b (List.mem_append_right _ (List.mem_cons_of_mem _ hb))

/-- A deletion that settles in a child settles in its parent. -/
theorem Route.settled {d : Nat} {t : Branch (Tree d)}
    {k₁ k₂ : List U64} {c₁ : List (Tree d)} {c : Tree d}
    {c₂ : List (Tree d)} (hrt : Route key t k₁ k₂ c₁ c c₂)
    {par : Option NodeId} {nxt : Ptr} {O : List NodeId}
    (hr : Rep order h.nodes (d + 1) t par nxt)
    (hf : FilledBelow lm nm (d + 1) t)
    {run : Except Fault (Option NodeId × Heap)}
    (hc : Settled order lm nm h root key r d c (some t.id)
      (headPtr (firstLeaf d) nxt c₂)
      (t.id :: (c₁.flatMap (ids d) ++ c₂.flatMap (ids d)) ++ O) run) :
    Settled order lm nm h root key r (d + 1) t par nxt O run := by
  obtain ⟨c', h', hrun, hb, hfc, hcount⟩ := hc
  refine ⟨_, h', hrun, hrt.becomes hr hb, ?_, ?_⟩
  · have hf' : ∀ b ∈ c₁ ++ c :: c₂, Filled lm nm d b := by
      rw [← hrt.cs]
      exact hf
    refine filled_replace hf' (filled_iff.mpr ⟨?_, hfc⟩)
    rw [hcount]
    exact (filled_iff.mp (hf' c (by simp))).1
  · show (k₁ ++ k₂).length = t.ks.length
    rw [hrt.ks]

/-- The underflow of a child that is not the first. -/
theorem underflow_left (horder : 3 ≤ order)
    (hlow : ∀ d, least lm nm d ≤ minKeys order d) {h' : Heap} {d : Nat}
    {t : Branch (Tree d)} {i : NodeId} {k₁ k₂ : List U64} {k : U64}
    {c₁ c₂ : List (Tree d)} {l n : Tree d} {par : Option NodeId} {nxt : Ptr}
    {O pend : List NodeId} (h₁ : k₁.length = c₁.length)
    (h₂ : k₂.length = c₂.length)
    (hb : Becomes order h h' (d + 1) t
      (⟨i, k₁ ++ k :: k₂, c₁ ++ l :: n :: c₂⟩ : Branch (Tree d)) par nxt pend O
      (Removes key r))
    (hs : Sorted (flat (d + 1)
      (⟨i, k₁ ++ k :: k₂, c₁ ++ l :: n :: c₂⟩ : Branch (Tree d))))
    (hroot : tid d n ≠ root) (hmin : count d n < minKeys order d)
    (hfill : ∀ b ∈ c₁ ++ l :: c₂, Filled lm nm d b)
    (hfn : FilledBelow lm nm d n) (hcount : least lm nm d ≤ count d n + 1)
    (ht : count (d + 1) t = (k₁ ++ k :: k₂).length) (fuel : Nat) :
    Settled order lm nm h root key r (d + 1) t par nxt O
        (afterRemoval order (deleteEntry order (fuel + 1)) h' root (tid d n)
          >>= release pend)
      ∨ Waiting order lm nm h root key r fuel (d + 1) t par nxt O
        (afterRemoval order (deleteEntry order (fuel + 1)) h' root (tid d n)
          >>= release pend) := by
  have hl := hfill l (by simp)
  rw [afterRemoval_left h₁ hb.rep hb.owns hroot hmin]
  by_cases hcap : count d l + count d n < capacity order d
  · right
    obtain ⟨m, h₂', hrun, hmerge, hfm, hclm, -⟩ :=
      merge_children h₁ h₂ hb.rep hb.owns hs hcap fuel root
    refine ⟨_, h₂', _, ?_, hb.trans hmerge, ?_, ?_⟩
    · rw [if_pos hcap, hrun, release_release]
      rfl
    · refine filled_replace hfill (filled_iff.mpr ⟨?_, hfm lm nm hl.below hfn⟩)
      exact Nat.le_trans (filled_iff.mp hl).1 hclm
    · rw [ht]
      show (k₁ ++ k :: k₂).length ≤ (k₁ ++ k₂).length + 1
      simp only [List.length_append, List.length_cons]
      omega
  · left
    obtain ⟨hmany, hroom, hleft⟩ := spare horder hcap hmin
    obtain ⟨l', n', k', h₂', hrun, hbor, hfb, hcl, hcn⟩ :=
      borrow_left h₁ h₂ hb.rep hb.owns hmany hroom
    obtain ⟨hfl', hfn'⟩ := hfb lm nm hl.below hfn
    refine ⟨_, _, ?_, (hb.trans hbor).free, ?_, ?_⟩
    · rw [if_neg hcap, hrun]
      rfl
    · have hl' : Filled lm nm d l' := filled_iff.mpr
        ⟨Nat.le_trans (hlow d) (by omega), hfl'⟩
      have hn' : Filled lm nm d n' := filled_iff.mpr ⟨by omega, hfn'⟩
      intro b hb
      simp only [List.mem_append, List.mem_cons] at hb
      rcases hb with hb | rfl | rfl | hb
      · exact hfill b (by simp [hb])
      · exact hl'
      · exact hn'
      · exact hfill b (by simp [hb])
    · rw [ht]
      show (k₁ ++ k' :: k₂).length = (k₁ ++ k :: k₂).length
      simp

/-- The underflow of the first child. -/
theorem underflow_right (horder : 3 ≤ order)
    (hlow : ∀ d, least lm nm d ≤ minKeys order d) {h' : Heap} {d : Nat}
    {t : Branch (Tree d)} {i : NodeId} {k₂ : List U64} {k : U64}
    {c₂ : List (Tree d)} {l n : Tree d} {par : Option NodeId} {nxt : Ptr}
    {O pend : List NodeId} (h₂ : k₂.length = c₂.length)
    (hb : Becomes order h h' (d + 1) t
      (⟨i, k :: k₂, l :: n :: c₂⟩ : Branch (Tree d)) par nxt pend O
      (Removes key r))
    (hs : Sorted (flat (d + 1)
      (⟨i, k :: k₂, l :: n :: c₂⟩ : Branch (Tree d))))
    (hroot : tid d l ≠ root) (hmin : count d l < minKeys order d)
    (hfill : ∀ b ∈ n :: c₂, Filled lm nm d b)
    (hfl : FilledBelow lm nm d l) (hcount : least lm nm d ≤ count d l + 1)
    (ht : count (d + 1) t = (k :: k₂).length) (fuel : Nat) :
    Settled order lm nm h root key r (d + 1) t par nxt O
        (afterRemoval order (deleteEntry order (fuel + 1)) h' root (tid d l)
          >>= release pend)
      ∨ Waiting order lm nm h root key r fuel (d + 1) t par nxt O
        (afterRemoval order (deleteEntry order (fuel + 1)) h' root (tid d l)
          >>= release pend) := by
  have hn := hfill n (by simp)
  rw [afterRemoval_right hb.rep hroot hmin]
  by_cases hcap : count d n + count d l < capacity order d
  · right
    obtain ⟨m, h₂', hrun, hmerge, hfm, -, hcnm⟩ :=
      @merge_children order h' d i [] k₂ k [] c₂ l n par nxt (pend ++ O) rfl
        h₂ hb.rep hb.owns hs (by omega) fuel root
    refine ⟨_, h₂', _, ?_, hb.trans hmerge, ?_, ?_⟩
    · rw [if_pos hcap, hrun, release_release]
      rfl
    · have hm : Filled lm nm d m := filled_iff.mpr
        ⟨Nat.le_trans (filled_iff.mp hn).1 hcnm, hfm lm nm hfl hn.below⟩
      exact @filled_replace lm nm d [] c₂ n m hfill hm
    · rw [ht]
      exact Nat.le_refl _
  · left
    obtain ⟨hmany, hroom, hright⟩ := spare horder hcap hmin
    obtain ⟨l', n', k', h₂', hrun, hbor, hfb, hcl, hcn⟩ :=
      @borrow_right order h' d i [] k₂ k [] c₂ l n par nxt (pend ++ O) rfl
        h₂ hb.rep hb.owns hmany hroom
    obtain ⟨hfl', hfn'⟩ := hfb lm nm hfl hn.below
    refine ⟨_, _, ?_, (hb.trans hbor).free, ?_, ?_⟩
    · rw [List.length_nil] at hrun
      rw [if_neg hcap, hrun]
      rfl
    · have hn' : Filled lm nm d n' := filled_iff.mpr
        ⟨Nat.le_trans (hlow d) (by omega), hfn'⟩
      have hl' : Filled lm nm d l' := filled_iff.mpr ⟨by omega, hfl'⟩
      intro b hb
      simp only [List.nil_append, List.mem_cons] at hb
      rcases hb with rfl | rfl | hb
      · exact hl'
      · exact hn'
      · exact hfill b (by simp [hb])
    · rw [ht]
      rfl

/-- One round of `delete_entry`, from a child to its parent. -/
theorem Route.waiting (horder : 3 ≤ order)
    (hlow : ∀ d, least lm nm d ≤ minKeys order d) {d : Nat}
    {t : Branch (Tree d)} {k₁ k₂ : List U64} {c₁ : List (Tree d)}
    {c : Tree d} {c₂ : List (Tree d)} (hrt : Route key t k₁ k₂ c₁ c c₂)
    {par : Option NodeId} {nxt : Ptr} {O : List NodeId}
    (hr : Rep order h.nodes (d + 1) t par nxt)
    (hf : FilledBelow lm nm (d + 1) t) (hs : Sorted (flat (d + 1) t))
    (hpos : 1 ≤ count (d + 1) t)
    (hroot : ∀ x ∈ (ids (d + 1) t).tail, x ≠ root) {fuel : Nat}
    {run : Except Fault (Option NodeId × Heap)}
    (hc : Waiting order lm nm h root key r (fuel + 1) d c (some t.id)
      (headPtr (firstLeaf d) nxt c₂)
      (t.id :: (c₁.flatMap (ids d) ++ c₂.flatMap (ids d)) ++ O) run) :
    Settled order lm nm h root key r (d + 1) t par nxt O run
      ∨ Waiting order lm nm h root key r fuel (d + 1) t par nxt O run := by
  obtain ⟨c', h', pend, rfl, hb, hfc, hcount⟩ := hc
  have hbt := hrt.becomes hr hb
  have hs' : Sorted (flat (d + 1)
      (⟨t.id, k₁ ++ k₂, c₁ ++ c' :: c₂⟩ : Branch (Tree d))) := by
    simpa using hbt.edit.2 [] [] (by simpa using hs)
  have hf' : ∀ b ∈ c₁ ++ c :: c₂, Filled lm nm d b := by
    rw [← hrt.cs]
    exact hf
  have hne : tid d c' ≠ root := by
    rw [hb.tid]
    refine hroot _ ?_
    show tid d c ∈ t.cs.flatMap (ids d)
    rw [hrt.cs]
    exact List.mem_flatMap.mpr ⟨c, by simp, tid_mem_ids d c⟩
  have hlc : least lm nm d ≤ count d c' + 1 :=
    Nat.le_trans (filled_iff.mp (hf' c (by simp))).1 hcount
  have htc : count (d + 1) t = (k₁ ++ k₂).length := by
    show t.ks.length = _
    rw [hrt.ks]
  by_cases hmin : minKeys order d ≤ count d c'
  · left
    refine ⟨_, _, ?_, hbt.free, ?_, htc.symm⟩
    · rw [afterRemoval_enough hb.rep hne hmin]
      rfl
    · exact filled_replace hf'
        (filled_iff.mpr ⟨Nat.le_trans (hlow d) hmin, hfc⟩)
  · have hmin' := Nat.lt_of_not_le hmin
    have hl₁ := hrt.left
    have hl₂ := hrt.right
    -- the left sibling if there is one, the right one otherwise
    rcases List.eq_nil_or_concat c₁ with rfl | ⟨c₁', l, rfl⟩
    · rw [List.length_eq_zero_iff.mp hl₁] at hbt hs' htc
      rw [List.nil_append] at htc hbt hs'
      obtain ⟨k, k₂', rfl, hk₂⟩ := exists_cons_of_length (l := k₂)
        (n := k₂.length - 1) (by omega)
      rw [List.length_cons] at hl₂
      obtain ⟨n, c₂', rfl, hc₂⟩ := exists_cons_of_length hl₂.symm
      exact underflow_right horder hlow hc₂.symm hbt hs' hne hmin'
        (fun b hb => hf' b (by simp at hb ⊢; tauto)) hfc hlc htc fuel
    · rw [List.concat_eq_append] at hl₁ hbt hs' hf'
      rw [List.length_append, List.length_singleton] at hl₁
      obtain ⟨k₁', k, rfl, hk₁⟩ := exists_concat_of_length hl₁
      rw [List.append_assoc, List.singleton_append] at hbt hs' htc
      rw [List.append_assoc, List.singleton_append] at hbt hs'
      refine underflow_left horder hlow hk₁ hl₂ hbt hs' hne hmin'
        (fun b hb => hf' b (by simp at hb ⊢; tauto)) hfc hlc htc fuel

-- ============================================================== the run

/-- `delete_entry` on the leaf removes the pair, and then the leaf is big
enough, or the climb goes on from it. -/
theorem deleteEntry_leaf {t : Leaf} {par : Option NodeId} {nxt : Ptr}
    {O : List NodeId} (hr : Rep order h.nodes 0 t par nxt)
    (o : Owns h (ids 0 t ++ O)) (hs : Sorted (flat 0 t))
    (hrecs : (recsOf 0 t).Nodup) (hmem : (key, r) ∈ ents (flat 0 t))
    (fuel : Nat) :
    Waiting order lm nm h root key r fuel 0 t par nxt O
      (deleteEntry order (fuel + 1) h root t.id key (.record r)) := by
  obtain ⟨i, es⟩ := t
  have hmem' : (key, r) ∈ es := by simpa [flat] using hmem
  obtain ⟨a, b, rfl⟩ := List.append_of_mem hmem'
  have hpw : (a ++ (key, r) :: b).Pairwise fun x y => x.1 < y.1 := by
    simpa [flat] using ents_pairwise hs
  have hnd : (a.map Prod.snd ++ r :: b.map Prod.snd).Nodup := by
    simpa [recsOf, flat] using hrecs
  have hkey : ∀ e ∈ a, e.1 ≠ key := fun e he =>
    ne_of_lt ((List.pairwise_append.mp hpw).2.2 e he (key, r) (by simp))
  have hrec : ∀ e ∈ a, e.2 ≠ r := fun e he =>
    (List.nodup_append.mp hnd).2.2 e.2 (List.mem_map_of_mem he) r (by simp)
  have hiO : i ∉ O := (List.nodup_cons.mp o.nodup).1
  obtain ⟨nd, hrun, hnd'⟩ := removeEntry_leaf (n := i) hr hkey hrec
  refine ⟨(⟨i, a ++ b⟩ : Leaf), h.setNode i nd, [], ?_, ⟨?_, rfl, rfl,
    o.setNode (List.mem_cons_self ..) nd, agree_setNode h nd hiO,
    sameRecs_setNode .., ?_⟩, trivial, ?_⟩
  · rw [deleteEntry, show removeEntryFromNode order h (Leaf.id
      ⟨i, a ++ (key, r) :: b⟩) key (.record r) = _ from hrun, ok_bind]
    exact (release_nil _).symm
  · show LeafRep order ((h.setNode i nd).nodes i) par (a ++ b) nxt
    rw [setNode_self]
    exact hnd'
  · show Removes key r (toks (a ++ (key, r) :: b)) (toks (a ++ b))
    simpa using removes_ent (toks a) key r (toks b)
  · show (a ++ (key, r) :: b).length ≤ (a ++ b).length + 1
    simp only [List.length_append, List.length_cons]
    omega

/-- The whole run of `delete_entry` below a subtree. -/
theorem deleteEntry_run (horder : 3 ≤ order)
    (hlow : ∀ d, least lm nm d ≤ minKeys order d) (hnm : 1 ≤ nm)
    (extra : Nat) :
    ∀ {d : Nat} {t : Tree d} {par : Option NodeId} {nxt : Ptr}
      {O : List NodeId} (fuel : Nat),
      Rep order h.nodes d t par nxt → Owns h (ids d t ++ O) →
      FilledBelow lm nm d t → 1 ≤ count d t → Sorted (flat d t) →
      (recsOf d t).Nodup → (key, r) ∈ ents (flat d t) →
      (∀ x ∈ (ids d t).tail, x ≠ root) →
      ∃ leaf, findLeafFrom h key (d + 1 + extra) (tid d t) = .ok leaf
        ∧ (Settled order lm nm h root key r d t par nxt O
              (deleteEntry order (fuel + d + 1) h root leaf key (.record r))
          ∨ Waiting order lm nm h root key r fuel d t par nxt O
              (deleteEntry order (fuel + d + 1) h root leaf key (.record r))) := by
  intro d
  induction d with
  | zero =>
      intro t par nxt O fuel hr o _ _ hs hrecs hmem _
      refine ⟨Leaf.id t, ?_, Or.inr (deleteEntry_leaf hr o hs hrecs hmem fuel)⟩
      rw [show 0 + 1 + extra = extra + 1 by omega, findLeafFrom]
      exact if_pos hr.isLeaf
  | succ d ih =>
      intro t par nxt O fuel hr o hf hpos hs hrecs hmem hroot
      obtain ⟨k₁, k₂, c₁, c, c₂, hrt, hstep⟩ := route_step hr key
      have hk := hr.2
      rw [hrt.cs] at hk
      obtain ⟨-, hc, -⟩ := kids_focus.mp hk
      have hcf : Filled lm nm d c := hf c (by rw [hrt.cs]; simp)
      have hrecs' : (recsOf d c).Nodup := by
        unfold recsOf at hrecs ⊢
        rw [hrt.flat_eq] at hrecs
        simp only [ents_append, List.map_append] at hrecs
        exact (List.nodup_append.mp (List.nodup_append.mp hrecs).2.1).1
      have hmem' := (hrt.mem_ents hs r).mp hmem
      have hcount : 1 ≤ count d c := by
        cases d with
        | zero =>
            have : (key, r) ∈ Leaf.es c := by simpa [flat] using hmem'
            exact List.length_pos_of_mem this
        | succ d => exact Nat.le_trans hnm hcf.1
      have hroot' : ∀ x ∈ (ids d c).tail, x ≠ root := by
        intro x hx
        refine hroot x ?_
        show x ∈ t.cs.flatMap (ids d)
        rw [hrt.cs]
        refine List.mem_flatMap.mpr ⟨c, by simp, ?_⟩
        rw [ids_eq_cons]
        exact List.mem_cons_of_mem _ hx
      obtain ⟨leaf, hleaf, hout⟩ := ih (fuel + 1) hc (o.perm (hrt.ids_perm O))
        hcf.below hcount (hrt.sorted hs) hrecs' hmem' hroot'
      rw [show fuel + 1 + d + 1 = fuel + (d + 1) + 1 by omega] at hout
      refine ⟨leaf, ?_, ?_⟩
      · rw [show d + 1 + 1 + extra = (d + 1 + extra) + 1 by omega, ← hleaf]
        exact hstep _
      · rcases hout with hout | hout
        · exact Or.inl (hrt.settled hr hf hout)
        · exact hrt.waiting horder hlow hr hf hs hpos hroot hout

/-- A root leaf that ran empty is freed, and with it the tree. -/
theorem adjustRoot_leaf {h' : Heap} {i : NodeId} {pend : List NodeId}
    (hr : LeafRep order (h'.nodes i) none [] .null)
    (o : Owns h' (i :: (pend ++ []))) :
    ∃ h₂, SameRecs h' h₂ ∧ adjustRoot h' i >>= release pend = .ok (none, h₂)
      ∧ Owns h₂ [] := by
  obtain ⟨o₁, -, hs₁⟩ := freeNode_spec o
  obtain ⟨o₂, -, hs₂⟩ := freeAll_spec o₁
  refine ⟨_, hs₁.trans hs₂, ?_, o₂⟩
  unfold adjustRoot
  rw [hr.numKeys, hr.isLeaf]
  rfl

/-- An internal root without keys is freed, and its only child becomes
the root. -/
theorem adjustRoot_child {h' : Heap} {d : Nat} {i : NodeId} {c : Tree d}
    {pend : List NodeId}
    (hr : Rep order h'.nodes (d + 1) (⟨i, [], [c]⟩ : Branch (Tree d)) none .null)
    (o : Owns h' (i :: (ids d c ++ (pend ++ [])))) :
    ∃ h₂, SameRecs h' h₂
      ∧ adjustRoot h' i >>= release pend = .ok (some (tid d c), h₂)
      ∧ Rep order h₂.nodes d c none .null ∧ Owns h₂ (ids d c) := by
  obtain ⟨hn, hk⟩ := hr
  obtain ⟨pr, hptrs, -⟩ := hn.pointers
  have hptr : (h'.nodes i).pointers[0]? = some (.node (tid d c)) := by
    rw [show (h'.nodes i).pointers = _ from hptrs]
    rfl
  have o₁ : Owns (h'.setParent (tid d c) none)
      (i :: (ids d c ++ (pend ++ []))) := o.setParent (by simp [tid_mem_ids]) _
  obtain ⟨o₂, ha₂, hs₂⟩ := freeNode_spec o₁
  have hndc := (List.nodup_append.mp o₂.nodup).1
  rw [ids_eq_cons] at hndc
  have hrc : Rep order (h'.setParent (tid d c) none).nodes d c none .null :=
    hk.1.reparent (setParent_self ..) fun x hx =>
      setParent_other _ _ fun he => (List.nodup_cons.mp hndc).1 (he ▸ hx)
  have hb : Becomes order (freeNode (h'.setParent (tid d c) none) i)
      (freeNode (h'.setParent (tid d c) none) i) d c c none .null pend []
      Refines :=
    ⟨hrc.frame fun x hx => ha₂ x (List.mem_append_left _ hx), rfl, rfl, o₂,
      Agree.refl _ _, SameRecs.refl _, Refines.refl _⟩
  refine ⟨_, ((sameRecs_setParent ..).trans hs₂).trans hb.free.recs, ?_,
    hb.free.rep, by simpa using hb.free.owns⟩
  have hif : ((h'.nodes i).isLeaf = true) = False := by
    simp [show (h'.nodes i).isLeaf = false from hn.isLeaf]
  have hnum : (h'.nodes i).numKeys = 0 := hn.numKeys
  unfold adjustRoot
  simp only [hnum, Nat.lt_irrefl, if_false, hif, hptr, chk_some, ok_bind,
    asNode_node]
  rfl

/-- `adjust_root` and the frees that follow it: the tree keeps its root,
or loses its top level, or is gone. -/
theorem adjustRoot_spec (hlm : 1 ≤ lm) (hnm : 1 ≤ nm) {h' : Heap} {d : Nat}
    {t' : Tree d} {pend : List NodeId} (hr : Rep order h'.nodes d t' none .null)
    (o : Owns h' (ids d t' ++ (pend ++ [])))
    (hs : Sorted (flat d t')) (hf : FilledBelow lm nm d t') :
    ∃ h₂, SameRecs h' h₂
      ∧ ((adjustRoot h' (tid d t') >>= release pend = .ok (none, h₂)
          ∧ Owns h₂ [] ∧ ents (flat d t') = [])
        ∨ ∃ d₂, ∃ t₂ : Tree d₂,
            adjustRoot h' (tid d t') >>= release pend
              = .ok (some (tid d₂ t₂), h₂)
            ∧ Holds order lm nm h₂ d₂ t₂ ∧ flat d₂ t₂ = flat d t') := by
  by_cases hpos : 0 < count d t'
  · -- the root keeps an entry
    have hb : Becomes order h' h' d t' t' none .null pend [] Refines :=
      ⟨hr, rfl, rfl, o, Agree.refl _ _, SameRecs.refl _, Refines.refl _⟩
    refine ⟨freeAll pend h', hb.free.recs, Or.inr ⟨d, t', ?_,
      ⟨hb.free.rep, by simpa using hb.free.owns, hs, hf, hpos⟩, rfl⟩⟩
    rw [adjustRoot, hr.root.2.1, if_pos hpos]
    rfl
  · have hzero := Nat.eq_zero_of_not_pos hpos
    cases d with
    | zero =>
        obtain ⟨i, es⟩ := t'
        have hes : es = [] := List.length_eq_zero_iff.mp hzero
        subst hes
        obtain ⟨h₂, hs₂, hrun, o₂⟩ := adjustRoot_leaf (i := i) hr o
        exact ⟨h₂, hs₂, Or.inl ⟨hrun, o₂, rfl⟩⟩
    | succ d =>
        obtain ⟨i, ks, cs⟩ := t'
        have hks : ks = [] := List.length_eq_zero_iff.mp hzero
        have hfan : cs.length = ks.length + 1 := by simpa using hr.1.fan
        subst hks
        obtain ⟨c, rfl⟩ := List.length_eq_one_iff.mp hfan
        have hfc : Filled lm nm d c := hf c (by simp)
        have hcount : 1 ≤ count d c := by
          refine Nat.le_trans ?_ (filled_iff.mp hfc).1
          cases d with
          | zero => exact hlm
          | succ d => exact hnm
        obtain ⟨h₂, hs₂, hrun, hrep, o₂⟩ :=
          adjustRoot_child hr (by simpa [ids] using o)
        refine ⟨h₂, hs₂, Or.inr ⟨d, c, hrun,
          ⟨hrep, o₂, ?_, hfc.below, hcount⟩, ?_⟩⟩
        · simpa [flat, weave] using hs
        · simp [flat]

/-- `delete_entry` on the whole tree. -/
theorem deleteEntry_top (horder : 3 ≤ order)
    (hlow : ∀ d, least lm nm d ≤ minKeys order d) (hlm : 1 ≤ lm)
    (hnm : 1 ≤ nm) {d : Nat} {t : Tree d} (ht : Holds order lm nm h d t)
    (hrecs : (recsOf d t).Nodup) (hmem : (key, r) ∈ ents (flat d t)) :
    ∃ leaf h', findLeaf h (tid d t) key = .ok leaf ∧ SameRecs h h'
      ∧ ((deleteEntry order (h.carvedNodes + 1) h (tid d t) leaf key (.record r)
            = .ok (none, h')
          ∧ Owns h' [] ∧ ents (flat d t) = [(key, r)])
        ∨ ∃ d', ∃ t' : Tree d',
            deleteEntry order (h.carvedNodes + 1) h (tid d t) leaf key
              (.record r) = .ok (some (tid d' t'), h')
            ∧ Holds order lm nm h' d' t'
            ∧ ∃ x y, ents (flat d t) = x ++ (key, r) :: y
                ∧ ents (flat d' t') = x ++ y) := by
  have hdepth := ht.rep.depth_lt
  have hlen := ht.owns.length_le
  have o : Owns h (ids d t ++ []) := by simpa using ht.owns
  have hroot : ∀ x ∈ (ids d t).tail, x ≠ tid d t := by
    have hnd := ht.owns.nodup
    rw [ids_eq_cons] at hnd
    exact fun x hx he => (List.nodup_cons.mp hnd).1 (he ▸ hx)
  obtain ⟨leaf, hleaf, hout⟩ := deleteEntry_run horder hlow hnm
    (h.carvedNodes - d) (h.carvedNodes - d) ht.rep o ht.filled ht.count
    ht.sorted hrecs hmem hroot
  rw [show d + 1 + (h.carvedNodes - d) = h.carvedNodes + 1 by omega] at hleaf
  rw [show h.carvedNodes - d + d + 1 = h.carvedNodes + 1 by omega] at hout
  have hsort : ∀ {y}, Removes key r (flat d t) y → Sorted y := by
    intro y hrm
    simpa using hrm.2 [] [] (by simpa using ht.sorted)
  rcases hout with ⟨t', h', hrun, hb, hf, hc⟩ | ⟨t', h', pend, hrun, hb, hf, -⟩
  · refine ⟨leaf, h', hleaf, hb.recs, Or.inr ⟨d, t', ?_, ⟨hb.rep, ?_,
      hsort hb.edit, hf, ?_⟩, hb.edit.1⟩⟩
    · rw [hrun, hb.tid]
    · simpa using hb.owns
    · rw [hc]
      exact ht.count
  · rw [hb.tid, afterRemoval, if_pos rfl] at hrun
    obtain ⟨h₂, hs₂, hcase⟩ := adjustRoot_spec hlm hnm hb.rep hb.owns
      (hsort hb.edit) hf
    rw [hb.tid] at hcase
    obtain ⟨x, y, hx, hy⟩ := hb.edit.1
    refine ⟨leaf, h₂, hleaf, hb.recs.trans hs₂, ?_⟩
    rcases hcase with ⟨hadj, o₂, hnil⟩ | ⟨d₂, t₂, hadj, hholds, hflat⟩
    · left
      rw [hnil] at hy
      obtain ⟨rfl, rfl⟩ := List.append_eq_nil_iff.mp hy.symm
      exact ⟨hrun.trans hadj, o₂, hx⟩
    · right
      exact ⟨d₂, t₂, hrun.trans hadj, hholds, x, y, hx, by rw [hflat, hy]⟩

end ThesisBench.Btree

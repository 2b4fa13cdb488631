/-
Insertion on represented trees.

# The induction

The C code descends to a leaf, writes there, and climbs back along
parent links. The proof descends only: for a subtree `t` of the tree
being changed, the whole run that starts at the leaf below `t` either
ends inside `t` (`Grown`: the run is over and `t` became another tree of
the same depth at the same address), or has reached the point where it
calls `insert_into_parent` on `t`'s root with a new right sibling
(`Parted`). The step from a child to its parent runs exactly one round
of `insert_into_parent`.

Everything outside `t` is the list `O` of addresses it does not touch.
-/
import ThesisBench.Btree.Proofs.InsertNodes
import ThesisBench.Btree.Proofs.Lookup

namespace ThesisBench.Btree

open CArray SepList

variable {order lm nm : Nat}

-- ========================================================== the context

/-- An edit of the routed child that adds the key is one of the whole
node. -/
theorem Route.inserts {key : U64} {d : Nat} {t : Branch (Tree d)}
    {k₁ k₂ : List U64} {c₁ : List (Tree d)} {c : Tree d} {c₂ : List (Tree d)}
    (hrt : Route key t k₁ k₂ c₁ c c₂) {r : RecId} {y : List (Tok U64 RecId)}
    (hi : Inserts key r (flat d c) y) :
    Inserts key r (flat (d + 1) t) (weaveL k₁ (c₁.map (flat d))
      ++ (y ++ weaveR k₂ (c₂.map (flat d)))) := by
  rw [hrt.flat_eq]
  exact hi.frame _ _ fun A B hs hf =>
    Fits.route _ _ (by rw [List.length_map]; exact hrt.left)
      (by rw [List.length_map]; exact hrt.right) hrt.le hrt.lt _ A B hs hf

-- ========================================================= first leaves

/-- The leftmost leaf depends on the first child only. -/
theorem firstLeaf_congr {d : Nat} {i j : NodeId} {ks ls : List U64}
    {cs ds : List (Tree d)}
    (h : cs.head?.map (firstLeaf d) = ds.head?.map (firstLeaf d))
    (hne : cs ≠ []) :
    firstLeaf (d + 1) (⟨i, ks, cs⟩ : Branch (Tree d))
      = firstLeaf (d + 1) (⟨j, ls, ds⟩ : Branch (Tree d)) := by
  match cs, ds with
  | [], _ => exact absurd rfl hne
  | _ :: _, [] => simp at h
  | c :: _, e :: _ =>
      show firstLeaf d c = firstLeaf d e
      simpa using h

/-- Exchanging a child for one with the same first leaf does not change
where the row begins. -/
theorem head?_firstLeaf_focus {d : Nat} {c₁ : List (Tree d)} {b c : Tree d}
    {x y : List (Tree d)} (h : firstLeaf d b = firstLeaf d c) :
    (c₁ ++ b :: x).head?.map (firstLeaf d)
      = (c₁ ++ c :: y).head?.map (firstLeaf d) := by
  cases c₁ with
  | nil => simp [h]
  | cons => rfl

/-- A node's first leaf is that of its children. -/
theorem headPtr_eq_firstLeaf {d : Nat} {cs : List (Tree d)} {p : Ptr}
    (hne : cs ≠ []) (i : NodeId) (ks : List U64) :
    headPtr (firstLeaf d) p cs
      = .node (firstLeaf (d + 1) (⟨i, ks, cs⟩ : Branch (Tree d))) := by
  match cs, hne with
  | _ :: _, _ => rfl

-- ============================================================ reparenting

/-- Moving a list of subtrees under another parent. -/
theorem Kids.reparent {d : Nat} {m m' : NodeId → Node} {par p : Option NodeId}
    {nxt : Ptr} : ∀ {cs : List (Tree d)},
    Kids (fun c n => Rep order m d c par n) (firstLeaf d) nxt cs →
    (cs.flatMap (ids d)).Nodup →
    (∀ x ∈ cs.flatMap (ids d), m' x = if x ∈ cs.map (tid d)
      then { m x with parent := p } else m x) →
    Kids (fun c n => Rep order m' d c p n) (firstLeaf d) nxt cs := by
  intro cs
  induction cs with
  | nil => exact fun _ _ _ => trivial
  | cons c cs ih =>
      intro hk hnd hm
      rw [List.flatMap_cons] at hnd hm
      obtain ⟨hndc, hnds, hdisj⟩ := List.nodup_append.mp hnd
      refine ⟨hk.1.reparent ?_ ?_, ih hk.2 hnds ?_⟩
      · rw [hm _ (List.mem_append_left _ (tid_mem_ids d c)),
          if_pos (by rw [List.map_cons]; exact List.mem_cons_self ..)]
      · intro i hi
        have hi' : i ∈ ids d c := by
          rw [ids_eq_cons]
          exact List.mem_cons_of_mem _ hi
        rw [hm i (List.mem_append_left _ hi'), if_neg]
        intro hmem
        rcases List.mem_cons.mp hmem with he | hmem
        · rw [ids_eq_cons, ← he] at hndc
          exact (List.nodup_cons.mp hndc).1 hi
        · exact hdisj i hi' i (mem_ids_of_mem_tids hmem) rfl
      · intro x hx
        rw [hm x (List.mem_append_right _ hx)]
        have hne : x ≠ tid d c := fun he =>
          hdisj _ (tid_mem_ids d c) x hx he.symm
        simp [hne]

/-- Unmoved subtrees under an unmoved parent. -/
theorem Kids.frame {d : Nat} {m m' : NodeId → Node} {par : Option NodeId}
    {nxt : Ptr} {cs : List (Tree d)}
    (hk : Kids (fun c n => Rep order m d c par n) (firstLeaf d) nxt cs)
    (hm : ∀ x ∈ cs.flatMap (ids d), m' x = m x) :
    Kids (fun c n => Rep order m' d c par n) (firstLeaf d) nxt cs :=
  hk.imp fun c hc _ hR => hR.frame fun i hi =>
    hm i (List.mem_flatMap.mpr ⟨c, hc, hi⟩)

-- ========================================================== the outcomes

/-- The run ended inside the subtree. -/
structure Grown (order lm nm : Nat) (h h' : Heap) (d : Nat) (t t' : Tree d)
    (par : Option NodeId) (nxt : Ptr) (O : List NodeId) (key : U64)
    (r : RecId) : Prop where
  rep : Rep order h'.nodes d t' par nxt
  tid : tid d t' = tid d t
  first : firstLeaf d t' = firstLeaf d t
  owns : Owns h' (ids d t' ++ O)
  agree : Agree h h' O
  recs : SameRecs h h'
  inserts : Inserts key r (flat d t) (flat d t')
  filled : FilledBelow lm nm d t'
  count : count d t ≤ count d t'

/-- The subtree was split: `l` stays, `n` waits to be linked under
`k`. -/
structure Parted (order lm nm : Nat) (h h' : Heap) (d : Nat)
    (t l n : Tree d) (k : U64) (par : Option NodeId) (nxt : Ptr) (O : List NodeId) (key : U64)
    (r : RecId) : Prop where
  repl : Rep order h'.nodes d l par (.node (firstLeaf d n))
  repn : Rep order h'.nodes d n par nxt
  tid : tid d l = tid d t
  first : firstLeaf d l = firstLeaf d t
  owns : Owns h' (ids d l ++ (ids d n ++ O))
  agree : Agree h h' O
  recs : SameRecs h h'
  inserts : Inserts key r (flat d t) (flat d l ++ .sep k :: flat d n)
  filledl : Filled lm nm d l
  filledn : Filled lm nm d n

/-- What `insert` does once it has a leaf and a record. -/
def insertAtLeaf (order : Nat) (climb : Climb) (h : Heap) (root leaf : NodeId)
    (key : U64) (r : RecId) : Except Fault (NodeId × Heap) :=
  if (h.nodes leaf).numKeys < order - 1 then do
    let h ← insertIntoLeaf h leaf key r
    .ok (root, h)
  else insertIntoLeafAfterSplitting order climb h root leaf key r

/-- Inserting a pair in order is inserting one token. -/
theorem inserts_insertEntry (es : List (U64 × RecId)) (key : U64)
    (r : RecId) (hsorted : es.Pairwise fun a b => a.1 < b.1) :
    Inserts key r (toks es) (toks (insertEntry es key r)) := by
  have hes : es = es.takeWhile (below key) ++ es.dropWhile (below key) :=
    List.takeWhile_append_dropWhile.symm
  have h := inserts_leaf (es.takeWhile (below key)) (es.dropWhile (below key))
    key r ?_ ?_
  · rw [← hes] at h
    exact h
  · intro e he
    simpa [below] using List.mem_takeWhile_imp he
  · -- the keys after the first one not below are larger still
    intro e he
    rw [hes] at hsorted
    have hpw := (List.pairwise_append.mp hsorted).2.1
    have hnot := List.head?_dropWhile_not (below key) es
    match hd : es.dropWhile (below key) with
    | [] => rw [hd] at he; cases he
    | x :: xs =>
        rw [hd] at he hpw hnot
        have hx : ¬ x.1 < key := by simpa [below] using hnot
        rcases List.mem_cons.mp he with rfl | he
        · exact hx
        · have := (List.pairwise_cons.mp hpw).1 e he
          exact fun hlt => hx (lt_trans this hlt)

-- ============================================================ the leaf

/-- Insertion at a leaf: in place, or by a split. -/
theorem insertAtLeaf_leaf (horder : 3 ≤ order) (hlm : lm ≤ cut (order - 1))
    {h : Heap} {t : Leaf} {par : Option NodeId} {nxt : Ptr} {O : List NodeId}
    (hr : Rep order h.nodes 0 t par nxt) (o : Owns h (ids 0 t ++ O))
    (hsorted : Sorted (flat 0 t)) (climb : Climb) (root : NodeId) (key : U64)
    (r : RecId) :
    (∃ t' h', insertAtLeaf order climb h root t.id key r = .ok (root, h')
        ∧ Grown order lm nm h h' 0 t t' par nxt O key r)
      ∨ ∃ l k n h', insertAtLeaf order climb h root t.id key r
            = climb h' root (tid 0 l) k (tid 0 n)
          ∧ Parted order lm nm h h' 0 t l n k par nxt O key r := by
  obtain ⟨i, es⟩ := t
  have hpw : es.Pairwise fun a b => a.1 < b.1 := by
    have := ents_pairwise hsorted
    rwa [show flat 0 (⟨i, es⟩ : Leaf) = toks es from rfl, ents_toks] at this
  have hins := inserts_insertEntry es key r hpw
  have hiO : i ∉ O := (List.nodup_cons.mp o.nodup).1
  have hr' : LeafRep order (h.nodes i) par es nxt := hr
  unfold insertAtLeaf
  rw [show (h.nodes (Leaf.id ⟨i, es⟩)).numKeys = es.length from hr'.numKeys]
  by_cases hroom : es.length < order - 1
  · left
    obtain ⟨nd, hrun, hnd⟩ := insertIntoLeaf_spec hr' hroom key r
    refine ⟨(⟨i, insertEntry es key r⟩ : Leaf), h.setNode i nd, ?_, ?_⟩
    · rw [if_pos hroom, hrun, ok_bind]
    · refine ⟨?_, rfl, rfl, o.setNode (List.mem_cons_self ..) _,
        agree_setNode h _ hiO, sameRecs_setNode .., hins, trivial, ?_⟩
      · show LeafRep order ((h.setNode i nd).nodes i) par _ nxt
        rw [setNode_self]
        exact hnd
      · show es.length ≤ (insertEntry es key r).length
        rw [insertEntry_length]
        omega
  · right
    have hle : es.length ≤ order - 1 := hr.count_le
    obtain ⟨new, h', L, R, k, hrun, hLR, hL, hk, hl, hn, o', ha, hs⟩ :=
      insertIntoLeafAfterSplitting_spec horder hr' (by omega) o climb root key r
    have hcut := cut_eq (order - 1)
    have hlen := congrArg List.length hLR
    rw [List.length_append, insertEntry_length] at hlen
    refine ⟨(⟨i, L⟩ : Leaf), k, (⟨new, R⟩ : Leaf), h', ?_, ?_⟩
    · rw [if_neg hroom]
      exact hrun
    · refine ⟨hl, hn, rfl, rfl, ?_, ha, hs, ?_, ?_, ?_⟩
      · exact o'.perm (List.Perm.swap ..)
      · -- the new separator is the first key on the right, and the left
        -- half is not empty
        show Inserts key r (toks es) (toks L ++ .sep k :: toks R)
        refine hins.trans ?_
        rw [← hLR]
        match hR : R with
        | [] => simp at hk
        | e :: R' =>
            obtain ⟨L', e₀, rfl, -⟩ := exists_concat_of_length (l := L)
              (n := cut (order - 1) - 1) (by omega)
            have hke : e.1 = k := by simpa using hk
            have := refines_sep_before (toks L') e₀.1 e₀.2 e.1 e.2 (toks R')
            rw [hke] at this
            simpa [hke] using this
      · show lm ≤ L.length
        omega
      · show lm ≤ R.length
        omega

-- =========================================================== one level up

/-- Replacing the routed child by a tree at the same address. -/
theorem Route.grown {key : U64} {d : Nat} {t : Branch (Tree d)}
    {k₁ k₂ : List U64} {c₁ : List (Tree d)} {c c' : Tree d}
    {c₂ : List (Tree d)} (hrt : Route key t k₁ k₂ c₁ c c₂) {h h' : Heap}
    {par : Option NodeId} {nxt : Ptr} {O : List NodeId} {r : RecId}
    (hr : Rep order h.nodes (d + 1) t par nxt)
    (hfill : FilledBelow lm nm (d + 1) t)
    (hg : Grown order lm nm h h' d c c' (some t.id)
      (headPtr (firstLeaf d) nxt c₂)
      (t.id :: (c₁.flatMap (ids d) ++ c₂.flatMap (ids d)) ++ O) key r) :
    Grown order lm nm h h' (d + 1) t
      (⟨t.id, t.ks, c₁ ++ c' :: c₂⟩ : Branch (Tree d)) par nxt O key r := by
  obtain ⟨i, ks, cs⟩ := t
  obtain ⟨hks, hcs, hl, hrl, hle, hlt⟩ := id hrt
  simp only at hks hcs
  subst hks hcs
  obtain ⟨hn, hk⟩ := hr
  obtain ⟨hk₁, -, hk₂⟩ := kids_focus.mp hk
  have hcids : (c₁ ++ c' :: c₂).map (tid d) = (c₁ ++ c :: c₂).map (tid d) := by
    simp [hg.tid]
  have hrt' : Route key (⟨i, k₁ ++ k₂, c₁ ++ c' :: c₂⟩ : Branch (Tree d))
      k₁ k₂ c₁ c' c₂ := ⟨rfl, rfl, hl, hrl, hle, hlt⟩
  refine ⟨⟨?_, ?_⟩, rfl, ?_, ?_, ?_, hg.recs, ?_, ?_, Nat.le_refl _⟩
  · show NodeRep order (h'.nodes i) par (k₁ ++ k₂) _
    rw [hcids, hg.agree i (by simp)]
    exact hn
  · refine kids_focus.mpr ⟨?_, hg.rep, ?_⟩
    · rw [hg.first]
      exact hk₁.frame fun x hx => hg.agree x (by simp [hx])
    · exact hk₂.frame fun x hx => hg.agree x (by simp [hx])
  · exact firstLeaf_congr (head?_firstLeaf_focus hg.first) (by simp)
  · exact hg.owns.perm (hrt'.ids_perm O).symm
  · exact Agree.mono hg.agree fun x hx => by simp [hx]
  · rw [hrt'.flat_eq]
    exact hrt.inserts hg.inserts
  · intro b hb
    rcases List.mem_append.mp hb with hb | hb
    · exact hfill b (List.mem_append_left _ hb)
    · rcases List.mem_cons.mp hb with rfl | hb
      · -- the child keeps its own bound because its count did not drop
        have hc : Filled lm nm d c := hfill c (by simp)
        exact filled_iff.mpr
          ⟨Nat.le_trans (filled_iff.mp hc).1 hg.count, hg.filled⟩
      · exact hfill b (by simp [hb])

/-- The children list of a node whose routed child was split. -/
theorem Parted.kids {h h' : Heap} {d : Nat} {i : NodeId}
    {c₁ c₂ : List (Tree d)} {c l n : Tree d} {k : U64} {nxt : Ptr}
    {O : List NodeId} {key : U64} {r : RecId}
    (hk : Kids (fun c n => Rep order h.nodes d c (some i) n) (firstLeaf d)
      nxt (c₁ ++ c :: c₂))
    (hp : Parted order lm nm h h' d c l n k (some i)
      (headPtr (firstLeaf d) nxt c₂) O key r)
    (hO : ∀ x ∈ c₁.flatMap (ids d) ++ c₂.flatMap (ids d), x ∈ O) :
    Kids (fun c n => Rep order h'.nodes d c (some i) n) (firstLeaf d) nxt
      (c₁ ++ l :: n :: c₂) := by
  obtain ⟨hk₁, -, hk₂⟩ := kids_focus.mp hk
  refine kids_focus₂.mpr ⟨?_, hp.repl, hp.repn, ?_⟩
  · rw [hp.first]
    exact hk₁.frame fun x hx => hp.agree x (hO x (List.mem_append_left _ hx))
  · exact hk₂.frame fun x hx => hp.agree x (hO x (List.mem_append_right _ hx))

/-- The addresses of a children list around a split child. -/
theorem ids_parted_perm {d : Nat} (i : NodeId) (c₁ : List (Tree d))
    (l n : Tree d) (c₂ : List (Tree d)) (O : List NodeId) :
    (i :: (c₁ ++ l :: n :: c₂).flatMap (ids d) ++ O).Perm
      (ids d l ++ (ids d n
        ++ (i :: (c₁.flatMap (ids d) ++ c₂.flatMap (ids d)) ++ O))) := by
  rw [List.perm_iff_count]
  intro a
  simp only [List.flatMap_append, List.flatMap_cons, List.cons_append,
    List.count_append, List.count_cons]
  omega

/-- A child's address is not among those before it. -/
theorem tid_not_before {h : Heap} {d : Nat} {i : NodeId}
    {c₁ : List (Tree d)} {c : Tree d} {c₂ : List (Tree d)} {O : List NodeId}
    (o : Owns h (i :: (c₁ ++ c :: c₂).flatMap (ids d) ++ O)) :
    tid d c ∉ c₁.map (tid d) := by
  have hnd := tids_nodup (List.nodup_append.mp (List.nodup_cons.mp o.nodup).2).1
  rw [List.map_append, List.map_cons] at hnd
  exact fun hm => (List.nodup_append.mp hnd).2.2 _ hm _
    (List.mem_cons_self ..) rfl

/-- One round of `insert_into_parent`. -/
theorem Route.parted (horder : 3 ≤ order) (hnm : nm ≤ cut order - 1)
    {key : U64} {d : Nat} {t : Branch (Tree d)} {k₁ k₂ : List U64}
    {c₁ : List (Tree d)} {c l n : Tree d} {c₂ : List (Tree d)} {k : U64}
    (hrt : Route key t k₁ k₂ c₁ c c₂) {h h₁ : Heap} {par : Option NodeId}
    {nxt : Ptr} {O : List NodeId} {r : RecId}
    (hr : Rep order h.nodes (d + 1) t par nxt)
    (hfill : FilledBelow lm nm (d + 1) t)
    (hp : Parted order lm nm h h₁ d c l n k (some t.id)
      (headPtr (firstLeaf d) nxt c₂)
      (t.id :: (c₁.flatMap (ids d) ++ c₂.flatMap (ids d)) ++ O) key r)
    (fuel : Nat) (root : NodeId) :
    (∃ t' h', insertIntoParent order (fuel + 1) h₁ root (tid d l) k (tid d n)
          = .ok (root, h')
        ∧ Grown order lm nm h h' (d + 1) t t' par nxt O key r)
      ∨ ∃ l' k' n' h',
          insertIntoParent order (fuel + 1) h₁ root (tid d l) k (tid d n)
            = insertIntoParent order fuel h' root (tid (d + 1) l') k'
                (tid (d + 1) n')
          ∧ Parted order lm nm h h' (d + 1) t l' n' k' par nxt O key r := by
  obtain ⟨i, ks, cs⟩ := t
  obtain ⟨hks, hcs, hl, hrl, hle, hlt⟩ := id hrt
  simp only at hks hcs
  subst hks hcs
  obtain ⟨hn, hk⟩ := hr
  have hkids := hp.kids hk fun x hx =>
    List.mem_append_left _ (List.mem_cons_of_mem _ hx)
  have o₁ := hp.owns.perm (ids_parted_perm i c₁ l n c₂ O)
  have hnode : h₁.nodes i = h.nodes i := hp.agree i (by simp)
  have hcids : (c₁ ++ c :: c₂).map (tid d)
      = c₁.map (tid d) ++ tid d l :: c₂.map (tid d) := by
    simp [hp.tid]
  have hn₁ : NodeRep order (h₁.nodes i) par (k₁ ++ k₂)
      (c₁.map (tid d) ++ tid d l :: c₂.map (tid d)) := by
    rw [hnode, ← hcids]
    exact hn
  have hnd := o₁.nodup
  have hlnot : tid d l ∉ c₁.map (tid d) := tid_not_before o₁
  have hparent : (h₁.nodes (tid d l)).parent = some i := hp.repl.root.1
  have hleft := getLeftIndex_spec hn₁ hlnot
  rw [List.length_map] at hleft
  have hmiss : h₁.noteMiss i c₁.length = h₁ := by
    unfold Heap.noteMiss
    rw [if_neg]
    rw [hn₁.numKeys, List.length_append]
    omega
  have hins := hrt.inserts hp.inserts
  have hweave : weave (k₁ ++ k :: k₂) ((c₁ ++ l :: n :: c₂).map (flat d))
      = weaveL k₁ (c₁.map (flat d)) ++ ((flat d l ++ .sep k :: flat d n)
        ++ weaveR k₂ (c₂.map (flat d))) := by
    rw [List.map_append, List.map_cons, List.map_cons,
      weave_focus k₁ (k :: k₂) _ _ _ (by rw [List.length_map]; exact hl)
        (by simp [hrl])]
    simp
  rw [← hweave] at hins
  have hfill' : ∀ b ∈ c₁ ++ l :: n :: c₂, Filled lm nm d b := by
    intro b hb
    simp only [List.mem_append, List.mem_cons] at hb
    rcases hb with hb | rfl | rfl | hb
    · exact hfill b (List.mem_append_left _ hb)
    · exact hp.filledl
    · exact hp.filledn
    · exact hfill b (List.mem_append_right _ (List.mem_cons_of_mem _ hb))
  have hiO : i ∉ (c₁ ++ l :: n :: c₂).flatMap (ids d) ++ O :=
    (List.nodup_cons.mp hnd).1
  have hagree : Agree h h₁ O := Agree.mono hp.agree fun x hx => by simp [hx]
  rw [insertIntoParent, hparent]
  simp only [hleft, ok_bind, hmiss, hn₁.numKeys]
  by_cases hroom : (k₁ ++ k₂).length < order - 1
  · left
    obtain ⟨nd, hrun, hnd'⟩ := insertIntoNode_spec (tid d n) hn₁
      (by rw [List.length_map]; exact hl) hroom k
    rw [List.length_map] at hrun
    refine ⟨(⟨i, k₁ ++ k :: k₂, c₁ ++ l :: n :: c₂⟩ : Branch (Tree d)),
      h₁.setNode i nd, ?_, ?_⟩
    · rw [if_pos hroom, hrun, ok_bind]
    · refine ⟨⟨?_, ?_⟩, rfl, ?_, ?_, ?_, ?_, hins, hfill', ?_⟩
      · show NodeRep order ((h₁.setNode i nd).nodes i) par _ _
        rw [setNode_self, List.map_append, List.map_cons, List.map_cons]
        exact hnd'
      · exact hkids.frame fun x hx => setNode_other h₁ nd fun he =>
          hiO (List.mem_append_left _ (he ▸ hx))
      · exact firstLeaf_congr (head?_firstLeaf_focus hp.first) (by simp)
      · exact o₁.setNode (List.mem_cons_self ..) _
      · exact hagree.trans (agree_setNode h₁ _ fun hm =>
          hiO (List.mem_append_right _ hm))
      · exact hp.recs.trans (sameRecs_setNode ..)
      · show (k₁ ++ k₂).length ≤ (k₁ ++ k :: k₂).length
        simp
  · right
    have hlen : (k₁ ++ k₂).length ≤ order - 1 := by
      obtain ⟨kr, -, hkl⟩ := hn.keys
      simp only at hkl
      omega
    obtain ⟨new, h', KL, KR, CL, CR, k', hrun, hK, hC, hKL, hKR, hnl, hnr,
        hmem, o', hs⟩ :=
      insertIntoNodeAfterSplitting_spec horder (tid d n) hn₁
        (by rw [List.length_map]; exact hl) (by omega) o₁
        (by
          intro x hx
          rw [← List.map_cons (f := tid d), ← List.map_cons (f := tid d),
            ← List.map_append] at hx
          exact List.mem_append_left _ (mem_ids_of_mem_tids hx))
        (insertIntoParent order fuel) root k
    rw [List.length_map] at hrun
    -- the subtrees are dealt out as their addresses are
    obtain ⟨TL, TR, hT, hTL⟩ := exists_split (c₁ ++ l :: n :: c₂) CL.length (by
      have := congrArg List.length hC
      simp only [List.length_append, List.length_cons, List.length_map] at this ⊢
      omega)
    have hCT : CL ++ CR = TL.map (tid d) ++ TR.map (tid d) := by
      rw [hC, ← List.map_append, ← hT]
      simp
    obtain ⟨hCLT, hCRT⟩ := List.append_inj hCT (by rw [List.length_map, hTL])
    have hfanl := hnl.fan
    have hfanr := hnr.fan
    rw [hCLT, List.length_map] at hfanl
    rw [hCRT, List.length_map] at hfanr
    have hTLne : TL ≠ [] := by rintro rfl; simp at hfanl
    have hTRne : TR ≠ [] := by rintro rfl; simp at hfanr
    have hTmem : ∀ b, b ∈ TL ∨ b ∈ TR → b ∈ c₁ ++ l :: n :: c₂ := by
      intro b hb
      rw [hT]
      exact List.mem_append.mpr hb
    rw [hT, List.flatMap_append] at hnd hiO o₁ o'
    rw [hT, List.flatMap_append] at hmem
    rw [List.cons_append, List.nodup_cons, List.append_assoc] at hnd
    obtain ⟨-, hndT⟩ := hnd
    obtain ⟨hndL, hndRO, hdisj⟩ := List.nodup_append.mp hndT
    obtain ⟨hndR, -, hdisjR⟩ := List.nodup_append.mp hndRO
    have htidR : ∀ x ∈ TR.map (tid d), x ∈ TR.flatMap (ids d) := by
      intro x hx
      obtain ⟨b, hb, rfl⟩ := List.mem_map.mp hx
      exact List.mem_flatMap.mpr ⟨b, hb, tid_mem_ids d b⟩
    rw [hT] at hkids
    obtain ⟨hkL, hkR⟩ := kids_append.mp hkids
    refine ⟨(⟨i, KL, TL⟩ : Branch (Tree d)), k',
      (⟨new, KR, TR⟩ : Branch (Tree d)), h', ?_, ?_⟩
    · rw [if_neg hroom]
      exact hrun
    · refine ⟨⟨?_, ?_⟩, ⟨?_, ?_⟩, rfl, ?_, ?_, ?_, ?_, ?_, ?_, ?_⟩
      · show NodeRep order (h'.nodes i) par KL _
        rw [← hCLT]
        exact hnl
      · rw [← headPtr_eq_firstLeaf (p := nxt) hTRne new KR]
        refine hkL.frame fun x hx => ?_
        rw [hmem x (by simp [hx]), if_neg]
        rw [hCRT]
        exact fun hm => hdisj x hx x
          (List.mem_append_left _ (htidR x hm)) rfl
      · show NodeRep order (h'.nodes new) par KR _
        rw [← hCRT]
        exact hnr
      · refine hkR.reparent hndR fun x hx => ?_
        rw [← hCRT]
        exact hmem x (by simp [hx])
      · refine firstLeaf_congr (Eq.trans ?_
          (head?_firstLeaf_focus (x := n :: c₂) hp.first)) hTLne
        rw [hT]
        cases TL with
        | nil => exact absurd rfl hTLne
        | cons => rfl
      · refine o'.perm ?_
        show (i :: TL.flatMap (ids d) ++ (new :: TR.flatMap (ids d) ++ O)).Perm
          (new :: i :: (TL.flatMap (ids d) ++ TR.flatMap (ids d) ++ O))
        rw [List.perm_iff_count]
        intro a
        simp only [List.cons_append, List.count_append, List.count_cons]
        omega
      · intro x hx
        rw [hmem x (by simp [hx]), if_neg]
        · exact hagree x hx
        · rw [hCRT]
          exact fun hm => hdisjR x (htidR x hm) x hx rfl
      · exact hp.recs.trans hs
      · rw [← hK, hT, List.map_append, weave_split KL k' KR _ _ (by
          rw [List.length_map]; exact hfanl)] at hins
        exact hins
      · exact ⟨by show nm ≤ KL.length; omega,
          fun b hb => hfill' b (hTmem b (Or.inl hb))⟩
      · have hcut := cut_eq order
        exact ⟨by show nm ≤ KR.length; omega,
          fun b hb => hfill' b (hTmem b (Or.inr hb))⟩

-- ============================================================== the run

/-- The whole run below a subtree: it ends inside, or reaches the climb
out of it. -/
theorem insertAtLeaf_run (horder : 3 ≤ order) (hlm : lm ≤ cut (order - 1))
    (hnm : nm ≤ cut order - 1) (root : NodeId) (key : U64) (r : RecId)
    (extra : Nat) {h : Heap} : ∀ {d : Nat} {t : Tree d} {par : Option NodeId}
    {nxt : Ptr} {O : List NodeId} (fuel : Nat),
    Rep order h.nodes d t par nxt → Owns h (ids d t ++ O) →
    FilledBelow lm nm d t → Sorted (flat d t) →
    ∃ leaf, findLeafFrom h key (d + 1 + extra) (tid d t) = .ok leaf
      ∧ ((∃ t' h', insertAtLeaf order (insertIntoParent order (fuel + d)) h
              root leaf key r = .ok (root, h')
            ∧ Grown order lm nm h h' d t t' par nxt O key r)
          ∨ ∃ l k n h', insertAtLeaf order (insertIntoParent order (fuel + d))
                h root leaf key r
              = insertIntoParent order fuel h' root (tid d l) k (tid d n)
            ∧ Parted order lm nm h h' d t l n k par nxt O key r) := by
  intro d
  induction d with
  | zero =>
      intro t par nxt O fuel hr o _ hs
      refine ⟨Leaf.id t, ?_, insertAtLeaf_leaf horder hlm hr o hs _ root key r⟩
      rw [show 0 + 1 + extra = extra + 1 by omega, findLeafFrom]
      exact if_pos hr.isLeaf
  | succ d ih =>
      intro t par nxt O fuel hr o hf hs
      obtain ⟨k₁, k₂, c₁, c, c₂, hrt, hstep⟩ := route_step hr key
      have hk := hr.2
      rw [hrt.cs] at hk
      obtain ⟨-, hc, -⟩ := kids_focus.mp hk
      have hcf : FilledBelow lm nm d c :=
        (hf c (by rw [hrt.cs]; simp)).below
      obtain ⟨leaf, hleaf, hout⟩ := ih (fuel + 1) hc
        (o.perm (hrt.ids_perm O)) hcf (hrt.sorted hs)
      rw [show fuel + 1 + d = fuel + (d + 1) by omega] at hout
      refine ⟨leaf, ?_, ?_⟩
      · rw [show d + 1 + 1 + extra = (d + 1 + extra) + 1 by omega, ← hleaf]
        exact hstep _
      · rcases hout with ⟨c', h', hrun, hg⟩ | ⟨l, k, n, h', hrun, hp⟩
        · exact Or.inl ⟨_, h', hrun, hrt.grown hr hf hg⟩
        · rw [hrun]
          exact hrt.parted horder hnm hr hf hp fuel root

-- ============================================================= the whole

/-- Memory holds the tree `t` and no other node is in use. -/
structure Holds (order lm nm : Nat) (h : Heap) (d : Nat) (t : Tree d) :
    Prop where
  rep : Rep order h.nodes d t none .null
  owns : Owns h (ids d t)
  sorted : Sorted (flat d t)
  filled : FilledBelow lm nm d t
  count : 1 ≤ count d t

/-- Insertion of an absent key at the leaf `find_leaf` names. -/
theorem insertAtLeaf_top (horder : 3 ≤ order) (hlm : lm ≤ cut (order - 1))
    (hnm : nm ≤ cut order - 1) {h : Heap} {d : Nat} {t : Tree d}
    (ht : Holds order lm nm h d t) (key : U64) (r : RecId)
    (habs : ∀ q, (key, q) ∉ ents (flat d t)) :
    ∃ leaf root' h' d', ∃ t' : Tree d', findLeaf h (tid d t) key = .ok leaf
      ∧ insertAtLeaf order (insertIntoParent order (h.carvedNodes + 1)) h
          (tid d t) leaf key r = .ok (root', h')
      ∧ tid d' t' = root' ∧ Holds order lm nm h' d' t' ∧ SameRecs h h'
      ∧ ∃ x y, ents (flat d t) = x ++ y
          ∧ ents (flat d' t') = x ++ (key, r) :: y := by
  have hdepth := ht.rep.depth_lt
  have hlen := ht.owns.length_le
  have o : Owns h (ids d t ++ []) := by simpa using ht.owns
  obtain ⟨leaf, hleaf, hout⟩ := insertAtLeaf_run horder hlm hnm (tid d t) key r
    (h.carvedNodes - d) (h.carvedNodes + 1 - d) ht.rep o ht.filled ht.sorted
  rw [show d + 1 + (h.carvedNodes - d) = h.carvedNodes + 1 by omega] at hleaf
  rw [show h.carvedNodes + 1 - d + d = h.carvedNodes + 1 by omega] at hout
  have hsort : ∀ {y}, Inserts key r (flat d t) y → Sorted y := by
    intro y hi
    have := hi.2 [] [] (by simpa using ht.sorted) ⟨by simp, by simp⟩ habs
    simpa using this
  rcases hout with ⟨t', h', hrun, hg⟩ | ⟨l, k, n, h', hrun, hp⟩
  · refine ⟨leaf, tid d t, h', d, t', hleaf, hrun, hg.tid,
      ⟨hg.rep, by simpa using hg.owns, hsort hg.inserts, hg.filled,
        Nat.le_trans ht.count hg.count⟩, hg.recs, hg.inserts.1⟩
  · -- the root itself was split: a new root goes above both halves
    obtain ⟨f, hf⟩ : ∃ f, h.carvedNodes + 1 - d = f + 1 :=
      ⟨h.carvedNodes - d, by omega⟩
    have hpar : (h'.nodes (tid d l)).parent = none := hp.repl.root.1
    have oln : Owns h' (tid d l :: tid d n
        :: ((ids d l).tail ++ (ids d n).tail)) := by
      refine hp.owns.perm ?_
      rw [List.append_nil]
      conv_rhs => rw [ids_eq_cons d l, ids_eq_cons d n]
      rw [List.perm_iff_count]
      intro a
      simp only [List.cons_append, List.count_append, List.count_cons]
      omega
    obtain ⟨root, h₂, hnew, hrep, hl, hn, o₂, ha, hs⟩ :=
      insertIntoNewRoot_spec horder oln k
    refine ⟨leaf, root, h₂, d + 1, (⟨root, [k], [l, n]⟩ : Branch (Tree d)),
      hleaf, ?_, rfl, ⟨⟨hrep, ?_, ?_, trivial⟩, ?_, ?_, ?_, Nat.le_refl _⟩,
      hp.recs.trans hs, ?_⟩
    · rw [hrun, hf, insertIntoParent, hpar]
      exact hnew
    · exact hp.repl.reparent hl fun i hi =>
        ha i (List.mem_append_left _ hi)
    · exact hp.repn.reparent hn fun i hi =>
        ha i (List.mem_append_right _ hi)
    · refine o₂.perm ?_
      show (root :: ([l, n].flatMap (ids d))).Perm _
      rw [List.flatMap_cons, List.flatMap_cons, List.flatMap_nil,
        List.append_nil]
      conv_lhs => rw [ids_eq_cons d l, ids_eq_cons d n]
      rw [List.perm_iff_count]
      intro a
      simp only [List.cons_append, List.count_append, List.count_cons]
      omega
    · exact hsort hp.inserts
    · intro b hb
      rcases List.mem_pair.mp hb with rfl | rfl
      · exact hp.filledl
      · exact hp.filledn
    · exact hp.inserts.1

end ThesisBench.Btree

/-
Calls on a bulk-loaded tree.

When every level packs without a leftover, the loaded tree has at least
one key in every node, which is all the calls need: the map proof of
Ops.lean runs with the bounds `1` and `1`. Otherwise a parent on the
right edge has a single child `x`. Deleting below `x`, entry after
entry, keeps that shape until `x` underflows, and then `delete_entry`
follows the NULL beside it.
-/
import ThesisBench.Btree.Proofs.BulkLoad

namespace ThesisBench.Btree

open CArray SepList

variable {order : Nat} {h : Heap} {root : NodeId} {key : U64} {r : RecId}

-- ======================================================== the last child

/-- A filled tree has an entry. -/
theorem Filled.exists_ent {m : NodeId → Node} : ∀ {d : Nat} {t : Tree d}
    {par : Option NodeId} {nxt : Ptr}, Filled 1 1 d t →
    Rep order m d t par nxt → ∃ key r, (key, r) ∈ ents (flat d t) := by
  intro d
  induction d with
  | zero =>
      intro t par nxt hf _
      obtain ⟨e, he⟩ := List.exists_mem_of_length_pos hf
      refine ⟨e.1, e.2, ?_⟩
      show e ∈ ents (toks (Leaf.es t))
      rw [ents_toks]
      exact he
  | succ d ih =>
      intro t par nxt hf hr
      obtain ⟨i, ks, cs⟩ := t
      obtain ⟨hn, hk⟩ := hr
      have hfan : cs.length = ks.length + 1 := by simpa using hn.fan
      obtain ⟨c, cs, rfl, -⟩ := exists_cons_of_length hfan
      obtain ⟨key, r, hm⟩ := ih (hf.2 c (List.mem_cons_self ..)) hk.1
      refine ⟨key, r, ?_⟩
      show (key, r) ∈ ents (weave ks ((c :: cs).map (flat d)))
      rw [ents_weave _ _ (by rw [List.length_map]; exact hfan)]
      simp only [List.map_cons, List.flatMap_cons, List.mem_append]
      exact Or.inl hm

/-- A key of the last child routes to the last child. -/
theorem Route.last {d : Nat} {t : Branch (Tree d)} {k₁ k₂ : List U64}
    {c₁ : List (Tree d)} {c : Tree d} {c₂ : List (Tree d)}
    (hrt : Route key t k₁ k₂ c₁ c c₂) (hs : Sorted (flat (d + 1) t))
    {cs : List (Tree d)} {b : Tree d} (hcs : t.cs = cs ++ [b])
    (hb : (key, r) ∈ ents (flat d b)) : c₁ = cs ∧ c = b ∧ c₂ = [] := by
  have heq := hrt.cs.symm.trans hcs
  rcases List.eq_nil_or_concat c₂ with rfl | ⟨c₂', b', rfl⟩
  · obtain ⟨h₁, h₂⟩ := List.append_inj' heq rfl
    exact ⟨h₁, by simpa using h₂, rfl⟩
  · -- the entry would stand on both sides of the routed child
    exfalso
    rw [List.concat_eq_append] at heq hrt
    have hlast : (c₁ ++ c :: c₂') ++ [b'] = cs ++ [b] := by simpa using heq
    have hbb : b' = b := by simpa using (List.append_inj' hlast rfl).2
    have hfan : (t.cs.map (flat d)).length = t.ks.length + 1 := by
      rw [List.length_map, hrt.cs, hrt.ks]
      simp only [List.length_append, List.length_cons, hrt.left, hrt.right]
      omega
    have hall : ents (flat (d + 1) t) = t.cs.flatMap fun c => ents (flat d c) := by
      show ents (weave t.ks (t.cs.map (flat d))) = _
      rw [ents_weave _ _ hfan, List.flatMap_map]
    have hmem : (key, r) ∈ ents (flat (d + 1) t) := by
      rw [hall, hcs]
      exact List.mem_flatMap.mpr ⟨b, by simp, hb⟩
    have hc := (hrt.mem_ents hs r).mp hmem
    have hpw := ents_pairwise hs
    rw [hall, hrt.cs, List.flatMap_append, List.flatMap_cons] at hpw
    have hlt := (List.pairwise_append.mp (List.pairwise_append.mp hpw).2.1).2.2
      (key, r) hc (key, r) (List.mem_flatMap.mpr ⟨b', by simp, hbb ▸ hb⟩)
    exact lt_irrefl _ hlt

-- ======================================================== one deletion

/-- An underflowing only child has no neighbour. -/
theorem afterRemoval_orphan (horder : 3 ≤ order) {d : Nat} {i : NodeId}
    {n : Tree d} {par : Option NodeId} {nxt : Ptr}
    (hr : Rep order h.nodes (d + 1) (⟨i, [], [n]⟩ : Branch (Tree d)) par nxt)
    (hnull : (h.nodes i).pointers[1]? = some .null)
    (hroot : tid d n ≠ root) (hmin : count d n < minKeys order d)
    (del : DeleteEntry) :
    afterRemoval order del h root (tid d n) = .error .nullDeref := by
  obtain ⟨hn, hk⟩ := hr
  have hrn : Rep order h.nodes d n (some i) nxt := hk.1
  have hn' : NodeRep order (h.nodes i) par [] ([] ++ tid d n :: []) := hn
  have hidx := getNeighborIndex_spec hrn.root.1 hn' (by simp)
  rw [List.length_nil, show ((0 : Nat) : Int) - 1 = -1 by omega] at hidx
  obtain ⟨kr, hkeys, hkl⟩ := hn'.keys
  have hkey : ∃ k, (h.nodes i).keys[0]? = some k := by
    obtain ⟨k, kr, rfl, -⟩ := exists_cons_of_length (l := kr)
      (n := order - 2) (by simp at hkl; omega)
    exact ⟨k, by rw [hkeys]; rfl⟩
  obtain ⟨k, hkey⟩ := hkey
  unfold afterRemoval
  simp only [if_neg hroot, hrn.minKeys_eq, hrn.root.2.1,
    if_neg (Nat.not_le.mpr hmin), hidx, ok_bind, if_true, hrn.root.1,
    deref_some, hkey, hnull, chk_some]
  rfl

/-- A deletion faults, or leaves the shape as it was with one entry
less. -/
def Shrinks (order : Nat) (h : Heap) (root : NodeId) (key : U64) (r : RecId)
    (d : Nat) (t : Tree d) (par : Option NodeId) (nxt : Ptr)
    (O : List NodeId) (run : Except Fault (Option NodeId × Heap)) : Prop :=
  run = .error .nullDeref
    ∨ ∃ t' h', run = .ok (some root, h')
      ∧ Becomes order h h' d t t' par nxt [] O (Removes key r)
      ∧ Orphaned h' d t'

/-- One key a node is no more than the code keeps. -/
theorem least_one_le (horder : 3 ≤ order) (d : Nat) :
    least 1 1 d ≤ minKeys order d := by
  have h₁ := cut_eq (order - 1)
  have h₂ := cut_eq order
  cases d with
  | zero =>
      show 1 ≤ cut (order - 1)
      omega
  | succ d =>
      show 1 ≤ cut order - 1
      omega

/-- Deleting below an only child. -/
theorem shrinks_only (horder : 3 ≤ order) {d : Nat} {i : NodeId} {x : Tree d}
    {par : Option NodeId} {nxt : Ptr} {O : List NodeId} (extra fuel : Nat)
    (hr : Rep order h.nodes (d + 1) (⟨i, [], [x]⟩ : Branch (Tree d)) par nxt)
    (o : Owns h (ids (d + 1) (⟨i, [], [x]⟩ : Branch (Tree d)) ++ O))
    (hs : Sorted (flat (d + 1) (⟨i, [], [x]⟩ : Branch (Tree d))))
    (hrecs : (recsOf (d + 1) (⟨i, [], [x]⟩ : Branch (Tree d))).Nodup)
    (hroot : ∀ y ∈ (ids (d + 1) (⟨i, [], [x]⟩ : Branch (Tree d))).tail,
      y ≠ root)
    (hx : Filled 1 1 d x) (hnull : (h.nodes i).pointers[1]? = some .null)
    (hmem : (key, r) ∈ ents (flat d x)) :
    ∃ leaf, findLeafFrom h key (d + 1 + 1 + extra) i = .ok leaf
      ∧ Shrinks order h root key r (d + 1) (⟨i, [], [x]⟩ : Branch (Tree d))
          par nxt O
          (deleteEntry order (fuel + (d + 1) + 1) h root leaf key
            (.record r)) := by
  obtain ⟨k₁, k₂, c₁, c, c₂, hrt, hstep⟩ := route_step hr key
  obtain ⟨rfl, rfl, rfl⟩ := hrt.last hs (List.nil_append [x]).symm hmem
  have hflat : flat (d + 1) (⟨i, [], [c]⟩ : Branch (Tree d)) = flat d c := by
    simp [flat]
  have hcount : 1 ≤ count d c := by
    refine Nat.le_trans ?_ (filled_iff.mp hx).1
    cases d <;> exact Nat.le_refl 1
  have hcroot : tid d c ≠ root := hroot _ (by
    show tid d c ∈ [c].flatMap (ids d)
    rw [List.flatMap_singleton]
    exact tid_mem_ids d c)
  have hroot' : ∀ y ∈ (ids d c).tail, y ≠ root := by
    intro y hy
    refine hroot y ?_
    show y ∈ [c].flatMap (ids d)
    rw [List.flatMap_singleton]
    exact List.mem_of_mem_tail hy
  have hrecs' : (recsOf d c).Nodup := by
    unfold recsOf at hrecs ⊢
    rwa [hflat] at hrecs
  obtain ⟨leaf, hleaf, hout⟩ := deleteEntry_run horder (least_one_le horder)
    (Nat.le_refl 1) extra (fuel + 1) hr.2.1 (o.perm (hrt.ids_perm O)) hx.below
    hcount (hrt.sorted hs) hrecs' hmem hroot'
  rw [show fuel + 1 + d + 1 = fuel + (d + 1) + 1 by omega] at hout
  refine ⟨leaf, ?_, ?_⟩
  · rw [show d + 1 + 1 + extra = (d + 1 + extra) + 1 by omega, ← hleaf]
    exact hstep _
  · -- the parent's words are outside the run below it
    have hks : k₁ ++ k₂ = [] := hrt.ks.symm
    have hstill : ∀ {h' : Heap} {c' : Tree d} {pend : List NodeId},
        Becomes order h h' d c c' (some i) (headPtr (firstLeaf d) nxt [])
          pend (i :: (([] : List (Tree d)).flatMap (ids d)
            ++ ([] : List (Tree d)).flatMap (ids d)) ++ O) (Removes key r) →
        (h'.nodes i).pointers[1]? = some .null := by
      intro h' c' pend hb
      rw [hb.agree i (by simp)]
      exact hnull
    rcases hout with ⟨c', h', hrun, hb, hf, hc⟩ | ⟨c', h', pend, hrun, hb, hf, -⟩
    · have hbt := hrt.becomes hr hb
      rw [hks] at hbt
      refine Or.inr ⟨_, h', hrun, hbt, Or.inl ⟨c', rfl, ?_, hstill hb⟩⟩
      refine filled_iff.mpr ⟨?_, hf⟩
      rw [hc]
      exact (filled_iff.mp hx).1
    · have hbt := hrt.becomes hr hb
      rw [hks] at hbt
      by_cases hmin : minKeys order d ≤ count d c'
      · refine Or.inr ⟨_, freeAll pend h', ?_, hbt.free, Or.inl ⟨c', rfl, ?_, ?_⟩⟩
        · rw [hrun, afterRemoval_enough hb.rep (by rw [hb.tid]; exact hcroot) hmin]
          rfl
        · exact filled_iff.mpr
            ⟨Nat.le_trans (least_one_le horder d) hmin, hf⟩
        · exact hstill hb.free
      · left
        rw [hrun, afterRemoval_orphan horder hbt.rep (hstill hb)
          (by rw [hb.tid]; exact hcroot) (Nat.lt_of_not_le hmin)]
        rfl

/-- Deleting an entry below the only child, seen from any node above. -/
theorem Orphaned.shrinks (horder : 3 ≤ order) (extra : Nat) : ∀ {d : Nat}
    {t : Tree d} {par : Option NodeId} {nxt : Ptr} {O : List NodeId}
    (fuel : Nat), Orphaned h d t → Rep order h.nodes d t par nxt →
    Owns h (ids d t ++ O) → Sorted (flat d t) → (recsOf d t).Nodup →
    (∀ x ∈ (ids d t).tail, x ≠ root) →
    ∃ key r leaf, (key, r) ∈ ents (flat d t)
      ∧ findLeafFrom h key (d + 1 + extra) (tid d t) = .ok leaf
      ∧ Shrinks order h root key r d t par nxt O
          (deleteEntry order (fuel + d + 1) h root leaf key (.record r)) := by
  intro d
  induction d with
  | zero => exact fun _ ho => ho.elim
  | succ d ih =>
      intro t par nxt O fuel ho hr o hs hrecs hroot
      obtain ⟨i, ks, cs⟩ := t
      have hfan : cs.length = ks.length + 1 := by simpa using hr.1.fan
      rcases ho with ⟨x, hx, hf, hnull⟩ | ⟨cs', b, hcs, ho⟩
      · have hx' : cs = [x] := hx
        subst hx'
        have hks : ks = [] := List.length_eq_zero_iff.mp (by
          rw [List.length_singleton] at hfan
          omega)
        subst hks
        obtain ⟨key, r, hm⟩ := hf.exists_ent hr.2.1
        obtain ⟨leaf, hleaf, hsh⟩ := shrinks_only horder extra fuel hr o hs
          hrecs hroot hf hnull hm
        exact ⟨key, r, leaf, by simpa [flat] using hm, hleaf, hsh⟩
      · have hcs' : cs = cs' ++ [b] := hcs
        subst hcs'
        obtain ⟨hk₁, hrb, -⟩ := kids_focus.mp hr.2
        have hks : ks.length = cs'.length := by
          rw [List.length_append, List.length_singleton] at hfan
          omega
        have hflat : flat (d + 1) (⟨i, ks, cs' ++ [b]⟩ : Branch (Tree d))
            = weaveL ks (cs'.map (flat d)) ++ flat d b := by
          show weave ks ((cs' ++ [b]).map (flat d)) = _
          have hw := weave_focus ks [] (cs'.map (flat d)) (flat d b) []
            (by rw [List.length_map, hks]) rfl
          rw [List.map_append, List.map_singleton]
          simpa [weaveR] using hw
        have hsb : Sorted (flat d b) := by
          rw [hflat] at hs
          exact (sorted_append.mp hs).2.1
        have hrecsb : (recsOf d b).Nodup := by
          unfold recsOf at hrecs ⊢
          rw [hflat, ents_append, List.map_append] at hrecs
          exact (List.nodup_append.mp hrecs).2.1
        have ob : Owns h (ids d b ++ (i :: (cs'.flatMap (ids d)
            ++ ([] : List (Tree d)).flatMap (ids d)) ++ O)) := by
          refine o.perm ?_
          rw [List.perm_iff_count]
          intro a
          simp only [ids, List.flatMap_append, List.flatMap_cons,
            List.flatMap_nil, List.append_nil, List.cons_append,
            List.count_append, List.count_cons]
          omega
        have hrootb : ∀ x ∈ (ids d b).tail, x ≠ root := by
          intro x hx
          refine hroot x ?_
          show x ∈ (cs' ++ [b]).flatMap (ids d)
          exact List.mem_flatMap.mpr ⟨b, by simp, List.mem_of_mem_tail hx⟩
        obtain ⟨key, r, leaf, hm, hleaf, hsh⟩ :=
          ih (fuel + 1) ho hrb ob hsb hrecsb hrootb
        rw [show fuel + 1 + d + 1 = fuel + (d + 1) + 1 by omega] at hsh
        obtain ⟨k₁, k₂, c₁, c, c₂, hrt, hstep⟩ := route_step hr key
        obtain ⟨rfl, rfl, rfl⟩ := hrt.last hs rfl hm
        refine ⟨key, r, leaf, ?_, ?_, ?_⟩
        · rw [hflat, ents_append]
          exact List.mem_append_right _ hm
        · rw [show d + 1 + 1 + extra = (d + 1 + extra) + 1 by omega, ← hleaf]
          exact hstep _
        · rcases hsh with herr | ⟨c', h', hrun, hb, ho'⟩
          · exact Or.inl herr
          · exact Or.inr ⟨_, h', hrun, hrt.becomes hr hb,
              Or.inr ⟨c₁, c', rfl, ho'⟩⟩

-- ========================================================= all deletions

/-- Some key can be deleted to the same end. -/
theorem Loaded.shrinks (horder : 3 ≤ order) {d : Nat} {t : Tree d}
    {es : List (U64 × RecId)} (hl : Loaded order h d t es)
    (hrecs : (es.map Prod.snd).Nodup) (ho : Orphaned h d t) :
    ∃ key, Call.run order ⟨some (tid d t), h⟩ (.delete key) = .error .nullDeref
      ∨ ∃ (t' : Tree d) (h' : Heap) (es' : List (U64 × RecId)),
          Call.run order ⟨some (tid d t), h⟩ (.delete key)
            = .ok ⟨some (tid d t'), h'⟩
          ∧ Loaded order h' d t' es' ∧ (es'.map Prod.snd).Nodup
          ∧ Orphaned h' d t' ∧ es.length = es'.length + 1 := by
  obtain ⟨hr, o, hs, rfl⟩ := hl
  have hdepth := hr.depth_lt
  have hlen := o.length_le
  have o' : Owns h (ids d t ++ []) := by simpa using o
  have hroot : ∀ x ∈ (ids d t).tail, x ≠ tid d t := by
    have hnd := o.nodup
    rw [ids_eq_cons] at hnd
    exact fun x hx he => (List.nodup_cons.mp hnd).1 (he ▸ hx)
  obtain ⟨key, r, leaf, hm, hleaf, hsh⟩ := ho.shrinks horder
    (h.carvedNodes - d) (h.carvedNodes - d) hr o' hs hrecs hroot
  rw [show d + 1 + (h.carvedNodes - d) = h.carvedNodes + 1 by omega] at hleaf
  rw [show h.carvedNodes - d + d + 1 = h.carvedNodes + 1 by omega] at hsh
  have hfind : find h (some (tid d t)) key = .ok (some r, some leaf) := by
    obtain ⟨l, hl, hcase⟩ := find_spec hr hs o' key
    have hll : l = leaf := by
      have := hl.symm.trans hleaf
      simpa using this
    rcases hcase with ⟨q, hq, hf⟩ | ⟨hno, -⟩
    · rw [hf, hll, ents_unique hs hq hm]
    · exact absurd hm (hno r)
  refine ⟨key, ?_⟩
  rcases hsh with herr | ⟨t', h', hrun, hb, ho'⟩
  · left
    simp only [Call.run, delete, hfind, ok_bind, herr]
    rfl
  · right
    obtain ⟨x, y, hx, hy⟩ := hb.edit.1
    have hsn : SameNodes h' (freeRecord h' r) := ⟨rfl, rfl, rfl, rfl⟩
    refine ⟨t', freeRecord h' r, x ++ y, ?_, ⟨hb.rep, ?_, ?_, hy⟩, ?_,
      ho'.frame fun _ _ => rfl, ?_⟩
    · simp only [Call.run, delete, hfind, ok_bind, hrun, hb.tid]
    · exact (by simpa using hb.owns : Owns h' (ids d t')).same hsn
    · simpa using hb.edit.2 [] [] (by simpa using hs)
    · rw [hx] at hrecs
      refine hrecs.sublist ?_
      rw [List.map_append, List.map_append, List.map_cons]
      exact (List.sublist_cons_self _ _).append_left _
    · rw [hx, List.length_append, List.length_append, List.length_cons]
      rfl

/-- Some sequence of deletions faults. -/
theorem Loaded.faults (horder : 3 ≤ order) : ∀ (n : Nat) {d : Nat}
    {t : Tree d} {h : Heap} {es : List (U64 × RecId)}, es.length = n →
    Loaded order h d t es → (es.map Prod.snd).Nodup → Orphaned h d t →
    ∃ calls : List Call, runs order (calls.map .call) ⟨some (tid d t), h⟩
      = .error .nullDeref := by
  intro n
  induction n with
  | zero =>
      intro d t h es hn hl hrecs ho
      obtain ⟨key, herr | ⟨t', h', es', -, -, -, -, hlen⟩⟩ :=
        hl.shrinks horder hrecs ho
      · refine ⟨[.delete key], ?_⟩
        simp only [List.map_cons, runs, Op.run, herr]
        rfl
      · omega
  | succ n ih =>
      intro d t h es hn hl hrecs ho
      obtain ⟨key, herr | ⟨t', h', es', hrun, hl', hrecs', ho', hlen⟩⟩ :=
        hl.shrinks horder hrecs ho
      · refine ⟨[.delete key], ?_⟩
        simp only [List.map_cons, runs, Op.run, herr]
        rfl
      · obtain ⟨calls, hcalls⟩ := ih (by omega) hl' hrecs' ho'
        refine ⟨.delete key :: calls, ?_⟩
        simp only [List.map_cons, runs, Op.run, hrun, ok_bind, hcalls]

-- ============================================================= all calls

/-- Every sequence of calls on the loaded tree runs through, and lookup
afterwards answers the map replayed from the pairs. -/
def LoadRefines (order : Nat) (pairs : List (U64 × U64)) : Prop :=
  ∀ calls : List Call, ∃ s,
    (load order pairs >>= runs order (calls.map .call)) = .ok s
    ∧ ∀ key, s.lookup key
      = .ok ((replay (calls.map .call) (Contents.ofPairs pairs) key).map
          Record.value)

/-- A load whose rows never end in a single node stores the pairs. -/
theorem loadRefines_of_packs (horder : 3 ≤ order) {pairs : List (U64 × U64)}
    (hne : pairs ≠ []) (hpw : (pairs.map Prod.fst).Pairwise (· < ·))
    (hp : Packs order pairs.length) : LoadRefines order pairs := by
  intro calls
  obtain ⟨d, t, h, es, hload, hl, o, hreads, hmiss, hfill, -⟩ :=
    load_spec horder hne hpw
  have hf := hfill hp
  have hcount : 1 ≤ count d t := by
    refine Nat.le_trans ?_ (filled_iff.mp hf).1
    cases d <;> exact Nat.le_refl 1
  have hb := bounds_cut horder
  have hst : Stored order 1 1 h (some (tid d t)) es := by
    rw [← hl.ents]
    exact .tree ⟨hl.rep, hl.owns, hl.sorted, hf.below, hcount⟩
  obtain ⟨s, es', hrun, hm⟩ := runs_models
    ⟨horder, Nat.le_refl 1, Nat.le_refl 1, hb.leaf, hb.node⟩
    (calls.map .call) (s := ⟨some (tid d t), h⟩) ⟨hst, o, hreads, hmiss⟩
    (legal_calls calls _)
  refine ⟨s, ?_, hm.lookup⟩
  rw [hload, ok_bind, hrun]

/-- A load with a single node left over loses pairs. -/
theorem not_loadRefines (horder : 3 ≤ order) {pairs : List (U64 × U64)}
    (hne : pairs ≠ []) (hpw : (pairs.map Prod.fst).Pairwise (· < ·))
    (hp : ¬ Packs order pairs.length) : ¬ LoadRefines order pairs := by
  intro href
  obtain ⟨d, t, h, es, hload, hl, o, -, -, -, horph⟩ := load_spec horder hne hpw
  obtain ⟨calls, hfault⟩ := hl.faults horder es.length rfl o.nodup (horph hp)
  obtain ⟨s, hrun, -⟩ := href calls
  rw [hload, ok_bind, hfault] at hrun
  cases hrun

/-- The tree `bulk_load` builds is a legal starting state exactly when
no level leaves a parent with one child. -/
theorem loadRefines_iff_packs (order : Nat) (horder : 3 ≤ order)
    (pairs : List (U64 × U64)) (hne : pairs ≠ [])
    (hpw : (pairs.map Prod.fst).Pairwise (· < ·)) :
    LoadRefines order pairs ↔ Packs order pairs.length := by
  refine ⟨fun href => ?_, loadRefines_of_packs horder hne hpw⟩
  by_contra hp
  exact not_loadRefines horder hne hpw hp href

/-- Three pairs at the smallest order pack, two leaves under one
parent. -/
theorem loadRefines_iff_packs_three :
    3 ≤ 3 ∧ ([(1, 10), (2, 20), (3, 30)] : List (U64 × U64)) ≠ []
      ∧ LoadRefines 3 [(1, 10), (2, 20), (3, 30)] :=
  ⟨Nat.le_refl 3, by decide,
    (loadRefines_iff_packs 3 (Nat.le_refl 3) [(1, 10), (2, 20), (3, 30)]
      (by decide) (by decide)).mpr (by unfold Packs; decide)⟩

/-- Seven pairs at the smallest order make four leaves, so the second
parent has a single child. -/
theorem not_loadRefines_seven :
    ¬ LoadRefines 3 [(1, 10), (2, 20), (3, 30), (4, 40), (5, 50), (6, 60),
      (7, 70)] :=
  not_loadRefines (Nat.le_refl 3) (by decide) (by decide)
    (by unfold Packs; decide)

end ThesisBench.Btree

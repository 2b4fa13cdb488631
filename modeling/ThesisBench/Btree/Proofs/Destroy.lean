/-
Every slab object is accounted for, until `destroy_tree` is called.

`insert` and `delete` keep both pools (`Models`), and what memory names
as live is what the pools have in use. `destroy_tree` never succeeds: on
an empty tree it reads through NULL, and on any other it passes the
first record of the first leaf to `free`.
-/
import ThesisBench.Btree.Destroy
import ThesisBench.Btree.Proofs.Invariant

namespace ThesisBench.Btree

open CArray SepList FreeList

variable {order : Nat} {h : Heap}

-- ============================================================ what is live

/-- The records a leaf refers to are those of its pairs. -/
theorem LeafRep.recordsOf_eq {n : NodeId} {par : Option NodeId}
    {es : List (U64 × RecId)} {nxt : Ptr}
    (hl : LeafRep order (h.nodes n) par es nxt) :
    h.recordsOf n = es.map Prod.snd := by
  obtain ⟨pr, hp, -⟩ := hl.pointers
  have htake : (h.nodes n).pointers.take (h.nodes n).numKeys
      = es.map fun e => Ptr.record e.2 := by
    rw [hp, hl.numKeys]
    exact List.take_left' (by simp)
  unfold Heap.recordsOf
  rw [htake, List.filterMap_map]
  exact congrFun (List.filterMap_eq_map (f := Prod.snd)) es

/-- The records in the leaves' slots are the records of the entries. -/
theorem Rep.leaf_records : ∀ {d : Nat} {t : Tree d} {par : Option NodeId}
    {nxt : Ptr}, Rep order h.nodes d t par nxt →
    (leaves d t).flatMap h.recordsOf = (ents (flat d t)).map Prod.snd := by
  intro d
  induction d with
  | zero =>
      intro t par nxt hr
      show [Leaf.id t].flatMap h.recordsOf = (ents (toks (Leaf.es t))).map _
      rw [ents_toks, List.flatMap_singleton, LeafRep.recordsOf_eq hr]
  | succ d ih =>
      intro t par nxt hr
      obtain ⟨hn, hk⟩ := hr
      show ((Branch.cs t).flatMap (leaves d)).flatMap h.recordsOf
        = (ents (weave (Branch.ks t) ((Branch.cs t).map (flat d)))).map _
      rw [ents_weave _ _ (by simpa using hn.fan), List.flatMap_map,
        List.flatMap_assoc, List.map_flatMap]
      refine List.flatMap_congr fun c hc => ?_
      obtain ⟨n, hR⟩ := hk.mem hc
      exact ih hR

/-- What memory names as live is what the pools have in use. -/
theorem Models.accounted {lm nm : Nat} {s : State} {m : Contents}
    {es : List (U64 × RecId)} (hm : Models order lm nm s m es) :
    ∃ ns rs, Accounted s ns rs := by
  obtain ⟨root, h⟩ := s
  obtain ⟨ns, hlive, o⟩ : ∃ ns, Live h root ns (es.map Prod.snd)
      ∧ Owns h ns := by
    cases hst : hm.stored with
    | empty o => exact ⟨[], .empty, o⟩
    | @tree d t ht =>
        refine ⟨ids d t, ?_, ht.owns⟩
        rw [← ht.rep.nodesUnder_eq, ← ht.rep.leaf_records,
          ← ht.rep.leavesUnder_eq]
        exact .tree ht.rep.uniform
  refine ⟨ns, es.map Prod.snd, hlive, o, hm.owns, fun n h' hrun => ?_,
    fun r h' hrun => ?_⟩
  · obtain ⟨n', h'', hrun', o', -⟩ := allocNode_spec o
    rw [hrun] at hrun'
    obtain ⟨rfl, -⟩ := Prod.mk.inj (Except.ok.inj hrun')
    exact (List.nodup_cons.mp o'.nodup).1
  · obtain ⟨r', h'', hrun', o', -⟩ := allocRecord_spec hm.owns
    rw [hrun] at hrun'
    obtain ⟨rfl, -⟩ := Prod.mk.inj (Except.ok.inj hrun')
    exact (List.nodup_cons.mp o'.nodup).1

-- ========================================================== destroy_tree

/-- The leftmost leaf stops the descent: its first record is not
`malloc`'s. -/
theorem destroyTreeNodes_faults {lm nm : Nat} (hlm : 1 ≤ lm) : ∀ {d : Nat}
    {t : Tree d} {par : Option NodeId} {nxt : Ptr} (k : Nat),
    Rep order h.nodes d t par nxt → (d = 0 → 1 ≤ count d t) →
    FilledBelow lm nm d t →
    destroyTreeNodes (d + 1 + k) h (tid d t) = .error .badFree := by
  intro d
  induction d with
  | zero =>
      intro t par nxt k hr hpos _
      have hl : LeafRep order (h.nodes (tid 0 t)) par (Leaf.es t) nxt := hr
      obtain ⟨pr, hp, -⟩ := hl.pointers
      obtain ⟨n, hn⟩ : ∃ n, (Leaf.es t).length = n + 1 :=
        Nat.exists_eq_succ_of_ne_zero (Nat.one_le_iff_ne_zero.mp (hpos rfl))
      obtain ⟨e, es, hes, -⟩ := exists_cons_of_length hn
      have hfirst : (h.nodes (tid 0 t)).pointers[0]? = some (.record e.2) := by
        rw [hp, hes]
        rfl
      rw [show 0 + 1 + k = k + 1 by omega, destroyTreeNodes, if_pos hl.isLeaf,
        hl.numKeys, hn, freePointers, hfirst]
      rfl
  | succ d ih =>
      intro t par nxt k hr _ hf
      obtain ⟨hn, hk⟩ := hr
      obtain ⟨i, ks, cs⟩ := t
      have hn' : NodeRep order (h.nodes i) par ks (cs.map (tid d)) := hn
      obtain ⟨c, cs', rfl, -⟩ := exists_cons_of_length (l := cs)
        (n := ks.length) (by simpa using hn'.fan)
      obtain ⟨pr, hp, -⟩ := hn'.pointers
      have hfirst : (h.nodes i).pointers[0]? = some (.node (tid d c)) := by
        rw [hp]
        rfl
      have hfc := filled_iff.mp (hf c (List.mem_cons_self ..))
      have hrec := ih k hk.1 (fun hd => by
        subst hd
        exact Nat.le_trans hlm hfc.1) hfc.2
      show destroyTreeNodes (d + 1 + 1 + k) h i = _
      rw [show d + 1 + 1 + k = d + 1 + k + 1 by omega, destroyTreeNodes,
        if_neg (by rw [hn'.isLeaf]; exact Bool.false_ne_true), destroyChildren,
        hfirst]
      simp only [chk_some, ok_bind, asNode_node, hrec, error_bind]

/-- `destroy_tree` fails whatever the tree. -/
theorem destroyTree_faults {lm nm : Nat} (hlm : 1 ≤ lm) {s : State}
    {m : Contents} {es : List (U64 × RecId)} (hm : Models order lm nm s m es) :
    ∃ e, LifeCall.run order s .destroyTree = .error e := by
  obtain ⟨root, h⟩ := s
  cases hst : hm.stored with
  | empty => exact ⟨.nullDeref, rfl⟩
  | @tree d t ht =>
      have hlen : (ids d t).length ≤ h.carvedNodes := ht.owns.length_le
      have hdepth := ht.rep.depth_lt
      have hrun := destroyTreeNodes_faults hlm (h.carvedNodes - d) ht.rep
        (fun _ => ht.count) ht.filled
      rw [show d + 1 + (h.carvedNodes - d) = h.carvedNodes + 1 by omega] at hrun
      refine ⟨.badFree, ?_⟩
      simp only [LifeCall.run, destroyTree, deref_some, ok_bind, hrun, error_bind]

-- ============================================================= all calls

/-- A sequence of calls may be run in two parts. -/
theorem lifeRuns_append (cs ds : List LifeCall) : ∀ s : State,
    lifeRuns order (cs ++ ds) s
      = lifeRuns order cs s >>= lifeRuns order ds := by
  induction cs with
  | nil => exact fun s => rfl
  | cons c cs ih =>
      intro s
      rw [List.cons_append, lifeRuns, lifeRuns]
      cases c.run order s with
      | error e => rfl
      | ok s' => exact ih s'

/-- Calls that leave the tree standing keep state and map in step. -/
theorem lifeRuns_models {lm nm : Nat} (b : Bounds order lm nm)
    (cs : List LifeCall) : ∀ {s : State} {m : Contents}
    {es : List (U64 × RecId)}, Models order lm nm s m es →
    .destroyTree ∉ cs →
    ∃ s' m' es', lifeRuns order cs s = .ok s'
      ∧ Models order lm nm s' m' es' := by
  induction cs with
  | nil => exact fun {s m es} hm _ => ⟨s, m, es, rfl, hm⟩
  | cons c cs ih =>
      intro s m es hm hno
      cases c with
      | destroyTree => exact absurd (List.mem_cons_self ..) hno
      | call c =>
          have hlegal : (Op.call c).Legal m := trivial
          obtain ⟨s₁, es₁, hrun, hm₁⟩ := Op.run_models b hm hlegal
          obtain ⟨s₂, m₂, es₂, hruns, hm₂⟩ := ih hm₁ fun hmem =>
            hno (List.mem_cons_of_mem _ hmem)
          refine ⟨s₂, m₂, es₂, ?_, hm₂⟩
          have hrun' : LifeCall.run order s (.call c) = .ok s₁ := hrun
          rw [lifeRuns, hrun', ok_bind, hruns]

/-- The first `destroy_tree` of a sequence fails. -/
theorem lifeRuns_destroy_faults (horder : 3 ≤ order) (pre : List LifeCall)
    (hpre : .destroyTree ∉ pre) :
    ∃ e, lifeRuns order (pre ++ [.destroyTree]) State.empty = .error e := by
  have b := bounds_cut horder
  obtain ⟨s, m, es, hrun, hm⟩ := lifeRuns_models b pre models_empty hpre
  obtain ⟨e, hfault⟩ := destroyTree_faults b.leaf hm
  refine ⟨e, ?_⟩
  rw [lifeRuns_append, hrun, ok_bind, lifeRuns, hfault]
  rfl

/-- Every object is accounted for after every call of a sequence exactly
when `destroy_tree` is not among the calls. -/
theorem accountedThroughout_iff (order : Nat) (horder : 3 ≤ order)
    (cs : List LifeCall) :
    AccountedThroughout order cs ↔ .destroyTree ∉ cs := by
  constructor
  · intro hall hmem
    obtain ⟨pre, post, rfl, hpre⟩ := List.eq_append_cons_of_mem hmem
    obtain ⟨e, hfault⟩ := lifeRuns_destroy_faults horder pre hpre
    obtain ⟨s, -, -, hok, -⟩ := hall (pre ++ [.destroyTree])
      ⟨post, by rw [List.append_assoc]; rfl⟩
    rw [hfault] at hok
    cases hok
  · intro hno pre hpre
    obtain ⟨s, m, es, hrun, hm⟩ := lifeRuns_models (bounds_cut horder) pre
      models_empty fun hmem => hno (hpre.subset hmem)
    obtain ⟨ns, rs, hacc⟩ := hm.accounted
    exact ⟨s, ns, rs, hrun, hacc⟩

/-- An insert and a delete at the least order. -/
theorem accountedThroughout_iff_three :
    3 ≤ 3 ∧ (AccountedThroughout 3 [.call (.insert 1 10), .call (.delete 1)]
      ↔ LifeCall.destroyTree ∉ [.call (.insert 1 10), .call (.delete 1)]) :=
  ⟨Nat.le_refl 3, accountedThroughout_iff 3 (Nat.le_refl 3) _⟩

/-- One key, and the tree cannot be destroyed. -/
theorem not_accountedThroughout :
    ¬ AccountedThroughout 3 [.call (.insert 1 10), .destroyTree] := by
  intro hall
  obtain ⟨s, -, -, hrun, -⟩ := hall _ (List.prefix_refl _)
  obtain ⟨e, hfault⟩ : ∃ e, lifeRuns 3 [.call (.insert 1 10), .destroyTree]
      State.empty = .error e :=
    lifeRuns_destroy_faults (Nat.le_refl 3) [.call (.insert 1 10)] (by decide)
  rw [hrun] at hfault
  cases hfault

end ThesisBench.Btree

/-
The tree as a finite map: every legal sequence of calls succeeds, and
lookup agrees with the replayed map.

`Stored` forgets the tree and keeps its entries; the empty tree is the
list without entries. `Models s m` adds the records: every entry's
record is in use, holds the value the map has for the key, and no other
record is in use. One lemma per call keeps it, so the claim about
sequences is an induction on the sequence.
-/
import ThesisBench.Btree.Ops
import ThesisBench.Btree.Proofs.Delete

namespace ThesisBench.Btree

open CArray SepList

variable {order lm nm : Nat}

-- ======================================================= stored entries

/-- The tree at `root` holds exactly these entries. -/
inductive Stored (order lm nm : Nat) (h : Heap) :
    Option NodeId → List (U64 × RecId) → Prop
  | empty : Owns h [] → Stored order lm nm h none []
  | tree {d : Nat} {t : Tree d} : Holds order lm nm h d t →
      Stored order lm nm h (some (tid d t)) (ents (flat d t))

/-- The records and the ghost do not enter. -/
theorem Stored.same {h h' : Heap} {root : Option NodeId}
    {es : List (U64 × RecId)} (hst : Stored order lm nm h root es)
    (hs : SameNodes h h') : Stored order lm nm h' root es := by
  cases hst with
  | empty o => exact .empty (o.same hs)
  | tree ht =>
      refine .tree ⟨?_, ht.owns.same hs, ht.sorted, ht.filled, ht.count⟩
      rw [hs.nodes]
      exact ht.rep

/-- The stored pairs are in strictly increasing order of keys. -/
theorem Stored.pairwise {h : Heap} {root : Option NodeId}
    {es : List (U64 × RecId)} (hst : Stored order lm nm h root es) :
    es.Pairwise fun a b => a.1 < b.1 := by
  cases hst with
  | empty => exact List.Pairwise.nil
  | tree ht => exact ents_pairwise ht.sorted

/-- `find` answers exactly the entries. -/
theorem Stored.find {h : Heap} {root : Option NodeId}
    {es : List (U64 × RecId)} (hst : Stored order lm nm h root es)
    (key : U64) :
    (∃ r leaf, (key, r) ∈ es ∧ find h root key = .ok (some r, leaf))
      ∨ ((∀ r, (key, r) ∉ es) ∧ ∃ leaf, Btree.find h root key = .ok (none, leaf)) := by
  cases hst with
  | empty => exact Or.inr ⟨by simp, none, rfl⟩
  | @tree d t ht =>
      have o : Owns h (ids d t ++ []) := by simpa using ht.owns
      obtain ⟨leaf, -, hcase⟩ := find_spec ht.rep ht.sorted o key
      rcases hcase with ⟨r, hr, hf⟩ | ⟨hno, hf⟩
      · exact Or.inl ⟨r, some leaf, hr, hf⟩
      · exact Or.inr ⟨hno, some leaf, hf⟩

-- ========================================================== a new entry

/-- What `insert` and `insert_unique` do with a record for an absent
key. -/
def insertNew (order : Nat) (h : Heap) (root : Option NodeId) (key : U64)
    (r : RecId) : Except Fault (Option NodeId × Heap) :=
  match root with
  | none => do
      let (root, h) ← startNewTree order h key r
      .ok (some root, h)
  | some root => do
      let leaf ← findLeaf h root key
      let (root, h) ← insertAtLeaf order
        (insertIntoParent order (h.carvedNodes + 1)) h root leaf key r
      .ok (some root, h)

/-- Inserting an absent key adds its pair to the stored ones, in its place,
and touches no record. -/
theorem insertNew_spec (horder : 3 ≤ order) (hlm : lm ≤ cut (order - 1))
    (hnm : nm ≤ cut order - 1) {h : Heap} {root : Option NodeId}
    {es : List (U64 × RecId)} (hst : Stored order lm nm h root es)
    (key : U64) (r : RecId) (habs : ∀ q, (key, q) ∉ es) :
    ∃ root' h' x y, insertNew order h root key r = .ok (root', h')
      ∧ Stored order lm nm h' root' (x ++ (key, r) :: y) ∧ es = x ++ y
      ∧ SameRecs h h' := by
  cases hst with
  | empty o =>
      obtain ⟨root', h', hrun, hrep, o', hs⟩ := startNewTree_spec horder o key r
      have ht : Holds order lm nm h' 0 (⟨root', [(key, r)]⟩ : Leaf) :=
        ⟨hrep, o', by simp [flat, Sorted], trivial, Nat.le_refl _⟩
      refine ⟨some root', h', [], [], ?_, ?_, rfl, hs⟩
      · rw [insertNew, hrun]
        rfl
      · exact Stored.tree ht
  | tree ht =>
      obtain ⟨leaf, root', h', d', t', hleaf, hrun, rfl, ht', hs, x, y, hx, hy⟩ :=
        insertAtLeaf_top horder hlm hnm ht key r habs
      refine ⟨some (tid d' t'), h', x, y, ?_, ?_, hx, hs⟩
      · rw [insertNew, hleaf, ok_bind, hrun]
        rfl
      · rw [← hy]
        exact Stored.tree ht'

/-- `insert` of an absent key. -/
theorem insert_absent {h : Heap} {root : Option NodeId} {key : U64}
    {leaf : Option NodeId} (hf : find h root key = .ok (none, leaf))
    (value : U64) :
    insert order h root key value = (do
      let (r, h) ← makeRecord h value
      insertNew order h root key r) := by
  unfold insert
  rw [hf, ok_bind]
  cases makeRecord h value with
  | error e => rfl
  | ok p =>
      simp only [ok_bind]
      cases root with
      | none => rfl
      | some root =>
          simp only [insertNew, insertAtLeaf]
          cases findLeaf p.2 root key with
          | error e => rfl
          | ok leaf =>
              simp only [ok_bind]
              split
              · cases insertIntoLeaf p.2 leaf key p.1 <;> rfl
              · rfl

/-- The append fast path writes what `insert_into_leaf` writes. -/
theorem append_eq_insertIntoLeaf {h : Heap} {leaf : NodeId}
    {par : Option NodeId} {es : List (U64 × RecId)} {nxt : Ptr}
    (hr : LeafRep order (h.nodes leaf) par es nxt) {key : U64}
    (hlt : ∀ e ∈ es, e.1 < key) (r : RecId) :
    insertIntoLeaf h leaf key r = (do
      let keys ← chk (put (h.nodes leaf).keys (h.nodes leaf).numKeys key)
      let pointers ← chk (put (h.nodes leaf).pointers (h.nodes leaf).numKeys
        (.record r))
      .ok (h.setNode leaf
        { h.nodes leaf with keys := keys, pointers := pointers
                            numKeys := (h.nodes leaf).numKeys + 1 })) := by
  obtain ⟨kr, hk, -⟩ := hr.keys
  have hscan : scanWhile (fun k => decide (k < key)) (h.nodes leaf).keys 0
      (h.nodes leaf).numKeys = some (h.nodes leaf).numKeys := by
    rw [hk, hr.numKeys, scanWhile_spec _ _ _ (by simp)]
    rw [List.takeWhile_eq_self_iff.mpr, List.length_map]
    intro k hkm
    obtain ⟨e, he, rfl⟩ := List.mem_map.mp hkm
    simpa using hlt e he
  unfold insertIntoLeaf
  simp only [hscan, chk_some, ok_bind]
  rw [shiftUp_none, shiftUp_none]
  rfl

/-- `insert_unique` is the part of `insert` that follows the search. -/
theorem insertUnique_eq {h : Heap} {root : Option NodeId}
    {es : List (U64 × RecId)} (hst : Stored order lm nm h root es)
    (key : U64) (r : RecId) :
    insertUnique order h root key r = insertNew order h root key r := by
  cases hst with
  | empty => rfl
  | @tree d t ht =>
      have hdepth := ht.rep.depth_lt
      have hlen := ht.owns.length_le
      obtain ⟨leaf, fs, par, nxt, hrun, hleaf, hpw, -⟩ :=
        findLeafFrom_spec key (h.carvedNodes - d) ht.rep ht.sorted
      rw [show d + 1 + (h.carvedNodes - d) = h.carvedNodes + 1 by omega] at hrun
      have hfl : findLeaf h (tid d t) key = .ok leaf := hrun
      obtain ⟨kr, hk, -⟩ := hleaf.keys
      simp only [insertUnique, insertNew, insertAtLeaf, hfl, ok_bind]
      have hslow : (insertIntoLeaf h leaf key r
            >>= fun h => Except.ok (some (tid d t), h))
          = ((insertIntoLeaf h leaf key r >>= fun h => .ok (tid d t, h))
            >>= fun x => .ok (some x.1, x.2)) := by
        cases insertIntoLeaf h leaf key r <;> rfl
      have hfast : (∀ e ∈ fs, e.1 < key) → (do
            let keys ← chk (put (h.nodes leaf).keys (h.nodes leaf).numKeys key)
            let pointers ← chk (put (h.nodes leaf).pointers
              (h.nodes leaf).numKeys (.record r))
            Except.ok (some (tid d t), h.setNode leaf
              { h.nodes leaf with keys := keys, pointers := pointers
                                  numKeys := (h.nodes leaf).numKeys + 1 }))
          = (insertIntoLeaf h leaf key r
            >>= fun h => .ok (some (tid d t), h)) := by
        intro hlt
        rw [append_eq_insertIntoLeaf hleaf hlt r]
        cases put (h.nodes leaf).keys (h.nodes leaf).numKeys key with
        | none => rfl
        | some keys =>
            cases put (h.nodes leaf).pointers (h.nodes leaf).numKeys
              (.record r) <;> rfl
      by_cases hroom : (h.nodes leaf).numKeys < order - 1
      · rw [if_pos hroom, if_pos hroom, ← hslow]
        rcases List.eq_nil_or_concat fs with rfl | ⟨fs', e, rfl⟩
        · -- an empty leaf is appended to
          have hzero : (h.nodes leaf).numKeys = 0 := hleaf.numKeys
          rw [if_pos hzero, if_pos trivial]
          exact hfast (by simp)
        · rw [List.concat_eq_append] at hleaf hk hpw hfast
          have hpos : ¬ (h.nodes leaf).numKeys = 0 := by
            rw [hleaf.numKeys]
            simp
          have hlast : (h.nodes leaf).keys[(h.nodes leaf).numKeys - 1]?
              = some e.1 := by
            rw [hk, hleaf.numKeys, List.map_append, List.append_assoc]
            exact getElem?_seam _ _ _ (by simp)
          rw [if_neg hpos, hlast, chk_some, ok_bind]
          by_cases hlt : e.1 < key
          · -- the last key is the largest
            rw [if_pos (by simpa using hlt)]
            refine hfast fun f hf => ?_
            rcases List.mem_append.mp hf with hf | hf
            · exact lt_trans
                ((List.pairwise_append.mp hpw).2.2 f hf e (by simp)) hlt
            · rw [List.mem_singleton.mp hf]
              exact hlt
          · rw [if_neg (by simpa using hlt)]
      · rw [if_neg hroom, if_neg hroom]

-- ============================================================ the records

/-- The records of the entries hold the map's values. -/
structure Reads (h : Heap) (es : List (U64 × RecId)) (m : Contents) : Prop where
  present : ∀ e ∈ es, ∃ v, h.recs e.2 = .value v ∧ m e.1 = some v
  absent : ∀ k, (∀ r, (k, r) ∉ es) → m k = none

/-- The state holds the map `m`. -/
structure Models (order lm nm : Nat) (s : State) (m : Contents)
    (es : List (U64 × RecId)) : Prop where
  stored : Stored order lm nm s.heap s.root es
  owns : OwnsRecs s.heap (es.map Prod.snd)
  reads : Reads s.heap es m
  misses : s.heap.misses = 0

/-- The program starts with the empty map. -/
theorem models_empty : Models order lm nm State.empty Contents.empty [] where
  stored := .empty owns_empty
  owns := ownsRecs_empty
  reads := ⟨by simp, fun _ _ => rfl⟩
  misses := rfl

/-- Lookup answers the map's value. -/
theorem Models.lookup {s : State} {m : Contents} {es : List (U64 × RecId)}
    (hm : Models order lm nm s m es) (key : U64) :
    s.lookup key = .ok ((m key).map Record.value) := by
  unfold State.lookup
  rcases hm.stored.find key with ⟨r, leaf, hr, hf⟩ | ⟨hno, leaf, hf⟩
  · obtain ⟨v, hv, hmv⟩ := hm.reads.present (key, r) hr
    rw [hf, ok_bind, hmv]
    simp [hv]
  · rw [hf, ok_bind, hm.reads.absent key hno]
    rfl

/-- Entries have distinct keys. -/
theorem Stored.key_inj {h : Heap} {root : Option NodeId}
    {es : List (U64 × RecId)} (hst : Stored order lm nm h root es)
    {k : U64} {p q : RecId} (hp : (k, p) ∈ es) (hq : (k, q) ∈ es) : p = q := by
  cases hst with
  | empty => cases hp
  | tree ht => exact ents_unique ht.sorted hp hq

/-- A present key is overwritten in its record. -/
theorem Models.overwrite {s : State} {m : Contents} {es : List (U64 × RecId)}
    (hm : Models order lm nm s m es) {key : U64} {r : RecId}
    (hr : (key, r) ∈ es) (value : U64) :
    Models order lm nm ⟨s.root, s.heap.setRec r (.value value)⟩
      (Function.update m key (some value)) es where
  stored := hm.stored.same ⟨rfl, rfl, rfl, rfl⟩
  owns := hm.owns.setRec (List.mem_map_of_mem hr) _
  reads := by
    refine ⟨fun e he => ?_, fun k hk => ?_⟩
    · by_cases hek : e.1 = key
      · have her : e.2 = r := by
          refine hm.stored.key_inj (k := key) ?_ hr
          rw [← hek]
          exact he
        exact ⟨value, by simp [Heap.setRec, her], by rw [hek]; simp⟩
      · -- another key has another record
        have her : e.2 ≠ r := by
          intro her
          have hinj := List.inj_on_of_nodup_map hm.owns.nodup he hr her
          exact hek (congrArg Prod.fst hinj)
        obtain ⟨v, hv, hmv⟩ := hm.reads.present e he
        refine ⟨v, by simpa [Heap.setRec, her] using hv, ?_⟩
        rw [Function.update_of_ne hek]
        exact hmv
    · have hne : k ≠ key := fun he => hk r (he ▸ hr)
      rw [Function.update_of_ne hne]
      exact hm.reads.absent k hk
  misses := hm.misses

/-- The records of the entries are all that is read. -/
theorem Reads.congr {h h' : Heap} {es : List (U64 × RecId)} {m : Contents}
    (hr : Reads h es m) (hsame : ∀ e ∈ es, h'.recs e.2 = h.recs e.2) :
    Reads h' es m := by
  refine ⟨fun e he => ?_, hr.absent⟩
  rw [hsame e he]
  exact hr.present e he

/-- A new entry, anywhere among the others. -/
theorem Reads.insert {h : Heap} {es x y : List (U64 × RecId)} {m : Contents}
    (hr : Reads h es m) {key value : U64} {r : RecId}
    (habs : ∀ q, (key, q) ∉ es) (hes : es = x ++ y)
    (hrec : h.recs r = .value value) :
    Reads h (x ++ (key, r) :: y) (Function.update m key (some value)) := by
  refine ⟨fun e he => ?_, fun k hk => ?_⟩
  · have hcase : e = (key, r) ∨ e ∈ es := by
      rw [hes]
      simp only [List.mem_append, List.mem_cons] at he ⊢
      tauto
    rcases hcase with rfl | he
    · exact ⟨value, hrec, by simp⟩
    · obtain ⟨v, hv, hmv⟩ := hr.present e he
      have hne : e.1 ≠ key := fun hek => habs e.2 (hek ▸ he)
      refine ⟨v, hv, ?_⟩
      rw [Function.update_of_ne hne]
      exact hmv
  · have hne : k ≠ key := fun he => hk r (by simp [he])
    rw [Function.update_of_ne hne]
    refine hr.absent k fun q hq => hk q ?_
    rw [hes] at hq
    simp only [List.mem_append, List.mem_cons] at hq ⊢
    tauto

/-- An absent key gets a record and an entry. -/
theorem Models.add (horder : 3 ≤ order) (hlm : lm ≤ cut (order - 1))
    (hnm : nm ≤ cut order - 1) {s : State} {m : Contents}
    {es : List (U64 × RecId)} (hm : Models order lm nm s m es) {key : U64}
    (habs : ∀ r, (key, r) ∉ es) (value : U64) :
    ∃ r h, makeRecord s.heap value = .ok (r, h)
      ∧ Stored order lm nm h s.root es
      ∧ ∃ root' h' es', insertNew order h s.root key r = .ok (root', h')
        ∧ Models order lm nm ⟨root', h'⟩
          (Function.update m key (some value)) es' := by
  obtain ⟨r, h, hmk, o, hold, hnew, hs⟩ := makeRecord_spec hm.owns value
  have hst := hm.stored.same hs
  obtain ⟨root', h', x, y, hrun, hst', hes, hs'⟩ :=
    insertNew_spec horder hlm hnm hst key r habs
  refine ⟨r, h, hmk, hst, root', h', _, hrun, hst', ?_, ?_, ?_⟩
  · refine (o.same hs').perm ?_
    rw [hes]
    simp only [List.map_append, List.map_cons]
    exact List.perm_middle
  · have hreads : Reads h' es m := hm.reads.congr fun e he => by
      rw [hs'.recs, hold e.2 (List.mem_map_of_mem he)]
    exact hreads.insert habs hes (by rw [hs'.recs, hnew])
  · show h'.misses = 0
    rw [hs'.misses, hs.misses]
    exact hm.misses

/-- The entries without one of them. -/
theorem Models.remove {s : State} {m : Contents} {x y : List (U64 × RecId)}
    {key : U64} {r : RecId}
    (hm : Models order lm nm s m (x ++ (key, r) :: y)) {root' : Option NodeId}
    {h' : Heap} (hst : Stored order lm nm h' root' (x ++ y))
    (hs : SameRecs s.heap h') :
    Models order lm nm ⟨root', freeRecord h' r⟩ (Function.update m key none)
      (x ++ y) := by
  have o : OwnsRecs h' (r :: (x ++ y).map Prod.snd) := by
    refine (hm.owns.same hs).perm ?_
    simp only [List.map_append, List.map_cons]
    exact List.perm_middle.symm
  obtain ⟨o', hrecs, hsn⟩ := freeRecord_spec o
  have hmem : ∀ e ∈ x ++ y, e ∈ x ++ (key, r) :: y := by
    intro e he
    simp only [List.mem_append, List.mem_cons] at he ⊢
    tauto
  have hgone : ∀ q, (key, q) ∉ x ++ y := by
    intro q hq
    have hpw := hm.stored.pairwise
    have hqr := hm.stored.key_inj (hmem _ hq) (q := r) (by simp)
    rw [hqr] at hq
    have hnd := (List.nodup_middle.mp (List.Pairwise.imp (fun h he =>
      absurd (congrArg Prod.fst he) (ne_of_lt h)) hpw)).notMem
    exact hnd hq
  refine ⟨hst.same hsn, o', ⟨fun e he => ?_, fun k hk => ?_⟩, ?_⟩
  · obtain ⟨v, hv, hmv⟩ := hm.reads.present e (hmem e he)
    have hne : e.1 ≠ key := fun hek => hgone e.2 (hek ▸ he)
    refine ⟨v, ?_, ?_⟩
    · show (freeRecord h' r).recs e.2 = .value v
      rw [hrecs e.2 (List.mem_map_of_mem he), hs.recs]
      exact hv
    · rw [Function.update_of_ne hne]
      exact hmv
  · by_cases hkk : k = key
    · rw [hkk, Function.update_self]
    · rw [Function.update_of_ne hkk]
      refine hm.reads.absent k fun q hq => hk q ?_
      simp only [List.mem_append, List.mem_cons, Prod.mk.injEq] at hq ⊢
      tauto
  · show (freeRecord h' r).misses = 0
    rw [hsn.misses, hs.misses]
    exact hm.misses

-- ============================================================== one call

/-- What the occupancy bounds must satisfy for the calls to keep them. -/
structure Bounds (order lm nm : Nat) : Prop where
  three_le : 3 ≤ order
  leaf : 1 ≤ lm
  node : 1 ≤ nm
  leaf_le : lm ≤ cut (order - 1)
  node_le : nm ≤ cut order - 1

/-- The bounds ask for no more keys than the code keeps in a node. -/
theorem Bounds.least_le (b : Bounds order lm nm) (d : Nat) :
    least lm nm d ≤ minKeys order d := by
  cases d with
  | zero => exact b.leaf_le
  | succ d => exact b.node_le

/-- An insert overwrites in the map. -/
theorem insert_models (b : Bounds order lm nm) {s : State} {m : Contents}
    {es : List (U64 × RecId)} (hm : Models order lm nm s m es)
    (key value : U64) :
    ∃ s' es', Call.run order s (.insert key value) = .ok s'
      ∧ Models order lm nm s' (Function.update m key (some value)) es' := by
  rcases hm.stored.find key with ⟨r, leaf, hr, hf⟩ | ⟨hno, leaf, hf⟩
  · refine ⟨_, es, ?_, hm.overwrite hr value⟩
    simp only [Call.run, insert, hf, ok_bind]
  · obtain ⟨r, h, hmk, -, root', h', es', hrun, hm'⟩ :=
      hm.add b.three_le b.leaf_le b.node_le hno value
    refine ⟨_, es', ?_, hm'⟩
    simp only [Call.run, insert_absent hf, hmk, ok_bind, hrun]

/-- `insert_unique` of an absent key adds it to the map. -/
theorem insertUnique_models (b : Bounds order lm nm) {s : State}
    {m : Contents} {es : List (U64 × RecId)} (hm : Models order lm nm s m es)
    {key : U64} (habs : m key = none) (value : U64) :
    ∃ s' es', Op.run order s (.insertUnique key value) = .ok s'
      ∧ Models order lm nm s' (Function.update m key (some value)) es' := by
  have hno : ∀ r, (key, r) ∉ es := by
    intro r hr
    obtain ⟨v, -, hv⟩ := hm.reads.present (key, r) hr
    rw [show m key = some v from hv] at habs
    cases habs
  obtain ⟨r, h, hmk, hst, root', h', es', hrun, hm'⟩ :=
    hm.add b.three_le b.leaf_le b.node_le hno value
  refine ⟨_, es', ?_, hm'⟩
  simp only [Op.run, hmk, ok_bind, insertUnique_eq hst, hrun]

/-- A delete removes from the map, if there is anything to remove. -/
theorem delete_models (b : Bounds order lm nm) {s : State} {m : Contents}
    {es : List (U64 × RecId)} (hm : Models order lm nm s m es) (key : U64) :
    ∃ s' es', Call.run order s (.delete key) = .ok s'
      ∧ Models order lm nm s' (Function.update m key none) es' := by
  obtain ⟨root, h⟩ := s
  rcases hm.stored.find key with ⟨r, leaf, hr, hf⟩ | ⟨hno, leaf, hf⟩
  · cases hst : hm.stored with
    | empty => cases hr
    | @tree d t ht =>
        obtain ⟨leaf', h', hleaf, hs, hcase⟩ := deleteEntry_top b.three_le
          b.least_le b.leaf b.node ht hm.owns.nodup hr
        have hfl : leaf = some leaf' := by
          have o : Owns h (ids d t ++ []) := by simpa using ht.owns
          obtain ⟨l, hl, hfs⟩ := find_spec ht.rep ht.sorted o key
          have hll : l = leaf' := by
            have := hl.symm.trans hleaf
            simpa using this
          rcases hfs with ⟨q, -, hq⟩ | ⟨-, hq⟩
          · have := hq.symm.trans hf
            simp only [Except.ok.injEq, Prod.mk.injEq] at this
            rw [← this.2, hll]
          · have := hq.symm.trans hf
            simp at this
        rw [hfl] at hf
        rcases hcase with ⟨hrun, o', hes⟩ | ⟨d', t', hrun, ht', x, y, hx, hy⟩
        · rw [hes] at hm
          refine ⟨_, _, ?_, hm.remove (x := []) (y := []) (.empty o') hs⟩
          simp only [Call.run, delete, hf, ok_bind, hrun]
        · rw [hx] at hm
          have hst' := Stored.tree ht'
          rw [hy] at hst'
          refine ⟨_, _, ?_, hm.remove hst' hs⟩
          simp only [Call.run, delete, hf, ok_bind, hrun]
  · refine ⟨⟨root, h⟩, es, ?_, ?_⟩
    · cases root with
      | none => simp only [Call.run, delete, hf, ok_bind]
      | some rt => simp only [Call.run, delete, hf, ok_bind]
    · have hnone : m key = none := hm.reads.absent key hno
      rw [← hnone, Function.update_eq_self]
      exact hm

-- ============================================================= all calls

/-- Any legal call does to the map what it stands for. -/
theorem Op.run_models (b : Bounds order lm nm) {s : State} {m : Contents}
    {es : List (U64 × RecId)} (hm : Models order lm nm s m es) {op : Op}
    (hlegal : op.Legal m) :
    ∃ s' es', op.run order s = .ok s'
      ∧ Models order lm nm s' (op.replay m) es' := by
  cases op with
  | call c =>
      cases c with
      | insert key value => exact insert_models b hm key value
      | delete key => exact delete_models b hm key
  | insertUnique key value => exact insertUnique_models b hm hlegal value

/-- Every legal sequence of calls succeeds and keeps state and map in
step. -/
theorem runs_models (b : Bounds order lm nm) (ops : List Op) :
    ∀ {s : State} {m : Contents} {es : List (U64 × RecId)},
      Models order lm nm s m es → Legal ops m →
      ∃ s' es', runs order ops s = .ok s'
        ∧ Models order lm nm s' (replay ops m) es' := by
  induction ops with
  | nil => exact fun {s m es} hm _ => ⟨s, es, rfl, hm⟩
  | cons op ops ih =>
      intro s m es hm hlegal
      obtain ⟨s₁, es₁, hrun, hm₁⟩ := op.run_models b hm hlegal.1
      obtain ⟨s₂, es₂, hruns, hm₂⟩ := ih hm₁ hlegal.2
      refine ⟨s₂, es₂, ?_, hm₂⟩
      rw [runs, hrun, ok_bind, hruns]

/-- The occupancy bounds of the code itself. -/
theorem bounds_cut (horder : 3 ≤ order) :
    Bounds order (cut (order - 1)) (cut order - 1) := by
  have h₁ := cut_eq (order - 1)
  have h₂ := cut_eq order
  exact ⟨horder, by omega, by omega, Nat.le_refl _, Nat.le_refl _⟩

/-- Lookup after any sequence of `insert` and `delete` from the empty
tree answers the replayed map. -/
theorem lookup_runs (order : Nat) (horder : 3 ≤ order) (calls : List Call) :
    ∃ s, runs order (calls.map .call) State.empty = .ok s
      ∧ ∀ key, s.lookup key
          = .ok ((replay (calls.map .call) Contents.empty key).map
              Record.value) := by
  obtain ⟨s, es, hrun, hm⟩ := runs_models (bounds_cut horder)
    (calls.map .call) models_empty (legal_calls calls _)
  exact ⟨s, hrun, hm.lookup⟩

/-- Three keys at the smallest order split the first leaf, and deleting
one of them merges it back. -/
theorem lookup_runs_three :
    3 ≤ 3 ∧ ∃ s, runs 3 ([Call.insert 1 10, .insert 2 20, .insert 3 30,
          .delete 2].map .call) State.empty = .ok s
      ∧ ∀ key, s.lookup key
          = .ok ((replay ([Call.insert 1 10, .insert 2 20, .insert 3 30,
              .delete 2].map .call) Contents.empty key).map Record.value) :=
  ⟨Nat.le_refl 3, lookup_runs 3 (Nat.le_refl 3) _⟩

end ThesisBench.Btree

/-
`RelabelByDegree` renames the vertices of a graph.

The sorted pairs say which vertex gets which name (`byDegree`), and the
second loop turns that round (`newId`). The degrees in the new order are
the lengths of the new neighbourhoods, so their prefix sums are the
places where these start, and every iteration of the third loop stores
in a part of `neighs` that is its own (`Part`), whatever the order. The
new graph has the edges of the old one under the new names, and larger
degrees first (`Renamed`).
-/
import ThesisBench.Gapbs.Proofs.Csr
import ThesisBench.Gapbs.Tc

namespace ThesisBench.Gapbs.Tc

open Parallel Slots

variable {g : CSRGraph Nat} {m m' : Memory} {n u v k : Nat}

-- ============================================================ new names

/-- The pairs of the first loop. -/
def pairs (g : CSRGraph Nat) : List (Int × Nat) :=
  (List.range g.numNodes).map fun n => (g.outDegree n, n)

/-- The vertices in the order of their new names. -/
def byDegree (g : CSRGraph Nat) : List Nat := ((pairs g).mergeSort notAfter).map Prod.snd

/-- The new name of a vertex. -/
def newId (g : CSRGraph Nat) (u : Nat) : Nat := (byDegree g).idxOf u

/-- The neighbourhood of the vertex that gets the name `k`, under the new
names. -/
def renamed (g : CSRGraph Nat) (k : Nat) : List Nat :=
  (g.outs ((byDegree g).getD k 0)).map (newId g)

/-- The order by degrees is one of the vertices. -/
theorem byDegree_perm (g : CSRGraph Nat) : (byDegree g).Perm (List.range g.numNodes) := by
  have hperm := ((List.mergeSort_perm (pairs g) notAfter).map Prod.snd)
  have hsnd : (pairs g).map Prod.snd = List.range g.numNodes := by
    rw [pairs, List.map_map]
    exact List.map_id' _
  exact hsnd ▸ hperm

theorem length_byDegree (g : CSRGraph Nat) : (byDegree g).length = g.numNodes := by
  rw [(byDegree_perm g).length_eq, List.length_range]

theorem nodup_byDegree (g : CSRGraph Nat) : (byDegree g).Nodup :=
  (byDegree_perm g).nodup_iff.mpr List.nodup_range

theorem mem_byDegree : u ∈ byDegree g ↔ u < g.numNodes :=
  (byDegree_perm g).mem_iff.trans List.mem_range

theorem newId_lt (hu : u < g.numNodes) : newId g u < g.numNodes := by
  rw [← length_byDegree g]
  exact List.idxOf_lt_length_of_mem (mem_byDegree.mpr hu)

/-- The vertex that has the new name of `u` is `u`. -/
theorem byDegree_newId (hu : u < g.numNodes) : (byDegree g).getD (newId g u) 0 = u := by
  have hlt := List.idxOf_lt_length_of_mem (mem_byDegree.mpr hu)
  rw [List.getD_eq_getElem?_getD, newId, List.getElem?_eq_getElem hlt, Option.getD_some]
  exact List.getElem_idxOf hlt

theorem byDegree_lt (hk : k < g.numNodes) : (byDegree g).getD k 0 < g.numNodes := by
  rw [← length_byDegree g] at hk
  rw [List.getD_eq_getElem?_getD, List.getElem?_eq_getElem hk, Option.getD_some]
  exact mem_byDegree.mp (List.getElem_mem hk)

/-- The new name of the vertex that has the name `k` is `k`. -/
theorem newId_byDegree (hk : k < g.numNodes) : newId g ((byDegree g).getD k 0) = k := by
  rw [← length_byDegree g] at hk
  rw [List.getD_eq_getElem?_getD, List.getElem?_eq_getElem hk, Option.getD_some, newId]
  exact (nodup_byDegree g).idxOf_getElem k hk

theorem newId_inj (hu : u < g.numNodes) (hv : v < g.numNodes) (h : newId g u = newId g v) :
    u = v := by
  rw [← byDegree_newId hu, h, byDegree_newId hv]

theorem renamed_newId (hu : u < g.numNodes) :
    renamed g (newId g u) = (g.outs u).map (newId g) := by
  rw [renamed, byDegree_newId hu]

theorem notAfter_iff (a b : Int × Nat) : notAfter a b = true
    ↔ b.1 < a.1 ∨ (a.1 = b.1 ∧ b.2 ≤ a.2) := by
  rw [notAfter, Bool.or_eq_true, Bool.and_eq_true, decide_eq_true_eq, decide_eq_true_eq,
    decide_eq_true_eq]

theorem pairs_sorted (g : CSRGraph Nat) :
    ((pairs g).mergeSort notAfter).Pairwise fun a b => notAfter a b = true := by
  refine List.pairwise_mergeSort (fun a b c hab hbc => ?_) (fun a b => ?_) (pairs g)
  · rw [notAfter_iff] at *
    omega
  · rw [Bool.or_eq_true, notAfter_iff, notAfter_iff]
    omega

/-- The pair at a place says what the vertex there is. -/
theorem get_pairs (hk : k < g.numNodes) : ((pairs g).mergeSort notAfter)[k]?
    = some (g.outDegree ((byDegree g).getD k 0), (byDegree g).getD k 0) := by
  have hlen : k < ((pairs g).mergeSort notAfter).length := by
    rw [List.length_mergeSort, pairs, List.length_map, List.length_range]
    exact hk
  have hmem : ((pairs g).mergeSort notAfter)[k] ∈ pairs g :=
    List.mem_mergeSort.mp (List.getElem_mem hlen)
  obtain ⟨u, -, hu⟩ := List.mem_map.mp hmem
  have hsnd : (byDegree g).getD k 0 = u := by
    rw [List.getD_eq_getElem?_getD, byDegree, List.getElem?_map,
      List.getElem?_eq_getElem hlen, ← hu]
    rfl
  rw [List.getElem?_eq_getElem hlen, ← hu, hsnd]

-- ======================================================= the first loops

theorem total_assign {f : Memory → Option Memory} {q : Memory → Prop} (h : f m = some m')
    (hq : q m') : Total (assign f) m q :=
  total_act ⟨m', h⟩ fun _ h' => Option.some.inj (h.symm.trans h') ▸ hq

/-- The first loop leaves the pairs. -/
theorem pairLoop_total (hg : m.g = g) (hlen : m.degreeIdPairs.length = g.numNodes) :
    Total (vertexFor (once pairStep) fun n => (n, false)) m fun m' =>
      m'.g = g ∧ m'.degreeIdPairs = pairs g := by
  refine total_once (fun m => m.g = g ∧ m.degreeIdPairs.length = g.numNodes)
    (fun n _ => n < g.numNodes) (fun n m => m.degreeIdPairs[n]? = some (g.outDegree n, n))
    ?_ ?_ List.nodup_range ⟨hg, hlen⟩ (fun n hn => ?_) ?_
  · rintro n m ⟨rfl, hlen⟩ hn
    have hstep : pairStep n m
        = some { m with degreeIdPairs := m.degreeIdPairs.set n (m.g.outDegree n, n) } := by
      rw [pairStep, write_natCast (hlen ▸ hn)]
      rfl
    refine ⟨_, hstep, ⟨rfl, List.length_set.trans hlen⟩, ?_⟩
    exact List.getElem?_set_self (hlen ▸ hn)
  · rintro n k m m' hne ⟨rfl, hlen⟩ hk hstep
    rw [pairStep, write_natCast (hlen ▸ hk)] at hstep
    cases hstep
    exact ⟨id, fun h => (List.getElem?_set_ne (Ne.symm hne)).trans h⟩
  · rw [hg] at hn
    exact List.mem_range.mp hn
  · rintro m' ⟨hg', hlen'⟩ hall
    refine ⟨hg', List.ext_getElem? fun i => ?_⟩
    by_cases hi : i < g.numNodes
    · rw [hall i (hg ▸ List.mem_range.mpr hi), pairs, List.getElem?_map,
        List.getElem?_range hi]
      rfl
    · rw [List.getElem?_eq_none (hlen' ▸ Nat.le_of_not_lt hi), List.getElem?_eq_none]
      rw [pairs, List.length_map, List.length_range]
      exact Nat.le_of_not_lt hi

/-- A vertex has no more neighbours than there are vertices. -/
theorem Undirected.length_outs_le (hg : Undirected g) (hu : u < g.numNodes) :
    (g.outs u).length ≤ g.numNodes := by
  have hnodup : (g.outs u).Nodup := (hg.sorted u hu).imp fun hlt => hlt.ne
  have hsub : g.outs u ⊆ List.range g.numNodes := fun v hv =>
    List.mem_range.mpr (hg.outs_lt hu hv)
  have hle := (List.subperm_of_subset hnodup hsub).length_le
  rw [List.length_range] at hle
  exact hle

/-- A degree is a `NodeID`. -/
theorem Undirected.int32_outDegree (hg : Undirected g) (hn : g.numNodes + 1 < 2 ^ 31)
    (hk : k < g.numNodes) :
    int32 (g.outDegree ((byDegree g).getD k 0)) = ((renamed g k).length : Int) := by
  have hu := byDegree_lt hk
  have hle := hg.length_outs_le hu
  rw [← CSRGraph.length_outs (hg.outNeigh_eq hu), renamed, List.length_map]
  exact int32_of_lt (by omega)

/-- What the second loop leaves. -/
structure Named (g : CSRGraph Nat) (m : Memory) : Prop where
  graph : m.g = g
  degrees : m.degrees = (List.range g.numNodes).map fun k => some ((renamed g k).length : Int)
  newIds : m.newIds = (List.range g.numNodes).map fun u => some (newId g u)

/-- An iteration of the second loop names its vertex. -/
theorem idStep_eq (hp : m.degreeIdPairs = (pairs g).mergeSort notAfter)
    (hd : m.degrees.length = g.numNodes) (hi : m.newIds.length = g.numNodes)
    (hk : k < g.numNodes) : idStep k m = some { m with
      degrees := m.degrees.set k (some (int32 (g.outDegree ((byDegree g).getD k 0))))
      newIds := m.newIds.set ((byDegree g).getD k 0) (some k) } := by
  rw [idStep, hp, get_pairs hk, Option.bind_eq_bind, Option.bind_some, write_natCast (hd ▸ hk),
    Option.bind_eq_bind, Option.bind_some, write_natCast (hi ▸ byDegree_lt hk)]
  rfl

/-- The second loop leaves degrees and names. -/
theorem idLoop_total (hund : Undirected g) (hn : g.numNodes + 1 < 2 ^ 31) (hg : m.g = g)
    (hp : m.degreeIdPairs = (pairs g).mergeSort notAfter)
    (hd : m.degrees.length = g.numNodes) (hi : m.newIds.length = g.numNodes) :
    Total (vertexFor (once idStep) fun n => (n, false)) m (Named g) := by
  refine total_once (fun m => m.g = g ∧ m.degreeIdPairs = (pairs g).mergeSort notAfter
      ∧ m.degrees.length = g.numNodes ∧ m.newIds.length = g.numNodes)
    (fun k _ => k < g.numNodes)
    (fun k m => m.degrees[k]? = some (some (int32 (g.outDegree ((byDegree g).getD k 0))))
      ∧ m.newIds[(byDegree g).getD k 0]? = some (some k))
    ?_ ?_ List.nodup_range ⟨hg, hp, hd, hi⟩ (fun k hk => ?_) ?_
  · rintro k m ⟨hg, hp, hd, hi⟩ hk
    refine ⟨_, idStep_eq hp hd hi hk, ⟨hg, hp, List.length_set.trans hd,
      List.length_set.trans hi⟩, ?_, ?_⟩
    · exact List.getElem?_set_self (hd ▸ hk)
    · exact List.getElem?_set_self (hi ▸ byDegree_lt hk)
  · rintro k k' m m' hne ⟨hg, hp, hd, hi⟩ hk' hstep
    cases (idStep_eq hp hd hi hk').symm.trans hstep
    refine ⟨id, fun h => ⟨(List.getElem?_set_ne (Ne.symm hne)).trans h.1, ?_⟩⟩
    by_cases hk : k < g.numNodes
    · refine (List.getElem?_set_ne fun heq => hne ?_).trans h.2
      rw [← newId_byDegree hk, ← heq, newId_byDegree hk']
    · rw [List.getElem?_eq_none (hd ▸ Nat.le_of_not_lt hk)] at h
      cases h.1
  · rw [hg] at hk
    exact List.mem_range.mp hk
  · rintro m' ⟨hg', -, hd', hi'⟩ hall
    have hall : ∀ k < g.numNodes, _ := fun k hk => hall k (hg ▸ List.mem_range.mpr hk)
    refine ⟨hg', eq_map_range hd' fun k hk => ?_, eq_map_range hi' fun u hu => ?_⟩
    · rw [(hall k hk).1, hund.int32_outDegree hn hk]
    · have h := (hall _ (newId_lt hu)).2
      rw [byDegree_newId hu] at h
      exact h

-- ============================================================ the arrays

/-- Before the third loop. -/
structure Allocated (g : CSRGraph Nat) (m : Memory) : Prop where
  graph : m.g = g
  newIds : m.newIds = (List.range g.numNodes).map fun u => some (newId g u)
  index : m.index = (List.range (g.numNodes + 1)).map (start (renamed g))
  offsets : m.offsets = (List.range (g.numNodes + 1)).map (start (renamed g))
  neighs : m.neighs.length = (start (renamed g) g.numNodes).toNat

/-- The arrays of the third loop are set up. -/
theorem allocate_total (hn : g.numNodes + 1 < 2 ^ 31) (h : Named g m) :
    Total (assign allocate) m (Allocated g) := by
  have hmap : m.degrees.mapM id
      = some ((List.range g.numNodes).map fun k => ((renamed g k).length : Int)) := by
    have hsome := mapM_id_some ((List.range g.numNodes).map fun k => ((renamed g k).length : Int))
    rw [List.map_map] at hsome
    rw [h.degrees]
    exact hsome
  have hsize : ((List.range (g.numNodes + 1)).map (start (renamed g)))[g.numNodes]?
      = some (start (renamed g) g.numNodes) := by
    rw [List.getElem?_map, List.getElem?_range (Nat.lt_succ_self _)]
    rfl
  have halloc : allocate m = some { m with
      offsets := (List.range (g.numNodes + 1)).map (start (renamed g))
      neighs := List.replicate (start (renamed g) g.numNodes).toNat none
      index := genIndex ((List.range (g.numNodes + 1)).map (start (renamed g))) } := by
    rw [allocate, hmap, Option.bind_eq_bind, Option.bind_some]
    dsimp only
    rw [parallelPrefixSum_lengths, h.graph, hsize, Option.bind_eq_bind, Option.bind_some]
  refine total_assign halloc ⟨h.graph, h.newIds, genIndex_starts hn _, rfl, ?_⟩
  exact List.length_replicate

-- ======================================================= the third loop

/-- Where the neighbourhood of the new name `k` starts. -/
def placeOf (g : CSRGraph Nat) (k : Nat) : Nat := (start (renamed g) k).toNat

/-- Where a neighbourhood starts, as an integer. -/
theorem placeOf_eq (g : CSRGraph Nat) (k : Nat) : (placeOf g k : Int) = start (renamed g) k :=
  Int.toNat_of_nonneg (start_nonneg _ _)

/-- A neighbourhood starts where the one before ends. -/
theorem placeOf_succ (g : CSRGraph Nat) (k : Nat) :
    placeOf g (k + 1) = placeOf g k + (renamed g k).length := by
  have hsucc := start_succ (renamed g) k
  rw [← placeOf_eq, ← placeOf_eq] at hsucc
  omega

theorem placeOf_mono {k k' : Nat} (h : k ≤ k') : placeOf g k ≤ placeOf g k' := by
  induction h with
  | refl => exact Nat.le_refl _
  | step _ ih => exact ih.trans (placeOf_succ g _ ▸ Nat.le_add_right _ _)

/-- What an iteration has stored of its neighbourhood. -/
def Part (g : CSRGraph Nat) (m : Memory) (k : Nat) (l : List Nat) : Prop :=
  ∀ j x, l[j]? = some x → m.neighs[placeOf g k + j]? = some (some x)

/-- Elsewhere nothing is changed. -/
def Outside (g : CSRGraph Nat) (k : Nat) (m m' : Memory) : Prop :=
  ∀ i, i < placeOf g k ∨ placeOf g (k + 1) ≤ i → m'.neighs[i]? = m.neighs[i]?

/-- What is stored of one neighbourhood stays while another is at work. -/
theorem Part.frame {k' : Nat} {l : List Nat} (h : Part g m k l) (hout : Outside g k' m m')
    (hne : k ≠ k') (hlen : l.length ≤ (renamed g k).length) : Part g m' k l := by
  intro j x hx
  have hj := (List.getElem?_eq_some_iff.mp hx).1
  have hsucc := placeOf_succ g k
  refine (hout _ ?_).trans (h j x hx)
  rcases Nat.lt_or_gt_of_ne hne with hlt | hlt
  · have := placeOf_mono (g := g) (Nat.succ_le_of_lt hlt)
    rw [Nat.succ_eq_add_one] at this
    omega
  · have := placeOf_mono (g := g) (Nat.succ_le_of_lt hlt)
    rw [Nat.succ_eq_add_one] at this
    omega

/-- In the third loop. -/
structure Renaming (g : CSRGraph Nat) (m : Memory) : Prop where
  graph : m.g = g
  newIds : m.newIds = (List.range g.numNodes).map fun u => some (newId g u)
  index : m.index = (List.range (g.numNodes + 1)).map (start (renamed g))
  offsets : m.offsets.length = g.numNodes + 1
  neighs : m.neighs.length = placeOf g g.numNodes

theorem Renaming.fetch_newIds (h : Renaming g m) (hu : u < g.numNodes) :
    fetch m.newIds u = some (newId g u) := by
  rw [fetch_natCast, h.newIds, List.getElem?_map, List.getElem?_range hu]
  rfl

/-- What an iteration changes. -/
structure Moved (g : CSRGraph Nat) (k : Nat) (m m' : Memory) : Prop where
  inv : Renaming g m'
  outside : Outside g k m m'
  offsets : ∀ k', k' ≠ k → m'.offsets[k']? = m.offsets[k']?

/-- A store puts the next neighbour in its place. -/
theorem Renaming.store (h : Renaming g m) (hund : Undirected g) (hu : u < g.numNodes)
    {pre vs : List Nat} (houts : g.outs u = pre ++ v :: vs)
    (hoff : m.offsets[newId g u]? = some (start (renamed g) (newId g u) + pre.length))
    (hpart : Part g m (newId g u) (pre.map (newId g))) :
    ∃ m', m.store u v = some m' ∧ Moved g (newId g u) m m'
      ∧ m'.offsets[newId g u]? = some (start (renamed g) (newId g u) + (pre ++ [v]).length)
      ∧ Part g m' (newId g u) ((pre ++ [v]).map (newId g)) := by
  have hv : v < g.numNodes := hund.outs_lt hu (houts ▸ List.mem_append_right _ List.mem_cons_self)
  have hk := newId_lt hu
  have hlen : (renamed g (newId g u)).length = pre.length + (vs.length + 1) := by
    rw [renamed_newId hu, List.length_map, houts, List.length_append, List.length_cons]
  have hsucc := placeOf_succ g (newId g u)
  have hmono := placeOf_mono (g := g) (Nat.succ_le_of_lt hk)
  have hplace : start (renamed g) (newId g u) + pre.length
      = ((placeOf g (newId g u) + pre.length : Nat) : Int) := by
    rw [Nat.cast_add, placeOf_eq]
  have hlt : placeOf g (newId g u) + pre.length < m.neighs.length := by
    rw [h.neighs]
    rw [Nat.succ_eq_add_one] at hmono
    omega
  have hstore : m.store u v = some { m with
      neighs := m.neighs.set (placeOf g (newId g u) + pre.length) (some (newId g v))
      offsets := m.offsets.set (newId g u) (start (renamed g) (newId g u) + pre.length + 1) } := by
    simp only [Memory.store, h.fetch_newIds hu, h.fetch_newIds hv, hoff, Option.bind_eq_bind,
      Option.bind_some]
    rw [hplace, write_natCast hlt]
    rfl
  refine ⟨_, hstore, ⟨⟨h.graph, h.newIds, h.index, List.length_set.trans h.offsets,
    List.length_set.trans h.neighs⟩, fun i hi => ?_, fun k' hk' => ?_⟩, ?_, ?_⟩
  · exact List.getElem?_set_ne (by omega)
  · exact List.getElem?_set_ne (Ne.symm hk')
  · rw [List.getElem?_set_self (h.offsets ▸ Nat.lt_succ_of_lt hk), List.length_append,
      List.length_singleton, Nat.cast_add, Nat.cast_one, Int.add_assoc]
  · intro j x hx
    rw [List.map_append, List.map_singleton] at hx
    by_cases hj : j < (pre.map (newId g)).length
    · rw [List.getElem?_append_left hj] at hx
      rw [List.length_map] at hj
      exact (List.getElem?_set_ne (by omega)).trans (hpart j x hx)
    · have hjl := (List.getElem?_eq_some_iff.mp hx).1
      rw [List.length_append, List.length_singleton] at hjl
      have hj : j = (pre.map (newId g)).length := by omega
      subst hj
      rw [List.getElem?_concat_length] at hx
      rw [List.length_map, List.getElem?_set_self hlt, ← hx]

/-- A list with a part of it replaced. -/
theorem getElem?_splice {α : Type} {l mid : List α} {a : Nat} (ha : a + mid.length ≤ l.length)
    (i : Nat) : (l.take a ++ mid ++ l.drop (a + mid.length))[i]?
      = if a ≤ i ∧ i < a + mid.length then mid[i - a]? else l[i]? := by
  have hleft : (l.take a).length = a := by
    rw [List.length_take]
    omega
  have hmid : (l.take a ++ mid).length = a + mid.length := by
    rw [List.length_append, hleft]
  by_cases hi : i < a
  · rw [if_neg (by omega), List.getElem?_append_left (by omega),
      List.getElem?_append_left (by omega), List.getElem?_take_of_lt hi]
  · by_cases hi' : i < a + mid.length
    · rw [if_pos ⟨Nat.le_of_not_lt hi, hi'⟩, List.getElem?_append_left (by omega),
        List.getElem?_append_right (by omega), hleft]
    · rw [if_neg (fun hc => hi' hc.2), List.getElem?_append_right (by omega), hmid,
        List.getElem?_drop]
      exact congrArg (l[·]?) (by omega)

/-- The whole neighbourhood can be read. -/
theorem Renaming.slice_part (h : Renaming g m) (hk : k < g.numNodes) {l : List Nat}
    (hlen : l.length = (renamed g k).length) (hpart : Part g m k l) :
    slice m.neighs (start (renamed g) k) (start (renamed g) (k + 1)) = some (l.map some) := by
  have hsucc := placeOf_succ g k
  have hmono := placeOf_mono (g := g) (Nat.succ_le_of_lt hk)
  rw [Nat.succ_eq_add_one, ← h.neighs] at hmono
  have hcount : ((placeOf g (k + 1) : Int) - placeOf g k).toNat = l.length := by omega
  rw [← placeOf_eq, ← placeOf_eq, slice, if_pos ⟨by omega, by omega, by omega⟩, hcount,
    Int.toNat_natCast]
  refine congrArg some (List.ext_getElem? fun j => ?_)
  rw [List.getElem?_take, List.getElem?_map, List.getElem?_drop]
  by_cases hj : j < l.length
  · rw [if_pos hj, hpart j l[j] (List.getElem?_eq_getElem hj), List.getElem?_eq_getElem hj]
    rfl
  · rw [if_neg hj, List.getElem?_eq_none (Nat.le_of_not_lt hj)]
    rfl

/-- The sort leaves the neighbourhood in order. -/
theorem Renaming.sort (h : Renaming g m) (hu : u < g.numNodes)
    (hpart : Part g m (newId g u) (renamed g (newId g u))) :
    ∃ m', m.sort u = some m' ∧ Moved g (newId g u) m m'
      ∧ Part g m' (newId g u) ((renamed g (newId g u)).mergeSort DestID.le) := by
  have hk := newId_lt hu
  have hsucc := placeOf_succ g (newId g u)
  have hmono := placeOf_mono (g := g) (Nat.succ_le_of_lt hk)
  rw [Nat.succ_eq_add_one, ← h.neighs] at hmono
  have hindex : ∀ {k}, k ≤ g.numNodes → m.index[k]? = some (start (renamed g) k) := by
    intro k hk
    rw [h.index, List.getElem?_map, List.getElem?_range (Nat.lt_succ_of_le hk)]
    rfl
  have hslen : (((renamed g (newId g u)).mergeSort DestID.le).map some).length
      = (renamed g (newId g u)).length := by
    rw [List.length_map, List.length_mergeSort]
  have hnext : (start (renamed g) (newId g u + 1)).toNat = placeOf g (newId g u)
      + (((renamed g (newId g u)).mergeSort DestID.le).map some).length := by
    rw [hslen]
    exact hsucc
  have hsort : m.sort u = some { m with
      neighs := m.neighs.take (placeOf g (newId g u))
        ++ ((renamed g (newId g u)).mergeSort DestID.le).map some
        ++ m.neighs.drop (placeOf g (newId g u)
          + (((renamed g (newId g u)).mergeSort DestID.le).map some).length) } := by
    simp only [Memory.sort, sortRange, h.fetch_newIds hu, hindex hk.le, hindex hk,
      h.slice_part hk rfl hpart, mapM_id_some, Option.bind_eq_bind, Option.bind_some, hnext]
    rfl
  have hfit : placeOf g (newId g u)
      + (((renamed g (newId g u)).mergeSort DestID.le).map some).length ≤ m.neighs.length := by
    rw [hslen]
    omega
  refine ⟨_, hsort, ⟨⟨h.graph, h.newIds, h.index, h.offsets, ?_⟩, fun i hi => ?_,
    fun _ _ => rfl⟩, fun j x hx => ?_⟩
  · rw [← h.neighs, List.length_append, List.length_append, List.length_take, List.length_drop]
    omega
  · refine (getElem?_splice hfit i).trans (if_neg ?_)
    rw [hslen]
    omega
  · have hj := (List.getElem?_eq_some_iff.mp hx).1
    rw [List.length_mergeSort] at hj
    refine (getElem?_splice hfit _).trans ?_
    rw [if_pos ⟨Nat.le_add_right _ _, by rw [hslen]; omega⟩, Nat.add_sub_cancel_left,
      List.getElem?_map, hx]
    rfl

/-- What an iteration has done where it stands. -/
def At.Knows (g : CSRGraph Nat) (u : Nat) (m : Memory) : At → Prop
  | .next => m.offsets[newId g u]? = some (start (renamed g) (newId g u))
  | .copy vs => ∃ pre, g.outs u = pre ++ vs
      ∧ m.offsets[newId g u]? = some (start (renamed g) (newId g u) + pre.length)
      ∧ Part g m (newId g u) (pre.map (newId g))
  | .done => Part g m (newId g u) ((renamed g (newId g u)).mergeSort DestID.le)

/-- What is left of an iteration. -/
def At.left (g : CSRGraph Nat) (u : Nat) : At → Nat
  | .next => (g.outs u).length + 2
  | .copy vs => vs.length + 1
  | .done => 0

/-- What an iteration knows stays true while another is at work. -/
theorem At.Knows.frame {c : At} (h : c.Knows g u m) {k' : Nat} (hmove : Moved g k' m m')
    (hu : u < g.numNodes) (hne : newId g u ≠ k') : c.Knows g u m' := by
  have hlen : ∀ {pre vs : List Nat}, g.outs u = pre ++ vs →
      (pre.map (newId g)).length ≤ (renamed g (newId g u)).length := by
    intro pre vs houts
    rw [renamed_newId hu, List.length_map, List.length_map, houts, List.length_append]
    exact Nat.le_add_right _ _
  cases c with
  | next => exact (hmove.offsets _ hne).trans h
  | copy vs =>
      obtain ⟨pre, houts, hoff, hpart⟩ := h
      exact ⟨pre, houts, (hmove.offsets _ hne).trans hoff,
        hpart.frame hmove.outside hne (hlen houts)⟩
  | done => exact Part.frame h hmove.outside hne (List.length_mergeSort _).le

/-- A step of an iteration. -/
theorem relabelNext_spec (hund : Undirected g) (h : Renaming g m) (hu : u < g.numNodes) {c : At}
    (hc : c.Knows g u m) (hd : c ≠ .done) :
    ∃ c' m', relabelNext u c m = some (c', m') ∧ Moved g (newId g u) m m' ∧ c'.Knows g u m'
      ∧ c'.left g u < c.left g u := by
  have hsame : Moved g (newId g u) m m := ⟨h, fun _ _ => rfl, fun _ _ => rfl⟩
  cases c with
  | next =>
      have hstep : relabelNext u .next m = some (.copy (g.outs u), m) := by
        rw [relabelNext, h.graph, hund.outNeigh_eq hu]
        rfl
      refine ⟨_, _, hstep, hsame, ⟨[], rfl, ?_, fun j x hx => by cases hx⟩, Nat.lt_succ_self _⟩
      exact hc.trans (congrArg some (Int.add_zero _).symm)
  | copy vs =>
      obtain ⟨pre, houts, hoff, hpart⟩ := hc
      cases vs with
      | nil =>
          rw [List.append_nil] at houts
          rw [← houts, ← renamed_newId hu] at hpart
          obtain ⟨m', hstep, hmove, hpart'⟩ := h.sort hu hpart
          exact ⟨.done, m', by rw [relabelNext, hstep]; rfl, hmove, hpart', Nat.lt_succ_self _⟩
      | cons v vs =>
          obtain ⟨m', hstep, hmove, hoff', hpart'⟩ := h.store hund hu houts hoff hpart
          refine ⟨.copy vs, m', by rw [relabelNext, hstep]; rfl, hmove,
            ⟨pre ++ [v], ?_, hoff', hpart'⟩, Nat.lt_succ_self _⟩
          rw [houts, List.append_assoc]
          rfl
  | done => exact absurd rfl hd

/-- The third loop, for any order of its stores and sorts. -/
def relabelOutline (hund : Undirected g) : Outline relabelTasks Nat where
  tag l := l.1
  inv m := Renaming g m
  asserts l m := l.1 < g.numNodes ∧ l.2.Knows g l.1 m
  left l _ := l.2.left g l.1
  moves := by
    intro l m hinv hl hd
    obtain ⟨c, m', hstep, -⟩ := relabelNext_spec hund hinv hl.1 hl.2 (of_decide_eq_false hd)
    refine ⟨(l.1, c), m', ?_⟩
    simp only [relabelTasks, hstep, Option.map_some]
  own := by
    intro l m l' m' hinv hl hnext
    obtain ⟨c, hc, heq⟩ := Option.map_eq_some_iff.mp hnext
    have hd : l.2 ≠ .done := by
      intro hd
      rw [hd] at hc
      cases hc
    obtain ⟨c', m₁, hstep, hmove, hknows, hleft⟩ := relabelNext_spec hund hinv hl.1 hl.2 hd
    cases hstep.symm.trans hc
    cases heq
    exact ⟨hmove.inv, ⟨hl.1, hknows⟩, rfl, hleft⟩
  other := by
    intro l x m x' m' hinv hl hx hne hnext
    obtain ⟨c, hc, heq⟩ := Option.map_eq_some_iff.mp hnext
    have hd : x.2 ≠ .done := by
      intro hd
      rw [hd] at hc
      cases hc
    obtain ⟨c', m₁, hstep, hmove, -⟩ := relabelNext_spec hund hinv hx.1 hx.2 hd
    cases hstep.symm.trans hc
    cases heq
    exact ⟨⟨hl.1, hl.2.frame hmove hl.1 fun hid => hne (newId_inj hl.1 hx.1 hid)⟩,
      Nat.le_refl _⟩

/-- The third loop leaves all neighbourhoods, sorted. -/
theorem relabelLoop_total (hund : Undirected g) (h : Allocated g m) :
    Total (vertexFor relabelTasks fun u => (u, .next)) m fun m' =>
      Renaming g m' ∧ ∀ u < g.numNodes,
        Part g m' (newId g u) ((renamed g (newId g u)).mergeSort DestID.le) := by
  have hlen : m.offsets.length = g.numNodes + 1 := by
    rw [h.offsets, List.length_map, List.length_range]
  have hoff : ∀ {k}, k ≤ g.numNodes → m.offsets[k]? = some (start (renamed g) k) := by
    intro k hk
    rw [h.offsets, List.getElem?_map, List.getElem?_range (Nat.lt_succ_of_le hk)]
    rfl
  refine (relabelOutline hund).forEach ?_ ⟨h.graph, h.newIds, h.index, hlen, h.neighs⟩
    (fun u hu => ?_) fun m' hinv hall => ⟨hinv, fun u hu => ?_⟩
  · simp only [relabelOutline, List.map_id']
    exact List.nodup_range
  · rw [h.graph] at hu
    have hu := List.mem_range.mp hu
    exact ⟨hu, hoff (newId_lt hu).le⟩
  · obtain ⟨⟨w, c⟩, htag, hasserts, hdone⟩ := hall u (h.graph ▸ List.mem_range.mpr hu)
    obtain rfl : w = u := htag
    obtain rfl : c = .done := of_decide_eq_true hdone
    exact hasserts.2

-- ========================================================= the new graph

/-- The graph `g` under the names `f`: the first names go to the largest
degrees, and among equal ones to the vertices that were last. -/
structure Renamed (g : CSRGraph Nat) (f : Nat → Nat) (g' : CSRGraph Nat) : Prop where
  lt : ∀ u < g.numNodes, f u < g.numNodes
  inj : ∀ u < g.numNodes, ∀ v < g.numNodes, f u = f v → u = v
  onto : ∀ k < g.numNodes, ∃ u < g.numNodes, f u = k
  undirected : Undirected g'
  directed : g'.directed = false
  numNodes : g'.numNodes = g.numNodes
  edges : ∀ u < g.numNodes, ∀ v < g.numNodes, v ∈ g.outs u ↔ f v ∈ g'.outs (f u)
  order : ∀ u < g.numNodes, ∀ v < g.numNodes, f u < f v
    ↔ (g.outs v).length < (g.outs u).length
      ∨ ((g.outs v).length = (g.outs u).length ∧ v < u)

/-- The pairs are sorted, so the names follow the degrees. -/
theorem newId_order (hund : Undirected g) (hu : u < g.numNodes) (hv : v < g.numNodes) :
    newId g u < newId g v ↔ (g.outs v).length < (g.outs u).length
      ∨ ((g.outs v).length = (g.outs u).length ∧ v < u) := by
  have hpair : ∀ {x}, x < g.numNodes → ((pairs g).mergeSort notAfter)[newId g x]?
      = some (((g.outs x).length : Int), x) := by
    intro x hx
    rw [get_pairs (newId_lt hx), byDegree_newId hx,
      ← CSRGraph.length_outs (hund.outNeigh_eq hx)]
  have hle : ∀ {x y}, x < g.numNodes → y < g.numNodes → newId g x < newId g y →
      (g.outs y).length < (g.outs x).length
        ∨ ((g.outs y).length = (g.outs x).length ∧ y < x) := by
    intro x y hx hy hlt
    obtain ⟨hx', hgetx⟩ := List.getElem?_eq_some_iff.mp (hpair hx)
    obtain ⟨hy', hgety⟩ := List.getElem?_eq_some_iff.mp (hpair hy)
    have hxy := List.pairwise_iff_getElem.mp (pairs_sorted g) _ _ hx' hy' hlt
    rw [hgetx, hgety, notAfter_iff] at hxy
    have hne : y ≠ x := by
      rintro rfl
      exact Nat.lt_irrefl _ hlt
    dsimp only at hxy
    omega
  refine ⟨hle hu hv, fun h => ?_⟩
  by_contra hge
  have hne : newId g v ≠ newId g u := by
    intro heq
    obtain rfl := newId_inj hv hu heq
    omega
  have := hle hv hu (by omega)
  omega

/-- What the constructor makes of the arrays. -/
theorem Renaming.graph_spec (h : Renaming g m) (hpart : ∀ u < g.numNodes,
      Part g m (newId g u) ((renamed g (newId g u)).mergeSort DestID.le)) :
    ∃ g', CSRGraph.undirected g.numNodes ⟨m.index, m.neighs⟩ = some g'
      ∧ g'.directed = false ∧ g'.numNodes = g.numNodes
      ∧ ∀ k < g.numNodes, g'.outNeigh k = some ((renamed g k).mergeSort DestID.le) := by
  have hindex : ∀ {k}, k ≤ g.numNodes → m.index[k]? = some (start (renamed g) k) := by
    intro k hk
    rw [h.index, List.getElem?_map, List.getElem?_range (Nat.lt_succ_of_le hk)]
    rfl
  have hsize : (⟨m.index, m.neighs⟩ : Csr Nat).size g.numNodes
      = some (start (renamed g) g.numNodes - start (renamed g) 0) := by
    simp only [Csr.size, hindex (Nat.le_refl _), hindex (Nat.zero_le _), Option.bind_eq_bind,
      Option.bind_some, Option.pure_def]
  have hgraph : CSRGraph.undirected g.numNodes ⟨m.index, m.neighs⟩ = some ⟨false, g.numNodes,
      (start (renamed g) g.numNodes - start (renamed g) 0).tdiv 2, ⟨m.index, m.neighs⟩,
      ⟨m.index, m.neighs⟩⟩ := by
    rw [CSRGraph.undirected, hsize]
    rfl
  refine ⟨_, hgraph, rfl, rfl, fun k hk => ?_⟩
  have hown := hpart _ (byDegree_lt hk)
  rw [newId_byDegree hk] at hown
  simp only [CSRGraph.outNeigh, Csr.neigh, hindex hk.le, hindex (Nat.succ_le_of_lt hk),
    h.slice_part hk (List.length_mergeSort _) hown, mapM_id_some, Option.bind_eq_bind,
    Option.bind_some]

/-- A graph with these neighbourhoods is the renamed one. -/
theorem renamed_of_outNeigh (hund : Undirected g) {g' : CSRGraph Nat}
    (hdir : g'.directed = false) (hnum : g'.numNodes = g.numNodes)
    (hneigh : ∀ k < g.numNodes, g'.outNeigh k = some ((renamed g k).mergeSort DestID.le)) :
    Renamed g (newId g) g' := by
  have houts : ∀ {k}, k < g.numNodes → g'.outs k = (renamed g k).mergeSort DestID.le := by
    intro k hk
    rw [CSRGraph.outs, hneigh k hk, Option.getD_some]
  -- a neighbour under its new name
  have hmem : ∀ {u x}, u < g.numNodes →
      (x ∈ g'.outs (newId g u) ↔ ∃ v ∈ g.outs u, newId g v = x) := by
    intro u x hu
    rw [houts (newId_lt hu), List.mem_mergeSort, renamed_newId hu, List.mem_map]
  have hedges : ∀ {u v}, u < g.numNodes → v < g.numNodes →
      (v ∈ g.outs u ↔ newId g v ∈ g'.outs (newId g u)) := by
    intro u v hu hv
    rw [hmem hu]
    constructor
    · exact fun h => ⟨v, h, rfl⟩
    · rintro ⟨w, hw, heq⟩
      rw [← newId_inj (hund.outs_lt hu hw) hv heq]
      exact hw
  have hold : ∀ {k}, k < g.numNodes → ∃ u < g.numNodes, newId g u = k := fun hk =>
    ⟨_, byDegree_lt hk, newId_byDegree hk⟩
  have hlt : ∀ {k x}, k < g.numNodes → x ∈ g'.outs k → x < g.numNodes := by
    intro k x hk hx
    obtain ⟨u, hu, rfl⟩ := hold hk
    obtain ⟨v, hv, rfl⟩ := (hmem hu).mp hx
    exact newId_lt (hund.outs_lt hu hv)
  have hund' : Undirected g' := by
    refine ⟨fun k hk => ?_, fun k hk => ?_, fun k hk hloop => ?_, fun k hk x hx => ?_⟩
    all_goals rw [hnum] at hk
    · rw [hnum]
      refine ⟨g'.outs k, ?_, fun x hx => hlt hk hx⟩
      rw [houts hk]
      exact hneigh k hk
    · obtain ⟨u, hu, rfl⟩ := hold hk
      have hnodup : (g'.outs (newId g u)).Nodup := by
        rw [houts hk, (List.mergeSort_perm _ _).nodup_iff, renamed_newId hu]
        refine List.Nodup.map_on (fun x hx y hy heq => ?_)
          ((hund.sorted u hu).imp fun hlt => hlt.ne)
        exact newId_inj (hund.outs_lt hu hx) (hund.outs_lt hu hy) heq
      have hle : (g'.outs (newId g u)).Pairwise fun a b => DestID.le a b = true := by
        rw [houts hk]
        exact List.pairwise_mergeSort DestID.le_trans DestID.le_total _
      refine (hle.and hnodup).imp fun {a b} hab => ?_
      have := of_decide_eq_true hab.1
      have := hab.2
      omega
    · obtain ⟨u, hu, rfl⟩ := hold hk
      exact hund.loopless u hu ((hedges hu hu).mpr hloop)
    · obtain ⟨u, hu, rfl⟩ := hold hk
      obtain ⟨v, hv, rfl⟩ := (hmem hu).mp hx
      have hv' := hund.outs_lt hu hv
      exact (hedges hv' hu).mp (hund.symm u hu v hv)
  exact ⟨fun _ => newId_lt, fun _ hu _ hv => newId_inj hu hv, fun _ => hold, hund', hdir, hnum,
    fun _ hu _ hv => hedges hu hv, fun _ hu _ hv => newId_order hund hu hv⟩

/-- `RelabelByDegree` ends with the renamed graph. -/
theorem relabelByDegree_total (hund : Undirected m.g) (hdir : m.g.directed = false)
    (hn : m.g.numNodes + 1 < 2 ^ 31) :
    Total relabelByDegree m fun m' => Renamed m.g (newId m.g) m'.g := by
  simp only [relabelByDegree, Prog.seqs]
  have hstays : (if m.g.directed then none else some m) = some m := by
    rw [hdir]
    rfl
  refine Total.seq (q := fun m' => m = m') (total_assign hstays rfl) ?_
  rintro _ rfl
  refine Total.seq (q := fun m' => m'.g = m.g ∧ m'.degreeIdPairs.length = m.g.numNodes)
    (total_assign rfl ⟨rfl, List.length_replicate⟩) fun m₁ h₁ => ?_
  refine (pairLoop_total h₁.1 h₁.2).seq fun m₂ h₂ => ?_
  refine Total.seq
    (q := fun m' => m'.g = m.g ∧ m'.degreeIdPairs = (pairs m.g).mergeSort notAfter)
    (total_assign rfl ⟨h₂.1, h₂.2 ▸ rfl⟩) fun m₃ h₃ => ?_
  refine Total.seq (q := fun m' => m'.g = m.g
      ∧ m'.degreeIdPairs = (pairs m.g).mergeSort notAfter
      ∧ m'.degrees.length = m.g.numNodes ∧ m'.newIds.length = m.g.numNodes)
    (total_assign rfl ⟨h₃.1, h₃.2, h₃.1 ▸ List.length_replicate, h₃.1 ▸ List.length_replicate⟩)
    fun m₄ h₄ => ?_
  refine (idLoop_total hund hn h₄.1 h₄.2.1 h₄.2.2.1 h₄.2.2.2).seq fun m₅ h₅ => ?_
  refine (allocate_total hn h₅).seq fun m₆ h₆ => ?_
  refine (relabelLoop_total hund h₆).seq fun m₇ h₇ => ?_
  obtain ⟨g', hgraph, hdir, hnum, hneigh⟩ := h₇.1.graph_spec h₇.2
  have hstep : (CSRGraph.undirected m₇.g.numNodes ⟨m₇.index, m₇.neighs⟩).map
      (fun g => { m₇ with g }) = some { m₇ with g := g' } := by
    rw [h₇.1.graph, hgraph]
    rfl
  refine Total.seq (q := fun m' => Renamed m.g (newId m.g) m'.g)
    (total_assign hstep (renamed_of_outNeigh hund hdir hnum hneigh)) fun m₈ h₈ => ?_
  exact total_act ⟨m₈, rfl⟩ fun m' hm' => hm' ▸ h₈

/-- Whatever the order of the stores and sorts, the graph is the old one
under new names. -/
theorem relabelByDegree_renamed (hund : Undirected m.g) (hdir : m.g.directed = false)
    (hn : m.g.numNodes + 1 < 2 ^ 31) :
    Ends (fun m' => ∃ f, Renamed m.g f m'.g) ([relabelByDegree], m) :=
  (relabelByDegree_total hund hdir hn).ends.mono fun _ h => ⟨newId m.g, h⟩

/-- A triangle with a vertex beside it. -/
def kite : CSRGraph Nat where
  directed := false
  numNodes := 4
  numEdges := 4
  outgoing := ⟨[0, 2, 4, 7, 8], [some 1, some 2, some 0, some 2, some 0, some 1, some 3, some 2]⟩
  incoming := ⟨[0, 2, 4, 7, 8], [some 1, some 2, some 0, some 2, some 0, some 1, some 3, some 2]⟩

theorem kite_undirected : Undirected kite := by
  refine ⟨fun u hu => ?_, by decide, by decide, by decide⟩
  match u, hu with
  | 0, _ => exact ⟨_, rfl, by decide⟩
  | 1, _ => exact ⟨_, rfl, by decide⟩
  | 2, _ => exact ⟨_, rfl, by decide⟩
  | 3, _ => exact ⟨_, rfl, by decide⟩

/-- A memory with nothing in it but the graph. -/
def ofGraph (g : CSRGraph Nat) : Memory := ⟨g, [], [], [], [], [], [], 0⟩

theorem relabelByDegree_kite :
    Ends (fun m' => ∃ f, Renamed kite f m'.g) ([relabelByDegree], ofGraph kite) :=
  relabelByDegree_renamed (m := ofGraph kite) kite_undirected rfl (by decide)

end ThesisBench.Gapbs.Tc

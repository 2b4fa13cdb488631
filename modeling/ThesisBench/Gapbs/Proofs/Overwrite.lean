/-
The edges in place, overwritten with their neighbours.

What stays of the list is sorted by source, so the loop writes the
`i`-th neighbour to the `i`-th word when it has read the words `2 i` and
`2 i + 1`: no edge is lost (`overwrite_run`). The words at the front are
then the outgoing lists one after the other, and the offsets, shifted
down, are the places where these start (`overwrite_eq`,
`revertOffsets_eq`). For a graph that is not symmetrized the incoming
lists are filled from the outgoing ones (`makeCSRInPlace_directed`).
-/
import ThesisBench.Gapbs.InPlace
import ThesisBench.Gapbs.Proofs.Builder

namespace ThesisBench.Gapbs

open Slots

-- ============================================================ the edges

/-- The order of edges, by source and then by destination. -/
theorem Edge.le_iff (a b : Edge Nat) :
    a.le b = true ↔ a.u < b.u ∨ (a.u = b.u ∧ a.v ≤ b.v) := by
  unfold Edge.le
  split <;> rw [decide_eq_true_eq] <;> omega

/-- `operator<` of `EdgePair` -/
def Edge.Before (a b : Edge Nat) : Prop := a.u < b.u ∨ (a.u = b.u ∧ a.v < b.v)

/-- Different edges in order are strictly in order. -/
theorem Edge.before_of_le {a b : Edge Nat} (h : a.le b = true) (hne : a ≠ b) : a.Before b := by
  rcases (Edge.le_iff a b).mp h with hlt | ⟨hu, hv⟩
  · exact Or.inl hlt
  · refine Or.inr ⟨hu, Nat.lt_of_le_of_ne hv fun heq => hne ?_⟩
    cases a
    cases b
    cases hu
    cases heq
    rfl

instance : IsTrans (Edge Nat) Edge.Before where
  trans a b c hab hbc := by
    unfold Edge.Before at *
    omega

/-- Removing repeats keeps the values. -/
theorem mem_destutter' {α : Type} [DecidableEq α] {x : α} (l : List α) : ∀ a : α,
    x ∈ l.destutter' (· ≠ ·) a ↔ x = a ∨ x ∈ l := by
  induction l with
  | nil =>
      intro a
      rw [List.destutter'_nil, List.mem_singleton]
      simp
  | cons b l ih =>
      intro a
      by_cases hab : a = b
      · subst hab
        rw [List.destutter'_cons_neg (R := (· ≠ ·)) (h := fun hne => hne rfl), ih, List.mem_cons]
        tauto
      · rw [List.destutter'_cons_pos (R := (· ≠ ·)) (h := hab), List.mem_cons, ih, List.mem_cons]

theorem mem_destutter {α : Type} [DecidableEq α] {x : α} (l : List α) :
    x ∈ l.destutter (· ≠ ·) ↔ x ∈ l := by
  cases l with
  | nil => rfl
  | cons a l => rw [List.destutter_cons', mem_destutter', List.mem_cons]

/-- `SquishEdges` keeps every edge that is no loop. -/
theorem mem_squishEdges {el : List (Edge Nat)} {e : Edge Nat} :
    e ∈ squishEdges el ↔ e ∈ el ∧ e.u ≠ e.v := by
  rw [squishEdges, List.mem_filter, mem_destutter, List.mem_mergeSort, decide_eq_true_eq]

/-- `SquishEdges` leaves the edges strictly in order. -/
theorem pairwise_squishEdges (el : List (Edge Nat)) :
    (squishEdges el).Pairwise Edge.Before := by
  have hle : ((el.mergeSort Edge.le).destutter (· ≠ ·)).Pairwise fun a b => a.le b = true := by
    refine List.Pairwise.sublist (List.destutter_sublist _ _) ?_
    refine List.pairwise_mergeSort ?_ ?_ el
    · intro a b c hab hbc
      rw [Edge.le_iff] at *
      omega
    · intro a b
      rw [Bool.or_eq_true, Edge.le_iff, Edge.le_iff]
      omega
  have hne := List.isChain_iff_getElem.mp
    (List.isChain_destutter (R := (· ≠ ·)) (el.mergeSort Edge.le))
  refine List.Pairwise.filter _ (List.isChain_iff_pairwise.mp ?_)
  refine List.isChain_iff_getElem.mpr fun i hi => ?_
  exact Edge.before_of_le (List.pairwise_iff_getElem.mp hle i (i + 1) (by omega) hi (by omega))
    (hne i hi)

/-- The list loses edges only. -/
theorem count_squishEdges_le (el : List (Edge Nat)) (g : Edge Nat → Nat) (u : Nat) :
    ((squishEdges el).map g).count u ≤ (el.map g).count u := by
  have hsub : (squishEdges el).Sublist (el.mergeSort Edge.le) :=
    List.filter_sublist.trans (List.destutter_sublist _ _)
  rw [← ((List.mergeSort_perm el Edge.le).map g).count_eq]
  exact (hsub.map g).count_le u

-- ============================================================ the lists

/-- The neighbours of each vertex, in the order of the edges. -/
def outLists (es : List (Edge Nat)) : Nat → List Nat := run (es.map fun e => (e.u, e.v))

def inLists (es : List (Edge Nat)) : Nat → List Nat := run (es.map fun e => (e.v, e.u))

variable {es : List (Edge Nat)} {n : Nat}

theorem mem_outLists {u v : Nat} : v ∈ outLists es u ↔ ⟨u, v⟩ ∈ es := by
  rw [outLists, mem_run, List.mem_map]
  constructor
  · rintro ⟨⟨x, y⟩, he, heq⟩
    cases heq
    exact he
  · exact fun he => ⟨_, he, rfl⟩

theorem mem_inLists {u v : Nat} : u ∈ inLists es v ↔ ⟨u, v⟩ ∈ es := by
  rw [inLists, mem_run, List.mem_map]
  constructor
  · rintro ⟨⟨x, y⟩, he, heq⟩
    cases heq
    exact he
  · exact fun he => ⟨_, he, rfl⟩

/-- What holds between values under one key holds along its list. -/
theorem pairwise_run {s : List (Nat × Nat)} {R : Nat → Nat → Prop} {w : Nat}
    (h : s.Pairwise fun p q => p.1 = w → q.1 = w → R p.2 q.2) : (run s w).Pairwise R := by
  rw [run, List.pairwise_filterMap]
  refine h.imp fun {p q} hpq x hx y hy => ?_
  split at hx
  case isTrue hp =>
    split at hy
    case isTrue hq =>
      cases hx
      cases hy
      exact hpq hp hq
    case isFalse => cases hy
  case isFalse => cases hx

theorem pairwise_outLists (hes : es.Pairwise Edge.Before) (u : Nat) :
    (outLists es u).Pairwise (· < ·) := by
  refine pairwise_run (List.pairwise_map.mpr (hes.imp fun {a b} hab hau hbu => ?_))
  unfold Edge.Before at hab
  omega

theorem pairwise_inLists (hes : es.Pairwise Edge.Before) (v : Nat) :
    (inLists es v).Pairwise (· < ·) := by
  refine pairwise_run (List.pairwise_map.mpr (hes.imp fun {a b} hab hav hbv => ?_))
  unfold Edge.Before at hab
  omega

/-- A list is as long as its source is frequent. -/
theorem length_outLists (es : List (Edge Nat)) (u : Nat) :
    (outLists es u).length = (es.map Edge.u).count u := by
  rw [outLists, length_run, List.map_map]
  rfl

/-- A list is as long as its destination is frequent. -/
theorem length_inLists (es : List (Edge Nat)) (v : Nat) :
    (inLists es v).length = (es.map Edge.v).count v := by
  rw [inLists, length_run, List.map_map]
  rfl

/-- The outgoing lists one after the other are the neighbours in the
order of the edges. -/
theorem flatMap_outLists (hes : es.Pairwise Edge.Before) (hn : ∀ e ∈ es, e.u < n) :
    (List.range n).flatMap (outLists es) = es.map Edge.v := by
  have hsorted : (es.map fun e => (e.u, e.v)).Pairwise fun p q => p.1 ≤ q.1 := by
    refine List.pairwise_map.mpr (hes.imp fun {a b} hab => ?_)
    unfold Edge.Before at hab
    omega
  have hkeys : ∀ p ∈ es.map fun e => (e.u, e.v), p.1 < n := by
    intro p hp
    obtain ⟨e, he, rfl⟩ := List.mem_map.mp hp
    exact hn e he
  rw [outLists, flatMap_run hsorted hkeys, List.map_map]
  rfl

/-- The edges, vertex by vertex. -/
theorem flatMap_outLists_pairs (hes : es.Pairwise Edge.Before) (hn : ∀ e ∈ es, e.u < n) :
    (List.range n).flatMap (fun u => (outLists es u).map fun v => (v, u))
      = es.map fun e => (e.v, e.u) := by
  have hsorted : (es.map fun e => (e.u, e.v)).Pairwise fun p q => p.1 ≤ q.1 := by
    refine List.pairwise_map.mpr (hes.imp fun {a b} hab => ?_)
    unfold Edge.Before at hab
    omega
  have hkeys : ∀ p ∈ es.map fun e => (e.u, e.v), p.1 < n := by
    intro p hp
    obtain ⟨e, he, rfl⟩ := List.mem_map.mp hp
    exact hn e he
  have h := congrArg (List.map Prod.swap) (flatMap_run_pairs hsorted hkeys)
  rw [List.map_flatMap] at h
  simpa only [outLists, List.map_map, Function.comp_def, Prod.swap_prod_mk] using h

-- ========================================================= the overwrite

/-- One round: the words before the edge that are no longer needed are
one more. -/
theorem overwriteStep_eq (rest : List (Edge Nat)) {done : List Nat}
    {junk : List (Option Nat)} {e : Edge Nat} {offsets : List Int}
    (hjunk : junk.length = done.length)
    (hslot : offsets[e.u]? = some (done.length : Int)) :
    ∃ junk', junk'.length = done.length + 1
      ∧ overwriteStep (done.map some ++ junk ++ words (e :: rest), offsets) done.length
        = some ((done ++ [e.v]).map some ++ junk' ++ words rest,
            offsets.set e.u (done.length + 1)) := by
  obtain ⟨y, junk', hy⟩ : ∃ y junk', junk ++ [some e.u, some e.v] = y :: junk' :=
    List.exists_cons_of_ne_nil (by simp)
  have hlen := congrArg List.length hy
  rw [List.length_append, List.length_cons, List.length_cons, List.length_nil,
    List.length_cons] at hlen
  refine ⟨junk', by omega, ?_⟩
  have hu : done.map some ++ junk ++ words (e :: rest)
      = (done.map some ++ junk) ++ some e.u :: (some e.v :: words rest) := by
    simp [words]
  have hv : done.map some ++ junk ++ words (e :: rest)
      = (done.map some ++ junk ++ [some e.u]) ++ some e.v :: words rest := by
    simp [words]
  have hslots : done.map some ++ junk ++ words (e :: rest)
      = done.map some ++ y :: (junk' ++ words rest) := by
    rw [← List.cons_append, ← hy]
    simp [words]
  have hreadu : fetch (done.map some ++ junk ++ words (e :: rest)) (2 * done.length)
      = some e.u := by
    rw [hu]
    exact fetch_append (by rw [List.length_append, List.length_map]; omega) e.u
  have hreadv : fetch (done.map some ++ junk ++ words (e :: rest)) (2 * done.length + 1)
      = some e.v := by
    rw [hv]
    refine fetch_append ?_ e.v
    rw [List.length_append, List.length_append, List.length_map, List.length_singleton]
    omega
  have hwrite : write (done.map some ++ junk ++ words (e :: rest)) done.length (some e.v)
      = some ((done ++ [e.v]).map some ++ junk' ++ words rest) := by
    rw [hslots, write_append (by rw [List.length_map])]
    simp
  unfold overwriteStep place fetchAdd
  simp only [hreadu, hreadv, hslot, Option.map_some, hwrite, Option.bind_eq_bind,
    Option.bind_some]
  rfl

/-- The rounds that are left, when those for `done` have been made. -/
theorem overwrite_run (todo : List (Edge Nat)) : ∀ (done : List Nat) (junk : List (Option Nat))
    (offsets : List Int), junk.length = done.length → todo.Pairwise (fun a b => a.u ≤ b.u) →
    (∀ e ∈ todo, e.u < offsets.length) →
    (∀ e ∈ todo, offsets.getD e.u 0 = done.length + start (outLists todo) e.u) →
    ∃ junk' offsets', (List.range' done.length todo.length).foldlM overwriteStep
        (done.map some ++ junk ++ words todo, offsets)
          = some ((done ++ todo.map Edge.v).map some ++ junk', offsets')
      ∧ offsets'.length = offsets.length
      ∧ ∀ u, offsets'.getD u 0 = offsets.getD u 0 + (outLists todo u).length := by
  induction todo with
  | nil =>
      intro done junk offsets _ _ _ _
      refine ⟨junk, offsets, ?_, rfl, fun u => ?_⟩
      · simp [words]
      · simp [outLists, run]
  | cons e todo ih =>
      intro done junk offsets hjunk hsorted hin hcursor
      obtain ⟨hfirst, hrest⟩ := List.pairwise_cons.mp hsorted
      have hlt := hin e (List.mem_cons_self ..)
      have hbefore : ∀ p ∈ (e :: todo).map (fun e => (e.u, e.v)), e.u ≤ p.1 := by
        intro p hp
        obtain ⟨e', he', rfl⟩ := List.mem_map.mp hp
        rcases List.mem_cons.mp he' with rfl | he'
        · exact Nat.le_refl _
        · exact hfirst e' he'
      -- all edges before this one have been placed, so its slot is the next
      have hslot : offsets.getD e.u 0 = done.length := by
        rw [hcursor e (List.mem_cons_self ..), outLists, start_run_eq_zero hbefore, Int.add_zero]
      have hget : offsets[e.u]? = some (done.length : Int) := by
        rw [List.getD_eq_getElem?_getD, List.getElem?_eq_getElem hlt, Option.getD_some] at hslot
        rw [List.getElem?_eq_getElem hlt, hslot]
      obtain ⟨junk₁, hjunk₁, hstep⟩ := overwriteStep_eq todo hjunk hget
      obtain ⟨junk', offsets', hrun, hlen, hcount⟩ := ih (done ++ [e.v]) junk₁
        (offsets.set e.u (done.length + 1))
        (by rw [hjunk₁, List.length_append, List.length_singleton]) hrest
        (fun e' he' => by
          rw [List.length_set]
          exact hin e' (List.mem_cons_of_mem _ he'))
        (fun e' he' => by
          have hold := hcursor e' (List.mem_cons_of_mem _ he')
          rw [outLists, List.map_cons, start_run_cons, ← outLists] at hold
          have hle := hfirst e' he'
          rw [getD_set hlt, List.length_append, List.length_singleton]
          split
          case isTrue heq =>
            rw [heq, outLists, start_run_eq_zero fun p hp => hbefore p (List.mem_cons_of_mem _ hp)]
            omega
          case isFalse hne =>
            rw [hold, if_pos (by omega)]
            omega)
      refine ⟨junk', offsets', ?_, by rw [hlen, List.length_set], fun u => ?_⟩
      · rw [List.length_cons, List.range'_succ, List.foldlM_cons, hstep]
        rw [List.length_append, List.length_singleton] at hrun
        show List.foldlM _ _ _ = _
        rw [hrun]
        simp
      · rw [hcount, getD_set hlt, outLists, outLists, List.map_cons]
        split
        case isTrue heq =>
          subst heq
          rw [run_cons_self, List.length_cons, hslot]
          omega
        case isFalse hne => rw [run_cons_of_ne (Ne.symm hne)]

/-- The loop that moves the offsets back, so far. -/
theorem getD_revert (l : List Int) (k : Nat) (hk : k ≤ l.length) :
    let l' := (List.range k).reverse.foldl (fun offsets n =>
      offsets.set n (if n ≠ 0 then offsets.getD (n - 1) 0 else 0)) l
    l'.length = l.length ∧ ∀ j, l'.getD j 0
      = if j < k then (if j ≠ 0 then l.getD (j - 1) 0 else 0) else l.getD j 0 := by
  induction k generalizing l with
  | zero => exact ⟨rfl, fun j => by rw [if_neg (Nat.not_lt_zero j)]; rfl⟩
  | succ k ih =>
      simp only [List.range_succ, List.reverse_append, List.reverse_singleton,
        List.singleton_append, List.foldl_cons]
      obtain ⟨hlen, hget⟩ := ih (l.set k (if k ≠ 0 then l.getD (k - 1) 0 else 0))
        (by rw [List.length_set]; omega)
      refine ⟨by rw [hlen, List.length_set], fun j => ?_⟩
      rw [hget, getD_set (by omega), getD_set (by omega)]
      by_cases hjk : j = k
      · subst hjk
        rw [if_neg (Nat.lt_irrefl j), if_pos rfl, if_pos (Nat.lt_succ_self j)]
      · by_cases hlt : j < k
        · rw [if_pos hlt, if_neg (show ¬ j - 1 = k by omega), if_pos (Nat.lt_succ_of_lt hlt)]
        · rw [if_neg hlt, if_neg hjk, if_neg (by omega)]

/-- Lists of one length with the same values are equal. -/
theorem ext_getD {l m : List Int} (hlen : l.length = m.length)
    (h : ∀ i, l.getD i 0 = m.getD i 0) : l = m := by
  refine List.ext_getElem hlen fun i hl hm => ?_
  have hi := h i
  rw [List.getD_eq_getElem?_getD, List.getD_eq_getElem?_getD, List.getElem?_eq_getElem hl,
    List.getElem?_eq_getElem hm] at hi
  exact hi

/-- Shifted down, offsets at the ends of the lists are the offsets of
their starts. -/
theorem revertOffsets_eq {f : Nat → List Nat} {offsets : List Int}
    (hlen : offsets.length = n + 1)
    (hends : ∀ u < n, offsets.getD u 0 = start f (u + 1)) :
    revertOffsets n offsets = (List.range (n + 1)).map (start f) := by
  obtain ⟨hlen', hget⟩ := getD_revert offsets (n + 1) (by omega)
  refine ext_getD (by rw [revertOffsets, hlen', hlen]; simp) fun i => ?_
  rw [revertOffsets, hget]
  by_cases hi : i < n + 1
  · rw [if_pos hi, getD_starts f (Nat.le_of_lt_succ hi)]
    cases i with
    | zero => rfl
    | succ i => exact hends i (by omega)
  · rw [if_neg hi, List.getD_eq_getElem?_getD, List.getD_eq_getElem?_getD,
      List.getElem?_eq_none (by omega), List.getElem?_eq_none (by simp; omega)]

/-- The words after the loop, and the offsets shifted down. -/
theorem overwrite_eq (hes : es.Pairwise Edge.Before) (hn : ∀ e ∈ es, e.u < n) :
    ∃ junk offsets, overwrite (words es)
        (parallelPrefixSum ((List.range n).map fun u => ((outLists es u).length : Int))) es.length
          = some ((csrOf n (outLists es)).neighs ++ junk, offsets)
      ∧ revertOffsets n offsets = (csrOf n (outLists es)).index := by
  rw [parallelPrefixSum_lengths]
  obtain ⟨junk, offsets, hrun, hlen, hcount⟩ := overwrite_run es [] []
    ((List.range (n + 1)).map (start (outLists es))) rfl
    (hes.imp fun {a b} hab => by
      unfold Edge.Before at hab
      omega)
    (fun e he => by
      rw [List.length_map, List.length_range]
      exact Nat.lt_succ_of_lt (hn e he))
    (fun e he => by
      rw [getD_starts _ (Nat.le_of_lt (hn e he))]
      simp)
  refine ⟨junk, offsets, ?_, revertOffsets_eq (by simpa using hlen) fun u hu => ?_⟩
  · have hrange : List.range es.length = List.range' 0 es.length := List.range_eq_range'
    rw [overwrite, hrange, csrOf, flatMap_outLists hes hn]
    exact hrun
  · rw [hcount, getD_starts _ (Nat.le_of_lt hu), start_succ]

-- ======================================================= incoming edges

theorem genIndex_csrOf (hroom : n + 1 < 2 ^ 31) (f : Nat → List Nat) :
    genIndex (csrOf n f).index = (csrOf n f).index := genIndex_starts hroom f

/-- The loop over the edges fills in the incoming lists. -/
theorem fillInverse_eq (hroom : n + 1 < 2 ^ 31) (hes : es.Pairwise Edge.Before)
    (hn : ∀ e ∈ es, e.u < n ∧ e.v < n) :
    fillInverse n (csrOf n (outLists es))
        (parallelPrefixSum ((List.range n).map fun v => ((inLists es v).length : Int)))
      = some (csrOf n (inLists es)) := by
  rw [parallelPrefixSum_lengths]
  have hkeys : ∀ p ∈ es.map fun e => (e.v, e.u), p.1 < n := by
    intro p hp
    obtain ⟨e, he, rfl⟩ := List.mem_map.mp hp
    exact (hn e he).2
  have hcursors : ∀ u, u < n →
      ((List.range (n + 1)).map (start (inLists es))).getD u 0 = start (inLists es) u :=
    fun u hu => getD_starts _ (Nat.le_of_lt hu)
  obtain ⟨placed, hplaced, hstore⟩ := store_placed hkeys (by simp) hcursors
  obtain ⟨cursors, hfold⟩ := foldlM_place hplaced (hstore placed (List.Perm.refl _))
  have hround : ∀ u ∈ List.range n, ∀ st : List (Option Nat) × List Int,
      (((csrOf n (outLists es)).neigh u).bind fun neighs =>
        neighs.foldlM (fun st v => place st (v, u)) st)
      = ((outLists es u).map fun v => (v, u)).foldlM place st := by
    intro u hu st
    rw [neigh_csrOf _ (List.mem_range.mp hu), Option.bind_some, List.foldlM_map]
  have hloop := foldlM_flatMap hround
  have htotal : (((List.range (n + 1)).map (start (inLists es))).getD n 0).toNat
      = ((List.range n).flatMap (inLists es)).length := by
    rw [getD_starts _ (Nat.le_refl n), ← length_flatMap_range, Int.toNat_natCast]
  unfold fillInverse
  rw [htotal]
  rw [flatMap_outLists_pairs hes fun e he => (hn e he).1] at hloop
  refine Option.bind_eq_some_iff.mpr ⟨_, (hloop _).trans hfold, ?_⟩
  rw [genIndex_starts hroom]
  rfl

/-- The branch that does not symmetrize. -/
theorem makeCSRInPlace_directed (hroom : n + 1 < 2 ^ 31) (hes : es.Pairwise Edge.Before)
    (hn : ∀ e ∈ es, e.u < n ∧ e.v < n) (allocated : Bool) :
    makeCSRInPlace false n allocated es
        ((List.range n).map fun u => ((outLists es u).length : Int))
        ((List.range n).map fun v => ((inLists es v).length : Int))
      = some (.ok ⟨true, n, start (outLists es) n, csrOf n (outLists es),
          csrOf n (inLists es)⟩) := by
  obtain ⟨junk, offsets, hrun, hrevert⟩ := overwrite_eq hes fun e he => (hn e he).1
  have hlen : (csrOf n (outLists es)).neighs.length = es.length := by
    rw [csrOf, flatMap_outLists hes fun e he => (hn e he).1, List.length_map, List.length_map]
  have hrealloc : realloc ((csrOf n (outLists es)).neighs ++ junk) es.length
      = (csrOf n (outLists es)).neighs := by
    rw [realloc, ← hlen, List.take_left, List.length_append, Nat.sub_add_eq, Nat.sub_self,
      Nat.zero_sub, List.replicate_zero, List.append_nil]
  unfold makeCSRInPlace
  simp only [hrun, Option.bind_eq_bind, Option.bind_some, Bool.false_eq_true, if_false, hrevert,
    hrealloc, genIndex_csrOf hroom]
  show (fillInverse n (csrOf n (outLists es)) _).bind _ = _
  rw [fillInverse_eq hroom hes hn, Option.bind_some, ofDirected_csrOf]
  rfl

end ThesisBench.Gapbs

/-
The two paths of the builder compared.

In place, the builder leaves the very arrays of the plain path
(`makeGraphInPlace_iff`), with one exception: a list that is to be
symmetrized and has only self-loops leaves nothing to store, and the
null pointer that `std::realloc` then returns is taken for a failure.
-/
import ThesisBench.Gapbs.Proofs.Symmetrize
import Mathlib.Data.List.Flatten

namespace ThesisBench.Gapbs

open Slots

variable {el es : List (Edge Nat)} {n : Nat}

-- ============================================================== degrees

/-- In place the outgoing degrees count the sources. -/
theorem increments_sources (s : Bool) (es : List (Edge Nat)) :
    increments ⟨s, true⟩ false es = es.map Edge.u := by
  rw [List.map_eq_flatMap, increments]
  refine List.flatMap_congr fun e _ => ?_
  cases s <;> rfl

/-- In place the incoming degrees count the destinations. -/
theorem increments_destinations (es : List (Edge Nat)) :
    increments ⟨false, true⟩ true es = es.map Edge.v := by
  rw [List.map_eq_flatMap, increments]
  rfl

/-- With symmetrisation the second count is one of sources again, which is
not used. -/
theorem increments_unused (es : List (Edge Nat)) :
    increments ⟨true, true⟩ true es = es.map Edge.u := by
  rw [List.map_eq_flatMap, increments]
  rfl

/-- In place no source is counted that is not counted otherwise. -/
theorem sources_sublist (s : Bool) (el : List (Edge Nat)) :
    (el.map Edge.u).Sublist (increments ⟨s, false⟩ false el) := by
  rw [List.map_eq_flatMap, increments]
  refine List.Sublist.flatMap_right el fun e _ => ?_
  cases s <;> simp

theorem destinations_sublist (s : Bool) (el : List (Edge Nat)) :
    (el.map Edge.v).Sublist (increments ⟨s, false⟩ true el) := by
  rw [List.map_eq_flatMap, increments]
  refine List.Sublist.flatMap_right el fun e _ => ?_
  cases s <;> simp [DestID.node]

/-- What stays of the list has no more edges at a vertex than the list. -/
theorem count_sources_lt {s : Bool}
    (hdeg : ∀ transpose u, (increments ⟨s, false⟩ transpose el).count u < 2 ^ 31) (u : Nat) :
    ((squishEdges el).map Edge.u).count u < 2 ^ 31 :=
  Nat.lt_of_le_of_lt (count_squishEdges_le el Edge.u u)
    (Nat.lt_of_le_of_lt ((sources_sublist s el).count_le u) (hdeg false u))

theorem count_destinations_lt {s : Bool}
    (hdeg : ∀ transpose u, (increments ⟨s, false⟩ transpose el).count u < 2 ^ 31) (v : Nat) :
    ((squishEdges el).map Edge.v).count v < 2 ^ 31 :=
  Nat.lt_of_le_of_lt (count_squishEdges_le el Edge.v v)
    (Nat.lt_of_le_of_lt ((destinations_sublist s el).count_le v) (hdeg true v))

-- ============================================================ the lists

/-- The squished edges by their sources are the lists of the simple graph. -/
theorem outLists_eq_simple (el : List (Edge Nat)) :
    outLists (squishEdges el) = simple ⟨false, false⟩ false el := by
  funext u
  refine (pairwise_outLists (pairwise_squishEdges el) u).eq_of_mem_iff (pairwise_squish _ _)
    fun v => ?_
  rw [mem_outLists, mem_squishEdges, mem_simple]
  simp [and_comm]

/-- By their destinations they are its incoming lists. -/
theorem inLists_eq_simple (el : List (Edge Nat)) :
    inLists (squishEdges el) = simple ⟨false, false⟩ true el := by
  funext v
  refine (pairwise_inLists (pairwise_squishEdges el) v).eq_of_mem_iff (pairwise_squish _ _)
    fun u => ?_
  rw [mem_inLists, mem_squishEdges, mem_simple]
  simp [and_comm, ne_comm]

/-- The lists are sorted, hold no loops, and name vertices. -/
theorem simple_outLists (hn : ∀ e ∈ squishEdges el, e.u < n ∧ e.v < n) :
    Simple n (outLists (squishEdges el)) where
  sorted u := pairwise_outLists (pairwise_squishEdges el) u
  inside _ _ hv := (hn _ (mem_outLists.mp hv)).2
  irrefl _ hu := (mem_squishEdges.mp (mem_outLists.mp hu)).2 rfl

/-- The symmetrised lists are sorted. -/
theorem pairwise_symmetrized {f : Nat → List Nat} (hf : Simple n f) (v : Nat) :
    (symmetrized n f v).Pairwise (· < ·) := by
  have hle : (symmetrized n f v).Pairwise fun a b => DestID.le a b = true :=
    List.pairwise_mergeSort DestID.le_trans DestID.le_total _
  have hnodup : (symmetrized n f v).Nodup := by
    rw [symmetrized, (List.mergeSort_perm _ _).nodup_iff, List.nodup_append]
    refine ⟨?_, (hf.sorted v).imp Nat.ne_of_lt, ?_⟩
    · rw [List.nodup_reverse]
      exact List.nodup_range.filter _
    · rintro x hx _ hy rfl
      exact (mem_missing.mp (List.mem_reverse.mp hx)).2.2 hy
  refine hle.imp₂ (fun a b hab hne => ?_) hnodup
  exact Nat.lt_of_le_of_ne (DestID.node_le a b hab) hne

/-- The symmetrised lists are those of the symmetrised simple graph. -/
theorem symmetrized_eq_simple (hn : ∀ e ∈ squishEdges el, e.u < n ∧ e.v < n) :
    symmetrized n (outLists (squishEdges el)) = simple ⟨true, false⟩ false el := by
  funext u
  refine (pairwise_symmetrized (simple_outLists hn) u).eq_of_mem_iff (pairwise_squish _ _)
    fun v => ?_
  rw [symmetrized, List.mem_mergeSort, List.mem_append, List.mem_reverse, mem_missing,
    mem_outLists, mem_outLists, mem_simple]
  have hlt : (⟨v, u⟩ : Edge Nat) ∈ squishEdges el → v < n := fun h => (hn _ h).1
  rw [mem_squishEdges, mem_squishEdges] at *
  simp only [true_or, true_and]
  constructor
  · rintro (⟨-, ⟨he, hne⟩, -⟩ | ⟨he, hne⟩)
    · exact ⟨Ne.symm hne, Or.inr he⟩
    · exact ⟨hne, Or.inl he⟩
  · rintro ⟨hne, he⟩
    by_cases huv : (⟨u, v⟩ : Edge Nat) ∈ el
    · exact Or.inr ⟨huv, hne⟩
    · have hvu := he.resolve_left huv
      exact Or.inl ⟨hlt ⟨hvu, Ne.symm hne⟩, ⟨hvu, Ne.symm hne⟩, fun h => huv h.1⟩

/-- The number of missing neighbours fits an `int32`. -/
theorem length_missing_lt {s : Bool} (hn : ∀ e ∈ squishEdges el, e.u < n ∧ e.v < n)
    (hdeg : ∀ transpose u, (increments ⟨s, false⟩ transpose el).count u < 2 ^ 31) (v : Nat) :
    (missing (outLists (squishEdges el)) n v).length < 2 ^ 31 := by
  rw [← count_needed (simple_outLists hn)]
  have hsub : ((List.range n).flatMap fun u =>
      (outLists (squishEdges el) u).filter fun w => decide (u ∉ outLists (squishEdges el) w)).Sublist
      ((List.range n).flatMap (outLists (squishEdges el))) :=
    List.Sublist.flatMap_right _ fun u _ => List.filter_sublist
  rw [flatMap_outLists (pairwise_squishEdges el) fun e he => (hn e he).1] at hsub
  exact Nat.lt_of_le_of_lt (hsub.count_le v) (count_destinations_lt hdeg v)

/-- Nothing is stored exactly when every edge is a self-loop. -/
theorem start_symmetrized_eq_zero (hn : ∀ e ∈ squishEdges el, e.u < n ∧ e.v < n) :
    start (symmetrized n (outLists (squishEdges el))) n = 0 ↔ ∀ e ∈ el, e.u = e.v := by
  have hsum : start (symmetrized n (outLists (squishEdges el))) n
      = start (outLists (squishEdges el)) n
        + start (missing (outLists (squishEdges el)) n) n :=
    start_add fun v _ => length_symmetrized v
  have hmissing := start_nonneg (missing (outLists (squishEdges el)) n) n
  have hout : start (outLists (squishEdges el)) n = (squishEdges el).length := by
    rw [← length_flatMap_range,
      flatMap_outLists (pairwise_squishEdges el) fun e he => (hn e he).1, List.length_map]
  constructor
  · intro hzero e he
    have hnil : squishEdges el = [] := List.eq_nil_of_length_eq_zero (by omega)
    by_contra hne
    have hmem := mem_squishEdges.mpr ⟨he, hne⟩
    rw [hnil] at hmem
    cases hmem
  · intro hall
    have hnil : squishEdges el = [] := by
      refine List.eq_nil_iff_forall_not_mem.mpr fun e he => ?_
      exact (mem_squishEdges.mp he).2 (hall e (mem_squishEdges.mp he).1)
    have hempty : ∀ v, (missing (outLists (squishEdges el)) n v).length
        = ((fun _ => []) v : List Nat).length := by
      intro v
      rw [hnil]
      simp [missing, outLists, run]
    rw [hsum, hout, hnil, List.length_nil, ← hnil, start_congr fun v _ => hempty v]
    simp [start]

-- ============================================================ the graph

/-- With symmetrisation the array is grown for the missing neighbours, if
it can be. -/
theorem makeCSRInPlace_undirected (hroom : n + 1 < 2 ^ 31)
    (hn : ∀ e ∈ squishEdges el, e.u < n ∧ e.v < n)
    (hneed : ∀ v, (missing (outLists (squishEdges el)) n v).length < 2 ^ 31)
    (allocated : Bool) (indegrees : List Int) :
    makeCSRInPlace true n allocated (squishEdges el)
        ((List.range n).map fun u => ((outLists (squishEdges el) u).length : Int)) indegrees
      = if allocated = true ∧ start (symmetrized n (outLists (squishEdges el))) n = 0
        then some (.error (-33))
        else some (.ok ⟨false, n, (start (symmetrized n (outLists (squishEdges el))) n).tdiv 2,
          csrOf n (symmetrized n (outLists (squishEdges el))),
          csrOf n (symmetrized n (outLists (squishEdges el)))⟩) := by
  obtain ⟨junk, offsets, hrun, hrevert⟩ :=
    overwrite_eq (pairwise_squishEdges el) fun e he => (hn e he).1
  unfold makeCSRInPlace
  simp only [hrun, Option.bind_eq_bind, Option.bind_some, if_true, hrevert,
    symmetrizeInPlace_eq hroom (simple_outLists hn) hneed]
  split
  · rfl
  · show Option.map _ (CSRGraph.undirected n _) = _
    rw [undirected_csrOf]
    rfl

/-- Every run in place ends, without a fault, with the arrays of the
plain path, or with `exit(-33)`. -/
theorem makeGraphInPlace_iff (s : Bool) (el : PVector (Edge Nat))
    (hid : ∀ e ∈ el.elems, e.u ≤ 2 ^ 31 - 3 ∧ e.v ≤ 2 ^ 31 - 3)
    (hdeg : ∀ transpose u, (increments ⟨s, false⟩ transpose el.elems).count u < 2 ^ 31)
    (out : Option (Except Int (CSRGraph Nat))) :
    MakeGraphInPlace s el out ↔ out
      = if s = true ∧ el.allocated = true ∧ ∀ e ∈ el.elems, e.u = e.v
        then some (.error (-33)) else some (.ok (simpleGraph ⟨s, false⟩ el.elems)) := by
  obtain ⟨el, allocated, hne⟩ := el
  simp only at hid hdeg ⊢
  have hroom := (fits_of_bounds hid (hdeg false)).room
  have hn : ∀ e ∈ squishEdges el, e.u < findMaxNodeID el + 1 ∧ e.v < findMaxNodeID el + 1 := by
    intro e he
    have hle : e.u ≤ findMaxNodeID el ∧ e.v ≤ findMaxNodeID el :=
      le_findMaxNodeID (mem_squishEdges.mp he).1
    omega
  have hpaired := pairwise_squishEdges el
  unfold MakeGraphInPlace
  simp only
  have hinSources : ∀ u ∈ increments ⟨s, true⟩ false (squishEdges el),
      u < findMaxNodeID el + 1 := by
    intro u hu
    rw [increments_sources] at hu
    obtain ⟨e, he, rfl⟩ := List.mem_map.mp hu
    exact (hn e he).1
  have hsources := countDegrees_counts hinSources (by
    rw [increments_sources]
    exact count_sources_lt hdeg)
  simp only [increments_sources, ← length_outLists] at hsources
  simp only [hsources, exists_and_left, exists_eq_left, Option.bind_some]
  cases s with
  | false =>
      have hinDestinations : ∀ v ∈ increments ⟨false, true⟩ true (squishEdges el),
          v < findMaxNodeID el + 1 := by
        intro v hv
        rw [increments_destinations] at hv
        obtain ⟨e, he, rfl⟩ := List.mem_map.mp hv
        exact (hn e he).2
      have hdestinations := countDegrees_counts hinDestinations (by
        rw [increments_destinations]
        exact count_destinations_lt hdeg)
      simp only [increments_destinations, ← length_inLists] at hdestinations
      simp only [hdestinations, exists_eq_left, Option.bind_some,
        makeCSRInPlace_directed hroom hpaired hn, Bool.false_eq_true, false_and, if_false]
      rw [outLists_eq_simple, inLists_eq_simple]
      rfl
  | true =>
      have hinUnused : ∀ u ∈ increments ⟨true, true⟩ true (squishEdges el),
          u < findMaxNodeID el + 1 := by
        intro u hu
        rw [increments_unused] at hu
        obtain ⟨e, he, rfl⟩ := List.mem_map.mp hu
        exact (hn e he).1
      have hunused := countDegrees_counts hinUnused (by
        rw [increments_unused]
        exact count_sources_lt hdeg)
      have hzero := start_symmetrized_eq_zero hn
      rw [symmetrized_eq_simple hn] at hzero
      simp only [hunused, exists_eq_left, Option.bind_some,
        makeCSRInPlace_undirected hroom hn (length_missing_lt hn hdeg),
        symmetrized_eq_simple hn, hzero, true_and]
      rfl

/-- In place the builder makes the graph of the plain path, array by
array, unless the list is to be symmetrized, has storage, and has only
self-loops. -/
theorem makeGraphInPlace_iff_makeGraph (symmetrize : Bool) (el : PVector (Edge Nat))
    (hid : ∀ e ∈ el.elems, e.u ≤ 2 ^ 31 - 3 ∧ e.v ≤ 2 ^ 31 - 3)
    (hdeg : ∀ transpose u,
      (increments ⟨symmetrize, false⟩ transpose el.elems).count u < 2 ^ 31) :
    (∃ g : CSRGraph Nat,
        (∀ out, MakeGraph ⟨symmetrize, false⟩ el.elems out ↔ out = some g)
        ∧ ∀ out, MakeGraphInPlace symmetrize el out ↔ out = some (.ok g))
      ↔ ¬ (symmetrize = true ∧ el.allocated = true ∧ ∀ e ∈ el.elems, e.u = e.v) := by
  have hplain := makeGraph_iff_simpleGraph (b := ⟨symmetrize, false⟩) rfl
    fun transpose => fits_of_bounds hid (hdeg transpose)
  have hinPlace := makeGraphInPlace_iff symmetrize el hid hdeg
  constructor
  · rintro ⟨g, -, hg⟩ hloops
    have hout := (hinPlace _).mp ((hg _).mpr rfl)
    rw [if_pos hloops] at hout
    cases hout
  · intro hloops
    refine ⟨simpleGraph ⟨symmetrize, false⟩ el.elems, hplain, fun out => ?_⟩
    rw [hinPlace, if_neg hloops]

/-- A degree is at most twice the number of edges. -/
theorem count_increments_le {δ : Type} [DestID δ] (s transpose : Bool) (el : List (Edge δ))
    (u : Nat) :
    (increments ⟨s, false⟩ transpose el).count u ≤ 2 * el.length := by
  refine List.count_le_length.trans ?_
  induction el with
  | nil => exact Nat.le_refl 0
  | cons e el ih =>
      rw [increments, List.flatMap_cons, List.length_append, ← increments, List.length_cons]
      cases s <;> cases transpose <;> simp at * <;> omega

/-- Two edges, one of them without its inverse. -/
theorem makeGraphInPlace_iff_makeGraph_two : ∃ g : CSRGraph Nat,
    (∀ out, MakeGraph ⟨true, false⟩ [⟨0, 1⟩, ⟨1, 1⟩] out ↔ out = some g)
      ∧ ∀ out, MakeGraphInPlace true ⟨[⟨0, 1⟩, ⟨1, 1⟩], true, fun _ => rfl⟩ out
        ↔ out = some (.ok g) :=
  (makeGraphInPlace_iff_makeGraph true ⟨[⟨0, 1⟩, ⟨1, 1⟩], true, fun _ => rfl⟩ (by decide)
    fun transpose u =>
      Nat.lt_of_le_of_lt (count_increments_le true transpose _ u) (by decide)).mpr (by decide)

/-- One self-loop: the plain path builds a graph without edges, and the
other one ends the program. -/
theorem makeGraphInPlace_loop :
    (∃ g : CSRGraph Nat, MakeGraph ⟨true, false⟩ [⟨0, 0⟩] (some g) ∧ g.numNodes = 1)
      ∧ ∀ out, MakeGraphInPlace true ⟨[⟨0, 0⟩], true, fun _ => rfl⟩ out
        ↔ out = some (.error (-33)) := by
  have hid : ∀ e ∈ ([⟨0, 0⟩] : List (Edge Nat)), e.u ≤ 2 ^ 31 - 3 ∧ e.v ≤ 2 ^ 31 - 3 := by decide
  have hdeg : ∀ transpose u,
      (increments ⟨true, false⟩ transpose ([⟨0, 0⟩] : List (Edge Nat))).count u < 2 ^ 31 :=
    fun transpose u => Nat.lt_of_le_of_lt (count_increments_le true transpose _ u) (by decide)
  refine ⟨⟨simpleGraph ⟨true, false⟩ [⟨0, 0⟩], ?_, ?_⟩, fun out => ?_⟩
  · exact (makeGraph_iff_simpleGraph rfl (fun transpose => fits_of_bounds hid (hdeg transpose))
      _).mpr rfl
  · exact numNodes_simpleGraph
  · rw [makeGraphInPlace_iff true _ hid hdeg, if_pos (by decide)]

end ThesisBench.Gapbs

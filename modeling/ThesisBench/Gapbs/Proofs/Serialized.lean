/-
The serialized form of the graphs that the builder makes.

Arrays that are adjacency lists (`csrOf`) are written list after list
and read back as they were, provided the writer takes the whole
neighbour array. How much it takes is `num_edges_directed`. Of a directed
graph that is the number of outgoing neighbours, and there have to be as
many incoming ones; of an undirected graph it is twice the half of their
number, which has to be even. Both follow from what the squish leaves,
one entry for each pair of distinct vertices that an edge joins
(`mem_nodes`): the two directions of a directed graph are
transposes, an undirected graph is its own.

The degrees have to fit a `NodeID`. Where one wraps around to 0, the
values of that vertex are written over those of others (`overrun`), and
the squish may leave an odd number of entries in an undirected graph
(`makeGraph_loopEdges`).
-/
import ThesisBench.Gapbs.Serialized
import ThesisBench.Gapbs.Proofs.InPlace
import ThesisBench.Lib.Adjacency

namespace ThesisBench.Gapbs

open Slots Serial Adjacency

variable {δ : Type} {n : Nat} {f h : Nat → List δ}

-- ========================================================== the offsets

theorem start_le_start (f : Nat → List δ) {u v : Nat} (huv : u ≤ v) :
    start f u ≤ start f v := by
  induction huv with
  | refl => exact Int.le_refl _
  | step _ ih =>
      rw [start_succ]
      omega

/-- Lists of a bounded length have a bounded total. -/
theorem start_le_mul {k : Nat} (hlen : ∀ u, (f u).length ≤ k) :
    start f n ≤ (n : Int) * k := by
  induction n with
  | zero => simp [start]
  | succ n ih =>
      have hn := hlen n
      rw [start_succ, Nat.cast_succ, Int.add_mul]
      omega

/-- Where a list starts, as a sum of natural numbers. -/
theorem start_eq_sum (f : Nat → List δ) (n : Nat) :
    start f n = ((∑ u ∈ Finset.range n, (f u).length : Nat) : Int) := by
  induction n with
  | zero => rfl
  | succ n ih => rw [start_succ, Finset.sum_range_succ, ih, Nat.cast_add]

/-- `VertexOffsets` are where the lists start. -/
theorem vertexOffsets_csrOf (n : Nat) (f : Nat → List δ) :
    vertexOffsets n (csrOf n f) = some ((List.range (n + 1)).map (start f)) := by
  refine mapM_some fun u hu => ?_
  rw [getElem?_index (Nat.lt_succ_iff.mp (List.mem_range.mp hu)),
    getElem?_index (Nat.zero_le n)]
  simp [start]

-- ======================================================== one direction

section Format

variable [DestID δ] [SerialID δ]

/-- The bytes of the neighbours in all lists. -/
def listBytes (n : Nat) (f : Nat → List δ) : List UInt8 :=
  ((List.range (n + 1)).map (start f)).flatMap int64.encode
    ++ ((List.range n).flatMap f).flatMap (SerialID.codec (δ := δ)).encode

theorem neighBytes_csrOf (hn : 0 < n) (f : Nat → List δ) :
    neighBytes (start f n) (csrOf n f)
      = some (((List.range n).flatMap f).flatMap (SerialID.codec (δ := δ)).encode) := by
  have hfirst : (csrOf n f).index[0]? = some 0 := getElem?_index (Nat.zero_le n)
  have hslice : slice (csrOf n f).neighs 0 (start f n) = some (csrOf n f).neighs := by
    have h := slice_append [] (csrOf n f).neighs [] (i := 0) (j := start f n) rfl
      (by rw [length_neighs, Int.zero_add])
    rwa [List.nil_append, List.append_nil] at h
  have hmapM : (csrOf n f).neighs.mapM id = some ((List.range n).flatMap f) := mapM_id_some _
  simp only [neighBytes, hfirst, getElem?_index (f := f) hn, Int.zero_add, hslice, hmapM,
    Option.bind_eq_bind, Option.bind_some]
  rfl

/-- Half a graph is written as its offsets and its neighbours. -/
theorem writeCSR_csrOf (hn : 0 < n) (f : Nat → List δ) :
    writeCSR n (start f n) (csrOf n f) = some (listBytes n f) := by
  rw [writeCSR, vertexOffsets_csrOf, neighBytes_csrOf hn]
  rfl

/-- What the format needs of the lists. -/
structure Storable (n : Nat) (f : Nat → List δ) : Prop where
  node : ∀ u < n, ∀ d ∈ f u, DestID.node d < 2 ^ 31
  total : start f n < 2 ^ 63

/-- Half a graph is read as it was written. -/
theorem Storable.reads (hf : Storable n f) (hroom : n + 1 < 2 ^ 31) :
    Reads (readCSR n (start f n)) (listBytes n f) (csrOf n f) := by
  have hoffsets : ∀ x ∈ (List.range (n + 1)).map (start f), int64.Valid x := by
    intro x hx
    obtain ⟨u, hu, rfl⟩ := List.mem_map.mp hx
    have hle := start_le_start f (Nat.lt_succ_iff.mp (List.mem_range.mp hu))
    have hnonneg := start_nonneg f u
    have htotal := hf.total
    exact ⟨by omega, by omega⟩
  have hneighs : ∀ d ∈ (List.range n).flatMap f, (SerialID.codec (δ := δ)).Valid d := by
    intro d hd
    obtain ⟨u, hu, hd⟩ := List.mem_flatMap.mp hd
    exact SerialID.valid d (hf.node u (List.mem_range.mp hu) d hd)
  have hcount : ((n : Int) + 1).toNat = ((List.range (n + 1)).map (start f)).length := by
    rw [List.length_map, List.length_range]
    omega
  have htotal : (start f n).toNat = ((List.range n).flatMap f).length := by
    rw [← length_flatMap_range, Int.toNat_natCast]
  have hindex := genIndex_starts hroom f
  unfold readCSR listBytes
  rw [hcount, htotal]
  refine (int64.reads_getMany hoffsets).bind ?_
  rw [← List.append_nil (List.flatMap _ ((List.range n).flatMap f))]
  refine (Codec.reads_getMany _ hneighs).bind ?_
  rw [hindex]
  exact Reads.pure _

-- ============================================================ the graph

/-- An undirected graph is read as it was written. -/
theorem reads_undirected (hf : Storable n f) (hroom : n + 1 < 2 ^ 31) :
    Reads readSerializedGraph
      (bool.encode false ++ (int64.encode (start f n) ++ (int64.encode n
        ++ (listBytes n f ++ []))))
      ⟨false, n, (start f n).tdiv 2, csrOf n f, csrOf n f⟩ := by
  have hnonneg := start_nonneg f n
  have htotal := hf.total
  unfold readSerializedGraph
  refine (bool.reads_get trivial).bind ?_
  refine (int64.reads_get ⟨by omega, htotal⟩).bind ?_
  refine (int64.reads_get ⟨by omega, by omega⟩).bind ?_
  rw [if_neg (by omega)]
  refine (hf.reads hroom).bind ?_
  exact Reads.lift (undirected_csrOf n f)

/-- A directed graph is read as it was written. -/
theorem reads_directed (hf : Storable n f) (hh : Storable n h)
    (hsize : start h n = start f n) (hroom : n + 1 < 2 ^ 31) :
    Reads readSerializedGraph
      (bool.encode true ++ (int64.encode (start f n) ++ (int64.encode n
        ++ (listBytes n f ++ (listBytes n h ++ [])))))
      ⟨true, n, start f n, csrOf n f, csrOf n h⟩ := by
  have hnonneg := start_nonneg f n
  have htotal := hf.total
  have hin := hh.reads hroom
  rw [hsize] at hin
  unfold readSerializedGraph
  refine (bool.reads_get trivial).bind ?_
  refine (int64.reads_get ⟨by omega, htotal⟩).bind ?_
  refine (int64.reads_get ⟨by omega, by omega⟩).bind ?_
  rw [if_neg (by omega)]
  refine (hf.reads hroom).bind ?_
  refine hin.bind ?_
  exact Reads.lift (ofDirected_csrOf n f h)

/-- A program that reads a file whole. -/
theorem reads_run {α : Type} {p : FileReader α} {bs : List UInt8} {a : α}
    (hp : Reads p bs a) : p.run bs = some (a, []) := by
  have h := hp []
  rwa [List.append_nil] at h

/-- An undirected graph whose number of entries is even. -/
theorem roundTrips_undirected (hn : 0 < n) (hroom : n + 1 < 2 ^ 31) (hf : Storable n f)
    (heven : Even (∑ u ∈ Finset.range n, (f u).length)) :
    CSRGraph.RoundTrips ⟨false, n, (start f n).tdiv 2, csrOf n f, csrOf n f⟩ := by
  have hcount : 2 * (start f n).tdiv 2 = start f n := by
    obtain ⟨k, hk⟩ := heven
    have htwice : start f n = 2 * (k : Int) := by
      rw [start_eq_sum, hk]
      omega
    rw [htwice, Int.mul_tdiv_cancel_left _ (by decide)]
  have hwrite : writeSerializedGraph ⟨false, n, (start f n).tdiv 2, csrOf n f, csrOf n f⟩
      = some (bool.encode false ++ int64.encode (start f n) ++ int64.encode n
        ++ listBytes n f) := by
    simp only [writeSerializedGraph, CSRGraph.numEdgesDirected, Bool.false_eq_true, if_false,
      hcount, writeCSR_csrOf hn, Option.bind_eq_bind, Option.bind_some]
    rfl
  have hread := reads_run (reads_undirected hf hroom)
  refine ⟨_, _, hwrite, ?_, rfl, rfl, rfl, fun _ _ => ⟨rfl, rfl⟩⟩
  rw [← hread]
  simp only [List.append_assoc, List.append_nil]

/-- A directed graph with as many incoming entries as outgoing ones. -/
theorem roundTrips_directed (hn : 0 < n) (hroom : n + 1 < 2 ^ 31) (hf : Storable n f)
    (hh : Storable n h) (hsize : start h n = start f n) :
    CSRGraph.RoundTrips ⟨true, n, start f n, csrOf n f, csrOf n h⟩ := by
  have hin := writeCSR_csrOf hn h
  rw [hsize] at hin
  have hwrite : writeSerializedGraph ⟨true, n, start f n, csrOf n f, csrOf n h⟩
      = some (bool.encode true ++ int64.encode (start f n) ++ int64.encode n
        ++ listBytes n f ++ listBytes n h) := by
    simp only [writeSerializedGraph, CSRGraph.numEdgesDirected, if_true,
      writeCSR_csrOf hn, hin, Option.bind_eq_bind, Option.bind_some]
    rfl
  have hread := reads_run (reads_directed hf hh hsize hroom)
  refine ⟨_, _, hwrite, ?_, rfl, rfl, rfl, fun _ _ => ⟨rfl, rfl⟩⟩
  rw [← hread]
  simp only [List.append_assoc, List.append_nil]

end Format

-- ================================================== what the builder makes

section Builder

variable [DestID δ] {b : Builder} {transpose : Bool} {el : List (Edge δ)} {s t : List (Nat × δ)}
  {u v : Nat}

/-- An edge of the list from `u` to `v`. -/
def Joins (el : List (Edge δ)) (u v : Nat) : Prop := ∃ e ∈ el, e.u = u ∧ DestID.node e.v = v

/-- Under which vertices something is placed for which. -/
theorem exists_node_placements :
    (∃ d, (u, d) ∈ placements b transpose el ∧ DestID.node d = v)
      ↔ ((b.symmetrize = true ∨ transpose = false) ∧ Joins el u v)
        ∨ ((b.symmetrize = true ∨ transpose = true) ∧ Joins el v u) := by
  constructor
  · rintro ⟨d, hd, hv⟩
    cases mem_placements.mp hd with
    | inl h => exact .inl ⟨h.1, _, h.2, rfl, hv⟩
    | inr h =>
        obtain ⟨hcond, e, he, hu, rfl⟩ := h
        exact .inr ⟨hcond, e, he, by rw [← hv, DestID.node_getSource], hu.symm⟩
  · intro h
    cases h with
    | inl h =>
        obtain ⟨hcond, e, he, rfl, hv⟩ := h
        exact ⟨e.v, mem_placements.mpr (.inl ⟨hcond, he⟩), hv⟩
    | inr h =>
        obtain ⟨hcond, e, he, hv, rfl⟩ := h
        refine ⟨_, mem_placements.mpr (.inr ⟨hcond, e, he, rfl, rfl⟩), ?_⟩
        rw [DestID.node_getSource, hv]

/-- The vertices that are left of a neighbourhood. -/
def nodes (s : List (Nat × δ)) (u : Nat) : List Nat := (squished s u).map DestID.node

/-- Which vertices are left of a neighbourhood. -/
theorem mem_nodes (hs : s.Perm (placements b transpose el)) :
    v ∈ nodes s u ↔ v ≠ u ∧
      (((b.symmetrize = true ∨ transpose = false) ∧ Joins el u v)
        ∨ ((b.symmetrize = true ∨ transpose = true) ∧ Joins el v u)) := by
  have hrun : (∃ d ∈ run s u, DestID.node d = v)
      ↔ ∃ d, (u, d) ∈ placements b transpose el ∧ DestID.node d = v := by
    simp only [mem_run, hs.mem_iff]
  rw [nodes, List.mem_map, squished, exists_node_squish, hrun, exists_node_placements,
    and_comm]

theorem Joins.le (h : Joins el u v) : u ≤ findMaxNodeID el ∧ v ≤ findMaxNodeID el := by
  obtain ⟨e, he, rfl, rfl⟩ := h
  exact le_findMaxNodeID he

/-- What is left of a neighbourhood are vertices. -/
theorem nodes_lt (hs : s.Perm (placements b transpose el)) (hv : v ∈ nodes s u) :
    v < findMaxNodeID el + 1 := by
  cases ((mem_nodes hs).mp hv).2 with
  | inl h => exact Nat.lt_succ_of_le h.2.le.2
  | inr h => exact Nat.lt_succ_of_le h.2.le.1

theorem lists_nodes (hs : s.Perm (placements b transpose el)) :
    Lists (findMaxNodeID el + 1) (nodes s) := by
  constructor
  · intro u _
    have hlt : (nodes s u).Pairwise (· < ·) := List.pairwise_map.mpr (pairwise_squish u _)
    exact hlt.imp Nat.ne_of_lt
  · exact fun u _ v hv => nodes_lt hs hv

/-- There is a vertex for each value that is left. -/
theorem length_nodes (s : List (Nat × δ)) (u : Nat) :
    (nodes s u).length = (squished s u).length := List.length_map _

/-- The squished lists fit the format. -/
theorem storable_squished (hb : b.inPlace = false)
    (hf : Fits b (findMaxNodeID el + 1) transpose el)
    (hs : s.Perm (placements b transpose el)) :
    Storable (findMaxNodeID el + 1) (squished s) := by
  have hroom := hf.room
  constructor
  · intro u _ d hd
    have hlt := nodes_lt hs (List.mem_map_of_mem hd)
    omega
  · have hlen : ∀ u, (squished s u).length ≤ 2 ^ 31 := by
      intro u
      have hle := length_squish_le u (run s u)
      have hdeg := hf.degree u
      rw [length_run, (hs.map Prod.fst).count_eq, ← increments_eq hb] at hle
      exact Nat.le_trans hle (Nat.le_of_lt hdeg)
    have hle := start_le_mul (n := findMaxNodeID el + 1) hlen
    omega

/-- Ids that leave room for their successors, and per-vertex edge counts
that fit 32 bits. -/
structure Bounded (symmetrize : Bool) (el : List (Edge δ)) : Prop where
  id : ∀ e ∈ el, e.u ≤ 2 ^ 31 - 3 ∧ DestID.node e.v ≤ 2 ^ 31 - 3
  count : ∀ transpose u, (increments ⟨symmetrize, false⟩ transpose el).count u < 2 ^ 31

theorem Bounded.fits {symmetrize : Bool} (h : Bounded symmetrize el) (transpose : Bool) :
    Fits ⟨symmetrize, false⟩ (findMaxNodeID el + 1) transpose el :=
  fits_of_bounds h.id (h.count transpose)

theorem bounded_of_length {symmetrize : Bool} {el : List (Edge δ)}
    (hid : ∀ e ∈ el, e.u ≤ 2 ^ 31 - 3 ∧ DestID.node e.v ≤ 2 ^ 31 - 3)
    (hlen : 2 * el.length < 2 ^ 31) : Bounded symmetrize el :=
  ⟨hid, fun transpose u =>
    Nat.lt_of_le_of_lt (count_increments_le symmetrize transpose el u) hlen⟩

variable [SerialID δ]

/-- The graph that results from any order of the additions. -/
theorem roundTrips_builtGraph (hb : b.inPlace = false)
    (hf : ∀ transpose, Fits b (findMaxNodeID el + 1) transpose el)
    (hs : s.Perm (placements b false el)) (ht : t.Perm (placements b true el)) :
    (builtGraph b (findMaxNodeID el + 1) s t).RoundTrips := by
  have hroom := (hf false).room
  have hstore := storable_squished hb (hf false) hs
  have hlists := lists_nodes hs
  cases hsym : b.symmetrize with
  | true =>
      simp only [builtGraph, hsym, if_true]
      refine roundTrips_undirected (Nat.succ_pos _) hroom hstore ?_
      have heven := hlists.even_sum_length
        (fun u _ hu => ((mem_nodes hs).mp hu).1 rfl)
        (fun u _ v hv => by
          rw [mem_nodes hs] at hv ⊢
          simp only [hsym, true_or, true_and] at hv ⊢
          exact ⟨hv.1.symm, hv.2.symm⟩)
      simpa only [length_nodes] using heven
  | false =>
      simp only [builtGraph, hsym, Bool.false_eq_true, if_false]
      refine roundTrips_directed (Nat.succ_pos _) hroom hstore
        (storable_squished hb (hf true) ht) ?_
      have hsize := (lists_nodes ht).sum_length_transpose hlists
        (fun u _ v _ => by
          rw [mem_nodes ht, mem_nodes hs, hsym]
          simp [ne_comm])
      simp only [length_nodes] at hsize
      rw [start_eq_sum, start_eq_sum, hsize]

-- ============================================================= the result

/-- What the builder makes is read as it was written. -/
theorem roundTrips_of_makeGraph {symmetrize : Bool} (hel : Bounded symmetrize el)
    {g : CSRGraph δ} (hg : MakeGraph ⟨symmetrize, false⟩ el (some g)) : g.RoundTrips := by
  obtain ⟨s, t, hs, ht, heq⟩ := (makeGraph_iff rfl hel.fits _).mp hg
  rw [Option.some.inj heq]
  exact roundTrips_builtGraph rfl hel.fits hs ht

theorem roundTrips_of_makeGraphInPlace {symmetrize : Bool} {el : PVector (Edge Nat)}
    (hel : Bounded symmetrize el.elems) {g : CSRGraph Nat}
    (hg : MakeGraphInPlace symmetrize el (some (.ok g))) : g.RoundTrips := by
  have hout := (makeGraphInPlace_iff symmetrize el hel.id hel.count _).mp hg
  split at hout
  · cases hout
  · cases hout
    exact roundTrips_builtGraph rfl hel.fits (List.Perm.refl _) (List.Perm.refl _)

/-- The graphs that the builder makes, unweighted on either path and
weighted, are read back as they were written. -/
theorem roundTrips_makeGraph (symmetrize : Bool) :
    (∀ (el : PVector (Edge Nat)) (g : CSRGraph Nat), Bounded symmetrize el.elems →
        MakeGraph ⟨symmetrize, false⟩ el.elems (some g)
          ∨ MakeGraphInPlace symmetrize el (some (.ok g)) → g.RoundTrips)
      ∧ ∀ (el : List (Edge NodeWeight)) (g : CSRGraph NodeWeight), Bounded symmetrize el →
        MakeGraph ⟨symmetrize, false⟩ el (some g) → g.RoundTrips := by
  constructor
  · intro el g hel hg
    cases hg with
    | inl h => exact roundTrips_of_makeGraph hel h
    | inr h => exact roundTrips_of_makeGraphInPlace hel h
  · intro el g hel hg
    exact roundTrips_of_makeGraph hel hg

/-- An edge and a loop, and an edge with a weight. -/
theorem roundTrips_makeGraph_two :
    (∃ g : CSRGraph Nat, MakeGraph ⟨true, false⟩ [⟨0, 1⟩, ⟨1, 1⟩] (some g) ∧ g.RoundTrips)
      ∧ ∃ g : CSRGraph NodeWeight, MakeGraph ⟨true, false⟩ [⟨0, ⟨1, 7⟩⟩] (some g)
        ∧ g.RoundTrips := by
  constructor
  · have hel : Bounded true ([⟨0, 1⟩, ⟨1, 1⟩] : List (Edge Nat)) :=
      bounded_of_length (by decide) (by decide)
    have hg := (makeGraph_iff rfl hel.fits _).mpr
      ⟨_, _, List.Perm.refl _, List.Perm.refl _, rfl⟩
    exact ⟨_, hg, (roundTrips_makeGraph true).1 ⟨_, true, fun _ => rfl⟩ _ hel (.inl hg)⟩
  · have hel : Bounded true ([⟨0, ⟨1, 7⟩⟩] : List (Edge NodeWeight)) :=
      bounded_of_length (by decide) (by decide)
    have hg := (makeGraph_iff rfl hel.fits _).mpr
      ⟨_, _, List.Perm.refl _, List.Perm.refl _, rfl⟩
    exact ⟨_, hg, (roundTrips_makeGraph true).2 _ _ hel hg⟩

end Builder

-- ====================================================== degrees that wrap

/-- `k` self-loops at `v`. -/
def loops (k v : Nat) : List (Edge Nat) := List.replicate k ⟨v, v⟩

/-- Self-loops at four vertices, those at vertex 0 last. -/
def loopEdges (a m : Nat) : List (Edge Nat) :=
  loops a 1 ++ (loops a 2 ++ (loops a 3 ++ loops m 0))

theorem placements_loops (k v : Nat) :
    placements ⟨true, false⟩ false (loops k v) = List.replicate (k * 2) (v, v) := by
  rw [placements, loops, List.flatMap_replicate]
  show (List.replicate k (List.replicate 2 (v, v))).flatten = _
  exact List.flatten_replicate_replicate

theorem placements_loopEdges (a m : Nat) :
    placements ⟨true, false⟩ false (loopEdges a m)
      = List.replicate (a * 2) (1, 1) ++ (List.replicate (a * 2) (2, 2)
        ++ (List.replicate (a * 2) (3, 3) ++ List.replicate (m * 2) (0, 0))) := by
  rw [← placements_loops, ← placements_loops, ← placements_loops, ← placements_loops]
  unfold placements loopEdges
  rw [List.flatMap_append, List.flatMap_append, List.flatMap_append]

theorem run_replicate_of_ne {k v u : Nat} (x : Nat) (h : v ≠ u) :
    run (List.replicate k (v, x)) u = [] :=
  run_eq_nil fun p hp => by rw [List.eq_of_mem_replicate hp]; exact h

/-- The values placed at each vertex. -/
theorem run_loopEdges (a m : Nat) {u : Nat} (hu : u < 4) :
    run (placements ⟨true, false⟩ false (loopEdges a m)) u
      = List.replicate (if u = 0 then m * 2 else a * 2) u := by
  rw [placements_loopEdges]
  simp only [run_append]
  obtain rfl | rfl | rfl | rfl : u = 0 ∨ u = 1 ∨ u = 2 ∨ u = 3 := by omega
  all_goals simp [run_replicate_self, run_replicate_of_ne]

/-- The edges are self-loops at the first four vertices. -/
theorem mem_loopEdges {a m : Nat} {e : Edge Nat} (he : e ∈ loopEdges a m) :
    e.u ≤ 3 ∧ e.v = e.u := by
  simp only [loopEdges, loops, List.mem_append, List.mem_replicate] at he
  rcases he with ⟨-, rfl⟩ | ⟨-, rfl⟩ | ⟨-, rfl⟩ | ⟨-, rfl⟩ <;> simp

theorem findMaxNodeID_loopEdges {a : Nat} (ha : a ≠ 0) (m : Nat) :
    findMaxNodeID (loopEdges a m) = 3 := by
  have hmem : (⟨3, 3⟩ : Edge Nat) ∈ loopEdges a m := by
    simp [loopEdges, loops, ha]
  obtain ⟨e, he, hmax⟩ := exists_findMaxNodeID (List.ne_nil_of_mem hmem)
  have hle : e.u ≤ 3 ∧ DestID.node e.v = e.u := mem_loopEdges he
  have hge : 3 ≤ findMaxNodeID (loopEdges a m) := (le_findMaxNodeID hmem).1
  omega

/-- The degrees that `CountDegrees` arrives at. -/
theorem countDegrees_loopEdges (a m : Nat) :
    CountDegrees ⟨true, false⟩ 4 (loopEdges a m) false
      (some ((List.range 4).map fun u => int32 (if u = 0 then m * 2 else a * 2 : Nat))) := by
  refine ⟨_, List.Perm.refl _, ?_⟩
  have hinc := increments_eq (b := ⟨true, false⟩) rfl false (loopEdges a m)
  have hlt : ∀ u ∈ increments ⟨true, false⟩ false (loopEdges a m), u < 4 := by
    intro u hu
    rw [hinc] at hu
    obtain ⟨p, hp, rfl⟩ := List.mem_map.mp hu
    rw [placements_loopEdges] at hp
    simp only [List.mem_append, List.mem_replicate] at hp
    rcases hp with ⟨-, rfl⟩ | ⟨-, rfl⟩ | ⟨-, rfl⟩ | ⟨-, rfl⟩ <;> decide
  have hzero : (List.replicate 4 0 : List Int)
      = (List.range 4).map fun _ => int32 ((0 : Nat) : Int) := by
    unfold int32
    decide
  rw [hzero, foldlM_addDegree_int32 _ hlt fun _ => 0]
  refine congrArg some (List.map_congr_left fun u hu => ?_)
  rw [Nat.zero_add, hinc, ← length_run, run_loopEdges a m (List.mem_range.mp hu),
    List.length_replicate]

/-- The lists that the offsets leave to the vertices when `m * 2` wraps to
0: the values of vertex 0 have gone over the other vertices'. -/
def overrun (d k u : Nat) : List Nat :=
  if u = 0 then []
  else if u = 3 then List.replicate k 0 ++ List.replicate (d - k) 3 else List.replicate d 0

/-- How many values the offsets leave to a vertex. -/
theorem length_overrun {d k : Nat} (hk : k ≤ d) (u : Nat) :
    (overrun d k u).length = if u = 0 then 0 else d := by
  unfold overrun
  split
  · rfl
  · split
    · rw [List.length_append, List.length_replicate, List.length_replicate]
      omega
    · exact List.length_replicate

/-- Where the offsets put a vertex. -/
theorem start_overrun {d k : Nat} (hk : k ≤ d) (u : Nat) :
    start (overrun d k) u = ((u - 1 : Nat) : Int) * d := by
  induction u with
  | zero => simp [start]
  | succ u ih =>
      rw [start_succ, ih, length_overrun hk]
      cases u with
      | zero => simp
      | succ u =>
          rw [if_neg (Nat.succ_ne_zero u), Nat.succ_sub_one, Nat.succ_sub_one, Nat.cast_succ,
            Int.add_mul, Int.one_mul]

/-- The writes of vertices 1, 2 and 3 and then those of vertex 0. -/
theorem store_loopEdges {d k : Nat} (hk : k ≤ d) :
    storeAll (List.replicate (d + (d + d)) none)
        (enumFrom 0 (List.replicate d 1 ++ (List.replicate d 2 ++ List.replicate d 3))
          ++ enumFrom 0 (List.replicate (d + d + k) 0))
      = some (csrOf 4 (overrun d k)).neighs := by
  have hfirst := storeAll_perm (List.Perm.refl (enumFrom 0
    (List.replicate d 1 ++ (List.replicate d 2 ++ List.replicate d 3))))
  simp only [List.length_append, List.length_replicate] at hfirst
  have hsecond := storeAll_enumFrom (List.replicate (d + d + k) 0) []
    ((List.replicate d 1 ++ (List.replicate d 2 ++ List.replicate d 3)).map some) (by simp; omega)
  have hdrop : ((List.replicate d 1 ++ (List.replicate d 2 ++ List.replicate d 3)).map some).drop
      (List.replicate (d + d + k) 0).length = List.replicate (d - k) (some 3) := by
    have h1 : d - (d + d + k) = 0 := by omega
    have h2 : d + d + k - d - d = k := by omega
    have h3 : d - (d + d + k - d) = 0 := by omega
    simp [List.drop_append, h1, h2, h3]
  rw [storeAll_append, hfirst, Option.bind_some]
  simp only [List.nil_append, List.length_nil, Nat.cast_zero] at hsecond
  rw [hsecond, hdrop]
  simp only [csrOf, overrun, List.range_succ, List.range_zero, List.nil_append,
    List.flatMap_append, List.flatMap_singleton, List.map_append, List.map_replicate,
    List.replicate_add, List.append_assoc]
  simp

/-- The slots that the values take. -/
theorem slots_loopEdges (a m : Nat) {k : Nat} (hk : k ≤ a * 2) :
    ((List.range 4).flatMap fun u =>
      enumFrom (((List.range (4 + 1)).map (start (overrun (a * 2) k))).getD u 0)
        (run (placements ⟨true, false⟩ false (loopEdges a m)) u))
      = enumFrom 0 (List.replicate (m * 2) 0)
        ++ enumFrom 0 (List.replicate (a * 2) 1
          ++ (List.replicate (a * 2) 2 ++ List.replicate (a * 2) 3)) := by
  have hparts : ∀ u ∈ List.range 4,
      enumFrom (((List.range (4 + 1)).map (start (overrun (a * 2) k))).getD u 0)
        (run (placements ⟨true, false⟩ false (loopEdges a m)) u)
      = enumFrom (((u - 1 : Nat) : Int) * (a * 2 : Nat))
        (List.replicate (if u = 0 then m * 2 else a * 2) u) := by
    intro u hu
    have hlt := List.mem_range.mp hu
    rw [getD_starts _ (Nat.le_of_lt hlt), start_overrun hk, run_loopEdges a m hlt]
  rw [List.flatMap_congr hparts, enumFrom_append, enumFrom_append, List.length_replicate,
    List.length_replicate, Int.zero_add, ← Int.two_mul]
  simp [List.range_succ]

/-- The arrays that `MakeCSR` leaves, the loops of vertex 0 written
last. -/
theorem makeCSR_loopEdges {a m k : Nat} (hk : k ≤ a * 2)
    (hm : m * 2 = a * 2 + a * 2 + k) (hfit : a * 2 < 2 ^ 31)
    (hwrap : int32 ((m * 2 : Nat) : Int) = 0) :
    MakeCSR ⟨true, false⟩ 4 (loopEdges a m) false (some (csrOf 4 (overrun (a * 2) k))) := by
  have hdegrees : ((List.range 4).map fun u => int32 (if u = 0 then m * 2 else a * 2 : Nat))
      = (List.range 4).map fun u => ((overrun (a * 2) k u).length : Int) := by
    refine List.map_congr_left fun u _ => ?_
    rw [length_overrun hk]
    split
    · exact hwrap
    · exact int32_of_lt hfit
  have hcount := countDegrees_loopEdges a m
  rw [hdegrees] at hcount
  refine ⟨_, hcount, ?_⟩
  simp only [parallelPrefixSum_lengths, genIndex_starts (show 4 + 1 < 2 ^ 31 by decide)]
  have hkeys : ∀ p ∈ placements ⟨true, false⟩ false (loopEdges a m), p.1 < 4 := by
    intro p hp
    rw [placements_loopEdges] at hp
    simp only [List.mem_append, List.mem_replicate] at hp
    rcases hp with ⟨-, rfl⟩ | ⟨-, rfl⟩ | ⟨-, rfl⟩ | ⟨-, rfl⟩ <;> decide
  obtain ⟨placed, hplaced, hperm⟩ := placeAll_spec (n := 4)
    (placements ⟨true, false⟩ false (loopEdges a m))
    ((List.range (4 + 1)).map (start (overrun (a * 2) k))) (by simp) hkeys
  rw [slots_loopEdges a m hk] at hperm
  refine ⟨_, enumFrom 0 (List.replicate (a * 2) 1
    ++ (List.replicate (a * 2) 2 ++ List.replicate (a * 2) 3))
    ++ enumFrom 0 (List.replicate (m * 2) 0), List.Perm.refl _, ?_⟩
  rw [hplaced]
  have htotal : (((List.range (4 + 1)).map (start (overrun (a * 2) k))).getD 4 0).toNat
      = a * 2 + (a * 2 + a * 2) := by
    rw [getD_starts _ (Nat.le_refl 4), start_overrun hk]
    omega
  refine ⟨List.perm_append_comm.trans hperm.symm, ?_⟩
  rw [htotal, hm, store_loopEdges hk]
  rfl

/-- What is left of the lists: at every vertex but 0 a neighbour 0. -/
theorem squish_overrun {d k : Nat} (hk : 0 < k) (hd : k < d) {u : Nat} :
    squish u (overrun d k u) = if u = 0 then [] else [0] := by
  have hlt : (squish u (overrun d k u)).Pairwise (· < ·) := pairwise_squish u _
  refine hlt.eq_of_mem_iff ?_ fun x => ?_
  · split
    · exact List.Pairwise.nil
    · exact List.pairwise_singleton _ _
  · rw [mem_squish]
    unfold overrun
    split
    · simp
    · split
      · simp only [List.mem_append, List.mem_replicate, List.mem_singleton]
        omega
      · simp only [List.mem_replicate, List.mem_singleton]
        omega

/-- The graph of such a list: three neighbours, of which `num_edges`
counts one edge. -/
def overrunGraph : CSRGraph Nat :=
  ⟨false, 4, 1, ⟨[0, 0, 1, 2, 3], [some 0, some 0, some 0]⟩,
    ⟨[0, 0, 1, 2, 3], [some 0, some 0, some 0]⟩⟩

/-- The builder makes the same small graph of all such lists. -/
theorem makeGraph_loopEdges {a m k : Nat} (hk : 0 < k) (hd : k < a * 2)
    (hm : m * 2 = a * 2 + a * 2 + k) (hfit : a * 2 < 2 ^ 31)
    (hwrap : int32 ((m * 2 : Nat) : Int) = 0) :
    MakeGraph ⟨true, false⟩ (loopEdges a m) (some overrunGraph) := by
  have hmax := findMaxNodeID_loopEdges (a := a) (by omega) m
  have hcsr := makeCSR_loopEdges (Nat.le_of_lt hd) hm hfit hwrap
  have hlen : ∀ u, (overrun (a * 2) k u).length < 2 ^ 31 := by
    intro u
    rw [length_overrun (Nat.le_of_lt hd)]
    split <;> omega
  have hsquish := (squishCSR_iff (show 4 + 1 < 2 ^ 31 by decide) hlen _).mpr rfl
  simp only [squish_overrun hk hd] at hsquish
  have hfrom : MakeGraphFromEL ⟨true, false⟩ (loopEdges a m)
      (CSRGraph.undirected 4 (csrOf 4 (overrun (a * 2) k))) := by
    unfold MakeGraphFromEL
    simp only [hmax]
    exact ⟨_, hcsr, rfl⟩
  refine ⟨_, hfrom, ?_⟩
  rw [undirected_csrOf]
  refine ⟨_, hsquish, ?_⟩
  simp only [Bool.false_eq_true, if_false, Option.bind_some]
  decide

/-- What is read back has two neighbours, and the index still points to a
third. -/
def truncatedGraph : CSRGraph Nat :=
  ⟨false, 4, 1, ⟨[0, 0, 1, 2, 3], [some 0, some 0]⟩, ⟨[0, 0, 1, 2, 3], [some 0, some 0]⟩⟩

theorem not_roundTrips_overrunGraph : ¬ overrunGraph.RoundTrips := by
  rintro ⟨file, g, hwrite, hread, -, -, -, hneigh⟩
  have hfile : (writeSerializedGraph overrunGraph).bind readSerializedGraph.run
      = some (truncatedGraph, []) := by decide +kernel
  rw [hwrite, Option.bind_some, hread] at hfile
  cases hfile
  exact absurd (hneigh 3 (by decide)).1 (by decide)

/-- Degrees of which one is `2 ^ 32` and wraps around: a graph is built,
and it does not come back. -/
theorem not_roundTrips_loopEdges :
    (∀ e ∈ loopEdges (2 ^ 30 - 1) (2 ^ 31), e.u ≤ 2 ^ 31 - 3 ∧ e.v ≤ 2 ^ 31 - 3)
      ∧ ∃ g, MakeGraph ⟨true, false⟩ (loopEdges (2 ^ 30 - 1) (2 ^ 31)) (some g)
        ∧ ¬ g.RoundTrips := by
  constructor
  · intro e he
    have h := mem_loopEdges he
    omega
  · have hwrap : int32 ((2 ^ 31 * 2 : Nat) : Int) = 0 := by
      unfold int32
      decide
    exact ⟨overrunGraph, makeGraph_loopEdges (k := 4) (by omega) (by omega) (by omega)
      (by omega) hwrap, not_roundTrips_overrunGraph⟩

end ThesisBench.Gapbs

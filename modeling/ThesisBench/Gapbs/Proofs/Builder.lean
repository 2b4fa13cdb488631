/-
What the plain path of the builder makes of a list of edges.

Whatever the order of the atomic additions and of the writes, `MakeCSR`
leaves the adjacency lists of the values placed at each vertex, in the
order in which they took their slots (`makeCSR_iff`), and the squish
leaves of each list one element for every node (`makeGraph_iff`). For
an unweighted graph the order is gone then: a sorted list without
repetitions is determined by its members (`squish_congr`). So one graph
results, and its members are read off the list of edges.
-/
import ThesisBench.Gapbs.Proofs.Csr
import Mathlib.Data.List.Sort

namespace ThesisBench.Gapbs

open Slots

variable {δ : Type} [DestID δ] {b : Builder} {n : Nat} {el : List (Edge δ)}
  {transpose : Bool}

-- ============================================================== degrees

/-- The vertices counted are those under which values are placed. -/
theorem increments_eq (hb : b.inPlace = false) (transpose : Bool) (el : List (Edge δ)) :
    increments b transpose el = (placements b transpose el).map Prod.fst := by
  unfold increments placements
  rw [List.map_flatMap]
  refine List.flatMap_congr fun e _ => ?_
  rw [hb]
  cases b.symmetrize <;> cases transpose <;> rfl

omit [DestID δ] in
/-- A vertex has as many values as there are placed under it. -/
theorem length_run (s : List (Nat × δ)) (u : Nat) :
    (run s u).length = (s.map Prod.fst).count u := by
  induction s with
  | nil => rfl
  | cons p s ih =>
      obtain ⟨v, x⟩ := p
      rw [List.map_cons, List.count_cons]
      by_cases hv : v = u
      · subst hv
        rw [run_cons_self, List.length_cons, ih]
        simp
      · rw [run_cons_of_ne hv, ih]
        simp [hv]

/-- Adding 1 in 32 bits is adding 1 and wrapping. -/
theorem int32_add_one (x : Nat) : int32 (int32 x + 1) = int32 ((x + 1 : Nat) : Int) := by
  unfold int32
  rw [Int.bmod_add_bmod, Nat.cast_add, Nat.cast_one]

/-- `fetch_and_add` counts one more for its vertex. -/
theorem addDegree_eq (f : Nat → Nat) {v : Nat} (hv : v < n) :
    addDegree ((List.range n).map fun u => int32 (f u)) v
      = some ((List.range n).map fun u => int32 (Function.update f v (f v + 1) u : Nat)) := by
  have hget : ((List.range n).map fun u => int32 (f u))[v]? = some (int32 (f v)) := by
    rw [List.getElem?_map, List.getElem?_range hv]
    rfl
  rw [addDegree, hget, Option.map_some, int32_add_one, set_map_range]
  refine congrArg some (List.map_congr_left fun u _ => ?_)
  by_cases hu : u = v
  · subst hu
    rw [Function.update_self, Function.update_self]
  · rw [Function.update_of_ne hu, Function.update_of_ne hu]

/-- The additions in any order; the degrees wrap around. -/
theorem foldlM_addDegree_int32 (s : List Nat) (hs : ∀ u ∈ s, u < n) : ∀ f : Nat → Nat,
    s.foldlM addDegree ((List.range n).map fun u => int32 (f u))
      = some ((List.range n).map fun u => int32 ((f u + s.count u : Nat) : Int)) := by
  induction s with
  | nil =>
      intro f
      simp
  | cons v s ih =>
      intro f
      have hupdate : ∀ u, Function.update f v (f v + 1) u + s.count u
          = f u + (v :: s).count u := by
        intro u
        by_cases hu : u = v
        · subst hu
          rw [Function.update_self, List.count_cons_self]
          omega
        · rw [Function.update_of_ne hu, List.count_cons_of_ne (Ne.symm hu)]
      show (addDegree _ v).bind (fun d => s.foldlM addDegree d) = _
      rw [addDegree_eq f (hs v List.mem_cons_self), Option.bind_some,
        ih fun u hu => hs u (List.mem_cons_of_mem v hu)]
      simp only [hupdate]

/-- No degree wraps around when all stay below `2 ^ 31`. -/
theorem foldlM_addDegree (s : List Nat) (f : Nat → Nat) (hs : ∀ u ∈ s, u < n)
    (hbound : ∀ u, u < n → f u + s.count u < 2 ^ 31) :
    s.foldlM addDegree ((List.range n).map fun u => (f u : Int))
      = some ((List.range n).map fun u => ((f u + s.count u : Nat) : Int)) := by
  have hfit : ∀ u ∈ List.range n, int32 (f u) = (f u : Int)
      ∧ int32 ((f u + s.count u : Nat) : Int) = ((f u + s.count u : Nat) : Int) := by
    intro u hu
    have hlt := hbound u (List.mem_range.mp hu)
    exact ⟨int32_of_lt (by omega), int32_of_lt hlt⟩
  have hfold := foldlM_addDegree_int32 s hs f
  rwa [List.map_congr_left fun u hu => (hfit u hu).1,
    List.map_congr_left fun u hu => (hfit u hu).2] at hfold

/-- What the code needs of a list of edges: the vertices fit the index,
and the degrees fit a `NodeID`. -/
structure Fits (b : Builder) (n : Nat) (transpose : Bool) (el : List (Edge δ)) : Prop where
  room : n + 1 < 2 ^ 31
  inside : ∀ p ∈ placements b transpose el, p.1 < n
  degree : ∀ u, (increments b transpose el).count u < 2 ^ 31

/-- The additions come in any order, and no degree overflows. -/
theorem countDegrees_counts (hin : ∀ u ∈ increments b transpose el, u < n)
    (hdeg : ∀ u, (increments b transpose el).count u < 2 ^ 31) (degrees : Option (List Int)) :
    CountDegrees b n el transpose degrees ↔ degrees
      = some ((List.range n).map fun u => (((increments b transpose el).count u : Nat) : Int)) := by
  have hspec : ∀ t : List Nat, t.Perm (increments b transpose el) →
      t.foldlM addDegree (List.replicate n 0) = some ((List.range n).map fun u =>
        (((increments b transpose el).count u : Nat) : Int)) := by
    intro t ht
    have hzero : (List.replicate n 0 : List Int)
        = (List.range n).map fun _ => ((0 : Nat) : Int) := by
      rw [List.map_const', List.length_range]
      rfl
    rw [hzero, foldlM_addDegree t (fun _ => 0) (fun u hu => hin u (ht.mem_iff.mp hu))
      (fun u _ => by
        rw [Nat.zero_add, ht.count_eq]
        exact hdeg u)]
    refine congrArg some (List.map_congr_left fun u _ => ?_)
    rw [Nat.zero_add, ht.count_eq]
  constructor
  · rintro ⟨t, ht, rfl⟩
    exact hspec t ht
  · rintro rfl
    exact ⟨_, List.Perm.refl _, (hspec _ (List.Perm.refl _)).symm⟩

/-- The counts are the numbers of values, whatever the order of the
increments. -/
theorem countDegrees_iff (hb : b.inPlace = false) (hf : Fits b n transpose el)
    {s : List (Nat × δ)} (hs : s.Perm (placements b transpose el))
    (degrees : Option (List Int)) :
    CountDegrees b n el transpose degrees
      ↔ degrees = some ((List.range n).map fun u => ((run s u).length : Int)) := by
  have hinc := increments_eq hb transpose el
  have hin : ∀ u ∈ increments b transpose el, u < n := by
    intro u hu
    rw [hinc] at hu
    obtain ⟨p, hp, rfl⟩ := List.mem_map.mp hu
    exact hf.inside p hp
  have hlen : ∀ u, (run s u).length = (increments b transpose el).count u := by
    intro u
    rw [hinc, length_run, (hs.map Prod.fst).count_eq]
  rw [countDegrees_counts hin hf.degree]
  simp only [hlen]

-- ============================================================== MakeCSR

/-- `MakeCSR` leaves the lists of the values in the order they were
placed. -/
theorem makeCSR_iff (hb : b.inPlace = false) (hf : Fits b n transpose el)
    (out : Option (Csr δ)) :
    MakeCSR b n el transpose out
      ↔ ∃ s : List (Nat × δ), s.Perm (placements b transpose el)
          ∧ out = some (csrOf n (run s)) := by
  have hstore : ∀ s : List (Nat × δ), s.Perm (placements b transpose el) →
      ∃ placed, placeAll (parallelPrefixSum
          ((List.range n).map fun u => ((run s u).length : Int))) s = some placed
        ∧ ∀ w : List (Int × δ), w.Perm placed →
          (storeAll (List.replicate ((parallelPrefixSum
            ((List.range n).map fun u => ((run s u).length : Int))).getD n 0).toNat none) w).map
              (fun neighs => (⟨genIndex (parallelPrefixSum
                ((List.range n).map fun u => ((run s u).length : Int))), neighs⟩ : Csr δ))
            = some (csrOf n (run s)) := by
    intro s hs
    have htotal : (start (run s) n).toNat = ((List.range n).flatMap (run s)).length := by
      rw [← length_flatMap_range, Int.toNat_natCast]
    rw [parallelPrefixSum_lengths, getD_starts _ (Nat.le_refl n), htotal,
      genIndex_starts hf.room]
    have hkeys : ∀ p ∈ s, p.1 < n := fun p hp => hf.inside p (hs.mem_iff.mp hp)
    have hcursors : ∀ u, u < n →
        ((List.range (n + 1)).map (start (run s))).getD u 0 = start (run s) u :=
      fun u hu => getD_starts _ (Nat.le_of_lt hu)
    obtain ⟨placed, hplaced, hw⟩ := store_placed hkeys (by simp) hcursors
    refine ⟨placed, hplaced, fun w hperm => ?_⟩
    rw [hw w hperm]
    rfl
  constructor
  · rintro ⟨degrees, hdegrees, hout⟩
    -- the degrees do not depend on the order of the additions
    have hd := (countDegrees_iff hb hf (List.Perm.refl _) degrees).mp hdegrees
    subst hd
    obtain ⟨s, w, hs, hplace⟩ := hout
    have hd := (countDegrees_iff hb hf hs _).mp hdegrees
    rw [Option.some.injEq] at hd
    rw [hd] at hplace
    obtain ⟨placed, hplaced, hw⟩ := hstore s hs
    rw [hplaced] at hplace
    refine ⟨s, hs, ?_⟩
    rw [hplace.2]
    exact hw w hplace.1
  · rintro ⟨s, hs, rfl⟩
    obtain ⟨placed, hplaced, hw⟩ := hstore s hs
    refine ⟨_, (countDegrees_iff hb hf hs _).mpr rfl, s, placed, hs, ?_⟩
    rw [hplaced]
    exact ⟨List.Perm.refl _, (hw placed (List.Perm.refl _)).symm⟩

-- =============================================================== squish

/-- `unique` keeps some of the values, in their order. -/
theorem uniqueFrom_sublist (x : δ) (l : List δ) : (uniqueFrom x l).Sublist (x :: l) := by
  induction l generalizing x with
  | nil => exact List.Sublist.refl _
  | cons y l ih =>
      rw [uniqueFrom]
      split
      · exact (ih x).trans ((List.sublist_cons_self y l).cons_cons x)
      · exact (ih y).cons_cons x

/-- `unique` keeps a value for every vertex. -/
theorem exists_node_uniqueFrom {v : Nat} (x : δ) (l : List δ) :
    (∃ d ∈ uniqueFrom x l, DestID.node d = v) ↔ ∃ d ∈ x :: l, DestID.node d = v := by
  induction l generalizing x with
  | nil => rfl
  | cons y l ih =>
      rw [uniqueFrom]
      split
      · rename_i hxy
        rw [ih x]
        simp only [List.exists_mem_cons_iff]
        rw [hxy]
        constructor
        · rintro (h | h)
          · exact Or.inl h
          · exact Or.inr (Or.inr h)
        · rintro (h | h | h)
          · exact Or.inl h
          · exact Or.inl h
          · exact Or.inr h
      · rw [List.exists_mem_cons_iff, ih y, List.exists_mem_cons_iff (a := x)]

/-- Of sorted values `unique` keeps one for each vertex. -/
theorem pairwise_uniqueFrom (x : δ) (l : List δ)
    (hl : (x :: l).Pairwise fun a b => DestID.node a ≤ DestID.node b) :
    (uniqueFrom x l).Pairwise fun a b => DestID.node a < DestID.node b := by
  induction l generalizing x with
  | nil => exact List.pairwise_singleton _ _
  | cons y l ih =>
      obtain ⟨hx, hyl⟩ := List.pairwise_cons.mp hl
      obtain ⟨hy, htail⟩ := List.pairwise_cons.mp hyl
      rw [uniqueFrom]
      split
      · refine ih x (List.pairwise_cons.mpr ⟨fun z hz => ?_, htail⟩)
        exact hx z (List.mem_cons_of_mem _ hz)
      · rename_i hne
        refine List.pairwise_cons.mpr ⟨fun z hz => ?_, ih y hyl⟩
        have hxy := hx y (List.mem_cons_self ..)
        rcases List.mem_cons.mp ((uniqueFrom_sublist y l).subset hz) with rfl | hz
        · omega
        · have := hy z hz
          omega

/-- Each node stays, once. -/
theorem exists_node_unique {v : Nat} (l : List δ) :
    (∃ d ∈ unique l, DestID.node d = v) ↔ ∃ d ∈ l, DestID.node d = v := by
  cases l with
  | nil => rfl
  | cons x l => exact exists_node_uniqueFrom x l

/-- `unique` keeps some of the values, in their order. -/
theorem unique_sublist (l : List δ) : (unique l).Sublist l := by
  cases l with
  | nil => exact List.Sublist.refl _
  | cons x l => exact uniqueFrom_sublist x l

/-- Of sorted values `unique` keeps one for each vertex. -/
theorem pairwise_unique (l : List δ)
    (hl : l.Pairwise fun a b => DestID.node a ≤ DestID.node b) :
    (unique l).Pairwise fun a b => DestID.node a < DestID.node b := by
  cases l with
  | nil => exact List.Pairwise.nil
  | cons x l => exact pairwise_uniqueFrom x l hl

/-- The nodes that are left: all but the vertex itself. -/
theorem exists_node_squish {u v : Nat} (l : List δ) :
    (∃ d ∈ squish u l, DestID.node d = v) ↔ (∃ d ∈ l, DestID.node d = v) ∧ v ≠ u := by
  have hsort : (∃ d ∈ unique (l.mergeSort DestID.le), DestID.node d = v)
      ↔ ∃ d ∈ l, DestID.node d = v := by
    rw [exists_node_unique]
    simp only [List.mem_mergeSort]
  rw [← hsort]
  unfold squish
  constructor
  · rintro ⟨d, hd, rfl⟩
    obtain ⟨hmem, hne⟩ := List.mem_filter.mp hd
    exact ⟨⟨d, hmem, rfl⟩, of_decide_eq_true hne⟩
  · rintro ⟨⟨d, hmem, rfl⟩, hne⟩
    exact ⟨d, List.mem_filter.mpr ⟨hmem, decide_eq_true hne⟩, rfl⟩

/-- Squished neighbours are in strictly increasing order. -/
theorem pairwise_squish (u : Nat) (l : List δ) :
    (squish u l).Pairwise fun a b => DestID.node a < DestID.node b := by
  refine List.Pairwise.filter _ (pairwise_unique _ ?_)
  exact (List.pairwise_mergeSort DestID.le_trans DestID.le_total l).imp
    fun h => DestID.node_le _ _ h

theorem length_squish_le (u : Nat) (l : List δ) : (squish u l).length ≤ l.length := by
  refine (List.length_filter_le _ _).trans ((unique_sublist _).length_le.trans ?_)
  rw [List.length_mergeSort]

/-- Squishing keeps every neighbour but the vertex itself. -/
theorem mem_squish {u x : Nat} (l : List Nat) : x ∈ squish u l ↔ x ∈ l ∧ x ≠ u := by
  have h : (∃ d ∈ squish u l, d = x) ↔ (∃ d ∈ l, d = x) ∧ x ≠ u := exists_node_squish l
  simpa using h

/-- The members determine what is left. -/
theorem squish_congr (u : Nat) {l m : List Nat} (h : ∀ x, x ∈ l ↔ x ∈ m) :
    squish u l = squish u m := by
  have hlt : ∀ l : List Nat, (squish u l).Pairwise (· < ·) := pairwise_squish u
  refine (hlt l).eq_of_mem_iff (hlt m) fun x => ?_
  rw [mem_squish, mem_squish, h x]

omit [DestID δ] in
theorem map_int32_length {g : Nat → List δ} (hlen : ∀ u, (g u).length < 2 ^ 31) :
    ((List.range n).map g).map (fun l => int32 l.length)
      = (List.range n).map fun u => ((g u).length : Int) := by
  rw [List.map_map]
  refine List.map_congr_left fun u _ => ?_
  rw [Function.comp_apply, int32_of_lt (hlen u)]

omit [DestID δ] in
/-- The copies of the lists fill the new array. -/
theorem copies_eq (g : Nat → List δ) (n : Nat) :
    ((List.range n).flatMap fun u =>
      enumFrom (((List.range (n + 1)).map (start g)).getD u 0)
        ((((List.range n).map g).getD u []).take
          (((List.range n).map fun u => ((g u).length : Int)).getD u 0).toNat))
      = enumFrom 0 ((List.range n).flatMap g) := by
  rw [← flatMap_enumFrom]
  refine List.flatMap_congr fun u hu => ?_
  have hun := List.mem_range.mp hu
  rw [getD_starts g (Nat.le_of_lt hun), List.getD_eq_getElem?_getD,
    List.getD_eq_getElem?_getD, List.getElem?_map, List.getElem?_map,
    List.getElem?_range hun]
  simp

/-- `SquishCSR` squishes every list. -/
theorem squishCSR_iff (hn : n + 1 < 2 ^ 31) {f : Nat → List δ}
    (hlen : ∀ u, (f u).length < 2 ^ 31) (out : Option (Csr δ)) :
    SquishCSR n (csrOf n f) out ↔ out = some (csrOf n fun u => squish u (f u)) := by
  have hlists : ((List.range n).mapM fun u => ((csrOf n f).neigh u).map (squish u))
      = some ((List.range n).map fun u => squish u (f u)) := by
    refine mapM_some fun u hu => ?_
    rw [neigh_csrOf f (List.mem_range.mp hu)]
    rfl
  obtain ⟨g, hg⟩ : ∃ g, g = fun u => squish u (f u) := ⟨_, rfl⟩
  have hsq : ∀ u, (g u).length < 2 ^ 31 := by
    intro u
    have hle : (g u).length ≤ (f u).length := hg ▸ length_squish_le u (f u)
    have hlt := hlen u
    omega
  rw [← hg] at hlists ⊢
  unfold SquishCSR
  rw [hlists]
  have htotal : (start g n).toNat = ((List.range n).flatMap g).length := by
    rw [← length_flatMap_range, Int.toNat_natCast]
  simp only [map_int32_length hsq, parallelPrefixSum_lengths, copies_eq,
    getD_starts g (Nat.le_refl n), htotal, genIndex_starts hn]
  constructor
  · rintro ⟨w, hw, rfl⟩
    rw [storeAll_perm hw]
    rfl
  · rintro rfl
    refine ⟨_, List.Perm.refl _, ?_⟩
    rw [storeAll_perm (List.Perm.refl _)]
    rfl

-- ============================================================ the graph

/-- The adjacency lists after the squish, when the values were placed in
the order `s`. -/
def squished (s : List (Nat × δ)) (u : Nat) : List δ := squish u (run s u)

/-- The graph that results when the values of the two directions were
placed in the orders `s` and `t`. -/
def builtGraph (b : Builder) (n : Nat) (s t : List (Nat × δ)) : CSRGraph δ :=
  let outgoing := csrOf n (squished s)
  if b.symmetrize
  then ⟨false, n, (start (squished s) n).tdiv 2, outgoing, outgoing⟩
  else ⟨true, n, start (squished s) n, outgoing, csrOf n (squished t)⟩

omit [DestID δ] in
/-- The values of a vertex are those placed under it. -/
theorem mem_run {s : List (Nat × δ)} {u : Nat} {d : δ} : d ∈ run s u ↔ (u, d) ∈ s := by
  rw [run, List.mem_filterMap]
  constructor
  · rintro ⟨⟨x, y⟩, hp, hxy⟩
    split at hxy
    · rename_i hx
      simp only at hx hxy
      cases hx
      cases hxy
      exact hp
    · cases hxy
  · intro hp
    exact ⟨(u, d), hp, by simp⟩

/-- `SquishCSR` squishes every list, whatever the order of the threads. -/
theorem squishCSR_run (hb : b.inPlace = false) (hf : Fits b n transpose el)
    {s : List (Nat × δ)} (hs : s.Perm (placements b transpose el)) (out : Option (Csr δ)) :
    SquishCSR n (csrOf n (run s)) out ↔ out = some (csrOf n (squished s)) := by
  have hlen : ∀ u, (run s u).length < 2 ^ 31 := by
    intro u
    rw [length_run, (hs.map Prod.fst).count_eq, ← increments_eq hb]
    exact hf.degree u
  exact squishCSR_iff hf.room hlen out

/-- Every run of `MakeGraph` ends, without a fault, with the graph of the
orders it placed the values in. -/
theorem makeGraph_iff (hb : b.inPlace = false)
    (hf : ∀ transpose, Fits b (findMaxNodeID el + 1) transpose el)
    (out : Option (CSRGraph δ)) :
    MakeGraph b el out ↔ ∃ s t : List (Nat × δ), s.Perm (placements b false el)
      ∧ t.Perm (placements b true el)
      ∧ out = some (builtGraph b (findMaxNodeID el + 1) s t) := by
  unfold MakeGraph MakeGraphFromEL builtGraph
  simp only
  generalize findMaxNodeID el + 1 = n at hf
  have hout := makeCSR_iff hb (hf false)
  have hinv := makeCSR_iff hb (hf true)
  cases hsym : b.symmetrize with
  | true =>
      simp only [if_true]
      constructor
      · rintro ⟨g, ⟨csr, hcsr, rfl⟩, hsq⟩
        obtain ⟨s, hs, rfl⟩ := (hout csr).mp hcsr
        rw [Option.bind_some, undirected_csrOf] at hsq
        obtain ⟨outgoing, ho, hres⟩ := hsq
        have ho := (squishCSR_run hb (hf false) hs outgoing).mp ho
        simp only [Bool.false_eq_true, if_false] at hres
        refine ⟨s, _, hs, List.Perm.refl _, ?_⟩
        rw [hres, ho, Option.bind_some, undirected_csrOf]
      · rintro ⟨s, t, hs, -, rfl⟩
        refine ⟨_, ⟨_, (hout _).mpr ⟨_, hs, rfl⟩, rfl⟩, ?_⟩
        rw [Option.bind_some, undirected_csrOf]
        refine ⟨_, (squishCSR_run hb (hf false) hs _).mpr rfl, ?_⟩
        simp only [Bool.false_eq_true, if_false]
        rw [Option.bind_some, undirected_csrOf]
  | false =>
      simp only [Bool.false_eq_true, if_false]
      constructor
      · rintro ⟨g, ⟨csr, hcsr, inv, hinvc, rfl⟩, hsq⟩
        obtain ⟨s, hs, rfl⟩ := (hout csr).mp hcsr
        obtain ⟨t, ht, rfl⟩ := (hinv inv).mp hinvc
        rw [Option.bind_some, Option.bind_some, ofDirected_csrOf] at hsq
        obtain ⟨outgoing, ho, hres⟩ := hsq
        have ho := (squishCSR_run hb (hf false) hs outgoing).mp ho
        simp only [if_true] at hres
        obtain ⟨incoming, hi, hres⟩ := hres
        have hi := (squishCSR_run hb (hf true) ht incoming).mp hi
        refine ⟨s, t, hs, ht, ?_⟩
        rw [hres, ho, hi, Option.bind_some, Option.bind_some, ofDirected_csrOf]
      · rintro ⟨s, t, hs, ht, rfl⟩
        refine ⟨_, ⟨_, (hout _).mpr ⟨_, hs, rfl⟩, _, (hinv _).mpr ⟨_, ht, rfl⟩, rfl⟩, ?_⟩
        rw [Option.bind_some, Option.bind_some, ofDirected_csrOf]
        refine ⟨_, (squishCSR_run hb (hf false) hs _).mpr rfl, ?_⟩
        simp only [if_true]
        refine ⟨_, (squishCSR_run hb (hf true) ht _).mpr rfl, ?_⟩
        rw [Option.bind_some, Option.bind_some, ofDirected_csrOf]

-- ======================================================== the edge list

/-- The greatest id of the list. -/
theorem foldl_max_spec (el : List (Edge δ)) : ∀ m : Nat,
    let r := el.foldl (fun maxSeen e => max (max maxSeen e.u) (DestID.node e.v)) m
    m ≤ r ∧ (∀ e ∈ el, e.u ≤ r ∧ DestID.node e.v ≤ r)
      ∧ (r = m ∨ ∃ e ∈ el, e.u = r ∨ DestID.node e.v = r) := by
  induction el with
  | nil => exact fun m => ⟨Nat.le_refl m, by simp, Or.inl rfl⟩
  | cons e el ih =>
      intro m
      obtain ⟨hm, hall, hex⟩ := ih (max (max m e.u) (DestID.node e.v))
      simp only [List.foldl_cons] at hm hall hex ⊢
      refine ⟨by omega, ?_, ?_⟩
      · intro e' he'
        rcases List.mem_cons.mp he' with rfl | he'
        · exact ⟨by omega, by omega⟩
        · exact hall e' he'
      · rcases hex with hr | ⟨e', he', hr⟩
        · by_cases hmr : m = max (max m e.u) (DestID.node e.v)
          · left
            omega
          · right
            exact ⟨e, List.mem_cons_self .., by omega⟩
        · exact Or.inr ⟨e', List.mem_cons_of_mem _ he', hr⟩

theorem le_findMaxNodeID {e : Edge δ} (he : e ∈ el) :
    e.u ≤ findMaxNodeID el ∧ DestID.node e.v ≤ findMaxNodeID el :=
  (foldl_max_spec el 0).2.1 e he

theorem exists_findMaxNodeID (hne : el ≠ []) :
    ∃ e ∈ el, e.u = findMaxNodeID el ∨ DestID.node e.v = findMaxNodeID el := by
  rcases (foldl_max_spec el 0).2.2 with hzero | hex
  · obtain ⟨e, el, rfl⟩ := List.exists_cons_of_ne_nil hne
    have hle := le_findMaxNodeID (List.mem_cons_self : e ∈ e :: el)
    have hz : findMaxNodeID (e :: el) = 0 := hzero
    exact ⟨e, List.mem_cons_self .., by omega⟩
  · exact hex

/-- The order of the edges does not matter for the largest id. -/
theorem findMaxNodeID_perm {el' : List (Edge δ)} (hp : el'.Perm el) :
    findMaxNodeID el' = findMaxNodeID el := by
  by_cases hne : el = []
  · subst hne
    rw [List.perm_nil.mp hp]
  · have hne' : el' ≠ [] := fun h => hne (by simpa [h] using hp.symm)
    obtain ⟨e, he, hmax⟩ := exists_findMaxNodeID hne
    obtain ⟨e', he', hmax'⟩ := exists_findMaxNodeID hne'
    have h1 := le_findMaxNodeID (hp.mem_iff.mpr he)
    have h2 := le_findMaxNodeID (hp.mem_iff.mp he')
    omega

/-- Under which vertices an edge places what. -/
theorem mem_placements {u : Nat} {d : δ} :
    (u, d) ∈ placements b transpose el ↔
      ((b.symmetrize = true ∨ transpose = false) ∧ ⟨u, d⟩ ∈ el)
        ∨ ((b.symmetrize = true ∨ transpose = true) ∧ ∃ e ∈ el,
          u = DestID.node e.v ∧ d = DestID.getSource e.u e.v) := by
  unfold placements
  rw [List.mem_flatMap]
  constructor
  · rintro ⟨e, he, hmem⟩
    rcases List.mem_append.mp hmem with hmem | hmem
    · split at hmem
      · rename_i hcond
        cases List.mem_singleton.mp hmem
        left
        refine ⟨?_, he⟩
        revert hcond
        cases b.symmetrize <;> simp
      · cases hmem
    · split at hmem
      · rename_i hcond
        cases List.mem_singleton.mp hmem
        right
        refine ⟨?_, e, he, rfl, rfl⟩
        revert hcond
        cases b.symmetrize <;> simp
      · cases hmem
  · rintro (⟨hcond, he⟩ | ⟨hcond, e, he, rfl, rfl⟩)
    · refine ⟨_, he, List.mem_append_left _ ?_⟩
      rw [if_pos (by revert hcond; cases b.symmetrize <;> simp)]
      exact List.mem_singleton_self _
    · refine ⟨_, he, List.mem_append_right _ ?_⟩
      rw [if_pos (by revert hcond; cases b.symmetrize <;> simp)]
      exact List.mem_singleton_self _

/-- Bounds on the ids and the degrees are enough. -/
theorem fits_of_bounds
    (hid : ∀ e ∈ el, e.u ≤ 2 ^ 31 - 3 ∧ DestID.node e.v ≤ 2 ^ 31 - 3)
    (hdeg : ∀ u, (increments b transpose el).count u < 2 ^ 31) :
    Fits b (findMaxNodeID el + 1) transpose el := by
  refine ⟨?_, ?_, hdeg⟩
  · by_cases hne : el = []
    · subst hne
      show 0 + 1 + 1 < 2 ^ 31
      omega
    · obtain ⟨e, he, hmax⟩ := exists_findMaxNodeID hne
      have := hid e he
      omega
  · rintro ⟨u, d⟩ hp
    rcases mem_placements.mp hp with ⟨-, he⟩ | ⟨-, e, he, rfl, -⟩
    · exact Nat.lt_succ_of_le (le_findMaxNodeID he).1
    · exact Nat.lt_succ_of_le (le_findMaxNodeID he).2

-- ==================================================== unweighted graphs

section Unweighted

variable {el : List (Edge Nat)}

/-- The adjacency lists of the simple graph. -/
def simple (b : Builder) (transpose : Bool) (el : List (Edge Nat)) : Nat → List Nat :=
  squished (placements b transpose el)

/-- The graph that every run builds. -/
def simpleGraph (b : Builder) (el : List (Edge Nat)) : CSRGraph Nat :=
  builtGraph b (findMaxNodeID el + 1) (placements b false el) (placements b true el)

/-- The order of the placements does not matter after the squish. -/
theorem squished_perm {s t : List (Nat × Nat)} (hp : s.Perm t) :
    squished s = squished t := by
  funext u
  refine squish_congr u fun v => ?_
  rw [mem_run, mem_run, hp.mem_iff]

/-- The order of the placements does not matter for the graph. -/
theorem builtGraph_perm {s s' t t' : List (Nat × Nat)} (hs : s.Perm s') (ht : t.Perm t') :
    builtGraph b n s t = builtGraph b n s' t' := by
  unfold builtGraph
  rw [squished_perm hs, squished_perm ht]

/-- Every run of the builder builds the simple graph. -/
theorem makeGraph_iff_simpleGraph (hb : b.inPlace = false)
    (hf : ∀ transpose, Fits b (findMaxNodeID el + 1) transpose el)
    (out : Option (CSRGraph Nat)) :
    MakeGraph b el out ↔ out = some (simpleGraph b el) := by
  rw [makeGraph_iff hb hf]
  constructor
  · rintro ⟨s, t, hs, ht, rfl⟩
    rw [builtGraph_perm hs ht]
    rfl
  · rintro rfl
    exact ⟨_, _, List.Perm.refl _, List.Perm.refl _, rfl⟩

/-- The neighbours in the simple graph. -/
theorem mem_simple {u v : Nat} : v ∈ simple b transpose el u ↔
    u ≠ v ∧ (((b.symmetrize = true ∨ transpose = false) ∧ ⟨u, v⟩ ∈ el)
      ∨ ((b.symmetrize = true ∨ transpose = true) ∧ ⟨v, u⟩ ∈ el)) := by
  have hex : (∃ e ∈ el, u = DestID.node e.v ∧ v = DestID.getSource e.u e.v)
      ↔ (⟨v, u⟩ : Edge Nat) ∈ el := by
    constructor
    · rintro ⟨⟨x, y⟩, he, rfl, rfl⟩
      exact he
    · intro he
      exact ⟨_, he, rfl, rfl⟩
  rw [simple, squished, mem_squish, mem_run, mem_placements, hex, and_comm, ne_comm]

/-- The order of the edges does not matter for the simple graph. -/
theorem simpleGraph_perm {el' : List (Edge Nat)} (hp : el'.Perm el) :
    simpleGraph b el' = simpleGraph b el := by
  unfold simpleGraph
  rw [findMaxNodeID_perm hp]
  exact builtGraph_perm (hp.flatMap_right _) (hp.flatMap_right _)

theorem outNeigh_simpleGraph {u : Nat} (hu : u < findMaxNodeID el + 1) :
    (simpleGraph b el).outNeigh u = some (simple b false el u) := by
  unfold simpleGraph builtGraph CSRGraph.outNeigh
  cases b.symmetrize <;> exact neigh_csrOf _ hu

/-- Of a symmetrized graph both directions are the outgoing one. -/
theorem inNeigh_simpleGraph {u : Nat} (hu : u < findMaxNodeID el + 1) :
    (simpleGraph b el).inNeigh u = some (simple b (!b.symmetrize) el u) := by
  unfold simpleGraph builtGraph CSRGraph.inNeigh
  cases b.symmetrize <;> exact neigh_csrOf _ hu

/-- The simple graph has a vertex for every id up to the largest. -/
theorem numNodes_simpleGraph : (simpleGraph b el).numNodes = findMaxNodeID el + 1 := by
  unfold simpleGraph builtGraph
  cases b.symmetrize <;> rfl

/-- The incoming edges are the outgoing ones, turned round. -/
theorem mem_simple_transpose {u v : Nat} :
    v ∈ simple b (!b.symmetrize) el u ↔ u ∈ simple b false el v := by
  rw [mem_simple, mem_simple]
  cases b.symmetrize with
  | true => simp [ne_comm, or_comm]
  | false => simp [ne_comm]

/-- Whatever the order of the additions and writes, and of the list
itself, the plain path builds one graph: the simple graph of the list. -/
theorem makeGraph_simple (symmetrize : Bool) (el : List (Edge Nat)) (hne : el ≠ [])
    (hid : ∀ e ∈ el, e.u ≤ 2 ^ 31 - 3 ∧ e.v ≤ 2 ^ 31 - 3)
    (hdeg : ∀ transpose u,
      (increments ⟨symmetrize, false⟩ transpose el).count u < 2 ^ 31) :
    ∃ g : CSRGraph Nat,
      (∀ el' : List (Edge Nat), el'.Perm el → ∀ out,
        MakeGraph ⟨symmetrize, false⟩ el' out ↔ out = some g)
      ∧ (∀ e ∈ el, e.u < g.numNodes ∧ e.v < g.numNodes)
      ∧ (∃ e ∈ el, e.u + 1 = g.numNodes ∨ e.v + 1 = g.numNodes)
      ∧ ∀ u, u < g.numNodes → ∃ outs ins : List Nat,
        g.outNeigh u = some outs ∧ g.inNeigh u = some ins
        ∧ outs.Pairwise (· < ·) ∧ ins.Pairwise (· < ·) ∧ u ∉ outs
        ∧ (∀ v, v ∈ outs ↔ u ≠ v ∧ (⟨u, v⟩ ∈ el ∨ (symmetrize = true ∧ ⟨v, u⟩ ∈ el)))
        ∧ ∀ v, v ∈ ins ↔ v < g.numNodes ∧ ∃ outs' : List Nat,
            g.outNeigh v = some outs' ∧ u ∈ outs' := by
  refine ⟨simpleGraph ⟨symmetrize, false⟩ el, ?_, ?_, ?_, ?_⟩
  · intro el' hp out
    have hfits : ∀ transpose,
        Fits ⟨symmetrize, false⟩ (findMaxNodeID el' + 1) transpose el' := by
      intro transpose
      refine fits_of_bounds (fun e he => hid e (hp.mem_iff.mp he)) fun u => ?_
      have hperm : (increments ⟨symmetrize, false⟩ transpose el').Perm
          (increments ⟨symmetrize, false⟩ transpose el) := hp.flatMap_right _
      rw [hperm.count_eq]
      exact hdeg transpose u
    rw [makeGraph_iff_simpleGraph rfl hfits, simpleGraph_perm hp]
  · intro e he
    have hle : e.u ≤ findMaxNodeID el ∧ e.v ≤ findMaxNodeID el := le_findMaxNodeID he
    rw [numNodes_simpleGraph]
    omega
  · obtain ⟨e, he, hmax⟩ := exists_findMaxNodeID hne
    have hmax' : e.u = findMaxNodeID el ∨ e.v = findMaxNodeID el := hmax
    refine ⟨e, he, ?_⟩
    rw [numNodes_simpleGraph]
    omega
  · intro u hu
    rw [numNodes_simpleGraph] at hu
    refine ⟨_, _, outNeigh_simpleGraph hu, inNeigh_simpleGraph hu, pairwise_squish _ _,
      pairwise_squish _ _, ?_, ?_, ?_⟩
    · rw [mem_simple]
      exact fun h => h.1 rfl
    · intro v
      rw [mem_simple]
      simp
    · intro v
      rw [mem_simple_transpose, numNodes_simpleGraph]
      constructor
      · intro hmem
        have hv : v < findMaxNodeID el + 1 := by
          rcases (mem_simple.mp hmem).2 with ⟨-, he⟩ | ⟨-, he⟩
          · exact Nat.lt_succ_of_le (le_findMaxNodeID he).1
          · exact Nat.lt_succ_of_le (le_findMaxNodeID he).2
        exact ⟨hv, _, outNeigh_simpleGraph hv, hmem⟩
      · rintro ⟨hv, outs', houts, hmem⟩
        rw [outNeigh_simpleGraph hv, Option.some.injEq] at houts
        rw [houts]
        exact hmem

/-- Four edges, one of them twice and one a loop. -/
def fourEdges : List (Edge Nat) := [⟨0, 2⟩, ⟨0, 1⟩, ⟨1, 1⟩, ⟨0, 2⟩]

/-- The four edges as a graph of three vertices. -/
theorem makeGraph_simple_four : ∃ g : CSRGraph Nat,
    MakeGraph ⟨false, false⟩ fourEdges (some g) ∧ g.numNodes = 3
      ∧ ∃ outs, g.outNeigh 1 = some outs ∧ outs = [] := by
  have hdeg : ∀ transpose u,
      (increments ⟨false, false⟩ transpose fourEdges).count u < 2 ^ 31 := by
    intro transpose u
    have hlen : (increments ⟨false, false⟩ transpose fourEdges).length = 4 := by
      cases transpose <;> rfl
    have hcount : (increments ⟨false, false⟩ transpose fourEdges).count u ≤ _ :=
      List.count_le_length
    omega
  obtain ⟨g, hall, hbound, hmax, hneigh⟩ :=
    makeGraph_simple false fourEdges (by decide) (by decide) hdeg
  have hnodes : g.numNodes = 3 := by
    have h2 := hbound ⟨0, 2⟩ (by decide)
    simp only [fourEdges, List.mem_cons, List.not_mem_nil, or_false, exists_eq_or_imp,
      exists_eq_left] at hmax
    simp only at h2
    omega
  refine ⟨g, (hall _ (List.Perm.refl _) _).mpr rfl, hnodes, ?_⟩
  obtain ⟨outs, -, houts, -, -, -, -, hmem, -⟩ := hneigh 1 (by omega)
  refine ⟨outs, houts, List.eq_nil_iff_forall_not_mem.mpr fun v hv => ?_⟩
  have hv := (hmem v).mp hv
  simp [fourEdges] at hv
  omega

end Unweighted

end ThesisBench.Gapbs

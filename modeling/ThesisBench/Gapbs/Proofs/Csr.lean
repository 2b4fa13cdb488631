/-
The arrays of a graph as adjacency lists.

`csrOf n f` is the index and the neighbour array that say, of each of
the vertices below `n`, that its neighbours are `f u`. The offsets that
the builder computes block by block are the places where the lists
start (`parallelPrefixSum_lengths`), so whatever the builder stores by
them is a `csrOf`.
-/
import ThesisBench.Gapbs.Builder
import Mathlib.Tactic.Ring

namespace ThesisBench.Gapbs

open Slots

variable {δ : Type}

-- ====================================================== adjacency lists

/-- The arrays of the adjacency lists `f`. -/
def csrOf (n : Nat) (f : Nat → List δ) : Csr δ where
  index := (List.range (n + 1)).map (start f)
  neighs := ((List.range n).flatMap f).map some

/-- One more list goes to the end of the array. -/
theorem neighs_csrOf_succ (n : Nat) (f : Nat → List δ) :
    (csrOf (n + 1) f).neighs = (csrOf n f).neighs ++ (f n).map some := by
  show ((List.range (n + 1)).flatMap f).map some = _
  rw [List.range_succ, List.flatMap_append, List.map_append, List.flatMap_singleton]
  rfl

theorem length_neighs (n : Nat) (f : Nat → List δ) :
    ((csrOf n f).neighs.length : Int) = start f n := by
  rw [csrOf, List.length_map, length_flatMap_range]

/-- Reading an array that has been written everywhere. -/
theorem mapM_id_some (l : List δ) : (l.map some).mapM id = some l := by
  induction l with
  | nil => rfl
  | cons x l ih =>
      rw [List.map_cons, List.mapM_cons, ih]
      rfl

theorem mapM_some {α β : Type} {f : α → Option β} {g : α → β} {l : List α}
    (h : ∀ x ∈ l, f x = some (g x)) : l.mapM f = some (l.map g) := by
  induction l with
  | nil => rfl
  | cons x l ih =>
      rw [List.mapM_cons, h x (List.mem_cons_self ..),
        ih fun y hy => h y (List.mem_cons_of_mem _ hy)]
      rfl

/-- Where the lists start does not depend on what is in them. -/
theorem start_map_some (f : Nat → List δ) :
    start (fun u => (f u).map some) = start f := by
  funext u
  simp [start]

/-- The index says where the list of a vertex starts. -/
theorem getElem?_index {f : Nat → List δ} {n u : Nat} (hu : u ≤ n) :
    (csrOf n f).index[u]? = some (start f u) := by
  rw [csrOf, List.getElem?_map, List.getElem?_range (by omega)]
  rfl

/-- A neighbourhood is the vertex's list, also where there is more memory
than the lists need. -/
theorem neigh_append (f : Nat → List δ) (rest : List (Option δ)) {n u : Nat} (hu : u < n) :
    (⟨(csrOf n f).index, (csrOf n f).neighs ++ rest⟩ : Csr δ).neigh u = some (f u) := by
  have hslice := slice_append_left (slice_flatMap (fun u => (f u).map some) hu) rest
  rw [start_map_some] at hslice
  have hneighs : (csrOf n f).neighs = (List.range n).flatMap fun u => (f u).map some :=
    List.map_flatMap ..
  simp only [Csr.neigh, getElem?_index (Nat.le_of_lt hu), getElem?_index (Nat.succ_le_of_lt hu),
    Option.bind_eq_bind, Option.bind_some, hneighs, hslice, mapM_id_some]

/-- The neighbours of a vertex are its list. -/
theorem neigh_csrOf (f : Nat → List δ) {n u : Nat} (hu : u < n) :
    (csrOf n f).neigh u = some (f u) := by
  have h := neigh_append f [] hu
  rw [List.append_nil] at h
  exact h

/-- The last index is the number of all neighbours. -/
theorem size_csrOf (n : Nat) (f : Nat → List δ) :
    (csrOf n f).size n = some (start f n) := by
  simp only [Csr.size, getElem?_index (Nat.le_refl n), getElem?_index (Nat.zero_le n),
    Option.bind_eq_bind, Option.bind_some]
  simp [start]

theorem undirected_csrOf (n : Nat) (f : Nat → List δ) :
    CSRGraph.undirected n (csrOf n f)
      = some ⟨false, n, (start f n).tdiv 2, csrOf n f, csrOf n f⟩ := by
  rw [CSRGraph.undirected, size_csrOf]
  rfl

/-- The directed graph on two pairs of arrays. -/
theorem ofDirected_csrOf (n : Nat) (f g : Nat → List δ) :
    CSRGraph.ofDirected n (csrOf n f) (csrOf n g)
      = some ⟨true, n, start f n, csrOf n f, csrOf n g⟩ := by
  rw [CSRGraph.ofDirected, size_csrOf]
  rfl

-- ========================================================== prefix sums

theorem int32_of_lt {x : Nat} (hx : x < 2 ^ 31) : int32 x = x := by
  unfold int32
  apply Int.bmod_eq_of_le
  · omega
  · omega

/-- There is a running total for each number. -/
theorem length_runningTotals (k : Int) (l : List Int) :
    (runningTotals k l).length = l.length := by
  induction l generalizing k with
  | nil => rfl
  | cons d l ih => rw [runningTotals, List.length_cons, ih, List.length_cons]

/-- Running totals of two lists, one behind the other. -/
theorem runningTotals_append (k : Int) (l m : List Int) :
    runningTotals k (l ++ m) = runningTotals k l ++ runningTotals (k + l.sum) m := by
  induction l generalizing k with
  | nil => simp [runningTotals]
  | cons d l ih =>
      rw [List.cons_append, runningTotals, ih, runningTotals, List.cons_append,
        List.sum_cons, Int.add_assoc]

/-- A running total is the sum of what comes before it. -/
theorem getElem?_runningTotals {k : Int} {l : List Int} {i : Nat} (hi : i < l.length) :
    (runningTotals k l)[i]? = some (k + (l.take i).sum) := by
  induction l generalizing k i with
  | nil => cases hi
  | cons d l ih =>
      cases i with
      | zero => simp [runningTotals]
      | succ i =>
          rw [runningTotals, List.getElem?_cons_succ, ih (Nat.lt_of_succ_lt_succ hi),
            List.take_succ_cons, List.sum_cons, Int.add_assoc]

theorem sum_flatMap_range (blocks : Nat → List Int) (k : Nat) :
    ((List.range k).flatMap blocks).sum
      = ((List.range k).map fun b => (blocks b).sum).sum := by
  induction k with
  | zero => rfl
  | succ k ih =>
      rw [List.range_succ, List.flatMap_append, List.sum_append, ih, List.flatMap_singleton,
        List.map_append, List.sum_append, List.map_singleton, List.sum_singleton]

/-- Running totals block by block, each from the total of the blocks
before it. -/
theorem flatMap_runningTotals (blocks : Nat → List Int) (k : Nat) :
    (List.range k).flatMap (fun block =>
        runningTotals ((List.range block).map fun b => (blocks b).sum).sum (blocks block))
      = runningTotals 0 ((List.range k).flatMap blocks) := by
  induction k with
  | zero => rfl
  | succ k ih =>
      rw [List.range_succ, List.flatMap_append, List.flatMap_append, ih,
        List.flatMap_singleton, List.flatMap_singleton, runningTotals_append, Int.zero_add,
        sum_flatMap_range]

section

variable (blockSize : Nat) (degrees : List Int)

/-- The blocks up to the `k`-th. -/
theorem flatMap_blockOf (k : Nat) :
    (List.range k).flatMap (blockOf blockSize degrees) = degrees.take (k * blockSize) := by
  induction k with
  | zero => simp
  | succ k ih =>
      have hmin : degrees.take (min ((k + 1) * blockSize) degrees.length)
          = degrees.take ((k + 1) * blockSize) := by
        rw [List.take_eq_take_iff]
        omega
      have hle : k * blockSize ≤ (k + 1) * blockSize := Nat.mul_le_mul_right _ (by omega)
      have hfront : degrees.take (k * blockSize)
          = (degrees.take ((k + 1) * blockSize)).take (k * blockSize) := by
        rw [List.take_take, Nat.min_eq_left hle]
      rw [List.range_succ, List.flatMap_append, ih, List.flatMap_singleton, blockOf, hmin,
        hfront, List.take_append_drop]

/-- The blocks in their order are the whole list. -/
theorem flatMap_blocks (hpos : 0 < blockSize) :
    (List.range (numBlocks blockSize degrees)).flatMap (blockOf blockSize degrees)
      = degrees := by
  have hle : degrees.length ≤ numBlocks blockSize degrees * blockSize := by
    have h := Nat.lt_div_mul_add (a := degrees.length + blockSize - 1) hpos
    unfold numBlocks
    omega
  rw [flatMap_blockOf, List.take_of_length_le hle]

theorem length_localSums :
    (localSums blockSize degrees).length = numBlocks blockSize degrees := by
  rw [localSums, List.length_map, List.length_range]

theorem sum_localSums (hpos : 0 < blockSize) :
    (localSums blockSize degrees).sum = degrees.sum := by
  rw [localSums, ← sum_flatMap_range, flatMap_blocks blockSize degrees hpos]

/-- The total of the blocks before one. -/
theorem getD_bulkPrefix {block : Nat} (hblock : block < numBlocks blockSize degrees) :
    (bulkPrefix blockSize degrees).getD block 0
      = ((List.range block).map fun b => (blockOf blockSize degrees b).sum).sum := by
  have htake : (localSums blockSize degrees).take block
      = (List.range block).map fun b => (blockOf blockSize degrees b).sum := by
    rw [localSums, ← List.map_take, List.take_range, Nat.min_eq_left (Nat.le_of_lt hblock)]
  have hlt : block < (localSums blockSize degrees).length := by
    rw [length_localSums]
    exact hblock
  rw [bulkPrefix, List.getD_eq_getElem?_getD,
    List.getElem?_append_left (by rw [length_runningTotals]; exact hlt),
    getElem?_runningTotals hlt, htake, Option.getD_some, Int.zero_add]

/-- The last of the bulk prefixes is the whole sum. -/
theorem getD_bulkPrefix_last (hpos : 0 < blockSize) :
    (bulkPrefix blockSize degrees).getD (numBlocks blockSize degrees) 0 = degrees.sum := by
  have hlen : (runningTotals 0 (localSums blockSize degrees)).length
      = numBlocks blockSize degrees := by
    rw [length_runningTotals, length_localSums]
  rw [bulkPrefix, List.getD_eq_getElem?_getD,
    List.getElem?_append_right (by rw [hlen]), hlen, Nat.sub_self,
    sum_localSums blockSize degrees hpos]
  rfl

/-- The prefix sum by blocks is the serial one. -/
theorem prefixSumBy_eq (hpos : 0 < blockSize) :
    prefixSumBy blockSize degrees = runningTotals 0 degrees ++ [degrees.sum] := by
  have hblocks : (List.range (numBlocks blockSize degrees)).flatMap (fun block =>
      runningTotals ((bulkPrefix blockSize degrees).getD block 0)
        (blockOf blockSize degrees block))
        = runningTotals 0 degrees := by
    have htotals := flatMap_runningTotals (blockOf blockSize degrees)
      (numBlocks blockSize degrees)
    rw [flatMap_blocks blockSize degrees hpos] at htotals
    rw [← htotals]
    refine List.flatMap_congr fun block hb => ?_
    rw [getD_bulkPrefix blockSize degrees (List.mem_range.mp hb)]
  rw [prefixSumBy, hblocks, getD_bulkPrefix_last blockSize degrees hpos]

end

/-- The offsets are the running totals with the sum at the end. -/
theorem parallelPrefixSum_eq (degrees : List Int) :
    parallelPrefixSum degrees = runningTotals 0 degrees ++ [degrees.sum] := by
  unfold parallelPrefixSum
  exact prefixSumBy_eq _ degrees (Nat.two_pow_pos 20)

/-- The prefix sums of lengths are the places where the lists start. -/
theorem parallelPrefixSum_lengths (f : Nat → List δ) (n : Nat) :
    parallelPrefixSum ((List.range n).map fun u => ((f u).length : Int))
      = (List.range (n + 1)).map (start f) := by
  have htake : ∀ i, i ≤ n →
      (((List.range n).map fun u => ((f u).length : Int)).take i).sum = start f i := by
    intro i hi
    rw [← List.map_take, List.take_range, Nat.min_eq_left hi]
    rfl
  rw [parallelPrefixSum_eq, List.range_succ, List.map_append, List.map_singleton]
  refine congrArg₂ (· ++ ·) ?_ ?_
  · refine List.ext_getElem? fun i => ?_
    by_cases hi : i < n
    · rw [getElem?_runningTotals (by simpa using hi), htake i (Nat.le_of_lt hi),
        List.getElem?_map, List.getElem?_range hi, Int.zero_add]
      rfl
    · rw [List.getElem?_eq_none (by rw [length_runningTotals]; simpa using hi),
        List.getElem?_eq_none (by simpa using hi)]
  · rfl

/-- `GenIndex` copies offsets that a 32-bit number of vertices has. -/
theorem genIndex_starts {n : Nat} (hn : n + 1 < 2 ^ 31) (f : Nat → List δ) :
    genIndex ((List.range (n + 1)).map (start f)) = (List.range (n + 1)).map (start f) := by
  rw [genIndex, List.length_map, List.length_range, int32_of_lt hn, Int.toNat_natCast,
    List.take_of_length_le (by simp)]

/-- The offset of a vertex is where its list starts. -/
theorem getD_starts (f : Nat → List δ) {n u : Nat} (hu : u ≤ n) :
    ((List.range (n + 1)).map (start f)).getD u 0 = start f u := by
  rw [List.getD_eq_getElem?_getD, List.getElem?_map, List.getElem?_range (by omega)]
  rfl

end ThesisBench.Gapbs

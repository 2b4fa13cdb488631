/-
The blocked prefix sums are the serial ones.

Both leave the running totals of the degrees and, last, the total
(`prefixSum_eq`, `parallelPrefixSum_iff`). The blocks tile the vector:
all but the last are full, so a block's writes start where the writes of
the blocks before it end (`start_blocks`), whatever the order in which
they are made.
-/
import ThesisBench.Gapbs.PrefixSum
import ThesisBench.Gapbs.Proofs.Csr

namespace ThesisBench.Gapbs

open Slots

variable {blockSize : Nat} {degrees : List Int}

-- ======================================================= the serial loop

/-- The rounds that are left, when those for `done` have been made. -/
theorem prefixSum_run (todo : List Int) : ∀ done : List Int, done ++ todo = degrees →
    (List.range' done.length todo.length).foldlM
      (fun (st : List (Option Int) × Int) (n : Nat) => do
        let sums ← write st.1 n (some st.2)
        let d ← degrees[n]?
        pure (sums, st.2 + d))
      ((runningTotals 0 done).map some ++ List.replicate (todo.length + 1) none, done.sum)
    = some ((runningTotals 0 degrees).map some ++ [none], degrees.sum) := by
  induction todo with
  | nil =>
      intro done hdegrees
      rw [List.append_nil] at hdegrees
      subst hdegrees
      rfl
  | cons d todo ih =>
      intro done hdegrees
      have hwrite : write ((runningTotals 0 done).map some
          ++ List.replicate ((d :: todo).length + 1) none) done.length (some done.sum)
          = some ((runningTotals 0 (done ++ [d])).map some
            ++ List.replicate (todo.length + 1) none) := by
        rw [List.length_cons, List.replicate_succ, write_append (by
          rw [List.length_map, length_runningTotals]), runningTotals_append, List.map_append,
          List.append_assoc, Int.zero_add]
        rfl
      have hget : degrees[done.length]? = some d := by
        rw [← hdegrees, List.getElem?_append_right (Nat.le_refl _), Nat.sub_self]
        rfl
      have hsum : done.sum + d = (done ++ [d]).sum := by
        rw [List.sum_append, List.sum_singleton]
      have hlen : done.length + 1 = (done ++ [d]).length := by
        rw [List.length_append, List.length_singleton]
      rw [List.length_cons, List.range'_succ, List.foldlM_cons, ← List.length_cons, hwrite, hget]
      show List.foldlM _ (_, done.sum + d) _ = _
      rw [hsum, hlen]
      exact ih (done ++ [d]) (by rw [← hdegrees, List.append_assoc]; rfl)

/-- `PrefixSum` returns the running totals with the sum at the end. -/
theorem prefixSum_eq (degrees : List Int) :
    prefixSum degrees = some (runningTotals 0 degrees ++ [degrees.sum]) := by
  have hrange : List.range degrees.length = List.range' ([] : List Int).length degrees.length :=
    List.range_eq_range'
  have hlen : ((runningTotals 0 degrees).map some).length = degrees.length := by
    rw [List.length_map, length_runningTotals]
  unfold prefixSum
  rw [hrange]
  refine Option.bind_eq_some_iff.mpr ⟨_, prefixSum_run degrees [] rfl, ?_⟩
  show (write ((runningTotals 0 degrees).map some ++ [none]) _ _).bind _ = _
  rw [write_append (by rw [hlen]), Option.bind_some]
  have happend : (runningTotals 0 degrees).map some ++ [some degrees.sum]
      = (runningTotals 0 degrees ++ [degrees.sum]).map some := by rw [List.map_append]; rfl
  exact (congrArg (List.mapM id) happend).trans (mapM_id_some _)

-- ============================================================ the blocks

/-- The first loop of a block adds up its degrees. -/
theorem addUp_eq (count : Nat) : ∀ (i : Nat) (lsum : Int), i + count ≤ degrees.length →
    addUp degrees i count lsum = some (lsum + ((degrees.drop i).take count).sum) := by
  induction count with
  | zero =>
      intro i lsum _
      simp [addUp]
  | succ count ih =>
      intro i lsum hi
      have hlt : i < degrees.length := by omega
      rw [addUp, List.getElem?_eq_getElem hlt, List.drop_eq_getElem_cons hlt,
        List.take_succ_cons, List.sum_cons, ← Int.add_assoc]
      exact ih (i + 1) _ (by omega)

/-- The second loop of a block writes its running totals. -/
theorem rescan_eq (count : Nat) : ∀ (i : Nat) (total : Int), i + count ≤ degrees.length →
    rescan degrees i count total
      = some (enumFrom i (runningTotals total ((degrees.drop i).take count))) := by
  induction count with
  | zero =>
      intro i total _
      rfl
  | succ count ih =>
      intro i total hi
      have hlt : i < degrees.length := by omega
      rw [rescan, List.getElem?_eq_getElem hlt, List.drop_eq_getElem_cons hlt,
        List.take_succ_cons, runningTotals, enumFrom]
      show (rescan degrees (i + 1) count _).bind _ = _
      rw [ih (i + 1) _ (by omega)]
      rfl

/-- A block that is counted starts inside the vector. -/
theorem block_mul_lt (hpos : 0 < blockSize) {block : Nat}
    (hblock : block < numBlocks blockSize degrees) : block * blockSize < degrees.length := by
  have hle : (block + 1) * blockSize ≤ degrees.length + blockSize - 1 :=
    (Nat.le_div_iff_mul_le hpos).mp hblock
  rw [Nat.succ_mul] at hle
  omega

/-- The degrees a block looks at are its own. -/
theorem take_drop_block (block : Nat) :
    (degrees.drop (block * blockSize)).take
        (blockEnd blockSize degrees block - block * blockSize)
      = blockOf blockSize degrees block := by
  rw [blockOf, blockEnd, List.drop_take]

/-- Where a block ends: at its own length or at the vector's. -/
theorem blockEnd_le (blockSize : Nat) (degrees : List Int) (block : Nat) :
    blockEnd blockSize degrees block ≤ degrees.length :=
  Nat.min_le_right _ _

theorem le_blockEnd (hpos : 0 < blockSize) {block : Nat}
    (hblock : block < numBlocks blockSize degrees) :
    block * blockSize ≤ blockEnd blockSize degrees block := by
  have hlt := block_mul_lt hpos hblock
  have hle : block * blockSize ≤ (block + 1) * blockSize := Nat.mul_le_mul_right _ (by omega)
  exact Nat.le_min.mpr ⟨hle, Nat.le_of_lt hlt⟩

/-- The first parallel loop stores the sums of the blocks. -/
theorem localSums_eq (hpos : 0 < blockSize) :
    (List.range (numBlocks blockSize degrees)).mapM (localSum blockSize degrees)
      = some ((List.range (numBlocks blockSize degrees)).map fun block : Nat =>
          ((block : Int), (blockOf blockSize degrees block).sum)) := by
  refine mapM_some fun block hblock => ?_
  have hle := le_blockEnd hpos (List.mem_range.mp hblock)
  have hend := blockEnd_le blockSize degrees block
  rw [localSum, addUp_eq _ _ _ (by omega), take_drop_block, Int.zero_add]
  rfl

/-- The first parallel loop writes every slot of `local_sums`. -/
theorem enumFrom_localSums (blockSize : Nat) (degrees : List Int) :
    ((List.range (numBlocks blockSize degrees)).map fun block : Nat =>
        ((block : Int), (blockOf blockSize degrees block).sum))
      = enumFrom 0 (localSums blockSize degrees) := by
  have hmap : ∀ (f : Nat → Int) (k : Nat), enumFrom 0 ((List.range k).map f)
      = (List.range k).map fun block : Nat => ((block : Int), f block) := by
    intro f k
    induction k with
    | zero => rfl
    | succ k ih =>
        rw [List.range_succ, List.map_append, enumFrom_append, ih, List.map_append]
        simp [enumFrom]
  exact (hmap _ _).symm

/-- The blocks before one are full. -/
theorem start_blocks (hpos : 0 < blockSize) {f : Nat → List Int}
    (hf : ∀ block, (f block).length = (blockOf blockSize degrees block).length)
    {block : Nat} (hblock : block < numBlocks blockSize degrees) :
    start f block = (block * blockSize : Nat) := by
  have hlt := block_mul_lt hpos hblock
  rw [start_congr fun b _ => hf b, ← length_flatMap_range, flatMap_blockOf, List.length_take]
  omega

/-- The second parallel loop: block by block, the running totals at the
slots of the degrees. -/
theorem rescans_eq (degrees : List Int) (hpos : 0 < blockSize) :
    ∃ writes, (List.range (numBlocks blockSize degrees)).mapM
        (rescanBlock blockSize degrees (bulkPrefix blockSize degrees)) = some writes
      ∧ writes.flatten = enumFrom 0 (runningTotals 0 degrees) := by
  have hrescan : ∀ block ∈ List.range (numBlocks blockSize degrees),
      rescanBlock blockSize degrees (bulkPrefix blockSize degrees) block
        = some (enumFrom ((block * blockSize : Nat) : Int)
            (runningTotals ((bulkPrefix blockSize degrees).getD block 0)
              (blockOf blockSize degrees block))) := by
    intro block hblock
    have hlt := List.mem_range.mp hblock
    have hle := le_blockEnd hpos hlt
    have hend := blockEnd_le blockSize degrees block
    have hbulk : (bulkPrefix blockSize degrees)[block]?
        = some ((bulkPrefix blockSize degrees).getD block 0) := by
      have hlen : block < (bulkPrefix blockSize degrees).length := by
        rw [bulkPrefix, List.length_append, length_runningTotals, length_localSums]
        omega
      rw [List.getD_eq_getElem?_getD, List.getElem?_eq_getElem hlen, Option.getD_some]
    rw [rescanBlock, hbulk, Option.bind_eq_bind, Option.bind_some,
      rescan_eq _ _ _ (by omega), take_drop_block]
  refine ⟨_, mapM_some hrescan, ?_⟩
  have hstart : ∀ block ∈ List.range (numBlocks blockSize degrees),
      enumFrom ((block * blockSize : Nat) : Int)
        (runningTotals ((bulkPrefix blockSize degrees).getD block 0)
          (blockOf blockSize degrees block))
      = enumFrom (start (fun block => runningTotals
            ((bulkPrefix blockSize degrees).getD block 0) (blockOf blockSize degrees block)) block)
          (runningTotals ((bulkPrefix blockSize degrees).getD block 0)
            (blockOf blockSize degrees block)) := by
    intro block hblock
    rw [start_blocks hpos (fun b => length_runningTotals _ _) (List.mem_range.mp hblock)]
  rw [← List.flatMap_def, List.flatMap_congr hstart, flatMap_enumFrom]
  have htotals := prefixSumBy_eq blockSize degrees hpos
  unfold prefixSumBy at htotals
  rw [getD_bulkPrefix_last blockSize degrees hpos] at htotals
  exact congrArg (enumFrom 0) (List.append_cancel_right htotals)

-- ========================================================= both versions

/-- Every run returns the running totals with the sum at the end. -/
theorem parallelPrefixSum_iff (hpos : 0 < blockSize) (out : Option (List Int)) :
    ParallelPrefixSum blockSize degrees out
      ↔ out = some (runningTotals 0 degrees ++ [degrees.sum]) := by
  have hlocal : ∀ w : List (Int × Int), w.Perm (enumFrom 0 (localSums blockSize degrees)) →
      ((storeAll (List.replicate (List.range (numBlocks blockSize degrees)).length none) w).bind
        fun localSums => (localSums.mapM id).bind prefixSum)
        = some (bulkPrefix blockSize degrees) := by
    intro w hw
    rw [List.length_range, ← length_localSums, storeAll_perm hw, Option.bind_some,
      mapM_id_some, Option.bind_some, prefixSum_eq]
    rfl
  obtain ⟨writes, hwrites, hflatten⟩ := rescans_eq degrees hpos
  have htotal : (bulkPrefix blockSize degrees)[numBlocks blockSize degrees]?
      = some degrees.sum := by
    have hlen : numBlocks blockSize degrees < (bulkPrefix blockSize degrees).length := by
      rw [bulkPrefix, List.length_append, length_runningTotals, length_localSums,
        List.length_singleton]
      omega
    have hlast := getD_bulkPrefix_last blockSize degrees hpos
    rw [List.getD_eq_getElem?_getD, List.getElem?_eq_getElem hlen, Option.getD_some] at hlast
    rw [List.getElem?_eq_getElem hlen, hlast]
  have hlen : (runningTotals 0 degrees).length = degrees.length := length_runningTotals 0 degrees
  have hresult : ∀ w : List (Int × Int), w.Perm (enumFrom 0 (runningTotals 0 degrees)) → (do
      let sums ← storeAll (List.replicate (degrees.length + 1) none) w
      let total ← (bulkPrefix blockSize degrees)[numBlocks blockSize degrees]?
      let sums ← write sums degrees.length (some total)
      sums.mapM id) = some (runningTotals 0 degrees ++ [degrees.sum]) := by
    intro w hw
    have hstore := storeAll_append_left (storeAll_perm hw) [none]
    rw [hlen, ← List.replicate_succ'] at hstore
    rw [hstore, htotal]
    show (write ((runningTotals 0 degrees).map some ++ [none]) _ _).bind _ = _
    rw [write_append (by rw [List.length_map, hlen]), Option.bind_some]
    have happend : (runningTotals 0 degrees).map some ++ [some degrees.sum]
        = (runningTotals 0 degrees ++ [degrees.sum]).map some := by rw [List.map_append]; rfl
    exact (congrArg (List.mapM id) happend).trans (mapM_id_some _)
  unfold ParallelPrefixSum
  simp only [localSums_eq hpos, enumFrom_localSums]
  constructor
  · rintro ⟨w, hw, h⟩
    rw [hlocal w hw] at h
    simp only [hwrites] at h
    obtain ⟨w', hw', rfl⟩ := h
    exact hresult w' (hflatten ▸ hw')
  · rintro rfl
    refine ⟨_, List.Perm.refl _, ?_⟩
    rw [hlocal _ (List.Perm.refl _)]
    simp only [hwrites]
    exact ⟨_, List.Perm.refl _, (hresult _ (hflatten ▸ List.Perm.refl _)).symm⟩

/-- For every block size the blocked version returns the vector of the
serial one: at each place, the sum of the degrees before it. -/
theorem parallelPrefixSum_prefixSum (blockSize : Nat) (hpos : 0 < blockSize)
    (degrees : List Int) :
    (∀ out, ParallelPrefixSum blockSize degrees out ↔ out = prefixSum degrees)
      ∧ ∃ sums, prefixSum degrees = some sums ∧ sums.length = degrees.length + 1
        ∧ ∀ i ≤ degrees.length, sums[i]? = some (degrees.take i).sum := by
  refine ⟨fun out => ?_, _, prefixSum_eq degrees, ?_, fun i hi => ?_⟩
  · rw [parallelPrefixSum_iff hpos, prefixSum_eq]
  · rw [List.length_append, length_runningTotals, List.length_singleton]
  · by_cases hlt : i < degrees.length
    · rw [List.getElem?_append_left (by rw [length_runningTotals]; exact hlt),
        getElem?_runningTotals hlt, Int.zero_add]
    · have heq : i = degrees.length := by omega
      subst heq
      rw [List.getElem?_append_right (by rw [length_runningTotals]), length_runningTotals,
        Nat.sub_self, List.take_length]
      rfl

/-- Three degrees in blocks of two. -/
theorem parallelPrefixSum_prefixSum_three :
    ParallelPrefixSum 2 [3, 1, 2] (some [0, 3, 4, 6]) :=
  ((parallelPrefixSum_prefixSum 2 (by decide) [3, 1, 2]).1 _).mpr (by decide)

/-- The offsets of the builder are what every run returns for its block
size. -/
theorem parallelPrefixSum_offsets (degrees : List Int) (out : Option (List Int)) :
    ParallelPrefixSum (2 ^ 20) degrees out ↔ out = some (parallelPrefixSum degrees) := by
  rw [parallelPrefixSum_iff (Nat.two_pow_pos 20), parallelPrefixSum_eq]

end ThesisBench.Gapbs

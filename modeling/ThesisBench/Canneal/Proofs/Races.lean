/-
When two threads have lines of one element.

With every boundary inside a line, a thread has the lines that start
between its two boundaries. So two lines are in different chunks exactly
when a boundary comes between their starts, and the threads race exactly
when two such lines are of one element.
-/
import ThesisBench.Canneal.Proofs.Chunks

namespace ThesisBench.Canneal

variable {lines : List (List Byte)} {nthreads : Nat}

-- ============================================================ the chunks

/-- The events of lines carry the records of the lines. -/
theorem map_snd_lineEvents (lines : List (List Byte)) (p : Nat) :
    (lineEvents p lines).map Prod.snd = lines.map lineRecord := by
  induction lines generalizing p with
  | nil => rfl
  | cons l ls ih => rw [lineEvents, List.map_cons, ih, List.map_cons]

/-- Line `i` is behind boundary `k` exactly when it starts there or
later. -/
theorem firstLine_le_iff (hne : 0 < (render lines).length) {i k : Nat} (hk : k < nthreads) :
    firstLine lines nthreads k ≤ i
      ↔ k * ((render lines).length / nthreads) ≤ pos lines i := by
  obtain ⟨-, hle, hbelow⟩ := lineFrom_spec (Nat.le_of_lt (boundary_lt hne hk))
  rw [firstLine_lt hk]
  constructor
  · intro h
    exact hle.trans (pos_mono h)
  · intro h
    by_contra hlt
    have := hbelow i (by omega)
    omega

/-- The records of the lines from `i` up to `j`. -/
theorem mem_seg_iff {i j : Nat} {r : Record} : r ∈ (seg lines i j).map Prod.snd
    ↔ ∃ n l, i ≤ n ∧ n < j ∧ lines[n]? = some l ∧ r = lineRecord l := by
  rw [seg, map_snd_lineEvents, List.mem_map]
  constructor
  · rintro ⟨l, hl, hr⟩
    obtain ⟨m, hm⟩ := List.getElem?_of_mem hl
    rw [List.getElem?_drop, List.getElem?_take] at hm
    split at hm
    case isTrue hlt => exact ⟨i + m, l, Nat.le_add_right i m, hlt, hm, hr.symm⟩
    case isFalse => cases hm
  · rintro ⟨n, l, hin, hnj, hl, hr⟩
    refine ⟨l, List.mem_of_getElem? (i := n - i) ?_, hr.symm⟩
    rw [List.getElem?_drop, List.getElem?_take, if_pos (by omega), Nat.add_sub_of_le hin, hl]

/-- Between two places of a sequence there is a step over `n`. -/
theorem exists_step {idx : Nat → Nat} {a b n : Nat} (hab : a ≤ b) (ha : idx a ≤ n)
    (hb : n < idx b) : ∃ t, a ≤ t ∧ t < b ∧ idx t ≤ n ∧ n < idx (t + 1) := by
  induction b, hab using Nat.le_induction with
  | base => omega
  | succ b hab ih =>
      by_cases hn : n < idx b
      · obtain ⟨t, hat, htb, ht⟩ := ih hn
        exact ⟨t, hat, by omega, ht⟩
      · exact ⟨b, hab, Nat.lt_succ_self b, by omega, hb⟩

-- ============================================================= the races

/-- The records of thread `t`. -/
def chunkRecords (lines : List (List Byte)) (nthreads t : Nat) : List Record :=
  (seg lines (firstLine lines nthreads t) (firstLine lines nthreads (t + 1))).map Prod.snd

/-- A chunk's records are those of the lines that begin in it. -/
theorem mem_chunkRecords {t : Nat} {r : Record} : r ∈ chunkRecords lines nthreads t
    ↔ ∃ n l, firstLine lines nthreads t ≤ n ∧ n < firstLine lines nthreads (t + 1)
      ∧ lines[n]? = some l ∧ r = lineRecord l := by
  rw [chunkRecords, mem_seg_iff]

section

variable (hl : ∀ l ∈ lines, IsLine l) (hne : 0 < (render lines).length)
  (hc : CutsInside (render lines) nthreads)

include hl hne hc

/-- Two threads race when an element has lines in two chunks. -/
theorem races_iff : Races (threadRecords (render lines) nthreads)
    ↔ ∃ t t', t < t' ∧ t' < nthreads ∧ ∃ r ∈ chunkRecords lines nthreads t,
        ∃ r' ∈ chunkRecords lines nthreads t', r.id = r'.id := by
  have hrecords : threadRecords (render lines) nthreads
      = (List.range nthreads).map (chunkRecords lines nthreads) := by
    refine List.map_congr_left fun t ht => ?_
    rw [parseChunk_seg hl hne hc (List.mem_range.mp ht)]
    rfl
  rw [Races, hrecords, List.pairwise_map, List.pairwise_iff_getElem]
  simp only [List.getElem_range, List.length_range]
  push Not
  constructor
  · rintro ⟨t, t', -, ht', htt, r, hr, r', hr', heq⟩
    exact ⟨t, t', htt, ht', r, hr, r', hr', heq⟩
  · rintro ⟨t, t', htt, ht', r, hr, r', hr', heq⟩
    exact ⟨t, t', by omega, ht', htt, r, hr, r', hr', heq⟩

/-- The threads race exactly when a boundary comes between two lines of
one element. -/
theorem races_iff_not_linesTogether :
    Races (threadRecords (render lines) nthreads) ↔ ¬ LinesTogether lines nthreads := by
  rw [races_iff hl hne hc]
  constructor
  · rintro ⟨t, t', htt, ht', r, hr, r', hr', heq⟩ htogether
    obtain ⟨i, l, -, hi, hil, hrl⟩ := mem_chunkRecords.mp hr
    obtain ⟨j, l', hj, -, hjl, hrl'⟩ := mem_chunkRecords.mp hr'
    rw [hrl, hrl'] at heq
    have hmono : firstLine lines nthreads (t + 1) ≤ firstLine lines nthreads t' :=
      firstLine_mono hne htt
    refine htogether i j l l' (by omega) hil hjl heq t' (by omega) ht' ⟨?_, ?_⟩
    · have := (firstLine_le_iff (i := i) hne ht').not.mp (by omega)
      omega
    · exact (firstLine_le_iff hne ht').mp hj
  · intro h
    unfold LinesTogether at h
    push Not at h
    obtain ⟨i, j, l, l', hij, hil, hjl, heq, k, hk, hkn, hbefore, hbehind⟩ := h
    have hzero : firstLine lines nthreads 0 ≤ i := by
      rw [firstLine_le_iff hne (by omega), Nat.zero_mul]
      exact Nat.zero_le _
    have hi : i < firstLine lines nthreads k := by
      have := (firstLine_le_iff (i := i) hne hkn).not.mpr (by omega)
      omega
    have hj : j < firstLine lines nthreads nthreads := by
      rw [firstLine_ge (Nat.le_refl _)]
      exact (List.getElem?_eq_some_iff.mp hjl).1
    obtain ⟨t, -, htk, hit⟩ := exists_step (Nat.zero_le k) hzero hi
    obtain ⟨t', hkt, htn, hjt⟩ := exists_step hkn.le ((firstLine_le_iff hne hkn).mpr hbehind) hj
    exact ⟨t, t', by omega, htn, _, mem_chunkRecords.mpr ⟨i, l, hit.1, hit.2, hil, rfl⟩,
      _, mem_chunkRecords.mpr ⟨j, l', hjt.1, hjt.2, hjl, rfl⟩, heq⟩

end

/-- A single thread does not race. -/
theorem not_races_one (b : Body) : ¬ Races (threadRecords b 1) :=
  not_not_intro (List.pairwise_singleton _ _)

end ThesisBench.Canneal

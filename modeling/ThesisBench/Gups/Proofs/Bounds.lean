/-
Which builds keep their updates inside the table.

The OpenMP build of gups.c always does, once there is a table. The other
loops mirror 0 to the table's size, and a multiple of the size comes up as
soon as a thread has drawn the first 63 states: they are the powers of
two, and so is the size.
-/
import ThesisBench.Gups.Proofs.Serial
import Mathlib.Algebra.Order.BigOperators.Group.List

namespace ThesisBench.Gups

open Function

variable {tableSize nupdate : Nat}

-- ================================================================= size

/-- The rounding loop, from the round `k` before its last: no power of two
below it is larger than `mem`. -/
theorem roundMem_spec {mem : Nat} : ∀ k, k < 64 → 0 < 63 - k → 2 ^ (63 - k - 1) ≤ mem →
    (mem < 2 ^ 63 → ∃ j, roundMem mem (k + 1) = some (2 ^ j) ∧ 2 ^ j ≤ mem ∧ mem < 2 ^ (j + 1))
      ∧ (2 ^ 63 ≤ mem → roundMem mem (k + 1) = some mem) := by
  intro k
  induction k with
  | zero =>
      intro _ _ hlow
      refine ⟨?_, ?_⟩
      · intro hlt
        refine ⟨62, ?_, hlow, hlt⟩
        unfold roundMem
        rw [if_pos hlt, if_neg (by decide)]
      · intro hle
        unfold roundMem roundMem
        rw [if_neg (Nat.not_lt.mpr hle)]
  | succ k ih =>
      intro hk hpos hlow
      by_cases hbig : 2 ^ (63 - (k + 1)) > mem
      · have hmem : mem < 2 ^ 63 :=
          lt_of_lt_of_le hbig (Nat.pow_le_pow_right (by decide) (by omega))
        refine ⟨?_, fun hle => absurd hle (Nat.not_le.mpr hmem)⟩
        intro _
        refine ⟨63 - (k + 1) - 1, ?_, hlow, ?_⟩
        · unfold roundMem
          rw [if_pos hbig, if_neg (by omega)]
        · rwa [Nat.sub_add_cancel hpos]
      · have hgo : roundMem mem (k + 1 + 1) = roundMem mem (k + 1) := by
          conv => lhs; unfold roundMem
          rw [if_neg hbig]
        rw [hgo]
        refine ih (by omega) (by omega) ?_
        have : 63 - k - 1 = 63 - (k + 1) := by omega
        rw [this]
        exact Nat.not_lt.mp hbig

theorem roundMem_zero : roundMem 0 64 = none := by decide

/-- A size that is not 0 passes the first round. -/
theorem roundMem_pos {mem : Nat} (h : 0 < mem) :
    (mem < 2 ^ 63 → ∃ j, roundMem mem 64 = some (2 ^ j) ∧ 2 ^ j ≤ mem ∧ mem < 2 ^ (j + 1))
      ∧ (2 ^ 63 ≤ mem → roundMem mem 64 = some mem) := by
  have hgo : roundMem mem 64 = roundMem mem 63 := by
    have hone : ¬ 2 ^ (63 - 63) > mem := by
      simp only [Nat.sub_self, Nat.pow_zero]
      omega
    conv => lhs; unfold roundMem
    rw [if_neg hone]
  rw [hgo]
  exact roundMem_spec 62 (by decide) (by decide) h

/-- The shift to bytes drops what does not fit 64 bits. -/
theorem requestedMem_toNat (argv1 : Option Word) :
    (requestedMem argv1).toNat = (argv1.getD 64).toNat % 2 ^ 34 * 2 ^ 30 := by
  cases argv1 with
  | none => decide
  | some size =>
      unfold requestedMem
      rw [BitVec.toNat_shiftLeft, Nat.shiftLeft_eq, Option.getD_some]
      omega

/-- What gups.c makes of the size. -/
theorem gupsSetup_cases (m : Malloc) (argv1 : Option Word) :
    ((argv1.getD 64).toNat % 2 ^ 34 = 0 ∧ gupsSetup m argv1 = .undefined)
      ∨ (2 ^ 33 ≤ (argv1.getD 64).toNat % 2 ^ 34 ∧ gupsSetup m argv1 = .exits)
      ∨ ∃ k, (argv1.getD 64).toNat % 2 ^ 34 ≠ 0 ∧ (argv1.getD 64).toNat % 2 ^ 34 < 2 ^ 33
        ∧ 27 ≤ k ∧ k < 60 ∧ 8 * 2 ^ k ≤ (argv1.getD 64).toNat * 2 ^ 30
        ∧ gupsSetup m argv1
          = if m.grants (8 * 2 ^ k + 16) then .table (2 ^ k) else .exits := by
  unfold gupsSetup
  rw [requestedMem_toNat]
  generalize (argv1.getD 64).toNat = size
  have hmod : size % 2 ^ 34 ≤ size := Nat.mod_le _ _
  have hlt : size % 2 ^ 34 < 2 ^ 34 := Nat.mod_lt _ (by decide)
  generalize size % 2 ^ 34 = r at *
  by_cases hz : r = 0
  · subst hz
    exact Or.inl ⟨rfl, by rw [Nat.zero_mul, roundMem_zero]⟩
  · right
    have hpos : 0 < r * 2 ^ 30 := by omega
    obtain ⟨hsmall, hlarge⟩ := roundMem_pos hpos
    by_cases hr : 2 ^ 33 ≤ r
    · refine Or.inl ⟨hr, ?_⟩
      rw [hlarge (by omega)]
      dsimp only
      rw [m.limit _ (by omega)]
      rfl
    · right
      obtain ⟨j, hj, hle, hgt⟩ := hsmall (by omega)
      have h30 : 30 ≤ j := by
        by_contra hn
        have : (2 : Nat) ^ (j + 1) ≤ 2 ^ 30 := Nat.pow_le_pow_right (by decide) (by omega)
        omega
      have h63 : j < 63 := by
        by_contra hn
        have : (2 : Nat) ^ 63 ≤ 2 ^ j := Nat.pow_le_pow_right (by decide) (by omega)
        omega
      have h8 : 2 ^ j = 8 * 2 ^ (j - 3) := by
        rw [show (8 : Nat) = 2 ^ 3 by decide, ← Nat.pow_add, Nat.add_sub_cancel' (by omega)]
      refine ⟨j - 3, hz, by omega, by omega, by omega, by omega, ?_⟩
      rw [hj]
      dsimp only
      rw [h8, Nat.mul_div_cancel_left _ (by decide)]

-- ============================================================ the indices

/-- The parallel loop's indices. -/
theorem updates_lt (h : 0 < tableSize) (r : Word) {u : Update}
    (hu : u ∈ updates tableSize r) : u.elm < tableSize := by
  have := Nat.mod_lt r.toNat h
  unfold updates at hu
  simp only [List.mem_cons, List.not_mem_nil, or_false] at hu
  obtain rfl | rfl := hu
  · exact this
  · change tableSize - 1 - r.toNat % tableSize < tableSize
    omega

/-- The generator's first states. -/
theorem step_iterate_lt : ∀ k < 64, (step^[k] 1).toNat = 2 ^ k := by decide +kernel

/-- A state that is the table's size is mirrored past the end. -/
theorem serialUpdates_size {k : Nat} (hk : k < 64) :
    ⟨2 ^ k, step^[k] 1⟩ ∈ serialUpdates (2 ^ k) (step^[k] 1) := by
  unfold serialUpdates
  rw [step_iterate_lt k hk, Nat.mod_self]
  simp

/-- `c` rounds from the serial starts draw every state from 1 to `k`, if
they cover one stream's length or reach `k` at once. -/
theorem mem_rounds {c k : Nat} (hk : 0 < k) (hk' : k < 64)
    (hc : k ≤ c ∨ c = nupdate / 128 ∧ 0 < c) :
    step^[k] 1 ∈ rounds c (serialRan nupdate) := by
  -- the stream and the place in it where the state is drawn
  obtain ⟨j, i, hj, hi, hij⟩ : ∃ j i, j < 128 ∧ i < c ∧ nupdate / 128 * j + i + 1 = k := by
    rcases hc with hc | ⟨hc, hpos⟩
    · exact ⟨0, k - 1, by decide, by omega, by omega⟩
    · refine ⟨(k - 1) / c, (k - 1) % c, ?_, Nat.mod_lt _ hpos, ?_⟩
      · have := Nat.div_le_self (k - 1) c
        omega
      · have := Nat.div_add_mod (k - 1) c
        rw [← hc]
        omega
  rw [(rounds_perm c _).mem_iff, List.mem_flatMap]
  refine ⟨hpccStarts (toInt64 (nupdate / 128 * j)), ?_, ?_⟩
  · unfold serialRan
    exact List.mem_map.mpr ⟨j, List.mem_range.mpr hj, rfl⟩
  · unfold run
    refine List.mem_map.mpr ⟨i, List.mem_range.mpr hi, ?_⟩
    rw [starts_low (by omega), ← iterate_add_apply, ← hij]
    congr 1
    omega

/-- Enough rounds of a loop with the serial mirror leave the table. -/
theorem serial_past (nupdate : Nat) {c k : Nat} (hk : 0 < k) (hk' : k < 64)
    (hc : k ≤ c ∨ c = nupdate / 128 ∧ 0 < c) :
    ∃ u ∈ (rounds c (serialRan nupdate)).flatMap (serialUpdates (2 ^ k)), u.elm = 2 ^ k :=
  ⟨⟨2 ^ k, step^[k] 1⟩,
    List.mem_flatMap.mpr ⟨_, mem_rounds hk hk' hc, serialUpdates_size hk'⟩, rfl⟩

-- ============================================================ the builds

/-- A `malloc` that grants all it may. -/
def Malloc.generous : Malloc where
  grants n := decide (n < 2 ^ 63)
  limit _ hn := decide_eq_false (Nat.not_lt.mpr hn)

/-- The rounded number of updates is at least one batch. -/
theorem roundNupdate_pos {n : Nat} (h : 0 < n) : 0 < roundNupdate n / 128 := by
  unfold roundNupdate
  dsimp only
  split
  · split <;> omega
  · omega

/-- The serial build stays inside its table exactly when its arguments
avoid the wraps. -/
theorem gups_within_iff (argv1 argv2 : Option Word) :
    Build.gups.Within argv1 argv2 ↔ Build.gups.Avoids argv1 argv2 := by
  unfold Build.Within Build.Avoids
  constructor
  · intro h
    have hm := h Malloc.generous
    simp only [Build.setup] at hm
    rcases gupsSetup_cases Malloc.generous argv1 with
      ⟨_, he⟩ | ⟨hr, _⟩ | ⟨k, hz, hr, h27, h60, _, he⟩
    · rw [he] at hm
      exact hm.elim
    · exact ⟨by omega, Or.inl hr⟩
    · refine ⟨hz, Or.inr ?_⟩
      have hgrant : Malloc.generous.grants (8 * 2 ^ k + 16) = true := by
        have : (2 : Nat) ^ k ≤ 2 ^ 59 := Nat.pow_le_pow_right (by decide) (by omega)
        exact decide_eq_true (by omega)
      rw [he, hgrant, if_pos rfl] at hm
      by_contra hne
      -- some update is made, so the streams draw the table's size
      have hpos : 0 < (argv2.getD (3 <<< 29)).toNat := by
        cases argv2 with
        | none => decide
        | some n =>
            rw [Option.getD_some]
            refine Nat.pos_of_ne_zero fun hn => hne ?_
            rw [BitVec.eq_of_toNat_eq (x := n) (y := 0) (by simpa using hn)]
      obtain ⟨u, hu, helm⟩ := serial_past (k := k)
        (roundNupdate (argv2.getD (3 <<< 29)).toNat) (by omega) (by omega)
        (Or.inr ⟨rfl, roundNupdate_pos hpos⟩)
      have := hm.2.2 u hu
      omega
  · intro ⟨hz, h⟩ m
    simp only [Build.setup]
    rcases gupsSetup_cases m argv1 with ⟨hz', _⟩ | ⟨_, he⟩ | ⟨k, _, hr, _, _, hle, he⟩
    · exact absurd hz' hz
    · rw [he]
      trivial
    · rw [he]
      obtain rfl : argv2 = some 0 := h.resolve_left (by omega)
      split
      · refine ⟨⟨k, rfl⟩, hle, ?_⟩
        intro u hu
        simp [Build.applied, roundNupdate, rounds] at hu
      · trivial

theorem gupsOpenMP_within_iff {nth : Nat} (pos : 0 < nth) (argv1 argv2 : Option Word) :
    (Build.gupsOpenMP nth pos).Within argv1 argv2
      ↔ (Build.gupsOpenMP nth pos).Avoids argv1 argv2 := by
  unfold Build.Within Build.Avoids
  constructor
  · intro h hz
    have hm := h Malloc.generous
    simp only [Build.setup] at hm
    rcases gupsSetup_cases Malloc.generous argv1 with ⟨_, he⟩ | ⟨hr, _⟩ | ⟨_, hz', _⟩
    · rw [he] at hm
      exact hm
    · omega
    · exact hz' hz
  · intro hz m
    simp only [Build.setup]
    rcases gupsSetup_cases m argv1 with ⟨hz', _⟩ | ⟨_, he⟩ | ⟨k, _, _, _, _, hle, he⟩
    · exact absurd hz' hz
    · rw [he]
      trivial
    · rw [he]
      split
      · refine ⟨⟨k, rfl⟩, hle, ?_⟩
        intro u hu
        simp only [Build.applied, List.mem_flatMap] at hu
        obtain ⟨_, _, r, _, hu⟩ := hu
        exact updates_lt (Nat.two_pow_pos k) r hu
      · trivial

/-- With enough memory the toy's table has `2^27` words. -/
theorem toySetup_generous : toySetup Malloc.generous = .table (2 ^ 27) := by decide

/-- The toy leaves its table whatever its arguments. -/
theorem toy_not_within (argv1 argv2 : Option Word) : ¬ Build.toy.Within argv1 argv2 := by
  intro h
  have hm := h Malloc.generous
  simp only [Build.setup, toySetup_generous] at hm
  obtain ⟨u, hu, helm⟩ := serial_past (k := 27) toyNupdate
    (by decide) (by decide) (Or.inr ⟨rfl, by decide⟩)
  have := hm.2.2 u hu
  omega

/-- Some thread has at least the average. -/
theorem exists_share_ge {nth : Nat} (pos : 0 < nth) (share : Nat → Nat) (c : Nat)
    (h : ((List.range nth).map share).sum = c * nth) : ∃ tid < nth, c ≤ share tid := by
  have hsum : ((List.range nth).map fun _ => c).sum ≤ ((List.range nth).map share).sum := by
    rw [h, List.map_const', List.sum_replicate, List.length_range, smul_eq_mul, Nat.mul_comm]
  have hne : List.range nth ≠ [] := by
    rw [ne_eq, List.range_eq_nil]
    omega
  obtain ⟨tid, htid, hle⟩ := List.exists_le_of_sum_le hne _ _ hsum
  exact ⟨tid, List.mem_range.mp htid, hle⟩

/-- The toy with OpenMP leaves its table, however the updates are shared. -/
theorem toyOpenMP_not_within {nth : Nat} (pos : 0 < nth) (share : Nat → Nat)
    (shared : ((List.range nth).map share).sum = toyNupdate / 128 * nth)
    (argv1 argv2 : Option Word) :
    ¬ (Build.toyOpenMP nth pos share shared).Within argv1 argv2 := by
  intro h
  have hm := h Malloc.generous
  simp only [Build.setup, toySetup_generous] at hm
  obtain ⟨tid, htid, hshare⟩ := exists_share_ge pos share _ shared
  obtain ⟨u, hu, helm⟩ := serial_past (k := 27) (c := share tid) toyNupdate
    (by decide) (by decide) (Or.inl (le_trans (by decide) hshare))
  have := hm.2.2 u (List.mem_flatMap.mpr ⟨tid, List.mem_range.mpr htid, hu⟩)
  omega

/-- When a build keeps to its table. -/
theorem within_iff_avoids (b : Build) (argv1 argv2 : Option Word) :
    b.Within argv1 argv2 ↔ b.Avoids argv1 argv2 := by
  cases b with
  | gups => exact gups_within_iff argv1 argv2
  | gupsOpenMP nth pos => exact gupsOpenMP_within_iff pos argv1 argv2
  | toy => exact iff_of_false (toy_not_within argv1 argv2) id
  | toyOpenMP nth pos share shared =>
      exact iff_of_false (toyOpenMP_not_within pos share shared argv1 argv2) id

/-- One GiB and 128 updates in one thread: the 27th state is 2^27, the
number of words in the table. -/
theorem not_within_gups : ¬ Build.gups.Within (some 1) (some 128) := by
  intro h
  have ha := (gups_within_iff _ _).mp h
  exact absurd ha.2 (by decide)

end ThesisBench.Gups

/-
The single-threaded loop, and where the updates of every build land.

The loop's table is the fold of its updates, and updates commute, so the
order of the 128 streams does not show. For the bounds it matters that the
first 63 states of the generator are the powers of two: one of them is the
table's size, its residue is 0, and its mirror index is one too far.
-/
import ThesisBench.Gups.Serial
import ThesisBench.Gups.Proofs.Loop

namespace ThesisBench.Gups

open Function

variable {tableSize nupdate : Nat}

-- ======================================================= the loop's table

/-- The inner loop steps every state and applies its updates. -/
theorem serialInner_eq (ran : List Word) : ∀ t : Table,
    serialInner tableSize ran t = (ran.map step,
      ((ran.map step).flatMap (serialUpdates tableSize)).foldl Update.apply t) := by
  induction ran with
  | nil =>
      intro t
      rfl
  | cons r ran ih =>
      intro t
      unfold serialInner
      simp only [ih]
      rfl

/-- The loop applies the values of its rounds, one after the other. -/
theorem serialOuter_eq (k : Nat) : ∀ (ran : List Word) (t : Table),
    serialOuter tableSize k ran t
      = ((rounds k ran).flatMap (serialUpdates tableSize)).foldl Update.apply t := by
  induction k with
  | zero =>
      intro ran t
      rfl
  | succ k ih =>
      intro ran t
      unfold serialOuter rounds
      simp only [serialInner_eq, ih]
      rw [List.flatMap_append, List.foldl_append]

/-- The plain loop applies the updates of one run. -/
theorem plainLoop_eq (n : Nat) : ∀ (r : Word) (t : Table),
    plainLoop tableSize n r t
      = ((run n r).flatMap (serialUpdates tableSize)).foldl Update.apply t := by
  induction n with
  | zero =>
      intro r t
      rfl
  | succ n ih =>
      intro r t
      unfold plainLoop
      rw [run_succ, ih]
      rfl

/-- The streams of the single thread tile the updates. -/
theorem serialRounds_perm (hd : 128 ∣ nupdate) (hlt : nupdate < 2 ^ 62) :
    (rounds (nupdate / 128) (serialRan nupdate)).Perm (run nupdate 1) := by
  obtain ⟨q, rfl⟩ := hd
  have hq : 128 * q / 128 = q := by omega
  refine (rounds_perm _ _).trans ?_
  have htile : (serialRan (128 * q)).flatMap (run (128 * q / 128))
      = (List.range 128).flatMap fun m => run q (hpccStarts (toInt64 (q * m))) := by
    unfold serialRan
    rw [hq, List.flatMap_map]
  rw [htile, Nat.mul_comm 128 q]
  exact (streams_perm_iff (by omega)).mpr (Or.inl (by omega))

/-- The batched loop leaves the table that one plain loop over the
generator leaves, from any contents of the table and its extra slot. -/
theorem serialLoop_eq_plainLoop (tableSize nupdate : Nat) (t : Table)
    (hd : 128 ∣ nupdate) (hlt : nupdate < 2 ^ 62) :
    serialLoop tableSize nupdate t = plainLoop tableSize nupdate 1 t := by
  unfold serialLoop
  rw [serialOuter_eq, plainLoop_eq]
  apply ((serialRounds_perm hd hlt).flatMap_right _).foldl_eq'
  intro u _ v _ s
  exact apply_comm s u v

/-- 256 updates of a table of eight words. -/
theorem serialLoop_eq_plainLoop_eight :
    128 ∣ 256 ∧ serialLoop 8 256 initTable = plainLoop 8 256 1 initTable :=
  ⟨by decide, serialLoop_eq_plainLoop 8 256 initTable (by decide) (by decide)⟩

end ThesisBench.Gups

/-
Which values the parallel loop applies.

The values of a thread are its streams, each a run of consecutive states
from the place it was started at. When the streams divide the updates
evenly and all starts fit `int64_t`, the runs join to the whole stream.
A start from 2^63 on is taken for a negative number, and as 2^64 is two
more than a multiple of the period, its run lies two places early. All
such runs together are then one run that lies two places early.
-/
import ThesisBench.Gups.Proofs.Generator

namespace ThesisBench.Gups

open Interleave Function

variable {nupdate nth : Nat}

-- ============================================================== streams

/-- The values of `k` steps from a state. -/
def run (k : Nat) (r : Word) : List Word :=
  (List.range k).map fun i => step^[i + 1] r

/-- The first value of a run, and the others. -/
theorem run_succ (k : Nat) (r : Word) :
    run (k + 1) r = step r :: run k (step r) := by
  rw [run, List.range_succ_eq_map, List.map_cons, List.map_map]
  rfl

/-- The rounds over the streams are the streams, reordered. -/
theorem rounds_perm (k : Nat) : ∀ ran : List Word,
    (rounds k ran).Perm (ran.flatMap (run k)) := by
  induction k with
  | zero =>
      intro ran
      have hnil : ran.flatMap (run 0) = [] :=
        List.flatMap_eq_nil_iff.mpr fun r _ => rfl
      rw [rounds, hnil]
  | succ k ih =>
      intro ran
      rw [rounds]
      have hrun : ran.flatMap (run (k + 1))
          = ran.flatMap fun r => step r :: run k (step r) := by
        refine List.flatMap_congr fun r _ => run_succ k r
      rw [hrun]
      refine ((ih (ran.map step)).append_left _).trans ?_
      rw [List.flatMap_map]
      exact List.map_append_flatMap_perm ran step fun r => run k (step r)

/-- A round has a value for each of the 128 states. -/
theorem length_rounds (k : Nat) (ran : List Word) :
    (rounds k ran).length = ran.length * k := by
  rw [(rounds_perm k ran).length_eq, List.length_flatMap]
  simp [run]

/-- Numbers below a product, by quotient and remainder. -/
theorem range_mul (a b : Nat) :
    (List.range a).flatMap (fun t => (List.range b).map fun j => b * t + j)
      = List.range (b * a) := by
  induction a with
  | zero => rfl
  | succ a ih =>
      rw [List.range_succ, List.flatMap_append, ih, List.flatMap_singleton,
        Nat.mul_succ, List.range_add]

/-- The number of values applied. -/
theorem length_values :
    ((List.range nth).flatMap (threadValues nupdate nth)).length
      = 128 * nth * streamLength nupdate nth := by
  have hlen : ∀ tid, (threadValues nupdate nth tid).length
      = 128 * streamLength nupdate nth := by
    intro tid
    rw [threadValues, length_rounds, startRan, List.length_map,
      List.length_range, streamLength, Nat.div_div_eq_div_mul, Nat.mul_comm nth]
  rw [List.length_flatMap, List.map_congr_left fun tid _ => hlen tid]
  simp only [List.map_const', List.length_range, List.sum_replicate_nat]
  rw [← Nat.mul_assoc, Nat.mul_comm nth]

/-- All streams in a row, when they divide the updates. -/
theorem values_perm {q : Nat} (hn : 0 < nth) (hq : nupdate = 128 * nth * q) :
    ((List.range nth).flatMap (threadValues nupdate nth)).Perm
      ((List.range (128 * nth)).flatMap fun m =>
        run q (hpccStarts (toInt64 (q * m)))) := by
  have hupt : nupdate / nth = 128 * q := by
    rw [hq, Nat.mul_comm 128 nth, Nat.mul_assoc, Nat.mul_div_cancel_left _ hn]
  have hthread : ∀ tid, (threadValues nupdate nth tid).Perm
      (((List.range 128).map fun j => 128 * tid + j).flatMap fun m =>
        run q (hpccStarts (toInt64 (q * m)))) := by
    intro tid
    rw [threadValues, hupt, Nat.mul_div_cancel_left q (by omega : 0 < 128)]
    refine (rounds_perm q _).trans (List.Perm.of_eq ?_)
    rw [startRan, hupt, Nat.mul_div_cancel_left q (by omega : 0 < 128),
      List.flatMap_map, List.flatMap_map]
    refine List.flatMap_congr fun j _ => ?_
    rw [show tid * (128 * q) + q * j = q * (128 * tid + j) by
      rw [Nat.mul_add, Nat.mul_comm 128 q, Nat.mul_left_comm, Nat.mul_comm 128]]
  refine (List.Perm.flatMap_left _ fun tid _ => hthread tid).trans
    (List.Perm.of_eq ?_)
  rw [← range_mul, List.flatMap_assoc]

-- =============================================================== starts

theorem toInt64_low {a : Nat} (h : a < 2 ^ 63) : toInt64 a = a := by
  rw [toInt64, BitVec.toInt_eq_toNat_cond, BitVec.toNat_ofNat,
    Nat.mod_eq_of_lt (by omega), if_pos (by omega)]

theorem toInt64_high {a : Nat} (h : 2 ^ 63 ≤ a) (h' : a < 2 ^ 64) :
    toInt64 a = (a : Int) - 2 ^ 64 := by
  rw [toInt64, BitVec.toInt_eq_toNat_cond, BitVec.toNat_ofNat,
    Nat.mod_eq_of_lt h', if_neg (by omega)]
  rfl

theorem starts_low {a : Nat} (h : a < 2 ^ 63) :
    hpccStarts (toInt64 a) = step^[a] 1 := by
  rw [toInt64_low h, hpccStarts_nat h]

/-- From 2^63 on, two places early. -/
theorem starts_high {a : Nat} (h : 2 ^ 63 ≤ a) (h' : a < 2 ^ 64) :
    hpccStarts (toInt64 a) = step^[a - 2] 1 := by
  have hmod : ((a : Int) - 2 ^ 64) % period = ((a - 2 : Nat) : Int) % period := by
    rw [show (a : Int) - 2 ^ 64 = ((a - 2 : Nat) : Int) - period * 14 by
      have : (period : Int) = 1317624576693539401 := rfl
      rw [this]
      omega]
    exact Int.sub_mul_emod_self_left _ _ _
  rw [toInt64_high h h', hpccStarts_spec (by omega) (by omega), hmod,
    ← iterate_mod (a - 2), ← Int.natCast_emod, Int.toNat_natCast]

/-- Consecutive runs are one run. -/
theorem flatMap_run (q base : Nat) : ∀ c : Nat,
    (List.range c).flatMap (fun m => run q (step^[base + q * m] 1))
      = run (q * c) (step^[base] 1) := by
  intro c
  have hrun : ∀ m, run q (step^[base + q * m] 1)
      = ((List.range q).map fun j => q * m + j).map
          fun k => step^[k + 1] (step^[base] 1) := by
    intro m
    rw [run, List.map_map]
    refine List.map_congr_left fun i _ => ?_
    rw [Function.comp_apply, ← iterate_add_apply, ← iterate_add_apply]
    exact congrArg (fun k => step^[k] 1) (by omega)
  rw [List.flatMap_congr fun m _ => hrun m, ← List.map_flatMap, range_mul]
  rfl

theorem stream_eq_run (n : Nat) : stream n = run n 1 := rfl

/-- A run split in two. -/
theorem run_add (a b : Nat) (r : Word) :
    run (a + b) r = run a r ++ run b (step^[a] r) := by
  rw [run, List.range_add, List.map_append, List.map_map]
  congr 1
  refine List.map_congr_left fun i _ => ?_
  rw [Function.comp_apply, ← iterate_add_apply]
  exact congrArg (fun k => step^[k] r) (by omega)

-- ============================================================ two early

/-- A run of the stream and the run two places before it have the same
values exactly when it is whole periods long. -/
theorem run_shift_perm (a n : Nat) (ha : 2 ≤ a) :
    (run n (step^[a - 2] 1)).Perm (run n (step^[a] 1)) ↔ period ∣ n := by
  generalize hb : a - 2 = b
  obtain rfl : a = b + 2 := by omega
  -- both are parts of the run of `n + 2` values
  have hfront : run (n + 2) (step^[b] 1)
      = [step^[b + 1] 1, step^[b + 2] 1] ++ run n (step^[b + 2] 1) := by
    rw [run_succ, run_succ, ← iterate_succ_apply' step, ← iterate_succ_apply' step]
    rfl
  have hback : run (n + 2) (step^[b] 1)
      = run n (step^[b] 1) ++ [step^[b + 1 + n] 1, step^[b + 2 + n] 1] := by
    rw [run_add, run_succ, run_succ, ← iterate_add_apply,
      ← iterate_succ_apply' step, ← iterate_succ_apply' step,
      show run 0 (step^[(n + b).succ.succ] 1) = [] from rfl,
      show (n + b).succ = b + 1 + n by omega, show (b + 1 + n).succ = b + 2 + n by omega]
  have hsame := hfront.symm.trans hback
  have hpair : (run n (step^[b] 1)).Perm (run n (step^[b + 2] 1))
      ↔ [step^[b + 1] 1, step^[b + 2] 1].Perm
        [step^[b + 1 + n] 1, step^[b + 2 + n] 1] := by
    constructor
    · intro hp
      refine (List.perm_append_right_iff (run n (step^[b + 2] 1))).mp ?_
      rw [hsame]
      exact (hp.append_right _).trans List.perm_append_comm
    · intro hp
      refine (List.perm_append_right_iff
        [step^[b + 1 + n] 1, step^[b + 2 + n] 1]).mp ?_
      rw [← hsame]
      exact (hp.append_right _).trans List.perm_append_comm
  rw [hpair, Nat.dvd_iff_mod_eq_zero]
  constructor
  · intro hp
    have hmem := hp.mem_iff.mp (List.mem_cons_self ..)
    have hmem' := hp.mem_iff.mp
      (List.mem_cons_of_mem (step^[b + 1] 1) (List.mem_singleton_self _))
    simp only [List.mem_cons, List.not_mem_nil, or_false, iterate_eq_iff,
      period] at hmem hmem' ⊢
    omega
  · intro hn
    have h₁ : step^[b + 1] 1 = step^[b + 1 + n] 1 := by
      rw [iterate_eq_iff]
      unfold period at hn ⊢
      omega
    have h₂ : step^[b + 2] 1 = step^[b + 2 + n] 1 := by
      rw [iterate_eq_iff]
      unfold period at hn ⊢
      omega
    rw [← h₁, ← h₂]

-- ============================================================ the values

/-- Streams of length `q` from `0`, `q`, `2 * q`, ...: all in place, or
those from 2^63 on two places early. -/
theorem streams_perm_iff {c q : Nat} (hlt : q * c < 2 ^ 64) :
    ((List.range c).flatMap fun m => run q (hpccStarts (toInt64 (q * m)))).Perm
        (run (q * c) 1)
      ↔ q * c - q < 2 ^ 63 ∨ period ∣ q * c - q * ((2 ^ 63 + q - 1) / q) := by
  have hbelow : ∀ m, m < c → q * m ≤ q * c - q := by
    intro m hm
    have := Nat.mul_le_mul_left q (Nat.succ_le_of_lt hm)
    rw [Nat.mul_succ] at this
    omega
  by_cases hfit : q * c - q < 2 ^ 63
  · refine iff_of_true (List.Perm.of_eq ?_) (Or.inl hfit)
    have hstart : ∀ m ∈ List.range c, run q (hpccStarts (toInt64 (q * m)))
        = run q (step^[0 + q * m] 1) := by
      intro m hm
      have := hbelow m (List.mem_range.mp hm)
      rw [starts_low (by omega), Nat.zero_add]
    rw [List.flatMap_congr hstart, flatMap_run]
    rfl
  · rw [or_iff_right hfit]
    have hq : 0 < q := by
      rcases Nat.eq_zero_or_pos q with rfl | hq
      · simp at hfit
      · exact hq
    generalize hk : (2 ^ 63 + q - 1) / q = k
    -- the streams before `k` fit and those from `k` on do not
    have hlow : ∀ m, m < k → q * m < 2 ^ 63 := by
      intro m hm
      rw [← hk, Nat.lt_div_iff_mul_lt hq] at hm
      rw [Nat.mul_comm]
      omega
    have hhigh : ∀ m, k ≤ m → 2 ^ 63 ≤ q * m := by
      intro m hm
      rw [← hk, ← Nat.lt_succ_iff, Nat.div_lt_iff_lt_mul hq, Nat.succ_mul] at hm
      rw [Nat.mul_comm]
      omega
    have hkc : k ≤ c := by
      by_contra hck
      have hc : 0 < c := by
        rcases Nat.eq_zero_or_pos c with rfl | hc
        · simp at hfit
        · exact hc
      have hlast := hlow (c - 1) (by omega)
      have hprev : q * (c - 1) + q = q * c := by
        rw [← Nat.mul_succ]
        congr 1
        omega
      omega
    obtain ⟨d, rfl⟩ := Nat.exists_eq_add_of_le hkc
    have hA := hhigh k (Nat.le_refl k)
    have hfirst : ∀ m ∈ List.range k, run q (hpccStarts (toInt64 (q * m)))
        = run q (step^[0 + q * m] 1) := by
      intro m hm
      rw [starts_low (hlow m (List.mem_range.mp hm)), Nat.zero_add]
    have hsecond : ∀ m ∈ List.range d, run q (hpccStarts (toInt64 (q * (k + m))))
        = run q (step^[(q * k - 2) + q * m] 1) := by
      intro m hm
      have := hbelow (k + m) (by
        have := List.mem_range.mp hm
        omega)
      rw [starts_high (hhigh _ (Nat.le_add_right k m)) (by omega), Nat.mul_add,
        Nat.sub_add_comm (by omega)]
    have hvals : (List.range (k + d)).flatMap
          (fun m => run q (hpccStarts (toInt64 (q * m))))
        = run (q * k) 1 ++ run (q * d) (step^[q * k - 2] 1) := by
      rw [List.range_add, List.flatMap_append, List.flatMap_congr hfirst,
        flatMap_run, List.flatMap_map, List.flatMap_congr hsecond, flatMap_run]
      rfl
    rw [hvals, Nat.mul_add, run_add, List.perm_append_left_iff,
      run_shift_perm _ _ (by omega), Nat.add_sub_cancel_left]

/-- The threads together have the values of the stream exactly when the
division comes out even. -/
theorem values_perm_iff (hn : 0 < nth) (hlt : nupdate < 2 ^ 64) :
    ((List.range nth).flatMap (threadValues nupdate nth)).Perm (stream nupdate)
      ↔ Divides nupdate nth := by
  unfold Divides firstWrapped
  dsimp only
  have hpos : 0 < 128 * nth := by omega
  constructor
  · intro hp
    have hlen := hp.length_eq
    rw [length_values, stream, List.length_map, List.length_range] at hlen
    generalize streamLength nupdate nth = q at *
    refine ⟨⟨q, hlen.symm⟩, ?_⟩
    have hvals := (values_perm hn hlen.symm).symm.trans hp
    rw [stream_eq_run, ← hlen, Nat.mul_comm (128 * nth)] at hvals
    rw [← hlen, Nat.mul_comm (128 * nth)]
    exact (streams_perm_iff (by rw [Nat.mul_comm]; omega)).mp hvals
  · rintro ⟨⟨q, hq⟩, hfit⟩
    have hsl : streamLength nupdate nth = q := by
      rw [streamLength, hq, Nat.mul_div_cancel_left _ hpos]
    rw [hsl] at hfit
    refine (values_perm hn hq).trans ?_
    rw [hq, Nat.mul_comm (128 * nth)] at hfit hlt
    rw [stream_eq_run, hq, Nat.mul_comm (128 * nth)]
    exact (streams_perm_iff hlt).mpr hfit

-- ============================================================= the table

/-- Atomic xors commute. -/
theorem apply_comm (t : Table) (u v : Update) :
    Update.apply (Update.apply t u) v = Update.apply (Update.apply t v) u := by
  funext i
  unfold Update.apply
  by_cases hu : i = u.elm
  · by_cases hv : i = v.elm
    · simp only [if_pos hu, if_pos hv, BitVec.xor_assoc]
      rw [BitVec.xor_comm u.value]
    · simp only [if_pos hu, if_neg hv]
  · simp only [if_neg hu]

/-- Every interleaving ends with the table of the values applied. -/
theorem Runs.table {tableSize : Nat} {t : Table}
    (h : Runs tableSize nupdate nth t) {vs : List Word}
    (hp : ((List.range nth).flatMap (threadValues nupdate nth)).Perm vs) :
    t = (vs.flatMap (updates tableSize)).foldl Update.apply initTable := by
  obtain ⟨s, hs, rfl⟩ := h
  have hall : s.Perm (vs.flatMap (updates tableSize)) := by
    refine hs.perm.trans (List.Perm.trans (List.Perm.of_eq ?_)
      (hp.flatMap_right _))
    rw [← List.flatMap_def, List.flatMap_assoc]
  exact hall.foldl_eq' (fun u _ v _ t => apply_comm t u v) _

/-- The rounding keeps the number in 64 bits. -/
theorem roundNupdate_lt {n : Nat} (h : n < 2 ^ 64) : roundNupdate n < 2 ^ 64 := by
  unfold roundNupdate
  dsimp only
  split
  · split <;> omega
  · exact h

/-- The loop applies every value of the generator once exactly when the
updates divide into the threads' streams and the starts fit. -/
theorem exact_iff_divides (requested : BitVec 64) (nth : Nat) (hn : 1 ≤ nth) :
    Exact (roundNupdate requested.toNat) nth
      ↔ Divides (roundNupdate requested.toNat) nth := by
  have hlt := roundNupdate_lt requested.isLt
  generalize roundNupdate requested.toNat = nupdate at *
  rw [← values_perm_iff hn hlt]
  refine ⟨Exact.values, fun hp => ⟨hp, fun k t hrun => hrun.table hp, ?_⟩⟩
  rw [hp.length_eq, stream, List.length_map, List.length_range]
  rfl

/-- Four threads and 1024 updates: 512 streams of two. -/
theorem exact_iff_divides_four : 1 ≤ 4 ∧ Exact 1024 4 := by
  refine ⟨by decide, ?_⟩
  have h := (exact_iff_divides 1024#64 4 (by decide)).mpr
    ⟨by decide, Or.inl (by decide)⟩
  exact h

/-- Two threads and 128 updates: each thread has 64, less than one for
every stream, and nothing is applied. -/
theorem not_exact_two : ¬ Exact (roundNupdate (128#64).toNat) 2 := by
  intro h
  have hiff : _ ↔ Divides 128 2 := values_perm_iff (by decide) (by decide)
  have hd := hiff.mp h.values
  exact absurd hd.1 (by decide)

end ThesisBench.Gups

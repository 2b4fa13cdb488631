/-
`HPCC_starts` jumps the generator.

A step is multiplication by `x` in the ring of binary polynomials modulo
`x^64 + x^2 + x + 1`, and the table `m2` of even powers squares a state.
The squaring law is an equation between linear maps, so it is checked on
single bits. Running the same loop at `PERIOD` and at `PERIOD / p` for
its prime factors shows that `PERIOD` is the exact period of the state
1.
-/
import ThesisBench.Gups.Gups
import Mathlib.Dynamics.PeriodicPts.Defs
import Mathlib.Tactic.NormNum.Prime

namespace ThesisBench.Gups

open XorLinear Function

-- ============================================================= squaring

/-- A step is linear over exclusive or. -/
theorem isLinear_step : IsLinear step := by
  intro a b
  have hpoly : ∀ p q : Bool,
      (if (p ^^ q) = true then poly else 0)
        = (if p = true then poly else 0) ^^^ (if q = true then poly else 0) := by
    decide
  rw [step, step, step, BitVec.shiftLeft_xor_distrib, BitVec.msb_xor, hpoly,
    BitVec.xor_assoc, BitVec.xor_assoc]
  congr 1
  rw [← BitVec.xor_assoc, ← BitVec.xor_assoc, BitVec.xor_comm (b <<< 1)]

/-- The square of a state, from the table of even powers. -/
def square (r : Word) : Word := spread r 0 (fillM2 64 1) 0

theorem square_step (r : Word) : square (step r) = step (step (square r)) := by
  have hlin : IsLinear square := isLinear_spread _
  have hbits : ∀ i < 64, square (step (BitVec.twoPow 64 i))
      = step (step (square (BitVec.twoPow 64 i))) := by
    decide +kernel
  exact congrFun ((hlin.comp isLinear_step).ext
    (isLinear_step.comp (isLinear_step.comp hlin)) hbits) r

/-- The square of the state after `k` steps is that after `2 * k`. -/
theorem square_iterate (k : Nat) : square (step^[k] 1) = step^[2 * k] 1 := by
  induction k with
  | zero => decide +kernel
  | succ k ih =>
      rw [iterate_succ_apply', square_step, ih, ← iterate_succ_apply' step,
        ← iterate_succ_apply' step]
      rfl

-- ============================================================== the jump

/-- The loop reads the bits of `n` from the top. -/
theorem powLoop_spec (n : Nat) : ∀ (i : Nat) {ran : Word},
    ran = step^[n / 2 ^ i] 1 → powLoop n (fillM2 64 1) i ran = step^[n] 1 := by
  intro i
  induction i with
  | zero =>
      intro ran hran
      rw [powLoop, hran, Nat.pow_zero, Nat.div_one]
  | succ i ih =>
      intro ran hran
      rw [powLoop]
      apply ih
      have hsq : spread ran 0 (fillM2 64 1) 0 = step^[2 * (n / 2 ^ (i + 1))] 1 := by
        rw [hran]
        exact square_iterate _
      have hdiv : n / 2 ^ i = 2 * (n / 2 ^ (i + 1)) + n / 2 ^ i % 2 := by
        rw [Nat.pow_succ, ← Nat.div_div_eq_div_mul]
        omega
      rw [hsq, Nat.testBit_eq_decide_div_mod_eq]
      by_cases hbit : n / 2 ^ i % 2 = 1
      · rw [hbit] at hdiv
        rw [hdiv, iterate_succ_apply', if_pos (by rw [← hdiv, hbit]; rfl)]
      · have hzero : n / 2 ^ i % 2 = 0 := by omega
        rw [hzero, Nat.add_zero] at hdiv
        rw [if_neg (by simpa using hbit), hdiv]

theorem topBit_spec {n : Nat} (hn : 0 < n) : ∀ {k : Nat}, n < 2 ^ k →
    n / 2 ^ topBit n k = 1 := by
  intro k
  induction k with
  | zero =>
      intro hk
      rw [Nat.pow_zero] at hk
      omega
  | succ k ih =>
      intro hk
      have hlt : n / 2 ^ k < 2 := by
        rw [Nat.div_lt_iff_lt_mul (Nat.two_pow_pos k), Nat.mul_comm,
          ← Nat.pow_succ]
        exact hk
      rw [topBit, Nat.testBit_eq_decide_div_mod_eq]
      by_cases hbit : n / 2 ^ k % 2 = 1
      · rw [if_pos (by simpa using hbit)]
        generalize n / 2 ^ k = m at hlt hbit
        omega
      · rw [if_neg (by simpa using hbit)]
        refine ih ((Nat.div_eq_zero_iff_lt (Nat.two_pow_pos k)).mp ?_)
        generalize n / 2 ^ k = m at hlt hbit
        omega

/-- The jump, once the argument is in range. -/
theorem powLoop_topBit {n : Nat} (hn : 0 < n) (hlt : n < 2 ^ 63) :
    powLoop n (fillM2 64 1) (topBit n 63) 2 = step^[n] 1 := by
  apply powLoop_spec
  rw [topBit_spec hn hlt]
  decide

-- =========================================================== the period

theorem step_iterate_period : step^[period] 1 = 1 := by
  rw [← powLoop_topBit (by decide) (by decide)]
  decide +kernel

/-- The generator is not back at 1 after a proper divisor of the period. -/
theorem step_iterate_div : ∀ p ∈ [7, 73, 127, 337, 92737, 649657],
    step^[period / p] 1 ≠ 1 := by
  intro p hp
  have hbounds : ∀ p ∈ [7, 73, 127, 337, 92737, 649657],
      0 < period / p ∧ period / p < 2 ^ 63
        ∧ powLoop (period / p) (fillM2 64 1) (topBit (period / p) 63) 2 ≠ 1 := by
    decide +kernel
  obtain ⟨hpos, hlt, hne⟩ := hbounds p hp
  rwa [powLoop_topBit hpos hlt] at hne

/-- The primes that divide the period. -/
theorem prime_dvd_period {p : Nat} (hp : p.Prime) (h : p ∣ period) :
    p ∈ [7, 73, 127, 337, 92737, 649657] := by
  have hfac : period = 7 * (73 * (127 * (337 * (92737 * 649657)))) := by decide
  rw [hfac] at h
  simp only [hp.dvd_mul] at h
  simp only [List.mem_cons, List.not_mem_nil, or_false]
  have hprime : ∀ q, q.Prime → p ∣ q → p = q := fun q hq hd =>
    (Nat.prime_dvd_prime_iff_eq hp hq).mp hd
  rcases h with h | h | h | h | h | h
  · exact Or.inl (hprime 7 (by norm_num) h)
  · exact Or.inr (Or.inl (hprime 73 (by norm_num) h))
  · exact Or.inr (Or.inr (Or.inl (hprime 127 (by norm_num) h)))
  · exact Or.inr (Or.inr (Or.inr (Or.inl (hprime 337 (by norm_num) h))))
  · exact Or.inr (Or.inr (Or.inr (Or.inr
      (Or.inl (hprime 92737 (by norm_num) h)))))
  · exact Or.inr (Or.inr (Or.inr (Or.inr
      (Or.inr (hprime 649657 (by norm_num) h)))))

theorem minimalPeriod_step : minimalPeriod step 1 = period := by
  have hdvd : minimalPeriod step 1 ∣ period :=
    IsPeriodicPt.minimalPeriod_dvd step_iterate_period
  obtain ⟨k, hk⟩ := id hdvd
  by_cases hone : k = 1
  · rw [hone, Nat.mul_one] at hk
    exact hk.symm
  · -- a smaller period would divide the period over some prime
    exfalso
    obtain ⟨p, hp, c, hc⟩ := Nat.exists_prime_and_dvd hone
    have hpd : p ∣ period := ⟨minimalPeriod step 1 * c, by rw [← Nat.mul_left_comm, ← hc, ← hk]⟩
    refine step_iterate_div p (prime_dvd_period hp hpd) ?_
    have hq : period / p = minimalPeriod step 1 * c := by
      have hmul : period = p * (minimalPeriod step 1 * c) := by
        rw [← Nat.mul_left_comm, ← hc, ← hk]
      rw [hmul]
      exact Nat.mul_div_cancel_left _ hp.pos
    rw [hq]
    exact (isPeriodicPt_minimalPeriod step 1).mul_const c

/-- Two states of the stream are equal when their places agree modulo
the period. -/
theorem iterate_eq_iff (i j : Nat) :
    step^[i] 1 = step^[j] 1 ↔ i % period = j % period := by
  have hpos : 0 < period := by decide
  rw [← iterate_mod_minimalPeriod_eq (n := i),
    ← iterate_mod_minimalPeriod_eq (n := j), minimalPeriod_step]
  refine iterate_eq_iterate_iff_of_lt_minimalPeriod ?_ ?_
  · rw [minimalPeriod_step]
    exact Nat.mod_lt _ hpos
  · rw [minimalPeriod_step]
    exact Nat.mod_lt _ hpos

-- ========================================================== HPCC_starts

/-- The first loop makes the number non-negative. -/
theorem addPeriods_spec : ∀ (k : Nat) {n : Int}, -(k * period : Int) ≤ n →
    0 ≤ addPeriods k n ∧ addPeriods k n % period = n % period
      ∧ (addPeriods k n = n ∨ addPeriods k n < period) := by
  intro k
  induction k with
  | zero =>
      intro n hn
      refine ⟨?_, rfl, Or.inl rfl⟩
      show 0 ≤ n
      simpa using hn
  | succ k ih =>
      intro n hn
      rw [addPeriods]
      split
      · next hneg =>
          have hstep : -(k * period : Int) ≤ n + period := by
            rw [Nat.cast_succ, add_mul, one_mul] at hn
            omega
          obtain ⟨h₁, h₂, h₃⟩ := ih hstep
          refine ⟨h₁, ?_, Or.inr ?_⟩
          · rw [h₂, Int.add_emod_right]
          · rcases h₃ with h₃ | h₃
            · rw [h₃]
              omega
            · exact h₃
      · next hpos => exact ⟨by omega, rfl, Or.inl rfl⟩

/-- The second loop brings it down to a period. -/
theorem subPeriods_spec : ∀ (k : Nat) {n : Int}, 0 ≤ n →
    n ≤ (k + 1) * period →
    0 ≤ subPeriods k n ∧ subPeriods k n ≤ period
      ∧ subPeriods k n % period = n % period := by
  intro k
  induction k with
  | zero =>
      intro n h₀ hn
      refine ⟨h₀, ?_, rfl⟩
      show n ≤ period
      simpa using hn
  | succ k ih =>
      intro n h₀ hn
      rw [subPeriods]
      split
      · next hbig =>
          have hstep : n - period ≤ (k + 1) * period := by
            rw [Nat.cast_succ, add_mul _ 1, one_mul] at hn
            omega
          obtain ⟨h₁, h₂, h₃⟩ := ih (by omega) hstep
          exact ⟨h₁, h₂, by rw [h₃, Int.sub_emod_right]⟩
      · next hsmall => exact ⟨h₀, by omega, rfl⟩

/-- Eight rounds of each loop bring every `int64_t` into the period. -/
theorem periods_end {n : Int} (hlow : -2 ^ 63 ≤ n) (hhigh : n < 2 ^ 63) :
    0 ≤ addPeriods 8 n ∧ 0 ≤ subPeriods 8 (addPeriods 8 n)
      ∧ subPeriods 8 (addPeriods 8 n) ≤ period
      ∧ subPeriods 8 (addPeriods 8 n) % period = n % period := by
  have hper : (period : Int) = 1317624576693539401 := rfl
  obtain ⟨h₁, h₂, h₃⟩ := addPeriods_spec 8 (n := n) (by rw [hper]; norm_num; omega)
  obtain ⟨g₁, g₂, g₃⟩ := subPeriods_spec 8 h₁ (by
    rw [hper] at h₃ ⊢
    norm_num
    rcases h₃ with h₃ | h₃ <;> omega)
  exact ⟨h₁, g₁, g₂, g₃.trans h₂⟩

/-- `HPCC_starts` answers the state at `n`, counted modulo the
period. -/
theorem hpccStarts_spec {n : Int} (hlow : -2 ^ 63 ≤ n) (hhigh : n < 2 ^ 63) :
    hpccStarts n = step^[(n % period).toNat] 1 := by
  have hper : (period : Int) = 1317624576693539401 := rfl
  obtain ⟨-, g₁, g₂, g₃⟩ := periods_end hlow hhigh
  unfold hpccStarts
  dsimp only
  generalize subPeriods 8 (addPeriods 8 n) = m at *
  by_cases hz : m = 0
  · rw [if_pos hz, ← g₃, hz]
    rfl
  · rw [if_neg hz, powLoop_topBit (by omega) (by omega), ← g₃]
    rcases Int.lt_or_eq_of_le g₂ with hlt | heq
    · rw [Int.emod_eq_of_lt g₁ hlt]
    · rw [heq, Int.emod_self]
      exact step_iterate_period

/-- A state is known by its place modulo the period. -/
theorem iterate_mod (k : Nat) : step^[k % period] 1 = step^[k] 1 :=
  (iterate_eq_iff _ _).mpr (Nat.mod_mod k period)

theorem hpccStarts_nat {n : Nat} (h : n < 2 ^ 63) : hpccStarts n = step^[n] 1 := by
  rw [hpccStarts_spec (by omega) (by omega), ← iterate_mod n,
    ← Int.natCast_emod, Int.toNat_natCast]

-- ========================================================== termination

/-- The first loop ends with this number. -/
theorem whileIn_addPeriods (k : Nat) : ∀ {n : Int}, 0 ≤ addPeriods k n →
    whileIn (fun n : Int => n < 0) (fun n => n + period) k n = some (addPeriods k n) := by
  induction k with
  | zero =>
      intro n h
      unfold addPeriods at h
      simp [whileIn, addPeriods, Int.not_lt.mpr h]
  | succ k ih =>
      intro n h
      unfold addPeriods at h ⊢
      unfold whileIn
      by_cases hn : n < 0
      · rw [if_pos hn] at h ⊢
        rw [if_pos (decide_eq_true hn), ih h]
      · rw [if_neg hn, if_neg (by simpa using hn)]

/-- The second loop ends with this number. -/
theorem whileIn_subPeriods (k : Nat) : ∀ {n : Int}, subPeriods k n ≤ period →
    whileIn (fun n : Int => (period : Int) < n) (fun n => n - period) k n
      = some (subPeriods k n) := by
  induction k with
  | zero =>
      intro n h
      unfold subPeriods at h
      simp [whileIn, subPeriods, Int.not_lt.mpr h]
  | succ k ih =>
      intro n h
      unfold subPeriods at h ⊢
      unfold whileIn
      by_cases hn : (period : Int) < n
      · rw [if_pos hn] at h ⊢
        rw [if_pos (decide_eq_true hn), ih h]
      · rw [if_neg hn, if_neg (by simpa using hn)]

/-- Eight rounds end both loops, for every argument an `int64_t` can be. -/
theorem hpccStartsIn_eight {n : Int} (hlow : -2 ^ 63 ≤ n) (hhigh : n < 2 ^ 63) :
    hpccStartsIn 8 n = some (hpccStarts n) := by
  obtain ⟨h₁, g₂⟩ := periods_end hlow hhigh
  unfold hpccStartsIn hpccStarts
  rw [whileIn_addPeriods 8 h₁, Option.bind_eq_bind, Option.bind_some,
    whileIn_subPeriods 8 g₂.2.1, Option.bind_some]

/-- `HPCC_starts` ends and answers the state `n` steps from 1, so stepping
on from there is jumping further. -/
theorem hpccStarts_jumps {n : Nat} (hn : n < 2 ^ 63) :
    (∃ fuel, hpccStartsIn fuel n = some (hpccStarts n))
      ∧ hpccStarts n = step^[n] 1
      ∧ ∀ k : Nat, n + k < 2 ^ 63 → step^[k] (hpccStarts n) = hpccStarts (n + k : Nat) := by
  refine ⟨⟨8, hpccStartsIn_eight (by omega) (by omega)⟩, hpccStarts_nat hn, ?_⟩
  intro k hk
  rw [hpccStarts_nat hn, hpccStarts_nat hk, ← iterate_add_apply, Nat.add_comm k n]

/-- Past the period, where the second loop runs. -/
theorem hpccStarts_jumps_past_period :
    hpccStarts (period + 5 : Nat) = step^[period + 5] 1
      ∧ step^[2] (hpccStarts (period + 5 : Nat)) = hpccStarts (period + 5 + 2 : Nat) :=
  have h := hpccStarts_jumps (n := period + 5) (by decide)
  ⟨h.2.1, h.2.2 2 (by decide)⟩

end ThesisBench.Gups

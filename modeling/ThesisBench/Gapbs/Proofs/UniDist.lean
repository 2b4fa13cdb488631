/-
When the random vertices are uniform.

The raw values below a bound `c` are mapped to every remainder modulo
`n` equally often exactly when `n` divides `c` (`card_mod_iff`). With a
32-bit generator the bound is the greatest such `c`. With a 64-bit one
the bound is computed for 64 bits and then cut to 32, which leaves it a
multiple of `n` only for the divisors of `2 ^ 64 - 2 ^ 32`
(`uniform_mt19937_64_iff`).
-/
import ThesisBench.Gapbs.UniDist
import ThesisBench.Gapbs.Proofs.Csr
import Mathlib.Data.Int.CardIntervalMod

namespace ThesisBench.Gapbs.UniDist

variable {n : Nat}

-- =========================================================== remainders

/-- How many numbers below `c` have a remainder. -/
theorem card_mod (hn : 0 < n) (c : Nat) {v : Nat} (hv : v < n) :
    ((Finset.range c).filter fun r => r % n = v).card
      = c / n + if v < c % n then 1 else 0 := by
  have hcount := Nat.count_modEq_card c hn v
  rw [Nat.mod_eq_of_lt hv] at hcount
  rw [← hcount, Nat.count_eq_card_filter_range]
  refine congrArg Finset.card (Finset.filter_congr fun r _ => ?_)
  rw [Nat.ModEq, Nat.mod_eq_of_lt hv]

/-- The remainders are equally frequent below the multiples of `n`. -/
theorem card_mod_iff (hn : 0 < n) (c : Nat) :
    (∀ v w : Nat, v < n → w < n →
        ((Finset.range c).filter fun r => r % n = v).card
          = ((Finset.range c).filter fun r => r % n = w).card)
      ↔ n ∣ c := by
  constructor
  · intro h
    have h0 := h 0 (n - 1) hn (by omega)
    rw [card_mod hn c hn, card_mod hn c (show n - 1 < n by omega)] at h0
    have hlt := Nat.mod_lt c hn
    refine Nat.dvd_of_mod_eq_zero ?_
    split at h0 <;> split at h0 <;> omega
  · intro hdvd v w hv hw
    rw [card_mod hn c hv, card_mod hn c hw, Nat.mod_eq_zero_of_dvd hdvd]
    rfl

-- ========================================================== the results

/-- The values accepted when the modulus is used: all, or those below the
cutoff. -/
def bound (d : UniDist) : Nat := if d.cutoff = 0 then 2 ^ 32 else d.cutoff

variable {d : UniDist}

/-- A raw value is accepted below the bound. -/
theorem accepts_iff (hmod : d.noMod = false) {r : Nat} (hr : r < 2 ^ 32) :
    d.accepts r = true ↔ r < d.bound := by
  unfold accepts bound
  rw [hmod, Bool.false_or, Bool.or_eq_true, decide_eq_true_eq, decide_eq_true_eq]
  split <;> omega

theorem result_eq (hmod : d.noMod = false) (hd : d.mod = n) (hpos : 0 < n) (hn : n < 2 ^ 31)
    (r : Nat) : d.result r = (r % n : Nat) := by
  have hlt := Nat.mod_lt r hpos
  rw [result, hmod, hd]
  exact int32_of_lt (by omega)

/-- The distribution is uniform when the bound is a multiple. -/
theorem uniform_iff (hmod : d.noMod = false) (hd : d.mod = n) (hpos : 0 < n) (hn : n < 2 ^ 31)
    (hcutoff : d.cutoff < 2 ^ 32) : d.Uniform n ↔ n ∣ d.bound := by
  have hle : d.bound ≤ 2 ^ 32 := by
    unfold bound
    split <;> omega
  have hpre : ∀ v : Nat, d.preimages v = (Finset.range d.bound).filter fun r => r % n = v := by
    intro v
    refine Finset.ext fun r => ?_
    rw [preimages, Finset.mem_filter, Finset.mem_filter, Finset.mem_range, Finset.mem_range,
      result_eq hmod hd hpos hn, Int.natCast_inj]
    constructor
    · rintro ⟨hr, hacc, hres⟩
      exact ⟨(accepts_iff hmod hr).mp hacc, hres⟩
    · rintro ⟨hr, hres⟩
      have hr' : r < 2 ^ 32 := by omega
      exact ⟨hr', (accepts_iff hmod hr').mpr hr, hres⟩
  rw [← card_mod_iff hpos]
  constructor
  · intro h v w hv hw
    rw [← hpre, ← hpre]
    exact h.card v w hv hw
  · intro h
    refine ⟨fun v w hv hw => ?_, fun r _ _ => ?_⟩
    · rw [hpre, hpre]
      exact h v w hv hw
    · have hlt := Nat.mod_lt r hpos
      rw [result_eq hmod hd hpos hn]
      omega

-- ==================================================== the two generators

/-- A distribution for fewer values than the engine has uses the modulus. -/
theorem noMod_make {rngMax : Nat} (hn : n < 2 ^ 31) (hmax : 2 ^ 32 - 1 ≤ rngMax) :
    (make rngMax (n - 1)).noMod = false := by
  have hlt : uint32 (n - 1) < rngMax := by
    unfold uint32
    omega
  exact decide_eq_false (Nat.ne_of_gt hlt)

theorem mod_make (rngMax : Nat) (hpos : 0 < n) (hn : n < 2 ^ 31) :
    (make rngMax (n - 1)).mod = n := by
  show uint32 (n - 1 + 1) = n
  unfold uint32
  omega

theorem cutoff_make (rngMax : Nat) (hpos : 0 < n) (hn : n < 2 ^ 31) :
    (make rngMax (n - 1)).cutoff
      = if rngMax % n = n - 1 then 0 else (rngMax - rngMax % n) % 2 ^ 32 := by
  have hmod : uint32 (n - 1 + 1) = n := mod_make rngMax hpos hn
  have hlt := Nat.mod_lt rngMax hpos
  have hsub : uint32 (n + (2 ^ 32 - 1)) = n - 1 := by
    unfold uint32
    omega
  have hrem : uint32 (rngMax % n) = rngMax % n := Nat.mod_eq_of_lt (by omega)
  unfold make
  simp only [hmod, hrem, hsub]
  rfl

theorem cutoff_lt (rngMax maxValue : Nat) : (make rngMax maxValue).cutoff < 2 ^ 32 := by
  show (if _ then 0 else uint32 _) < 2 ^ 32
  split
  · exact Nat.two_pow_pos 32
  · exact Nat.mod_lt _ (Nat.two_pow_pos 32)

/-- If the last remainder is the largest, the modulus divides. -/
theorem dvd_succ_of_mod {m : Nat} (hpos : 0 < n) (h : m % n = n - 1) : n ∣ m + 1 := by
  refine Nat.dvd_of_mod_eq_zero ?_
  rw [Nat.add_mod, h]
  by_cases hone : n = 1
  · subst hone
    exact Nat.mod_one _
  · rw [Nat.mod_eq_of_lt (show 1 < n by omega), Nat.sub_add_cancel hpos, Nat.mod_self]

/-- With 32 bits the results are uniform. -/
theorem uniform_mt19937 (hpos : 0 < n) (hn : n < 2 ^ 31) :
    (make (2 ^ 32 - 1) (n - 1)).Uniform n := by
  rw [uniform_iff (noMod_make hn (Nat.le_refl _)) (mod_make _ hpos hn) hpos hn (cutoff_lt _ _),
    bound, cutoff_make _ hpos hn]
  have hlt := Nat.mod_lt (2 ^ 32 - 1) hpos
  by_cases hrem : (2 ^ 32 - 1) % n = n - 1
  · rw [if_pos hrem, if_pos rfl]
    exact dvd_succ_of_mod hpos hrem
  · rw [if_neg hrem, Nat.mod_eq_of_lt (by omega), if_neg (by omega)]
    exact Nat.dvd_sub_mod _

/-- With 64 bits the lower half of the cutoff is used. -/
theorem uniform_mt19937_64_iff (hpos : 0 < n) (hn : n < 2 ^ 31) :
    (make (2 ^ 64 - 1) (n - 1)).Uniform n ↔ n ∣ 2 ^ 64 - 2 ^ 32 := by
  rw [uniform_iff (noMod_make hn (by decide)) (mod_make _ hpos hn) hpos hn (cutoff_lt _ _),
    bound, cutoff_make _ hpos hn]
  have hlt := Nat.mod_lt (2 ^ 64 - 1) hpos
  by_cases hrem : (2 ^ 64 - 1) % n = n - 1
  · rw [if_pos hrem, if_pos rfl]
    have hdvd : n ∣ 2 ^ 64 := dvd_succ_of_mod hpos hrem
    exact (Nat.dvd_sub_iff_right (by decide) hdvd).symm
  · have hdvd : n ∣ 2 ^ 64 - 1 - (2 ^ 64 - 1) % n := Nat.dvd_sub_mod _
    have hlow : (2 ^ 64 - 1 - (2 ^ 64 - 1) % n) % 2 ^ 32 = 2 ^ 32 - 1 - (2 ^ 64 - 1) % n := by
      omega
    have hdiff : 2 ^ 64 - 2 ^ 32
        = (2 ^ 64 - 1 - (2 ^ 64 - 1) % n) - (2 ^ 32 - 1 - (2 ^ 64 - 1) % n) := by
      omega
    rw [if_neg hrem, hlow, if_neg (by omega), hdiff]
    exact (Nat.dvd_sub_iff_right (by omega) hdvd).symm

/-- Both generators give uniform vertices exactly for the divisors of
`2 ^ 64 - 2 ^ 32`. -/
theorem uniform_both_iff (n : Nat) (hpos : 1 ≤ n) (hn : n < 2 ^ 31) :
    ((make (2 ^ 32 - 1) (n - 1)).Uniform n ∧ (make (2 ^ 64 - 1) (n - 1)).Uniform n)
      ↔ n ∣ 2 ^ 64 - 2 ^ 32 := by
  rw [uniform_mt19937_64_iff hpos hn]
  exact ⟨fun h => h.2, fun h => ⟨uniform_mt19937 hpos hn, h⟩⟩

/-- Three values are drawn uniformly from both engines. -/
theorem uniform_both_three :
    (make (2 ^ 32 - 1) 2).Uniform 3 ∧ (make (2 ^ 64 - 1) 2).Uniform 3 :=
  (uniform_both_iff 3 (by decide) (by decide)).mpr (by decide)

/-- Seven vertices: two more raw values than a multiple of seven are
accepted. -/
theorem not_uniform_seven :
    (make (2 ^ 64 - 1) 6).bound % 7 = 2 ∧ ¬ (make (2 ^ 64 - 1) 6).Uniform 7 := by
  refine ⟨by decide, ?_⟩
  rw [show (make (2 ^ 64 - 1) 6) = make (2 ^ 64 - 1) (7 - 1) from rfl,
    uniform_mt19937_64_iff (by decide) (by decide)]
  decide

end ThesisBench.Gapbs.UniDist

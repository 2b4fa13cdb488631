/-
Maps on machine words that are linear over xor.

A word is the xor of its single bits, so a linear map is known from its
values on single bits. An equation between linear maps is then `w`
closed equations, however the maps are programmed.
-/
import Mathlib.Data.BitVec

namespace ThesisBench.XorLinear

variable {w : Nat}

/-- The map takes xor to xor. -/
def IsLinear (f : BitVec w → BitVec w) : Prop :=
  ∀ a b, f (a ^^^ b) = f a ^^^ f b

theorem IsLinear.zero {f : BitVec w → BitVec w} (hf : IsLinear f) :
    f 0#w = 0#w := by
  have h := hf 0#w 0#w
  rw [BitVec.xor_self, BitVec.xor_self] at h
  exact h

theorem IsLinear.comp {f g : BitVec w → BitVec w} (hf : IsLinear f)
    (hg : IsLinear g) : IsLinear (f ∘ g) := by
  intro a b
  rw [Function.comp_apply, hg a b, hf]
  rfl

/-- Linear maps that agree on single bits are equal. -/
theorem IsLinear.ext {f g : BitVec w → BitVec w} (hf : IsLinear f)
    (hg : IsLinear g)
    (h : ∀ i < w, f (BitVec.twoPow w i) = g (BitVec.twoPow w i)) : f = g := by
  -- by the number of low bits that may be set
  have hlow : ∀ k ≤ w, ∀ r : BitVec w, (∀ i, k ≤ i → r.getLsbD i = false) →
      f r = g r := by
    intro k
    induction k with
    | zero =>
        intro _ r hr
        have hz : r = 0#w := by
          refine BitVec.eq_of_getLsbD_eq fun i _ => ?_
          rw [hr i (Nat.zero_le i), BitVec.getLsbD_zero]
        rw [hz, hf.zero, hg.zero]
    | succ k ih =>
        intro hk r hr
        cases hbit : r.getLsbD k with
        | false =>
            refine ih (by omega) r fun i hi => ?_
            rcases Nat.eq_or_lt_of_le hi with rfl | hlt
            · exact hbit
            · exact hr i hlt
        | true =>
            have hsplit : r = (r ^^^ BitVec.twoPow w k) ^^^ BitVec.twoPow w k := by
              rw [BitVec.xor_assoc, BitVec.xor_self, BitVec.xor_zero]
            have hrest : f (r ^^^ BitVec.twoPow w k)
                = g (r ^^^ BitVec.twoPow w k) := by
              refine ih (by omega) _ fun i hi => ?_
              rw [BitVec.getLsbD_xor, BitVec.getLsbD_twoPow]
              rcases Nat.eq_or_lt_of_le hi with rfl | hlt
              · simp [hbit, Nat.lt_of_succ_le hk]
              · simp [hr i hlt, Nat.ne_of_lt hlt]
            rw [hsplit, hf, hg, hrest, h k hk]
  funext r
  refine hlow w (Nat.le_refl w) r fun i hi => ?_
  exact BitVec.getLsbD_of_ge r i hi

/-- The xor of the entries `v[j]` whose bit `j` is set in `r`, from bit
`j` on and on top of `acc`. -/
def spread (r : BitVec w) : Nat → List (BitVec w) → BitVec w → BitVec w
  | _, [], acc => acc
  | j, v :: vs, acc =>
      spread r (j + 1) vs (if r.getLsbD j then acc ^^^ v else acc)

/-- Spreading is linear, from any bit on. -/
theorem spread_xor (a b : BitVec w) (vs : List (BitVec w)) : ∀ (j : Nat)
    (s t : BitVec w), spread (a ^^^ b) j vs (s ^^^ t)
      = spread a j vs s ^^^ spread b j vs t := by
  induction vs with
  | nil => exact fun _ _ _ => rfl
  | cons v vs ih =>
      intro j s t
      rw [spread, spread, spread, ← ih]
      congr 1
      rw [BitVec.getLsbD_xor]
      cases a.getLsbD j with
      | false =>
          cases b.getLsbD j with
          | false => rfl
          | true => exact BitVec.xor_assoc s t v
      | true =>
          cases b.getLsbD j with
          | false =>
              show s ^^^ t ^^^ v = s ^^^ v ^^^ t
              rw [BitVec.xor_assoc, BitVec.xor_comm t v, ← BitVec.xor_assoc]
          | true =>
              show s ^^^ t = s ^^^ v ^^^ (t ^^^ v)
              rw [BitVec.xor_assoc, BitVec.xor_comm t v, ← BitVec.xor_assoc v,
                BitVec.xor_self, BitVec.zero_xor]

/-- Spreading over a fixed table is linear. -/
theorem isLinear_spread (vs : List (BitVec w)) :
    IsLinear fun r => spread r 0 vs 0#w := by
  intro a b
  have h := spread_xor a b vs 0 0#w 0#w
  rwa [BitVec.xor_self] at h

end ThesisBench.XorLinear

/-
The generator of `Random.lean` is the 48-bit congruential generator, and
the inlined copy is the same generator seeded per thread.

Each macro first gets its value as a number below its bound; `next` is
then a computation with carries in base 2^16, linear because the
multiplier is a constant.
-/
import ThesisBench.Btree.Random
import Mathlib.Data.Nat.Bitwise

namespace ThesisBench.Btree

-- ===================================================== the macros' value

theorem LOW_toNat {w : Nat} (x : BitVec w) :
    (LOW x).toNat = x.toNat % 2 ^ 16 := by
  have hmask : (MASK 32).toNat = 2 ^ 16 - 1 := by decide
  unfold LOW
  rw [BitVec.toNat_and, hmask, Nat.and_two_pow_sub_one_eq_mod, BitVec.toNat_setWidth]
  exact Nat.mod_mod_of_dvd _ (by decide)

@[simp] theorem widen_toNat (x : BitVec 32) : (widen x).toNat = x.toNat := by
  have := x.isLt
  unfold widen
  rw [BitVec.toNat_setWidth]
  omega

/-- The sixteen bits `HIGH` keeps are below the copied sign. -/
theorem HIGH_eq_HIGHU (l : BitVec 32) : HIGH l = HIGHU l := by
  unfold HIGH HIGHU LOW
  apply BitVec.eq_of_getLsbD_eq
  intro i hi
  have hmask : MASK 32 = BitVec.ofNat 32 (2 ^ 16 - 1) := by decide
  simp only [BitVec.getLsbD_and, hmask, BitVec.getLsbD_ofNat, Nat.testBit_two_pow_sub_one]
  by_cases h : i < 16
  · simp [BitVec.getElem_sshiftRight, h, hi, show 16 + i < 32 by omega]
  · simp [h]

theorem HIGHU_toNat (l : BitVec 32) : (HIGHU l).toNat = l.toNat / 2 ^ 16 := by
  have := l.isLt
  unfold HIGHU
  rw [LOW_toNat, BitVec.toNat_ushiftRight, Nat.shiftRight_eq_div_pow]
  omega

/-- `MUL` splits the product of two limbs into its low and its high limb. -/
theorem MUL_toNat {x y : BitVec 64} (hx : x.toNat < 2 ^ 16) (hy : y.toNat < 2 ^ 16) :
    (MUL x y).1.toNat = x.toNat * y.toNat % 2 ^ 16
      ∧ (MUL x y).2.toNat = x.toNat * y.toNat / 2 ^ 16 := by
  have hxy : x.toNat * y.toNat < 2 ^ 32 :=
    lt_of_lt_of_le (Nat.mul_lt_mul'' hx hy) (by decide)
  have hl : ((x * y).setWidth 32).toNat = x.toNat * y.toNat := by
    rw [BitVec.toNat_setWidth, BitVec.toNat_mul]
    omega
  unfold MUL
  refine ⟨?_, ?_⟩
  · rw [widen_toNat, LOW_toNat, hl]
  · rw [widen_toNat, HIGH_eq_HIGHU, HIGHU_toNat, hl]

/-- A sum of two limbs is far below 2^31, so the signed comparison is the
unsigned one. -/
theorem CARRY_toNat {x y : BitVec 64} (hx : x.toNat < 2 ^ 16) (hy : y.toNat < 2 ^ 16) :
    (CARRY x y).toNat = (x.toNat + y.toNat) / 2 ^ 16 := by
  have hext : ((x.setWidth 32).signExtend 64) = x := by
    apply BitVec.eq_of_toInt_eq
    rw [BitVec.toInt_signExtend_of_le (by decide), BitVec.toInt_eq_toNat_of_lt,
      BitVec.toInt_eq_toNat_of_lt, BitVec.toNat_setWidth]
    · omega
    · omega
    · rw [BitVec.toNat_setWidth]
      omega
  have hsum : (x + y).toInt = x.toNat + y.toNat := by
    rw [BitVec.toInt_eq_toNat_of_lt] <;> rw [BitVec.toNat_add] <;> omega
  have hmask : (MASK 64).toInt = 65535 := by decide
  unfold CARRY
  rw [hext, BitVec.slt_eq_decide, hsum, hmask]
  by_cases h : (65535 : Int) < x.toNat + y.toNat
  · rw [if_pos (by simpa using h)]
    have : (1 : BitVec 64).toNat = 1 := by decide
    omega
  · rw [if_neg (by simpa using h)]
    have : (0 : BitVec 64).toNat = 0 := by decide
    omega

/-- `ADDEQU` splits the sum of two limbs into the low limb and the carry. -/
theorem ADDEQU_toNat {x y : BitVec 64} (hx : x.toNat < 2 ^ 16) (hy : y.toNat < 2 ^ 16) :
    (ADDEQU x y).1.toNat = (x.toNat + y.toNat) % 2 ^ 16
      ∧ (ADDEQU x y).2.toNat = (x.toNat + y.toNat) / 2 ^ 16 := by
  refine ⟨?_, CARRY_toNat hx hy⟩
  unfold ADDEQU
  rw [widen_toNat, LOW_toNat, BitVec.toNat_add]
  omega

-- ================================================================ next

/-- A state the generator can be in: sixteen-bit limbs, and the constants
`SEED` sets. -/
structure Rand48.Valid (s : Rand48) : Prop where
  l0 : s.x.l0.toNat < 2 ^ 16
  l1 : s.x.l1.toNat < 2 ^ 16
  l2 : s.x.l2.toNat < 2 ^ 16
  a : s.a = multiplier
  c : s.c = 0xB

/-- The 48-bit number the limbs stand for. -/
def Rand48.value (s : Rand48) : Nat :=
  s.x.l2.toNat * 2 ^ 32 + s.x.l1.toNat * 2 ^ 16 + s.x.l0.toNat

/-- The limbs of `next`, with the pairs taken apart. -/
theorem next_limbs (s : Rand48) :
    let p := MUL s.a.l0 s.x.l0
    let p0 := ADDEQU p.1 s.c
    let p1 := ADDEQU p.2 p0.2
    let q := MUL s.a.l0 s.x.l1
    let p1' := ADDEQU p1.1 q.1
    let r := MUL s.a.l1 s.x.l0
    s.next.x.l0 = widen (LOW p0.1) ∧ s.next.x.l1 = widen (LOW (p1'.1 + r.1))
      ∧ s.next.x.l2 = widen (LOW (p1'.2 + p1.2 + CARRY p1'.1 r.1 + q.2 + r.2
        + s.a.l0 * s.x.l2 + s.a.l1 * s.x.l1 + s.a.l2 * s.x.l0)) :=
  ⟨rfl, rfl, rfl⟩

/-- One step: the new limbs are those of the product and sum in base 2^16. -/
theorem Rand48.Valid.next_value {s : Rand48} (h : s.Valid) :
    s.next.Valid ∧ s.next.value = (0x5DEECE66D * s.value + 0xB) % 2 ^ 48 := by
  obtain ⟨h0, h1, h2, ha, hc⟩ := h
  have hl := next_limbs s
  have ha0 : multiplier.l0.toNat = 0xE66D := by decide
  have ha1 : multiplier.l1.toNat = 0xDEEC := by decide
  have ha2 : multiplier.l2.toNat = 0x5 := by decide
  have hcb : (0xB : BitVec 64).toNat = 0xB := by decide
  simp only [ha, hc] at hl
  have hp := MUL_toNat (x := multiplier.l0) (y := s.x.l0) (by omega) h0
  have hq := MUL_toNat (x := multiplier.l0) (y := s.x.l1) (by omega) h1
  have hr := MUL_toNat (x := multiplier.l1) (y := s.x.l0) (by omega) h0
  rw [ha0] at hp hq
  rw [ha1] at hr
  generalize MUL multiplier.l0 s.x.l0 = p at *
  generalize MUL multiplier.l0 s.x.l1 = q at *
  generalize MUL multiplier.l1 s.x.l0 = r at *
  have hp0 := ADDEQU_toNat (x := p.1) (y := 0xB) (by omega) (by omega)
  generalize ADDEQU p.1 0xB = p0 at *
  have hp1 := ADDEQU_toNat (x := p.2) (y := p0.2) (by omega) (by omega)
  generalize ADDEQU p.2 p0.2 = p1 at *
  have hp1' := ADDEQU_toNat (x := p1.1) (y := q.1) (by omega) (by omega)
  generalize ADDEQU p1.1 q.1 = p1' at *
  have hk := CARRY_toNat (x := p1'.1) (y := r.1) (by omega) (by omega)
  generalize CARRY p1'.1 r.1 = k at *
  obtain ⟨hl0, hl1, hl2⟩ := hl
  have e0 : s.next.x.l0.toNat = p0.1.toNat := by
    rw [hl0, widen_toNat, LOW_toNat]
    omega
  have e1 : s.next.x.l1.toNat = (p1'.1.toNat + r.1.toNat) % 2 ^ 16 := by
    rw [hl1, widen_toNat, LOW_toNat, BitVec.toNat_add]
    omega
  obtain ⟨top, htop⟩ : ∃ top, top = p1'.2.toNat + p1.2.toNat + k.toNat + q.2.toNat
      + r.2.toNat + 0xE66D * s.x.l2.toNat + 0xDEEC * s.x.l1.toNat + 0x5 * s.x.l0.toNat :=
    ⟨_, rfl⟩
  have e2 : s.next.x.l2.toNat = top % 2 ^ 16 := by
    rw [hl2, widen_toNat, LOW_toNat]
    simp only [BitVec.toNat_add, BitVec.toNat_mul, ha0, ha1, ha2]
    omega
  refine ⟨⟨by omega, by omega, by omega, ha, hc⟩, ?_⟩
  -- what the cut of the top limb and the missing products leave out
  have hcut : 0x5DEECE66D * s.value + 0xB = s.next.value
      + 2 ^ 48 * (top / 2 ^ 16 + 0xDEEC * s.x.l2.toNat + 0x5 * s.x.l1.toNat
        + 0x5 * 2 ^ 16 * s.x.l2.toNat) := by
    unfold Rand48.value
    omega
  have hlt : s.next.value < 2 ^ 48 := by
    unfold Rand48.value
    omega
  rw [hcut, Nat.add_mul_mod_self_left, Nat.mod_eq_of_lt hlt]

/-- What `redisLrand48` returns is the value without its low 17 bits. -/
theorem Rand48.Valid.output_toNat {s : Rand48} (h : s.Valid) :
    s.output.toNat = s.value / 2 ^ 17 := by
  have h0 := h.l0
  have h1 := h.l1
  have h2 := h.l2
  unfold Rand48.output Rand48.value
  rw [BitVec.toNat_add, BitVec.toNat_shiftLeft, BitVec.toNat_ushiftRight,
    Nat.shiftLeft_eq, Nat.shiftRight_eq_div_pow]
  omega

/-- `SEED` with three limbs makes a valid state. -/
theorem valid_SEED {x0 x1 x2 : BitVec 64} (h0 : x0.toNat < 2 ^ 16)
    (h1 : x1.toNat < 2 ^ 16) (h2 : x2.toNat < 2 ^ 16) : (SEED x0 x1 x2).Valid :=
  ⟨h0, h1, h2, rfl, rfl⟩

theorem valid_initial : Rand48.initial.Valid := by
  apply valid_SEED <;> decide

-- ===================================================== the inlined copy

/-- The state of the shared generator that a thread's state is a copy of. -/
def Local.toRand48 (t : Local) : Rand48 := ⟨t.local_x, t.local_a, t.local_c⟩

/-- The loop's body steps the copy as `redisLrand48` steps the original. -/
theorem draw_toRand48 (t : Local) :
    redisLrand48 t.toRand48 = (t.draw.1, t.draw.2.toRand48) :=
  rfl

/-- The copy draws the values the original draws. -/
theorem draws_toRand48 (n : Nat) : ∀ t : Local, t.draws n = draws n t.toRand48 := by
  induction n with
  | zero =>
      intro t
      rfl
  | succ n ih =>
      intro t
      simp only [Local.draws, draws, draw_toRand48, ih]

/-- The seed of the loop is unsigned and that of `redisSrand48` signed; the
limbs are the same. -/
theorem start_toRand48 (tid : BitVec 32) :
    (Local.start tid).toRand48 = redisSrand48 (localSeed tid) := by
  unfold redisSrand48
  rw [HIGH_eq_HIGHU]
  rfl

/-- The seed of a thread, by its number. -/
theorem localSeed_ofNat (tid : Nat) :
    localSeed (BitVec.ofNat 32 tid) = BitVec.ofNat 32 (0xcafebabe + 12345 * tid) := by
  unfold localSeed
  apply BitVec.eq_of_toNat_eq
  rw [BitVec.toNat_add, BitVec.toNat_mul, BitVec.toNat_ofNat, BitVec.toNat_ofNat]
  simp only [BitVec.ofNat_eq_ofNat, BitVec.toNat_ofNat]
  omega

/-- `next` is the 48-bit congruential step on sixteen-bit limbs,
`redisLrand48` returns its top 31 bits, and a thread of the lookup loop
draws what the shared generator would draw from the thread's seed. -/
theorem rand48_generator :
    (∀ s : Rand48, s.Valid → s.next.Valid
        ∧ s.next.value = (0x5DEECE66D * s.value + 0xB) % 2 ^ 48
        ∧ (redisLrand48 s).2 = s.next
        ∧ (redisLrand48 s).1.toNat = s.next.value / 2 ^ 17)
      ∧ ∀ tid n : Nat, (Local.start (BitVec.ofNat 32 tid)).draws n
          = draws n (redisSrand48 (BitVec.ofNat 32 ((0xcafebabe + 12345 * tid) % 2 ^ 32))) := by
  refine ⟨?_, ?_⟩
  · intro s h
    obtain ⟨hv, he⟩ := h.next_value
    exact ⟨hv, he, rfl, hv.output_toNat⟩
  · intro tid n
    have hmod : BitVec.ofNat 32 ((0xcafebabe + 12345 * tid) % 2 ^ 32)
        = BitVec.ofNat 32 (0xcafebabe + 12345 * tid) := by
      apply BitVec.eq_of_toNat_eq
      simp only [BitVec.toNat_ofNat]
      omega
    rw [draws_toRand48, start_toRand48, localSeed_ofNat, hmod]

/-- At the static initial state and at thread 3. -/
theorem rand48_generator_initial :
    (redisLrand48 Rand48.initial).1.toNat = Rand48.initial.next.value / 2 ^ 17
      ∧ (Local.start 3).draws 2
        = draws 2 (redisSrand48 (BitVec.ofNat 32 ((0xcafebabe + 12345 * 3) % 2 ^ 32))) :=
  ⟨(rand48_generator.1 _ valid_initial).2.2.2, rand48_generator.2 3 2⟩

end ThesisBench.Btree

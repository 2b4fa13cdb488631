/-
The pseudo-random generator of `sources/btree/btree.c`: the 48-bit
linear congruential generator of `redisLrand48`, kept in three sixteen-bit
limbs, and the copy of it that every thread of the OpenMP lookup loop runs
on its own state.

The macros are taken at the widths the C conversions give them: a limb is
a `uint64_t`, `LOW` passes through a 32-bit `unsigned`, `MUL` cuts the
64-bit product to a signed 32-bit integer, and `CARRY` compares in 64-bit
signed arithmetic.
-/
import Mathlib.Logic.Function.Iterate

namespace ThesisBench.Btree

-- =============================================================== macros

/-- `MASK`, at the width of the operand beside it. -/
def MASK (w : Nat) : BitVec w := (1 <<< 15) + (1 <<< 15) - 1

/-- `LOW(x)` -/
def LOW {w : Nat} (x : BitVec w) : BitVec 32 := x.setWidth 32 &&& MASK 32

/-- `HIGH(x)` of a signed operand: `>>` copies the sign. -/
def HIGH {w : Nat} (x : BitVec w) : BitVec 32 := LOW (x.sshiftRight 16)

/-- `HIGH(x)` of an unsigned operand. -/
def HIGHU {w : Nat} (x : BitVec w) : BitVec 32 := LOW (x >>> 16)

/-- A C `unsigned` stored in a `uint64_t`. -/
def widen (x : BitVec 32) : BitVec 64 := x.setWidth 64

/-- `MUL(x, y, z)`: the two elements of `z`. -/
def MUL (x y : BitVec 64) : BitVec 64 × BitVec 64 :=
  let l : BitVec 32 := (x * y).setWidth 32
  (widen (LOW l), widen (HIGH l))

/-- `CARRY(x, y)`, as the number the comparison is. -/
def CARRY (x y : BitVec 64) : BitVec 64 :=
  if (MASK 64).slt ((x.setWidth 32).signExtend 64 + y) then 1 else 0

/-- `ADDEQU(x, y, z)`: the new `x` and `z`. -/
def ADDEQU (x y : BitVec 64) : BitVec 64 × BitVec 64 :=
  let z := CARRY x y
  (widen (LOW (x + y)), z)

-- ============================================================ generator

/-- An array of three `uint64_t`. -/
structure Limbs where
  l0 : BitVec 64
  l1 : BitVec 64
  l2 : BitVec 64
deriving DecidableEq, Repr

/-- The static `x`, `a` and `c`. -/
structure Rand48 where
  x : Limbs
  a : Limbs
  c : BitVec 64
deriving DecidableEq, Repr

/-- `A0`, `A1`, `A2` -/
def multiplier : Limbs := ⟨0xE66D, 0xDEEC, 0x5⟩

/-- `SEED(x0, x1, x2)` -/
def SEED (x0 x1 x2 : BitVec 64) : Rand48 := ⟨⟨x0, x1, x2⟩, multiplier, 0xB⟩

/-- The static initialisers. -/
def Rand48.initial : Rand48 := SEED 0x330E 0xABCD 0x1234

/-- `next` -/
def Rand48.next (s : Rand48) : Rand48 :=
  let p := MUL s.a.l0 s.x.l0
  let (p0, carry0) := ADDEQU p.1 s.c
  let (p1, carry1) := ADDEQU p.2 carry0
  let q := MUL s.a.l0 s.x.l1
  let (p1, carry0) := ADDEQU p1 q.1
  let r := MUL s.a.l1 s.x.l0
  let x2 := widen (LOW (carry0 + carry1 + CARRY p1 r.1 + q.2 + r.2
    + s.a.l0 * s.x.l2 + s.a.l1 * s.x.l1 + s.a.l2 * s.x.l0))
  let x1 := widen (LOW (p1 + r.1))
  let x0 := widen (LOW p0)
  { s with x := ⟨x0, x1, x2⟩ }

/-- What `redisLrand48` returns once `next` has run. -/
def Rand48.output (s : Rand48) : BitVec 64 := (s.x.l2 <<< 15) + (s.x.l1 >>> 1)

/-- `redisLrand48` -/
def redisLrand48 (s : Rand48) : BitVec 64 × Rand48 :=
  let s := s.next
  (s.output, s)

/-- `redisSrand48` -/
def redisSrand48 (seedval : BitVec 32) : Rand48 :=
  SEED 0x330E (widen (LOW seedval)) (widen (HIGH seedval))

/-- The values of `n` calls of `redisLrand48`. -/
def draws : Nat → Rand48 → List (BitVec 64)
  | 0, _ => []
  | n + 1, s =>
      let (rdn, s) := redisLrand48 s
      rdn :: draws n s

-- ===================================================== the inlined copy

/-- The `local_x`, `local_a` and `local_c` of one thread. -/
structure Local where
  local_x : Limbs
  local_a : Limbs
  local_c : BitVec 64
deriving DecidableEq, Repr

/-- `0xcafebabe + tid * 12345`, an `unsigned`. -/
def localSeed (tid : BitVec 32) : BitVec 32 := 0xcafebabe + tid * 12345

/-- The thread's state before the loop. -/
def Local.start (tid : BitVec 32) : Local :=
  { local_x :=
      ⟨0x330E, widen (LOW (localSeed tid)), widen (HIGHU (localSeed tid))⟩
    local_a := multiplier
    local_c := 0xB }

/-- The generator's lines in the loop's body: the number `rdn` the two
lookups use, and the state left behind. -/
def Local.draw (t : Local) : BitVec 64 × Local :=
  let p := MUL t.local_a.l0 t.local_x.l0
  let (p0, carry0) := ADDEQU p.1 t.local_c
  let (p1, carry1) := ADDEQU p.2 carry0
  let q := MUL t.local_a.l0 t.local_x.l1
  let (p1, carry0) := ADDEQU p1 q.1
  let r := MUL t.local_a.l1 t.local_x.l0
  let x2 := widen (LOW (carry0 + carry1 + CARRY p1 r.1 + q.2 + r.2
    + t.local_a.l0 * t.local_x.l2 + t.local_a.l1 * t.local_x.l1
    + t.local_a.l2 * t.local_x.l0))
  let x1 := widen (LOW (p1 + r.1))
  let x0 := widen (LOW p0)
  ((x2 <<< 15) + (x1 >>> 1), { t with local_x := ⟨x0, x1, x2⟩ })

/-- The numbers a thread draws in `n` iterations of its share. -/
def Local.draws : Nat → Local → List (BitVec 64)
  | 0, _ => []
  | n + 1, t =>
      let (rdn, t) := t.draw
      rdn :: draws n t

end ThesisBench.Btree

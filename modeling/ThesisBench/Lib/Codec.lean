/-
Values as bytes of a file, and reading them back.

A `Codec` lays a type's values out in a fixed number of bytes; the
values it can hold come back (`decode_encode`). Multi-byte integers are
little-endian.

`Reads p bs a` says that the program `p` takes `bs` off the front of any
file and returns `a`. Programs in sequence read bytes in sequence
(`Reads.bind`), so what a program reads of a whole file is put together
from its parts, and nothing is left over where the file ends with
them.
-/
import Mathlib.Algebra.Ring.Int.Defs
import Mathlib.Data.List.Basic
import Mathlib.Tactic.Common
import Mathlib.Algebra.Ring.Nat

namespace ThesisBench.Serial

-- ============================================================== integers

/-- The `width` low bytes of `n`, the lowest first. -/
def leBytes : Nat → Nat → List UInt8
  | 0, _ => []
  | width + 1, n => UInt8.ofNat n :: leBytes width (n / 256)

def leNat : List UInt8 → Nat
  | [] => 0
  | b :: bs => b.toNat + 256 * leNat bs

/-- A number is written in as many bytes as it is wide. -/
theorem length_leBytes (width n : Nat) : (leBytes width n).length = width := by
  induction width generalizing n with
  | zero => rfl
  | succ width ih => rw [leBytes, List.length_cons, ih]

/-- A number that fits is read as it was written. -/
theorem leNat_leBytes {width n : Nat} (h : n < 256 ^ width) :
    leNat (leBytes width n) = n := by
  induction width generalizing n with
  | zero =>
      rw [Nat.pow_zero, Nat.lt_one_iff] at h
      rw [h]
      rfl
  | succ width ih =>
      have hdiv : n / 256 < 256 ^ width := by
        rw [Nat.div_lt_iff_lt_mul (by decide)]
        exact h
      rw [leBytes, leNat, ih hdiv, UInt8.toNat_ofNat', Nat.add_comm]
      exact Nat.div_add_mod n 256

-- ================================================================ codecs

/-- A layout of values in `width` bytes. -/
structure Codec (α : Type) where
  width : Nat
  encode : α → List UInt8
  decode : List UInt8 → Option α
  Valid : α → Prop
  length_encode : ∀ a, (encode a).length = width
  decode_encode : ∀ a, Valid a → decode (encode a) = some a

/-- `bool` -/
def bool : Codec Bool where
  width := 1
  encode b := [if b then 1 else 0]
  decode bs := some (bs != [0])
  Valid _ := True
  length_encode _ := rfl
  decode_encode b _ := by cases b <;> rfl

/-- `int64_t` -/
def int64 : Codec Int where
  width := 8
  encode x := leBytes 8 (x % 2 ^ 64).toNat
  decode bs := some ((leNat bs : Int).bmod (2 ^ 64))
  Valid x := -2 ^ 63 ≤ x ∧ x < 2 ^ 63
  length_encode x := length_leBytes 8 _
  decode_encode x hx := by
    have hmod : x % ((2 ^ 64 : Nat) : Int) = (x % 2 ^ 64 : Int) := rfl
    rw [leNat_leBytes (by omega), Int.toNat_of_nonneg (by omega), ← hmod, Int.emod_bmod,
      Int.bmod_eq_of_le (by omega) (by omega)]

-- =============================================================== reading

/-- A program that reads a file from where it stands; `none` is a file
that is too short or holds something else. -/
abbrev FileReader := StateT (List UInt8) Option

variable {α β : Type}

/-- `file.read` of `n` bytes -/
def getBytes (n : Nat) : FileReader (List UInt8) := fun file =>
  if n ≤ file.length then some (file.take n, file.drop n) else none

def Codec.get (c : Codec α) : FileReader α := do
  let bs ← getBytes c.width
  StateT.lift (c.decode bs)

/-- `file.read` of an array -/
def Codec.getMany (c : Codec α) : Nat → FileReader (List α)
  | 0 => pure []
  | n + 1 => do
      let a ← c.get
      let as ← c.getMany n
      pure (a :: as)

/-- The program takes these bytes and returns this. -/
def Reads (p : FileReader α) (bs : List UInt8) (a : α) : Prop :=
  ∀ file, p (bs ++ file) = some (a, file)

theorem Reads.pure (a : α) : Reads (Pure.pure a) [] a := fun _ => rfl

/-- A value that is there already takes no bytes. -/
theorem Reads.lift {o : Option α} {a : α} (h : o = some a) :
    Reads (StateT.lift o) [] a := by
  intro file
  rw [h]
  rfl

theorem Reads.bind {p : FileReader α} {q : α → FileReader β} {bs cs : List UInt8} {a : α}
    {b : β} (hp : Reads p bs a) (hq : Reads (q a) cs b) : Reads (p >>= q) (bs ++ cs) b := by
  intro file
  show (p (bs ++ cs ++ file)).bind (fun r => q r.1 r.2) = _
  rw [List.append_assoc, hp, Option.bind_some]
  exact hq file

theorem reads_getBytes (bs : List UInt8) : Reads (getBytes bs.length) bs bs := by
  intro file
  rw [getBytes, if_pos (by simp), List.take_left, List.drop_left]

/-- What a format encodes its reader reads. -/
theorem Codec.reads_get (c : Codec α) {a : α} (h : c.Valid a) :
    Reads c.get (c.encode a) a := by
  have hbytes := reads_getBytes (c.encode a)
  rw [c.length_encode] at hbytes
  have hget := hbytes.bind (q := fun bs => StateT.lift (c.decode bs))
    (Reads.lift (c.decode_encode a h))
  rwa [List.append_nil] at hget

/-- An array is read back element by element. -/
theorem Codec.reads_getMany (c : Codec α) {as : List α} (h : ∀ a ∈ as, c.Valid a) :
    Reads (c.getMany as.length) (as.flatMap c.encode) as := by
  induction as with
  | nil => exact Reads.pure []
  | cons a as ih =>
      have has := ih fun b hb => h b (List.mem_cons_of_mem a hb)
      have hcons := has.bind (q := fun as => Pure.pure (a :: as)) (Reads.pure (a :: as))
      have hread := (c.reads_get (h a List.mem_cons_self)).bind
        (q := fun a => c.getMany as.length >>= fun as => Pure.pure (a :: as)) hcons
      rwa [List.append_nil, ← List.flatMap_cons] at hread

end ThesisBench.Serial

/-
The other builds of the table updates: `sources/gups/gups.c` without
OpenMP, and `sources/gups/gupstoy.c`.

Their loops mirror an index at `TableSize - elm`, not at
`TableSize - 1 - elm`. What decides where the updates land is the table's
size, so the parsing and rounding of the size is here too, for every
build. What the C standard leaves undefined (a shift by -1) has no table,
and a `malloc` that answers NULL ends the program before there is one.
-/
import ThesisBench.Gups.Gups

namespace ThesisBench.Gups

-- ================================================== the loop, one thread

/-- The starts of the 128 streams. -/
def serialRan (nupdate : Nat) : List Word :=
  (List.range 128).map fun j => hpccStarts (toInt64 (nupdate / 128 * j))

/-- The loop over `j`. -/
def serialInner (tableSize : Nat) : List Word → Table → List Word × Table
  | [], t => ([], t)
  | r :: ran, t =>
      let r := step r
      let elm := r.toNat % tableSize
      let t := Update.apply t ⟨elm, r⟩
      let t := Update.apply t ⟨tableSize - elm, r⟩
      let (ran, t) := serialInner tableSize ran t
      (r :: ran, t)

/-- The loop over `i`. -/
def serialOuter (tableSize : Nat) : Nat → List Word → Table → Table
  | 0, _, t => t
  | i + 1, ran, t =>
      let (ran, t) := serialInner tableSize ran t
      serialOuter tableSize i ran t

/-- The update loop without OpenMP. -/
def serialLoop (tableSize nupdate : Nat) (t : Table) : Table :=
  serialOuter tableSize (nupdate / 128) (serialRan nupdate) t

/-- What the loop is for: one stream, in its own order. -/
def plainLoop (tableSize : Nat) : Nat → Word → Table → Table
  | 0, _, t => t
  | n + 1, r, t =>
      let r := step r
      let elm := r.toNat % tableSize
      let t := Update.apply t ⟨elm, r⟩
      let t := Update.apply t ⟨tableSize - elm, r⟩
      plainLoop tableSize n r t

/-- The two updates of one value. -/
def serialUpdates (tableSize : Nat) (r : Word) : List Update :=
  [⟨r.toNat % tableSize, r⟩, ⟨tableSize - r.toNat % tableSize, r⟩]

-- ======================================================= the table's size

/-- `for (i = 0; i < 64; i++) if (1ULL << i > mem) ...`, with `k` of the 64
rounds left. At `i = 0` the shift in the branch is by -1. -/
def roundMem (mem : Nat) : Nat → Option Nat
  | 0 => some mem
  | k + 1 =>
      let i := 63 - k
      if 2 ^ i > mem then
        if i = 0 then none else some (2 ^ (i - 1))
      else roundMem mem k

/-- Which sizes `malloc` grants; more than `PTRDIFF_MAX` bytes it never
does. -/
structure Malloc where
  grants : Nat → Bool
  limit : ∀ n, 2 ^ 63 ≤ n → grants n = false

inductive Setup where
  /-- Undefined behaviour before there is a table. -/
  | undefined
  /-- The table could not be allocated. -/
  | exits
  | table (tableSize : Nat)
deriving DecidableEq, Repr

/-- `mem` as requested: `argv[1]` is the number `strtoull` reads. -/
def requestedMem (argv1 : Option Word) : Word :=
  match argv1 with
  | none => 64#64 <<< 30
  | some size => size <<< 30

/-- `real_main` of gups.c up to `TableSize`. -/
def gupsSetup (m : Malloc) (argv1 : Option Word) : Setup :=
  match roundMem (requestedMem argv1).toNat 64 with
  | none => .undefined
  | some mem => if m.grants (mem + 16) then .table (mem / 8) else .exits

/-- `real_main` of gupstoy.c up to `TableSize`. -/
def toySetup (m : Malloc) : Setup :=
  if m.grants (2 ^ 30) then .table (2 ^ 30 / 8) else .exits

-- ============================================================ the builds

/-- `NUPDATE` of gupstoy.c -/
def toyNupdate : Nat := 2 ^ 29

/-- The four programs. With OpenMP the toy divides its rounds over the
threads, each with streams of its own; which thread runs how many is up to
the schedule. -/
inductive Build where
  | gups
  | gupsOpenMP (nth : Nat) (pos : 0 < nth)
  | toy
  | toyOpenMP (nth : Nat) (pos : 0 < nth) (share : Nat → Nat)
      (shared : ((List.range nth).map share).sum = toyNupdate / 128 * nth)

def Build.setup : Build → Malloc → Option Word → Setup
  | .gups, m, argv1 => gupsSetup m argv1
  | .gupsOpenMP _ _, m, argv1 => gupsSetup m argv1
  | .toy, m, _ => toySetup m
  | .toyOpenMP _ _ _ _, m, _ => toySetup m

/-- The bytes asked for; the toy asks for one GiB whatever its arguments
are. -/
def Build.requested : Build → Option Word → Nat
  | .gups, argv1 => (argv1.getD 64).toNat * 2 ^ 30
  | .gupsOpenMP _ _, argv1 => (argv1.getD 64).toNat * 2 ^ 30
  | .toy, _ => 2 ^ 30
  | .toyOpenMP _ _ _ _, _ => 2 ^ 30

/-- Every update the program applies to the table. -/
def Build.applied : Build → Option Word → Nat → List Update
  | .gups, argv2, tableSize =>
      let nupdate := roundNupdate (argv2.getD (3 <<< 29)).toNat
      (rounds (nupdate / 128) (serialRan nupdate)).flatMap (serialUpdates tableSize)
  | .gupsOpenMP nth _, argv2, tableSize =>
      let nupdate := roundNupdate (argv2.getD (1 <<< 34)).toNat
      (List.range nth).flatMap fun tid =>
        (threadValues nupdate nth tid).flatMap (updates tableSize)
  | .toy, _, tableSize =>
      (rounds (toyNupdate / 128) (serialRan toyNupdate)).flatMap (serialUpdates tableSize)
  | .toyOpenMP nth _ share _, _, tableSize =>
      (List.range nth).flatMap fun tid =>
        (rounds (share tid) (serialRan toyNupdate)).flatMap (serialUpdates tableSize)

/-- A table is a positive power of two of words that fits what was asked
for, and no update goes past its end. -/
def Setup.Within (requested : Nat) (applied : Nat → List Update) : Setup → Prop
  | .undefined => False
  | .exits => True
  | .table tableSize => (∃ k, tableSize = 2 ^ k) ∧ 8 * tableSize ≤ requested
      ∧ ∀ u ∈ applied tableSize, u.elm < tableSize

/-- The program keeps to its table, wherever it runs. -/
def Build.Within (b : Build) (argv1 argv2 : Option Word) : Prop :=
  ∀ m, (b.setup m argv1).Within (b.requested argv1) (b.applied argv2)

/-- The size does not come to 0 in 64 bits, and a single thread has no
updates to make, or a table so large that `malloc` refuses it. -/
def Build.Avoids (b : Build) (argv1 argv2 : Option Word) : Prop :=
  match b with
  | .gups => (argv1.getD 64).toNat % 2 ^ 34 ≠ 0
      ∧ (2 ^ 33 ≤ (argv1.getD 64).toNat % 2 ^ 34 ∨ argv2 = some 0)
  | .gupsOpenMP _ _ => (argv1.getD 64).toNat % 2 ^ 34 ≠ 0
  | .toy => False
  | .toyOpenMP _ _ _ _ => False

end ThesisBench.Gups

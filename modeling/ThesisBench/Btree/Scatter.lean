/-
`real_main` of `sources/btree/btree.c`: the scattered insertion and the
lookups.

Every record's value is the address of an element, and the element's
payload is what a lookup adds to the sum. The elements live in two
arrays, `elms` and `elms2`, of `nelements / 2` eight-byte elements each;
where `allocate` puts them is a parameter, with what `mmap` promises:
inside the address space, not at address zero, not over each other.
-/
import ThesisBench.Btree.Ops
import Mathlib.Data.Fin.Basic
import Mathlib.Algebra.Ring.Nat

namespace ThesisBench.Btree

-- ============================================================= elements

/-- `if (nelements % 2 != 0) nelements++;` -/
def roundNelements (nelements : Nat) : Nat :=
  if nelements % 2 ≠ 0 then nelements + 1 else nelements

/-- What the two calls of `allocate` answer. -/
structure Arrays (nelements : Nat) where
  elms : Nat
  elms2 : Nat
  elms_pos : 0 < elms
  elms2_pos : 0 < elms2
  elms_le : elms + 8 * (nelements / 2) ≤ 2 ^ 64
  elms2_le : elms2 + 8 * (nelements / 2) ≤ 2 ^ 64
  disjoint : elms + 8 * (nelements / 2) ≤ elms2
    ∨ elms2 + 8 * (nelements / 2) ≤ elms

/-- A number as a 64-bit word. -/
def word (n : Nat) : U64 := Fin.ofNat (2 ^ 64) n

/-- `&elms[j]` -/
def Arrays.addr {n : Nat} (a : Arrays n) (j : Nat) : U64 := word (a.elms + 8 * j)

/-- `&elms2[j]` -/
def Arrays.addr2 {n : Nat} (a : Arrays n) (j : Nat) : U64 := word (a.elms2 + 8 * j)

/-- The payload stored at each address. -/
abbrev Payloads := U64 → U64

-- ============================================================ insertion

/-- The program in the insertion loop. -/
structure Loading where
  payloads : Payloads
  state : State

/-- Two records, then two insertions. -/
def insertTwo (order : Nat) (s : State) (key₁ value₁ key₂ value₂ : U64) :
    Except Fault State := do
  let (rec1, h) ← makeRecord s.heap value₁
  let (rec2, h) ← makeRecord h value₂
  let (root, h) ← insertUnique order h s.root key₁ rec1
  let (root, h) ← insertUnique order h root key₂ rec2
  .ok ⟨root, h⟩

/-- The body of the insertion loop. -/
def scatterBody {nelements : Nat} (a : Arrays nelements) (i : Nat)
    (l : Loading) : Except Fault Loading := do
  let payloads := Function.update l.payloads (a.addr (i / 2)) (word i)
  let payloads := Function.update payloads (a.addr2 (i / 2))
    (word (nelements - i - 1))
  let s ← insertTwo 16 l.state (word i) (a.addr (i / 2))
    (word (nelements - i - 1)) (a.addr2 (i / 2))
  .ok ⟨payloads, s⟩

/-- `for (; i < nelements; i += 2)`, with `k` rounds to go. -/
def scatterFrom {nelements : Nat} (a : Arrays nelements) :
    Nat → Nat → Loading → Except Fault Loading
  | 0, _, l => .ok l
  | k + 1, i, l => do
      let l ← scatterBody a i l
      scatterFrom a k (i + 2) l

/-- The whole insertion, from the empty tree. -/
def scatter {nelements : Nat} (a : Arrays nelements) (payloads : Payloads) :
    Except Fault Loading :=
  scatterFrom a ((nelements + 1) / 2) 0 ⟨payloads, State.empty⟩

-- =============================================================== lookups

/-- `r = find(root, key, false, NULL); if (r) { e = r->value; if (e) … }`:
what the lookup adds to the sum. -/
def Loading.payloadOf (l : Loading) (key : Nat) : Except Fault U64 := do
  let (r, _) ← find l.state.heap l.state.root (word key)
  match r.map l.state.heap.recs with
  | none => .ok 0
  | some (.value e) => .ok (if e = 0 then 0 else l.payloads e)
  | some (.next _) => .error .badCast

/-- A draw of the generator: 31 bits. -/
abbrev Draw := Fin (2 ^ 31)

/-- One round of the lookup loop. -/
def Loading.lookupBody (l : Loading) (nelements : Nat) (sum : U64)
    (rdn : Draw) : Except Fault U64 := do
  let p ← l.payloadOf (rdn.val % nelements)
  let sum := sum + p
  let p ← l.payloadOf (((rdn.val + 1) <<< 2) % nelements)
  .ok (sum + p)

/-- The rounds of one thread. -/
def Loading.lookups (l : Loading) (nelements : Nat) :
    List Draw → U64 → Except Fault U64
  | [], sum => .ok sum
  | rdn :: rdns, sum => do
      let sum ← l.lookupBody nelements sum rdn
      l.lookups nelements rdns sum

/-- `reduction(+:sum)`: each thread starts from zero, and the threads'
sums are added up. -/
def Loading.reduce (l : Loading) (nelements : Nat) :
    List (List Draw) → U64 → Except Fault U64
  | [], sum => .ok sum
  | rdns :: threads, sum => do
      let localSum ← l.lookups nelements rdns 0
      l.reduce nelements threads (sum + localSum)

/-- What the draws should add up to, before wrapping. -/
def expectedSum (nelements : Nat) (rdns : List Draw) : Nat :=
  (rdns.map fun rdn =>
    rdn.val % nelements + (rdn.val + 1) * 4 % nelements).sum

end ThesisBench.Btree

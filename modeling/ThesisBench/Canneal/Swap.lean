/-
The lock-free swaps of `canneal`: `AtomicPtr::Swap` and `Get` of
`sources/canneal/AtomicPtr.h`, as annealer threads run them.

A `present_loc` word holds a location or the marker `ATOMIC_NULL`, under
which it is checked out. One step is one atomic access: an acquiring
load, a compare-and-set, or the store of `Checkin`. A thread between two
calls may start a swap of any two distinct elements, or read any
element; both loop on the marker. Elements are compared by address, so
they come with a linear order.
-/
import ThesisBench.Lib.Machine
import Mathlib.Algebra.BigOperators.Group.Finset.Basic
import Mathlib.Order.Defs.LinearOrder

namespace ThesisBench.Canneal.Swap

variable {T E L : Type} [DecidableEq T] [LinearOrder E] [DecidableEq L]

/-- Where a thread is, with the local variables of the calls it is in. -/
inductive Local (E L : Type)
  | idle
  | get (e : E)
  | checkoutGet (first last : E)
  | checkoutSet (first last : E) (val : L)
  | exchangeGet (first last : E) (valFirst : L)
  | exchangeSet (first last : E) (valFirst val : L)
  | checkin (first : E) (valLast : L)

/-- The words, `none` being `ATOMIC_NULL`, and the threads. -/
structure State (T E L : Type) where
  p : E → Option L
  threads : T → Local E L

def State.goto (s : State T E L) (t : T) (l : Local E L) : State T E L :=
  { s with threads := Function.update s.threads t l }

/-- A compare-and-set or a store on one word, and where the thread goes
on. -/
def State.write (s : State T E L) (t : T) (e : E) (x : Option L)
    (l : Local E L) : State T E L :=
  ⟨Function.update s.p e x, Function.update s.threads t l⟩

/-- `Swap`: elements are processed from lower to higher addresses. -/
def swapStart (a b : E) : Local E L :=
  if a < b then .checkoutGet a b else .checkoutGet b a

/-- The next atomic access of a thread. -/
def step (s : State T E L) (t : T) : Option (State T E L) :=
  match s.threads t with
  | .idle => none
  | .get e =>
      match s.p e with
      | none => some s
      | some _ => some (s.goto t .idle)
  | .checkoutGet first last =>
      match s.p first with
      | none => some s
      | some val => some (s.goto t (.checkoutSet first last val))
  | .checkoutSet first last val =>
      if s.p first = some val
      then some (s.write t first none (.exchangeGet first last val))
      else some (s.goto t (.checkoutGet first last))
  | .exchangeGet first last valFirst =>
      match s.p last with
      | none => some s
      | some val => some (s.goto t (.exchangeSet first last valFirst val))
  | .exchangeSet first last valFirst val =>
      if s.p last = some val
      then some (s.write t last (some valFirst) (.checkin first val))
      else some (s.goto t (.exchangeGet first last valFirst))
  | .checkin first valLast => some (s.write t first (some valLast) .idle)

/-- What a thread does next. -/
inductive Action (E : Type)
  | swap (a b : E)
  | get (e : E)
  | step

/-- A thread's move: `get_random_element` never answers the same element
twice, so a swap is of distinct elements. -/
def next (m : T × Action E) (s : State T E L) : Option (State T E L) :=
  match m.2 with
  | .swap a b =>
      match s.threads m.1 with
      | .idle => if a ≠ b then some (s.goto m.1 (swapStart a b)) else none
      | _ => none
  | .get e =>
      match s.threads m.1 with
      | .idle => some (s.goto m.1 (.get e))
      | _ => none
  | .step => step s m.1

/-- Every element at its initial location, every thread idle. -/
def Init (loc : E → L) (s : State T E L) : Prop :=
  (∀ e, s.p e = some (loc e)) ∧ ∀ t, s.threads t = .idle

/-- The states of any number of threads under every interleaving. -/
def Reachable (loc : E → L) (s : State T E L) : Prop :=
  Machine.Reach next (Init loc) Machine.free s

/-- The thread is in a call of `Swap`. -/
def Local.swapping : Local E L → Bool
  | .idle | .get _ => false
  | _ => true

/-- The location a swap in flight holds. -/
def Local.held : Local E L → Option L
  | .exchangeGet _ _ v | .exchangeSet _ _ v _ | .checkin _ v => some v
  | _ => none

/-- A word or a hand as a multiset of at most one location. -/
def cell : Option L → Multiset L
  | none => 0
  | some v => {v}

/-- The locations in the words and those that swaps in flight hold. -/
def State.locations [Fintype T] [Fintype E] (s : State T E L) : Multiset L :=
  ∑ e, cell (s.p e) + ∑ t, cell (s.threads t).held

/-- The thread, running alone, comes to the end of its call. -/
def FinishesAlone (s : State T E L) (t : T) : Prop :=
  ∃ k s', Machine.run next Machine.free (List.replicate k (t, Action.step)) s
      = some s' ∧ s'.threads t = .idle

end ThesisBench.Canneal.Swap

/-
The annealer threads of `canneal`: `annealer_thread::Run` and
`keep_going` of `sources/canneal/annealer_thread.cpp`, around the barrier
that the constructor makes for `nthreads` parties.

One step of a thread is one access to what the threads share (the flag
`_keep_going_global_flag`, the barrier) or one move of its inner loop.
Whether a move is accepted, and as a good or a bad one, depends on the
costs and on the random numbers; here it is free. The barrier is that of
POSIX: the thread that completes it lets the others go, and they are
woken in any order.
-/
import ThesisBench.Lib.Machine
import Mathlib.Data.Fintype.Card
import Mathlib.Data.Fintype.Basic
import Mathlib.Data.Int.Basic

namespace ThesisBench.Canneal.Annealer

/-- The arguments of the constructor that `Run` reads. -/
structure Config where
  nthreads : Nat
  swapsPerTemp : Int
  numberTempSteps : Int

/-- `_moves_per_thread_temp(swaps_per_temp/nthreads)` -/
def Config.movesPerThreadTemp (c : Config) : Int :=
  c.swapsPerTemp.tdiv c.nthreads

/-- The mode `run until design converges`. -/
def Config.untilConverged (c : Config) : Prop := c.numberTempSteps = -1

instance (c : Config) : Decidable c.untilConverged :=
  inferInstanceAs (Decidable (_ = _))

inductive MoveDecision
  | acceptedGood
  | acceptedBad
  | rejected

/-- Where a thread is in `Run`. -/
inductive Pc
  -- at the test of the loop
  | keepGoing
  -- the test came out false; the flag is still to be cleared
  | clearFlag
  | moves (i : Nat)
  | barrierWait
  -- inside the barrier, entered in that generation of it
  | waiting (generation : Nat)
  | finished
  deriving DecidableEq

structure Thread where
  pc : Pc
  tempStepsCompleted : Nat
  acceptedGoodMoves : Int
  acceptedBadMoves : Int

/-- A thread that starts `Run`. -/
def Thread.start : Thread := ⟨.keepGoing, 0, 0, -1⟩

/-- The threads, the shared flag and the barrier: how many wait in it,
and how often it was completed. -/
structure State (n : Nat) where
  keepGoingGlobalFlag : Bool
  arrived : Nat
  generation : Nat
  threads : Fin n → Thread

def State.set {n : Nat} (s : State n) (t : Fin n) (th : Thread) : State n :=
  { s with threads := Function.update s.threads t th }

/-- The head of the loop's body. -/
def Thread.enter (th : Thread) : Thread :=
  { th with pc := .moves 0, acceptedGoodMoves := 0, acceptedBadMoves := 0 }

/-- The statistics of one move. -/
def Thread.count (th : Thread) : MoveDecision → Thread
  | .acceptedBad => { th with acceptedBadMoves := th.acceptedBadMoves + 1 }
  | .acceptedGood => { th with acceptedGoodMoves := th.acceptedGoodMoves + 1 }
  | .rejected => th

/-- What `keep_going` returns. -/
def keepGoing (c : Config) (flag : Bool) (th : Thread) : Bool :=
  if c.untilConverged
  then flag && decide (th.acceptedGoodMoves > th.acceptedBadMoves)
  else decide ((th.tempStepsCompleted : Int) < c.numberTempSteps)

/-- The next step of a thread; nothing while the barrier holds it, or
when it has returned from `Run`. -/
def next (c : Config) (m : Fin c.nthreads × MoveDecision)
    (s : State c.nthreads) : Option (State c.nthreads) :=
  let t := m.1
  let th := s.threads t
  match th.pc with
  | .keepGoing =>
      if keepGoing c s.keepGoingGlobalFlag th
      then some (s.set t th.enter)
      else if c.untilConverged
      then some (s.set t { th with pc := .clearFlag })
      else some (s.set t { th with pc := .finished })
  | .clearFlag =>
      some { s.set t { th with pc := .finished } with keepGoingGlobalFlag := false }
  | .moves i =>
      if (i : Int) < c.movesPerThreadTemp
      then some (s.set t { th.count m.2 with pc := .moves (i + 1) })
      else some (s.set t { th with
        pc := .barrierWait, tempStepsCompleted := th.tempStepsCompleted + 1 })
  | .barrierWait =>
      if s.arrived + 1 = c.nthreads
      then some { s.set t { th with pc := .keepGoing } with
        arrived := 0, generation := s.generation + 1 }
      else some { s.set t { th with pc := .waiting s.generation } with
        arrived := s.arrived + 1 }
  | .waiting g =>
      if g = s.generation then none else some (s.set t { th with pc := .keepGoing })
  | .finished => none

/-- `main` has made the annealer and all of its threads. -/
def State.start (n : Nat) : State n := ⟨true, 0, 0, fun _ => .start⟩

/-- The states under every interleaving and every sequence of decisions. -/
def Reachable (c : Config) (s : State c.nthreads) : Prop :=
  Machine.Reach (next c) (· = State.start c.nthreads) Machine.free s

/-- The thread is in a round: it waits at the barrier or will come to it. -/
def State.inRound {n : Nat} (s : State n) (t : Fin n) : Prop :=
  match (s.threads t).pc with
  | .moves _ | .barrierWait => True
  | .waiting g => g = s.generation
  | .keepGoing | .clearFlag | .finished => False

/-- The threads stop together. -/
structure InStep (c : Config) (s : State c.nthreads) : Prop where
  /-- No thread has returned while another waits at the barrier or will. -/
  apart : ∀ t u, (s.threads t).pc = .finished → ¬ s.inRound u
  /-- Threads that have returned waited at the barrier equally often. -/
  rounds : ∀ t u, (s.threads t).pc = .finished → (s.threads u).pc = .finished →
    (s.threads t).tempStepsCompleted = (s.threads u).tempStepsCompleted
  /-- Until all have returned, some thread can take a step. -/
  live : (∃ t, (s.threads t).pc ≠ .finished) → ∃ m s', next c m s = some s'

end ThesisBench.Canneal.Annealer

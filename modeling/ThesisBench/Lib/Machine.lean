/-
Machines that move one step at a time, and the states they reach.

A machine answers, for a move and a state, the next state or nothing
when the move is not enabled; which move comes next is free, so several
parties are one machine whose moves name the party. A run may also be
held to a condition on the moves it takes: `Reach next init ok` are the
states reached by moves that each met `ok` in the state they were taken
in. An invariant is proved by one step lemma (`Reach.invariant`), and a
concrete run is a list of moves that is evaluated (`run_reach`).
-/
import Mathlib.Tactic.Common

namespace ThesisBench.Machine

variable {σ μ : Type _}

/-- The states reached from `init` by moves that meet `ok`. -/
inductive Reach (next : μ → σ → Option σ) (init : σ → Prop)
    (ok : μ → σ → Prop) : σ → Prop
  | start {s : σ} : init s → Reach next init ok s
  | step {s s' : σ} (m : μ) : Reach next init ok s → ok m s →
      next m s = some s' → Reach next init ok s'

/-- Any move may be taken. -/
def free : μ → σ → Prop := fun _ _ => True

instance (m : μ) (s : σ) : Decidable (free m s) := inferInstanceAs (Decidable True)

variable {next : μ → σ → Option σ} {init : σ → Prop} {ok : μ → σ → Prop}

/-- Every run under a condition is one under a weaker condition. -/
theorem Reach.mono {ok' : μ → σ → Prop} (h : ∀ m s, ok m s → ok' m s) {s : σ}
    (hr : Reach next init ok s) : Reach next init ok' s := by
  induction hr with
  | start hinit => exact .start hinit
  | step m _ hok hn ih => exact .step m ih (h m _ hok) hn

/-- What holds at the start and is kept by every move holds of every
state reached. -/
theorem Reach.invariant {I : σ → Prop} (hinit : ∀ s, init s → I s)
    (hstep : ∀ m s s', I s → ok m s → next m s = some s' → I s') {s : σ}
    (hr : Reach next init ok s) : I s := by
  induction hr with
  | start h => exact hinit _ h
  | step m _ hok hn ih => exact hstep m _ _ ih hok hn

/-- The state after a list of moves, each of which must be enabled and
meet `ok`. -/
def run (next : μ → σ → Option σ) (ok : μ → σ → Prop)
    [∀ m s, Decidable (ok m s)] : List μ → σ → Option σ
  | [], s => some s
  | m :: ms, s => if ok m s then (next m s).bind (run next ok ms) else none

/-- A list of moves that goes through leads to a reachable state. -/
theorem run_reach [∀ m s, Decidable (ok m s)] (ms : List μ) :
    ∀ {s s' : σ}, Reach next init ok s → run next ok ms s = some s' →
      Reach next init ok s' := by
  induction ms with
  | nil =>
      intro s s' hr h
      cases h
      exact hr
  | cons m ms ih =>
      intro s s' hr h
      rw [run] at h
      by_cases hok : ok m s
      · rw [if_pos hok] at h
        obtain ⟨s₁, hn, hrun⟩ := Option.bind_eq_some_iff.mp h
        exact ih (.step m hr hok hn) hrun
      · rw [if_neg hok] at h
        cases h

/-- A run that ends in a state with a decidable property. -/
theorem exists_reach_of_run [∀ m s, Decidable (ok m s)] {s : σ} (hs : init s)
    (ms : List μ) {p : σ → Bool}
    (h : (run next ok ms s).any p = true) :
    ∃ s', Reach next init ok s' ∧ p s' = true := by
  obtain ⟨s', hrun, hp⟩ := Option.any_eq_true _ _ |>.mp h
  exact ⟨s', run_reach ms (.start hs) hrun, hp⟩

end ThesisBench.Machine

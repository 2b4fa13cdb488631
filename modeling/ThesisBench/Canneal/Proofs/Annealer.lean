/-
When the annealer threads stop together.

What holds in any mode is the arithmetic of the barrier (`Rounds`): its
counter counts the threads that wait in the present generation, and a
thread outside it has completed as many temperature steps as the barrier
has generations. The threads then stop together when in each generation
they all decide alike (`Decides`). With a fixed number of steps they do,
since they compare the same numbers. Until convergence each thread
decides on its own accepted moves and on a flag that another thread
clears only after its own test: for two threads or more, with a move to
make in each step, one thread can pass the test of a generation in which
another fails it, and wait for it forever.
-/
import ThesisBench.Canneal.Annealer

namespace ThesisBench.Canneal.Annealer

variable {c : Config} {s s' : State c.nthreads} {m : Fin c.nthreads × MoveDecision}

-- ============================================================== Steps

@[simp] theorem set_threads_self {n : Nat} (s : State n) (t : Fin n) (th : Thread) :
    (s.set t th).threads t = th := by
  simp [State.set]

/-- A thread's step leaves the other threads alone. -/
theorem set_threads_of_ne {n : Nat} (s : State n) {t u : Fin n} (th : Thread)
    (h : u ≠ t) : (s.set t th).threads u = s.threads u := by
  simp [State.set, h]

@[simp] theorem set_generation {n : Nat} (s : State n) (t : Fin n) (th : Thread) :
    (s.set t th).generation = s.generation := rfl

@[simp] theorem set_arrived {n : Nat} (s : State n) (t : Fin n) (th : Thread) :
    (s.set t th).arrived = s.arrived := rfl

@[simp] theorem set_flag {n : Nat} (s : State n) (t : Fin n) (th : Thread) :
    (s.set t th).keepGoingGlobalFlag = s.keepGoingGlobalFlag := rfl

/-- What a step of a thread can be: outside the barrier, `th'` being the
thread after it, or at the barrier. -/
inductive Moved (c : Config) (s : State c.nthreads) (t : Fin c.nthreads) :
    State c.nthreads → Prop
  | enter : (s.threads t).pc = .keepGoing →
      keepGoing c s.keepGoingGlobalFlag (s.threads t) = true →
      Moved c s t (s.set t (s.threads t).enter)
  | converge : (s.threads t).pc = .keepGoing → c.untilConverged →
      keepGoing c s.keepGoingGlobalFlag (s.threads t) = false →
      Moved c s t (s.set t { s.threads t with pc := .clearFlag })
  | leave : (s.threads t).pc = .keepGoing → ¬ c.untilConverged →
      keepGoing c s.keepGoingGlobalFlag (s.threads t) = false →
      Moved c s t (s.set t { s.threads t with pc := .finished })
  | clear : (s.threads t).pc = .clearFlag →
      Moved c s t { s.set t { s.threads t with pc := .finished } with
        keepGoingGlobalFlag := false }
  | move (i : Nat) (d : MoveDecision) : (s.threads t).pc = .moves i →
      (i : Int) < c.movesPerThreadTemp →
      Moved c s t (s.set t { (s.threads t).count d with pc := .moves (i + 1) })
  | done (i : Nat) : (s.threads t).pc = .moves i →
      Moved c s t (s.set t { s.threads t with
        pc := .barrierWait
        tempStepsCompleted := (s.threads t).tempStepsCompleted + 1 })
  | last : (s.threads t).pc = .barrierWait → s.arrived + 1 = c.nthreads →
      Moved c s t { s.set t { s.threads t with pc := .keepGoing } with
        arrived := 0, generation := s.generation + 1 }
  | arrive : (s.threads t).pc = .barrierWait → s.arrived + 1 ≠ c.nthreads →
      Moved c s t { s.set t { s.threads t with pc := .waiting s.generation } with
        arrived := s.arrived + 1 }
  | wake (g : Nat) : (s.threads t).pc = .waiting g → g ≠ s.generation →
      Moved c s t (s.set t { s.threads t with pc := .keepGoing })

/-- Every step is one of those listed. -/
theorem next_moved (h : next c m s = some s') : Moved c s m.1 s' := by
  unfold next at h
  cases hpc : (s.threads m.1).pc with
  | keepGoing =>
      simp only [hpc] at h
      by_cases hk : keepGoing c s.keepGoingGlobalFlag (s.threads m.1) = true
      · rw [if_pos hk] at h
        cases h
        exact .enter hpc hk
      · rw [if_neg hk] at h
        have hf := Bool.eq_false_iff.mpr hk
        by_cases hc : c.untilConverged
        · rw [if_pos hc] at h
          cases h
          exact .converge hpc hc hf
        · rw [if_neg hc] at h
          cases h
          exact .leave hpc hc hf
  | clearFlag =>
      simp only [hpc] at h
      cases h
      exact .clear hpc
  | moves i =>
      simp only [hpc] at h
      by_cases hi : (i : Int) < c.movesPerThreadTemp
      · rw [if_pos hi] at h
        cases h
        exact .move i m.2 hpc hi
      · rw [if_neg hi] at h
        cases h
        exact .done i hpc
  | barrierWait =>
      simp only [hpc] at h
      by_cases ha : s.arrived + 1 = c.nthreads
      · rw [if_pos ha] at h
        cases h
        exact .last hpc ha
      · rw [if_neg ha] at h
        cases h
        exact .arrive hpc ha
  | waiting g =>
      simp only [hpc] at h
      by_cases hg : g = s.generation
      · rw [if_pos hg] at h
        cases h
      · rw [if_neg hg] at h
        cases h
        exact .wake g hpc hg
  | finished =>
      simp only [hpc] at h
      cases h

-- ========================================================= The barrier

/-- The threads that the barrier holds. -/
def State.held {n : Nat} (s : State n) : Finset (Fin n) :=
  Finset.univ.filter fun t => (s.threads t).pc = .waiting s.generation

/-- How many steps a thread has completed, seen from the barrier. -/
def Thread.inStepWith (generation : Nat) (th : Thread) : Prop :=
  match th.pc with
  | .keepGoing | .clearFlag | .moves _ | .finished => th.tempStepsCompleted = generation
  | .barrierWait => th.tempStepsCompleted = generation + 1
  | .waiting g => th.tempStepsCompleted = g + 1 ∧ (g = generation ∨ g + 1 = generation)

/-- The arithmetic of the barrier. -/
structure Rounds (c : Config) (s : State c.nthreads) : Prop where
  counted : s.held.card = s.arrived
  room : s.arrived < c.nthreads
  steps : ∀ t, (s.threads t).inStepWith s.generation

/-- The threads held wait in the present generation. -/
theorem mem_held {n : Nat} {s : State n} {t : Fin n} :
    t ∈ s.held ↔ (s.threads t).pc = .waiting s.generation := by
  simp [State.held]

/-- A step outside the barrier changes neither who is held nor the
counter. -/
theorem Rounds.set (hr : Rounds c s) {t : Fin c.nthreads} {th : Thread} (flag : Bool)
    (hold : (s.threads t).pc ≠ .waiting s.generation)
    (hnew : th.pc ≠ .waiting s.generation) (hsteps : th.inStepWith s.generation) :
    Rounds c { s.set t th with keepGoingGlobalFlag := flag } := by
  have hheld : ({ s.set t th with keepGoingGlobalFlag := flag } : State _).held = s.held := by
    ext u
    rw [mem_held, mem_held]
    by_cases hu : u = t
    · subst hu
      simpa using iff_of_false hnew hold
    · simp [set_threads_of_ne s th hu]
  refine ⟨by rw [hheld]; exact hr.counted, hr.room, ?_⟩
  intro u
  by_cases hu : u = t
  · subst hu
    simpa using hsteps
  · simpa [set_threads_of_ne s th hu] using hr.steps u

/-- The thread that completes the barrier finds all the others in it. -/
theorem Rounds.others_held (hr : Rounds c s) {t : Fin c.nthreads}
    (ht : (s.threads t).pc = .barrierWait) (hlast : s.arrived + 1 = c.nthreads)
    {u : Fin c.nthreads} (hu : u ≠ t) :
    (s.threads u).pc = .waiting s.generation := by
  have hsub : s.held ⊆ Finset.univ.erase t := by
    intro v hv
    rw [mem_held] at hv
    refine Finset.mem_erase.mpr ⟨?_, Finset.mem_univ v⟩
    rintro rfl
    rw [ht] at hv
    cases hv
  have hcard : (Finset.univ.erase t).card ≤ s.held.card := by
    rw [Finset.card_erase_of_mem (Finset.mem_univ t), Finset.card_univ, Fintype.card_fin,
      hr.counted]
    omega
  have heq := Finset.eq_of_subset_of_card_le hsub hcard
  rw [← mem_held, heq]
  exact Finset.mem_erase.mpr ⟨hu, Finset.mem_univ u⟩

/-- The last thread to arrive opens the barrier for the next generation. -/
theorem Rounds.last (hr : Rounds c s) {t : Fin c.nthreads}
    (ht : (s.threads t).pc = .barrierWait) (hlast : s.arrived + 1 = c.nthreads) :
    Rounds c { s.set t { s.threads t with pc := .keepGoing } with
      arrived := 0, generation := s.generation + 1 } := by
  have hsteps := hr.steps
  refine ⟨?_, by show 0 < c.nthreads; omega, ?_⟩
  · rw [Finset.card_eq_zero, Finset.eq_empty_iff_forall_notMem]
    intro u hu
    rw [mem_held] at hu
    by_cases hut : u = t
    · subst hut
      simp at hu
    · simp [set_threads_of_ne s _ hut, hr.others_held ht hlast hut] at hu
  · intro u
    by_cases hut : u = t
    · subst hut
      have := hsteps u
      simpa [Thread.inStepWith, ht] using this
    · have := hsteps u
      simp only [Thread.inStepWith, hr.others_held ht hlast hut] at this
      simp [Thread.inStepWith, set_threads_of_ne s _ hut, hr.others_held ht hlast hut, this]

/-- A thread that is not the last waits, and is counted. -/
theorem Rounds.arrive (hr : Rounds c s) {t : Fin c.nthreads}
    (ht : (s.threads t).pc = .barrierWait) (hlast : s.arrived + 1 ≠ c.nthreads) :
    Rounds c { s.set t { s.threads t with pc := .waiting s.generation } with
      arrived := s.arrived + 1 } := by
  have hroom := hr.room
  have hnot : t ∉ s.held := by
    rw [mem_held, ht]
    nofun
  have hheld : ({ s.set t { s.threads t with pc := .waiting s.generation } with
      arrived := s.arrived + 1 } : State _).held = insert t s.held := by
    ext u
    rw [Finset.mem_insert, mem_held, mem_held]
    by_cases hut : u = t
    · subst hut
      simp
    · simp [set_threads_of_ne s _ hut, hut]
  refine ⟨?_, by show s.arrived + 1 < c.nthreads; omega, ?_⟩
  · rw [hheld, Finset.card_insert_of_notMem hnot, hr.counted]
  · intro u
    by_cases hut : u = t
    · subst hut
      have := hr.steps u
      simp only [Thread.inStepWith, ht] at this
      simp [Thread.inStepWith, this]
    · simpa [set_threads_of_ne s _ hut] using hr.steps u

/-- Counting a move does not count a temperature step. -/
theorem count_steps (th : Thread) (d : MoveDecision) :
    (th.count d).tempStepsCompleted = th.tempStepsCompleted := by
  cases d <;> rfl

/-- Every step keeps the arithmetic of the barrier. -/
theorem Rounds.step (hr : Rounds c s) {t : Fin c.nthreads} (h : Moved c s t s') :
    Rounds c s' := by
  have hsteps := hr.steps t
  unfold Thread.inStepWith at hsteps
  cases h with
  | enter hpc hk =>
      rw [hpc] at hsteps
      exact hr.set _ (by rw [hpc]; nofun) nofun hsteps
  | converge hpc hc hk =>
      rw [hpc] at hsteps
      exact hr.set _ (by rw [hpc]; nofun) nofun hsteps
  | leave hpc hc hk =>
      rw [hpc] at hsteps
      exact hr.set _ (by rw [hpc]; nofun) nofun hsteps
  | clear hpc =>
      rw [hpc] at hsteps
      exact hr.set _ (by rw [hpc]; nofun) nofun hsteps
  | move i d hpc hi =>
      rw [hpc] at hsteps
      exact hr.set _ (by rw [hpc]; nofun) nofun (by
        show ((s.threads t).count d).tempStepsCompleted = s.generation
        rw [count_steps]
        exact hsteps)
  | done i hpc =>
      rw [hpc] at hsteps
      exact hr.set _ (by rw [hpc]; nofun) nofun (congrArg (· + 1) hsteps)
  | last hpc hlast => exact hr.last hpc hlast
  | arrive hpc hlast => exact hr.arrive hpc hlast
  | wake g hpc hg =>
      rw [hpc] at hsteps
      refine hr.set _ (by rw [hpc]; intro he; cases he; exact hg rfl) nofun ?_
      show (s.threads t).tempStepsCompleted = s.generation
      omega

theorem rounds_start (h : 1 ≤ c.nthreads) : Rounds c (State.start c.nthreads) := by
  refine ⟨?_, h, fun t => rfl⟩
  show (State.start c.nthreads).held.card = 0
  rw [Finset.card_eq_zero, Finset.eq_empty_iff_forall_notMem]
  intro t ht
  rw [mem_held] at ht
  cases ht

/-- The arithmetic of the barrier holds in every reachable state. -/
theorem rounds_of_reachable (h : 1 ≤ c.nthreads) (hs : Reachable c s) : Rounds c s := by
  refine hs.invariant ?_ ?_
  · rintro s rfl
    exact rounds_start h
  · intro m s s' hr _ hn
    exact hr.step (next_moved hn)

-- ===================================================== Apart is enough

/-- A thread that has not returned can take a step unless the barrier
holds it. -/
theorem enabled_of_free {t : Fin c.nthreads} (hfin : (s.threads t).pc ≠ .finished)
    (hheld : (s.threads t).pc ≠ .waiting s.generation) :
    ∃ s', next c (t, .rejected) s = some s' := by
  unfold next
  cases hpc : (s.threads t).pc with
  | keepGoing =>
      simp only [hpc]
      split
      · exact ⟨_, rfl⟩
      · split <;> exact ⟨_, rfl⟩
  | clearFlag =>
      simp only [hpc]
      exact ⟨_, rfl⟩
  | moves i =>
      simp only [hpc]
      split <;> exact ⟨_, rfl⟩
  | barrierWait =>
      simp only [hpc]
      split <;> exact ⟨_, rfl⟩
  | waiting g =>
      have hg : g ≠ s.generation := by
        rintro rfl
        exact hheld hpc
      simp only [hpc, if_neg hg]
      exact ⟨_, rfl⟩
  | finished => exact absurd hpc hfin

/-- The barrier never holds all the threads. -/
theorem Rounds.exists_free (hr : Rounds c s) :
    ∃ t, (s.threads t).pc ≠ .waiting s.generation := by
  by_contra hall
  push Not at hall
  have hheld : s.held = Finset.univ := by
    ext t
    simp [mem_held, hall t]
  have hcard := hr.counted
  have hroom := hr.room
  rw [hheld, Finset.card_univ, Fintype.card_fin] at hcard
  omega

/-- If nobody returns while others are in a round, the threads are in step. -/
theorem inStep_of_apart (hr : Rounds c s)
    (ha : ∀ t u, (s.threads t).pc = .finished → ¬ s.inRound u) : InStep c s := by
  refine ⟨ha, ?_, ?_⟩
  · intro t u ht hu
    have h1 := hr.steps t
    have h2 := hr.steps u
    simp only [Thread.inStepWith, ht] at h1
    simp only [Thread.inStepWith, hu] at h2
    rw [h1, h2]
  · rintro ⟨t, ht⟩
    by_cases hheld : (s.threads t).pc = .waiting s.generation
    · -- it is held: a thread that is not held cannot have returned
      obtain ⟨u, hu⟩ := hr.exists_free
      have hfin : (s.threads u).pc ≠ .finished := by
        intro hfin
        exact ha u t hfin (by simp [State.inRound, hheld])
      obtain ⟨s', hs'⟩ := enabled_of_free hfin hu
      exact ⟨_, s', hs'⟩
    · obtain ⟨s', hs'⟩ := enabled_of_free ht hheld
      exact ⟨_, s', hs'⟩

-- ==================================================== Deciding alike

/-- What a thread's place says about the answer `p` of `keep_going` in
the present generation. -/
def Thread.decided (p : Nat → Prop) (generation : Nat) (th : Thread) : Prop :=
  match th.pc with
  | .keepGoing => True
  | .moves _ | .barrierWait => p generation
  | .waiting g => g = generation → p generation
  | .clearFlag | .finished => ¬ p generation

/-- In each generation the threads decide by `p`. -/
def Decides (p : Nat → Prop) {n : Nat} (s : State n) : Prop :=
  ∀ t, (s.threads t).decided p s.generation

variable {p : Nat → Prop}

/-- A step that leaves the generation alone decides as before. -/
theorem Decides.set {n : Nat} {s : State n} (hd : Decides p s) {t : Fin n} {th : Thread}
    (flag : Bool) (arrived : Nat) (hth : th.decided p s.generation) :
    Decides p { s.set t th with keepGoingGlobalFlag := flag, arrived := arrived } := by
  intro u
  by_cases hu : u = t
  · subst hu
    simpa using hth
  · simpa [set_threads_of_ne s th hu] using hd u

/-- What one step keeps, when a thread at its test decides by `p`. -/
theorem Decides.step (hd : Decides p s) (hr : Rounds c s) {t : Fin c.nthreads}
    (htest : (s.threads t).pc = .keepGoing →
      (keepGoing c s.keepGoingGlobalFlag (s.threads t) = true ↔ p s.generation))
    (h : Moved c s t s') : Decides p s' := by
  have hdt := hd t
  unfold Thread.decided at hdt
  cases h with
  | enter hpc hk => exact hd.set _ _ ((htest hpc).mp hk)
  | converge hpc hc hk =>
      refine hd.set _ _ (fun hp => ?_)
      rw [(htest hpc).mpr hp] at hk
      cases hk
  | leave hpc hc hk =>
      refine hd.set _ _ (fun hp => ?_)
      rw [(htest hpc).mpr hp] at hk
      cases hk
  | clear hpc =>
      rw [hpc] at hdt
      exact hd.set _ _ hdt
  | move i d hpc hi =>
      rw [hpc] at hdt
      exact hd.set _ _ hdt
  | done i hpc =>
      rw [hpc] at hdt
      exact hd.set _ _ hdt
  | last hpc hlast =>
      -- the others wait in the generation that is over
      intro u
      by_cases hut : u = t
      · subst hut
        simp [Thread.decided]
      · simp [Thread.decided, set_threads_of_ne s _ hut, hr.others_held hpc hlast hut]
  | arrive hpc hlast =>
      rw [hpc] at hdt
      exact hd.set _ _ (fun _ => hdt)
  | wake g hpc hg => exact hd.set _ _ trivial

/-- A thread that has returned and one that is in a round would have
decided differently. -/
theorem Decides.apart {n : Nat} {s : State n} (hd : Decides p s) (t u : Fin n)
    (ht : (s.threads t).pc = .finished) : ¬ s.inRound u := by
  intro hu
  have h1 := hd t
  have h2 := hd u
  simp only [Thread.decided, ht] at h1
  unfold State.inRound at hu
  unfold Thread.decided at h2
  cases hpc : (s.threads u).pc with
  | keepGoing => simp only [hpc] at hu
  | clearFlag => simp only [hpc] at hu
  | finished => simp only [hpc] at hu
  | moves i =>
      simp only [hpc] at h2
      exact h1 h2
  | barrierWait =>
      simp only [hpc] at h2
      exact h1 h2
  | waiting g =>
      simp only [hpc] at h2 hu
      exact h1 (h2 hu)

theorem decides_start {n : Nat} : Decides p (State.start n) := fun _ => trivial

-- ================================================ A fixed number of steps

/-- With a fixed number of steps all decide by the number of the
generation. -/
theorem decides_of_fixed (h : 1 ≤ c.nthreads) (hc : ¬ c.untilConverged)
    (hs : Reachable c s) :
    Decides (fun g => (g : Int) < c.numberTempSteps) s := by
  have hboth : Rounds c s ∧ Decides (fun g => (g : Int) < c.numberTempSteps) s := by
    refine Machine.Reach.invariant (I := fun s : State c.nthreads => Rounds c s ∧
      Decides (fun g => (g : Int) < c.numberTempSteps) s) ?_ ?_ hs
    · rintro s rfl
      exact ⟨rounds_start h, decides_start⟩
    · rintro m s s' ⟨hr, hd⟩ _ hn
      have hm := next_moved hn
      refine ⟨hr.step hm, hd.step hr (fun hpc => ?_) hm⟩
      have hsteps := hr.steps m.1
      simp only [Thread.inStepWith, hpc] at hsteps
      simp [keepGoing, if_neg hc, hsteps]
  exact hboth.2

-- ======================================================= Nothing to move

/-- The counts of a thread that never makes a move. -/
def Thread.unmoved (th : Thread) : Prop :=
  match th.pc with
  | .keepGoing => th.acceptedGoodMoves = 0 ∧
      th.acceptedBadMoves = if th.tempStepsCompleted = 0 then -1 else 0
  | .moves _ | .barrierWait => th.acceptedGoodMoves = 0 ∧ th.acceptedBadMoves = 0
  | .waiting _ => th.tempStepsCompleted ≠ 0 ∧
      th.acceptedGoodMoves = 0 ∧ th.acceptedBadMoves = 0
  | .clearFlag | .finished => True

/-- Without moves every thread goes through one generation and stops. -/
structure Unmoved (c : Config) (s : State c.nthreads) : Prop where
  rounds : Rounds c s
  decides : Decides (· < 1) s
  flag : s.keepGoingGlobalFlag = false → 1 ≤ s.generation
  counts : ∀ t, (s.threads t).unmoved

/-- A thread that makes no move leaves the counts of the others. -/
theorem unmoved_set {n : Nat} {s : State n} (hcounts : ∀ t, (s.threads t).unmoved)
    {t : Fin n} {th : Thread} (hth : th.unmoved) (u : Fin n) :
    ((s.set t th).threads u).unmoved := by
  by_cases hu : u = t
  · subst hu
    simpa using hth
  · simpa [set_threads_of_ne s th hu] using hcounts u

/-- Without moves the test is passed in the first generation only. -/
theorem Unmoved.test (hu : Unmoved c s) (hc : c.untilConverged) {t : Fin c.nthreads}
    (hpc : (s.threads t).pc = .keepGoing) :
    keepGoing c s.keepGoingGlobalFlag (s.threads t) = true ↔ s.generation < 1 := by
  have hsteps := hu.rounds.steps t
  have hcounts := hu.counts t
  simp only [Thread.inStepWith, hpc] at hsteps
  simp only [Thread.unmoved, hpc, hsteps] at hcounts
  have hflag := hu.flag
  simp only [keepGoing, if_pos hc, Bool.and_eq_true, decide_eq_true_eq]
  rw [hcounts.1, hcounts.2]
  by_cases hg : s.generation = 0
  · cases hk : s.keepGoingGlobalFlag with
    | true => simp [hg]
    | false =>
        have := hflag hk
        omega
  · simp [hg]

theorem Unmoved.step (hu : Unmoved c s) (hc : c.untilConverged)
    (hmoves : c.movesPerThreadTemp ≤ 0) {t : Fin c.nthreads} (h : Moved c s t s') :
    Unmoved c s' := by
  have hrounds := hu.rounds.step h
  have hdecides := hu.decides.step hu.rounds (hu.test hc) h
  have hflag := hu.flag
  have ht := hu.counts t
  have hst := hu.rounds.steps t
  have hdt := hu.decides t
  unfold Thread.unmoved at ht
  unfold Thread.inStepWith at hst
  unfold Thread.decided at hdt
  cases h with
  | enter hpc hk => exact ⟨hrounds, hdecides, hflag, unmoved_set hu.counts ⟨rfl, rfl⟩⟩
  | converge hpc hk hc =>
      exact ⟨hrounds, hdecides, hflag, unmoved_set hu.counts trivial⟩
  | leave hpc hk hc =>
      exact ⟨hrounds, hdecides, hflag, unmoved_set hu.counts trivial⟩
  | clear hpc =>
      rw [hpc] at hdt
      refine ⟨hrounds, hdecides, fun _ => ?_, unmoved_set hu.counts trivial⟩
      exact Nat.le_of_not_lt hdt
  | move i d hpc hi => omega
  | done i hpc =>
      rw [hpc] at ht
      exact ⟨hrounds, hdecides, hflag, unmoved_set hu.counts ht⟩
  | last hpc hlast =>
      simp only [hpc] at ht hst
      refine ⟨hrounds, hdecides, fun _ => Nat.le_add_left _ _,
        unmoved_set hu.counts ⟨ht.1, ?_⟩⟩
      have hne : (s.threads t).tempStepsCompleted ≠ 0 := by omega
      rw [if_neg hne]
      exact ht.2
  | arrive hpc hlast =>
      simp only [hpc] at ht hst
      refine ⟨hrounds, hdecides, hflag, unmoved_set hu.counts ⟨?_, ht⟩⟩
      show (s.threads t).tempStepsCompleted ≠ 0
      omega
  | wake g hpc hg =>
      simp only [hpc] at ht
      refine ⟨hrounds, hdecides, hflag, unmoved_set hu.counts ⟨ht.2.1, ?_⟩⟩
      rw [if_neg ht.1]
      exact ht.2.2

/-- In every reachable state no move has been counted. -/
theorem unmoved_of_reachable (h : 1 ≤ c.nthreads) (hc : c.untilConverged)
    (hmoves : c.movesPerThreadTemp ≤ 0) (hs : Reachable c s) : Unmoved c s := by
  refine hs.invariant ?_ ?_
  · rintro s rfl
    exact ⟨rounds_start h, decides_start, nofun, fun _ => ⟨rfl, rfl⟩⟩
  · intro m s s' hu _ hn
    exact hu.step hc hmoves (next_moved hn)

-- ==================================================== Threads that part

/-- A step of a thread, as a state reached. -/
theorem Reachable.step (hs : Reachable c s) (t : Fin c.nthreads) (d : MoveDecision)
    (h : next c (t, d) s = some s') : Reachable c s' :=
  Machine.Reach.step (t, d) hs trivial h

/-- The thread after `i` moves of a step, all accepted or all rejected. -/
def movedBy (good : Bool) (th : Thread) (i : Nat) : Thread :=
  ⟨.moves i, th.tempStepsCompleted, if good then i else 0, 0⟩

/-- A thread can make its moves all with one outcome. -/
theorem moves_reachable {t : Fin c.nthreads} {th : Thread} (good : Bool)
    (hs : Reachable c (s.set t (movedBy good th 0))) (i : Nat)
    (hi : (i : Int) ≤ c.movesPerThreadTemp) :
    Reachable c (s.set t (movedBy good th i)) := by
  induction i with
  | zero => exact hs
  | succ i ih =>
      have hlt : (i : Int) < c.movesPerThreadTemp := by omega
      refine (ih (by omega)).step t (if good then .acceptedGood else .rejected) ?_
      cases good <;>
        simp [next, movedBy, State.set, hlt, Thread.count]

/-- A thread that goes on can come to the barrier with any of the two
outcomes, the rest as it was. -/
theorem barrier_reachable (hs : Reachable c s) {t : Fin c.nthreads}
    (hpc : (s.threads t).pc = .keepGoing)
    (hk : keepGoing c s.keepGoingGlobalFlag (s.threads t) = true)
    (hmoves : 0 ≤ c.movesPerThreadTemp) (good : Bool) :
    Reachable c (s.set t ⟨.barrierWait, (s.threads t).tempStepsCompleted + 1,
      if good then c.movesPerThreadTemp else 0, 0⟩) := by
  have henter : Reachable c (s.set t (movedBy good (s.threads t) 0)) := by
    refine hs.step t .rejected ?_
    simp only [next, hpc, if_pos hk]
    cases good <;> rfl
  have hn : ((c.movesPerThreadTemp.toNat : Nat) : Int) = c.movesPerThreadTemp :=
    Int.toNat_of_nonneg hmoves
  have hlast := moves_reachable good henter c.movesPerThreadTemp.toNat hn.le
  refine hlast.step t .rejected ?_
  simp [next, movedBy, State.set, hn]

/-- The first `k` threads have come to the barrier, the first of all
without an accepted move. -/
def gathered (c : Config) (k : Nat) : State c.nthreads where
  keepGoingGlobalFlag := true
  arrived := k
  generation := 0
  threads u :=
    if u.val < k
    then ⟨.waiting 0, 1, if u.val = 0 then 0 else c.movesPerThreadTemp, 0⟩
    else .start

/-- The threads can arrive in their order, all but the last. -/
theorem gathered_reachable (hc : c.untilConverged) (hmoves : 0 ≤ c.movesPerThreadTemp)
    (k : Nat) (hk : k < c.nthreads) : Reachable c (gathered c k) := by
  induction k with
  | zero =>
      refine Machine.Reach.start ?_
      simp [gathered, State.start]
  | succ k ih =>
      have hlt : k < c.nthreads := by omega
      have hfresh : (gathered c k).threads ⟨k, hlt⟩ = .start := by simp [gathered]
      have hgo : keepGoing c (gathered c k).keepGoingGlobalFlag .start = true := by
        simp [keepGoing, if_pos hc, gathered, Thread.start]
      have harrive := barrier_reachable (ih hlt) (t := ⟨k, hlt⟩) (by rw [hfresh]; rfl)
        (by rw [hfresh]; exact hgo) hmoves (decide (k ≠ 0))
      refine harrive.step ⟨k, hlt⟩ .rejected ?_
      have hne : k + 1 ≠ c.nthreads := by omega
      simp only [next, set_threads_self, set_arrived, set_generation, hfresh]
      rw [if_neg (show (gathered c k).arrived + 1 ≠ c.nthreads from hne)]
      refine congrArg some ?_
      simp only [gathered, State.set, Thread.start, State.mk.injEq, true_and]
      funext u
      by_cases hu : u = ⟨k, hlt⟩
      · subst hu
        by_cases hk0 : k = 0 <;> simp [hk0]
      · have hval : u.val ≠ k := fun h => hu (Fin.ext h)
        have hiff : u.val < k + 1 ↔ u.val < k := by omega
        simp only [Function.update_of_ne hu, hiff]

/-- A thread that was let go without a gain clears the flag and returns. -/
theorem stop_reachable (hs : Reachable c s) (hc : c.untilConverged)
    {z : Fin c.nthreads} {g : Nat} (hz : (s.threads z).pc = .waiting g)
    (hg : g ≠ s.generation)
    (hgain : (s.threads z).acceptedGoodMoves ≤ (s.threads z).acceptedBadMoves) :
    Reachable c { s.set z { s.threads z with pc := .finished } with
      keepGoingGlobalFlag := false } := by
  have hwake : Reachable c (s.set z { s.threads z with pc := .keepGoing }) :=
    hs.step z .rejected (by simp only [next, hz, if_neg hg])
  have htest : Reachable c (s.set z { s.threads z with pc := .clearFlag }) := by
    refine hwake.step z .rejected ?_
    have hstop : keepGoing c s.keepGoingGlobalFlag
        { s.threads z with pc := .keepGoing } = false := by
      simp [keepGoing, if_pos hc, hgain]
    simp [next, hstop, hc, State.set]
  refine htest.step z .rejected ?_
  simp [next, State.set]

/-- The last thread completes the barrier, having gained, while the first
has not. -/
theorem completed_reachable (hc : c.untilConverged) (hn : 2 ≤ c.nthreads)
    (hmoves : 0 < c.movesPerThreadTemp) :
    ∃ s t z, Reachable c s ∧ z ≠ t ∧ s.keepGoingGlobalFlag = true ∧ s.generation = 1 ∧
      s.threads t = ⟨.keepGoing, 1, c.movesPerThreadTemp, 0⟩ ∧
      s.threads z = ⟨.waiting 0, 1, 0, 0⟩ := by
  let t : Fin c.nthreads := ⟨c.nthreads - 1, by omega⟩
  let z : Fin c.nthreads := ⟨0, by omega⟩
  let s₀ := gathered c (c.nthreads - 1)
  have hzt : z ≠ t := by
    intro h
    have := congrArg Fin.val h
    simp only [z, t] at this
    omega
  have harr : s₀.arrived + 1 = c.nthreads := by
    show c.nthreads - 1 + 1 = c.nthreads
    omega
  have ht : s₀.threads t = .start := by simp [s₀, gathered, t]
  have hz : s₀.threads z = ⟨.waiting 0, 1, 0, 0⟩ := by
    have : 0 < c.nthreads - 1 := by omega
    simp [s₀, gathered, z, this]
  have hs₀ : Reachable c s₀ := gathered_reachable hc hmoves.le _ (by omega)
  have hgo : keepGoing c s₀.keepGoingGlobalFlag (s₀.threads t) = true := by
    rw [ht]
    simp [s₀, gathered, keepGoing, if_pos hc, Thread.start]
  have hbarrier := barrier_reachable hs₀ (by rw [ht]; rfl) hgo hmoves.le true
  have hlast := hbarrier.step t .rejected (by
    simp only [next, set_threads_self, set_arrived, harr, if_true]
    rfl)
  refine ⟨_, t, z, hlast, hzt, rfl, rfl, ?_, ?_⟩
  · simp [ht, Thread.start]
  · simp [set_threads_of_ne _ _ hzt, hz]

/-- Until convergence, with two threads or more and a move to make, one
thread can return while another waits. -/
theorem parts (hc : c.untilConverged) (hn : 2 ≤ c.nthreads)
    (hmoves : 0 < c.movesPerThreadTemp) :
    ∃ s, Reachable c s ∧ ∃ t u, (s.threads t).pc = .finished ∧ s.inRound u := by
  obtain ⟨s, t, z, hs, hzt, hflag, hgen, ht, hz⟩ := completed_reachable hc hn hmoves
  have hgo : keepGoing c s.keepGoingGlobalFlag (s.threads t) = true := by
    simp [ht, hflag, keepGoing, if_pos hc, hmoves]
  have hagain := barrier_reachable hs (by rw [ht]) hgo hmoves.le true
  have hstop := stop_reachable hagain hc (z := z) (g := 0)
    (by simp [set_threads_of_ne _ _ hzt, hz]) (by simp [hgen])
    (by simp [set_threads_of_ne _ _ hzt, hz])
  refine ⟨_, hstop, z, t, by simp, ?_⟩
  simp [State.inRound, set_threads_of_ne _ _ hzt.symm]

-- ============================================================ The run

/-- The threads stop together in every run exactly when they run a fixed
number of steps, or there is one of them, or no moves to make. -/
theorem inStep_iff (c : Config) (h : 1 ≤ c.nthreads) :
    (∀ s, Reachable c s → InStep c s) ↔
      c.numberTempSteps ≠ -1 ∨ c.nthreads = 1 ∨ c.movesPerThreadTemp ≤ 0 := by
  constructor
  · intro hall
    by_contra hnot
    push Not at hnot
    obtain ⟨s, hs, t, u, ht, hu⟩ := parts hnot.1 (by omega) hnot.2.2
    exact (hall s hs).apart t u ht hu
  · rintro hcond s hs
    refine inStep_of_apart (rounds_of_reachable h hs) ?_
    by_cases hc : c.untilConverged
    · rcases hcond with hfixed | hone | hmoves
      · exact absurd hc hfixed
      · intro t u ht hu
        have htu : u = t := Fin.ext (by omega)
        subst htu
        simp [State.inRound, ht] at hu
      · exact (unmoved_of_reachable h hc hmoves hs).decides.apart
    · exact (decides_of_fixed h hc hs).apart

/-- Four threads that run 128 steps of 15000 swaps each. -/
theorem inStep_iff_four :
    1 ≤ (Config.mk 4 15000 128).nthreads ∧
      ∀ s, Reachable ⟨4, 15000, 128⟩ s → InStep ⟨4, 15000, 128⟩ s :=
  ⟨by decide, (inStep_iff ⟨4, 15000, 128⟩ (by decide)).mpr (Or.inl (by decide))⟩

/-- A schedule that ends well shows a reachable state. -/
theorem reachable_of_run (c : Config) (ms : List (Fin c.nthreads × MoveDecision))
    {p : State c.nthreads → Bool}
    (h : (Machine.run (next c) Machine.free ms (State.start c.nthreads)).any p = true) :
    ∃ s, Reachable c s ∧ p s = true := by
  obtain ⟨s, hrun, hp⟩ := Option.any_eq_true _ _ |>.mp h
  exact ⟨s, Machine.run_reach ms (.start rfl) hrun, hp⟩

/-- A run of two threads: each comes to the barrier, the second once
more, and the first returns. -/
def partingRun : List (Fin 2 × MoveDecision) :=
  List.replicate 4 (0, .rejected) ++ List.replicate 7 (1, .acceptedGood) ++
    List.replicate 3 (0, .rejected)

/-- Two threads of one move a step, the first gaining nothing, the second
something. -/
theorem not_inStep :
    ¬ ∀ (c : Config), 1 ≤ c.nthreads → ∀ s, Reachable c s → InStep c s := by
  intro hall
  let c : Config := ⟨2, 2, -1⟩
  obtain ⟨s, hs, hp⟩ : ∃ s, Reachable c s ∧
      (decide ((s.threads (0 : Fin 2)).pc = .finished) &&
        decide ((s.threads (1 : Fin 2)).pc = .barrierWait)) = true :=
    reachable_of_run c partingRun (by decide +kernel)
  rw [Bool.and_eq_true, decide_eq_true_eq, decide_eq_true_eq] at hp
  refine (hall c (by decide) s hs).apart (0 : Fin 2) (1 : Fin 2) hp.1 ?_
  simp [State.inRound, hp.2]

end ThesisBench.Canneal.Annealer

/-
What the handshake of `bin/launch_benchmark.sh` guarantees over every
interleaving, and what it does not.

All of it rests on one invariant per file. After `rm -f` only the
launcher creates `.flushed` and `.stats_captured`, so their presence
tells how far the launcher has come (`Inv`); `.pid`, once the workload
has closed it, keeps its contents (`PidInv`). The workload's position is
then bounded by what it has seen. What the handshake does not guarantee
is shown by runs, listed move by move and evaluated.
-/
import ThesisBench.Launch.Handshake

namespace ThesisBench.Launch

open Machine

variable {cfg : Config} {w : Workload} {s s' : State}

-- ============================================================= positions

/-- The launcher has not started the workload yet. -/
def ScriptPc.early : ScriptPc → Bool
  | .removeFiles | .prepare | .launch => true
  | _ => false

/-- The launcher is past the reset. -/
def ScriptPc.reset : ScriptPc → Bool
  | .testPid | .readPid | .testProc | .startPerf | .touchFlushed
  | .pollDone | .testDone | .stopPerf | .snapshot | .touchStats
  | .waitScript | .finished => true
  | _ => false

/-- The launcher has started perf. -/
def ScriptPc.attached : ScriptPc → Bool
  | .touchFlushed | .pollDone | .testDone | .stopPerf | .snapshot
  | .touchStats | .waitScript | .finished => true
  | _ => false

/-- The launcher has created `.flushed`. -/
def ScriptPc.released : ScriptPc → Bool
  | .pollDone | .testDone | .stopPerf | .snapshot | .touchStats
  | .waitScript | .finished => true
  | _ => false

/-- The launcher is past the snapshot, or takes none. -/
def ScriptPc.captured : ScriptPc → Bool
  | .waitScript | .finished => true
  | _ => false

/-- The workload is past its wait for `.stats_captured`. -/
def ProcPc.gone : ProcPc → Bool
  | .teardown | .exited => true
  | _ => false

-- ========================================================= the invariant

/-- What both parties know of each other. -/
structure Inv (cfg : Config) (w : Workload) (s : State) : Prop where
  early : s.script.pc.early = true ↔ s.proc.pc = .absent
  clean : s.script.pc = .prepare ∨ s.script.pc = .launch → s.files = Files.none
  reset : s.script.pc.reset = true → cfg.resetFile = true →
    s.script.countersReset = true
  attached : s.script.pc.attached = true → s.script.perf.isSome = true
  signalled : s.script.pc.released = true → s.script.signalled = true
  flushed : s.script.pc.early = false → s.files.flushed = true →
    s.script.pc.released = true
  unlink : s.proc.pc = .unlinkFlushed → s.script.pc.released = true
  measured : s.proc.pc = .measured → s.script.pc.released = true
    ∨ w.wait = .nothing ∨ w.wait = .polls s.proc.polls
  captured : s.script.pc.early = false → s.files.statsCaptured = true →
    s.script.pc.captured = true
  gone : s.proc.pc.gone = true → w.viaMain = true →
    s.script.pc.captured = true ∨ 3000 < s.proc.waited

theorem inv_init (h : Init s) : Inv cfg w s := by
  obtain ⟨hs, hp⟩ := h
  constructor <;> simp [hs, hp, Script.start, Proc.absent, ScriptPc.early,
    ScriptPc.reset, ScriptPc.attached, ScriptPc.released, ProcPc.gone]

/-- Positions a launcher step may lead between. -/
def Advance (a b : ScriptPc) : Prop :=
  (b.early = a.early ∧ b ≠ .prepare ∧ (b = .launch → a = .prepare))
    ∧ (a.released = true → b.released = true)
    ∧ (a.captured = true → b.captured = true)

instance (a b : ScriptPc) : Decidable (Advance a b) :=
  inferInstanceAs (Decidable (_ ∧ _))

/-- A launcher step that leaves the files alone. -/
theorem Inv.advance (hi : Inv cfg w s) {a b : ScriptPc}
    (hpc : s.script.pc = a) {sc : Script} (hb : sc.pc = b)
    (ha : Advance a b)
    (hreset : b.reset = true → cfg.resetFile = true → sc.countersReset = true)
    (hatt : b.attached = true → sc.perf.isSome = true)
    (hsig : b.released = true → sc.signalled = true) :
    Inv cfg w { s with script := sc } := by
  subst hpc hb
  obtain ⟨⟨hearly, hprep, hlaunch⟩, hrel, hcap⟩ := ha
  exact
    { early := by
        show sc.pc.early = true ↔ _
        rw [hearly]
        exact hi.early
      clean := by
        rintro (hp | hl)
        · exact absurd hp hprep
        · exact hi.clean (Or.inl (hlaunch hl))
      reset := hreset
      attached := hatt
      signalled := hsig
      flushed := fun h hf => hrel (hi.flushed (hearly ▸ h) hf)
      unlink := fun h => hrel (hi.unlink h)
      measured := fun h => (hi.measured h).imp_left hrel
      captured := fun h hf => hcap (hi.captured (hearly ▸ h) hf)
      gone := fun h hv => (hi.gone h hv).imp_left hcap }

/-- A launcher step that only moves on. -/
theorem Inv.goto (hi : Inv cfg w s) {a b : ScriptPc} (hpc : s.script.pc = a)
    (ha : Advance a b) (hreset : b.reset = true → a.reset = true)
    (hatt : b.attached = true → a.attached = true)
    (hrel : b.released = true → a.released = true) :
    Inv cfg w (s.goto b) :=
  hi.advance hpc rfl ha
    (fun h => hi.reset (hpc ▸ hreset h))
    (fun h => hi.attached (hpc ▸ hatt h))
    (fun h => hi.signalled (hpc ▸ hrel h))

/-- `touch "$BENCH_FLUSHED"` -/
theorem Inv.touchFlushed (hi : Inv cfg w s)
    (hrel : s.script.pc.released = true) :
    Inv cfg w { s with files := { s.files with flushed := true } } where
  early := hi.early
  clean := by
    rintro (h | h) <;> (rw [h] at hrel; cases hrel)
  reset := hi.reset
  attached := hi.attached
  signalled := hi.signalled
  flushed := fun _ _ => hrel
  unlink := hi.unlink
  measured := hi.measured
  captured := hi.captured
  gone := hi.gone

/-- `touch "$BENCH_STATS_CAPTURED"` -/
theorem Inv.touchStats (hi : Inv cfg w s)
    (hcap : s.script.pc.captured = true) :
    Inv cfg w { s with files := { s.files with statsCaptured := true } } where
  early := hi.early
  clean := by
    rintro (h | h) <;> (rw [h] at hcap; cases hcap)
  reset := hi.reset
  attached := hi.attached
  signalled := hi.signalled
  flushed := hi.flushed
  unlink := hi.unlink
  measured := hi.measured
  captured := fun _ _ => hcap
  gone := hi.gone

/-- Every step of the launcher keeps it. -/
theorem scriptNext_inv (hi : Inv cfg w s) (h : scriptNext cfg s = some s') :
    Inv cfg w s' := by
  have hmove : ∀ {a b : ScriptPc}, s.script.pc = a → Advance a b →
      (b.reset = true → a.reset = true) →
      (b.attached = true → a.attached = true) →
      (b.released = true → a.released = true) → Inv cfg w (s.goto b) :=
    fun hpc => hi.goto hpc
  unfold scriptNext at h
  cases hpc : s.script.pc with
  | removeFiles =>
      have habs : s.proc.pc = .absent := hi.early.mp (by rw [hpc]; rfl)
      simp only [hpc, Option.some.injEq] at h
      subst h
      constructor <;> simp [State.goto, ScriptPc.early, ScriptPc.reset,
        ScriptPc.attached, ScriptPc.released, ProcPc.gone, habs]
  | launch =>
      have hfiles := hi.clean (Or.inr hpc)
      simp only [hpc, Option.some.injEq] at h
      subst h
      constructor <;> simp [State.goto, ScriptPc.early, ScriptPc.reset,
        ScriptPc.attached, ScriptPc.released, ProcPc.gone, hfiles, Files.none]
  | resetCounters =>
      simp only [hpc, Option.some.injEq] at h
      subst h
      exact hi.advance (b := .testPid) hpc rfl (by decide) (fun _ h => h)
        (by intro h; cases h) (by intro h; cases h)
  | readPid =>
      simp only [hpc, Option.some.injEq] at h
      subst h
      exact hi.advance (b := .testProc) hpc rfl (by decide)
        (fun _ => hi.reset (by rw [hpc]; rfl))
        (by intro h; cases h) (by intro h; cases h)
  | startPerf =>
      simp only [hpc, Option.some.injEq] at h
      subst h
      exact hi.advance (b := .touchFlushed) hpc rfl (by decide)
        (fun _ => hi.reset (by rw [hpc]; rfl)) (fun _ => rfl)
        (by intro h; cases h)
  | touchFlushed =>
      simp only [hpc, Option.some.injEq] at h
      subst h
      have hi' : Inv cfg w { s with script :=
          { s.script with pc := .pollDone, signalled := true } } :=
        hi.advance (b := .pollDone) hpc rfl (by decide)
          (fun _ => hi.reset (by rw [hpc]; rfl))
          (fun _ => hi.attached (by rw [hpc]; rfl)) (fun _ => rfl)
      exact hi'.touchFlushed rfl
  | touchStats =>
      simp only [hpc, Option.some.injEq] at h
      subst h
      have hi' : Inv cfg w (s.goto .waitScript) :=
        hmove hpc (by decide) (by decide) (by decide) (by decide)
      exact hi'.touchStats rfl
  | finished => simp [hpc] at h
  | noPidFile => simp [hpc] at h
  | failed => simp [hpc] at h
  | _ =>
      -- what is left tests something and moves on, or stays
      simp only [hpc] at h
      first
        | (cases h
           exact hmove hpc (by decide) (by decide) (by decide)
             (by decide))
        | (split at h
           all_goals first
             | (cases h
                exact hmove hpc (by decide) (by decide)
                  (by decide) (by decide))
             | (split at h <;> cases h <;> first
                  | exact hi
                  | exact hmove hpc (by decide) (by decide)
                      (by decide) (by decide))
             | cases h)

/-- A step of the workload: it creates neither `.flushed` nor
`.stats_captured`. -/
theorem Inv.work (hi : Inv cfg w s) {a b : ProcPc} (hpc : s.proc.pc = a)
    {f : Files} {p : Proc} (hb : p.pc = b) (hne : a ≠ .absent ∧ b ≠ .absent)
    (hf : f.flushed = true → s.files.flushed = true)
    (hc : f.statsCaptured = s.files.statsCaptured)
    (hu : b = .unlinkFlushed → s.script.pc.released = true)
    (hm : b = .measured → s.script.pc.released = true
      ∨ w.wait = .nothing ∨ w.wait = .polls p.polls)
    (hg : b.gone = true → w.viaMain = true →
      s.script.pc.captured = true ∨ 3000 < p.waited) :
    Inv cfg w { s with files := f, proc := p } := by
  subst hpc hb
  have hlate : s.script.pc.early = false :=
    Bool.eq_false_iff.mpr fun he => hne.1 (hi.early.mp he)
  exact
    { early := ⟨fun h => absurd (hi.early.mp h) hne.1, fun h => absurd h hne.2⟩
      clean := by
        intro h
        rcases (h : s.script.pc = .prepare ∨ s.script.pc = .launch) with h | h
        · rw [h] at hlate
          cases hlate
        · rw [h] at hlate
          cases hlate
      reset := hi.reset
      attached := hi.attached
      signalled := hi.signalled
      flushed := fun h hfl => hi.flushed h (hf hfl)
      unlink := hu
      measured := hm
      captured := fun h hcap => hi.captured h (hc ▸ hcap)
      gone := hg }

/-- Where the program order of a workload can lead. -/
theorem Workload.afters (w : Workload) :
    (w.afterMain = .mainDone ∨ w.afterMain = .teardown ∧ w.viaMain = false)
      ∧ (w.afterMeasured = .mainDone ∨ w.afterMeasured = .ownDone)
      ∧ (w.afterPid = .pollFlushed
        ∨ w.afterPid = .measured ∧ w.wait = .nothing) := by
  cases w <;> decide

/-- Every step of the workload keeps it. -/
theorem procNext_inv (hi : Inv cfg w s) {alt : Bool}
    (h : procNext cfg w alt s = some s') : Inv cfg w s' := by
  obtain ⟨hmain, hmeas, hpid⟩ := w.afters
  have hstart : ∀ {a} {f : Files}, s.proc.pc = a → a ≠ .absent →
      (f.flushed = s.files.flushed ∧ f.statsCaptured = s.files.statsCaptured) →
      Inv cfg w { s.procGoto w.afterMain with files := f } := by
    intro a f hpc ha hf
    rcases hmain with hb | ⟨hb, hv⟩
    · exact hi.work hpc hb ⟨ha, nofun⟩ (hf.1 ▸ id) hf.2 nofun nofun nofun
    · refine hi.work hpc hb ⟨ha, nofun⟩ (hf.1 ▸ id) hf.2 nofun nofun fun _ h => ?_
      rw [hv] at h
      cases h
  have hwait : ∀ {a} {f : Files} {p : Proc}, s.proc.pc = a → a ≠ .absent →
      (f.flushed = s.files.flushed ∧ f.statsCaptured = s.files.statsCaptured) →
      p.pc = w.afterPid → Inv cfg w { s with files := f, proc := p } := by
    intro a f p hpc ha hf hp
    rcases hpid with hb | ⟨hb, hw⟩
    · exact hi.work hpc (hp.trans hb) ⟨ha, nofun⟩ (hf.1 ▸ id) hf.2 nofun nofun
        nofun
    · exact hi.work hpc (hp.trans hb) ⟨ha, nofun⟩ (hf.1 ▸ id) hf.2 nofun
        (fun _ => Or.inr (Or.inl hw)) nofun
  unfold procNext at h
  cases hpc : s.proc.pc with
  | setup =>
      simp only [hpc] at h
      split at h
      · cases h
        exact hstart hpc nofun ⟨rfl, rfl⟩
      · cases h
        exact hi.work (b := .openPid) hpc rfl ⟨nofun, nofun⟩ id rfl nofun nofun
          nofun
  | openPid =>
      simp only [hpc] at h
      split at h
      · cases h
        exact hwait hpc nofun ⟨rfl, rfl⟩ rfl
      · cases h
        exact hi.work (b := .fillPid) hpc rfl ⟨nofun, nofun⟩ id rfl nofun nofun
          nofun
  | fillPid =>
      simp only [hpc] at h
      cases h
      exact hi.work (b := .closePid) hpc rfl ⟨nofun, nofun⟩ id rfl nofun nofun
        nofun
  | closePid =>
      simp only [hpc] at h
      cases h
      exact hwait hpc nofun ⟨rfl, rfl⟩ rfl
  | pollFlushed =>
      have hlate : s.script.pc.early = false :=
        Bool.eq_false_iff.mpr fun he => by
          have habs := hi.early.mp he
          rw [hpc] at habs
          cases habs
      simp only [hpc] at h
      split at h
      next hfl =>
        cases h
        exact hi.work (b := .unlinkFlushed) hpc rfl ⟨nofun, nofun⟩ id rfl
          (fun _ => hi.flushed hlate hfl) nofun nofun
      · cases h
        by_cases hw : w.wait = .polls (s.proc.polls + 1)
        · rw [if_pos hw]
          exact hi.work (b := .measured) hpc rfl ⟨nofun, nofun⟩ id rfl nofun
            (fun _ => Or.inr (Or.inr hw)) nofun
        · rw [if_neg hw]
          exact hi.work (b := .pollFlushed) hpc rfl ⟨nofun, nofun⟩ id rfl nofun
            nofun nofun
  | unlinkFlushed =>
      have hrel := hi.unlink hpc
      simp only [hpc] at h
      cases h
      exact hi.work (b := .measured) hpc rfl ⟨nofun, nofun⟩ nofun rfl nofun
        (fun _ => Or.inl hrel) nofun
  | measured =>
      simp only [hpc] at h
      split at h
      · cases h
        rcases hmeas with hb | hb
        · exact hi.work hpc hb ⟨nofun, nofun⟩ id rfl nofun nofun nofun
        · exact hi.work hpc hb ⟨nofun, nofun⟩ id rfl nofun nofun nofun
      · cases h
        exact hi
  | ownDone =>
      simp only [hpc] at h
      cases h
      exact hstart hpc nofun ⟨rfl, rfl⟩
  | mainDone =>
      simp only [hpc] at h
      cases h
      exact hi.work (b := .pollStats) hpc rfl ⟨nofun, nofun⟩ id rfl nofun nofun
        nofun
  | pollStats =>
      have hlate : s.script.pc.early = false :=
        Bool.eq_false_iff.mpr fun he => by
          have habs := hi.early.mp he
          rw [hpc] at habs
          cases habs
      simp only [hpc] at h
      split at h
      next hst =>
        cases h
        exact hi.work (b := .teardown) hpc rfl ⟨nofun, nofun⟩ id rfl nofun nofun
          fun _ _ => Or.inl (hi.captured hlate hst)
      · cases h
        by_cases hw : 3000 < s.proc.waited + 1
        · rw [if_pos hw]
          exact hi.work (b := .teardown) hpc rfl ⟨nofun, nofun⟩ id rfl nofun
            nofun fun _ _ => Or.inr hw
        · rw [if_neg hw]
          exact hi.work (b := .pollStats) hpc rfl ⟨nofun, nofun⟩ id rfl nofun
            nofun nofun
  | teardown =>
      simp only [hpc] at h
      cases h
      exact hi.work (b := .exited) hpc rfl ⟨nofun, nofun⟩ id rfl nofun nofun
        fun _ => hi.gone (by rw [hpc]; rfl)
  | absent => simp [hpc] at h
  | exited => simp [hpc] at h
  | died => simp [hpc] at h

theorem next_inv (hi : Inv cfg w s) {m : Move}
    (h : next cfg w m s = some s') : Inv cfg w s' := by
  cases m with
  | script => exact scriptNext_inv hi h
  | proc alt => exact procNext_inv hi h
  | die =>
      simp only [next] at h
      split at h
      next halive =>
        cases h
        have hne : s.proc.pc ≠ .absent := by
          intro habs
          simp [State.alive, habs] at halive
        exact hi.work (b := .died) rfl rfl ⟨hne, nofun⟩ id rfl nofun nofun nofun
      · cases h

theorem Reachable.inv (hr : Reachable cfg w s) : Inv cfg w s :=
  Reach.invariant (fun _ => inv_init) (fun _ _ _ hi _ h => next_inv hi h) hr

-- ===================================================== before the signal

/-- The launcher's positions come in order. -/
theorem ScriptPc.released_imp {pc : ScriptPc} (h : pc.released = true) :
    pc.reset = true ∧ pc.attached = true := by
  cases pc <;> first | exact ⟨rfl, rfl⟩ | cases h

/-- A launcher that has created `.flushed` has done all that comes before. -/
theorem Inv.released (hi : Inv cfg w s) (h : s.script.pc.released = true) :
    Signalled cfg s where
  reset := hi.reset (ScriptPc.released_imp h).1
  started := hi.attached (ScriptPc.released_imp h).2
  signalled := hi.signalled h

/-- A workload that waits measures nothing before the signal, unless it
is one that polls 600 times and every poll has failed. -/
theorem Inv.signalled_or_waited (hi : Inv cfg w s) (hw : w ≠ .gups) :
    ReleasedOrWaited (Signalled cfg) w s := by
  intro hm
  rcases hi.measured hm with hrel | hno | hpolls
  · exact Or.inl (hi.released hrel)
  · cases w <;> first | exact absurd rfl hw | cases hno
  · cases w <;> first
      | cases hpolls
      | exact Or.inr ⟨rfl, (Wait.polls.inj hpolls).symm⟩

/-- No file, no workload, the launcher at the top of its loop. -/
def freshState : State := ⟨Files.none, Script.start, Proc.absent⟩

/-- A schedule that ends well shows a reachable state. -/
theorem reachable_of_run (cfg : Config) (w : Workload) (ms : List Move)
    (p : State → Bool) (h : (run (next cfg w) free ms freshState).any p = true) :
    ∃ s, Reachable cfg w s ∧ p s = true :=
  exists_reach_of_run ⟨rfl, rfl⟩ ms h

/-- The workload is started and gets as far as closing `.pid`. -/
def signalsReady : List Move :=
  List.replicate 3 .script ++ List.replicate 4 (.proc false)

/-- The launcher goes from seeing `.ready` through creating `.flushed`. -/
def releases : List Move := List.replicate 8 .script

-- ======================================================== at the snapshot

/-- A workload that returns to `main-mt.c` is whole when the launcher
takes the snapshot, unless its wait for `.stats_captured` has run out. -/
theorem whole_at_snapshot (cfg : Config) (w : Workload) (hw : w.viaMain = true)
    (s : State) (hr : Reachable cfg w s) (hs : s.script.pc = .snapshot) :
    s.tornDown = false ∨ 3000 < s.proc.waited := by
  cases ht : s.tornDown with
  | false => exact Or.inl rfl
  | true =>
      have hgone : s.proc.pc.gone = true := by
        simp only [State.tornDown, Bool.or_eq_true, decide_eq_true_eq] at ht
        rcases ht with h | h
        · rw [h]
          rfl
        · rw [h]
          rfl
      rcases hr.inv.gone hgone hw with hcap | hlong
      · rw [hs] at hcap
        cases hcap
      · exact Or.inr hlong

/-- The workload sees `.flushed`, measures and creates `.done`. -/
def measures : List Move :=
  [.proc false, .proc false, .proc true, .proc false]

/-- The launcher sees `.done` and goes on to the snapshot. -/
def toSnapshot : List Move := List.replicate 3 .script

/-- A run of hashjoin up to its snapshot. -/
theorem whole_at_snapshot_hashjoin :
    ∃ s, Reachable ⟨7, true⟩ .hashjoin s ∧ s.script.pc = .snapshot
      ∧ (s.tornDown = false ∨ 3000 < s.proc.waited) := by
  obtain ⟨s, hr, hp⟩ := reachable_of_run ⟨7, true⟩ .hashjoin
    (signalsReady ++ releases ++ measures ++ toSnapshot)
    (fun s => decide (s.script.pc = .snapshot)) (by decide +kernel)
  have hpc := of_decide_eq_true hp
  exact ⟨s, hr, hpc, whole_at_snapshot ⟨7, true⟩ .hashjoin rfl s hr hpc⟩

/-- A run that has the launcher at the snapshot and the workload torn
down. -/
theorem not_whole_of_run (cfg : Config) (w : Workload) (ms : List Move)
    (h : (run (next cfg w) free ms freshState).any
      (fun s => decide (s.script.pc = .snapshot ∧ s.tornDown = true)) = true) :
    ¬ WholeAtSnapshot cfg w := by
  obtain ⟨s, hr, hp⟩ := reachable_of_run cfg w ms _ h
  have hpc := of_decide_eq_true hp
  intro hwhole
  have hs := hwhole s hr hpc.1
  rw [hpc.2] at hs
  cases hs

/-- The GAPBS kernels return and `canneal` calls `_exit` right after
`.done`; `btree` does after its wait has run out. -/
theorem not_wholeAtSnapshot :
    ¬ WholeAtSnapshot ⟨7, true⟩ .bfs ∧ ¬ WholeAtSnapshot ⟨7, true⟩ .canneal
      ∧ ¬ WholeAtSnapshot ⟨7, true⟩ .btree := by
  refine ⟨?_, ?_, ?_⟩
  · exact not_whole_of_run _ _
      (signalsReady ++ releases ++ measures ++ toSnapshot) (by decide +kernel)
  · exact not_whole_of_run _ _
      (signalsReady ++ releases ++ measures ++ toSnapshot) (by decide +kernel)
  · exact not_whole_of_run _ _
      (signalsReady ++ releases ++ measures
        ++ List.replicate 3002 (.proc false) ++ toSnapshot) (by decide +kernel)

-- ============================================================ the pid file

/-- The workload has not closed `.pid` yet. -/
def ProcPc.beforePid : ProcPc → Bool
  | .absent | .setup | .openPid | .fillPid | .closePid => true
  | _ => false

/-- The launcher has come to `.pid`. -/
def ScriptPc.pastReset : ScriptPc → Bool
  | .removeFiles | .prepare | .launch | .pollReady | .dropCaches
  | .resetCounters | .failed => false
  | _ => true

/-- What holds of `.pid` in a run where the launcher comes to it late
enough. -/
structure PidInv (cfg : Config) (s : State) : Prop where
  before : s.proc.pc.beforePid = true → s.proc.pidClosed = false
  filled : s.proc.pc = .closePid → s.proc.buffer = toString cfg.pid
  opened : s.proc.pc = .fillPid ∨ s.proc.pc = .closePid →
    s.files.pid.isSome = true
  closed : s.proc.pidClosed = true → s.files.pid = some (toString cfg.pid)
  saw : s.script.pc.pastReset = true → s.proc.pidClosed = true
  noAbort : s.script.pc ≠ .noPidFile
  bench : s.script.pc = .testProc ∨ s.script.pc = .startPerf →
    s.script.benchPid = toString cfg.pid
  perf : ∀ text ∈ s.script.perf, text = toString cfg.pid

theorem pidInv_init (h : Init s) : PidInv cfg s := by
  obtain ⟨hs, hp⟩ := h
  constructor <;> simp [hs, hp, Script.start, Proc.absent, ScriptPc.pastReset]

/-- A launcher step once the workload runs: the files it creates are
others. -/
theorem PidInv.advance (hp : PidInv cfg s) {f : Files} {sc : Script}
    (hf : f.pid = s.files.pid)
    (hsaw : sc.pc.pastReset = true → s.proc.pidClosed = true)
    (hno : sc.pc ≠ .noPidFile)
    (hbench : sc.pc = .testProc ∨ sc.pc = .startPerf →
      sc.benchPid = toString cfg.pid)
    (hperf : ∀ text ∈ sc.perf, text = toString cfg.pid) :
    PidInv cfg { s with files := f, script := sc } where
  before := hp.before
  filled := hp.filled
  opened := fun h => hf ▸ hp.opened h
  closed := fun h => hf.trans (hp.closed h)
  saw := hsaw
  noAbort := hno
  bench := hbench
  perf := hperf

/-- A workload step that leaves `.pid` alone. -/
theorem PidInv.work (hp : PidInv cfg s) {f : Files} {p : Proc}
    (hf : f.pid = s.files.pid) (hc : p.pidClosed = s.proc.pidClosed)
    (hbefore : p.pc.beforePid = true → s.proc.pc.beforePid = true)
    (hpc : p.pc ≠ .fillPid ∧ p.pc ≠ .closePid) :
    PidInv cfg { s with files := f, proc := p } where
  before := fun h => hc.trans (hp.before (hbefore h))
  filled := fun h => absurd h hpc.2
  opened := by
    rintro (h | h)
    · exact absurd h hpc.1
    · exact absurd h hpc.2
  closed := fun h => hf.trans (hp.closed (hc ▸ h))
  saw := fun h => hc.trans (hp.saw h)
  noAbort := hp.noAbort
  bench := hp.bench
  perf := hp.perf

/-- The launcher's steps keep it, if it comes to `.pid` late enough. -/
theorem scriptNext_pidInv (hi : Inv cfg w s) (hp : PidInv cfg s)
    (hok : PidBeforeTest .script s) (h : scriptNext cfg s = some s') :
    PidInv cfg s' := by
  have hmove : ∀ {b : ScriptPc}, (b.pastReset = true → s.proc.pidClosed = true) →
      b ≠ .noPidFile ∧ b ≠ .testProc ∧ (b = .startPerf → s.script.pc = .testProc) →
      PidInv cfg (s.goto b) := by
    intro b hsaw hb
    refine hp.advance rfl hsaw hb.1 ?_ hp.perf
    rintro (h | h)
    · exact absurd h hb.2.1
    · exact hp.bench (Or.inl (hb.2.2 h))
  unfold scriptNext at h
  cases hpc : s.script.pc with
  | removeFiles =>
      have habs : s.proc.pc = .absent := hi.early.mp (by rw [hpc]; rfl)
      have hopen : s.proc.pidClosed = false := hp.before (by rw [habs]; rfl)
      simp only [hpc, Option.some.injEq] at h
      subst h
      exact
        { before := hp.before
          filled := hp.filled
          opened := by simp [State.goto, habs]
          closed := by simp [State.goto, hopen]
          saw := nofun
          noAbort := nofun
          bench := by simp [State.goto]
          perf := hp.perf }
  | launch =>
      have habs : s.proc.pc = .absent := hi.early.mp (by rw [hpc]; rfl)
      have hopen : s.proc.pidClosed = false := hp.before (by rw [habs]; rfl)
      simp only [hpc, Option.some.injEq] at h
      subst h
      exact
        { before := fun _ => hopen
          filled := nofun
          opened := by simp
          closed := by simp [hopen]
          saw := nofun
          noAbort := nofun
          bench := by simp [State.goto]
          perf := hp.perf }
  | prepare =>
      simp only [hpc, Option.some.injEq] at h
      subst h
      exact hmove nofun ⟨nofun, nofun, nofun⟩
  | pollReady =>
      simp only [hpc] at h
      split at h
      · cases h
        exact hmove nofun ⟨nofun, nofun, nofun⟩
      · split at h
        · cases h
          exact hp
        · cases h
          exact hmove nofun ⟨nofun, nofun, nofun⟩
  | dropCaches =>
      simp only [hpc, Option.some.injEq] at h
      subst h
      exact hmove nofun ⟨nofun, nofun, nofun⟩
  | resetCounters =>
      simp only [hpc, Option.some.injEq] at h
      subst h
      exact hp.advance rfl (fun _ => hok rfl hpc) nofun (by simp) hp.perf
  | testPid =>
      have hsaw : s.proc.pidClosed = true := hp.saw (by rw [hpc]; rfl)
      have hfile := hp.closed hsaw
      simp only [hpc, hfile, Option.isSome_some, if_true, Option.some.injEq] at h
      subst h
      exact hmove (fun _ => hsaw) ⟨nofun, nofun, nofun⟩
  | readPid =>
      have hsaw : s.proc.pidClosed = true := hp.saw (by rw [hpc]; rfl)
      have hfile := hp.closed hsaw
      simp only [hpc, hfile, Option.getD_some, Option.some.injEq] at h
      subst h
      exact hp.advance rfl (fun _ => hsaw) nofun (fun _ => rfl) hp.perf
  | testProc =>
      have hsaw : s.proc.pidClosed = true := hp.saw (by rw [hpc]; rfl)
      simp only [hpc] at h
      split at h
      · cases h
        exact hmove (fun _ => hsaw) ⟨nofun, nofun, fun _ => hpc⟩
      · cases h
        exact hmove nofun ⟨nofun, nofun, nofun⟩
  | startPerf =>
      have hsaw : s.proc.pidClosed = true := hp.saw (by rw [hpc]; rfl)
      simp only [hpc, Option.some.injEq] at h
      subst h
      refine hp.advance rfl (fun _ => hsaw) nofun (by simp) ?_
      intro text ht
      rw [← Option.some.inj ht]
      exact hp.bench (Or.inr hpc)
  | finished => simp [hpc] at h
  | noPidFile => simp [hpc] at h
  | failed => simp [hpc] at h
  | _ =>
      -- the rest leaves `.pid` and what was read of it alone
      have hsaw : s.proc.pidClosed = true := hp.saw (by rw [hpc]; rfl)
      have hthen : ∀ {b : ScriptPc}, b ≠ .noPidFile ∧ b ≠ .testProc
          ∧ b ≠ .startPerf → PidInv cfg (s.goto b) := fun hb =>
        hmove (fun _ => hsaw) ⟨hb.1, hb.2.1, fun h => absurd h hb.2.2⟩
      simp only [hpc] at h
      repeat' split at h
      all_goals first
        | cases h; done
        | (cases h; exact hp)
        | (cases h; exact hthen ⟨nofun, nofun, nofun⟩)
        | (cases h
           exact hp.advance rfl (fun _ => hsaw) nofun (by simp [State.goto]) hp.perf)

theorem procNext_pidInv (hp : PidInv cfg s) {alt : Bool}
    (h : procNext cfg w alt s = some s') : PidInv cfg s' := by
  have hmain : w.afterMain.beforePid = false := by cases w <;> rfl
  have hmeas : w.afterMeasured.beforePid = false := by cases w <;> rfl
  have hpid : w.afterPid.beforePid = false := by cases w <;> rfl
  have hpast : ∀ {b : ProcPc} {f : Files} {p : Proc}, p.pc = b →
      b.beforePid = false → f.pid = s.files.pid →
      p.pidClosed = s.proc.pidClosed →
      PidInv cfg { s with files := f, proc := p } := by
    intro b f p hb hbefore hf hc
    subst hb
    refine hp.work hf hc (fun h => ?_) ⟨?_, ?_⟩
    · rw [hbefore] at h
      cases h
    · intro h
      rw [h] at hbefore
      cases hbefore
    · intro h
      rw [h] at hbefore
      cases hbefore
  unfold procNext at h
  cases hpc : s.proc.pc with
  | setup =>
      simp only [hpc] at h
      split at h
      · cases h
        exact hpast rfl hmain rfl rfl
      · cases h
        exact hp.work rfl rfl (fun _ => by rw [hpc]; rfl) ⟨nofun, nofun⟩
  | openPid =>
      have hopen : s.proc.pidClosed = false := hp.before (by rw [hpc]; rfl)
      simp only [hpc] at h
      split at h
      · cases h
        exact hpast rfl hpid rfl rfl
      · cases h
        exact
          { before := fun _ => hopen
            filled := nofun
            opened := fun _ => rfl
            closed := by simp [State.procGoto, hopen]
            saw := hp.saw
            noAbort := hp.noAbort
            bench := hp.bench
            perf := hp.perf }
  | fillPid =>
      have hopen : s.proc.pidClosed = false := hp.before (by rw [hpc]; rfl)
      simp only [hpc] at h
      cases h
      exact
        { before := fun _ => hopen
          filled := fun _ => rfl
          opened := fun _ => hp.opened (Or.inl hpc)
          closed := hp.closed
          saw := hp.saw
          noAbort := hp.noAbort
          bench := hp.bench
          perf := hp.perf }
  | closePid =>
      obtain ⟨text, htext⟩ := Option.isSome_iff_exists.mp (hp.opened (Or.inr hpc))
      simp only [hpc, htext, Option.map_some, hp.filled hpc] at h
      cases h
      exact
        { before := by
            intro h
            rw [hpid] at h
            cases h
          filled := fun _ => rfl
          opened := fun _ => rfl
          closed := fun _ => rfl
          saw := fun _ => rfl
          noAbort := hp.noAbort
          bench := hp.bench
          perf := hp.perf }
  | pollFlushed =>
      simp only [hpc] at h
      split at h
      · cases h
        exact hpast (b := .unlinkFlushed) rfl rfl rfl rfl
      · cases h
        split
        · exact hpast (b := .measured) rfl rfl rfl rfl
        · exact hpast (b := .pollFlushed) rfl rfl rfl rfl
  | unlinkFlushed =>
      simp only [hpc] at h
      cases h
      exact hpast (b := .measured) rfl rfl rfl rfl
  | measured =>
      simp only [hpc] at h
      split at h
      · cases h
        exact hpast rfl hmeas rfl rfl
      · cases h
        exact hp
  | ownDone =>
      simp only [hpc] at h
      cases h
      exact hpast rfl hmain rfl rfl
  | mainDone =>
      simp only [hpc] at h
      cases h
      exact hpast (b := .pollStats) rfl rfl rfl rfl
  | pollStats =>
      simp only [hpc] at h
      split at h
      · cases h
        exact hpast (b := .teardown) rfl rfl rfl rfl
      · cases h
        split
        · exact hpast (b := .teardown) rfl rfl rfl rfl
        · exact hpast (b := .pollStats) rfl rfl rfl rfl
  | teardown =>
      simp only [hpc] at h
      cases h
      exact hpast (b := .exited) rfl rfl rfl rfl
  | absent => simp [hpc] at h
  | exited => simp [hpc] at h
  | died => simp [hpc] at h

theorem next_pidInv (hi : Inv cfg w s) (hp : PidInv cfg s) {m : Move}
    (hok : PidBeforeTest m s) (h : next cfg w m s = some s') :
    PidInv cfg s' := by
  cases m with
  | script => exact scriptNext_pidInv hi hp hok h
  | proc alt => exact procNext_pidInv hp h
  | die =>
      simp only [next] at h
      split at h
      · cases h
        exact hp.work rfl rfl nofun ⟨nofun, nofun⟩
      · cases h

/-- Both invariants, in a run where the launcher comes to `.pid` late
enough. -/
theorem inv_of_closed (hr : Reach (next cfg w) Init PidBeforeTest s) :
    Inv cfg w s ∧ PidInv cfg s := by
  refine Reach.invariant (I := fun s => Inv cfg w s ∧ PidInv cfg s)
    (fun s hs => ⟨inv_init hs, pidInv_init hs⟩) ?_ hr
  intro m s s' hI hok hn
  exact ⟨next_inv hI.1 hn, next_pidInv hI.1 hI.2 hok hn⟩

/-- In every run in which the workload has closed `.pid` when the launcher
comes to it, the launcher finds the file complete. -/
theorem pidComplete_of_closed (cfg : Config) (w : Workload) (s : State)
    (hr : Reach (next cfg w) Init PidBeforeTest s) : PidComplete cfg s := by
  obtain ⟨-, hpid⟩ := inv_of_closed hr
  refine ⟨?_, hpid.noAbort, hpid.perf⟩
  rintro (h | h)
  · exact hpid.closed (hpid.saw (by rw [h]; rfl))
  · exact hpid.closed (hpid.saw (by rw [h]; rfl))

instance (m : Move) (s : State) : Decidable (PidBeforeTest m s) :=
  inferInstanceAs (Decidable (_ → _ → _))

/-- The launcher sees `.ready` before there is a `.pid`, and comes to
`.pid` when it is closed. -/
theorem pidComplete_of_closed_bfs :
    ∃ s, Reach (next ⟨7, true⟩ .bfs) Init PidBeforeTest s
      ∧ s.script.pc = .readPid ∧ PidComplete ⟨7, true⟩ s := by
  obtain ⟨s, hr, hp⟩ : ∃ s, Reach (next ⟨7, true⟩ .bfs) Init PidBeforeTest s
      ∧ decide (s.script.pc = .readPid) = true :=
    exists_reach_of_run (s := freshState) ⟨rfl, rfl⟩
      (List.replicate 3 .script ++ [.proc false, .script, .script]
        ++ List.replicate 3 (.proc false) ++ [.script, .script]) (by decide +kernel)
  exact ⟨s, hr, of_decide_eq_true hp, pidComplete_of_closed ⟨7, true⟩ .bfs s hr⟩

instance (m : Move) (s : State) : Decidable (Normal m s) :=
  inferInstanceAs (Decidable (_ → _))

/-- The launcher overtakes the workload: between `.ready` and `fopen` of
`.pid` it stops the benchmark, and between `fopen` and `fclose` it
attaches perf to nothing. -/
theorem not_pidComplete :
    (∃ s, Reach (next ⟨7, true⟩ .hashjoin) Init Normal s
        ∧ s.script.pc = .noPidFile ∧ ¬ PidComplete ⟨7, true⟩ s)
      ∧ ∃ s, Reach (next ⟨7, true⟩ .bfs) Init Normal s
        ∧ s.script.perf = some "" ∧ ¬ PidComplete ⟨7, true⟩ s := by
  constructor
  · obtain ⟨s, hr, hp⟩ : ∃ s, Reach (next ⟨7, true⟩ .hashjoin) Init Normal s
        ∧ decide (s.script.pc = .noPidFile) = true :=
      exists_reach_of_run (s := freshState) ⟨rfl, rfl⟩
        (List.replicate 3 .script ++ [.proc false] ++ List.replicate 4 .script)
        (by decide +kernel)
    have hpc := of_decide_eq_true hp
    exact ⟨s, hr, hpc, fun h => h.noAbort hpc⟩
  · obtain ⟨s, hr, hp⟩ : ∃ s, Reach (next ⟨7, true⟩ .bfs) Init Normal s
        ∧ decide (s.script.perf = some "") = true :=
      exists_reach_of_run (s := freshState) ⟨rfl, rfl⟩
        (List.replicate 3 .script ++ [.proc false, .proc false]
          ++ List.replicate 7 .script)
        (by decide +kernel)
    have hpc := of_decide_eq_true hp
    refine ⟨s, hr, hpc, fun h => ?_⟩
    exact absurd (h.perf "" hpc) (by decide +kernel)

-- =================================================== before the release

/-- A workload that waits measures nothing before the launcher has reset
the counters, started perf and created `.flushed`, unless it is one that
polls 600 times and every poll has failed; and where the workload has
closed `.pid` when the launcher comes to it, it is the workload that perf
is attached to. -/
theorem released_of_measured (cfg : Config) (w : Workload) (hw : w ≠ .gups) (s : State) :
    (Reachable cfg w s → ReleasedOrWaited (Signalled cfg) w s)
      ∧ (Reach (next cfg w) Init PidBeforeTest s → ReleasedOrWaited (Released cfg) w s) := by
  refine ⟨fun hr => hr.inv.signalled_or_waited hw, fun hr hm => ?_⟩
  obtain ⟨hinv, hpid⟩ := inv_of_closed hr
  refine (hinv.signalled_or_waited hw hm).imp_left fun hsig => ⟨hsig, ?_⟩
  obtain ⟨text, htext⟩ := Option.isSome_iff_exists.mp hsig.started
  rw [htext, hpid.perf text htext]

/-- A run of bfs up to its measured region. -/
theorem released_of_measured_bfs :
    ∃ s, s.proc.pc = .measured
      ∧ (Signalled ⟨7, true⟩ s ∨ Workload.bfs.wait = .polls 600 ∧ s.proc.polls = 600)
      ∧ (Released ⟨7, true⟩ s ∨ Workload.bfs.wait = .polls 600 ∧ s.proc.polls = 600) := by
  obtain ⟨s, hr, hp⟩ : ∃ s, Reach (next ⟨7, true⟩ .bfs) Init PidBeforeTest s
      ∧ decide (s.proc.pc = .measured) = true :=
    exists_reach_of_run (s := freshState) ⟨rfl, rfl⟩
      (signalsReady ++ releases ++ [.proc false, .proc false]) (by decide +kernel)
  have hpc := of_decide_eq_true hp
  have hfree : Reachable ⟨7, true⟩ .bfs s := hr.mono fun _ _ _ => trivial
  obtain ⟨hsignalled, hreleased⟩ := released_of_measured ⟨7, true⟩ .bfs (by decide) s
  exact ⟨s, hpc, hsignalled hfree hpc, hreleased hr hpc⟩

/-- `btree` measures after 600 polls, `gups` without any. -/
theorem not_measuresReleased :
    ¬ MeasuresReleased ⟨7, true⟩ .btree ∧ ¬ MeasuresReleased ⟨7, true⟩ .gups := by
  constructor
  · obtain ⟨s, hr, hp⟩ := reachable_of_run ⟨7, true⟩ .btree
      (signalsReady ++ List.replicate 600 (.proc false))
      (fun s => decide (s.proc.pc = .measured ∧ s.script.signalled = false))
      (by decide +kernel)
    have hpc := of_decide_eq_true hp
    intro h
    have hsig := (h s hr hpc.1).signalled
    rw [hpc.2] at hsig
    cases hsig
  · obtain ⟨s, hr, hp⟩ := reachable_of_run ⟨7, true⟩ .gups signalsReady
      (fun s => decide (s.proc.pc = .measured ∧ s.script.signalled = false))
      (by decide +kernel)
    have hpc := of_decide_eq_true hp
    intro h
    have hsig := (h s hr hpc.1).signalled
    rw [hpc.2] at hsig
    cases hsig

end ThesisBench.Launch

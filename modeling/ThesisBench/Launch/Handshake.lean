/-
One iteration of `bin/launch_benchmark.sh` and the workload it starts,
as two parties that meet in five files under `/tmp`.

# The files

`alloctest-bench.{ready,pid,flushed,done,stats_captured}`. Only `.pid`
has contents that anyone reads. `fopen(…, "w")` creates a file empty,
`fprintf` fills the stream's buffer, and `fclose` writes the buffer out:
three steps, between which the other party may look.

# The launcher

A step is one command of the loop body that the other party could tell
apart. The launcher also asks whether the workload is alive
(`kill -0 $SCRIPT_PID`, `wait $SCRIPT_PID`). `perf stat -p … &` is
attached, once it is started, to the process whose id it was given. The
kernel may or may not offer a `reset` file; the script goes on either
way.

# The workloads

Each workload has its own copy of the handshake. They differ in how
they wait for `.flushed` (for ever, 600 polls, not at all), in whether
they write `.done` themselves, and in whether they then return to
`main-mt.c`, which writes `.done` once more and polls for
`.stats_captured`. A process may die at any moment (a signal, or an
`exit` after a failed `fopen`); that is not its teardown.
-/
import ThesisBench.Lib.Machine

namespace ThesisBench.Launch

-- ============================================================ the files

/-- The five files; `pid` carries its contents. -/
structure Files where
  ready : Bool
  pid : Option String
  flushed : Bool
  done : Bool
  statsCaptured : Bool
  deriving DecidableEq, Repr

/-- After `rm -f`. -/
def Files.none : Files := ⟨false, Option.none, false, false, false⟩

-- ======================================================== the workloads

/-- The programs started through `launch_benchmark.sh`. -/
inductive Workload
  | bfs | pr | prSpmv | cc | ccSv | bc
  | btree | hashjoin | canneal | xsbench | gups
  deriving DecidableEq, Repr

/-- How a workload waits for `.flushed`. -/
inductive Wait
  | forever
  | polls (n : Nat)
  | nothing
  deriving DecidableEq, Repr

/-- `while (1)`, `for (int i = 0; i < 600; i++)  // 30s timeout`, and in
`gups` only `usleep(250)`. -/
def Workload.wait : Workload → Wait
  | .bfs | .pr | .prSpmv | .cc | .ccSv | .bc => .forever
  | .btree | .hashjoin | .canneal | .xsbench => .polls 600
  | .gups => .nothing

/-- The workload writes `.done` before its own code ends. -/
def Workload.ownsDone : Workload → Bool
  | .xsbench | .gups => false
  | _ => true

/-- The workload's code returns to `main` of `main-mt.c`. `canneal` is
linked with it but leaves through `_exit`; the GAPBS kernels have a
`main` of their own. -/
def Workload.viaMain : Workload → Bool
  | .btree | .hashjoin | .xsbench | .gups => true
  | _ => false

/-- Where a workload is. -/
inductive ProcPc
  | absent | setup | openPid | fillPid | closePid
  | pollFlushed | unlinkFlushed | measured
  | ownDone | mainDone | pollStats | teardown
  | exited | died
  deriving DecidableEq, Repr

/-- A workload process. `polls` counts the failed tests for `.flushed`,
`waited` is the variable of that name in `main-mt.c`. -/
structure Proc where
  pc : ProcPc
  buffer : String
  pidClosed : Bool
  polls : Nat
  waited : Nat
  deriving DecidableEq, Repr

def Proc.absent : Proc := ⟨.absent, "", false, 0, 0⟩

-- ========================================================= the launcher

/-- Where the launcher is. -/
inductive ScriptPc
  | removeFiles | prepare | launch | pollReady | dropCaches
  | resetCounters | testPid | readPid | testProc | startPerf | touchFlushed
  | pollDone | testDone | stopPerf | snapshot | touchStats | waitScript
  | finished | noPidFile | failed
  deriving DecidableEq, Repr

/-- The launcher: its variable `BENCH_PID`, and what it has done so far
outside the files. -/
structure Script where
  pc : ScriptPc
  benchPid : String
  countersReset : Bool
  perf : Option String
  signalled : Bool
  deriving DecidableEq, Repr

/-- The top of the loop body. -/
def Script.start : Script := ⟨.removeFiles, "", false, none, false⟩

structure State where
  files : Files
  script : Script
  proc : Proc
  deriving DecidableEq, Repr

/-- The process id the workload gets, and whether the kernel offers
`/proc/wasp/reset` or `/proc/hydra/reset`. -/
structure Config where
  pid : Nat
  resetFile : Bool

/-- `kill -0 $SCRIPT_PID` -/
def State.alive (s : State) : Bool :=
  s.proc.pc ≠ .absent && s.proc.pc ≠ .exited && s.proc.pc ≠ .died

/-- `-d "/proc/$BENCH_PID"`: the workload's own entry, or `/proc/` itself
when the variable is empty. -/
def State.procDir (cfg : Config) (s : State) : Bool :=
  s.script.benchPid = "" || (s.script.benchPid = toString cfg.pid && s.alive)

def State.goto (s : State) (pc : ScriptPc) : State :=
  { s with script := { s.script with pc := pc } }

/-- The launcher's next step. A failed poll leaves it where it is. -/
def scriptNext (cfg : Config) (s : State) : Option State :=
  match s.script.pc with
  | .removeFiles => some { s.goto .prepare with files := Files.none }
  | .prepare => some (s.goto .launch)
  | .launch =>
      some { s.goto .pollReady with proc := { s.proc with pc := .setup } }
  | .pollReady =>
      if s.files.ready then some (s.goto .dropCaches)
      else if s.alive then some s
      else some (s.goto .failed)
  | .dropCaches => some (s.goto .resetCounters)
  | .resetCounters =>
      some { s with script :=
        { s.script with pc := .testPid, countersReset := cfg.resetFile } }
  | .testPid =>
      if s.files.pid.isSome then some (s.goto .readPid)
      else some (s.goto .noPidFile)
  | .readPid =>
      some { s with script :=
        { s.script with pc := .testProc, benchPid := s.files.pid.getD "" } }
  | .testProc =>
      if s.procDir cfg then some (s.goto .startPerf) else some (s.goto .failed)
  | .startPerf =>
      some { s with script :=
        { s.script with pc := .touchFlushed, perf := some s.script.benchPid } }
  | .touchFlushed =>
      some { s with
        files := { s.files with flushed := true }
        script := { s.script with pc := .pollDone, signalled := true } }
  | .pollDone =>
      if s.files.done then some (s.goto .testDone)
      else if s.alive then some s
      else some (s.goto .testDone)
  | .testDone =>
      if s.files.done then some (s.goto .stopPerf) else some (s.goto .waitScript)
  | .stopPerf => some (s.goto .snapshot)
  | .snapshot => some (s.goto .touchStats)
  | .touchStats =>
      some { s.goto .waitScript with
        files := { s.files with statsCaptured := true } }
  | .waitScript => if s.alive then none else some (s.goto .finished)
  | .finished | .noPidFile | .failed => none

-- ===================================================== the workload's steps

def State.procGoto (s : State) (pc : ProcPc) : State :=
  { s with proc := { s.proc with pc := pc } }

/-- What follows the `.pid` block. -/
def Workload.afterPid (w : Workload) : ProcPc :=
  match w.wait with
  | .nothing => .measured
  | _ => .pollFlushed

/-- What follows the measured region. -/
def Workload.afterMeasured (w : Workload) : ProcPc :=
  if w.ownsDone then .ownDone else .mainDone

/-- What follows the workload's own code. -/
def Workload.afterMain (w : Workload) : ProcPc :=
  if w.viaMain then .mainDone else .teardown

/-- The workload's next step. `alt` is the other outcome where there are
two: setup gives up, `fopen` of `.pid` fails, the measured region
ends. -/
def procNext (cfg : Config) (w : Workload) (alt : Bool) (s : State) :
    Option State :=
  match s.proc.pc with
  | .setup =>
      if alt then some (s.procGoto w.afterMain)
      else some { s.procGoto .openPid with
        files := { s.files with ready := true } }
  | .openPid =>
      if alt then some (s.procGoto w.afterPid)
      else some { s.procGoto .fillPid with
        files := { s.files with pid := some "" } }
  | .fillPid =>
      some { s with proc :=
        { s.proc with pc := .closePid, buffer := toString cfg.pid } }
  | .closePid =>
      some { s with
        files := { s.files with pid := s.files.pid.map fun _ => s.proc.buffer }
        proc := { s.proc with pc := w.afterPid, pidClosed := true } }
  | .pollFlushed =>
      if s.files.flushed then some (s.procGoto .unlinkFlushed)
      else some { s with proc :=
        { s.proc with
          polls := s.proc.polls + 1
          pc := if w.wait = .polls (s.proc.polls + 1) then .measured
                else .pollFlushed } }
  | .unlinkFlushed =>
      some { s.procGoto .measured with
        files := { s.files with flushed := false } }
  | .measured =>
      if alt then some (s.procGoto w.afterMeasured) else some s
  | .ownDone =>
      some { s.procGoto w.afterMain with
        files := { s.files with done := true } }
  | .mainDone =>
      some { s.procGoto .pollStats with
        files := { s.files with done := true } }
  | .pollStats =>
      if s.files.statsCaptured then some (s.procGoto .teardown)
      else some { s with proc :=
        { s.proc with
          waited := s.proc.waited + 1
          pc := if 3000 < s.proc.waited + 1 then .teardown else .pollStats } }
  | .teardown => some (s.procGoto .exited)
  | .absent | .exited | .died => none

-- =========================================================== both parties

/-- Who moves. -/
inductive Move
  | script
  | proc (alt : Bool)
  | die
  deriving DecidableEq, Repr

def next (cfg : Config) (w : Workload) (m : Move) (s : State) : Option State :=
  match m with
  | .script => scriptNext cfg s
  | .proc alt => procNext cfg w alt s
  | .die => if s.alive then some (s.procGoto .died) else none

/-- The start of an iteration: whatever files an earlier one left, no
workload. -/
def Init (s : State) : Prop := s.script = Script.start ∧ s.proc = Proc.absent

/-- The states of one iteration, under every interleaving. -/
def Reachable (cfg : Config) (w : Workload) (s : State) : Prop :=
  Machine.Reach (next cfg w) Init Machine.free s

-- ========================================================= the properties

/-- The launcher has reset the counters (where the kernel has a reset
file), started perf with what it read of `.pid`, and created
`.flushed`. -/
structure Signalled (cfg : Config) (s : State) : Prop where
  reset : cfg.resetFile = true → s.script.countersReset = true
  started : s.script.perf.isSome = true
  signalled : s.script.signalled = true

/-- And it is the workload that perf is attached to. -/
structure Released (cfg : Config) (s : State) : Prop extends Signalled cfg s where
  attached : s.script.perf = some (toString cfg.pid)

/-- No step of the measured region comes before the release. -/
def MeasuresReleased (cfg : Config) (w : Workload) : Prop :=
  ∀ s, Reachable cfg w s → s.proc.pc = .measured → Released cfg s

/-- The workload has begun to go away. -/
def State.tornDown (s : State) : Bool :=
  s.proc.pc = .teardown || s.proc.pc = .exited

/-- When the launcher takes the snapshot, the workload is still whole. -/
def WholeAtSnapshot (cfg : Config) (w : Workload) : Prop :=
  ∀ s, Reachable cfg w s → s.script.pc = .snapshot → s.tornDown = false

/-- The launcher finds a complete `.pid` where it looks for one: it never
stops for want of the file, reads nothing but the whole process id, and
attaches perf to nothing else. -/
structure PidComplete (cfg : Config) (s : State) : Prop where
  found : s.script.pc = .testPid ∨ s.script.pc = .readPid →
    s.files.pid = some (toString cfg.pid)
  noAbort : s.script.pc ≠ .noPidFile
  perf : ∀ text ∈ s.script.perf, text = toString cfg.pid

/-- A run in which the workload creates both files normally. -/
def Normal (m : Move) (s : State) : Prop :=
  (s.proc.pc = .setup ∨ s.proc.pc = .openPid) → m ≠ .proc true

/-- By the time the launcher has reset the counters and comes to `.pid`,
the workload has closed it. -/
def PidBeforeTest (m : Move) (s : State) : Prop :=
  m = .script → s.script.pc = .resetCounters → s.proc.pidClosed = true

/-- The workload measures nothing before the release, or before a wait of
600 polls has run out. -/
def ReleasedOrWaited (released : State → Prop) (w : Workload) (s : State) : Prop :=
  s.proc.pc = .measured → released s ∨ w.wait = .polls 600 ∧ s.proc.polls = 600

end ThesisBench.Launch

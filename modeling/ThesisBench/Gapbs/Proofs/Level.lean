/-
What one level of `PBFS` does, whatever the order of the threads' steps.
Nothing here is about distances.

A thread is known by the vertices it carries to the queue and by the
edges it has still to count; a step of it is one of five kinds (`Move`).
All threads together keep books (`Books`): what is in the queue and
carried are the vertices found in this level, each once; what was
counted and is still to be counted are the edges from the window; and
the counts and the bitmap are those of the edges counted so far. An edge
is counted after its end was found, so its end's depth is final then.
-/
import Mathlib.Algebra.BigOperators.Group.List.Basic
import ThesisBench.Gapbs.Proofs.Simple

namespace ThesisBench.Gapbs.Brandes

open Parallel

variable {g : CSRGraph Nat} {m m₀ m' : Memory} {u v p : Nat}

-- =============================================================== values

def Memory.dep (m : Memory) (v : Nat) : Int := m.depths.getD v 0

def Memory.cnt (m : Memory) (v : Nat) : ℚ := m.pathCounts.getD v 0

def Memory.bit (m : Memory) (p : Nat) : Bool := m.succ.getD p false

theorem getElem?_getD {α : Type} {l : List α} {i : Nat} (h : i < l.length) (d : α) :
    l[i]? = some (l.getD i d) := by
  rw [List.getD_eq_getElem?_getD, List.getElem?_eq_getElem h, Option.getD_some]

theorem Memory.get_dep (h : v < m.depths.length) : m.depths[v]? = some (m.dep v) :=
  getElem?_getD h 0

theorem dep_of_get {x : Int} (h : m.depths[v]? = some x) : m.dep v = x := by
  rw [Memory.dep, List.getD_eq_getElem?_getD, h, Option.getD_some]

-- ============================================================== threads

/-- An edge with its offset. -/
structure Arc where
  u : Nat
  p : Nat
  v : Nat

def arcsAt (u : Nat) (refs : List (Nat × Nat)) : List Arc := refs.map fun r => ⟨u, r.1, r.2⟩

def arcs (g : CSRGraph Nat) (u : Nat) : List Arc := arcsAt u (outRefs g u)

/-- The edges of a vertex with their offsets. -/
theorem mem_arcs {e : Arc} : e ∈ arcs g u ↔ e.u = u ∧ (e.p, e.v) ∈ outRefs g u := by
  obtain ⟨u', p, v⟩ := e
  simp only [arcs, arcsAt, List.mem_map, Arc.mk.injEq]
  constructor
  · rintro ⟨⟨p', v'⟩, hmem, rfl, rfl, rfl⟩
    exact ⟨rfl, hmem⟩
  · rintro ⟨rfl, hmem⟩
    exact ⟨(p, v), hmem, rfl, rfl, rfl⟩

theorem mem_outs_of_ref (h : (p, v) ∈ outRefs g u) : v ∈ g.outs u := by
  rw [← map_outRefs]
  exact List.mem_map.mpr ⟨(p, v), h, rfl⟩

def At.pushing : At → List Nat
  | .push _ _ v _ => [v]
  | _ => []

/-- The edges to count before the next vertex is taken. -/
def At.arcs : At → List Arc
  | .edges u refs => arcsAt u refs
  | .swap u p v refs | .push u p v refs | .count u p v refs => ⟨u, p, v⟩ :: arcsAt u refs
  | .next | .done => []

/-- What the thread will push. -/
def Thread.carried (l : Thread) : List Nat := l.buffer ++ l.pc.pushing

/-- What the thread will count. -/
def Thread.arcs (g : CSRGraph Nat) (l : Thread) : List Arc :=
  l.pc.arcs ++ l.todo.flatMap (Brandes.arcs g)

/-- What a thread knows where it stands. -/
def Settled (m : Memory) (l : Thread) : Prop :=
  match l.pc with
  | .push _ _ v _ | .count _ _ v _ => m.dep v ≠ -1
  | .done => l.todo = [] ∧ l.buffer = []
  | _ => True

/-- What a thread knows stays true while vertices are found. -/
theorem Settled.mono {l : Thread} (h : Settled m l)
    (hdep : ∀ v, m.dep v ≠ -1 → m'.dep v ≠ -1) : Settled m' l := by
  unfold Settled at *
  split at h
  case h_1 => exact hdep _ h
  case h_2 => exact hdep _ h
  case h_3 => exact h
  case h_4 => exact h

def At.weight : At → Nat
  | .next => 1
  | .edges _ refs => 2 + 8 * refs.length
  | .swap _ _ _ refs => 9 + 8 * refs.length
  | .push _ _ _ refs => 8 + 8 * refs.length
  | .count _ _ _ refs => 6 + 8 * refs.length
  | .done => 0

/-- A bound on the thread's steps. A full buffer costs one more. -/
def Thread.weight (g : CSRGraph Nat) (l : Thread) : Nat :=
  l.pc.weight + (l.todo.map fun u => 2 + 8 * (outRefs g u).length).sum
    + if l.buffer.length = SlidingQueue.localSize then 1 else 0

-- ================================================================ moves

def Memory.pushAll (m : Memory) (b : List Nat) : Memory :=
  { m with queue := { m.queue with shared := m.queue.shared ++ b } }

def Memory.find (m : Memory) (v : Nat) : Memory :=
  { m with depths := m.depths.set v m.depth }

def Memory.counted (m : Memory) (e : Arc) : Memory :=
  { m with succ := m.succ.set e.p true, pathCounts := m.pathCounts.set e.v (m.cnt e.v + m.cnt e.u) }

/-- What a step can do. -/
inductive Move (g : CSRGraph Nat) (m : Memory) (l l' : Thread) : Memory → Prop
  | quiet : l'.carried = l.carried → l'.arcs g = l.arcs g → Settled m l' → Move g m l l' m
  | flush (b : List Nat) : l.carried = b ++ l'.carried → l'.arcs g = l.arcs g → Settled m l' →
      Move g m l l' (m.pushAll b)
  | find (e : Arc) : m.dep e.v = -1 → e ∈ l.arcs g → l'.carried = l.carried ++ [e.v] →
      l'.arcs g = l.arcs g → Settled (m.find e.v) l' → Move g m l l' (m.find e.v)
  | count (e : Arc) : m.dep e.v = m.depth → l'.carried = l.carried → l.arcs g = e :: l'.arcs g →
      Settled m l' → Move g m l l' (m.counted e)
  | skip (e : Arc) : m.dep e.v ≠ m.depth → m.dep e.v ≠ -1 → l'.carried = l.carried →
      l.arcs g = e :: l'.arcs g → Settled m l' → Move g m l l' m

theorem dep_find (hv : v < m.depths.length) (w : Nat) :
    (m.find v).dep w = if w = v then m.depth else m.dep w :=
  Slots.getD_set hv _ 0 w

/-- Counting an edge whose place is in the arrays. -/
theorem countPaths_eq {e : Arc} (hu : e.u < m.pathCounts.length) (hv : e.v < m.pathCounts.length)
    (hp : e.p < m.succ.length) : m.countPaths e.u e.p e.v = some (m.counted e) := by
  unfold Memory.countPaths
  rw [getElem?_getD hv 0, getElem?_getD hu 0]
  simp only [Option.bind_eq_bind, Option.bind_some, if_pos hp]
  rfl

theorem countPaths_spec {e : Arc} (h : m.countPaths e.u e.p e.v = some m') :
    m' = m.counted e := by
  obtain ⟨cv, hcv, h⟩ := Option.bind_eq_some_iff.mp h
  obtain ⟨cu, hcu, h⟩ := Option.bind_eq_some_iff.mp h
  split at h
  case isFalse => cases h
  case isTrue =>
    rw [← Option.some.inj h, Memory.counted, Memory.cnt, Memory.cnt,
      List.getD_eq_getElem?_getD, List.getD_eq_getElem?_getD, hcv, hcu]
    rfl

/-- Every step is one of those listed, and leaves less to do. -/
theorem next_move {l l' : Thread} (h : next g l m = some (l', m')) (hl : Settled m l)
    (hdepth : m.depth ≠ -1) : Move g m l l' m' ∧ l'.weight g < l.weight g := by
  obtain ⟨todo, b, pc⟩ := l
  cases pc with
  | next =>
      cases todo with
      | nil =>
          obtain ⟨q, hq, heq⟩ := Option.map_eq_some_iff.mp h
          cases heq
          rw [SlidingQueue.flush_spec hq]
          refine ⟨.flush b rfl rfl ⟨rfl, rfl⟩, ?_⟩
          simp only [Thread.weight, At.weight, List.length_nil]
          rw [if_neg (by decide)]
          omega
      | cons u todo =>
          cases h
          refine ⟨.quiet rfl rfl trivial, ?_⟩
          simp only [Thread.weight, At.weight, List.map_cons, List.sum_cons]
          omega
  | edges u refs =>
      cases refs with
      | nil =>
          rw [next] at h
          cases h
          refine ⟨.quiet rfl rfl trivial, ?_⟩
          simp only [Thread.weight, At.weight, List.length_nil]
          omega
      | cons r refs =>
          obtain ⟨p, v⟩ := r
          rw [next] at h
          obtain ⟨dv, hdv, heq⟩ := Option.map_eq_some_iff.mp h
          cases heq
          by_cases hnew : dv = -1
          · rw [if_pos hnew]
            refine ⟨.quiet rfl rfl trivial, ?_⟩
            simp only [Thread.weight, At.weight, List.length_cons]
            omega
          · rw [if_neg hnew]
            have hdep : m.dep v ≠ -1 := dep_of_get hdv ▸ hnew
            refine ⟨.quiet rfl rfl hdep, ?_⟩
            simp only [Thread.weight, At.weight, List.length_cons]
            omega
  | swap u p v refs =>
      rw [next] at h
      obtain ⟨dv, hdv, heq⟩ := Option.map_eq_some_iff.mp h
      by_cases hnew : dv = -1
      · rw [if_pos hnew] at heq
        cases heq
        have hlt := (List.getElem?_eq_some_iff.mp hdv).1
        have hdep : (m.find v).dep v ≠ -1 := by
          rw [dep_find hlt, if_pos rfl]
          exact hdepth
        refine ⟨.find ⟨u, p, v⟩ (hnew ▸ dep_of_get hdv) List.mem_cons_self ?_ rfl hdep, ?_⟩
        · simp only [Thread.carried, At.pushing, List.append_nil]
        · simp only [Thread.weight, At.weight]
          omega
      · rw [if_neg hnew] at heq
        cases heq
        have hdep : m.dep v ≠ -1 := dep_of_get hdv ▸ hnew
        refine ⟨.quiet rfl rfl hdep, ?_⟩
        simp only [Thread.weight, At.weight]
        omega
  | push u p v refs =>
      rw [next] at h
      obtain ⟨c, hc, heq⟩ := Option.map_eq_some_iff.mp h
      unfold SlidingQueue.bufferPush at hc
      split at hc
      case isTrue hfull =>
        obtain ⟨q, hq, hc⟩ := Option.map_eq_some_iff.mp hc
        cases hc
        cases heq
        rw [SlidingQueue.flush_spec hq]
        refine ⟨.flush b rfl rfl hl, ?_⟩
        rw [if_neg Bool.false_ne_true]
        simp only [Thread.weight, At.weight, hfull, if_true, List.length_nil]
        rw [if_neg (by decide)]
        omega
      case isFalse hfull =>
        cases hc
        cases heq
        refine ⟨.quiet ?_ rfl hl, ?_⟩
        · simp only [Thread.carried, At.pushing, if_true, List.append_nil]
        · simp only [Thread.weight, At.weight, if_true, hfull, if_false]
          split <;> omega
  | count u p v refs =>
      rw [next] at h
      obtain ⟨dv, hdv, h⟩ := Option.bind_eq_some_iff.mp h
      have hdep := dep_of_get hdv
      split at h
      case isTrue hd =>
        obtain ⟨m₁, hm₁, heq⟩ := Option.map_eq_some_iff.mp h
        cases heq
        rw [countPaths_spec (e := ⟨u, p, v⟩) hm₁]
        refine ⟨.count ⟨u, p, v⟩ (hdep.trans hd) rfl rfl trivial, ?_⟩
        simp only [Thread.weight, At.weight]
        omega
      case isFalse hd =>
        cases h
        refine ⟨.skip ⟨u, p, v⟩ (hdep ▸ hd) hl rfl rfl trivial, ?_⟩
        simp only [Thread.weight, At.weight]
        omega
  | done =>
      rw [next] at h
      cases h

-- ================================================================ books

/-- What a level begins with. -/
structure Ready (g : CSRGraph Nat) (m : Memory) : Prop where
  depths : m.depths.length = g.numNodes
  pathCounts : m.pathCounts.length = g.numNodes
  succ : m.succ.length = g.numEdgesDirected.toNat
  depth : m.depth ≠ -1
  unused : ∀ v < g.numNodes, m.dep v ≠ m.depth
  shared : ∀ v ∈ m.queue.shared, v < g.numNodes ∧ m.dep v ≠ -1
  nodup : m.queue.shared.Nodup

/-- The window holds vertices of earlier levels. -/
theorem Ready.window (h : Ready g m) (hu : u ∈ m.queue.window) :
    u < g.numNodes ∧ m.dep u ≠ -1 ∧ m.dep u ≠ m.depth := by
  obtain ⟨hlt, hne⟩ := h.shared u (List.mem_of_mem_take (List.mem_of_mem_drop hu))
  exact ⟨hlt, hne, h.unused u hlt⟩

/-- What the edges in `past` add to the count of `v`. -/
def added (m₀ : Memory) (past : List Arc) (v : Nat) : ℚ :=
  ((past.filter fun e => e.v = v).map fun e => m₀.cnt e.u).sum

/-- `new` has been pushed and `carried` will be; `past` has been counted
and `future` will be. -/
structure Books (g : CSRGraph Nat) (m₀ m : Memory) (new carried : List Nat)
    (past future : List Arc) : Prop where
  frame : m = { m₀ with
    depths := m.depths, pathCounts := m.pathCounts, succ := m.succ
    queue := { m₀.queue with shared := m₀.queue.shared ++ new } }
  depths : m.depths.length = g.numNodes
  pathCounts : m.pathCounts.length = g.numNodes
  succ : m.succ.length = g.numEdgesDirected.toNat
  dep : ∀ v < g.numNodes, m.dep v = m₀.dep v
    ∨ (m₀.dep v = -1 ∧ m.dep v = m₀.depth ∧ ∃ u ∈ m₀.queue.window, v ∈ g.outs u)
  nodup : (new ++ carried).Nodup
  found : ∀ v, v ∈ new ++ carried ↔ v < g.numNodes ∧ m.dep v = m₀.depth
  arcs : (past ++ future).Perm (m₀.queue.window.flatMap (arcs g))
  seen : ∀ e ∈ past, m.dep e.v ≠ -1
  cnt : ∀ v < g.numNodes,
    m.cnt v = m₀.cnt v + if m.dep v = m₀.depth then added m₀ past v else 0
  bit : ∀ p, m.bit p = true ↔ m₀.bit p = true ∨ ∃ e ∈ past, e.p = p ∧ m.dep e.v = m₀.depth

variable {new carried carried' : List Nat} {past future future' : List Arc} {e : Arc}

/-- The order of what will be pushed and counted does not matter. -/
theorem Books.congr (h : Books g m₀ m new carried past future) (hc : carried.Perm carried')
    (hf : future.Perm future') : Books g m₀ m new carried' past future' where
  frame := h.frame
  depths := h.depths
  pathCounts := h.pathCounts
  succ := h.succ
  dep := h.dep
  nodup := (hc.append_left new).nodup_iff.mp h.nodup
  found v := (hc.append_left new).mem_iff.symm.trans (h.found v)
  arcs := (hf.append_left past).symm.trans h.arcs
  seen := h.seen
  cnt := h.cnt
  bit := h.bit

theorem Books.depth (h : Books g m₀ m new carried past future) : m.depth = m₀.depth := by
  rw [h.frame]

theorem Books.shared (h : Books g m₀ m new carried past future) :
    m.queue.shared = m₀.queue.shared ++ new := by
  rw [h.frame]

/-- The edges are those of the window. -/
theorem Books.mem_window (h : Books g m₀ m new carried past future)
    (he : e ∈ past ++ future) : e.u ∈ m₀.queue.window ∧ (e.p, e.v) ∈ outRefs g e.u := by
  obtain ⟨u, hu, hmem⟩ := List.mem_flatMap.mp (h.arcs.mem_iff.mp he)
  obtain ⟨rfl, href⟩ := mem_arcs.mp hmem
  exact ⟨hu, href⟩

/-- So they are inside the arrays. -/
theorem Books.bounds (hg : Simple g) (hm : Ready g m₀)
    (h : Books g m₀ m new carried past future) (he : e ∈ past ++ future) :
    e.u < g.numNodes ∧ e.v < g.numNodes ∧ e.p < g.numEdgesDirected.toNat := by
  obtain ⟨hu, href⟩ := h.mem_window he
  have hlt := (hm.window hu).1
  exact ⟨hlt, hg.outs_lt hlt (mem_outs_of_ref href), refs_lt hg hlt href⟩

/-- What has been found is not in the window, and its counts do not change
in this level. -/
theorem Books.cnt_window (hm : Ready g m₀) (h : Books g m₀ m new carried past future)
    (hu : u ∈ m₀.queue.window) : m.cnt u = m₀.cnt u := by
  obtain ⟨hlt, hne, hdepth⟩ := hm.window hu
  have hdep : m.dep u ≠ m₀.depth := by
    rcases h.dep u hlt with hsame | ⟨hnew, -⟩
    · exact hsame ▸ hdepth
    · exact absurd hnew hne
  rw [h.cnt u hlt, if_neg hdep, add_zero]

/-- What is pushed are different vertices, so it fits. -/
theorem Books.fits (hm : Ready g m₀) (h : Books g m₀ m new carried past future) :
    m.queue.shared.length + carried.length ≤ g.numNodes := by
  have hdisj : m₀.queue.shared.Disjoint (new ++ carried) := by
    intro v hv hnew
    obtain ⟨hlt, hne⟩ := hm.shared v hv
    obtain ⟨-, hdep⟩ := (h.found v).mp hnew
    rcases h.dep v hlt with hsame | ⟨hfree, -⟩
    · exact hm.unused v hlt (hsame.symm.trans hdep)
    · exact hne hfree
  have hnd := hm.nodup.append h.nodup hdisj
  have hsub : m₀.queue.shared ++ (new ++ carried) ⊆ List.range g.numNodes := by
    intro v hv
    rw [List.mem_range]
    rcases List.mem_append.mp hv with hv | hv
    · exact (hm.shared v hv).1
    · exact ((h.found v).mp hv).1
  have hle := (hnd.subperm hsub).length_le
  rw [h.shared]
  simp only [List.length_append, List.length_range] at hle ⊢
  omega

-- ==================================================== one kind of a move

/-- A flush pushes what was carried. -/
theorem Books.flush {b : List Nat} (h : Books g m₀ m new (b ++ carried) past future) :
    Books g m₀ (m.pushAll b) (new ++ b) carried past future where
  frame := by
    have hframe := h.frame
    rw [Memory.pushAll, h.shared, List.append_assoc]
    generalize m.depths = x, m.pathCounts = y, m.succ = z at hframe ⊢
    subst hframe
    rfl
  depths := h.depths
  pathCounts := h.pathCounts
  succ := h.succ
  dep := h.dep
  nodup := by
    rw [List.append_assoc]
    exact h.nodup
  found v := by
    rw [List.append_assoc]
    exact h.found v
  arcs := h.arcs
  seen := h.seen
  cnt := h.cnt
  bit := h.bit

/-- A vertex that is found will be pushed. -/
theorem Books.find (hg : Simple g) (hm : Ready g m₀)
    (h : Books g m₀ m new carried past future) (he : e ∈ past ++ future)
    (hnew : m.dep e.v = -1) :
    Books g m₀ (m.find e.v) new (e.v :: carried) past future := by
  obtain ⟨-, hv, -⟩ := h.bounds hg hm he
  have hv' : e.v < m.depths.length := h.depths ▸ hv
  have hdep : ∀ w, (m.find e.v).dep w = if w = e.v then m₀.depth else m.dep w := by
    intro w
    rw [dep_find hv', h.depth]
  have hpast : ∀ a ∈ past, a.v ≠ e.v := fun a ha heq => h.seen a ha (heq ▸ hnew)
  have hne : m.dep e.v ≠ m₀.depth := hnew ▸ hm.depth.symm
  constructor
  case frame =>
    have hframe := h.frame
    rw [Memory.find]
    generalize m.depths.set e.v m.depth = x, m.pathCounts = y, m.succ = z at hframe ⊢
    rw [hframe]
  case depths => exact List.length_set.trans h.depths
  case pathCounts => exact h.pathCounts
  case succ => exact h.succ
  case dep =>
    intro w hw
    rw [hdep]
    split
    case isTrue heq =>
      obtain ⟨hu, href⟩ := h.mem_window he
      have hold : m₀.dep e.v = -1 := by
        rcases h.dep e.v hv with hsame | ⟨hold, -⟩
        · exact hsame ▸ hnew
        · exact hold
      exact .inr ⟨heq ▸ hold, rfl, e.u, hu, heq ▸ mem_outs_of_ref href⟩
    case isFalse => exact h.dep w hw
  case nodup =>
    refine List.perm_middle.nodup_iff.mpr (List.nodup_cons.mpr ⟨fun hmem => ?_, h.nodup⟩)
    exact hne ((h.found e.v).mp hmem).2
  case found =>
    intro w
    rw [List.perm_middle.mem_iff, List.mem_cons, h.found, hdep]
    split
    case isTrue heq => exact ⟨fun _ => ⟨heq ▸ hv, rfl⟩, fun _ => .inl heq⟩
    case isFalse hneq => exact ⟨fun hor => hor.resolve_left hneq, .inr⟩
  case arcs => exact h.arcs
  case seen =>
    intro a ha
    rw [hdep, if_neg (hpast a ha)]
    exact h.seen a ha
  case cnt =>
    intro w hw
    have hcnt : (m.find e.v).cnt w = m.cnt w := rfl
    rw [hcnt, h.cnt w hw, hdep]
    by_cases heq : w = e.v
    · -- nothing has been counted for it yet
      have hnone : past.filter (fun a => a.v = w) = [] := by
        refine List.filter_eq_nil_iff.mpr fun a ha => ?_
        rw [decide_eq_true_eq, heq]
        exact hpast a ha
      rw [if_neg (heq ▸ hne), if_pos heq, if_pos rfl, added, hnone, List.map_nil, List.sum_nil]
    · rw [if_neg heq]
  case bit =>
    intro p
    rw [show (m.find e.v).bit p = m.bit p from rfl, h.bit p]
    refine or_congr_right
      (exists_congr fun a => and_congr_right fun ha => and_congr_right fun _ => ?_)
    rw [hdep, if_neg (hpast a ha)]

/-- The edge that was to be counted next goes to the past. -/
theorem perm_past (e : Arc) (past future : List Arc) :
    (e :: past ++ future).Perm (past ++ e :: future) :=
  List.perm_middle.symm

theorem added_cons (v : Nat) :
    added m₀ (e :: past) v = (if e.v = v then m₀.cnt e.u else 0) + added m₀ past v := by
  unfold added
  rw [List.filter_cons]
  by_cases h : e.v = v
  · rw [if_pos (decide_eq_true h), if_pos h, List.map_cons, List.sum_cons]
  · rw [if_neg (by rwa [decide_eq_true_eq]), if_neg h, zero_add]

/-- An edge to another level is counted as nothing. -/
theorem Books.skip (h : Books g m₀ m new carried past (e :: future))
    (hdepth : m.dep e.v ≠ m₀.depth) (hne : m.dep e.v ≠ -1) :
    Books g m₀ m new carried (e :: past) future where
  frame := h.frame
  depths := h.depths
  pathCounts := h.pathCounts
  succ := h.succ
  dep := h.dep
  nodup := h.nodup
  found := h.found
  arcs := (perm_past e past future).trans h.arcs
  seen := List.forall_mem_cons.mpr ⟨hne, h.seen⟩
  cnt v hv := by
    rw [h.cnt v hv]
    split
    case isTrue heq =>
      have hev : e.v ≠ v := fun hev => hdepth (hev ▸ heq)
      rw [added_cons, if_neg hev, zero_add]
    case isFalse => rfl
  bit p := by
    rw [h.bit p]
    simp only [List.mem_cons, exists_eq_or_imp, hdepth, and_false, false_or]

/-- An edge to the new level adds the paths of its source. -/
theorem Books.count (hg : Simple g) (hm : Ready g m₀)
    (h : Books g m₀ m new carried past (e :: future)) (hdepth : m.dep e.v = m₀.depth) :
    Books g m₀ (m.counted e) new carried (e :: past) future := by
  have hmem : e ∈ past ++ e :: future := List.mem_append_right _ List.mem_cons_self
  obtain ⟨-, hv, hp⟩ := h.bounds hg hm hmem
  have hdep : ∀ w, (m.counted e).dep w = m.dep w := fun _ => rfl
  constructor
  case frame =>
    have hframe := h.frame
    rw [Memory.counted]
    generalize m.depths = x, m.pathCounts.set e.v (m.cnt e.v + m.cnt e.u) = y,
      m.succ.set e.p true = z at hframe ⊢
    rw [hframe]
  case depths => exact h.depths
  case pathCounts => exact List.length_set.trans h.pathCounts
  case succ => exact List.length_set.trans h.succ
  case dep => exact h.dep
  case nodup => exact h.nodup
  case found => exact h.found
  case arcs => exact (perm_past e past future).trans h.arcs
  case seen => exact List.forall_mem_cons.mpr ⟨hdep e.v ▸ hdepth ▸ hm.depth, h.seen⟩
  case cnt =>
    intro w hw
    have hset : (m.counted e).cnt w = if w = e.v then m.cnt e.v + m.cnt e.u else m.cnt w :=
      Slots.getD_set (h.pathCounts ▸ hv) _ 0 w
    rw [hset, hdep, added_cons]
    split
    case isTrue heq =>
      subst heq
      rw [h.cnt_window hm (h.mem_window hmem).1, h.cnt e.v hv, if_pos hdepth, if_pos hdepth,
        if_pos rfl, add_assoc, add_comm (m₀.cnt e.u)]
    case isFalse hne => rw [h.cnt w hw, if_neg (Ne.symm hne), zero_add]
  case bit =>
    intro q
    have hset : (m.counted e).bit q = if q = e.p then true else m.bit q :=
      Slots.getD_set (h.succ ▸ hp) _ false q
    rw [hset]
    simp only [List.mem_cons, exists_eq_or_imp, hdep, hdepth, and_true]
    split
    case isTrue heq => exact ⟨fun _ => .inr (.inl heq.symm), fun _ => rfl⟩
    case isFalse hne =>
      rw [h.bit q]
      have hpq : e.p ≠ q := Ne.symm hne
      simp only [hpq, false_or]

-- =============================================================== a level

/-- What holds between two steps of a level. -/
def Levelling (g : CSRGraph Nat) (m₀ : Memory) (ts : List Thread) (m : Memory) : Prop :=
  (∃ new past, Books g m₀ m new (ts.flatMap Thread.carried) past (ts.flatMap (Thread.arcs g)))
    ∧ ∀ l ∈ ts, Settled m l

theorem Books.move (hg : Simple g) (hm : Ready g m₀) {l l' : Thread} {c : List Nat}
    {a : List Arc} (h : Books g m₀ m new (l.carried ++ c) past (l.arcs g ++ a))
    (hmove : Move g m l l' m') :
    (∃ new past, Books g m₀ m' new (l'.carried ++ c) past (l'.arcs g ++ a))
      ∧ Settled m' l' ∧ ∀ v, m.dep v ≠ -1 → m'.dep v ≠ -1 := by
  cases hmove with
  | quiet hcarried harcs hl' =>
      rw [← hcarried, ← harcs] at h
      exact ⟨⟨new, past, h⟩, hl', fun _ hv => hv⟩
  | flush b hcarried harcs hl' =>
      rw [hcarried, List.append_assoc, ← harcs] at h
      exact ⟨⟨new ++ b, past, h.flush⟩, hl', fun _ hv => hv⟩
  | find e hnew hmem hcarried harcs hl' =>
      have hmem : e ∈ past ++ (l.arcs g ++ a) :=
        List.mem_append_right _ (List.mem_append_left _ hmem)
      have hv : e.v < m.depths.length := h.depths ▸ (h.bounds hg hm hmem).2.1
      have h := h.find hg hm hmem hnew
      have hperm : (e.v :: (l.carried ++ c)).Perm (l'.carried ++ c) := by
        rw [hcarried, List.append_assoc]
        exact List.perm_middle.symm
      refine ⟨⟨new, past, h.congr hperm (harcs ▸ .refl _)⟩, hl', fun w hw => ?_⟩
      rw [dep_find hv]
      split
      case isTrue => exact fun heq => hm.depth (h.depth ▸ heq)
      case isFalse => exact hw
  | count e hdepth hcarried harcs hl' =>
      rw [← hcarried, harcs, List.cons_append] at h
      rw [h.depth] at hdepth
      exact ⟨⟨new, e :: past, h.count hg hm hdepth⟩, hl', fun _ hv => hv⟩
  | skip e hdepth hne hcarried harcs hl' =>
      rw [← hcarried, harcs, List.cons_append] at h
      rw [h.depth] at hdepth
      exact ⟨⟨new, e :: past, h.skip hdepth hne⟩, hl', fun _ hv => hv⟩

/-- Every step of a thread keeps the books, and leaves less to do. -/
theorem Levelling.step (hg : Simple g) (hm : Ready g m₀) {ts : List Thread} {i : Nat}
    {l l' : Thread} (h : Levelling g m₀ ts m) (hi : ts[i]? = some l)
    (hnext : next g l m = some (l', m')) :
    Levelling g m₀ (ts.set i l') m' ∧ l'.weight g < l.weight g := by
  obtain ⟨⟨new, past, hb⟩, hall⟩ := h
  have hl := hall l (List.mem_of_getElem? hi)
  have hdepth : m.depth ≠ -1 := hb.depth ▸ hm.depth
  obtain ⟨hmove, hlt⟩ := next_move hnext hl hdepth
  obtain ⟨c, hc, hc'⟩ := flatMap_set_perm Thread.carried hi
  obtain ⟨a, ha, ha'⟩ := flatMap_set_perm (Thread.arcs g) hi
  obtain ⟨⟨new', past', hb'⟩, hl', hmono⟩ := (hb.congr hc ha).move hg hm hmove
  refine ⟨⟨⟨new', past', hb'.congr (hc' l').symm (ha' l').symm⟩, fun k hk => ?_⟩, hlt⟩
  rcases List.mem_or_eq_of_mem_set hk with hk | rfl
  · exact (hall k hk).mono hmono
  · exact hl'

/-- No thread gets stuck. -/
theorem Levelling.moves (hg : Simple g) (hm : Ready g m₀) {ts : List Thread} {l : Thread}
    (h : Levelling g m₀ ts m) (hl : l ∈ ts) (hdone : l.pc ≠ .done) :
    ∃ l' m', next g l m = some (l', m') := by
  obtain ⟨⟨new, past, hb⟩, hall⟩ := h
  have hbounds : ∀ e ∈ l.arcs g, e.u < m.pathCounts.length ∧ e.v < m.pathCounts.length
      ∧ e.v < m.depths.length ∧ e.p < m.succ.length := by
    intro e he
    have hmem : e ∈ past ++ ts.flatMap (Thread.arcs g) :=
      List.mem_append_right _ (List.mem_flatMap.mpr ⟨l, hl, he⟩)
    obtain ⟨hu, hv, hp⟩ := hb.bounds hg hm hmem
    exact ⟨hb.pathCounts ▸ hu, hb.pathCounts ▸ hv, hb.depths ▸ hv, hb.succ ▸ hp⟩
  have hfits : m.queue.shared.length + l.buffer.length ≤ g.numNodes := by
    have hle := hb.fits hm
    have hsub : (l.buffer).length ≤ (ts.flatMap Thread.carried).length := by
      obtain ⟨i, hi⟩ := List.getElem?_of_mem hl
      obtain ⟨c, hc, -⟩ := flatMap_set_perm Thread.carried hi
      rw [hc.length_eq, Thread.carried, List.length_append, List.length_append]
      omega
    omega
  have hflush : m.queue.flush g.numNodes l.buffer
      = some { m.queue with shared := m.queue.shared ++ l.buffer } := if_pos hfits
  obtain ⟨todo, b, pc⟩ := l
  cases pc with
  | next =>
      cases todo with
      | nil => exact ⟨_, _, by rw [next, hflush, Option.map_some]⟩
      | cons u todo => exact ⟨_, _, rfl⟩
  | edges u refs =>
      cases refs with
      | nil => exact ⟨_, _, by rw [next]⟩
      | cons r refs =>
          obtain ⟨-, -, hv, -⟩ := hbounds ⟨u, r.1, r.2⟩ List.mem_cons_self
          exact ⟨_, _, by rw [next, Memory.get_dep hv, Option.map_some]⟩
  | swap u p v refs =>
      obtain ⟨-, -, hv, -⟩ := hbounds ⟨u, p, v⟩ List.mem_cons_self
      rw [next, Memory.get_dep hv, Option.map_some]
      split
      · exact ⟨_, _, rfl⟩
      · exact ⟨_, _, rfl⟩
  | push u p v refs =>
      rw [next, SlidingQueue.bufferPush]
      split
      · exact ⟨_, _, by rw [hflush, Option.map_some, Option.map_some]⟩
      · exact ⟨_, _, rfl⟩
  | count u p v refs =>
      obtain ⟨hu, hv, hv', hp⟩ := hbounds ⟨u, p, v⟩ List.mem_cons_self
      rw [next, Memory.get_dep hv', Option.bind_eq_bind, Option.bind_some]
      split
      · exact ⟨_, _, by rw [countPaths_eq (e := ⟨u, p, v⟩) hu hv hp, Option.map_some]⟩
      · exact ⟨_, _, rfl⟩
  | done => exact absurd rfl hdone

/-- The books at the start of a level. -/
theorem Levelling.start (hm : Ready g m) {shares : List (List Nat)}
    (hshares : shares.flatten.Perm m.queue.window) :
    Levelling g m (shares.map fun share => ⟨share, [], .next⟩) m := by
  have hcarried : (shares.map fun share => (⟨share, [], .next⟩ : Thread)).flatMap Thread.carried
      = [] := by
    rw [List.flatMap_map]
    exact List.flatMap_eq_nil_iff.mpr fun _ _ => rfl
  have harcs : ((shares.map fun share => (⟨share, [], .next⟩ : Thread)).flatMap
      (Thread.arcs g)).Perm (m.queue.window.flatMap (arcs g)) := by
    have heq : (shares.map fun share => (⟨share, [], .next⟩ : Thread)).flatMap (Thread.arcs g)
        = shares.flatten.flatMap (arcs g) := by
      rw [List.flatMap_map, List.flatten_eq_flatMap, List.flatMap_assoc]
      rfl
    rw [heq]
    exact hshares.flatMap_right _
  refine ⟨⟨[], [], ?_⟩, ?_⟩
  · rw [hcarried]
    constructor
    case frame => simp only [List.append_nil]
    case depths => exact hm.depths
    case pathCounts => exact hm.pathCounts
    case succ => exact hm.succ
    case dep => exact fun _ _ => .inl rfl
    case nodup => exact List.nodup_nil
    case found =>
      intro v
      rw [List.append_nil]
      exact ⟨fun h => absurd h List.not_mem_nil, fun h => absurd h.2 (hm.unused v h.1)⟩
    case arcs => exact harcs
    case seen => exact fun e he => by cases he
    case cnt => exact fun v hv => by rw [if_neg (hm.unused v hv), add_zero]
    case bit => exact fun p => by simp
  · intro l hl
    obtain ⟨share, -, rfl⟩ := List.mem_map.mp hl
    trivial

-- ================================================= what a level leaves

theorem added_append (past future : List Arc) (v : Nat) :
    added m₀ (past ++ future) v = added m₀ past v + added m₀ future v := by
  unfold added
  rw [List.filter_append, List.map_append, List.sum_append]

/-- What the edges of a vertex add. -/
theorem added_arcsAt (refs : List (Nat × Nat)) :
    added m₀ (arcsAt u refs) v = (refs.map Prod.snd).count v * m₀.cnt u := by
  induction refs with
  | nil => simp [added, arcsAt]
  | cons r refs ih =>
      have hcons : arcsAt u (r :: refs) = ⟨u, r.1, r.2⟩ :: arcsAt u refs := rfl
      rw [hcons, added_cons, ih, List.map_cons, List.count_cons]
      by_cases h : r.2 = v
      · simp only [h, if_true, beq_self_eq_true, Nat.cast_add, Nat.cast_one]
        rw [add_one_mul, add_comm]
      · simp only [h, if_false, beq_iff_eq, Nat.add_zero, zero_add]

/-- In a simple graph a vertex adds its count to each neighbour once. -/
theorem added_arcs (hg : Simple g) (hu : u < g.numNodes) :
    added m₀ (arcs g u) v = if v ∈ g.outs u then m₀.cnt u else 0 := by
  rw [arcs, added_arcsAt, map_outRefs, (hg.nodup u hu).count]
  split
  · rw [Nat.cast_one, one_mul]
  · rw [Nat.cast_zero, zero_mul]

theorem added_window (hg : Simple g) {w : List Nat} (hw : ∀ u ∈ w, u < g.numNodes) :
    added m₀ (w.flatMap (arcs g)) v = ((w.filter fun u => v ∈ g.outs u).map m₀.cnt).sum := by
  induction w with
  | nil => rfl
  | cons u w ih =>
      rw [List.flatMap_cons, added_append, added_arcs hg (hw u List.mem_cons_self),
        ih fun x hx => hw x (List.mem_cons_of_mem u hx), List.filter_cons]
      by_cases h : v ∈ g.outs u
      · rw [if_pos h, if_pos (decide_eq_true h), List.map_cons, List.sum_cons]
      · rw [if_neg h, if_neg (by rwa [decide_eq_true_eq]), zero_add]

/-- What a level does: `new` are the vertices it finds. -/
structure Expanded (g : CSRGraph Nat) (m m' : Memory) (new : List Nat) : Prop where
  frame : m' = { m with
    depths := m'.depths, pathCounts := m'.pathCounts, succ := m'.succ
    queue := { m.queue with shared := m.queue.shared ++ new } }
  depths : m'.depths.length = g.numNodes
  pathCounts : m'.pathCounts.length = g.numNodes
  succ : m'.succ.length = g.numEdgesDirected.toNat
  nodup : new.Nodup
  found : ∀ v, v ∈ new ↔ v < g.numNodes ∧ m.dep v = -1 ∧ ∃ u ∈ m.queue.window, v ∈ g.outs u
  dep : ∀ v < g.numNodes, m'.dep v = if v ∈ new then m.depth else m.dep v
  cnt : ∀ v < g.numNodes, m'.cnt v = m.cnt v + if v ∈ new then
    ((m.queue.window.filter fun u => v ∈ g.outs u).map m.cnt).sum else 0
  bit : ∀ p, m'.bit p = true ↔ m.bit p = true
    ∨ ∃ u ∈ m.queue.window, ∃ v ∈ new, (p, v) ∈ outRefs g u

/-- When all is pushed and counted the level is done. -/
theorem Books.expanded (hg : Simple g) (hm : Ready g m₀) (h : Books g m₀ m new [] past []) :
    Expanded g m₀ m new := by
  have hpast : past.Perm (m₀.queue.window.flatMap (Brandes.arcs g)) := by
    simpa only [List.append_nil] using h.arcs
  have hnew : ∀ v, v ∈ new ↔ v < g.numNodes ∧ m.dep v = m₀.depth := by
    simpa only [List.append_nil] using h.found
  have hadded : ∀ v, added m₀ past v
      = ((m₀.queue.window.filter fun u => v ∈ g.outs u).map m₀.cnt).sum := by
    intro v
    rw [← added_window hg fun u hu => (hm.window hu).1]
    exact ((hpast.filter _).map _).sum_eq
  have hmem : ∀ u ∈ m₀.queue.window, ∀ p v, (p, v) ∈ outRefs g u → (⟨u, p, v⟩ : Arc) ∈ past :=
    fun u hu p v href => hpast.mem_iff.mpr
      (List.mem_flatMap.mpr ⟨u, hu, mem_arcs.mpr ⟨rfl, href⟩⟩)
  constructor
  case frame => exact h.frame
  case depths => exact h.depths
  case pathCounts => exact h.pathCounts
  case succ => exact h.succ
  case nodup => simpa only [List.append_nil] using h.nodup
  case found =>
    intro v
    rw [hnew]
    refine and_congr_right fun hv => ⟨fun hdep => ?_, ?_⟩
    · rcases h.dep v hv with hsame | ⟨hold, -, hu⟩
      · exact absurd (hsame.symm.trans hdep) (hm.unused v hv)
      · exact ⟨hold, hu⟩
    · -- an edge to it has been counted
      rintro ⟨hold, u, hu, hout⟩
      rw [← map_outRefs] at hout
      obtain ⟨⟨p, _⟩, href, rfl⟩ := List.mem_map.mp hout
      have hseen := h.seen _ (hmem u hu p _ href)
      rcases h.dep _ hv with hsame | ⟨-, hdep, -⟩
      · exact absurd (hsame.trans hold) hseen
      · exact hdep
  case dep =>
    intro v hv
    split
    case isTrue hin => exact ((hnew v).mp hin).2
    case isFalse hin =>
      rcases h.dep v hv with hsame | ⟨-, hdep, -⟩
      · exact hsame
      · exact absurd ((hnew v).mpr ⟨hv, hdep⟩) hin
  case cnt =>
    intro v hv
    rw [h.cnt v hv, ← hadded v]
    simp only [hnew v, hv, true_and]
  case bit =>
    intro p
    rw [h.bit p]
    refine or_congr_right ⟨?_, ?_⟩
    · rintro ⟨e, he, rfl, hdep⟩
      have he' : e ∈ past ++ [] := List.mem_append_left _ he
      obtain ⟨hu, href⟩ := h.mem_window he'
      exact ⟨e.u, hu, e.v, (hnew e.v).mpr ⟨(h.bounds hg hm he').2.1, hdep⟩, href⟩
    · rintro ⟨u, hu, v, hv, href⟩
      exact ⟨⟨u, p, v⟩, hmem u hu p v href, rfl, ((hnew v).mp hv).2⟩

/-- Every run of a level finds the next one and counts its paths. -/
theorem level_total (hg : Simple g) (hm : Ready g m) :
    Total (level g) m fun m' => ∃ new, Expanded g m m' new := by
  refine total_fork ⟨_, [m.queue.window], ?_, rfl⟩ ?_
  · rw [List.flatten_singleton]
  · rintro ts ⟨shares, hshares, rfl⟩
    refine total_running (t := threads g) (Levelling g m)
      (fun ts _ => (ts.map (Thread.weight g)).sum) ?_ ?_ ?_ (Levelling.start hm hshares)
    · intro ts s l h hl hdone
      exact h.moves hg hm hl (of_decide_eq_false hdone)
    · intro ts s i l l' s' h hi hnext
      obtain ⟨h', hlt⟩ := h.step hg hm hi hnext
      exact ⟨h', sum_set_lt hi hlt fun _ _ _ _ => Nat.le_refl _⟩
    · rintro ts s ⟨⟨new, past, hb⟩, hall⟩ hdone
      have hnil : ∀ l ∈ ts, l.carried = [] ∧ l.arcs g = [] := by
        intro l hl
        have hl' := hall l hl
        have hpc : l.pc = .done := of_decide_eq_true (hdone l hl)
        obtain ⟨todo, b, pc⟩ := l
        simp only at hpc
        subst hpc
        obtain ⟨rfl, rfl⟩ : todo = [] ∧ b = [] := hl'
        exact ⟨rfl, rfl⟩
      have hcarried : ts.flatMap Thread.carried = [] :=
        List.flatMap_eq_nil_iff.mpr fun l hl => (hnil l hl).1
      have harcs : ts.flatMap (Thread.arcs g) = [] :=
        List.flatMap_eq_nil_iff.mpr fun l hl => (hnil l hl).2
      rw [hcarried, harcs] at hb
      exact ⟨new, hb.expanded hg hm⟩

end ThesisBench.Gapbs.Brandes

/-
What the parallel loops of `DOBFS` do, whatever the order of their
tasks' steps. Nothing here is about distances.

`BUStep` gives an unvisited vertex a parent when one of its incoming
neighbours is in the front (`Climbed`). `TDStep` visits exactly the
unvisited neighbours of the window and pushes each of them once: a
vertex is pushed by the thread that won its compare-and-swap, and that
thread is known by the vertex's parent, which is in its share of the
window. The two loops that push keep their buffers in the same way
(`Buffered`).
-/
import Mathlib.Data.List.Nodup
import Mathlib.Data.List.Perm.Basic
import Mathlib.Data.Finset.Card
import ThesisBench.Gapbs.Bfs

namespace ThesisBench.Gapbs.Bfs

open Parallel

variable {m m' : Memory} {g : CSRGraph Nat} {u v : Nat}

-- =============================================================== parent

def Memory.par (m : Memory) (v : Nat) : Int := m.parent.getD v 0

theorem Memory.par_set {x : Int} {l : List Int} (hp : m.parent = l.set v x)
    (hv : v < l.length) (w : Nat) : m.par w = if w = v then x else l.getD w 0 := by
  rw [Memory.par, hp]
  exact Slots.getD_set hv x 0 w

-- ============================================== InitParent and the end

/-- `get_bit` -/
def bit (f : List Bool) (v : Nat) : Prop := f.getD v false = true

/-- What `BUStep` does to `u`. -/
def Climbed (g : CSRGraph Nat) (m m' : Memory) (u : Nat) : Prop :=
  (m'.par u = m.par u ∧ ¬ bit m'.curr u ∧ (m.par u < 0 → ∀ v ∈ g.ins u, ¬ bit m.front v))
    ∨ (m.par u < 0 ∧ bit m'.curr u ∧ ∃ v ∈ g.ins u, bit m.front v ∧ m'.par u = v)

/-- What the iteration of `u` knows, when the loop began with `m`. -/
def BUAt.Knows (g : CSRGraph Nat) (m m' : Memory) (u : Nat) : BUAt → Prop
  | .test => m'.par u = m.par u ∧ ¬ bit m'.curr u
  | .scan vs => m'.par u = m.par u ∧ ¬ bit m'.curr u ∧ m.par u < 0
      ∧ (∀ v ∈ vs, v ∈ g.ins u) ∧ ∀ v ∈ g.ins u, v ∈ vs ∨ ¬ bit m.front v
  | .done => Climbed g m m' u

def BUAt.toGo (g : CSRGraph Nat) (u : Nat) : BUAt → Nat
  | .test => (g.ins u).length + 2
  | .scan vs => vs.length + 1
  | .done => 0

/-- What the loop keeps; `m` is the memory it began with. -/
structure Climbing (g : CSRGraph Nat) (m m' : Memory) : Prop where
  frame : m' = { m with
    parent := m'.parent, curr := m'.curr, awakeCount := m'.awakeCount }
  parent : m'.parent.length = g.numNodes
  curr : m'.curr.length = g.numNodes
  awake : 0 < m'.awakeCount → ∃ u < g.numNodes, m.par u < 0 ∧ 0 ≤ m'.par u

theorem Climbing.front (h : Climbing g m m') : m'.front = m.front := by
  rw [h.frame]

/-- The step in which `u` is given the parent `v`. -/
def Memory.awaken (m : Memory) (u v : Nat) : Memory :=
  { m with
    parent := m.parent.set u v, curr := m.curr.set u true, awakeCount := m.awakeCount + 1 }

variable {m₁ m₂ : Memory}

/-- The parents after a vertex has woken up. -/
theorem Climbing.par_awaken (h : Climbing g m m₁) (hu : u < g.numNodes) (w : Nat) :
    (m₁.awaken u v).par w = if w = u then (v : Int) else m₁.par w := by
  have hu' : u < m₁.parent.length := h.parent ▸ hu
  exact Memory.par_set rfl hu' w

/-- A vertex that wakes up keeps what the loop keeps. -/
theorem Climbing.awaken (h : Climbing g m m₁) (hu : u < g.numNodes) (hpar : m.par u < 0) :
    Climbing g m (m₁.awaken u v) where
  frame := by
    rw [h.frame]
    rfl
  parent := List.length_set.trans h.parent
  curr := List.length_set.trans h.curr
  awake _ := by
    refine ⟨u, hu, hpar, ?_⟩
    rw [h.par_awaken hu, if_pos rfl]
    exact Int.natCast_nonneg v

/-- What an iteration knows depends on its own vertex only. -/
theorem BUAt.Knows.frame {l : BUAt} (hl : l.Knows g m m₁ u) (hpar : m₂.par u = m₁.par u)
    (hbit : bit m₂.curr u ↔ bit m₁.curr u) : l.Knows g m m₂ u := by
  cases l with
  | test => exact ⟨hpar.trans hl.1, fun h => hl.2 (hbit.mp h)⟩
  | scan vs => exact ⟨hpar.trans hl.1, fun h => hl.2.1 (hbit.mp h), hl.2.2⟩
  | done =>
      refine hl.imp (fun h => ⟨hpar.trans h.1, fun hb => h.2.1 (hbit.mp hb), h.2.2⟩) fun h => ?_
      obtain ⟨hneg, hb, v, hv, hfront, heq⟩ := h
      exact ⟨hneg, hbit.mpr hb, v, hv, hfront, hpar.trans heq⟩

/-- A thread's values (`mine`) are in the queue, in its buffer, or about
to be pushed, each in one place. -/
structure Buffered (mine : Nat → Prop) (shared buffer : List Nat) (pushing : Option Nat) :
    Prop where
  nodup : buffer.Nodup
  fresh : ∀ v ∈ buffer, mine v ∧ v ∉ shared
  pending : ∀ v, pushing = some v → mine v ∧ v ∉ shared ∧ v ∉ buffer
  covers : ∀ v, mine v → v ∈ shared ∨ v ∈ buffer ∨ pushing = some v

section Buffered

variable {mine mine' : Nat → Prop} {shared buffer : List Nat} {pushing : Option Nat}

/-- The value about to be pushed goes into the buffer. -/
theorem Buffered.push (h : Buffered mine shared buffer (some v)) :
    Buffered mine shared (buffer ++ [v]) none where
  nodup := by
    refine h.nodup.append (List.nodup_singleton v) fun w hw hv => ?_
    rw [List.mem_singleton.mp hv] at hw
    exact (h.pending v rfl).2.2 hw
  fresh w hw := by
    rcases List.mem_append.mp hw with hw | hw
    · exact h.fresh w hw
    · rw [List.mem_singleton.mp hw]
      exact ⟨(h.pending v rfl).1, (h.pending v rfl).2.1⟩
  pending w hw := by cases hw
  covers w hw := by
    rcases h.covers w hw with hs | hb | hp
    · exact .inl hs
    · exact .inr (.inl (List.mem_append_left _ hb))
    · cases hp
      exact .inr (.inl (List.mem_append_right _ (List.mem_singleton.mpr rfl)))

/-- The buffer goes into the queue. -/
theorem Buffered.flush (h : Buffered mine shared buffer pushing) :
    Buffered mine (shared ++ buffer) [] pushing where
  nodup := List.nodup_nil
  fresh w hw := by cases hw
  pending w hw := by
    obtain ⟨hmine, hs, hb⟩ := h.pending w hw
    exact ⟨hmine, fun hmem => (List.mem_append.mp hmem).elim hs hb, List.not_mem_nil⟩
  covers w hw := by
    rcases h.covers w hw with hs | hb | hp
    · exact .inl (List.mem_append_left _ hs)
    · exact .inl (List.mem_append_right _ hb)
    · exact .inr (.inr hp)

/-- Another thread's flush. -/
theorem Buffered.other (h : Buffered mine shared buffer pushing) {added : List Nat}
    (hadded : ∀ w ∈ added, ¬ mine w) : Buffered mine (shared ++ added) buffer pushing where
  nodup := h.nodup
  fresh w hw := by
    obtain ⟨hmine, hs⟩ := h.fresh w hw
    exact ⟨hmine, fun hmem => (List.mem_append.mp hmem).elim hs fun ha => hadded w ha hmine⟩
  pending w hw := by
    obtain ⟨hmine, hs, hb⟩ := h.pending w hw
    exact ⟨hmine, fun hmem => (List.mem_append.mp hmem).elim hs fun ha => hadded w ha hmine, hb⟩
  covers w hw := (h.covers w hw).imp_left (List.mem_append_left _)

/-- A value becomes the thread's, and is about to be pushed. -/
theorem Buffered.take (h : Buffered mine shared buffer none)
    (hmine : ∀ w, mine' w ↔ w = v ∨ mine w) (hs : v ∉ shared) (hb : v ∉ buffer) :
    Buffered mine' shared buffer (some v) where
  nodup := h.nodup
  fresh w hw := ⟨(hmine w).mpr (.inr (h.fresh w hw).1), (h.fresh w hw).2⟩
  pending w hw := by
    cases hw
    exact ⟨(hmine v).mpr (.inl rfl), hs, hb⟩
  covers w hw := by
    rcases (hmine w).mp hw with rfl | hw
    · exact .inr (.inr rfl)
    · rcases h.covers w hw with hs | hb | hp
      · exact .inl hs
      · exact .inr (.inl hb)
      · cases hp

/-- Only which values are the thread's matters. -/
theorem Buffered.congr (h : Buffered mine shared buffer pushing)
    (hmine : ∀ w, mine' w ↔ mine w) : Buffered mine' shared buffer pushing where
  nodup := h.nodup
  fresh w hw := ⟨(hmine w).mpr (h.fresh w hw).1, (h.fresh w hw).2⟩
  pending w hw := ⟨(hmine w).mpr (h.pending w hw).1, (h.pending w hw).2⟩
  covers w hw := h.covers w ((hmine w).mp hw)

/-- What is pushed are different vertices, so it fits. -/
theorem Buffered.fits (h : Buffered mine shared buffer pushing) (hnd : shared.Nodup)
    {n : Nat} (hlt : ∀ v ∈ shared, v < n) (hmine : ∀ v, mine v → v < n) :
    (shared ++ buffer).Nodup ∧ shared.length + buffer.length ≤ n := by
  have hall : (shared ++ buffer).Nodup :=
    hnd.append h.nodup fun w hs hb => (h.fresh w hb).2 hs
  refine ⟨hall, ?_⟩
  have hsub : shared ++ buffer ⊆ List.range n := by
    intro w hw
    rcases List.mem_append.mp hw with hw | hw
    · exact List.mem_range.mpr (hlt w hw)
    · exact List.mem_range.mpr (hmine w (h.fresh w hw).1)
  have hle := (hall.subperm hsub).length_le
  rw [List.length_append, List.length_range] at hle
  exact hle

end Buffered

-- =============================================================== TDStep

/-- What `TDStep` keeps; `m` is the memory it began with. -/
structure Expanding (g : CSRGraph Nat) (m m' : Memory) : Prop where
  frame : m' = { m with
    parent := m'.parent, shared := m'.shared, scoutCount := m'.scoutCount }
  parent : m'.parent.length = g.numNodes
  changed : ∀ v < g.numNodes, m'.par v = m.par v
    ∨ (m.par v < 0 ∧ ∃ u ∈ m.window, v ∈ g.outs u ∧ m'.par v = u)
  shared : ∃ t, m'.shared = m.shared ++ t
    ∧ ∀ v ∈ t, v < g.numNodes ∧ m.par v < 0 ∧ 0 ≤ m'.par v
  nodup : m'.shared.Nodup

/-- What `TDStep` begins with. -/
structure Ready (g : CSRGraph Nat) (m : Memory) : Prop where
  parent : m.parent.length = g.numNodes
  encoded : ∀ v < g.numNodes, -2 ^ 31 < m.par v
  shared : ∀ v ∈ m.shared, v < g.numNodes ∧ 0 ≤ m.par v
  nodup : m.shared.Nodup

theorem Ready.window (h : Ready g m) : ∀ v ∈ m.window, v < g.numNodes := fun v hv =>
  (h.shared v (List.mem_of_mem_take (List.mem_of_mem_drop hv))).1

/-- The queue holds vertices of the graph. -/
theorem Expanding.shared_lt (h : Expanding g m m₁) (hm : Ready g m) :
    ∀ v ∈ m₁.shared, v < g.numNodes := by
  obtain ⟨t, ht, hlt⟩ := h.shared
  intro v hv
  rw [ht] at hv
  rcases List.mem_append.mp hv with hv | hv
  · exact (hm.shared v hv).1
  · exact (hlt v hv).1

/-- An unvisited vertex has the value it had, and is not in the queue. -/
theorem Expanding.unvisited (h : Expanding g m m₁) (hm : Ready g m) (hv : v < g.numNodes)
    (hneg : m₁.par v < 0) : m₁.par v = m.par v ∧ v ∉ m₁.shared := by
  rcases h.changed v hv with hsame | ⟨-, u, -, -, hu⟩
  · refine ⟨hsame, fun hmem => ?_⟩
    obtain ⟨t, ht, hpar⟩ := h.shared
    rw [ht] at hmem
    rcases List.mem_append.mp hmem with hmem | hmem
    · have hpos := (hm.shared v hmem).2
      omega
    · have hpos := (hpar v hmem).2.2
      omega
  · omega

/-- The step in which `u` wins `v`. -/
def Memory.win (m : Memory) (u v : Nat) (s : Int) : Memory :=
  { m with parent := m.parent.set v u, scoutCount := s }

/-- The parents after a vertex has been won. -/
theorem Expanding.par_win (h : Expanding g m m₁) (hv : v < g.numNodes) (s : Int) (w : Nat) :
    (m₁.win u v s).par w = if w = v then (u : Int) else m₁.par w := by
  have hv' : v < m₁.parent.length := h.parent ▸ hv
  exact Memory.par_set rfl hv' w

/-- Winning a vertex keeps what the loop keeps. -/
theorem Expanding.win (h : Expanding g m m₁) (hm : Ready g m) (hu : u ∈ m.window)
    (huv : v ∈ g.outs u) (hv : v < g.numNodes) (hneg : m₁.par v < 0) (s : Int) :
    Expanding g m (m₁.win u v s) where
  frame := by
    rw [h.frame]
    rfl
  parent := List.length_set.trans h.parent
  changed w hw := by
    rw [h.par_win hv]
    by_cases hwv : w = v
    · subst hwv
      rw [if_pos rfl]
      refine .inr ⟨?_, u, hu, huv, rfl⟩
      rw [← (h.unvisited hm hw hneg).1]
      exact hneg
    · rw [if_neg hwv]
      exact h.changed w hw
  shared := by
    obtain ⟨t, ht, hpar⟩ := h.shared
    refine ⟨t, ht, fun w hw => ⟨(hpar w hw).1, (hpar w hw).2.1, ?_⟩⟩
    rw [h.par_win hv]
    split
    · exact Int.natCast_nonneg u
    · exact (hpar w hw).2.2
  nodup := h.nodup

/-- The values of the thread with the share `share` of the window. -/
def Mine (g : CSRGraph Nat) (m m' : Memory) (share : List Nat) (v : Nat) : Prop :=
  v < g.numNodes ∧ m.par v < 0 ∧ ∃ u ∈ share, m'.par v = u

/-- A flush of vertices that were won keeps it too. -/
theorem Expanding.flush (h : Expanding g m m₁) {b : List Nat}
    (hb : ∀ v ∈ b, v < g.numNodes ∧ m.par v < 0 ∧ 0 ≤ m₁.par v)
    (hnd : (m₁.shared ++ b).Nodup) :
    Expanding g m { m₁ with shared := m₁.shared ++ b } where
  frame := by rw [h.frame]
  parent := h.parent
  changed := h.changed
  shared := by
    obtain ⟨t, ht, hpar⟩ := h.shared
    refine ⟨t ++ b, ?_, fun v hv => ?_⟩
    · show m₁.shared ++ b = _
      rw [ht, List.append_assoc]
    · rcases List.mem_append.mp hv with hv | hv
      · exact hpar v hv
      · exact hb v hv
  nodup := hnd

/-- The neighbours of `u` that the thread has still to look at. -/
def TDAt.Ahead (u v : Nat) : TDAt → Prop
  | .edges u' vs => u = u' ∧ v ∈ vs
  | .swap u' v' _ vs => u = u' ∧ (v = v' ∨ v ∈ vs)
  | .push u' _ vs => u = u' ∧ v ∈ vs
  | _ => False

def TDAt.pushing : TDAt → Option Nat
  | .push _ v _ => some v
  | _ => none

/-- What the thread knows of where it stands. -/
def TDAt.Knows (g : CSRGraph Nat) (m : Memory) (share : List Nat) : TDAt → Prop
  | .next => True
  | .edges u vs => u ∈ share ∧ ∀ v ∈ vs, v ∈ g.outs u
  | .swap u v currVal vs => u ∈ share ∧ (∀ w ∈ vs, w ∈ g.outs u) ∧ v ∈ g.outs u
      ∧ currVal < 0 ∧ currVal = m.par v
  | .push u _ vs => u ∈ share ∧ ∀ v ∈ vs, v ∈ g.outs u
  | .done => True

structure TDThread.Knows (g : CSRGraph Nat) (m : Memory) (share : List Nat) (m' : Memory)
    (l : TDThread) : Prop where
  todo : ∀ u ∈ l.todo, u ∈ share
  covers : ∀ u ∈ share, u ∈ l.todo ∨ ∀ v ∈ g.outs u, l.pc.Ahead u v ∨ 0 ≤ m'.par v
  buffered : Buffered (Mine g m m' share) m'.shared l.buffer l.pc.pushing
  pc : l.pc.Knows g m share
  done : l.pc = .done → l.todo = [] ∧ l.buffer = []

def TDAt.toGo (buffer : List Nat) : TDAt → Nat
  | .next => 1
  | .edges _ vs => 5 * vs.length + 2
  | .swap _ _ _ vs => 5 * vs.length + 6
  | .push _ _ vs => 5 * vs.length + 3 + if buffer.length = SlidingQueue.localSize then 1 else 0
  | .done => 0

def TDThread.toGo (g : CSRGraph Nat) (l : TDThread) : Nat :=
  (l.todo.map fun u => 5 * (g.outs u).length + 2).sum + l.pc.toGo l.buffer

/-- What a step does to the memory. -/
inductive TDEffect (g : CSRGraph Nat) (m : Memory) (share : List Nat) (m₁ : Memory) :
    Memory → Prop
  | read : TDEffect g m share m₁ m₁
  | won {u v : Nat} (s : Int) : u ∈ share → v ∈ g.outs u → v < g.numNodes → m₁.par v < 0 →
      TDEffect g m share m₁ (m₁.win u v s)
  | flushed {b : List Nat} : (∀ v ∈ b, Mine g m m₁ share v) → (m₁.shared ++ b).Nodup →
      TDEffect g m share m₁ { m₁ with shared := m₁.shared ++ b }

variable {share : List Nat}

/-- A thread's vertices have been visited in this step. -/
theorem Mine.visited (h : Mine g m m₁ share v) :
    v < g.numNodes ∧ m.par v < 0 ∧ 0 ≤ m₁.par v := by
  obtain ⟨hv, hneg, u, -, hu⟩ := h
  exact ⟨hv, hneg, hu ▸ Int.natCast_nonneg u⟩

/-- Visited vertices stay visited. -/
theorem TDEffect.visited (he : TDEffect g m share m₁ m₂) (h : Expanding g m m₁)
    (hpos : 0 ≤ m₁.par v) : 0 ≤ m₂.par v := by
  cases he with
  | read => exact hpos
  | won s hu huv hv hneg =>
      rw [h.par_win hv]
      split
      · exact Int.natCast_nonneg _
      · exact hpos
  | flushed => exact hpos

/-- A step of another thread, whose share is disjoint. -/
theorem TDThread.Knows.frame {share' : List Nat} {l : TDThread} (hl : l.Knows g m share m₁)
    (h : Expanding g m m₁) (he : TDEffect g m share' m₁ m₂)
    (hdisj : ∀ u ∈ share, u ∉ share') : l.Knows g m share m₂ where
  todo := hl.todo
  covers u hu := (hl.covers u hu).imp_right fun hall v hv =>
    (hall v hv).imp_right (he.visited h)
  buffered := by
    cases he with
    | read => exact hl.buffered
    | @won u v s hu huv hv hneg =>
        refine hl.buffered.congr fun w => ?_
        unfold Mine
        rw [h.par_win hv]
        by_cases hwv : w = v
        · -- the vertex was not the thread's and is now another one's
          subst hwv
          rw [if_pos rfl]
          constructor
          · rintro ⟨-, -, u', hu', heq⟩
            have huu : u = u' := Int.natCast_inj.mp heq
            exact absurd hu (huu ▸ hdisj u' hu')
          · rintro ⟨-, -, u', -, heq⟩
            omega
        · rw [if_neg hwv]
    | @flushed b hb hnd =>
        refine hl.buffered.other fun w hw hmine => ?_
        obtain ⟨-, -, u, hu, hpar⟩ := hmine
        obtain ⟨-, -, u', hu', hpar'⟩ := hb w hw
        have huu : u = u' := Int.natCast_inj.mp (hpar.symm.trans hpar')
        exact hdisj u hu (huu ▸ hu')
  pc := hl.pc
  done := hl.done

section Next

variable {id : Nat} {todo b vs : List Nat} {currVal : Int}

end Next

/-- What a thread has in its buffer has room in the queue. -/
theorem Expanding.fits (h : Expanding g m m₁) (hm : Ready g m) {l : TDThread}
    (hl : l.Knows g m share m₁) : (m₁.shared ++ l.buffer).Nodup
      ∧ m₁.shared.length + l.buffer.length ≤ g.numNodes :=
  hl.buffered.fits h.nodup (h.shared_lt hm) fun _ hv => hv.1

/-- A step that leaves the memory alone passes on what the thread knows. -/
theorem TDThread.Knows.move {id : Nat} {todo todo' b : List Nat} {pc pc' : TDAt}
    (hl : TDThread.Knows g m share m₁ ⟨id, todo, b, pc⟩)
    (htodo : ∀ u ∈ todo', u ∈ todo) (hpc : pc'.Knows g m share)
    (hcov : ∀ u ∈ share, (u ∈ todo ∨ ∀ v ∈ g.outs u, pc.Ahead u v ∨ 0 ≤ m₁.par v) →
      u ∈ todo' ∨ ∀ v ∈ g.outs u, pc'.Ahead u v ∨ 0 ≤ m₁.par v)
    (hpush : pc'.pushing = pc.pushing) (hdone : pc' ≠ .done) :
    TDThread.Knows g m share m₁ ⟨id, todo', b, pc'⟩ where
  todo u hu := hl.todo u (htodo u hu)
  covers u hu := hcov u hu (hl.covers u hu)
  buffered := hpush ▸ hl.buffered
  pc := hpc
  done h := absurd h hdone

/-- The shares of the window, by thread. -/
structure Shares (items : List Nat) (share : Nat → List Nat) : Prop where
  mem : ∀ i, ∀ u ∈ share i, u ∈ items
  disjoint : ∀ i j, i ≠ j → ∀ u ∈ share i, u ∉ share j

/-- The shares of a window without repetitions are disjoint. -/
theorem shares_of_perm {items : List Nat} (hnd : items.Nodup) {shares : List (List Nat)}
    (hperm : shares.flatten.Perm items) : Shares items fun i => shares.getD i [] := by
  have hmem : ∀ i, ∀ u ∈ shares.getD i [], ∃ hi : i < shares.length, u ∈ shares[i] := by
    intro i u hu
    by_cases hi : i < shares.length
    · rw [List.getD_eq_getElem?_getD, List.getElem?_eq_getElem hi, Option.getD_some] at hu
      exact ⟨hi, hu⟩
    · rw [List.getD_eq_getElem?_getD, List.getElem?_eq_none (by omega), Option.getD_none] at hu
      cases hu
  refine ⟨fun i u hu => ?_, fun i j hij u hi hj => ?_⟩
  · obtain ⟨hi, hu⟩ := hmem i u hu
    exact hperm.mem_iff.mp (List.mem_flatten.mpr ⟨_, List.getElem_mem hi, hu⟩)
  · obtain ⟨hi', hi⟩ := hmem i u hi
    obtain ⟨hj', hj⟩ := hmem j u hj
    have hpair := (List.nodup_flatten.mp (hperm.nodup_iff.mpr hnd)).2
    rcases Nat.lt_or_gt_of_ne hij with hlt | hlt
    · exact List.pairwise_iff_getElem.mp hpair i j hi' hj' hlt hi hj
    · exact List.pairwise_iff_getElem.mp hpair j i hj' hi' hlt hj hi

/-- Every vertex of the window is in some share. -/
theorem exists_share {items : List Nat} {shares : List (List Nat)}
    (hperm : shares.flatten.Perm items) (hu : u ∈ items) :
    ∃ i < shares.length, u ∈ shares.getD i [] := by
  obtain ⟨share, hshare, hu⟩ := List.mem_flatten.mp (hperm.mem_iff.mpr hu)
  obtain ⟨i, hi, rfl⟩ := List.getElem_of_mem hshare
  refine ⟨i, hi, ?_⟩
  rw [List.getD_eq_getElem?_getD, List.getElem?_eq_getElem hi, Option.getD_some]
  exact hu

/-- What the loop of `BitmapToQueue` keeps; `m` is the memory it began
with. -/
structure Filling (g : CSRGraph Nat) (m m' : Memory) : Prop where
  frame : m' = { m with shared := m'.shared }
  shared : ∃ t, m'.shared = m.shared ++ t ∧ ∀ v ∈ t, v < g.numNodes ∧ bit m.front v
  nodup : m'.shared.Nodup

theorem Filling.front (h : Filling g m m₁) : m₁.front = m.front := by
  rw [h.frame]

/-- A flush of marked vertices keeps what the loop keeps. -/
theorem Filling.flush (h : Filling g m m₁) {b : List Nat}
    (hb : ∀ v ∈ b, v < g.numNodes ∧ bit m.front v) (hnd : (m₁.shared ++ b).Nodup) :
    Filling g m { m₁ with shared := m₁.shared ++ b } where
  frame := by rw [h.frame]
  shared := by
    obtain ⟨t, ht, hbit⟩ := h.shared
    refine ⟨t ++ b, ?_, fun v hv => ?_⟩
    · show m₁.shared ++ b = _
      rw [ht, List.append_assoc]
    · rcases List.mem_append.mp hv with hv | hv
      · exact hbit v hv
      · exact hb v hv
  nodup := hnd

/-- The thread's vertices with a bit that it has come to. -/
def Passed (m : Memory) (share todo : List Nat) (v : Nat) : Prop :=
  v ∈ share ∧ v ∉ todo ∧ bit m.front v

def BQAt.pushing : BQAt → Option Nat
  | .push n => some n
  | _ => none

structure BQThread.Knows (m : Memory) (share : List Nat) (m' : Memory) (l : BQThread) :
    Prop where
  todo : l.todo <:+ share
  ahead : ∀ v ∈ l.todo, bit m.front v → v ∉ m'.shared
  buffered : Buffered (Passed m share l.todo) m'.shared l.buffer l.pc.pushing
  done : l.pc = .done → l.todo = [] ∧ l.buffer = []

def BQThread.toGo (l : BQThread) : Nat :=
  4 * l.todo.length + match l.pc with
    | .next => 1
    | .push _ => 3 + if l.buffer.length = SlidingQueue.localSize then 1 else 0
    | .done => 0

/-- What `BitmapToQueue` begins with. -/
structure Marked (g : CSRGraph Nat) (m : Memory) : Prop where
  front : m.front.length = g.numNodes
  shared : ∀ v ∈ m.shared, v < g.numNodes ∧ ¬ bit m.front v
  nodup : m.shared.Nodup

/-- A share of the vertices. -/
structure Share (g : CSRGraph Nat) (share : List Nat) : Prop where
  lt : ∀ v ∈ share, v < g.numNodes
  nodup : share.Nodup

/-- The queue holds vertices of the graph. -/
theorem Filling.shared_lt (h : Filling g m m₁) (hm : Marked g m) :
    ∀ v ∈ m₁.shared, v < g.numNodes := by
  obtain ⟨t, ht, hlt⟩ := h.shared
  intro v hv
  rw [ht] at hv
  rcases List.mem_append.mp hv with hv | hv
  · exact (hm.shared v hv).1
  · exact (hlt v hv).1

/-- What a thread has in its buffer has room in the queue. -/
theorem Filling.fits (h : Filling g m m₁) (hm : Marked g m) (hs : Share g share)
    {l : BQThread} (hl : l.Knows m share m₁) : (m₁.shared ++ l.buffer).Nodup
      ∧ m₁.shared.length + l.buffer.length ≤ g.numNodes :=
  hl.buffered.fits h.nodup (h.shared_lt hm) fun v hv => hs.lt v hv.1

/-- The thread's own flush. -/
theorem BQThread.Knows.flush {id : Nat} {todo b : List Nat} {pc pc' : BQAt}
    (hl : BQThread.Knows m share m₁ ⟨id, todo, b, pc⟩) (hpc : pc'.pushing = pc.pushing)
    (hdone : pc' = .done → todo = []) :
    BQThread.Knows m share { m₁ with shared := m₁.shared ++ b } ⟨id, todo, [], pc'⟩ where
  todo := hl.todo
  ahead v hv hbit hmem := by
    rcases List.mem_append.mp hmem with hmem | hmem
    · exact hl.ahead v hv hbit hmem
    · exact (hl.buffered.fresh v hmem).1.2.1 hv
  buffered := hpc ▸ hl.buffered.flush
  done hd := ⟨hdone hd, rfl⟩

end ThesisBench.Gapbs.Bfs

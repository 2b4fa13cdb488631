/-
What the threads of `DeltaStep` do up to the first barrier of a turn,
whatever the order of their steps.

An edge that could still lower a label is never forgotten: its source is
in the bin of its label, or some thread has still to come to the edge
(`Working.cover`). A label is only ever lowered to a value that is not
below the current bin, so what lies below the bin is final
(`Working.low`), and after the votes the next bin is the first one that
holds anything. Every successful swap lowers a label, which pays for the
entry it adds to a bin and for the swaps it makes fail elsewhere.
-/
import ThesisBench.Gapbs.Proofs.Csr
import ThesisBench.Gapbs.Sssp
import Mathlib.Algebra.Order.Ring.Int
import Mathlib.Data.List.Flatten

namespace ThesisBench.Gapbs.Sssp

open Parallel Relax

variable {g : CSRGraph NodeWeight} {delta : Int} {m m' : Memory} {t u v b : Nat} {d : Int}

-- ================================================================= sums

/-- A sum after one summand has changed and the others have grown a bit. -/
theorem sum_set_le {α : Type} {f f' : α → Nat} {ts : List α} {i c k : Nat} {l l' : α}
    (hi : ts[i]? = some l) (hown : f' l' ≤ f l + k)
    (hother : ∀ j m, j ≠ i → ts[j]? = some m → f' m ≤ f m + c) :
    ((ts.set i l').map f').sum ≤ (ts.map f).sum + c * ts.length + k := by
  have htail : ∀ ms : List α, (∀ m ∈ ms, f' m ≤ f m + c) →
      (ms.map f').sum ≤ (ms.map f).sum + c * ms.length := by
    intro ms
    induction ms with
    | nil => simp
    | cons m ms ih =>
        intro hms
        have hm := hms m List.mem_cons_self
        have hms' := ih fun m' hm' => hms m' (List.mem_cons_of_mem _ hm')
        simp only [List.map_cons, List.sum_cons, List.length_cons, Nat.mul_add]
        omega
  induction ts generalizing i with
  | nil => cases hi
  | cons m ts ih =>
      cases i with
      | zero =>
          cases hi
          have h := htail ts fun m hm => by
            obtain ⟨j, hj⟩ := List.getElem?_of_mem hm
            exact hother (j + 1) m (by omega) hj
          simp only [List.set_cons_zero, List.map_cons, List.sum_cons, List.length_cons,
            Nat.mul_add]
          omega
      | succ i =>
          have hhead := hother 0 m (by omega) rfl
          have h := ih hi fun j m' hj hm' => hother (j + 1) m' (by omega) hm'
          simp only [List.set_cons_succ, List.map_cons, List.sum_cons, List.length_cons,
            Nat.mul_add]
          omega

-- =============================================================== labels

/-- `dist[v]` -/
def Memory.label (m : Memory) (v : Nat) : Int := m.dist.getD v 0

theorem Memory.get_label (h : v < m.dist.length) : m.dist[v]? = some (m.label v) := by
  rw [Memory.label, List.getD_eq_getElem?_getD, List.getElem?_eq_getElem h, Option.getD_some]

theorem Memory.label_lower (hv : v < m.dist.length) (u : Nat) :
    (m.lower delta t v d).label u = if u = v then d else m.label u :=
  Slots.getD_set hv d 0 u

-- ================================================================= bins

/-- What stands in a bin of a thread. -/
def Memory.bin (m : Memory) (t b : Nat) : List Nat := (m.binsOf t).getD b []

theorem getD_pad (bins : List (List Nat)) (k c : Nat) :
    (bins ++ List.replicate k []).getD c [] = bins.getD c [] := by
  rw [List.getD_eq_getElem?_getD, List.getD_eq_getElem?_getD, List.getElem?_append]
  split
  case isTrue => rfl
  case isFalse hc =>
    rw [List.getElem?_eq_none (Nat.le_of_not_lt hc), List.getElem?_replicate]
    split <;> rfl

theorem lt_length_pad (bins : List (List Nat)) (b : Nat) :
    b < (bins ++ List.replicate (b + 1 - bins.length) []).length := by
  rw [List.length_append, List.length_replicate]
  omega

/-- The entries after a bin has been exchanged. -/
theorem length_flatten_set {bins : List (List Nat)} (hb : b < bins.length) (x : List Nat) :
    (bins.set b x).flatten.length + (bins.getD b []).length
      = bins.flatten.length + x.length := by
  have h := sum_map_set List.length (List.getElem?_eq_getElem hb) x
  rw [List.length_flatten, List.length_flatten, List.getD_eq_getElem?_getD,
    List.getElem?_eq_getElem hb, Option.getD_some]
  exact h

theorem getD_pushBin (bins : List (List Nat)) (b v c : Nat) :
    (pushBin bins b v).getD c [] = if c = b then bins.getD b [] ++ [v] else bins.getD c [] := by
  rw [pushBin, Slots.getD_set (lt_length_pad bins b), getD_pad, getD_pad]

theorem length_flatten_pushBin (bins : List (List Nat)) (b v : Nat) :
    (pushBin bins b v).flatten.length = bins.flatten.length + 1 := by
  have h := length_flatten_set (lt_length_pad bins b) (bins.getD b [] ++ [v])
  have hpad : (bins ++ List.replicate (b + 1 - bins.length) []).flatten.length
      = bins.flatten.length := by simp
  rw [getD_pad, hpad, List.length_append, List.length_singleton] at h
  rw [pushBin, getD_pad]
  omega

/-- The bins after one has been cleared. -/
theorem getD_clear (bins : List (List Nat)) (c b : Nat) :
    (bins.set c []).getD b [] = if b = c then [] else bins.getD b [] := by
  by_cases hc : c < bins.length
  · exact Slots.getD_set hc [] [] b
  · rw [List.set_eq_of_length_le (Nat.le_of_not_lt hc)]
    split
    case isTrue hb =>
      subst hb
      rw [List.getD_eq_getElem?_getD, List.getElem?_eq_none (Nat.le_of_not_lt hc)]
      rfl
    case isFalse => rfl

/-- Clearing a bin takes its entries away. -/
theorem length_flatten_clear (bins : List (List Nat)) (b : Nat) :
    (bins.set b []).flatten.length + (bins.getD b []).length = bins.flatten.length := by
  by_cases hb : b < bins.length
  · exact length_flatten_set hb []
  · rw [List.set_eq_of_length_le (Nat.le_of_not_lt hb), List.getD_eq_getElem?_getD,
      List.getElem?_eq_none (Nat.le_of_not_lt hb)]
    rfl

/-- The bins after a thread's have been exchanged. -/
theorem Memory.binsOf_set (ht : t < m.localBins.length) (bins : List (List Nat))
    (hm : m'.localBins = m.localBins.set t bins) (t' : Nat) :
    m'.binsOf t' = if t' = t then bins else m.binsOf t' := by
  rw [Memory.binsOf, hm]
  exact Slots.getD_set ht bins [] t'

/-- The bins after a label has been lowered. -/
theorem Memory.bin_lower (ht : t < m.localBins.length) (t' b : Nat) :
    (m.lower delta t v d).bin t' b
      = if t' = t ∧ b = destBin delta d then m.bin t' b ++ [v] else m.bin t' b := by
  rw [Memory.bin, Memory.binsOf_set ht _ rfl]
  by_cases htt : t' = t
  · subst htt
    rw [if_pos rfl, getD_pushBin]
    by_cases hb : b = destBin delta d
    · rw [if_pos hb, if_pos ⟨rfl, hb⟩, hb]
      rfl
    · rw [if_neg hb, if_neg fun h => hb h.2]
      rfl
  · rw [if_neg htt, if_neg fun h => htt h.1]
    rfl

/-- The bins after one has been cleared. -/
theorem Memory.bin_clear {c : Nat} (ht : t < m.localBins.length)
    (hm : m'.localBins = m.localBins.set t ((m.binsOf t).set c [])) (t' b : Nat) :
    m'.bin t' b = if t' = t ∧ b = c then [] else m.bin t' b := by
  rw [Memory.bin, Memory.binsOf_set ht _ hm]
  by_cases htt : t' = t
  · subst htt
    rw [if_pos rfl, getD_clear]
    by_cases hb : b = c
    · rw [if_pos hb, if_pos ⟨rfl, hb⟩]
    · rw [if_neg hb, if_neg fun h => hb h.2]
      rfl
  · rw [if_neg htt, if_neg fun h => htt h.1]
    rfl

/-- How many entries the bins have. -/
def Memory.entries (m : Memory) : Nat := (m.localBins.map fun bins => bins.flatten.length).sum

/-- What the labels can still be lowered by. -/
def Memory.potential (m : Memory) : Nat := (m.dist.map Int.toNat).sum

theorem Memory.get_binsOf (ht : t < m.localBins.length) :
    m.localBins[t]? = some (m.binsOf t) := by
  rw [Memory.binsOf, List.getD_eq_getElem?_getD, List.getElem?_eq_getElem ht, Option.getD_some]

theorem Memory.entries_lower (ht : t < m.localBins.length) :
    (m.lower delta t v d).entries = m.entries + 1 := by
  have h := sum_map_set (fun bins => bins.flatten.length) (m.get_binsOf ht)
    (pushBin (m.binsOf t) (destBin delta d) v)
  rw [length_flatten_pushBin] at h
  have hm : (m.lower delta t v d).localBins
      = m.localBins.set t (pushBin (m.binsOf t) (destBin delta d) v) := rfl
  unfold Memory.entries
  rw [hm]
  omega

/-- Clearing a bin takes its entries away. -/
theorem Memory.entries_clear {c : Nat} (ht : t < m.localBins.length)
    (hm : m'.localBins = m.localBins.set t ((m.binsOf t).set c [])) :
    m'.entries + (m.bin t c).length = m.entries := by
  have h := sum_map_set (fun bins => bins.flatten.length) (m.get_binsOf ht)
    ((m.binsOf t).set c [])
  have hclear := length_flatten_clear (m.binsOf t) c
  unfold Memory.entries Memory.bin
  rw [hm]
  omega

theorem Memory.potential_lower (hv : v < m.dist.length) (h₀ : 0 ≤ d) (hlt : d < m.label v) :
    (m.lower delta t v d).potential < m.potential := by
  refine sum_set_lt (m.get_label hv) ?_ fun _ _ _ _ => Nat.le_refl _
  omega

-- ============================================================ invariants

/-- The edge `wn` of `u` lowers no label. -/
def Memory.Relaxes (m : Memory) (u : Nat) (wn : NodeWeight) : Prop :=
  m.label wn.v ≤ m.label u + wn.w.toInt

/-- The least distance of the current bin. -/
def Memory.floor (delta : Int) (m : Memory) : Int := delta * m.currBinIndex

/-- The bin that the label of `u` belongs to holds it. -/
def Memory.Binned (delta : Int) (m : Memory) (u : Nat) : Prop :=
  ∃ t, u ∈ m.bin t (destBin delta (m.label u))

/-- Where a bin holds one distance only, a vertex is in it once: its label
is lowered with every entry. -/
structure Once (g : CSRGraph NodeWeight) (m : Memory) : Prop where
  nodup : ∀ b, ((List.range m.localBins.length).flatMap fun t => m.bin t b).Nodup
  le : ∀ t b, ∀ v ∈ m.bin t b, m.label v ≤ b
  target : ∀ t b, ∀ v ∈ m.bin t b, ∃ u < g.numNodes, ∃ wn ∈ g.outs u, wn.v = v

/-- What holds of the memory throughout. -/
structure Tidy (g : CSRGraph NodeWeight) (delta : Int) (source : Nat) (m : Memory) : Prop where
  length : m.dist.length = g.numNodes
  sound : ∀ v < g.numNodes, Sound (Arc g) source kDistInf v (m.label v)
  nonneg : ∀ v < g.numNodes, 0 ≤ m.label v
  start : m.label source ≤ 0
  entry : ∀ t b, ∀ v ∈ m.bin t b, v < g.numNodes ∧ delta * b < kDistInf
  low : ∀ u < g.numNodes, ∀ wn ∈ g.outs u, m.label u < m.floor delta → m.Relaxes u wn
  once : delta = 1 → Once g m

/-- A call of `RelaxEdges(u)` with the edges `wns` to go. -/
structure Call (g : CSRGraph NodeWeight) (delta : Int) (m : Memory) (u : Nat)
    (wns : List NodeWeight) : Prop where
  lt : u < g.numNodes
  floor_le : m.floor delta ≤ m.label u
  outs : ∀ wn ∈ wns, wn ∈ g.outs u

/-- A distance that a thread is about to store. -/
structure Offer (g : CSRGraph NodeWeight) (delta : Int) (source : Nat) (m : Memory) (u : Nat)
    (wn : NodeWeight) (newDist : Int) : Prop where
  relaxes : m.label u + wn.w.toInt ≤ newDist
  floor_le : m.floor delta ≤ newDist
  nonneg : 0 ≤ newDist
  lt : newDist < kDistInf
  sound : Sound (Arc g) source kDistInf wn.v newDist

/-- What a thread may assume where it stands. -/
def At.Fine (g : CSRGraph NodeWeight) (delta : Int) (source : Nat) (m : Memory) : At → Prop
  | .next => True
  | .edges u wns => Call g delta m u wns
  | .add u wn oldDist wns =>
      Call g delta m u (wn :: wns) ∧ m.label wn.v ≤ oldDist ∧ oldDist ≤ kDistInf
  | .swap u wn oldDist newDist wns => Call g delta m u (wn :: wns)
      ∧ m.label wn.v ≤ oldDist ∧ newDist < oldDist ∧ Offer g delta source m u wn newDist
  | .reload u wn newDist wns =>
      Call g delta m u (wn :: wns) ∧ Offer g delta source m u wn newDist
  | .done => True

/-- The edge `wn` of `u` is one that the call has still to come to. -/
def At.Owes (m : Memory) (u : Nat) (wn : NodeWeight) : At → Prop
  | .next => False
  | .edges u' wns => u' = u ∧ wn ∈ wns
  | .add u' wn' _ wns => u' = u ∧ (wn' = wn ∨ wn ∈ wns)
  | .swap u' wn' _ newDist wns =>
      u' = u ∧ (wn' = wn ∧ newDist ≤ m.label u + wn.w.toInt ∨ wn ∈ wns)
  | .reload u' wn' newDist wns =>
      u' = u ∧ (wn' = wn ∧ newDist ≤ m.label u + wn.w.toInt ∨ wn ∈ wns)
  | .done => False

/-- The same for the thread. -/
def Thread.Owes (m : Memory) (u : Nat) (wn : NodeWeight) (l : Thread) : Prop :=
  (∃ i ∈ l.todo, m.frontier i = some u) ∨ u ∈ l.binCopy ∨ l.pc.Owes m u wn

/-- What a region leaves alone. -/
structure Frame (m₀ m : Memory) : Prop where
  frontier : m.frontier = m₀.frontier
  currBinIndex : m.currBinIndex = m₀.currBinIndex
  currFrontierTail : m.currFrontierTail = m₀.currFrontierTail
  nextFrontierTail : m.nextFrontierTail = m₀.nextFrontierTail
  overrun : m.overrun = m₀.overrun
  localBins : m.localBins.length = m₀.localBins.length

/-- The threads and the memory in a region that started from `m₀`. -/
structure Working (g : CSRGraph NodeWeight) (delta : Int) (source : Nat) (m₀ : Memory)
    (ts : List Thread) (m : Memory) : Prop where
  tidy : Tidy g delta source m
  frame : Frame m₀ m
  team : ts.map (·.id) = List.range m₀.localBins.length
  todo : ∀ l ∈ ts, ∀ i ∈ l.todo, ∃ u < g.numNodes, m.frontier i = some u
  copied : ∀ l ∈ ts, ∀ u ∈ l.binCopy, u < g.numNodes ∧ m.floor delta ≤ m.label u
  fine : ∀ l ∈ ts, l.pc.Fine g delta source m
  current : ∀ t, ∀ v ∈ m.bin t m.currBinIndex, m.floor delta ≤ m.label v
  cover : ∀ u < g.numNodes, ∀ wn ∈ g.outs u,
    m.Relaxes u wn ∨ m.Binned delta u ∨ ∃ l ∈ ts, l.Owes m u wn
  votes : ∀ l ∈ ts, l.pc = .done → l.todo = [] ∧ l.binCopy = []
    ∧ ∀ b, m.currBinIndex ≤ b → m.bin l.id b ≠ [] → m.nextBinIndex ≤ b
  chosen : m.nextBinIndex = kMaxBin
    ∨ ∃ l ∈ ts, l.pc = .done ∧ m.bin l.id m.nextBinIndex ≠ []
  budget : m.potential + m.entries ≤ m₀.potential + m₀.entries

-- ============================================================= the team

variable {source : Nat} {m₀ : Memory} {ts : List Thread} {l l' x : Thread} {i : Nat}

/-- After a step the threads are the one that moved and the others. -/
theorem Working.mem_set (h : Working g delta source m₀ ts m) (hi : ts[i]? = some l)
    (hx : x ∈ ts.set i l') : x = l' ∨ (x ∈ ts ∧ x.id ≠ l.id) := by
  obtain ⟨j, hj⟩ := List.getElem?_of_mem hx
  rw [List.getElem?_set] at hj
  split at hj
  case isTrue hij =>
    split at hj
    case isTrue =>
      cases hj
      exact .inl rfl
    case isFalse => cases hj
  case isFalse hij =>
    refine .inr ⟨List.mem_of_getElem? hj, fun hid => hij ?_⟩
    have hnd : (ts.map (·.id)).Nodup := h.team ▸ List.nodup_range
    have hlen : i < (ts.map (·.id)).length := by
      rw [List.length_map]
      exact (List.getElem?_eq_some_iff.mp hi).1
    refine (List.getElem?_inj hlen hnd).mp ?_
    rw [List.getElem?_map, List.getElem?_map, hi, hj, Option.map_some, Option.map_some, hid]

theorem mem_set_self (hi : ts[i]? = some l) (l' : Thread) : l' ∈ ts.set i l' :=
  List.mem_set (List.getElem?_eq_some_iff.mp hi).1 l'

theorem Working.team_set (h : Working g delta source m₀ ts m) (hi : ts[i]? = some l)
    (hid : l'.id = l.id) : (ts.set i l').map (·.id) = List.range m₀.localBins.length :=
  (map_set_self hi hid).trans h.team

theorem Working.id_lt (h : Working g delta source m₀ ts m) (hl : l ∈ ts) :
    l.id < m.localBins.length := by
  rw [h.frame.localBins, ← List.mem_range, ← h.team]
  exact List.mem_map_of_mem hl

/-- The others are not what has changed. -/
theorem exists_mem_set (hi : ts[i]? = some l) (l' : Thread) {P : Thread → Prop}
    (hex : ∃ x ∈ ts, P x) (hl : ¬ P l) : ∃ x ∈ ts.set i l', P x := by
  obtain ⟨x, hx, hP⟩ := hex
  exact ⟨x, mem_set_of_ne hi hx fun heq => hl (heq ▸ hP), hP⟩

-- ================================================================= costs

/-- What is left to do of a call. A swap whose label has changed since
must go round once more. -/
def At.cost (m : Memory) : At → Nat
  | .next => 1
  | .edges _ wns => 5 * wns.length + 2
  | .add _ _ _ wns => 5 * wns.length + 6
  | .swap _ wn oldDist _ wns => 5 * wns.length + if m.label wn.v = oldDist then 3 else 5
  | .reload _ _ _ wns => 5 * wns.length + 4
  | .done => 0

/-- What a visit of a vertex may cost. -/
def visit (g : CSRGraph NodeWeight) : Nat :=
  5 * ((List.range g.numNodes).map fun u => (g.outs u).length).sum + 2

/-- What is left to do for a thread, were no label lowered any more. -/
def Thread.cost (g : CSRGraph NodeWeight) (m : Memory) (l : Thread) : Nat :=
  (l.todo.length + l.binCopy.length) * visit g
    + (m.bin l.id m.currBinIndex).length * (visit g + 1) + l.pc.cost m

/-- A vertex's edges cost no more than a visit. -/
theorem cost_outs_le (hu : u < g.numNodes) : 5 * (g.outs u).length + 2 ≤ visit g := by
  have hmem : (g.outs u).length ∈ (List.range g.numNodes).map fun u => (g.outs u).length :=
    List.mem_map.mpr ⟨u, List.mem_range.mpr hu, rfl⟩
  have hle := List.single_le_sum (fun x _ => Nat.zero_le x) _ hmem
  unfold visit
  omega

/-- The test of a distance costs less than the read before it. -/
theorem cost_testDist (m : Memory) (u : Nat) (wn : NodeWeight) (oldDist newDist : Int)
    (wns : List NodeWeight) :
    (testDist u wn oldDist newDist wns).cost m < 5 * wns.length + 6 := by
  unfold testDist
  split
  case isTrue =>
    simp only [At.cost]
    split <;> omega
  case isFalse =>
    simp only [At.cost]
    omega

/-- A label that was just read has not changed. -/
theorem cost_testDist_label (m : Memory) (u : Nat) (wn : NodeWeight) (newDist : Int)
    (wns : List NodeWeight) :
    (testDist u wn (m.label wn.v) newDist wns).cost m < 5 * wns.length + 4 := by
  unfold testDist
  split
  case isTrue =>
    simp only [At.cost, if_true]
    omega
  case isFalse =>
    simp only [At.cost]
    omega

-- ================================================= steps of a thread alone

/-- A step that changes nothing but the thread, and forgets no edge. -/
structure Quiet (g : CSRGraph NodeWeight) (delta : Int) (source : Nat) (m : Memory)
    (l l' : Thread) : Prop where
  id : l'.id = l.id
  todo : ∀ j ∈ l'.todo, j ∈ l.todo
  copied : ∀ u ∈ l'.binCopy, u ∈ l.binCopy
  fine : l'.pc.Fine g delta source m
  owes : ∀ u < g.numNodes, ∀ wn ∈ g.outs u, l.Owes m u wn → m.Relaxes u wn ∨ l'.Owes m u wn
  awake : l.pc ≠ .done
  awake' : l'.pc ≠ .done
  cost : l'.cost g m < l.cost g m

/-- A quiet step keeps what the region keeps. -/
theorem Working.quiet (h : Working g delta source m₀ ts m) (hi : ts[i]? = some l)
    (hq : Quiet g delta source m l l') : Working g delta source m₀ (ts.set i l') m := by
  have hl := List.mem_of_getElem? hi
  obtain ⟨hid, htodo, hcopy, hfine, howes, hpc, hpc', -⟩ := hq
  refine { h with team := h.team_set hi hid, todo := ?_, copied := ?_, fine := ?_,
                  cover := ?_, votes := ?_, chosen := ?_ }
  · intro x hx
    rcases h.mem_set hi hx with rfl | ⟨hx, -⟩
    · exact fun j hj => h.todo l hl j (htodo j hj)
    · exact h.todo x hx
  · intro x hx
    rcases h.mem_set hi hx with rfl | ⟨hx, -⟩
    · exact fun u hu => h.copied l hl u (hcopy u hu)
    · exact h.copied x hx
  · intro x hx
    rcases h.mem_set hi hx with rfl | ⟨hx, -⟩
    · exact hfine
    · exact h.fine x hx
  · intro u hu wn hwn
    rcases h.cover u hu wn hwn with hrel | hbin | ⟨x, hx, hxo⟩
    · exact .inl hrel
    · exact .inr (.inl hbin)
    · by_cases hxl : x = l
      · subst hxl
        rcases howes u hu wn hwn hxo with hrel | ho
        · exact .inl hrel
        · exact .inr (.inr ⟨l', mem_set_self hi l', ho⟩)
      · exact .inr (.inr ⟨x, mem_set_of_ne hi hx hxl, hxo⟩)
  · intro x hx hxd
    rcases h.mem_set hi hx with rfl | ⟨hx, -⟩
    · exact absurd hxd hpc'
    · exact h.votes x hx hxd
  · exact h.chosen.imp id fun hex => exists_mem_set hi l' hex fun hP => hpc hP.1

-- ======================================================= successful swaps

/-- The bin of a distance is its quotient by `delta`. -/
theorem destBin_eq (h₀ : 0 ≤ d) : (destBin delta d : Int) = (d / delta).toNat := by
  rw [destBin, Int.tdiv_eq_ediv_of_nonneg h₀]

/-- A bin's least distance is not above the distance. -/
theorem mul_destBin_le (hdelta : 0 < delta) (h₀ : 0 ≤ d) : delta * destBin delta d ≤ d := by
  rw [destBin_eq h₀, Int.toNat_of_nonneg (Int.ediv_nonneg h₀ hdelta.le)]
  exact Int.mul_ediv_self_le hdelta.ne'

/-- The next bin's least distance is above it. -/
theorem lt_mul_destBin (hdelta : 0 < delta) (h₀ : 0 ≤ d) :
    d < delta * (destBin delta d + 1) := by
  rw [destBin_eq h₀, Int.toNat_of_nonneg (Int.ediv_nonneg h₀ hdelta.le), Int.mul_add,
    Int.mul_one]
  exact Int.lt_mul_ediv_self_add hdelta

/-- What the others may assume survives a label that is lowered to a value
of the current bin or above. -/
theorem Offer.mono {wn : NodeWeight} {n : Int} (h : Offer g delta source m u wn n)
    (hfloor : m'.floor delta = m.floor delta) (hle : m'.label u ≤ m.label u) :
    Offer g delta source m' u wn n :=
  { h with relaxes := by have := h.relaxes; omega, floor_le := hfloor ▸ h.floor_le }

/-- What a thread may assume stays true while labels go down to the floor. -/
theorem At.Fine.mono {pc : At} (h : pc.Fine g delta source m)
    (hfloor : m'.floor delta = m.floor delta) (hle : ∀ v, m'.label v ≤ m.label v)
    (hge : ∀ v, m.floor delta ≤ m.label v → m.floor delta ≤ m'.label v) :
    pc.Fine g delta source m' := by
  have hcall : ∀ {u wns}, Call g delta m u wns → Call g delta m' u wns := fun hc =>
    ⟨hc.lt, hfloor ▸ hge _ hc.floor_le, hc.outs⟩
  cases pc with
  | next => trivial
  | edges u wns => exact hcall h
  | add u wn oldDist wns => exact ⟨hcall h.1, (hle _).trans h.2.1, h.2.2⟩
  | swap u wn oldDist newDist wns =>
      exact ⟨hcall h.1, (hle _).trans h.2.1, h.2.2.1, h.2.2.2.mono hfloor (hle u)⟩
  | reload u wn newDist wns => exact ⟨hcall h.1, h.2.mono hfloor (hle u)⟩
  | done => trivial

/-- What a thread owes depends on the label of the source. -/
theorem At.Owes.of_label {pc : At} {wn : NodeWeight} (h : pc.Owes m u wn)
    (hu : m'.label u = m.label u) : pc.Owes m' u wn := by
  cases pc with
  | next => exact h
  | edges _ _ => exact h
  | add _ _ _ _ => exact h
  | swap _ _ _ _ _ =>
      unfold At.Owes at h ⊢
      rw [hu]
      exact h
  | reload _ _ _ _ =>
      unfold At.Owes at h ⊢
      rw [hu]
      exact h
  | done => exact h

/-- A label that can be lowered: the swap of thread `t` stores `d` for `v`. -/
structure Lowers (g : CSRGraph NodeWeight) (delta : Int) (source : Nat) (m : Memory)
    (t v : Nat) (d : Int) : Prop where
  tidy : Tidy g delta source m
  thread : t < m.localBins.length
  vertex : v < g.numNodes
  lt : d < m.label v
  floor_le : m.floor delta ≤ d
  nonneg : 0 ≤ d
  lt_inf : d < kDistInf
  sound : Sound (Arc g) source kDistInf v d
  target : ∃ u < g.numNodes, ∃ wn ∈ g.outs u, wn.v = v

theorem Lowers.label (h : Lowers g delta source m t v d) (x : Nat) :
    (m.lower delta t v d).label x = if x = v then d else m.label x :=
  Memory.label_lower (h.tidy.length ▸ h.vertex) x

theorem Lowers.le (h : Lowers g delta source m t v d) (x : Nat) :
    (m.lower delta t v d).label x ≤ m.label x := by
  rw [h.label]
  split
  case isTrue hx =>
    subst hx
    exact h.lt.le
  case isFalse => exact Int.le_refl _

theorem Lowers.ge (h : Lowers g delta source m t v d) {x : Nat}
    (hx : m.floor delta ≤ m.label x) : m.floor delta ≤ (m.lower delta t v d).label x := by
  rw [h.label]
  split
  case isTrue => exact h.floor_le
  case isFalse => exact hx

/-- An entry after the swap is one from before, or the vertex. -/
theorem Lowers.mem_bin (h : Lowers g delta source m t v d) {t' b x : Nat} :
    x ∈ (m.lower delta t v d).bin t' b
      ↔ x ∈ m.bin t' b ∨ (t' = t ∧ b = destBin delta d ∧ x = v) := by
  rw [Memory.bin_lower h.thread]
  split
  case isTrue hc =>
    rw [List.mem_append, List.mem_singleton]
    exact or_congr_right ⟨fun hx => ⟨hc.1, hc.2, hx⟩, fun hx => hx.2.2⟩
  case isFalse hc =>
    exact ⟨.inl, fun hx => hx.elim (fun hx => hx) fun hx => (hc ⟨hx.1, hx.2.1⟩).elim⟩

theorem Lowers.bin_of_ne (h : Lowers g delta source m t v d) {t' : Nat} (ht : t' ≠ t) (b : Nat) :
    (m.lower delta t v d).bin t' b = m.bin t' b := by
  rw [Memory.bin_lower h.thread, if_neg fun hc => ht hc.1]

/-- Edges of other vertices stay relaxed. -/
theorem Lowers.relaxes (h : Lowers g delta source m t v d) {x : Nat} {e : NodeWeight}
    (hx : x ≠ v) (hrel : m.Relaxes x e) : (m.lower delta t v d).Relaxes x e := by
  have hsame : (m.lower delta t v d).label x = m.label x := by rw [h.label, if_neg hx]
  unfold Memory.Relaxes at hrel ⊢
  rw [hsame]
  exact (h.le e.v).trans hrel

/-- Where bins hold one distance, every vertex is in one once. -/
theorem Lowers.once (h : Lowers g 1 source m t v d) (hm : Once g m) :
    Once g (m.lower 1 t v d) := by
  have hdest : (destBin 1 d : Int) = d := by
    rw [destBin_eq h.nonneg, Int.ediv_one, Int.toNat_of_nonneg h.nonneg]
  have hlen : (m.lower 1 t v d).localBins.length = m.localBins.length := List.length_set
  refine ⟨fun b => ?_, fun t' b x hx => ?_, fun t' b x hx => ?_⟩
  · rw [hlen]
    by_cases hb : b = destBin 1 d
    · -- the vertex was in no bin of this distance
      have hnot : v ∉ (List.range m.localBins.length).flatMap fun t => m.bin t b := by
        intro hv
        obtain ⟨t', -, hv⟩ := List.mem_flatMap.mp hv
        have hle := hm.le t' b v hv
        have hlt := h.lt
        rw [hb, hdest] at hle
        omega
      have hcons := Slots.cons_flatMap_perm h.thread (x := v) (f := fun t' => m.bin t' b)
        (g := fun t' => if t' = t then v :: m.bin t' b else m.bin t' b) (if_pos rfl)
        fun t' ht' => if_neg ht'
      have hperm := hcons.trans (List.Perm.flatMap_left _ fun t' _ =>
        show (if t' = t then v :: m.bin t' b else m.bin t' b).Perm
          ((m.lower 1 t v d).bin t' b) from ?_)
      · exact hperm.nodup_iff.mp (List.nodup_cons.mpr ⟨hnot, hm.nodup b⟩)
      · rw [Memory.bin_lower h.thread]
        by_cases ht' : t' = t
        · rw [if_pos ht', if_pos ⟨ht', hb⟩]
          exact (List.perm_append_singleton v _).symm
        · rw [if_neg ht', if_neg fun hc => ht' hc.1]
    · have hsame : (fun t' => (m.lower 1 t v d).bin t' b) = fun t' => m.bin t' b := by
        funext t'
        rw [Memory.bin_lower h.thread, if_neg fun hc => hb hc.2]
      rw [hsame]
      exact hm.nodup b
  · rcases h.mem_bin.mp hx with hx | ⟨-, rfl, rfl⟩
    · exact (h.le x).trans (hm.le t' b x hx)
    · rw [h.label, if_pos rfl, hdest]
  · rcases h.mem_bin.mp hx with hx | ⟨-, -, rfl⟩
    · exact hm.target t' b x hx
    · exact h.target

/-- The swap keeps the memory tidy. -/
theorem Lowers.tidy_lower (h : Lowers g delta source m t v d) (hdelta : 0 < delta) :
    Tidy g delta source (m.lower delta t v d) := by
  refine ⟨List.length_set.trans h.tidy.length, fun x hx => ?_, fun x hx => ?_,
    (h.le source).trans h.tidy.start, fun t' b x hx => ?_, fun x hx e he hlow => ?_, ?_⟩
  · rw [h.label]
    split
    case isTrue heq => exact heq ▸ h.sound
    case isFalse => exact h.tidy.sound x hx
  · rw [h.label]
    split
    case isTrue => exact h.nonneg
    case isFalse => exact h.tidy.nonneg x hx
  · rcases h.mem_bin.mp hx with hx | ⟨-, rfl, rfl⟩
    · exact h.tidy.entry t' b x hx
    · exact ⟨h.vertex, (mul_destBin_le hdelta h.nonneg).trans_lt h.lt_inf⟩
  · -- what lies below the current bin is not what was lowered
    have hlow' : (m.lower delta t v d).label x < m.floor delta := hlow
    have hne : x ≠ v := by
      intro hxv
      rw [h.label, if_pos hxv] at hlow'
      exact absurd h.floor_le (Int.not_le.mpr hlow')
    rw [h.label, if_neg hne] at hlow'
    exact h.relaxes hne (h.tidy.low x hx e he hlow')
  · rintro rfl
    exact h.once (h.tidy.once rfl)

/-- The new entry is paid for by the lowered label. -/
theorem Lowers.budget (h : Lowers g delta source m t v d) :
    (m.lower delta t v d).potential + (m.lower delta t v d).entries
      ≤ m.potential + m.entries := by
  have hent : (m.lower delta t v d).entries = m.entries + 1 := Memory.entries_lower h.thread
  have hpot : (m.lower delta t v d).potential < m.potential :=
    Memory.potential_lower (h.tidy.length ▸ h.vertex) h.nonneg h.lt
  omega

/-- What a thread that is about to swap knows, if the swap will succeed. -/
theorem Working.lowers (h : Working g delta source m₀ ts m) {wn : NodeWeight}
    {oldDist newDist : Int} {wns : List NodeWeight} (hl : l ∈ ts)
    (hpc : l.pc = .swap u wn oldDist newDist wns)
    (hg : Weighted g) (heq : m.label wn.v = oldDist) :
    Lowers g delta source m l.id wn.v newDist := by
  have hfine := h.fine l hl
  rw [hpc] at hfine
  obtain ⟨hcall, -, hlt, hoffer⟩ := hfine
  exact ⟨h.tidy, h.id_lt hl, hg.lt hcall.lt (hcall.outs wn List.mem_cons_self), heq ▸ hlt,
    hoffer.floor_le, hoffer.nonneg, hoffer.lt, hoffer.sound,
    u, hcall.lt, wn, hcall.outs wn List.mem_cons_self, rfl⟩

/-- After a swap the edges of the lowered vertex wait in the thread's bin,
the edge just relaxed is done with, and the others are where they were. -/
theorem Working.cover_lower (h : Working g delta source m₀ ts m) {wn : NodeWeight}
    {oldDist newDist : Int} {wns : List NodeWeight} (hi : ts[i]? = some l)
    (hpc : l.pc = .swap u wn oldDist newDist wns)
    (hlow : Lowers g delta source m l.id wn.v newDist) {x : Nat} (hx : x < g.numNodes)
    {e : NodeWeight} (he : e ∈ g.outs x) :
    (m.lower delta l.id wn.v newDist).Relaxes x e
      ∨ (m.lower delta l.id wn.v newDist).Binned delta x
      ∨ ∃ y ∈ ts.set i { l with pc := .edges u wns },
          y.Owes (m.lower delta l.id wn.v newDist) x e := by
  by_cases hxv : x = wn.v
  · refine .inr (.inl ⟨l.id, hlow.mem_bin.mpr (.inr ⟨rfl, ?_, hxv⟩)⟩)
    rw [hlow.label, if_pos hxv]
  · have hsame : (m.lower delta l.id wn.v newDist).label x = m.label x := by
      rw [hlow.label, if_neg hxv]
    rcases h.cover x hx e he with hrel | ⟨t, ht⟩ | ⟨y, hy, hyo⟩
    · exact .inl (hlow.relaxes hxv hrel)
    · refine .inr (.inl ⟨t, hlow.mem_bin.mpr (.inl ?_)⟩)
      rw [hsame]
      exact ht
    · by_cases hyl : y = l
      · subst hyl
        have hself := mem_set_self hi { y with pc := .edges u wns }
        rcases hyo with hyo | hyo | hyo
        · exact .inr (.inr ⟨_, hself, .inl hyo⟩)
        · exact .inr (.inr ⟨_, hself, .inr (.inl hyo)⟩)
        · rw [hpc] at hyo
          obtain ⟨rfl, ⟨rfl, hnew⟩ | hmem⟩ := hyo
          · refine .inl ?_
            unfold Memory.Relaxes
            rw [hsame, hlow.label, if_pos rfl]
            exact hnew
          · exact .inr (.inr ⟨_, hself, .inr (.inr ⟨rfl, hmem⟩)⟩)
      · refine .inr (.inr ⟨y, mem_set_of_ne hi hy hyl, ?_⟩)
        exact hyo.imp_right fun hyo => hyo.imp_right fun hpc => hpc.of_label hsame

/-- A thread's compare-and-swap succeeds. -/
theorem Working.lower (h : Working g delta source m₀ ts m) (hdelta : 0 < delta) {wn : NodeWeight}
    {oldDist newDist : Int} {wns : List NodeWeight} (hi : ts[i]? = some l)
    (hpc : l.pc = .swap u wn oldDist newDist wns)
    (hlow : Lowers g delta source m l.id wn.v newDist) :
    Working g delta source m₀ (ts.set i { l with pc := .edges u wns })
      (m.lower delta l.id wn.v newDist) := by
  have hl := List.mem_of_getElem? hi
  have hcall : Call g delta m u (wn :: wns) := by
    have hfine := h.fine l hl
    rw [hpc] at hfine
    exact hfine.1
  have hnot : ∀ x : Thread, x.pc = .done → x ≠ l := by
    intro x hxd hxl
    rw [hxl, hpc] at hxd
    cases hxd
  refine { tidy := hlow.tidy_lower hdelta, frame := ?_, team := h.team_set hi rfl, todo := ?_,
           copied := ?_, fine := ?_, current := ?_,
           cover := fun x hx e he => h.cover_lower hi hpc hlow hx he,
           votes := ?_, chosen := ?_, budget := hlow.budget.trans h.budget }
  · exact { h.frame with localBins := List.length_set.trans h.frame.localBins }
  · intro x hx
    rcases h.mem_set hi hx with rfl | ⟨hx, -⟩
    · exact h.todo l hl
    · exact h.todo x hx
  · intro x hx y hy
    have hold : y < g.numNodes ∧ m.floor delta ≤ m.label y := by
      rcases h.mem_set hi hx with rfl | ⟨hx, -⟩
      · exact h.copied l hl y hy
      · exact h.copied x hx y hy
    exact ⟨hold.1, hlow.ge hold.2⟩
  · intro x hx
    rcases h.mem_set hi hx with rfl | ⟨hx, -⟩
    · exact ⟨hcall.lt, hlow.ge hcall.floor_le, fun e he => hcall.outs e (List.mem_cons_of_mem _ he)⟩
    · exact (h.fine x hx).mono rfl hlow.le fun _ => hlow.ge
  · intro t x hx
    rcases hlow.mem_bin.mp hx with hx | ⟨-, -, rfl⟩
    · exact hlow.ge (h.current t x hx)
    · exact hlow.ge (hlow.floor_le.trans hlow.lt.le)
  · intro x hx hxd
    rcases h.mem_set hi hx with rfl | ⟨hx, hne⟩
    · cases hxd
    · obtain ⟨htodo, hcopy, hvote⟩ := h.votes x hx hxd
      refine ⟨htodo, hcopy, fun b hb hbin => hvote b hb ?_⟩
      exact fun hnil => hbin ((hlow.bin_of_ne hne b).trans hnil)
  · refine h.chosen.imp_right fun ⟨x, hx, hxd, hxb⟩ => ?_
    have hmem : x ∈ ts.set i { l with pc := .edges u wns } := mem_set_of_ne hi hx (hnot x hxd)
    refine ⟨x, hmem, hxd, fun hnil => hxb ?_⟩
    rcases h.mem_set hi hmem with rfl | ⟨-, hne⟩
    · cases hxd
    · exact (hlow.bin_of_ne hne _).symm.trans hnil

-- ============================================================ own bins

/-- Clearing a bin keeps every vertex once. -/
theorem Once.clear (h : Once g m) {c : Nat} (ht : t < m.localBins.length)
    (hm : m'.localBins = m.localBins.set t ((m.binsOf t).set c []))
    (hd : m'.dist = m.dist) : Once g m' := by
  have hbin : ∀ t' b, m'.bin t' b = if t' = t ∧ b = c then [] else m.bin t' b :=
    Memory.bin_clear ht hm
  have hlabel : ∀ v, m'.label v = m.label v := fun v => by rw [Memory.label, Memory.label, hd]
  have hsub : ∀ t b, (m'.bin t b).Sublist (m.bin t b) := by
    intro t' b
    rw [hbin]
    split
    case isTrue => exact List.nil_sublist _
    case isFalse => exact List.Sublist.refl _
  refine ⟨fun b => (h.nodup b).sublist ?_, fun t b v hv => ?_, fun t b v hv =>
    h.target t b v ((hsub t b).subset hv)⟩
  · rw [hm, List.length_set]
    exact List.Sublist.flatMap_right _ fun t' _ => hsub t' b
  · rw [hlabel]
    exact h.le t b v ((hsub t b).subset hv)

/-- A thread goes on with what its own bin holds. -/
theorem Working.fuse (h : Working g delta source m₀ ts m) (hi : ts[i]? = some l)
    (htodo : l.todo = []) (hcopy : l.binCopy = []) (hpc : l.pc = .next) :
    Working g delta source m₀
      (ts.set i { l with binCopy := m.bin l.id m.currBinIndex })
      (m.clearBin l.id m.currBinIndex) := by
  have hl := List.mem_of_getElem? hi
  have hbin : ∀ t b, (m.clearBin l.id m.currBinIndex).bin t b
      = if t = l.id ∧ b = m.currBinIndex then [] else m.bin t b :=
    fun t b => Memory.bin_clear (h.id_lt hl) rfl t b
  have hsub : ∀ t b, ∀ x ∈ (m.clearBin l.id m.currBinIndex).bin t b, x ∈ m.bin t b := by
    intro t b x hx
    rw [hbin] at hx
    split at hx
    case isTrue => cases hx
    case isFalse => exact hx
  have hdone : ∀ x : Thread, x.pc = .done → x ≠ l := by
    intro x hxd hxl
    rw [hxl, hpc] at hxd
    cases hxd
  refine { tidy := ?_, frame := ?_, team := h.team_set hi rfl, todo := ?_, copied := ?_,
           fine := ?_, current := fun t x hx => h.current t x (hsub t _ x hx), cover := ?_,
           votes := ?_, chosen := ?_, budget := ?_ }
  · exact ⟨h.tidy.length, h.tidy.sound, h.tidy.nonneg, h.tidy.start,
      fun t b x hx => h.tidy.entry t b x (hsub t b x hx), h.tidy.low,
      fun hd => (h.tidy.once hd).clear (h.id_lt hl) rfl rfl⟩
  · exact { h.frame with localBins := List.length_set.trans h.frame.localBins }
  · intro x hx
    rcases h.mem_set hi hx with rfl | ⟨hx, -⟩
    · exact h.todo l hl
    · exact h.todo x hx
  · intro x hx y hy
    rcases h.mem_set hi hx with rfl | ⟨hx, -⟩
    · have hent := h.tidy.entry l.id _ y hy
      exact ⟨hent.1, h.current l.id y hy⟩
    · exact h.copied x hx y hy
  · intro x hx
    rcases h.mem_set hi hx with rfl | ⟨hx, -⟩
    · have hfine := h.fine l hl
      rw [hpc] at hfine
      rw [hpc]
      exact hfine
    · exact (h.fine x hx).mono rfl (fun _ => Int.le_refl _) fun _ hge => hge
  · intro x hx e he
    rcases h.cover x hx e he with hrel | ⟨t, ht⟩ | ⟨y, hy, hyo⟩
    · exact .inl hrel
    · by_cases hc : t = l.id ∧ destBin delta (m.label x) = m.currBinIndex
      · refine .inr (.inr ⟨_, mem_set_self hi _, .inr (.inl ?_)⟩)
        rw [hc.1, hc.2] at ht
        exact ht
      · refine .inr (.inl ⟨t, ?_⟩)
        rw [hbin]
        exact (if_neg hc).symm ▸ ht
    · by_cases hyl : y = l
      · subst hyl
        rcases hyo with ⟨j, hj, -⟩ | hyo | hyo
        · rw [htodo] at hj
          cases hj
        · rw [hcopy] at hyo
          cases hyo
        · rw [hpc] at hyo
          exact hyo.elim
      · exact .inr (.inr ⟨y, mem_set_of_ne hi hy hyl,
          hyo.imp_right fun hyo => hyo.imp_right fun hyo => hyo.of_label rfl⟩)
  · intro x hx hxd
    rcases h.mem_set hi hx with rfl | ⟨hx, -⟩
    · exact absurd (hpc.symm.trans hxd) nofun
    · obtain ⟨hxt, hxc, hvote⟩ := h.votes x hx hxd
      refine ⟨hxt, hxc, fun b hb hne => hvote b hb fun hnil => hne ?_⟩
      exact List.eq_nil_iff_forall_not_mem.mpr fun y hy =>
        List.not_mem_nil (hnil ▸ hsub x.id b y hy)
  · refine h.chosen.imp_right fun ⟨x, hx, hxd, hxb⟩ => ?_
    have hmem : x ∈ ts.set i { l with binCopy := m.bin l.id m.currBinIndex } :=
      mem_set_of_ne hi hx (hdone x hxd)
    refine ⟨x, hmem, hxd, fun hnil => hxb ?_⟩
    rcases h.mem_set hi hmem with rfl | ⟨-, hne⟩
    · exact absurd (hpc.symm.trans hxd) nofun
    · rw [hbin, if_neg fun hc => hne hc.1] at hnil
      exact hnil
  · have hent : (m.clearBin l.id m.currBinIndex).entries + (m.bin l.id m.currBinIndex).length
        = m.entries := Memory.entries_clear (h.id_lt hl) rfl
    have hpot : (m.clearBin l.id m.currBinIndex).potential = m.potential := rfl
    have := h.budget
    omega

-- =============================================================== the vote

/-- A thread votes for the first bin of its own that holds anything. -/
theorem vote_cases (m : Memory) (t : Nat) :
    (m.vote t = m ∧ ∀ b, m.currBinIndex ≤ b → m.bin t b = [])
      ∨ ∃ k, m.vote t = { m with nextBinIndex := min m.nextBinIndex k } ∧ m.bin t k ≠ []
          ∧ ∀ b, m.currBinIndex ≤ b → m.bin t b ≠ [] → k ≤ b := by
  have hlen : ∀ b, m.bin t b ≠ [] → b < (m.binsOf t).length := by
    intro b hb
    refine Nat.lt_of_not_le fun hle => hb ?_
    rw [Memory.bin, List.getD_eq_getElem?_getD, List.getElem?_eq_none hle]
    rfl
  unfold Memory.vote
  split
  next k hk =>
    obtain ⟨hne, hmem, hbelow⟩ := List.find?_range'_eq_some.mp hk
    refine .inr ⟨k, rfl, ?_, fun b hb hbin => Nat.le_of_not_lt fun hlt => ?_⟩
    · intro hnil
      rw [show (m.binsOf t).getD k [] = [] from hnil] at hne
      cases hne
    · have hnot := hbelow b hb hlt
      rw [Bool.not_not, List.isEmpty_iff] at hnot
      exact hbin hnot
  next hnone =>
    refine .inl ⟨rfl, fun b hb => ?_⟩
    by_contra hbin
    have hnot := List.find?_range'_eq_none.mp hnone b hb (by have := hlen b hbin; omega)
    rw [Bool.not_not, List.isEmpty_iff] at hnot
    exact hbin hnot

/-- What a vote leaves alone, and what it says. -/
theorem vote_spec (m : Memory) (t : Nat) : ∃ k, m.vote t = { m with nextBinIndex := k }
    ∧ k ≤ m.nextBinIndex ∧ (k = m.nextBinIndex ∨ m.bin t k ≠ [])
    ∧ ∀ b, m.currBinIndex ≤ b → m.bin t b ≠ [] → k ≤ b := by
  rcases vote_cases m t with ⟨heq, hall⟩ | ⟨k, heq, hne, hmin⟩
  · exact ⟨m.nextBinIndex, heq, Nat.le_refl _, .inl rfl,
      fun b hb hbin => (hbin (hall b hb)).elim⟩
  · refine ⟨min m.nextBinIndex k, heq, Nat.min_le_left _ _, ?_, fun b hb hbin => ?_⟩
    · rcases Nat.le_total m.nextBinIndex k with hle | hle
      · exact .inl (Nat.min_eq_left hle)
      · rw [Nat.min_eq_right hle]
        exact .inr hne
    · exact (Nat.min_le_right _ _).trans (hmin b hb hbin)

/-- A thread that is done votes for its first bin. -/
theorem Working.vote (h : Working g delta source m₀ ts m) (hi : ts[i]? = some l)
    (htodo : l.todo = []) (hcopy : l.binCopy = []) (hpc : l.pc = .next) :
    Working g delta source m₀ (ts.set i { l with pc := .done }) (m.vote l.id) := by
  have hl := List.mem_of_getElem? hi
  obtain ⟨k, heq, hle, hkeep, hmin⟩ := vote_spec m l.id
  rw [heq]
  refine { tidy := ⟨h.tidy.length, h.tidy.sound, h.tidy.nonneg, h.tidy.start, h.tidy.entry,
             h.tidy.low, fun hd => { h.tidy.once hd with }⟩,
           frame := { h.frame with }, team := h.team_set hi rfl, todo := ?_, copied := ?_,
           fine := ?_, current := h.current, cover := ?_, votes := ?_, chosen := ?_,
           budget := h.budget }
  · intro x hx
    rcases h.mem_set hi hx with rfl | ⟨hx, -⟩
    · exact h.todo l hl
    · exact h.todo x hx
  · intro x hx
    rcases h.mem_set hi hx with rfl | ⟨hx, -⟩
    · exact h.copied l hl
    · exact h.copied x hx
  · intro x hx
    rcases h.mem_set hi hx with rfl | ⟨hx, -⟩
    · trivial
    · exact (h.fine x hx).mono rfl (fun _ => Int.le_refl _) fun _ hge => hge
  · intro x hx e he
    refine (h.cover x hx e he).imp_right (Or.imp_right fun ⟨y, hy, hyo⟩ => ?_)
    have hne : y ≠ l := by
      rintro rfl
      rcases hyo with ⟨j, hj, -⟩ | hyo | hyo
      · rw [htodo] at hj
        cases hj
      · rw [hcopy] at hyo
        cases hyo
      · rw [hpc] at hyo
        exact hyo
    exact ⟨y, mem_set_of_ne hi hy hne,
      hyo.imp_right fun hyo => hyo.imp_right fun hyo => hyo.of_label rfl⟩
  · intro x hx hxd
    rcases h.mem_set hi hx with rfl | ⟨hx, -⟩
    · exact ⟨htodo, hcopy, hmin⟩
    · obtain ⟨hxt, hxc, hvote⟩ := h.votes x hx hxd
      exact ⟨hxt, hxc, fun b hb hbin => hle.trans (hvote b hb hbin)⟩
  · rcases hkeep with rfl | hne
    · refine h.chosen.imp_right fun ⟨x, hx, hxd, hxb⟩ => ?_
      refine ⟨x, mem_set_of_ne hi hx fun hxl => ?_, hxd, hxb⟩
      rw [hxl, hpc] at hxd
      cases hxd
    · exact .inr ⟨_, mem_set_self hi _, rfl, hne⟩

-- ============================================================== the steps

theorem int32_of_nonneg {x : Int} (h₀ : 0 ≤ x) (hx : x < 2 ^ 31) : int32 x = x := by
  obtain ⟨n, rfl⟩ := Int.eq_ofNat_of_zero_le h₀
  exact int32_of_lt (by omega)

/-- The least distance of the current bin, as a thread computes it. -/
theorem lowest_eq {c : Nat} (hdelta : 0 < delta) (hc : delta * c < kDistInf) :
    lowest delta c = delta * c := by
  have hinf : kDistInf < 2 ^ 31 := by decide
  have hle : (c : Int) ≤ delta * c := le_mul_of_one_le_left (Int.natCast_nonneg c) hdelta
  have hbin : int32 c = c := int32_of_nonneg (Int.natCast_nonneg c) (by omega)
  rw [lowest, hbin]
  exact int32_of_nonneg (mul_nonneg hdelta.le (Int.natCast_nonneg c)) (by omega)

/-- Where a thread that tests a new distance goes from there. -/
theorem fine_testDist {wn : NodeWeight} {wns : List NodeWeight} {oldDist newDist : Int}
    (hcall : Call g delta m u (wn :: wns)) (hold : m.label wn.v ≤ oldDist)
    (hoffer : newDist < oldDist → Offer g delta source m u wn newDist) :
    (testDist u wn oldDist newDist wns).Fine g delta source m := by
  unfold testDist
  split
  case isTrue hlt => exact ⟨hcall, hold, hlt, hoffer hlt⟩
  case isFalse =>
    exact ⟨hcall.lt, hcall.floor_le, fun e he => hcall.outs e (List.mem_cons_of_mem _ he)⟩

/-- After the test the edge is relaxed or still owed. -/
theorem owes_testDist {wn e : NodeWeight} {wns : List NodeWeight} {oldDist newDist : Int}
    (hold : m.label wn.v ≤ oldDist)
    (he : wn = e ∧ newDist ≤ m.label u + e.w.toInt ∨ e ∈ wns) :
    m.Relaxes u e ∨ (testDist u wn oldDist newDist wns).Owes m u e := by
  unfold testDist
  split
  case isTrue => exact .inr ⟨rfl, he⟩
  case isFalse hge =>
    rcases he with ⟨rfl, hnew⟩ | he
    · refine .inl ?_
      unfold Memory.Relaxes
      omega
    · exact .inr ⟨rfl, he⟩

theorem awake_testDist (u : Nat) (wn : NodeWeight) (oldDist newDist : Int)
    (wns : List NodeWeight) : testDist u wn oldDist newDist wns ≠ .done := by
  unfold testDist
  split <;> nofun

/-- What a thread does between two calls: it comes to another vertex, goes
on with its own bin, or votes. -/
theorem pick_cases (h : Working g delta source m₀ ts m) (hdelta : 0 < delta)
    (hc : m.floor delta < kDistInf) (hl : l ∈ ts) (hpc : l.pc = .next)
    (hn : pick g delta l.id l.todo l.binCopy m = some (l', m')) :
    (m' = m ∧ Quiet g delta source m l l')
      ∨ (l.todo = [] ∧ l.binCopy = []
          ∧ ((l' = { l with binCopy := m.bin l.id m.currBinIndex }
                ∧ m' = m.clearBin l.id m.currBinIndex ∧ m.bin l.id m.currBinIndex ≠ [])
            ∨ (l' = { l with pc := .done } ∧ m' = m.vote l.id))) := by
  obtain ⟨id, todo, copy, pc⟩ := l
  cases hpc
  cases todo with
  | cons j todo =>
      obtain ⟨w, hw, hfr⟩ := h.todo _ hl j List.mem_cons_self
      have hwl : w < m.dist.length := h.tidy.length ▸ hw
      have hlow : lowest delta m.currBinIndex = m.floor delta := lowest_eq hdelta hc
      simp only [pick, hfr, m.get_label hwl, Option.bind_eq_bind, Option.bind_some, hlow] at hn
      cases hn
      refine .inl ⟨rfl, rfl, fun k hk => List.mem_cons_of_mem _ hk, fun _ hu => hu, ?_, ?_,
        nofun, ?_, ?_⟩
      · dsimp only
        split
        case isTrue hge => exact ⟨hw, hge, fun _ he => he⟩
        case isFalse => trivial
      · intro x hx e he hxo
        rcases hxo with ⟨k, hk, hkx⟩ | hxo | hxo
        · rcases List.mem_cons.mp hk with rfl | hk
          · -- what is below the bin needs no call
            cases hfr.symm.trans hkx
            by_cases hge : m.label w ≥ m.floor delta
            · refine .inr (.inr (.inr ?_))
              dsimp only
              rw [if_pos hge]
              exact ⟨rfl, he⟩
            · exact .inl (h.tidy.low w hx e he (Int.not_le.mp hge))
          · exact .inr (.inl ⟨k, hk, hkx⟩)
        · exact .inr (.inr (.inl hxo))
        · exact hxo.elim
      · dsimp only
        split <;> nofun
      · have hvisit := cost_outs_le hw
        have hpos : 2 ≤ visit g := Nat.le_add_left ..
        simp only [Thread.cost, List.length_cons, Nat.add_right_comm _ 1, Nat.succ_mul]
        split <;> simp only [At.cost] <;> omega
  | nil =>
      cases copy with
      | cons w copy =>
          cases hn
          have hw := h.copied _ hl w List.mem_cons_self
          refine .inl ⟨rfl, rfl, fun _ hk => hk, fun x hx => List.mem_cons_of_mem _ hx,
            ⟨hw.1, hw.2, fun _ he => he⟩, ?_, nofun, nofun, ?_⟩
          · intro x hx e he hxo
            rcases hxo with hxo | hxo | hxo
            · exact .inr (.inl hxo)
            · rcases List.mem_cons.mp hxo with rfl | hxo
              · exact .inr (.inr (.inr ⟨rfl, he⟩))
              · exact .inr (.inr (.inl hxo))
            · exact hxo.elim
          · have hvisit := cost_outs_le hw.1
            simp only [Thread.cost, At.cost, List.length_cons, List.length_nil, Nat.zero_add,
              Nat.succ_mul]
            omega
      | nil =>
          refine .inr ⟨rfl, rfl, ?_⟩
          simp only [pick] at hn
          split at hn
          case isTrue hfuse =>
            cases hn
            refine .inl ⟨rfl, rfl, fun hnil => ?_⟩
            unfold Memory.fuses at hfuse
            rw [show (m.binsOf id).getD m.currBinIndex [] = [] from hnil] at hfuse
            simp at hfuse
          case isFalse =>
            cases hn
            exact .inr ⟨rfl, rfl⟩

/-- What a thread does in a call: a step on its own, or a swap that
succeeds. -/
theorem relaxEdges_cases (h : Working g delta source m₀ ts m) (hg : Weighted g) (hl : l ∈ ts)
    {pc : At} (hn : relaxEdges delta l.id l.pc m = some (pc, m')) :
    (m' = m ∧ Quiet g delta source m l { l with pc := pc })
      ∨ ∃ u wn oldDist newDist wns, l.pc = .swap u wn oldDist newDist wns
          ∧ m.label wn.v = oldDist ∧ pc = .edges u wns
          ∧ m' = m.lower delta l.id wn.v newDist := by
  have hfine := h.fine l hl
  have hlen : ∀ {v : Nat}, v < g.numNodes → v < m.dist.length := fun hv => h.tidy.length ▸ hv
  have hstay : ∀ pc', (∀ {u wn}, u < g.numNodes → wn ∈ g.outs u → l.pc.Owes m u wn →
      m.Relaxes u wn ∨ pc'.Owes m u wn) → ∀ u < g.numNodes, ∀ wn ∈ g.outs u,
      l.Owes m u wn → m.Relaxes u wn ∨ { l with pc := pc' : Thread }.Owes m u wn := by
    intro pc' hpc' u hu wn hwn ho
    rcases ho with ho | ho | ho
    · exact .inr (.inl ho)
    · exact .inr (.inr (.inl ho))
    · exact (hpc' hu hwn ho).imp_right fun ho => .inr (.inr ho)
  generalize hpcl : l.pc = pcl at hn hfine hstay
  have hawake : ∀ {c : At}, l.pc = c → c ≠ .done → l.pc ≠ .done := fun hc hne => hc ▸ hne
  have hcost : ∀ {c c' : At}, l.pc = c → c'.cost m < c.cost m →
      { l with pc := c' : Thread }.cost g m < l.cost g m := by
    intro c c' hc hlt
    unfold Thread.cost
    rw [hc]
    exact Nat.add_lt_add_left hlt _
  cases pcl with
  | next => cases hn
  | edges u wns =>
      cases wns with
      | nil =>
          cases hn
          refine .inl ⟨rfl, rfl, fun _ hk => hk, fun _ hx => hx, trivial,
            hstay _ fun _ _ ho => ?_, hawake hpcl nofun, nofun, hcost hpcl ?_⟩
          · cases ho.2
          · simp only [At.cost, List.length_nil]
            omega
      | cons wn wns =>
          have hcall : Call g delta m u (wn :: wns) := hfine
          have hv := hg.lt hcall.lt (hcall.outs wn List.mem_cons_self)
          simp only [relaxEdges, m.get_label (hlen hv), Option.map_some] at hn
          cases hn
          refine .inl ⟨rfl, rfl, fun _ hk => hk, fun _ hx => hx,
            ⟨hcall, Int.le_refl _, (h.tidy.sound wn.v hv).le_cap⟩,
            hstay _ fun _ _ ho => .inr ⟨ho.1, (List.mem_cons.mp ho.2).imp_left Eq.symm⟩,
            hawake hpcl nofun, nofun, hcost hpcl ?_⟩
          simp only [At.cost, List.length_cons]
          omega
  | add u wn oldDist wns =>
      obtain ⟨hcall, hold, holdInf⟩ := hfine
      have hwn := hcall.outs wn List.mem_cons_self
      have hweight := hg.weight u hcall.lt wn hwn
      have hnonneg := h.tidy.nonneg u hcall.lt
      have hle := (h.tidy.sound u hcall.lt).le_cap
      have hinf : kDistInf + 2 ^ 30 < 2 ^ 31 := by decide
      have hsum : int32 (m.label u + wn.w.toInt) = m.label u + wn.w.toInt :=
        int32_of_nonneg (by omega) (by omega)
      simp only [relaxEdges, m.get_label (hlen hcall.lt), Option.map_some, hsum] at hn
      cases hn
      refine .inl ⟨rfl, rfl, fun _ hk => hk, fun _ hx => hx,
        fine_testDist hcall hold fun hlt => ?_, hstay _ fun _ _ ho => ?_,
        hawake hpcl nofun, awake_testDist _ _ _ _ _, hcost hpcl (cost_testDist _ _ _ _ _ _)⟩
      · have hlt' : m.label u + wn.w.toInt < kDistInf := by omega
        have harc : Arc g u wn.w.toInt wn.v := ⟨hcall.lt, wn, hwn, rfl, rfl⟩
        have hfloor := hcall.floor_le
        exact ⟨Int.le_refl _, by omega, by omega, hlt',
          (h.tidy.sound u hcall.lt).step harc hweight.1 hlt'⟩
      · obtain ⟨rfl, ho⟩ := ho
        exact owes_testDist hold (ho.imp_left fun heq => ⟨heq, heq ▸ Int.le_refl _⟩)
  | swap u wn oldDist newDist wns =>
      obtain ⟨hcall, hold, hlt, hoffer⟩ := hfine
      have hv := hg.lt hcall.lt (hcall.outs wn List.mem_cons_self)
      simp only [relaxEdges, m.get_label (hlen hv), Option.map_some] at hn
      split at hn
      case isTrue heq =>
        cases hn
        exact .inr ⟨u, wn, oldDist, newDist, wns, rfl, heq, rfl, rfl⟩
      case isFalse hne =>
        cases hn
        refine .inl ⟨rfl, rfl, fun _ hk => hk, fun _ hx => hx, ⟨hcall, hoffer⟩,
          hstay _ fun _ _ ho => .inr ho, hawake hpcl nofun, nofun, hcost hpcl ?_⟩
        simp only [At.cost, if_neg hne]
        omega
  | reload u wn newDist wns =>
      obtain ⟨hcall, hoffer⟩ := hfine
      have hv := hg.lt hcall.lt (hcall.outs wn List.mem_cons_self)
      simp only [relaxEdges, m.get_label (hlen hv), Option.map_some] at hn
      cases hn
      refine .inl ⟨rfl, rfl, fun _ hk => hk, fun _ hx => hx,
        fine_testDist hcall (Int.le_refl _) fun _ => hoffer, hstay _ fun _ _ ho => ?_,
        hawake hpcl nofun, awake_testDist _ _ _ _ _,
        hcost hpcl (cost_testDist_label _ _ _ _ _)⟩
      obtain ⟨rfl, ho⟩ := ho
      exact owes_testDist (Int.le_refl _) ho
  | done => cases hn

end ThesisBench.Gapbs.Sssp

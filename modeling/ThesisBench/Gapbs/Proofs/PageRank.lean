/-
The scores of PageRank stay between a bound and a whole.

A vertex without outgoing edges is in nobody's incoming list, so its
contribution is never read, and the scores after an iteration are a
function of those before it alone (`nextScore`). Each score passes on its
whole value over its outgoing edges (`sum_pull`): an iteration keeps a sum
of one when every vertex has such an edge, and otherwise loses the scores
of those that have none (`Good.next`).
-/
import ThesisBench.Gapbs.PageRank
import ThesisBench.Gapbs.Proofs.BfsVerifier
import ThesisBench.Lib.Pull
import Mathlib.Algebra.BigOperators.Ring.Finset
import Mathlib.Algebra.Order.BigOperators.Group.Finset
import Mathlib.Algebra.Field.Rat
import Mathlib.Tactic.Linarith
import Mathlib.Tactic.FieldSimp
import Mathlib.Tactic.Positivity
import Mathlib.Data.Rat.Cast.Order

namespace ThesisBench.Gapbs.PageRank

open Slots Parallel

variable {g : CSRGraph Nat} {s : Nat → Rat} {m : Memory} {u v : Nat}

-- =========================================================== the scores

/-- The score of a vertex after an iteration. -/
def nextScore (g : CSRGraph Nat) (s : Nat → Rat) (u : Nat) : Rat :=
  baseScore g + kDamp * ((g.ins u).map fun v => s v / g.outDegree v).sum

/-- The sum of all scores. -/
def mass (g : CSRGraph Nat) (s : Nat → Rat) : Rat := ∑ v ∈ Finset.range g.numNodes, s v

/-- The degree of a vertex is the number of its edges. -/
theorem Transposed.length_outs (hg : Transposed g) (hv : v < g.numNodes) :
    ((g.outs v).length : Int) = g.outDegree v := by
  obtain ⟨l, hl, -⟩ := hg.outNeigh v hv
  exact CSRGraph.length_outs hl

/-- Incoming edges come from vertices of the graph. -/
theorem Transposed.ins_lt (hg : Transposed g) (hu : u < g.numNodes) (hv : v ∈ g.ins u) :
    v < g.numNodes := by
  obtain ⟨l, hl, hlt⟩ := hg.inNeigh u hu
  rw [CSRGraph.ins, hl] at hv
  exact hlt v hv

/-- Outgoing edges lead to vertices of the graph. -/
theorem Transposed.outs_lt (hg : Transposed g) (hv : v < g.numNodes) (hu : u ∈ g.outs v) :
    u < g.numNodes := by
  obtain ⟨l, hl, hlt⟩ := hg.outNeigh v hv
  rw [CSRGraph.outs, hl] at hu
  exact hlt u hu

/-- What is in an incoming list has an outgoing edge. -/
theorem Transposed.outDegree_pos (hg : Transposed g) (hu : u < g.numNodes) (hv : v ∈ g.ins u) :
    0 < g.outDegree v := by
  have hvlt := hg.ins_lt hu hv
  have hcount : 0 < (g.outs v).count u := by
    rw [← hg.count_ins u hu v hvlt]
    exact List.count_pos_iff.mpr hv
  have hlen := List.length_pos_of_mem (List.count_pos_iff.mp hcount)
  rw [← hg.length_outs hvlt]
  exact_mod_cast hlen

theorem baseScore_pos (hn : 1 ≤ g.numNodes) : 0 < baseScore g := by
  have hpos : (0 : Rat) < g.numNodes := by exact_mod_cast hn
  unfold baseScore kDamp
  positivity

/-- The base scores sum to what is not damped. -/
theorem mass_baseScore (hn : 1 ≤ g.numNodes) : g.numNodes * baseScore g = 1 - kDamp := by
  have hpos : (g.numNodes : Rat) ≠ 0 := by
    have hn' : g.numNodes ≠ 0 := by omega
    exact_mod_cast hn'
  unfold baseScore
  exact mul_div_cancel₀ _ hpos

/-- The scores that are passed on are those of the vertices with outgoing
edges. -/
theorem mass_nextScore (hn : 1 ≤ g.numNodes) (hg : Transposed g) (s : Nat → Rat) :
    mass g (nextScore g s)
      = 1 - kDamp + kDamp * ∑ v ∈ Finset.range g.numNodes, if g.outDegree v = 0 then 0 else s v := by
  have hpull : ∑ u ∈ Finset.range g.numNodes, ((g.ins u).map fun v => s v / g.outDegree v).sum
      = ∑ v ∈ Finset.range g.numNodes, (g.outs v).length • (s v / (g.outDegree v : Rat)) :=
    Pull.sum_pull
      (fun u hu v hv => Finset.mem_range.mpr (hg.ins_lt (Finset.mem_range.mp hu) hv))
      (fun v hv u hu => Finset.mem_range.mpr (hg.outs_lt (Finset.mem_range.mp hv) hu))
      (fun u hu v hv => hg.count_ins u (Finset.mem_range.mp hu) v (Finset.mem_range.mp hv)) _
  have hgive : ∀ v ∈ Finset.range g.numNodes,
      (g.outs v).length • (s v / g.outDegree v) = if g.outDegree v = 0 then 0 else s v := by
    intro v hv
    have hlen := hg.length_outs (Finset.mem_range.mp hv)
    rw [nsmul_eq_mul, ← hlen]
    split
    case isTrue h0 =>
      have hzero : (g.outs v).length = 0 := by exact_mod_cast h0
      rw [hzero, Nat.cast_zero, zero_mul]
    case isFalse h0 =>
      have hne : ((g.outs v).length : Rat) ≠ 0 := by exact_mod_cast h0
      rw [Int.cast_natCast]
      exact mul_div_cancel₀ _ hne
  unfold mass nextScore
  rw [Finset.sum_add_distrib, Finset.sum_const, Finset.card_range, nsmul_eq_mul,
    mass_baseScore hn, ← Finset.mul_sum, hpull, Finset.sum_congr rfl hgive]

/-- Scores above the bound, that sum to at most one, and to one without
dead ends. -/
structure Good (g : CSRGraph Nat) (s : Nat → Rat) : Prop where
  base_le : ∀ v < g.numNodes, baseScore g ≤ s v
  le_one : mass g s ≤ 1
  eq_one : (∀ v < g.numNodes, 1 ≤ g.outDegree v) → mass g s = 1

theorem good_init (hn : 1 ≤ g.numNodes) : Good g fun _ => initScore g := by
  have hpos : (0 : Rat) < g.numNodes := by exact_mod_cast hn
  have hone : mass g (fun _ => initScore g) = 1 := by
    unfold mass initScore
    rw [Finset.sum_const, Finset.card_range, nsmul_eq_mul]
    exact mul_div_cancel₀ _ hpos.ne'
  refine ⟨fun v _ => ?_, hone.le, fun _ => hone⟩
  unfold baseScore initScore kDamp
  gcongr
  norm_num

/-- An iteration keeps the scores good. -/
theorem Good.next (hn : 1 ≤ g.numNodes) (hg : Transposed g) (h : Good g s) :
    Good g (nextScore g s) := by
  have hnonneg : ∀ v < g.numNodes, 0 ≤ s v :=
    fun v hv => le_trans (baseScore_pos hn).le (h.base_le v hv)
  have hdamp : (0 : Rat) ≤ kDamp := by unfold kDamp; norm_num
  refine ⟨fun u hu => ?_, ?_, fun hdeg => ?_⟩
  · have hsum : 0 ≤ ((g.ins u).map fun v => s v / g.outDegree v).sum := by
      refine List.sum_nonneg fun x hx => ?_
      obtain ⟨v, hv, rfl⟩ := List.mem_map.mp hx
      have hdeg : (0 : Rat) ≤ g.outDegree v := by exact_mod_cast (hg.outDegree_pos hu hv).le
      exact div_nonneg (hnonneg v (hg.ins_lt hu hv)) hdeg
    have hmul := mul_nonneg hdamp hsum
    unfold nextScore
    linarith
  · have hle : (∑ v ∈ Finset.range g.numNodes, if g.outDegree v = 0 then 0 else s v) ≤ 1 := by
      refine le_trans (Finset.sum_le_sum fun v hv => ?_) h.le_one
      split
      · exact hnonneg v (Finset.mem_range.mp hv)
      · exact le_refl _
    rw [mass_nextScore hn hg]
    have hmul := mul_le_mul_of_nonneg_left hle hdamp
    linarith
  · have hsame : (∑ v ∈ Finset.range g.numNodes, if g.outDegree v = 0 then 0 else s v) = 1 := by
      rw [← h.eq_one hdeg]
      refine Finset.sum_congr rfl fun v hv => ?_
      have hv := hdeg v (Finset.mem_range.mp hv)
      rw [if_neg (by omega)]
    rw [mass_nextScore hn hg, hsame]
    linarith

-- ========================================================== an iteration

/-- The scores are `s`, and the arrays have their sizes. -/
structure At (g : CSRGraph Nat) (s : Nat → Rat) (m : Memory) : Prop where
  scores : m.scores = (List.range g.numNodes).map s
  outgoingContrib : m.outgoingContrib.length = g.numNodes
  changes : m.changes.length = g.numNodes

theorem At.get (h : At g s m) (hv : v < g.numNodes) : m.scores[v]? = some (s v) := by
  rw [h.scores, List.getElem?_map, List.getElem?_range hv]
  rfl

/-- The first loop of an iteration writes the contributions. -/
theorem contribs_total (h : At g s m) (byZero : Nat → Nat → Rat) :
    Total (.forEach (once (contribStep g byZero)) (fun _ => List.range g.numNodes)
        fun n => (n, false)) m
      fun m' => m' = { m with outgoingContrib :=
        (List.range g.numNodes).map fun v => some (contrib g (byZero m.iter v) (s v) v) } := by
  have hstep : ∀ {c : List (Option Rat)} {v : Nat}, c.length = g.numNodes → v < g.numNodes →
      contribStep g byZero v { m with outgoingContrib := c }
        = some { m with
          outgoingContrib := c.set v (some (contrib g (byZero m.iter v) (s v) v)) } := by
    intro c v hc hv
    simp only [contribStep, h.get hv, Option.bind_eq_bind, Option.bind_some,
      write_natCast (hc ▸ hv)]
    rfl
  refine total_once
    (fun m' => ∃ c, c.length = g.numNodes ∧ m' = { m with outgoingContrib := c })
    (fun v _ => v < g.numNodes)
    (fun v m' => m'.outgoingContrib[v]? = some (some (contrib g (byZero m.iter v) (s v) v)))
    ?_ ?_ List.nodup_range ⟨m.outgoingContrib, h.outgoingContrib, rfl⟩
    (fun v hv => List.mem_range.mp hv) ?_
  · rintro v m' ⟨c, hc, rfl⟩ hv
    exact ⟨_, hstep hc hv, ⟨_, List.length_set.trans hc, rfl⟩, List.getElem?_set_self (hc ▸ hv)⟩
  · rintro v w m' m'' hne ⟨c, hc, rfl⟩ hw hs
    rw [hstep hc hw] at hs
    cases hs
    exact ⟨id, fun hv => (List.getElem?_set_ne (Ne.symm hne)).trans hv⟩
  · rintro m' ⟨c, hc, rfl⟩ hall
    rw [eq_map_range hc fun v hv => hall v (List.mem_range.mpr hv)]

/-- The sum over contributions that are there. -/
theorem incomingTotal_eq {c : List (Option Rat)} {f : Nat → Rat} (vs : List Nat)
    (h : ∀ v ∈ vs, fetch c v = some (f v)) : incomingTotal c vs = some (vs.map f).sum := by
  have hgen : ∀ total : Rat, vs.foldlM (fun total (v : Nat) => (fetch c v).map (total + ·)) total
      = some (total + (vs.map f).sum) := by
    induction vs with
    | nil =>
        intro total
        rw [List.foldlM_nil, List.map_nil, List.sum_nil, add_zero]
        rfl
    | cons v vs ih =>
        intro total
        rw [List.foldlM_cons, h v (List.mem_cons_self ..)]
        show vs.foldlM _ (total + f v) = _
        rw [ih fun w hw => h w (List.mem_cons_of_mem _ hw), List.map_cons, List.sum_cons,
          add_assoc]
  rw [incomingTotal, hgen, zero_add]

/-- No vertex reads a quotient by zero. -/
theorem incomingTotal_ins (hg : Transposed g) (hu : u < g.numNodes) (byZero : Nat → Rat) :
    incomingTotal ((List.range g.numNodes).map fun v => some (contrib g (byZero v) (s v) v))
        (g.ins u)
      = some ((g.ins u).map fun v => s v / g.outDegree v).sum := by
  refine incomingTotal_eq _ fun v hv => ?_
  have hdeg := hg.outDegree_pos hu hv
  rw [fetch_natCast, List.getElem?_map, List.getElem?_range (hg.ins_lt hu hv)]
  show some (contrib g (byZero v) (s v) v) = _
  rw [contrib, if_neg (by omega)]

/-- The second loop writes the new scores. -/
theorem scores_total (hg : Transposed g) (h : At g s m) (byZero : Nat → Rat)
    (hc : m.outgoingContrib
      = (List.range g.numNodes).map fun v => some (contrib g (byZero v) (s v) v)) :
    Total (.forEach (once (scoreStep g)) (fun _ => List.range g.numNodes) fun u => (u, false)) m
      fun m' => m' = { m with
        scores := (List.range g.numNodes).map (nextScore g s)
        changes := (List.range g.numNodes).map fun u => |nextScore g s u - s u| } := by
  have hstep : ∀ {a b : List Rat} {u : Nat}, a.length = g.numNodes → b.length = g.numNodes →
      u < g.numNodes → a[u]? = some (s u) →
      scoreStep g u { m with scores := a, changes := b }
        = some { m with scores := a.set u (nextScore g s u)
                        changes := b.set u |nextScore g s u - s u| } := by
    intro a b u ha hb hu hold
    obtain ⟨l, hl, -⟩ := hg.inNeigh u hu
    have hins : g.ins u = l := by rw [CSRGraph.ins, hl, Option.getD_some]
    have htotal := incomingTotal_ins (s := s) hg hu byZero
    rw [← hc, hins] at htotal
    simp only [scoreStep, hl, Option.bind_eq_bind, Option.bind_some, htotal, hold,
      write_natCast (ha ▸ hu), write_natCast (hb ▸ hu), nextScore, hins]
    rfl
  refine total_once
    (fun m' => ∃ a b, a.length = g.numNodes ∧ b.length = g.numNodes
      ∧ m' = { m with scores := a, changes := b })
    (fun u m' => u < g.numNodes ∧ m'.scores[u]? = some (s u))
    (fun u m' => m'.scores[u]? = some (nextScore g s u)
      ∧ m'.changes[u]? = some |nextScore g s u - s u|)
    ?_ ?_ List.nodup_range
    ⟨m.scores, m.changes, by rw [h.scores, List.length_map, List.length_range], h.changes, rfl⟩
    (fun u hu => ⟨List.mem_range.mp hu, h.get (List.mem_range.mp hu)⟩) ?_
  · rintro u m' ⟨a, b, ha, hb, rfl⟩ ⟨hu, hold⟩
    exact ⟨_, hstep ha hb hu hold,
      ⟨_, _, List.length_set.trans ha, List.length_set.trans hb, rfl⟩,
      List.getElem?_set_self (ha ▸ hu), List.getElem?_set_self (hb ▸ hu)⟩
  · rintro u w m' m'' hne ⟨a, b, ha, hb, rfl⟩ ⟨hw, hold⟩ hs
    rw [hstep ha hb hw hold] at hs
    cases hs
    refine ⟨fun hu => ⟨hu.1, (List.getElem?_set_ne (Ne.symm hne)).trans hu.2⟩, fun hu => ?_⟩
    exact ⟨(List.getElem?_set_ne (Ne.symm hne)).trans hu.1,
      (List.getElem?_set_ne (Ne.symm hne)).trans hu.2⟩
  · rintro m' ⟨a, b, ha, hb, rfl⟩ hall
    rw [eq_map_range ha fun v hv => (hall v (List.mem_range.mpr hv)).1,
      eq_map_range hb fun v hv => (hall v (List.mem_range.mpr hv)).2]

/-- What `error` is after an iteration. -/
def change (g : CSRGraph Nat) (s : Nat → Rat) : Rat :=
  ((List.range g.numNodes).map fun u => |nextScore g s u - s u|).sum

/-- An iteration leaves the next scores, and stops if they changed little. -/
theorem iteration_total (hg : Transposed g) (h : At g s m) (epsilon : Rat)
    (byZero : Nat → Nat → Rat) :
    Total (iteration g epsilon byZero) m fun m' => At g (nextScore g s) m'
      ∧ if change g s < epsilon then m'.stop = true
        else m'.stop = m.stop ∧ m'.iter = m.iter + 1 := by
  refine (contribs_total h byZero).seq ?_
  rintro m₁ rfl
  have h₁ : At g s { m with outgoingContrib :=
      (List.range g.numNodes).map fun v => some (contrib g (byZero m.iter v) (s v) v) } :=
    ⟨h.scores, by rw [List.length_map, List.length_range], h.changes⟩
  refine (scores_total hg h₁ (byZero m.iter) rfl).seq ?_
  rintro m₂ rfl
  refine Total.seq (q := fun m₃ => At g (nextScore g s) m₃ ∧ m₃.error = change g s
    ∧ m₃.stop = m.stop ∧ m₃.iter = m.iter) ?_ ?_
  · refine total_act ⟨_, rfl⟩ ?_
    rintro m₃ rfl
    exact ⟨⟨rfl, h₁.outgoingContrib, by rw [List.length_map, List.length_range]⟩, rfl, rfl, rfl⟩
  · rintro m₃ ⟨h₃, herror, hstop, hiter⟩
    refine Total.seq (q := fun m' => At g (nextScore g s) m'
      ∧ if change g s < epsilon then m'.stop = true
        else m'.stop = m.stop ∧ m'.iter = m.iter + 1) ?_ fun m' hm' => total_act ⟨m', rfl⟩ ?_
    · refine total_act ⟨_, rfl⟩ ?_
      rintro m' rfl
      rw [herror]
      split
      · exact ⟨⟨h₃.scores, h₃.outgoingContrib, h₃.changes⟩, rfl⟩
      · exact ⟨⟨h₃.scores, h₃.outgoingContrib, h₃.changes⟩, hstop, by rw [← hiter]⟩
    · rintro m'' rfl
      exact hm'

-- ============================================================= the loop

/-- The scores after at most so many more iterations. -/
def finalScore (g : CSRGraph Nat) (epsilon : Rat) : Nat → (Nat → Rat) → Nat → Rat
  | 0, s => s
  | k + 1, s =>
      if change g s < epsilon then nextScore g s else finalScore g epsilon k (nextScore g s)

theorem Good.final (hn : 1 ≤ g.numNodes) (hg : Transposed g) (epsilon : Rat) (k : Nat) :
    ∀ {s : Nat → Rat}, Good g s → Good g (finalScore g epsilon k s) := by
  induction k with
  | zero => exact fun h => h
  | succ k ih =>
      intro s h
      rw [finalScore]
      split
      · exact h.next hn hg
      · exact ih (h.next hn hg)

/-- Every run leaves the same scores. -/
theorem pageRankPull_total (hg : Transposed g) (maxIters : Int) (epsilon : Rat)
    (byZero : Nat → Nat → Rat) :
    Total (pageRankPull g maxIters epsilon byZero) (start g) fun m =>
      m.scores = (List.range g.numNodes).map
        (finalScore g epsilon maxIters.toNat fun _ => initScore g) := by
  generalize hfinal : finalScore g epsilon maxIters.toNat (fun _ => initScore g) = target
  refine total_loop
    (fun m => ∃ s, At g s m
      ∧ if m.stop then s = target
        else finalScore g epsilon (maxIters - m.iter).toNat s = target)
    (fun m => if m.stop then 0 else (maxIters - m.iter).toNat) ?_ ?_ ?_
  · rintro m ⟨s, h, htarget⟩ hb
    rw [Bool.and_eq_true, Bool.not_eq_true', decide_eq_true_eq] at hb
    obtain ⟨hstop, hlt⟩ := hb
    rw [hstop] at htarget
    obtain ⟨k, hk⟩ : ∃ k, (maxIters - m.iter).toNat = k + 1 :=
      Nat.exists_eq_add_one.mpr (by omega)
    have htarget : finalScore g epsilon (maxIters - m.iter).toNat s = target := htarget
    rw [hk, finalScore] at htarget
    refine (iteration_total hg h epsilon byZero).mono ?_
    rintro m' ⟨h', hnext⟩
    rw [hstop, hk]
    refine ⟨⟨nextScore g s, h', ?_⟩, ?_⟩
    · split at hnext
      case isTrue hlt =>
        rw [if_pos hlt] at htarget
        rw [hnext]
        exact htarget
      case isFalse hge =>
        rw [if_neg hge] at htarget
        have hleft : (maxIters - m'.iter).toNat = k := by omega
        rw [hnext.1, hstop, hleft]
        exact htarget
    · split at hnext
      case isTrue =>
        rw [hnext]
        exact Nat.succ_pos k
      case isFalse =>
        have hleft : (maxIters - m'.iter).toNat = k := by omega
        rw [hnext.1, hstop, hleft]
        exact Nat.lt_succ_self k
  · rintro m ⟨s, h, htarget⟩ hb
    rw [h.scores]
    cases hstop : m.stop with
    | true =>
        rw [hstop] at htarget
        have htarget : s = target := htarget
        rw [htarget]
    | false =>
        rw [hstop, Bool.not_false, Bool.true_and, decide_eq_false_iff_not] at hb
        rw [hstop] at htarget
        have hzero : (maxIters - m.iter).toNat = 0 := by omega
        have htarget : finalScore g epsilon (maxIters - m.iter).toNat s = target := htarget
        rw [hzero] at htarget
        have htarget : s = target := htarget
        rw [htarget]
  · refine ⟨fun _ => initScore g, ⟨?_, List.length_replicate, List.length_replicate⟩, ?_⟩
    · exact (List.map_const' ..).symm ▸ by rw [List.length_range]; rfl
    · show finalScore g epsilon (maxIters - (0 : Nat)).toNat _ = target
      rw [Nat.cast_zero, sub_zero]
      exact hfinal

-- ============================================================ the result

/-- A sum over a range, as a list and as a set. -/
theorem sum_map_range (n : Nat) (f : Nat → Rat) :
    ((List.range n).map f).sum = ∑ v ∈ Finset.range n, f v := rfl

/-- Every run ends with the same scores, whatever a division by zero
gives: each at least the base score, and together at most one, and one
when every vertex has an outgoing edge. -/
theorem pageRankPull_scores (g : CSRGraph Nat) (hn : 1 ≤ g.numNodes) (hg : Transposed g)
    (maxIters : Int) (epsilon : Rat) :
    ∃ scores : List Rat, scores.length = g.numNodes
      ∧ (∀ x ∈ scores, (1 - kDamp) / g.numNodes ≤ x)
      ∧ scores.sum ≤ 1
      ∧ ((∀ v < g.numNodes, 1 ≤ g.outDegree v) → scores.sum = 1)
      ∧ ∀ byZero : Nat → Nat → Rat, Ends (fun m => m.scores = scores)
          ([pageRankPull g maxIters epsilon byZero], start g) := by
  have hgood := (good_init hn).final hn hg epsilon maxIters.toNat
  refine ⟨_, ?_, ?_, ?_, ?_, fun byZero => (pageRankPull_total hg maxIters epsilon byZero).ends⟩
  · rw [List.length_map, List.length_range]
  · intro x hx
    obtain ⟨v, hv, rfl⟩ := List.mem_map.mp hx
    exact hgood.base_le v (List.mem_range.mp hv)
  · rw [sum_map_range]
    exact hgood.le_one
  · intro hdeg
    rw [sum_map_range]
    exact hgood.eq_one hdeg

theorem arc_transposed : Transposed Bfs.arc where
  outNeigh := Bfs.arc_transposed.outNeigh
  inNeigh := Bfs.arc_transposed.inNeigh
  count_ins := by decide

/-- Two of the three vertices have no outgoing edge. -/
theorem pageRankPull_scores_arc :
    ∃ scores : List Rat, scores.length = 3
      ∧ (∀ x ∈ scores, (1 - kDamp) / (3 : Nat) ≤ x)
      ∧ scores.sum ≤ 1
      ∧ ((∀ v < 3, 1 ≤ Bfs.arc.outDegree v) → scores.sum = 1)
      ∧ ∀ byZero : Nat → Nat → Rat, Ends (fun m => m.scores = scores)
          ([pageRankPull Bfs.arc 20 0 byZero], start Bfs.arc) :=
  pageRankPull_scores Bfs.arc (by decide) arc_transposed 20 0

end ThesisBench.Gapbs.PageRank

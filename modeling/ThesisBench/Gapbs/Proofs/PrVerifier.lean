/-
What `PRVerifier` accepts, and that the scores of `PageRankPull` come
near to it.

The verifier pushes what the kernel pulls, so the error it finds is the
change that one more iteration would make (`prVerifier_eq`). An iteration
passes on at most the damped part of a change, since each vertex divides
what it gives by the number of those who take it (`change_next_le`). So
the changes shrink by `kDamp` at least, from two at first.
-/
import ThesisBench.Gapbs.PageRankGs
import ThesisBench.Gapbs.Proofs.PageRank
import ThesisBench.Lib.Damped
import Mathlib.Tactic.Ring

namespace ThesisBench.Gapbs.PageRank

open Slots Parallel

variable {g : CSRGraph Nat} {s s' : Nat → Rat} {u v n : Nat} {c : Rat}

-- ========================================================== the pushes

/-- What a vertex pushes along its edges. -/
theorem pushes_eq (c : Rat) : ∀ (vs : List Nat) (t : Nat → Rat), (∀ v ∈ vs, v < n) →
    vs.foldlM (pushStep c) ((List.range n).map t)
      = some ((List.range n).map fun x => t x + vs.count x * c) := by
  intro vs
  induction vs with
  | nil =>
      intro t _
      rw [List.foldlM_nil]
      refine congrArg some (List.map_congr_left fun x _ => ?_)
      rw [List.count_nil, Nat.cast_zero, zero_mul, add_zero]
  | cons v vs ih =>
      intro t hvs
      have hv := hvs v List.mem_cons_self
      have hlen : v < ((List.range n).map t).length := by
        rw [List.length_map, List.length_range]
        exact hv
      have hstep : pushStep c ((List.range n).map t) v
          = some ((List.range n).map (Function.update t v (t v + c))) := by
        rw [pushStep, get_map_range t hv, Option.bind_eq_bind, Option.bind_some,
          write_natCast hlen, set_map_range]
      rw [List.foldlM_cons, hstep, Option.bind_eq_bind, Option.bind_some,
        ih _ fun w hw => hvs w (List.mem_cons_of_mem _ hw)]
      refine congrArg some (List.map_congr_left fun x _ => ?_)
      by_cases hx : x = v
      · rw [hx, Function.update_self, List.count_cons_self, Nat.cast_add, Nat.cast_one]
        ring
      · have hcount : (v :: vs).count x = vs.count x := List.count_cons_of_ne (Ne.symm hx)
        rw [Function.update_of_ne hx, hcount]

/-- What the vertices `us` have pushed to `x`. -/
def pushed (g : CSRGraph Nat) (s : Nat → Rat) (us : List Nat) (x : Nat) : Rat :=
  (us.map fun u => (g.outs u).count x * (s u / g.outDegree u)).sum

/-- What some vertices push along their edges. -/
theorem pushVertices_eq (hg : Transposed g) (byZero : Nat → Rat) :
    ∀ (us : List Nat) (t : Nat → Rat), (∀ u ∈ us, u < g.numNodes) →
      us.foldlM (pushVertex g byZero ((List.range g.numNodes).map s))
          ((List.range g.numNodes).map t)
        = some ((List.range g.numNodes).map fun x => t x + pushed g s us x) := by
  intro us
  induction us with
  | nil =>
      intro t _
      rw [List.foldlM_nil]
      exact congrArg some (List.map_congr_left fun x _ => (add_zero (t x)).symm)
  | cons u us ih =>
      intro t hus
      have hu := hus u List.mem_cons_self
      obtain ⟨l, hl, -⟩ := hg.outNeigh u hu
      have houts : g.outs u = l := by rw [CSRGraph.outs, hl, Option.getD_some]
      have hlen := hg.length_outs hu
      -- who has nobody to push to does not matter
      have hcontrib : ∀ x, (g.outs u).count x * contrib g (byZero u) (s u) u
          = (g.outs u).count x * (s u / g.outDegree u) := by
        intro x
        by_cases h0 : g.outDegree u = 0
        · have hnil : g.outs u = [] := List.eq_nil_of_length_eq_zero (by omega)
          rw [hnil, List.count_nil, Nat.cast_zero, zero_mul, zero_mul]
        · rw [contrib, if_neg h0]
      rw [List.foldlM_cons, pushVertex, get_map_range s hu, Option.bind_eq_bind,
        Option.bind_eq_bind, Option.bind_some, hl, Option.bind_eq_bind, Option.bind_some, ← houts,
        pushes_eq _ _ _ fun v hv => hg.outs_lt hu hv, Option.bind_some,
        ih _ fun w hw => hus w (List.mem_cons_of_mem _ hw)]
      refine congrArg some (List.map_congr_left fun x _ => ?_)
      rw [hcontrib, pushed, pushed, List.map_cons, List.sum_cons, add_assoc]

/-- What is pushed is what would be pulled. -/
theorem pushed_eq (hg : Transposed g) (hu : u < g.numNodes) :
    pushed g s (List.range g.numNodes) u
      = ((g.ins u).map fun v => s v / g.outDegree v).sum := by
  have hins : ∀ v ∈ g.ins u, v ∈ Finset.range g.numNodes :=
    fun v hv => Finset.mem_range.mpr (hg.ins_lt hu hv)
  have hpull : ((g.ins u).map fun v => s v / (g.outDegree v : Rat)).sum
      = ∑ v ∈ Finset.range g.numNodes, (g.ins u).count v • (s v / (g.outDegree v : Rat)) :=
    Pull.sum_map_count hins _
  rw [hpull, pushed, sum_map_range]
  refine Finset.sum_congr rfl fun v hv => ?_
  rw [hg.count_ins u hu v (Finset.mem_range.mp hv), nsmul_eq_mul]

-- ============================================================ the errors

/-- A sum is set back after it is read, once, so the others are still
there for their own turn. -/
theorem errors_eq (scores : List Rat) (hscores : scores = (List.range n).map s) (f : Nat → Rat) :
    ∀ (us : List Nat) (error : Rat) (t : Nat → Rat), us.Nodup → (∀ u ∈ us, u < n) →
      (∀ u ∈ us, t u = f u) →
      ∃ t' : Nat → Rat, us.foldlM (errorStep g scores) (error, (List.range n).map t)
        = some (error + (us.map fun u => |baseScore g + kDamp * f u - s u|).sum,
            (List.range n).map t') := by
  intro us
  induction us with
  | nil =>
      intro error t _ _ _
      refine ⟨t, ?_⟩
      rw [List.foldlM_nil, List.map_nil, List.sum_nil, add_zero]
      rfl
  | cons u us ih =>
      intro error t hnd hus ht
      obtain ⟨hnot, hnd⟩ := List.nodup_cons.mp hnd
      have hu := hus u List.mem_cons_self
      have hlen : u < ((List.range n).map t).length := by
        rw [List.length_map, List.length_range]
        exact hu
      have hstep : errorStep g scores (error, (List.range n).map t) u
          = some (error + |baseScore g + kDamp * f u - s u|,
              (List.range n).map (Function.update t u 0)) := by
        rw [errorStep, hscores, get_map_range t hu, get_map_range s hu, Option.bind_eq_bind,
          Option.bind_some, Option.bind_eq_bind, Option.bind_some, write_natCast hlen,
          set_map_range, ht u List.mem_cons_self]
        rfl
      have hrest : ∀ v ∈ us, Function.update t u 0 v = f v := by
        intro v hv
        have hne : v ≠ u := fun h => hnot (h ▸ hv)
        rw [Function.update_of_ne hne]
        exact ht v (List.mem_cons_of_mem _ hv)
      obtain ⟨t', ht'⟩ := ih (error + |baseScore g + kDamp * f u - s u|) _ hnd
        (fun v hv => hus v (List.mem_cons_of_mem _ hv)) hrest
      refine ⟨t', ?_⟩
      rw [List.foldlM_cons, hstep, Option.bind_eq_bind, Option.bind_some, ht', List.map_cons,
        List.sum_cons, add_assoc]

/-- The verifier compares the change of one more iteration. -/
theorem prVerifier_eq (hg : Transposed g) (byZero : Nat → Rat) (s : Nat → Rat)
    (targetError : Rat) :
    prVerifier g byZero ((List.range g.numNodes).map s) targetError
      = some (decide (change g s < targetError)) := by
  have hzero : List.replicate g.numNodes (0 : Rat) = (List.range g.numNodes).map fun _ => 0 := by
    rw [List.map_const', List.length_range]
  have hpush := pushVertices_eq (s := s) hg byZero (List.range g.numNodes) (fun _ => 0)
    fun u hu => List.mem_range.mp hu
  obtain ⟨t', ht'⟩ := errors_eq (g := g) _ rfl
    (fun u => ((g.ins u).map fun v => s v / (g.outDegree v : Rat)).sum)
    (List.range g.numNodes) 0 (fun u => 0 + pushed g s (List.range g.numNodes) u)
    List.nodup_range (fun u hu => List.mem_range.mp hu)
    fun u hu => by rw [zero_add, pushed_eq hg (List.mem_range.mp hu)]
  rw [zero_add] at ht'
  rw [prVerifier, hzero, hpush, Option.bind_eq_bind, Option.bind_some, ht']
  rfl

-- =========================================================== the changes

theorem change_nonneg : 0 ≤ change g s := by
  refine List.sum_nonneg fun x hx => ?_
  obtain ⟨u, -, rfl⟩ := List.mem_map.mp hx
  exact abs_nonneg _

/-- The triangle inequality for a sum over a list. -/
theorem abs_sum_le (f : Nat → Rat) (l : List Nat) :
    |(l.map f).sum| ≤ (l.map fun v => |f v|).sum := by
  induction l with
  | nil => rw [List.map_nil, List.sum_nil, List.map_nil, List.sum_nil, abs_zero]
  | cons v l ih =>
      rw [List.map_cons, List.sum_cons, List.map_cons, List.sum_cons]
      exact (abs_add_le _ _).trans (add_le_add_right ih _)

/-- What is pulled of a difference is at most the difference. -/
theorem sum_pulled_le (hg : Transposed g) (d : Nat → Rat) :
    ∑ u ∈ Finset.range g.numNodes, ((g.ins u).map fun v => |d v| / g.outDegree v).sum
      ≤ ∑ v ∈ Finset.range g.numNodes, |d v| := by
  have hpull : ∑ u ∈ Finset.range g.numNodes, ((g.ins u).map fun v => |d v| / g.outDegree v).sum
      = ∑ v ∈ Finset.range g.numNodes, (g.outs v).length • (|d v| / (g.outDegree v : Rat)) :=
    Pull.sum_pull
      (fun u hu v hv => Finset.mem_range.mpr (hg.ins_lt (Finset.mem_range.mp hu) hv))
      (fun v hv u hu => Finset.mem_range.mpr (hg.outs_lt (Finset.mem_range.mp hv) hu))
      (fun u hu v hv => hg.count_ins u (Finset.mem_range.mp hu) v (Finset.mem_range.mp hv)) _
  rw [hpull]
  refine Finset.sum_le_sum fun v hv => ?_
  rw [nsmul_eq_mul, ← hg.length_outs (Finset.mem_range.mp hv), Int.cast_natCast]
  by_cases h0 : (g.outs v).length = 0
  · rw [h0, Nat.cast_zero, zero_mul]
    exact abs_nonneg _
  · have hne : ((g.outs v).length : Rat) ≠ 0 := by exact_mod_cast h0
    exact (mul_div_cancel₀ _ hne).le

/-- Two vectors of scores come nearer in an iteration. -/
theorem sum_abs_nextScore_le (hg : Transposed g) (s s' : Nat → Rat) :
    ∑ u ∈ Finset.range g.numNodes, |nextScore g s' u - nextScore g s u|
      ≤ kDamp * ∑ v ∈ Finset.range g.numNodes, |s' v - s v| := by
  have hdamp : (0 : Rat) ≤ kDamp := by unfold kDamp; norm_num
  have hone : ∀ u < g.numNodes, |nextScore g s' u - nextScore g s u|
      ≤ kDamp * ((g.ins u).map fun v => |s' v - s v| / g.outDegree v).sum := by
    intro u hu
    have hdiff : nextScore g s' u - nextScore g s u
        = kDamp * ((g.ins u).map fun v => (s' v - s v) / (g.outDegree v : Rat)).sum := by
      have hsub : ((g.ins u).map fun v => (s' v - s v) / (g.outDegree v : Rat)).sum
          = ((g.ins u).map fun v => s' v / (g.outDegree v : Rat)).sum
            - ((g.ins u).map fun v => s v / (g.outDegree v : Rat)).sum := by
        induction g.ins u with
        | nil => rw [List.map_nil, List.map_nil, List.map_nil, List.sum_nil, sub_zero]
        | cons v vs ih =>
            rw [List.map_cons, List.map_cons, List.map_cons, List.sum_cons, List.sum_cons,
              List.sum_cons, ih, sub_div]
            ring
      rw [hsub, nextScore, nextScore]
      ring
    rw [hdiff, abs_mul, abs_of_nonneg hdamp]
    refine mul_le_mul_of_nonneg_left ((abs_sum_le _ _).trans (le_of_eq ?_)) hdamp
    refine congrArg List.sum (List.map_congr_left fun v hv => ?_)
    have hdeg : (0 : Rat) ≤ g.outDegree v := by exact_mod_cast (hg.outDegree_pos hu hv).le
    rw [abs_div, abs_of_nonneg hdeg]
  calc ∑ u ∈ Finset.range g.numNodes, |nextScore g s' u - nextScore g s u|
      ≤ ∑ u ∈ Finset.range g.numNodes,
          kDamp * ((g.ins u).map fun v => |s' v - s v| / g.outDegree v).sum :=
        Finset.sum_le_sum fun u hu => hone u (Finset.mem_range.mp hu)
    _ = kDamp * ∑ u ∈ Finset.range g.numNodes,
          ((g.ins u).map fun v => |s' v - s v| / g.outDegree v).sum := (Finset.mul_sum ..).symm
    _ ≤ kDamp * ∑ v ∈ Finset.range g.numNodes, |s' v - s v| :=
        mul_le_mul_of_nonneg_left (sum_pulled_le hg fun v => s' v - s v) hdamp

/-- The next change is at most this one, damped. -/
theorem change_next_le (hg : Transposed g) (s : Nat → Rat) :
    change g (nextScore g s) ≤ kDamp * change g s :=
  sum_abs_nextScore_le hg s (nextScore g s)

/-- Below the tolerance it stays there. -/
theorem change_next_lt (hg : Transposed g) {epsilon : Rat} (h : change g s < epsilon) :
    change g (nextScore g s) < epsilon := by
  have hle := change_next_le hg s
  have hnonneg := change_nonneg (g := g) (s := s)
  unfold kDamp at hle
  linarith

/-- Two vectors of scores of a sum of at most one. -/
theorem change_le_two (hn : 1 ≤ g.numNodes) (hg : Transposed g) (h : Good g s) :
    change g s ≤ 2 := by
  have hnext := h.next hn hg
  have hbase := (baseScore_pos hn).le
  have hle : change g s ≤ ∑ u ∈ Finset.range g.numNodes, (nextScore g s u + s u) := by
    rw [change, sum_map_range]
    refine Finset.sum_le_sum fun u hu => ?_
    have hu := Finset.mem_range.mp hu
    have hpos := h.base_le u hu
    have hpos' := hnext.base_le u hu
    exact abs_le.mpr ⟨by linarith, by linarith⟩
  have hsum : ∑ u ∈ Finset.range g.numNodes, (nextScore g s u + s u)
      = mass g (nextScore g s) + mass g s := Finset.sum_add_distrib
  have hone := h.le_one
  have hone' := hnext.le_one
  linarith

-- ================================================ what the scores are near to

/-- Scores that an iteration keeps. -/
def IsRank (g : CSRGraph Nat) (rank : Nat → Rat) : Prop :=
  ∀ u < g.numNodes, rank u
    = (1 - kDamp) / g.numNodes + kDamp * ((g.ins u).map fun v => rank v / g.outDegree v).sum

def padded (x : Fin n → Rat) (v : Nat) : Rat := if h : v < n then x ⟨v, h⟩ else 0

theorem padded_of_lt (s : Nat → Rat) (hv : v < n) : padded (fun i : Fin n => s i) v = s v :=
  dif_pos hv

/-- An iteration looks at the scores of the vertices only. -/
theorem nextScore_congr (hg : Transposed g) (h : ∀ v < g.numNodes, s v = s' v)
    (hu : u < g.numNodes) : nextScore g s u = nextScore g s' u := by
  rw [nextScore, nextScore]
  refine congrArg (fun x => baseScore g + kDamp * List.sum x) (List.map_congr_left fun v hv => ?_)
  rw [h v (hg.ins_lt hu hv)]

/-- An iteration, on the scores of the vertices alone. -/
def nextVector (g : CSRGraph Nat) (x : Fin g.numNodes → Rat) (u : Fin g.numNodes) : Rat :=
  nextScore g (padded x) u

/-- The iteration on vectors is the iteration on scores. -/
theorem nextVector_eq (hg : Transposed g) (s : Nat → Rat) (u : Fin g.numNodes) :
    nextVector g (fun i => s i) u = nextScore g s u :=
  nextScore_congr hg (fun _ hv => padded_of_lt s hv) u.isLt

theorem damps_nextVector (hg : Transposed g) : Damped.Damps (nextVector g) kDamp := by
  intro x y
  have h := sum_abs_nextScore_le hg (padded y) (padded x)
  rw [Finset.sum_range, Finset.sum_range] at h
  refine h.trans (le_of_eq ?_)
  refine congrArg (kDamp * ·) (Finset.sum_congr rfl fun i _ => ?_)
  rw [padded, padded, dif_pos i.isLt, dif_pos i.isLt]

/-- What an iteration pulls. -/
def pulled (g : CSRGraph Nat) : (Fin g.numNodes → Rat) →ₗ[Rat] Fin g.numNodes → Rat where
  toFun x u := kDamp * ((g.ins u).map fun v => padded x v / (g.outDegree v : Rat)).sum
  map_add' x y := by
    funext u
    have hsum : ∀ vs : List Nat,
        (vs.map fun v => padded (x + y) v / (g.outDegree v : Rat)).sum
          = (vs.map fun v => padded x v / (g.outDegree v : Rat)).sum
            + (vs.map fun v => padded y v / (g.outDegree v : Rat)).sum := by
      intro vs
      rw [← List.sum_map_add]
      refine congrArg List.sum (List.map_congr_left fun v _ => ?_)
      rw [← add_div]
      refine congrArg (· / (g.outDegree v : Rat)) ?_
      unfold padded
      split
      · rfl
      · rw [add_zero]
    rw [Pi.add_apply, hsum, mul_add]
  map_smul' c x := by
    funext u
    have hsum : ∀ vs : List Nat,
        (vs.map fun v => padded (c • x) v / (g.outDegree v : Rat)).sum
          = c * (vs.map fun v => padded x v / (g.outDegree v : Rat)).sum := by
      intro vs
      rw [← List.sum_map_mul_left]
      refine congrArg List.sum (List.map_congr_left fun v _ => ?_)
      rw [← mul_div_assoc]
      refine congrArg (· / (g.outDegree v : Rat)) ?_
      unfold padded
      split
      · rfl
      · rw [mul_zero]
    rw [Pi.smul_apply, hsum, RingHom.id_apply, smul_eq_mul]
    ring

theorem kDamp_lt_one : kDamp < 1 := by
  unfold kDamp
  norm_num

/-- There are scores that an iteration keeps. -/
theorem exists_isRank (hg : Transposed g) : ∃ rank, IsRank g rank := by
  obtain ⟨x, hx⟩ := Damped.exists_fixed (pulled g) (fun _ => baseScore g) kDamp_lt_one
    (damps_nextVector hg)
  refine ⟨padded x, fun u hu => ?_⟩
  have hu' := congrFun hx ⟨u, hu⟩
  rw [padded, dif_pos hu, ← hu']
  rfl

theorem IsRank.fixed (hg : Transposed g) {rank : Nat → Rat} (hrank : IsRank g rank) :
    nextVector g (fun i : Fin g.numNodes => rank i) = fun i : Fin g.numNodes => rank i := by
  funext u
  rw [nextVector_eq hg]
  exact (hrank u u.isLt).symm

/-- The change is the distance of one iteration. -/
theorem away_nextVector (hg : Transposed g) (s : Nat → Rat) :
    Damped.away (nextVector g fun i : Fin g.numNodes => s i) (fun i => s i) = change g s := by
  rw [change, sum_map_range, Finset.sum_range, Damped.away]
  exact Finset.sum_congr rfl fun i _ => by rw [nextVector_eq hg]

/-- Scores that change little are near to those that an iteration keeps. -/
theorem IsRank.away_le (hg : Transposed g) {rank : Nat → Rat} (hrank : IsRank g rank)
    (s : Nat → Rat) :
    (1 - kDamp) * ∑ v ∈ Finset.range g.numNodes, |s v - rank v| ≤ change g s := by
  have h := (damps_nextVector hg).away_fixed_le (hrank.fixed hg) fun i => s i
  rw [away_nextVector hg] at h
  rw [Finset.sum_range]
  exact h

/-- Scores near to those that an iteration keeps change little. -/
theorem IsRank.change_le (hg : Transposed g) {rank : Nat → Rat} (hrank : IsRank g rank)
    (s : Nat → Rat) :
    change g s ≤ (1 + kDamp) * ∑ v ∈ Finset.range g.numNodes, |s v - rank v| := by
  have h := (damps_nextVector hg).moves_le (hrank.fixed hg) fun i => s i
  rw [away_nextVector hg] at h
  rw [Finset.sum_range]
  exact h

/-- Only one list of scores is kept by an iteration. -/
theorem IsRank.unique (hg : Transposed g) {rank rank' : Nat → Rat} (hrank : IsRank g rank)
    (hrank' : IsRank g rank') (hv : v < g.numNodes) : rank' v = rank v :=
  congrFun ((damps_nextVector hg).fixed_unique kDamp_lt_one (hrank.fixed hg) (hrank'.fixed hg))
    ⟨v, hv⟩

-- =========================================================== the results

theorem eq_map_getD {scores : List Rat} (hlen : scores.length = n) :
    scores = (List.range n).map fun v => scores.getD v 0 := by
  refine eq_map_range hlen fun v hv => ?_
  rw [List.getD_eq_getElem?_getD, List.getElem?_eq_getElem (hlen ▸ hv), Option.getD_some]

/-- There is one assignment of scores that an iteration keeps. What the
verifier accepts is near to it, and it accepts all that is near enough,
whatever a division by zero gives. -/
theorem prVerifier_near (g : CSRGraph Nat) (hg : Transposed g) :
    ∃ rank : Nat → Rat, IsRank g rank
      ∧ (∀ rank', IsRank g rank' → ∀ v < g.numNodes, rank' v = rank v)
      ∧ ∀ (byZero : Nat → Rat) (scores : List Rat) (targetError : Rat),
          scores.length = g.numNodes →
          ∃ accepted, prVerifier g byZero scores targetError = some accepted
            ∧ (accepted = true → ∑ v ∈ Finset.range g.numNodes, |scores.getD v 0 - rank v|
                < targetError / (1 - kDamp))
            ∧ (∑ v ∈ Finset.range g.numNodes, |scores.getD v 0 - rank v|
                < targetError / (1 + kDamp) → accepted = true) := by
  obtain ⟨rank, hrank⟩ := exists_isRank hg
  refine ⟨rank, hrank, fun rank' hrank' v hv => hrank.unique hg hrank' hv, ?_⟩
  intro byZero scores targetError hlen
  have heq := prVerifier_eq hg byZero (fun v => scores.getD v 0) targetError
  rw [← eq_map_getD hlen] at heq
  refine ⟨_, heq, fun hacc => ?_, fun hnear => ?_⟩
  · have hlt := of_decide_eq_true hacc
    have haway := hrank.away_le hg fun v => scores.getD v 0
    have hpos : 0 < 1 - kDamp := sub_pos.mpr kDamp_lt_one
    rw [lt_div_iff₀ hpos]
    linarith
  · have hchange := hrank.change_le hg fun v => scores.getD v 0
    have hpos : 0 < 1 + kDamp := by
      unfold kDamp
      norm_num
    rw [lt_div_iff₀ hpos] at hnear
    refine decide_eq_true ?_
    linarith

/-- The verifier on one edge and a third vertex. -/
theorem prVerifier_near_arc :
    ∃ rank : Nat → Rat, IsRank Bfs.arc rank
      ∧ (∀ rank', IsRank Bfs.arc rank' → ∀ v < 3, rank' v = rank v)
      ∧ ∀ (byZero : Nat → Rat) (scores : List Rat) (targetError : Rat), scores.length = 3 →
          ∃ accepted, prVerifier Bfs.arc byZero scores targetError = some accepted
            ∧ (accepted = true → ∑ v ∈ Finset.range 3, |scores.getD v 0 - rank v|
                < targetError / (1 - kDamp))
            ∧ (∑ v ∈ Finset.range 3, |scores.getD v 0 - rank v|
                < targetError / (1 + kDamp) → accepted = true) :=
  prVerifier_near Bfs.arc arc_transposed

/-- What an iteration of the loop by sparse products knows of the scores
it leaves. -/
def Shrunk (g : CSRGraph Nat) (epsilon : Rat) (m : Memory) : Prop :=
  ∃ s, At g s m ∧ if m.stop then change g s < epsilon else change g s ≤ 2 * kDamp ^ m.iter

/-- Every run leaves scores whose change has shrunk. -/
theorem pageRankPull_shrunk (hn : 1 ≤ g.numNodes) (hg : Transposed g) (maxIters : Int)
    (epsilon : Rat) (byZero : Nat → Nat → Rat) :
    Total (pageRankPull g maxIters epsilon byZero) (start g) fun m =>
      Shrunk g epsilon m ∧ (m.stop = false → m.iter = maxIters.toNat) := by
  refine total_loop
    (fun m => Shrunk g epsilon m ∧ (m.stop = false → m.iter ≤ maxIters.toNat))
    (fun m => if m.stop then 0 else (maxIters - m.iter).toNat) ?_ ?_ ?_
  · rintro m ⟨⟨s, h, hshrunk⟩, -⟩ hb
    rw [Bool.and_eq_true, Bool.not_eq_true', decide_eq_true_eq] at hb
    obtain ⟨hstop, hlt⟩ := hb
    rw [hstop] at hshrunk
    have hshrunk : change g s ≤ 2 * kDamp ^ m.iter := hshrunk
    refine (iteration_total hg h epsilon byZero).mono ?_
    rintro m' ⟨h', hnext⟩
    rw [hstop]
    split at hnext
    case isTrue hlt' =>
      refine ⟨⟨⟨nextScore g s, h', ?_⟩, fun hrun => ?_⟩, ?_⟩
      · rw [hnext]
        exact change_next_lt hg hlt'
      · rw [hnext] at hrun
        cases hrun
      · rw [hnext]
        show 0 < (maxIters - m.iter).toNat
        omega
    case isFalse =>
      obtain ⟨hstop', hiter⟩ := hnext
      rw [hstop] at hstop'
      refine ⟨⟨⟨nextScore g s, h', ?_⟩, fun _ => by omega⟩, ?_⟩
      · rw [hstop', hiter]
        show change g (nextScore g s) ≤ 2 * kDamp ^ (m.iter + 1)
        have hle := change_next_le hg s
        have hdamp : (0 : Rat) ≤ kDamp := by unfold kDamp; norm_num
        calc change g (nextScore g s) ≤ kDamp * change g s := hle
          _ ≤ kDamp * (2 * kDamp ^ m.iter) := mul_le_mul_of_nonneg_left hshrunk hdamp
          _ = 2 * kDamp ^ (m.iter + 1) := by ring
      · rw [hstop', hiter]
        show (maxIters - ((m.iter + 1 : Nat) : Int)).toNat < (maxIters - m.iter).toNat
        omega
  · rintro m ⟨hshrunk, hiter⟩ hb
    refine ⟨hshrunk, fun hstop => ?_⟩
    have hle := hiter hstop
    rw [hstop, Bool.not_false, Bool.true_and, decide_eq_false_iff_not] at hb
    omega
  · refine ⟨⟨fun _ => initScore g, ⟨?_, List.length_replicate, List.length_replicate⟩, ?_⟩,
      fun _ => Nat.zero_le _⟩
    · exact (List.map_const' ..).symm ▸ by rw [List.length_range]; rfl
    · show change g (fun _ => initScore g) ≤ 2 * kDamp ^ 0
      rw [pow_zero, mul_one]
      exact change_le_two hn hg (good_init hn)

/-- In every run, `PageRankPull` ends with scores that the verifier
accepts for the same tolerance, if it stopped for the tolerance or if it
may iterate often enough. -/
theorem pageRankPull_verified (g : CSRGraph Nat) (hn : 1 ≤ g.numNodes) (hg : Transposed g)
    (maxIters : Int) (epsilon : Rat) (byZero : Nat → Nat → Rat) (byZero' : Nat → Rat) :
    Ends (fun m => m.stop = true ∨ 2 * kDamp ^ maxIters.toNat < epsilon →
        prVerifier g byZero' m.scores epsilon = some true)
      ([pageRankPull g maxIters epsilon byZero], start g) := by
  refine ((pageRankPull_shrunk hn hg maxIters epsilon byZero).mono ?_).ends
  rintro m ⟨⟨s, h, hshrunk⟩, hiter⟩ hend
  rw [h.scores, prVerifier_eq hg byZero' s epsilon]
  refine congrArg some (decide_eq_true ?_)
  cases hstop : m.stop with
  | true =>
      rw [hstop] at hshrunk
      exact hshrunk
  | false =>
      rw [hstop] at hshrunk hend
      have hle : change g s ≤ 2 * kDamp ^ m.iter := hshrunk
      rw [hiter hstop] at hle
      exact lt_of_le_of_lt hle (hend.resolve_left Bool.false_ne_true)

/-- The kernel and the verifier on one edge and a third vertex. -/
theorem pageRankPull_verified_arc :
    Ends (fun m => m.stop = true ∨ 2 * kDamp ^ 20 < 1 / 10 →
        prVerifier Bfs.arc (fun _ => 0) m.scores (1 / 10) = some true)
      ([pageRankPull Bfs.arc 20 (1 / 10) fun _ _ => 0], start Bfs.arc) :=
  pageRankPull_verified Bfs.arc (by decide) arc_transposed 20 (1 / 10) (fun _ _ => 0) fun _ => 0

end ThesisBench.Gapbs.PageRank

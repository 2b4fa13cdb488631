/-
Programs with parallel regions, one atomic step at a time.

A program is made of sequential steps and of regions that fork a list of
tasks, let the tasks move one at a time in any order, and join when all
of them are done. A task moves by a partial function of where it stands
and of the memory; one that is neither done nor able to move blocks its
region for ever.

`Ends q (k, s)` says that whatever the order, the statements `k` run from
the memory `s` to their end, in finitely many steps and without getting
stuck, and leave a memory that satisfies `q`. The rules below reduce it
to the parts of the program (`Total`). For a region the rule is a proof
outline (`Outline`): an invariant of the memory, an assertion for each
task that the other tasks' moves keep, and a bound on what the task has
left to do, which its own moves lower and the others' do not raise.
-/
import Mathlib.Algebra.Order.BigOperators.Group.List
import Mathlib.Algebra.Order.Ring.Nat
import Mathlib.Tactic.Common

namespace ThesisBench.Parallel

-- ============================================================= programs

/-- The tasks of a region: where a task can stand, its next move, and
whether it is done. -/
structure Tasks (σ : Type) where
  State : Type
  next : State → σ → Option (State × σ)
  done : State → Bool

inductive Prog (σ : Type) : Type 1
  /-- one step to any related memory -/
  | act (r : σ → σ → Prop)
  /-- a region, whose tasks are any of the related lists -/
  | fork (t : Tasks σ) (tasks : σ → List t.State → Prop)
  /-- a region that has started -/
  | running (t : Tasks σ) (ts : List t.State)
  | seq (p q : Prog σ)
  | ite (b : σ → Bool) (p q : Prog σ)
  | loop (b : σ → Bool) (p : Prog σ)

/-- One after the other. -/
def Prog.seqs {σ : Type} : List (Prog σ) → Prog σ
  | [] => .act (· = ·)
  | p :: ps => .seq p (seqs ps)

/-- Tasks of a single step each; `true` once it is taken. -/
def once {σ α : Type} (step : α → σ → Option σ) : Tasks σ where
  State := α × Bool
  next
    | (a, false), s => (step a s).map fun s => ((a, true), s)
    | (_, true), _ => none
  done l := l.2

/-- A parallel loop over a list, each iteration a task. -/
def Prog.forEach {σ α : Type} (t : Tasks σ) (items : σ → List α) (start : α → t.State) :
    Prog σ :=
  .fork t fun s ts => ts = (items s).map start

/-- A parallel loop of `n` iterations. -/
def Prog.parallelFor {σ : Type} (t : Tasks σ) (n : Nat) (start : Nat → t.State) : Prog σ :=
  .forEach t (fun _ => List.range n) start

variable {σ : Type}

/-- One step of the statements `k` on the memory `s`. -/
def Step : List (Prog σ) × σ → List (Prog σ) × σ → Prop
  | ([], _), _ => False
  | (.act r :: k, s), c => ∃ s', r s s' ∧ c = (k, s')
  | (.fork t tasks :: k, s), c => ∃ ts, tasks s ts ∧ c = (.running t ts :: k, s)
  | (.running t ts :: k, s), c =>
      (∃ i l l' s', ts[i]? = some l ∧ t.next l s = some (l', s')
          ∧ c = (.running t (ts.set i l') :: k, s'))
        ∨ ((∀ l ∈ ts, t.done l = true) ∧ c = (k, s))
  | (.seq p q :: k, s), c => c = (p :: q :: k, s)
  | (.ite b p q :: k, s), c => c = if b s then (p :: k, s) else (q :: k, s)
  | (.loop b p :: k, s), c =>
      c = if b s then (p :: .loop b p :: k, s) else (k, s)

/-- Every run ends, and what it leaves satisfies `q`. -/
inductive Ends (q : σ → Prop) : List (Prog σ) × σ → Prop
  | finished {s : σ} : q s → Ends q ([], s)
  | step {c : List (Prog σ) × σ} : (∃ c', Step c c') → (∀ c', Step c c' → Ends q c') →
      Ends q c

/-- What ends in a state ends in what follows from it. -/
theorem Ends.mono {q q' : σ → Prop} {c : List (Prog σ) × σ} (h : Ends q c)
    (himp : ∀ s, q s → q' s) : Ends q' c := by
  induction h with
  | finished hq => exact .finished (himp _ hq)
  | step hex _ ih => exact .step hex ih

/-- Whatever is left to do after it, `p` gets there with a memory that
satisfies `q`. -/
def Total (p : Prog σ) (s : σ) (q : σ → Prop) : Prop :=
  ∀ (k : List (Prog σ)) (r : σ → Prop),
    (∀ s', q s' → Ends r (k, s')) → Ends r (p :: k, s)

/-- A total program ends in every order of steps. -/
theorem Total.ends {p : Prog σ} {s : σ} {q : σ → Prop} (h : Total p s q) :
    Ends q ([p], s) :=
  h [] q fun _ => Ends.finished

-- ================================================================ rules

variable {p p' : Prog σ} {s : σ} {q q' : σ → Prop}

theorem Total.mono (h : Total p s q) (himp : ∀ s', q s' → q' s') : Total p s q' :=
  fun k r hk => h k r fun s' hq => hk s' (himp s' hq)

/-- An act that is possible, whatever it leads to. -/
theorem total_act {r : σ → σ → Prop} (hex : ∃ s', r s s') (hall : ∀ s', r s s' → q s') :
    Total (.act r) s q := by
  intro k post hk
  obtain ⟨s', hs'⟩ := hex
  refine .step ⟨_, s', hs', rfl⟩ ?_
  rintro c ⟨s₁, hs₁, rfl⟩
  exact hk s₁ (hall s₁ hs₁)

/-- A fork into tasks that are total once they run. -/
theorem total_fork {t : Tasks σ} {tasks : σ → List t.State → Prop}
    (hex : ∃ ts, tasks s ts) (hall : ∀ ts, tasks s ts → Total (.running t ts) s q) :
    Total (.fork t tasks) s q := by
  intro k post hk
  obtain ⟨ts, hts⟩ := hex
  refine .step ⟨_, ts, hts, rfl⟩ ?_
  rintro c ⟨ts', hts', rfl⟩
  exact hall ts' hts' k post hk

theorem Total.seq (hp : Total p s q) (hp' : ∀ s', q s' → Total p' s' q') :
    Total (.seq p p') s q' := by
  intro k post hk
  refine .step ⟨_, rfl⟩ ?_
  rintro c rfl
  exact hp _ post fun s' hs' => hp' s' hs' k post hk

/-- A loop whose body keeps `inv` and lowers `left`. -/
theorem total_loop {b : σ → Bool} (inv : σ → Prop) (left : σ → Nat)
    (hbody : ∀ s, inv s → b s = true →
      Total p s fun s' => inv s' ∧ left s' < left s)
    (hexit : ∀ s, inv s → b s = false → q s) (hs : inv s) : Total (.loop b p) s q := by
  intro k post hk
  generalize hn : left s = n
  induction n using Nat.strong_induction_on generalizing s with
  | _ n ih =>
      refine .step ⟨_, rfl⟩ ?_
      rintro c rfl
      cases hb : b s with
      | true =>
          refine hbody s hs hb _ post fun s' hs' => ?_
          exact ih (left s') (by omega) hs'.1 rfl
      | false => exact hk s (hexit s hs hb)

/-- A sequence whose statements take the assertion of each position to
that of the next. -/
theorem total_seqs (ps : List (Prog σ)) (inv : Nat → σ → Prop)
    (hstep : ∀ i p, ps[i]? = some p → ∀ s, inv i s → Total p s (inv (i + 1)))
    (hs : inv 0 s) : Total (.seqs ps) s (inv ps.length) := by
  induction ps generalizing inv s with
  | nil => exact total_act ⟨s, rfl⟩ fun s' hs' => hs' ▸ hs
  | cons p ps ih =>
      refine Total.seq (hstep 0 p rfl s hs) fun s' hs' => ?_
      exact ih (fun i => inv (i + 1)) (fun i p' hp' => hstep (i + 1) p' hp') hs'

-- ============================================================== regions

/-- The tasks that do not move are still there. -/
theorem mem_set_of_ne {α : Type} {ts : List α} {i : Nat} {l l' m : α} (hi : ts[i]? = some l)
    (hm : m ∈ ts) (hne : m ≠ l) : m ∈ ts.set i l' := by
  obtain ⟨j, hj⟩ := List.getElem?_of_mem hm
  refine List.mem_of_getElem? (i := j) ?_
  rw [List.getElem?_set_ne]
  · exact hj
  · intro hij
    subst hij
    exact hne (Option.some.inj (hj.symm.trans hi))

/-- What the tasks hold together, before and after one of them moves. -/
theorem flatMap_set_perm {α β : Type} (f : α → List β) {ts : List α} {i : Nat} {l : α}
    (hi : ts[i]? = some l) : ∃ rest, (ts.flatMap f).Perm (f l ++ rest)
      ∧ ∀ l', ((ts.set i l').flatMap f).Perm (f l' ++ rest) := by
  induction ts generalizing i with
  | nil => cases hi
  | cons m ts ih =>
      cases i with
      | zero =>
          cases hi
          exact ⟨ts.flatMap f, .refl _, fun _ => .refl _⟩
      | succ i =>
          obtain ⟨rest, hrest, hset⟩ := ih hi
          have hswap : ∀ a : List β, (f m ++ (a ++ rest)).Perm (a ++ (f m ++ rest)) := by
            intro a
            rw [← List.append_assoc, ← List.append_assoc]
            exact List.perm_append_comm.append_right rest
          refine ⟨f m ++ rest, ?_, fun l' => ?_⟩
          · exact (hrest.append_left (f m)).trans (hswap (f l))
          · exact ((hset l').append_left (f m)).trans (hswap (f l'))

/-- A sum after one summand has changed. -/
theorem sum_map_set {α : Type} (f : α → Nat) {l : List α} {i : Nat} {a : α}
    (hi : l[i]? = some a) (x : α) :
    ((l.set i x).map f).sum + f a = (l.map f).sum + f x := by
  induction l generalizing i with
  | nil => cases hi
  | cons b l ih =>
      cases i with
      | zero =>
          cases hi
          simp only [List.set_cons_zero, List.map_cons, List.sum_cons]
          omega
      | succ i =>
          have h := ih hi
          simp only [List.set_cons_succ, List.map_cons, List.sum_cons]
          omega

/-- One summand gets smaller and the others no larger. -/
theorem sum_set_lt {α : Type} {f f' : α → Nat} {ts : List α} {i : Nat} {l l' : α}
    (hi : ts[i]? = some l) (hown : f' l' < f l)
    (hother : ∀ j m, j ≠ i → ts[j]? = some m → f' m ≤ f m) :
    ((ts.set i l').map f').sum < (ts.map f).sum := by
  induction ts generalizing i with
  | nil => cases hi
  | cons m ts ih =>
      cases i with
      | zero =>
          cases hi
          have htail : (ts.map f').sum ≤ (ts.map f).sum := by
            refine List.sum_le_sum fun m hm => ?_
            obtain ⟨j, hj⟩ := List.getElem?_of_mem hm
            exact hother (j + 1) m (by omega) hj
          simp only [List.set_cons_zero, List.map_cons, List.sum_cons]
          omega
      | succ i =>
          have hhead := hother 0 m (by omega) rfl
          have htail := ih hi fun j m' hj hm' => hother (j + 1) m' (by omega) hm'
          simp only [List.set_cons_succ, List.map_cons, List.sum_cons]
          omega

/-- A region with an invariant of all its tasks and the memory, and a
bound on what they have left to do, which every move lowers. -/
theorem total_running {t : Tasks σ} (inv : List t.State → σ → Prop)
    (left : List t.State → σ → Nat)
    (hmoves : ∀ ts s l, inv ts s → l ∈ ts → t.done l = false →
      ∃ l' s', t.next l s = some (l', s'))
    (hstep : ∀ ts s i l l' s', inv ts s → ts[i]? = some l → t.next l s = some (l', s') →
      inv (ts.set i l') s' ∧ left (ts.set i l') s' < left ts s)
    (hq : ∀ ts s, inv ts s → (∀ l ∈ ts, t.done l = true) → q s)
    {ts : List t.State} (hs : inv ts s) : Total (.running t ts) s q := by
  intro k post hk
  generalize hn : left ts s = n
  induction n using Nat.strong_induction_on generalizing ts s with
  | _ n ih =>
      refine .step ?_ ?_
      · -- the join, or a task that is not done
        by_cases hdone : ∀ l ∈ ts, t.done l = true
        · exact ⟨_, .inr ⟨hdone, rfl⟩⟩
        · push Not at hdone
          obtain ⟨l, hl, hd⟩ := hdone
          obtain ⟨i, hi⟩ := List.getElem?_of_mem hl
          obtain ⟨l', s', hnext⟩ := hmoves ts s l hs hl (by simpa using hd)
          exact ⟨_, .inl ⟨i, l, l', s', hi, hnext, rfl⟩⟩
      · rintro c (⟨i, l, l', s', hi, hnext, rfl⟩ | ⟨hdone, rfl⟩)
        · obtain ⟨hs', hlt⟩ := hstep ts s i l l' s' hs hi hnext
          exact ih _ (hn ▸ hlt) hs' rfl
        · exact hk s (hq ts s hs hdone)

/-- A proof outline of a region's tasks, each known by its tag. -/
structure Outline (t : Tasks σ) (ι : Type) where
  tag : t.State → ι
  inv : σ → Prop
  asserts : t.State → σ → Prop
  left : t.State → σ → Nat
  moves : ∀ {l s}, inv s → asserts l s → t.done l = false →
    ∃ l' s', t.next l s = some (l', s')
  own : ∀ {l s l' s'}, inv s → asserts l s → t.next l s = some (l', s') →
    inv s' ∧ asserts l' s' ∧ tag l' = tag l ∧ left l' s' < left l s
  other : ∀ {l m s m' s'}, inv s → asserts l s → asserts m s → tag l ≠ tag m →
    t.next m s = some (m', s') → asserts l s' ∧ left l s' ≤ left l s

variable {t : Tasks σ} {ι : Type}

/-- What all tasks have left to do. -/
def Outline.total (o : Outline t ι) (ts : List t.State) (s : σ) : Nat :=
  (ts.map fun l => o.left l s).sum

/-- A list in which one element changed and its image did not. -/
theorem map_set_self {α β : Type} {f : α → β} {ts : List α} {i : Nat} {l l' : α}
    (hi : ts[i]? = some l) (hf : f l' = f l) : (ts.set i l').map f = ts.map f := by
  rw [List.map_set, hf]
  refine List.ext_getElem? fun j => ?_
  rw [List.getElem?_set]
  split
  case isTrue hij =>
    subst hij
    rw [List.getElem?_map, hi]
    simp [(List.getElem?_eq_some_iff.mp hi).1]
  case isFalse => rfl

/-- The task that moves has less left and the others no more. -/
theorem Outline.total_lt (o : Outline t ι) {ts : List t.State} {i : Nat} {l l' : t.State}
    {s s' : σ} (hi : ts[i]? = some l) (hown : o.left l' s' < o.left l s)
    (hother : ∀ j m, j ≠ i → ts[j]? = some m → o.left m s' ≤ o.left m s) :
    o.total (ts.set i l') s' < o.total ts s :=
  sum_set_lt hi hown hother

/-- Every state of a region that has started: the invariant, all tasks'
assertions, and different tags. -/
def Outline.Holds (o : Outline t ι) (ts : List t.State) (s : σ) : Prop :=
  o.inv s ∧ (∀ l ∈ ts, o.asserts l s) ∧ (ts.map o.tag).Nodup

/-- Different tasks have different tags. -/
theorem Outline.tag_ne (o : Outline t ι) {ts : List t.State}
    (hnd : (ts.map o.tag).Nodup) {i j : Nat} {l m : t.State} (hi : ts[i]? = some l)
    (hj : ts[j]? = some m) (hij : j ≠ i) : o.tag m ≠ o.tag l := by
  intro htag
  have hlen : j < (ts.map o.tag).length := by
    rw [List.length_map]
    exact (List.getElem?_eq_some_iff.mp hj).1
  refine hij ((List.getElem?_inj hlen hnd).mp ?_)
  rw [List.getElem?_map, List.getElem?_map, hi, hj, Option.map_some, Option.map_some, htag]

/-- A step of any task keeps the outline and leaves less to do. -/
theorem Outline.Holds.move {o : Outline t ι} {ts : List t.State} (h : o.Holds ts s)
    {i : Nat} {l l' : t.State} {s' : σ} (hi : ts[i]? = some l)
    (hn : t.next l s = some (l', s')) :
    o.Holds (ts.set i l') s' ∧ (ts.set i l').map o.tag = ts.map o.tag
      ∧ o.total (ts.set i l') s' < o.total ts s := by
  obtain ⟨hinv, hall, hnd⟩ := h
  have hl := hall l (List.mem_of_getElem? hi)
  obtain ⟨hinv', hl', htag, hlt⟩ := o.own hinv hl hn
  have hmap := map_set_self hi htag
  have hothers : ∀ j m, j ≠ i → ts[j]? = some m →
      o.asserts m s' ∧ o.left m s' ≤ o.left m s := by
    intro j m hj hm
    exact o.other hinv (hall m (List.mem_of_getElem? hm)) hl (o.tag_ne hnd hi hm hj) hn
  refine ⟨⟨hinv', ?_, hmap ▸ hnd⟩, hmap, o.total_lt hi hlt fun j m hj hm => (hothers j m hj hm).2⟩
  intro m hm
  obtain ⟨j, hj⟩ := List.getElem?_of_mem hm
  rw [List.getElem?_set] at hj
  split at hj
  case isTrue hij =>
    split at hj
    case isTrue =>
      cases hj
      exact hl'
    case isFalse => cases hj
  case isFalse hij => exact (hothers j m (Ne.symm hij) hj).1

/-- A region that starts with its outline in place ends with all tasks
done and the outline still in place. -/
theorem Outline.Holds.total {o : Outline t ι} {ts : List t.State} (h : o.Holds ts s)
    (hq : ∀ (ts' : List t.State) s', ts'.map o.tag = ts.map o.tag → o.inv s' →
      (∀ l ∈ ts', o.asserts l s' ∧ t.done l = true) → q s') :
    Total (.running t ts) s q := by
  refine total_running (fun ts' s' => o.Holds ts' s' ∧ ts'.map o.tag = ts.map o.tag)
    (fun ts' s' => o.total ts' s') ?_ ?_ ?_ ⟨h, rfl⟩
  · intro ts' s' l hts' hl hdone
    exact o.moves hts'.1.1 (hts'.1.2.1 l hl) hdone
  · intro ts' s' i l l' s'' hts' hi hnext
    obtain ⟨h', hmap, hlt⟩ := hts'.1.move hi hnext
    exact ⟨⟨h', hmap.trans hts'.2⟩, hlt⟩
  · intro ts' s' hts' hdone
    exact hq ts' s' hts'.2 hts'.1.1 fun l hl => ⟨hts'.1.2.1 l hl, hdone l hl⟩

/-- The same for a parallel loop: it ends with every iteration done and
its assertion in place. -/
theorem Outline.forEach (o : Outline t ι) {α : Type} {items : σ → List α}
    {start : α → t.State} (hnd : ((items s).map fun a => o.tag (start a)).Nodup)
    (hinv : o.inv s) (hstart : ∀ a ∈ items s, o.asserts (start a) s)
    (hq : ∀ s', o.inv s' → (∀ a ∈ items s,
      ∃ l, o.tag l = o.tag (start a) ∧ o.asserts l s' ∧ t.done l = true) → q s') :
    Total (.forEach t items start) s q := by
  refine total_fork ⟨_, rfl⟩ ?_
  rintro ts rfl
  have htags : ((items s).map start).map o.tag = (items s).map fun a => o.tag (start a) :=
    List.map_map
  refine Outline.Holds.total (o := o) ⟨hinv, ?_, htags ▸ hnd⟩ ?_
  · intro l hl
    obtain ⟨a, ha, rfl⟩ := List.mem_map.mp hl
    exact hstart a ha
  · intro ts' s' hts' hinv' hall
    refine hq s' hinv' fun a ha => ?_
    have hmem : o.tag (start a) ∈ ts'.map o.tag := by
      rw [hts', htags]
      exact List.mem_map.mpr ⟨a, ha, rfl⟩
    obtain ⟨l, hl, htl⟩ := List.mem_map.mp hmem
    exact ⟨l, htl, hall l hl⟩

/-- Iterations tagged by their number. -/
theorem Outline.parallelFor (o : Outline t Nat) {n : Nat} {start : Nat → t.State}
    (htag : ∀ i, o.tag (start i) = i) (hinv : o.inv s)
    (hstart : ∀ i < n, o.asserts (start i) s)
    (hq : ∀ s', o.inv s' →
      (∀ i < n, ∃ l, o.tag l = i ∧ o.asserts l s' ∧ t.done l = true) → q s') :
    Total (.parallelFor t n start) s q := by
  refine o.forEach ?_ hinv (fun i hi => hstart i (List.mem_range.mp hi)) fun s' hinv' hall => ?_
  · simp only [htag, List.map_id']
    exact List.nodup_range
  · refine hq s' hinv' fun i hi => ?_
    obtain ⟨l, hl, hrest⟩ := hall i (List.mem_range.mpr hi)
    exact ⟨l, hl.trans (htag i), hrest⟩

/-- A region with a thread for each share of the work. -/
theorem Outline.threads (o : Outline t Nat) {α : Type} {shares : List (List α)}
    {start : Nat → List α → t.State}
    (htag : ∀ i share, o.tag (start i share) = i) (hinv : o.inv s)
    (hstart : ∀ i < shares.length, o.asserts (start i (shares.getD i [])) s)
    (hq : ∀ s', o.inv s' →
      (∀ i < shares.length, ∃ l, o.tag l = i ∧ o.asserts l s' ∧ t.done l = true) → q s') :
    Total (.running t (shares.mapIdx start)) s q := by
  have htags : (shares.mapIdx start).map o.tag = List.range shares.length := by
    refine List.ext_getElem ?_ fun i hi hi' => ?_
    · rw [List.length_map, List.length_mapIdx, List.length_range]
    · rw [List.getElem_map, List.getElem_mapIdx, List.getElem_range, htag]
  refine Outline.Holds.total (o := o) ⟨hinv, fun l hl => ?_, htags ▸ List.nodup_range⟩ ?_
  · obtain ⟨i, hi, rfl⟩ := List.getElem_of_mem hl
    rw [List.length_mapIdx] at hi
    have hget : shares.getD i [] = shares[i] := by
      rw [List.getD_eq_getElem?_getD, List.getElem?_eq_getElem hi, Option.getD_some]
    rw [List.getElem_mapIdx, ← hget]
    exact hstart i hi
  · intro ts' s' hts' hinv' hall
    refine hq s' hinv' fun i hi => ?_
    have hmem : i ∈ ts'.map o.tag := by
      rw [hts', htags]
      exact List.mem_range.mpr hi
    obtain ⟨l, hl, htl⟩ := List.mem_map.mp hmem
    exact ⟨l, htl, hall l hl⟩

/-- Iterations of a single step: each finds its `before` and leaves its
`after`, and the others keep both. -/
theorem total_once {α : Type} {step : α → σ → Option σ} {items : σ → List α}
    (inv : σ → Prop) (before after : α → σ → Prop)
    (hown : ∀ a s, inv s → before a s →
      ∃ s', step a s = some s' ∧ inv s' ∧ after a s')
    (hother : ∀ a b s s', a ≠ b → inv s → before b s → step b s = some s' →
      (before a s → before a s') ∧ (after a s → after a s'))
    (hnd : (items s).Nodup) (hinv : inv s) (hstart : ∀ a ∈ items s, before a s)
    (hq : ∀ s', inv s' → (∀ a ∈ items s, after a s') → q s') :
    Total (.forEach (once step) items fun a => (a, false)) s q := by
  have hsplit : ∀ {a s l' s'}, inv s → before a s →
      (once step).next (a, false) s = some (l', s') →
      step a s = some s' ∧ l' = (a, true) ∧ inv s' ∧ after a s' := by
    intro a s l' s' hinv ha hnext
    obtain ⟨s₁, hs₁, hinv₁, hafter⟩ := hown a s hinv ha
    obtain ⟨s₂, hs₂, heq⟩ := Option.map_eq_some_iff.mp hnext
    cases heq
    cases hs₁.symm.trans hs₂
    exact ⟨hs₁, rfl, hinv₁, hafter⟩
  let o : Outline (once step) α :=
    { tag := fun l => l.1
      inv := inv
      asserts := fun l s => if l.2 then after l.1 s else before l.1 s
      left := fun l _ => if l.2 then 0 else 1
      moves := by
        rintro ⟨a, b⟩ s hinv ha hdone
        cases b with
        | true => cases hdone
        | false =>
            obtain ⟨s', hs', -⟩ := hown a s hinv ha
            exact ⟨(a, true), s', by simp only [once, hs', Option.map_some]⟩
      own := by
        rintro ⟨a, b⟩ s l' s' hinv ha hnext
        cases b with
        | true => cases hnext
        | false =>
            obtain ⟨-, rfl, hinv', hafter⟩ := hsplit hinv ha hnext
            exact ⟨hinv', hafter, rfl, Nat.zero_lt_one⟩
      other := by
        rintro ⟨a, b⟩ ⟨c, d⟩ s l' s' hinv ha hc htag hnext
        cases d with
        | true => cases hnext
        | false =>
            obtain ⟨hstep, -⟩ := hsplit hinv hc hnext
            obtain ⟨hbefore, hafter⟩ := hother a c s s' htag hinv hc hstep
            cases b with
            | true => exact ⟨hafter ha, Nat.le_refl _⟩
            | false => exact ⟨hbefore ha, Nat.le_refl _⟩ }
  refine o.forEach ?_ hinv hstart fun s' hinv' hall => hq s' hinv' fun a ha => ?_
  · exact (List.map_id' (items s)).symm ▸ hnd
  · obtain ⟨⟨b, c⟩, htag, hb, hdone⟩ := hall a ha
    have hab : b = a := htag
    have hc : c = true := hdone
    subst hab hc
    exact hb

end ThesisBench.Parallel

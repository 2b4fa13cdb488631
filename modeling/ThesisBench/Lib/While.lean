/-
Loops whose body may fault.

A while loop runs on fuel, so that it can be evaluated; what it returns is
then a fact about its turns alone (`returns_iff`). A proof that the loop
returns walks forward from the start, one `Turns` after the other. A
proof that it does not, or that it returns something else, uses that the
turns are determined: whatever the loop passes through, it returns from
there as well (`Returns.resume`).

A loop that counts from 0 to `n - 1` is a fold. It gets through when all
rounds do (`count_total`), and what every round keeps holds after it
(`count_invariant`).
-/
import Mathlib.Logic.Relation

namespace ThesisBench.While

variable {σ : Type _} {cond : σ → Bool} {body : σ → Option σ}

/-- `while (cond) body`: `none` when the body faults and when the fuel,
one unit for a turn, is gone. -/
def loop (cond : σ → Bool) (body : σ → Option σ) : Nat → σ → Option σ
  | 0, s => if cond s then none else some s
  | fuel + 1, s => if cond s then (body s).bind (loop cond body fuel) else some s

/-- One turn of the loop. -/
def Turn (cond : σ → Bool) (body : σ → Option σ) (s s' : σ) : Prop :=
  cond s = true ∧ body s = some s'

/-- Any number of turns. -/
abbrev Turns (cond : σ → Bool) (body : σ → Option σ) : σ → σ → Prop :=
  Relation.ReflTransGen (Turn cond body)

/-- The loop stops in `r`. -/
def Returns (cond : σ → Bool) (body : σ → Option σ) (s r : σ) : Prop :=
  Turns cond body s r ∧ cond r = false

/-- A loop whose condition is false stops at once. -/
theorem loop_of_stop {s : σ} (hs : cond s = false) (fuel : Nat) :
    loop cond body fuel s = some s := by
  cases fuel <;> simp [loop, hs]

theorem loop_of_turn {s s' : σ} (h : Turn cond body s s') (fuel : Nat) :
    loop cond body (fuel + 1) s = loop cond body fuel s' := by
  simp [loop, h.1, h.2]

/-- What the loop gives its turns lead to. -/
theorem returns_of_loop (fuel : Nat) {s r : σ} (h : loop cond body fuel s = some r) :
    Returns cond body s r := by
  induction fuel generalizing s with
  | zero =>
      cases hs : cond s with
      | true => simp [loop, hs] at h
      | false =>
          obtain rfl : s = r := by simpa [loop, hs] using h
          exact ⟨.refl, hs⟩
  | succ fuel ih =>
      cases hs : cond s with
      | true =>
          simp only [loop, hs, if_true, Option.bind_eq_some_iff] at h
          obtain ⟨s', hb, hr⟩ := h
          exact ⟨.head ⟨hs, hb⟩ (ih hr).1, (ih hr).2⟩
      | false =>
          obtain rfl : s = r := by simpa [loop, hs] using h
          exact ⟨.refl, hs⟩

/-- With enough fuel the loop gives what its turns lead to. -/
theorem loop_of_returns {s r : σ} (h : Returns cond body s r) :
    ∃ fuel, loop cond body fuel s = some r := by
  obtain ⟨ht, hr⟩ := h
  induction ht using Relation.ReflTransGen.head_induction_on with
  | refl => exact ⟨0, loop_of_stop hr 0⟩
  | head hst _ ih =>
      obtain ⟨fuel, hf⟩ := ih
      exact ⟨fuel + 1, (loop_of_turn hst fuel).trans hf⟩

/-- With enough fuel the loop gives what its turns lead to, and with any
fuel it gives nothing else. -/
theorem returns_iff {s r : σ} :
    (∃ fuel, loop cond body fuel s = some r) ↔ Returns cond body s r := by
  constructor
  · rintro ⟨fuel, h⟩
    exact returns_of_loop fuel h
  · exact loop_of_returns

/-- A turn has one outcome. -/
theorem Turn.unique {s a b : σ} (ha : Turn cond body s a) (hb : Turn cond body s b) :
    a = b := Option.some.inj (ha.2.symm.trans hb.2)

/-- What the loop returns it also returns from anywhere on its way. -/
theorem Returns.resume {s s' r : σ} (h : Returns cond body s r)
    (ht : Turns cond body s s') : Returns cond body s' r := by
  induction ht using Relation.ReflTransGen.head_induction_on with
  | refl => exact h
  | head hst _ ih =>
      apply ih
      cases h.1.cases_head with
      | inl heq =>
          rw [heq] at hst
          exact absurd (hst.1.symm.trans h.2) (by decide)
      | inr hex =>
          obtain ⟨c, hc, hcr⟩ := hex
          rw [hst.unique hc]
          exact ⟨hcr, h.2⟩

/-- A loop that returns does not fault on its way. -/
theorem Returns.body_ne_none {s r : σ} (h : Returns cond body s r)
    (hs : cond s = true) : body s ≠ none := by
  cases h.1.cases_head with
  | inl heq =>
      rw [heq] at hs
      exact absurd (hs.symm.trans h.2) (by decide)
  | inr hex =>
      obtain ⟨c, hc, -⟩ := hex
      rw [hc.2]
      exact Option.some_ne_none c

/-- The rule for an invariant of the loop. -/
theorem Turns.invariant {I : σ → Prop}
    (step : ∀ s s', I s → Turn cond body s s' → I s') {s s' : σ}
    (h : Turns cond body s s') (hs : I s) : I s' := by
  induction h with
  | refl => exact hs
  | tail _ hst ih => exact step _ _ ih hst

-- ======================================================= counting loops

variable (round : σ → Nat → Option σ) (P : Nat → σ → Prop) {s : σ}

/-- One more round. -/
theorem count_succ (s : σ) (n : Nat) :
    (List.range (n + 1)).foldlM round s
      = ((List.range n).foldlM round s).bind fun s => round s n := by
  rw [List.range_succ, List.foldlM_append]
  refine congrArg _ (funext fun s => ?_)
  rw [List.foldlM_cons]
  exact Option.bind_fun_some (round s n)

/-- A loop whose rounds all go through. -/
theorem count_total {n : Nat} (hs : P 0 s)
    (hround : ∀ i < n, ∀ s, P i s → ∃ s', round s i = some s' ∧ P (i + 1) s') :
    ∃ s', (List.range n).foldlM round s = some s' ∧ P n s' := by
  induction n with
  | zero => exact ⟨s, rfl, hs⟩
  | succ n ih =>
      obtain ⟨s', hrun, hs'⟩ := ih fun i hi => hround i (Nat.lt_succ_of_lt hi)
      obtain ⟨s'', hlast, hs''⟩ := hround n (Nat.lt_succ_self n) s' hs'
      exact ⟨s'', by rw [count_succ, hrun, Option.bind_some, hlast], hs''⟩

/-- The rule for an invariant of a loop that has gone through. -/
theorem count_invariant (hs : P 0 s)
    (hround : ∀ i s s', P i s → round s i = some s' → P (i + 1) s') :
    ∀ {n : Nat} {s' : σ}, (List.range n).foldlM round s = some s' → P n s' := by
  intro n
  induction n with
  | zero =>
      intro s' h
      cases h
      exact hs
  | succ n ih =>
      intro s' h
      rw [count_succ] at h
      obtain ⟨s'', hrun, hlast⟩ := Option.bind_eq_some_iff.mp h
      exact hround n s'' s' (ih hrun) hlast

end ThesisBench.While

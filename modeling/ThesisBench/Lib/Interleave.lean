/-
Interleavings of threads whose steps are fixed in advance.

A thread is the list of its atomic steps. `Interleaves ts s` says that
`s` is one order in which the threads `ts` can run to completion. Two
facts carry every use: an interleaving is a permutation of all the
steps, so it agrees with any other on what does not depend on order;
and the steps that belong to one thread alone stand in that thread's
order.

Threads may also have a local variable that a step reads and sets
(`Runs`): a step is then a partial function of the local and the shared
state, and a step that has no result ends the run. What holds at the
start and is kept by every step holds at the end (`Runs.invariant`).
-/
import Mathlib.Data.List.Basic
import Mathlib.Tactic.Common

namespace ThesisBench.Interleave

variable {α β : Type _}

/-- One order of the threads' steps. -/
inductive Interleaves : List (List α) → List α → Prop
  | done {ts : List (List α)} : (∀ t ∈ ts, t = []) → Interleaves ts []
  | step {l r : List (List α)} {a : α} {t s : List α} :
      Interleaves (l ++ t :: r) s → Interleaves (l ++ (a :: t) :: r) (a :: s)

/-- An interleaving has the elements of all threads. -/
theorem Interleaves.perm {ts : List (List α)} {s : List α}
    (h : Interleaves ts s) : s.Perm ts.flatten := by
  induction h with
  | done hts =>
      rw [List.flatten_eq_nil_iff.mpr hts]
  | @step l r a t s _ ih =>
      rw [List.flatten_append, List.flatten_cons] at ih ⊢
      exact (ih.cons a).trans List.perm_middle.symm

/-- Dropping and renaming steps. -/
theorem Interleaves.filterMap (f : α → Option β) {ts : List (List α)}
    {s : List α} (h : Interleaves ts s) :
    Interleaves (ts.map (List.filterMap f)) (s.filterMap f) := by
  induction h with
  | done hts =>
      refine .done fun t ht => ?_
      obtain ⟨u, hu, rfl⟩ := List.mem_map.mp ht
      rw [hts u hu]
      rfl
  | @step l r a t s _ ih =>
      rw [List.map_append, List.map_cons] at ih ⊢
      cases hfa : f a with
      | none =>
          rw [List.filterMap_cons_none hfa, List.filterMap_cons_none hfa]
          exact ih
      | some b =>
          rw [List.filterMap_cons_some hfa, List.filterMap_cons_some hfa]
          exact .step ih

/-- Renamed steps interleave as the steps do. -/
theorem Interleaves.of_map (f : α → β) {us : List (List β)} {s : List β}
    (h : Interleaves us s) :
    ∀ ts : List (List α), us = ts.map (List.map f) →
      ∃ s', s = s'.map f ∧ Interleaves ts s' := by
  induction h with
  | done hnil =>
      rintro ts rfl
      refine ⟨[], rfl, .done fun t ht => ?_⟩
      exact List.map_eq_nil_iff.mp (hnil _ (List.mem_map_of_mem ht))
  | step _ ih =>
      intro ts hts
      obtain ⟨l, r', rfl, rfl, hr⟩ := List.map_eq_append_iff.mp hts.symm
      obtain ⟨u, r, rfl, hu, rfl⟩ := List.map_eq_cons_iff.mp hr
      obtain ⟨a, t, rfl, rfl, rfl⟩ := List.map_eq_cons_iff.mp hu
      obtain ⟨s', rfl, hs'⟩ := ih (l ++ t :: r) (by simp)
      exact ⟨a :: s', rfl, .step hs'⟩

/-- When at most one thread has steps, its order is the only one. -/
theorem Interleaves.eq_flatten {ts : List (List α)} {s : List α}
    (h : Interleaves ts s) (hts : ts.Pairwise fun t u => t = [] ∨ u = []) :
    s = ts.flatten := by
  induction h with
  | done hnil => rw [List.flatten_eq_nil_iff.mpr hnil]
  | @step l r a t s _ ih =>
      obtain ⟨hl, hr, hlr⟩ := List.pairwise_append.mp hts
      obtain ⟨har, hr⟩ := List.pairwise_cons.mp hr
      have hlnil : l.flatten = [] := List.flatten_eq_nil_iff.mpr fun u hu =>
        (hlr u hu (a :: t) (List.mem_cons_self ..)).resolve_right
          (List.cons_ne_nil _ _)
      rw [ih, List.flatten_append, List.flatten_append, hlnil]
      · rfl
      · refine List.pairwise_append.mpr ⟨hl, List.pairwise_cons.mpr
          ⟨fun u hu => ?_, hr⟩, fun u hu _ _ => ?_⟩
        · exact Or.inr ((har u hu).resolve_left (List.cons_ne_nil _ _))
        · exact Or.inl (List.flatten_eq_nil_iff.mp hlnil u hu)

/-- The threads one after the other are an interleaving. -/
theorem interleaves_flatten (ts : List (List α)) : Interleaves ts ts.flatten := by
  suffices h : ∀ l : List (List α), (∀ t ∈ l, t = []) →
      Interleaves (l ++ ts) ts.flatten from h [] (by simp)
  induction ts with
  | nil =>
      intro l hl
      exact .done (by simpa using hl)
  | cons t ts ih =>
      intro l hl
      induction t with
      | nil =>
          have hrest := ih (l ++ [[]]) fun t ht => by
            rcases List.mem_append.mp ht with ht | ht
            · exact hl t ht
            · exact List.mem_singleton.mp ht
          simpa using hrest
      | cons a t iht => exact .step iht

-- ======================================================= local variables

variable {ν σ : Type _}

/-- A run of threads, each with its local variable and its remaining
steps; `none` is a run that ends at a step without a result. -/
inductive Runs (run : α → ν → σ → Option (ν × σ)) :
    List (ν × List α) → σ → Option σ → Prop
  | done {ts : List (ν × List α)} {s : σ} : (∀ t ∈ ts, t.2 = []) → Runs run ts s (some s)
  | step {l r : List (ν × List α)} {a : α} {t : List α} {v v' : ν} {s s' : σ}
      {out : Option σ} : run a v s = some (v', s') →
      Runs run (l ++ (v', t) :: r) s' out → Runs run (l ++ (v, a :: t) :: r) s out
  | fault {l r : List (ν × List α)} {a : α} {t : List α} {v : ν} {s : σ} :
      run a v s = none → Runs run (l ++ (v, a :: t) :: r) s none

variable {run : α → ν → σ → Option (ν × σ)}

/-- Steps that keep an invariant and always have a result. -/
theorem Runs.invariant {inv : List (ν × List α) → σ → Prop}
    (hstep : ∀ l r a t v s, inv (l ++ (v, a :: t) :: r) s →
      ∃ v' s', run a v s = some (v', s') ∧ inv (l ++ (v', t) :: r) s')
    {ts : List (ν × List α)} {s : σ} {out : Option σ} (h : Runs run ts s out)
    (hinv : inv ts s) :
    ∃ ts' s', out = some s' ∧ inv ts' s' ∧ ∀ t ∈ ts', t.2 = [] := by
  induction h with
  | done hts => exact ⟨_, _, rfl, hinv, hts⟩
  | step ha _ ih =>
      obtain ⟨v', s', hb, hinv'⟩ := hstep _ _ _ _ _ _ hinv
      cases ha.symm.trans hb
      exact ih hinv'
  | fault ha =>
      obtain ⟨v', s', hb, -⟩ := hstep _ _ _ _ _ _ hinv
      cases ha.symm.trans hb

end ThesisBench.Interleave

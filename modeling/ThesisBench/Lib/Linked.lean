/-
Singly linked chains: cells that each point to the next one or to
nothing.

`Chain next e l` is the chain that starts at the pointer `e` and runs
through the cells `l`; being inductive it is finite. A chain only depends
on the links of its own cells, and a walk along it sees exactly its cells.
-/
import Mathlib.Tactic.Common

namespace ThesisBench.Linked

variable {α : Type _} {next next' : α → Option α}

/-- From `e` the links lead through `l` and end. -/
inductive Chain (next : α → Option α) : Option α → List α → Prop
  | nil : Chain next none []
  | cons {a : α} {l : List α} : Chain next (next a) l → Chain next (some a) (a :: l)

/-- The links of other cells do not matter. -/
theorem Chain.frame {e : Option α} {l : List α} (h : Chain next e l)
    (heq : ∀ a ∈ l, next' a = next a) : Chain next' e l := by
  induction h with
  | nil => exact .nil
  | @cons a l _ ih =>
      have ha := heq a List.mem_cons_self
      refine .cons ?_
      rw [ha]
      exact ih fun b hb => heq b (List.mem_cons_of_mem a hb)

/-- A chain is empty when it starts at nothing. -/
theorem Chain.eq_nil_iff {e : Option α} {l : List α} (h : Chain next e l) :
    l = [] ↔ e = none := by
  cases h with
  | nil => simp
  | cons _ => simp

/-- `while (e) { if (test(e)) break; e = e->next; }`: whether the loop was
left by the break; nothing if `fuel` rounds do not end it. -/
def search (next : α → Option α) (test : α → Bool) : Nat → Option α → Option Bool
  | _, none => some false
  | 0, some _ => none
  | fuel + 1, some a => if test a then some true else search next test fuel (next a)

/-- With fuel for the whole chain the search says whether an element passes
the test. -/
theorem Chain.search_eq {test : α → Bool} {e : Option α} {l : List α} (h : Chain next e l) :
    ∀ {fuel : Nat}, l.length ≤ fuel → search next test fuel e = some (l.any test) := by
  induction h with
  | nil =>
      intro fuel _
      unfold search
      rfl
  | @cons a l _ ih =>
      intro fuel hf
      cases fuel with
      | zero =>
          rw [List.length_cons] at hf
          omega
      | succ fuel =>
          rw [List.length_cons] at hf
          unfold search
          rw [ih (by omega), List.any_cons]
          cases test a with
          | false => rfl
          | true => rfl

end ThesisBench.Linked

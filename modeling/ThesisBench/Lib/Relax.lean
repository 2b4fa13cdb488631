/-
Shortest distances by relaxation.

The edges are a relation `e x w y`, an edge of weight `w` from `x` to
`y`, and a label is a bound on the distance of its vertex from the start,
or `cap` where no bound below it is known. A search that lowers labels,
in whatever order, is right for two reasons: a label below `cap` is the
weight of a walk (`Sound`), and in the end no edge lowers a label any
more (`Relaxed`). Then every label is the distance, as far as that is
below `cap` (`Sound.isDist`).
-/
import Mathlib.Algebra.Order.Monoid.Defs
import Mathlib.Order.Defs.LinearOrder
import Mathlib.Tactic.Common

namespace ThesisBench.Relax

variable {α W : Type _} [AddCommMonoid W] [LinearOrder W]

/-- A walk from `s` with the sum of its weights. -/
inductive Walk (e : α → W → α → Prop) (s : α) : W → α → Prop
  | nil : Walk e s 0 s
  | snoc {d w : W} {x y : α} : Walk e s d x → e x w y → Walk e s (d + w) y

/-- `d` is the distance of `x` if that is below `cap`, and else `cap`. -/
structure IsDist (e : α → W → α → Prop) (s : α) (cap : W) (x : α) (d : W) : Prop where
  walk : d < cap → Walk e s d x
  le_cap : d ≤ cap
  least : ∀ k, Walk e s k x → d ≤ k

/-- What a label stands for. -/
structure Sound (e : α → W → α → Prop) (s : α) (cap : W) (x : α) (d : W) : Prop where
  walk : d < cap → Walk e s d x
  le_cap : d ≤ cap

/-- No edge lowers a label. -/
def Relaxed (e : α → W → α → Prop) (label : α → W) : Prop :=
  ∀ x w y, e x w y → label y ≤ label x + w

variable {e : α → W → α → Prop} {s x y : α} {cap d d' w : W}

theorem IsDist.unique (h : IsDist e s cap x d) (h' : IsDist e s cap x d') : d = d' := by
  have hle : ∀ {a b : W}, IsDist e s cap x a → IsDist e s cap x b → a ≤ b := by
    intro a b ha hb
    rcases hb.le_cap.lt_or_eq with hlt | heq
    · exact ha.least b (hb.walk hlt)
    · exact heq ▸ ha.le_cap
  exact le_antisymm (hle h h') (hle h' h)

/-- The start has label 0, which nothing is below. -/
theorem Sound.start (hcap : 0 ≤ cap) : Sound e s cap s 0 :=
  ⟨fun _ => .nil, hcap⟩

variable [IsOrderedAddMonoid W]

/-- The label an edge leads to, from a sound one. -/
theorem Sound.step (h : Sound e s cap x d) (hxy : e x w y) (hw : 0 ≤ w) (hlt : d + w < cap) :
    Sound e s cap y (d + w) := by
  refine ⟨fun _ => (h.walk ?_).snoc hxy, hlt.le⟩
  calc d ≤ d + w := le_add_of_nonneg_right hw
    _ < cap := hlt

/-- Once no edge lowers a label, every walk weighs as much as the label of
its end. -/
theorem Relaxed.le {label : α → W} (h : Relaxed e label) (hs : label s ≤ 0)
    (hx : Walk e s d x) : label x ≤ d := by
  induction hx with
  | nil => exact hs
  | @snoc d w x y _ hxy ih =>
      calc label y ≤ label x + w := h x w y hxy
        _ ≤ d + w := by gcongr

/-- Where no edge lowers a label, sound labels are the distances. -/
theorem Relaxed.isDist {label : α → W} (h : Relaxed e label) (hs : label s ≤ 0)
    (hx : Sound e s cap x (label x)) : IsDist e s cap x (label x) :=
  ⟨hx.walk, hx.le_cap, fun _ hk => h.le hs hk⟩

end ThesisBench.Relax

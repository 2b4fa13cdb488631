/-
The labels that the algorithms for connected components keep.

The array of labels is a forest (`Lib/Forest`) whose trees stay inside
the components of the graph (`Sound`). When the ends of every edge are
in one tree, a root is the least vertex of its component
(`Sound.isLeast`). Of `Compress` only the task of a vertex writes the
vertex's label, and no root changes: it replaces every label by its root
(`compress_total`).
-/
import Mathlib.Logic.Relation
import Mathlib.Order.Bounds.Basic
import ThesisBench.Gapbs.Components
import ThesisBench.Lib.Forest

namespace ThesisBench.Gapbs.Components

open Parallel Forest

variable {ρ : Type} {m m' : Memory ρ} {x y z : Nat}

-- =============================================================== labels

/-- The label of a vertex; what is no vertex has itself. -/
def Memory.label (m : Memory ρ) (x : Nat) : Nat := m.comp.getD x x

theorem Memory.label_of_get (h : m.comp[x]? = some y) : m.label x = y := by
  rw [Memory.label, List.getD_eq_getElem?_getD, h, Option.getD_some]

theorem Memory.get_label (h : x < m.comp.length) : m.comp[x]? = some (m.label x) := by
  rw [Memory.label, List.getD_eq_getElem?_getD, List.getElem?_eq_getElem h, Option.getD_some]

theorem Memory.label_out (h : m.comp.length ≤ x) : m.label x = x := by
  rw [Memory.label, List.getD_eq_getElem?_getD, List.getElem?_eq_none h, Option.getD_none]

/-- A store that goes through was in the array and changes one label. -/
theorem Memory.store_spec (h : m.store x y = some m') : x < m.comp.length
    ∧ m'.comp.length = m.comp.length ∧ m'.reg = m.reg
    ∧ m'.label = Function.update m.label x y := by
  unfold Memory.store at h
  split at h
  case isFalse => cases h
  case isTrue hx =>
    cases h
    refine ⟨hx, List.length_set, rfl, ?_⟩
    funext z
    by_cases hz : z = x
    · subst hz
      rw [Function.update_self]
      exact Memory.label_of_get (List.getElem?_set_self hx)
    · rw [Function.update_of_ne hz, Memory.label, Memory.label,
        List.getD_eq_getElem?_getD, List.getD_eq_getElem?_getD,
        List.getElem?_set_ne (Ne.symm hz)]

theorem Memory.exists_store (h : x < m.comp.length) (y : Nat) :
    ∃ m', m.store x y = some m' :=
  ⟨_, if_pos h⟩

-- =========================================================== components

/-- Weakly connected. -/
def Connected (g : CSRGraph Nat) : Nat → Nat → Prop :=
  Relation.EqvGen fun u v => u < g.numNodes ∧ v ∈ g.outs u

variable {g : CSRGraph Nat}

/-- Labels that point down, inside the components. -/
structure Sound (g : CSRGraph Nat) (m : Memory ρ) : Prop where
  length : m.comp.length = g.numNodes
  le : ∀ x, m.label x ≤ x
  connected : ∀ x, Connected g x (m.label x)

theorem Sound.get (h : Sound g m) (hx : x < g.numNodes) : m.comp[x]? = some (m.label x) :=
  Memory.get_label (h.length ▸ hx)

theorem Sound.connected_root (h : Sound g m) (x : Nat) : Connected g x (root m.label x) :=
  root_rel (fun x => .refl x) (fun x y z => .trans x y z) h.connected x

theorem Sound.connected_of_root (h : Sound g m) (hxy : root m.label x = root m.label y) :
    Connected g x y := by
  refine .trans x (root m.label x) y (h.connected_root x) ?_
  rw [hxy]
  exact .symm _ _ (h.connected_root y)

/-- A store of a smaller connected vertex keeps the labels sound. -/
theorem Sound.store (h : Sound g m) (hs : m.store x y = some m') (hle : y ≤ x)
    (hc : Connected g x y) : Sound g m' := by
  obtain ⟨-, hlen, -, hlabel⟩ := Memory.store_spec hs
  refine ⟨hlen.trans h.length, ?_, ?_⟩
  · rw [hlabel]
    exact update_le h.le hle
  · intro z
    rw [hlabel]
    by_cases hz : z = x
    · subst hz
      rw [Function.update_self]
      exact hc
    · rw [Function.update_of_ne hz]
      exact h.connected z

/-- When the ends of every edge have one root, a root is the least vertex
of its component. -/
theorem Sound.isLeast (h : Sound g m)
    (hedge : ∀ u < g.numNodes, ∀ v ∈ g.outs u, root m.label u = root m.label v) (x : Nat) :
    IsLeast {y | Connected g x y} (root m.label x) := by
  refine ⟨h.connected_root x, fun y hy => ?_⟩
  have hroot : ∀ x y, Connected g x y → root m.label x = root m.label y := by
    intro x y hxy
    induction hxy with
    | rel u v huv => exact hedge u huv.1 v huv.2
    | refl => rfl
    | symm _ _ _ ih => exact ih.symm
    | trans _ _ _ _ _ ih₁ ih₂ => exact ih₁.trans ih₂
  rw [hroot x y hy]
  exact root_le _ _

/-- Every vertex has the least vertex of its component. -/
def Labelled (g : CSRGraph Nat) (m : Memory ρ) : Prop :=
  m.comp.length = g.numNodes
    ∧ ∀ x < g.numNodes, IsLeast {y | Connected g x y} (m.label x)

-- =========================================================== initialise

/-- Every vertex points at itself. -/
structure Fresh (g : CSRGraph Nat) (m : Memory ρ) : Prop where
  length : m.comp.length = g.numNodes
  label : ∀ x, m.label x = x

/-- Labels that point at themselves are sound. -/
theorem Fresh.sound (h : Fresh g m) : Sound g m where
  length := h.length
  le x := (h.label x).le
  connected x := by
    rw [h.label x]
    exact .refl x

/-- The first loop makes every vertex point at itself. -/
theorem initialise_total (hlen : m.comp.length = g.numNodes) :
    Total (initialise g.numNodes) m (Fresh g) := by
  refine total_once (fun m => m.comp.length = g.numNodes) (fun n _ => n < g.numNodes)
    (fun n m => m.label n = n) ?_ ?_ List.nodup_range hlen
    (fun n hn => List.mem_range.mp hn) ?_
  · intro n m hm hn
    obtain ⟨m', hm'⟩ := Memory.exists_store (m := m) (hm ▸ hn) n
    obtain ⟨-, hlen', -, hlabel⟩ := Memory.store_spec hm'
    refine ⟨m', hm', hlen'.trans hm, ?_⟩
    rw [hlabel]
    exact Function.update_self ..
  · intro n k m m' hne hm hk hstep
    obtain ⟨-, -, -, hlabel⟩ := Memory.store_spec hstep
    refine ⟨id, fun hn => ?_⟩
    rw [hlabel, Function.update_of_ne hne]
    exact hn
  · intro m' hm' hall
    refine ⟨hm', fun x => ?_⟩
    by_cases hx : x < g.numNodes
    · exact hall x (List.mem_range.mpr hx)
    · exact Memory.label_out (hm' ▸ Nat.le_of_not_lt hx)

-- ============================================================= compress

/-- What an iteration of `Compress` knows; `r` are the roots. -/
def CompressAt.Knows (r : Nat → Nat) (m : Memory ρ) (n : Nat) : CompressAt → Prop
  | .test => True
  | .testFirst p => p = m.label n
  | .testSecond p q => p = m.label n ∧ q = m.label n
  | .load => m.label (m.label n) < m.label n
  | .loadSecond q => q = m.label n ∧ m.label q < q
  | .write p => p < m.label n ∧ r p = r n
  | .done => m.label n = r n

/-- The steps of a round of the loop are counted down from its start. -/
def CompressAt.toGo (l : Nat) : CompressAt → Nat
  | .test => 6 * l + 6
  | .testFirst _ => 6 * l + 5
  | .testSecond _ _ => 6 * l + 4
  | .load => 6 * l + 3
  | .loadSecond _ => 6 * l + 2
  | .write _ => 6 * l + 1
  | .done => 0

/-- While the roots stay `r` and the shared variable `c`. -/
structure Rooted (g : CSRGraph Nat) (r : Nat → Nat) (c : ρ) (m : Memory ρ) : Prop
    extends Sound g m where
  root : ∀ x, root m.label x = r x
  reg : m.reg = c

variable {r : Nat → Nat} {c : ρ}

theorem Rooted.label_lt (h : Rooted g r c m) (hx : x < g.numNodes) :
    m.label x < g.numNodes := by
  have hle := h.le x
  omega

theorem Rooted.root_label (h : Rooted g r c m) (x : Nat) : r (m.label x) = r x := by
  rw [← h.root, ← h.root]
  exact root_parent h.le x

/-- A task whose read or write succeeds moves. -/
theorem exists_map {α β γ : Type} {o : Option α} {a : α} (h : o = some a) (f : α → β × γ) :
    ∃ b d, o.map f = some (b, d) :=
  ⟨(f a).1, (f a).2, by rw [h, Option.map_some]⟩

/-- An iteration of `Compress` is never stuck. -/
theorem compressing_moves (h : Rooted g r c m) {n : Nat} {l : CompressAt}
    (hn : n < g.numNodes) (hl : l.Knows r m n) (hdone : l ≠ .done) :
    ∃ l' m', (compressing (ρ := ρ)).next (n, l) m = some (l', m') := by
  have hget := h.get hn
  have hget' := h.get (h.label_lt hn)
  cases l with
  | test => exact exists_map hget _
  | testFirst p => exact exists_map hget _
  | testSecond p q =>
      obtain ⟨-, rfl⟩ := hl
      exact exists_map hget' _
  | load => exact exists_map hget _
  | loadSecond q =>
      obtain ⟨rfl, -⟩ := hl
      exact exists_map hget' _
  | write p =>
      obtain ⟨m', hm'⟩ := Memory.exists_store (m := m) (h.length ▸ hn) p
      exact exists_map hm' _
  | done => exact absurd rfl hdone

/-- A write moves a vertex down its own tree. -/
theorem Rooted.write (h : Rooted g r c m) {n p : Nat} (hp : p < m.label n)
    (hr : r p = r n) (hs : m.store n p = some m') : Rooted g r c m' := by
  have hle := h.le n
  have hroot : Forest.root m.label p = Forest.root m.label n := by
    rw [h.root, h.root, hr]
  obtain ⟨-, -, hreg, hlabel⟩ := Memory.store_spec hs
  refine ⟨h.toSound.store hs (by omega) (h.connected_of_root hroot.symm), ?_, ?_⟩
  · intro x
    rw [hlabel, root_move (by omega) hroot, h.root]
  · rw [hreg, h.reg]

/-- An iteration's step keeps the roots and leaves less to do. -/
theorem compressing_own (h : Rooted g r c m) {n : Nat} {l : CompressAt}
    (hl : l.Knows r m n) {l' : Nat × CompressAt}
    (hnext : (compressing (ρ := ρ)).next (n, l) m = some (l', m')) :
    Rooted g r c m' ∧ l'.1 = n ∧ l'.2.Knows r m' n
      ∧ l'.2.toGo (m'.label n) < l.toGo (m.label n) := by
  cases l with
  | test =>
      obtain ⟨p, hp, heq⟩ := Option.map_eq_some_iff.mp hnext
      cases heq
      refine ⟨h, rfl, (Memory.label_of_get hp).symm, ?_⟩
      simp only [CompressAt.toGo]
      omega
  | testFirst p =>
      obtain ⟨q, hq, heq⟩ := Option.map_eq_some_iff.mp hnext
      cases heq
      refine ⟨h, rfl, ⟨hl, (Memory.label_of_get hq).symm⟩, ?_⟩
      simp only [CompressAt.toGo]
      omega
  | testSecond p q =>
      obtain ⟨rfl, rfl⟩ := hl
      obtain ⟨p', hp', heq⟩ := Option.map_eq_some_iff.mp hnext
      have hp' := Memory.label_of_get hp'
      have hle := h.le (m.label n)
      split at heq
      case isTrue hfix =>
        cases heq
        refine ⟨h, rfl, ?_, by simp only [CompressAt.toGo]; omega⟩
        show m.label n = r n
        rw [← h.root_label n, ← h.root, root_of_fixed (hp'.trans hfix.symm)]
      case isFalse hne =>
        cases heq
        refine ⟨h, rfl, ?_, by simp only [CompressAt.toGo]; omega⟩
        show m.label (m.label n) < m.label n
        omega
  | load =>
      obtain ⟨q, hq, heq⟩ := Option.map_eq_some_iff.mp hnext
      cases heq
      have hq := Memory.label_of_get hq
      subst hq
      refine ⟨h, rfl, ⟨rfl, hl⟩, ?_⟩
      simp only [CompressAt.toGo]
      omega
  | loadSecond q =>
      obtain ⟨rfl, hlt⟩ := hl
      obtain ⟨p, hp, heq⟩ := Option.map_eq_some_iff.mp hnext
      cases heq
      have hp := Memory.label_of_get hp
      subst hp
      refine ⟨h, rfl, ⟨hlt, ?_⟩, ?_⟩
      · rw [h.root_label, h.root_label]
      · simp only [CompressAt.toGo]
        omega
  | write p =>
      obtain ⟨hlt, hr⟩ := hl
      obtain ⟨m₁, hm₁, heq⟩ := Option.map_eq_some_iff.mp hnext
      cases heq
      obtain ⟨-, -, -, hlabel⟩ := Memory.store_spec hm₁
      refine ⟨h.write hlt hr hm₁, rfl, trivial, ?_⟩
      simp only [CompressAt.toGo, hlabel, Function.update_self]
      omega
  | done => cases hnext

/-- A step of another iteration changes no label but its own vertex's,
and that to a smaller one. -/
theorem compressing_frame {n : Nat} {l : CompressAt}
    (hl : l.Knows r m n) {l' : Nat × CompressAt}
    (hnext : (compressing (ρ := ρ)).next (n, l) m = some (l', m')) :
    (∀ x, x ≠ n → m'.label x = m.label x) ∧ ∀ x, m'.label x ≤ m.label x := by
  cases l with
  | write p =>
      obtain ⟨hlt, hr⟩ := hl
      obtain ⟨m₁, hm₁, heq⟩ := Option.map_eq_some_iff.mp hnext
      cases heq
      obtain ⟨-, -, -, hlabel⟩ := Memory.store_spec hm₁
      rw [hlabel]
      refine ⟨fun x hx => Function.update_of_ne hx _ _, fun x => ?_⟩
      by_cases hx : x = n
      · subst hx
        rw [Function.update_self]
        omega
      · rw [Function.update_of_ne hx]
  | testSecond p q =>
      obtain ⟨p', -, heq⟩ := Option.map_eq_some_iff.mp hnext
      split at heq <;> cases heq <;> exact ⟨fun _ _ => rfl, fun _ => Nat.le_refl _⟩
  | done => cases hnext
  | test | testFirst | load | loadSecond =>
      obtain ⟨p, -, heq⟩ := Option.map_eq_some_iff.mp hnext
      cases heq
      exact ⟨fun _ _ => rfl, fun _ => Nat.le_refl _⟩

/-- What an iteration knows stays true while labels go down. -/
theorem CompressAt.Knows.frame {n : Nat} {l : CompressAt} (hl : l.Knows r m n)
    (hn : m'.label n = m.label n) (hle : ∀ x, m'.label x ≤ m.label x) :
    l.Knows r m' n := by
  cases l with
  | test => trivial
  | testFirst p => exact hl.trans hn.symm
  | testSecond p q => exact ⟨hl.1.trans hn.symm, hl.2.trans hn.symm⟩
  | load =>
      have hle' := hle (m.label n)
      show m'.label (m'.label n) < m'.label n
      rw [hn]
      exact Nat.lt_of_le_of_lt hle' hl
  | loadSecond q => exact ⟨hl.1.trans hn.symm, Nat.lt_of_le_of_lt (hle q) hl.2⟩
  | write p =>
      refine ⟨?_, hl.2⟩
      rw [hn]
      exact hl.1
  | done => exact hn.trans hl

def compressOutline (g : CSRGraph Nat) (r : Nat → Nat) (c : ρ) :
    Outline (compressing (ρ := ρ)) Nat where
  tag l := l.1
  inv := Rooted g r c
  asserts l m := l.1 < g.numNodes ∧ l.2.Knows r m l.1
  left l m := l.2.toGo (m.label l.1)
  moves := by
    rintro ⟨n, l⟩ m h ⟨hn, hl⟩ hdone
    exact compressing_moves h hn hl (by simpa [compressing] using hdone)
  own := by
    rintro ⟨n, l⟩ m l' m' h ⟨hn, hl⟩ hnext
    obtain ⟨h', htag, hl', hlt⟩ := compressing_own h hl hnext
    refine ⟨h', ?_, htag, ?_⟩ <;> rw [htag]
    · exact ⟨hn, hl'⟩
    · exact hlt
  other := by
    rintro ⟨n, l⟩ ⟨k, l₁⟩ m l₁' m' h ⟨hn, hl⟩ ⟨-, hl₁⟩ htag hnext
    obtain ⟨hsame, hle⟩ := compressing_frame hl₁ hnext
    have hlabel := hsame n htag
    refine ⟨⟨hn, hl.frame hlabel hle⟩, ?_⟩
    simp only
    rw [hlabel]

/-- `Compress` replaces every label by its root. -/
theorem compress_total (h : Sound g m) :
    Total (compress g.numNodes) m fun m' =>
      Rooted g (root m.label) m.reg m' ∧ ∀ x, m'.label x = root m.label x := by
  refine (compressOutline g (root m.label) m.reg).parallelFor (fun _ => rfl)
    ⟨h, fun _ => rfl, rfl⟩ (fun n hn => ⟨hn, trivial⟩) ?_
  intro m' h' hall
  refine ⟨h', fun x => ?_⟩
  by_cases hx : x < g.numNodes
  · obtain ⟨⟨n, l⟩, rfl, hl, hdone⟩ := hall x hx
    have hl' : l = .done := by simpa [compressing] using hdone
    subst hl'
    exact hl.2
  · have hlt := Nat.le_of_not_lt hx
    rw [Memory.label_out (h'.length ▸ hlt), root_of_fixed (Memory.label_out (h.length ▸ hlt))]

end ThesisBench.Gapbs.Components

/-
`Afforest` labels every vertex with the least vertex of its component.

A link joins the trees of two vertices and never separates vertices
(`Grows`), so what a task knows about the trees survives every step of
the others. The larger of the two vertices that a call of `Link` looks
at goes down from round to round whatever the other tasks do, so every
call returns.

At the end the two ends of every edge are in one tree: an edge of the
first rounds was linked by the sampling, any other by the last loop from
one of its ends, unless the loop skipped both, and then both are in the
tree of `c`.
-/
import ThesisBench.Gapbs.Proofs.Components

namespace ThesisBench.Gapbs.Components

open Parallel Forest

variable {ρ : Type} {m m' : Memory ρ} {x y : Nat} {g : CSRGraph Nat}

-- ================================================================= link

def SameTree (m : Memory ρ) (x y : Nat) : Prop := root m.label x = root m.label y

/-- Trees are joined and labels go down. -/
structure Grows (m m' : Memory ρ) : Prop where
  same : ∀ {x y}, SameTree m x y → SameTree m' x y
  le : ∀ x, m'.label x ≤ m.label x

theorem Grows.refl (m : Memory ρ) : Grows m m := ⟨id, fun _ => Nat.le_refl _⟩

theorem Sound.sameTree_label (h : Sound g m) (x : Nat) : SameTree m (m.label x) x :=
  root_parent h.le x

/-- Of two vertices one is in the tree of `u` and one in that of `v`. -/
def Joins (m : Memory ρ) (u v p q : Nat) : Prop :=
  (SameTree m p u ∧ SameTree m q v) ∨ (SameTree m p v ∧ SameTree m q u)

variable {u v p p' q q' : Nat}

/-- What is to be joined stays so while trees grow. -/
theorem Joins.grows (hj : Joins m u v p q) (hg : Grows m m') : Joins m' u v p q := by
  cases hj with
  | inl h => exact .inl ⟨hg.same h.1, hg.same h.2⟩
  | inr h => exact .inr ⟨hg.same h.1, hg.same h.2⟩

theorem Joins.symm (hj : Joins m u v p q) : Joins m u v q p := by
  cases hj with
  | inl h => exact .inr ⟨h.2, h.1⟩
  | inr h => exact .inl ⟨h.2, h.1⟩

/-- One end may be exchanged for another vertex of its tree. -/
theorem Joins.left (hj : Joins m u v p q) (hp : SameTree m p' p) : Joins m u v p' q := by
  cases hj with
  | inl h => exact .inl ⟨hp.trans h.1, h.2⟩
  | inr h => exact .inr ⟨hp.trans h.1, h.2⟩

theorem Joins.right (hj : Joins m u v p q) (hq : SameTree m q' q) : Joins m u v p q' :=
  (hj.symm.left hq).symm

/-- When the ends have met, the vertices have. -/
theorem Joins.sameTree (hj : Joins m u v p q) (hpq : SameTree m p q) : SameTree m u v := by
  cases hj with
  | inl h => exact h.1.symm.trans (hpq.trans h.2)
  | inr h => exact h.2.symm.trans (hpq.symm.trans h.1)

/-- The two ends of an edge's trees are connected. -/
theorem Joins.connected (h : Sound g m) (hj : Joins m u v p q) (huv : Connected g u v) :
    Connected g p q := by
  cases hj with
  | inl hpq =>
      exact .trans p u q (h.connected_of_root hpq.1)
        (.trans u v q huv (.symm q v (h.connected_of_root hpq.2)))
  | inr hpq =>
      exact .trans p v q (h.connected_of_root hpq.1)
        (.trans v u q (.symm u v huv) (.symm q u (h.connected_of_root hpq.2)))

/-- What a call `Link(u, v, comp)` knows. -/
def LinkAt.Knows (n : Nat) (m : Memory ρ) (u v : Nat) : LinkAt → Prop
  | .first => True
  | .second p1 => p1 < n ∧ SameTree m p1 u
  | .test p1 p2 => p1 < n ∧ p2 < n ∧ Joins m u v p1 p2
  | .swap high low => high < n ∧ low < high ∧ Joins m u v high low
  | .again high low => high < n ∧ low < high ∧ m.label high < high ∧ Joins m u v high low
  | .againFirst p low => p < n ∧ low < n ∧ Joins m u v p low
  | .againSecond p1 low => p1 < n ∧ low < n ∧ Joins m u v p1 low

/-- The larger of the two vertices goes down from round to round. -/
def LinkAt.toGo (u v : Nat) : LinkAt → Nat
  | .first => 8 * max u v + 7
  | .second p1 => 8 * max p1 v + 6
  | .test p1 p2 => 8 * max p1 p2 + 5
  | .swap high _ => 8 * high + 4
  | .again high _ => 8 * high + 3
  | .againFirst p low => 8 * max p low + 10
  | .againSecond p1 low => 8 * max p1 low + 9

theorem LinkAt.toGo_pos (u v : Nat) (l : LinkAt) : 0 < l.toGo u v := by
  cases l <;> exact Nat.succ_pos _

/-- What a link knows stays true while trees grow. -/
theorem LinkAt.Knows.grows {n : Nat} {l : LinkAt} (hl : l.Knows n m u v)
    (hg : Grows m m') : l.Knows n m' u v := by
  cases l with
  | first => trivial
  | second p1 => exact ⟨hl.1, hg.same hl.2⟩
  | test p1 p2 => exact ⟨hl.1, hl.2.1, hl.2.2.grows hg⟩
  | swap high low => exact ⟨hl.1, hl.2.1, hl.2.2.grows hg⟩
  | again high low =>
      exact ⟨hl.1, hl.2.1, Nat.lt_of_le_of_lt (hg.le high) hl.2.2.1, hl.2.2.2.grows hg⟩
  | againFirst p low => exact ⟨hl.1, hl.2.1, hl.2.2.grows hg⟩
  | againSecond p1 low => exact ⟨hl.1, hl.2.1, hl.2.2.grows hg⟩

/-- `high` and `low` are the two vertices in order. -/
theorem high_low (hne : p ≠ q) :
    ((if p > q then p else q) = p ∧ lowOf p q p = q ∧ q < p)
      ∨ ((if p > q then p else q) = q ∧ lowOf p q q = p ∧ p < q) := by
  unfold lowOf
  split
  case isTrue hlt => exact .inl ⟨rfl, by omega, hlt⟩
  case isFalse hle => exact .inr ⟨rfl, by omega, by omega⟩

theorem linkStep_moves (h : Sound g m) (hu : u < g.numNodes) (hv : v < g.numNodes)
    {l : LinkAt} (hl : l.Knows g.numNodes m u v) :
    ∃ l' m', linkStep u v l m = some (l', m') := by
  cases l with
  | first => exact exists_map (h.get hu) _
  | second p1 => exact exists_map (h.get hv) _
  | test p1 p2 =>
      simp only [linkStep]
      split
      case isTrue => exact ⟨_, _, rfl⟩
      case isFalse =>
        have hhigh : (if p1 > p2 then p1 else p2) < g.numNodes := by
          split
          · exact hl.1
          · exact hl.2.1
        exact exists_map (h.get hhigh) _
  | swap high low =>
      simp only [linkStep, h.get hl.1, Option.bind_eq_bind, Option.bind_some]
      split
      case isTrue =>
        obtain ⟨m', hm'⟩ := Memory.exists_store (m := m) (h.length ▸ hl.1) low
        exact exists_map hm' _
      case isFalse => exact ⟨_, _, rfl⟩
  | again high low => exact exists_map (h.get hl.1) _
  | againFirst p low => exact exists_map (h.get hl.1) _
  | againSecond p1 low => exact exists_map (h.get hl.2.1) _

/-- A step of a call keeps what holds, and a call that returns leaves its
two vertices in one tree. -/
structure LinkStep (g : CSRGraph Nat) (m m' : Memory ρ) (u v : Nat) (l : LinkAt)
    (l' : Option LinkAt) : Prop where
  sound : Sound g m'
  reg : m'.reg = m.reg
  grows : Grows m m'
  returned : l' = none → SameTree m' u v
  goesOn : ∀ l₁, l' = some l₁ → l₁.Knows g.numNodes m' u v ∧ l₁.toGo u v < l.toGo u v

/-- A read brings the link on and changes nothing. -/
theorem LinkStep.read (h : Sound g m) {l l' : LinkAt} (hl : l'.Knows g.numNodes m u v)
    (hlt : l'.toGo u v < l.toGo u v) : LinkStep g m m u v l (some l') where
  sound := h
  reg := rfl
  grows := .refl m
  returned h := by cases h
  goesOn l₁ h := by
    cases h
    exact ⟨hl, hlt⟩

/-- A link ends when its vertices are in one tree. -/
theorem LinkStep.same (h : Sound g m) {l : LinkAt} (hs : SameTree m u v) :
    LinkStep g m m u v l none where
  sound := h
  reg := rfl
  grows := .refl m
  returned _ := hs
  goesOn l₁ h := by cases h

/-- The compare-and-swap hangs a root below a smaller vertex. -/
theorem LinkStep.linked (h : Sound g m) {high low : Nat} (hlow : low < high)
    (hroot : m.label high = high) (hj : Joins m u v high low) (huv : Connected g u v)
    (hs : m.store high low = some m') {l : LinkAt} : LinkStep g m m' u v l none := by
  obtain ⟨-, -, hreg, hlabel⟩ := Memory.store_spec hs
  have hsound : Sound g m' := h.store hs (by omega) (hj.connected h huv)
  have hgrows : Grows m m' := by
    refine ⟨fun {x y} hxy => ?_, fun x => ?_⟩
    · unfold SameTree
      rw [hlabel]
      exact root_link_eq hroot hlow hxy
    · rw [hlabel]
      by_cases hx : x = high
      · subst hx
        rw [Function.update_self, hroot]
        omega
      · rw [Function.update_of_ne hx]
  have hself : m'.label high = low := by
    rw [hlabel]
    exact Function.update_self ..
  refine ⟨hsound, hreg, hgrows, fun _ => ?_, fun l₁ h => by cases h⟩
  have hpq := hsound.sameTree_label high
  rw [hself] at hpq
  exact (hj.grows hgrows).sameTree hpq.symm

/-- What one access of a link does to the forest. -/
theorem linkStep_spec (h : Sound g m) (hu : u < g.numNodes) (huv : Connected g u v)
    (hv : v < g.numNodes) {l : LinkAt} {l' : Option LinkAt} (hl : l.Knows g.numNodes m u v)
    (hstep : linkStep u v l m = some (l', m')) : LinkStep g m m' u v l l' := by
  cases l with
  | first =>
      obtain ⟨p1, hp1, heq⟩ := Option.map_eq_some_iff.mp hstep
      cases heq
      have hp1 := Memory.label_of_get hp1
      have hle := h.le u
      refine .read h ⟨by omega, hp1 ▸ h.sameTree_label u⟩ ?_
      simp only [LinkAt.toGo]
      omega
  | second p1 =>
      obtain ⟨p2, hp2, heq⟩ := Option.map_eq_some_iff.mp hstep
      cases heq
      have hp2 := Memory.label_of_get hp2
      have hle := h.le v
      refine .read h ⟨hl.1, by omega, .inl ⟨hl.2, hp2 ▸ h.sameTree_label v⟩⟩ ?_
      simp only [LinkAt.toGo]
      omega
  | test p1 p2 =>
      obtain ⟨hp1, hp2, hj⟩ := hl
      simp only [linkStep] at hstep
      split at hstep
      case isTrue heq =>
        cases hstep
        subst heq
        exact .same h (hj.sameTree rfl)
      case isFalse hne =>
        -- the two vertices by size, from either side
        have hsorted : ∃ high low, (if p1 > p2 then p1 else p2) = high
            ∧ lowOf p1 p2 high = low ∧ low < high ∧ high = max p1 p2
            ∧ high < g.numNodes ∧ Joins m u v high low := by
          rcases high_low hne with ⟨hhigh, hlow, hlt⟩ | ⟨hhigh, hlow, hlt⟩
          · exact ⟨p1, p2, hhigh, hlow, hlt, by omega, hp1, hj⟩
          · exact ⟨p2, p1, hhigh, hlow, hlt, by omega, hp2, hj.symm⟩
        obtain ⟨high, low, hhigh, hlow, hlt, hmax, hn, hjoin⟩ := hsorted
        simp only [hhigh, hlow] at hstep
        obtain ⟨pHigh, hp, heq⟩ := Option.map_eq_some_iff.mp hstep
        have hp := Memory.label_of_get hp
        have hle := h.le high
        split at heq
        case isTrue hsame =>
          cases heq
          refine .same h (hjoin.sameTree ?_)
          have htree := h.sameTree_label high
          rw [hp, hsame] at htree
          exact htree.symm
        case isFalse =>
          split at heq <;> cases heq
          case isTrue =>
            refine .read h ⟨hn, hlt, hjoin⟩ ?_
            simp only [LinkAt.toGo]
            omega
          case isFalse hnot =>
            refine .read h ⟨hn, hlt, by omega, hjoin⟩ ?_
            simp only [LinkAt.toGo]
            omega
  | swap high low =>
      obtain ⟨hn, hlt, hj⟩ := hl
      simp only [linkStep, h.get hn, Option.bind_eq_bind, Option.bind_some] at hstep
      split at hstep
      case isTrue hroot =>
        obtain ⟨m₁, hm₁, heq⟩ := Option.map_eq_some_iff.mp hstep
        cases heq
        exact .linked h hlt hroot hj huv hm₁
      case isFalse hnot =>
        cases hstep
        have hle := h.le high
        refine .read h ⟨hn, hlt, by omega, hj⟩ ?_
        simp only [LinkAt.toGo]
        omega
  | again high low =>
      obtain ⟨hn, hlt, hdown, hj⟩ := hl
      obtain ⟨p, hp, heq⟩ := Option.map_eq_some_iff.mp hstep
      cases heq
      have hp := Memory.label_of_get hp
      subst hp
      refine .read h ⟨by omega, by omega, hj.left (h.sameTree_label high)⟩ ?_
      simp only [LinkAt.toGo]
      omega
  | againFirst p low =>
      obtain ⟨hp, hlow, hj⟩ := hl
      obtain ⟨p1, hp1, heq⟩ := Option.map_eq_some_iff.mp hstep
      cases heq
      have hp1 := Memory.label_of_get hp1
      subst hp1
      have hle := h.le p
      refine .read h ⟨by omega, hlow, hj.left (h.sameTree_label p)⟩ ?_
      simp only [LinkAt.toGo]
      omega
  | againSecond p1 low =>
      obtain ⟨hp1, hlow, hj⟩ := hl
      obtain ⟨p2, hp2, heq⟩ := Option.map_eq_some_iff.mp hstep
      cases heq
      have hp2 := Memory.label_of_get hp2
      subst hp2
      have hle := h.le low
      refine .read h ⟨hp1, by omega, hj.right (h.sameTree_label low)⟩ ?_
      simp only [LinkAt.toGo]
      omega

-- ======================================================== loops of links

/-- `u` is in the tree of the label `c` that a loop skips, if it skips
one. -/
def Skipped (c : Option Nat) (m : Memory Nat) (u : Nat) : Prop :=
  ∃ x, c = some x ∧ SameTree m u x

/-- What an iteration that links `u` with the vertices `full u` knows:
unless `u` is skipped, each of them is still to come, is being linked,
or is in one tree with `u`. -/
def LinkTask.Knows (g : CSRGraph Nat) (rest full : Nat → List Nat) (c : Option Nat)
    (m : Memory Nat) : LinkTask → Prop
  | .check u => u < g.numNodes ∧ full u = rest u ∧ c.isSome = true
  | .links u todo call => u < g.numNodes
      ∧ (∀ v ∈ todo, v < g.numNodes ∧ Connected g u v)
      ∧ (Skipped c m u ∨ ∀ v ∈ full u, v ∈ todo ∨ (∃ l, call = some (v, l)) ∨ SameTree m u v)
      ∧ ∀ v l, call = some (v, l) →
          v < g.numNodes ∧ Connected g u v ∧ l.Knows g.numNodes m u v

def LinkTask.vertex : LinkTask → Nat
  | .check u => u
  | .links u _ _ => u

/-- The calls still to come, and what is left of the one under way. -/
def callsToGo (u : Nat) (todo : List Nat) : Nat :=
  (todo.map fun v => 8 * max u v + 8).sum

def LinkTask.toGo (rest : Nat → List Nat) : LinkTask → Nat
  | .check u => callsToGo u (rest u) + 1
  | .links u todo none => callsToGo u todo
  | .links u todo (some (v, l)) => callsToGo u todo + l.toGo u v

/-- What the loops of links keep: `linked` are the pairs of vertices in
one tree before the loop. -/
structure Linked (g : CSRGraph Nat) (linked : Nat → Nat → Prop) (c : Option Nat)
    (m : Memory Nat) : Prop extends Sound g m where
  reg : ∀ x, c = some x → m.reg = x
  same : ∀ u v, linked u v → SameTree m u v

section Linking

variable {rest full : Nat → List Nat} {linked : Nat → Nat → Prop} {m m' : Memory Nat}
  {c : Option Nat}

/-- A vertex that was skipped stays in its tree while trees grow. -/
theorem Skipped.grows (h : Skipped c m u) (hg : Grows m m') : Skipped c m' u := by
  obtain ⟨x, hx, hsame⟩ := h
  exact ⟨x, hx, hg.same hsame⟩

/-- A thread in a link makes the link's accesses. -/
theorem linking_next_call {todo : List Nat} {l : LinkAt} :
    (linking rest).next (.links u todo (some (v, l))) m
      = (linkStep u v l m).map fun c =>
          (.links u todo (c.1.map fun l => (v, l)), c.2) := by
  cases todo <;> rfl

/-- A thread of the loop is never stuck. -/
theorem linking_moves (h : Linked g linked c m) {l : LinkTask}
    (hl : l.Knows g rest full c m) (hdone : (linking rest).done l = false) :
    ∃ l' m', (linking rest).next l m = some (l', m') := by
  cases l with
  | check u => exact exists_map (h.get hl.1) _
  | links u todo call =>
      cases call with
      | none =>
          cases todo with
          | nil => cases hdone
          | cons v todo => exact ⟨_, _, rfl⟩
      | some call =>
          obtain ⟨v, l⟩ := call
          obtain ⟨hv, -, hk⟩ := hl.2.2.2 v l rfl
          obtain ⟨l', m', hstep⟩ := linkStep_moves h.toSound hl.1 hv hk
          rw [linking_next_call]
          exact exists_map hstep _

/-- A thread's step keeps the forest sound, lets it grow, and brings the
thread on. -/
theorem linking_own (hrest : ∀ u < g.numNodes, ∀ v ∈ rest u, v < g.numNodes ∧ Connected g u v)
    (h : Linked g linked c m) {l l' : LinkTask} (hl : l.Knows g rest full c m)
    (hnext : (linking rest).next l m = some (l', m')) :
    Linked g linked c m' ∧ Grows m m' ∧ l'.Knows g rest full c m'
      ∧ l'.vertex = l.vertex ∧ l'.toGo rest < l.toGo rest := by
  cases l with
  | check u =>
      obtain ⟨hu, hfull, hsome⟩ := hl
      obtain ⟨x, rfl⟩ := Option.isSome_iff_exists.mp hsome
      obtain ⟨p, hp, heq⟩ := Option.map_eq_some_iff.mp hnext
      have hp := Memory.label_of_get hp
      split at heq
      case isTrue hc =>
        cases heq
        have hsame := h.sameTree_label u
        rw [hp, hc, h.reg x rfl] at hsame
        refine ⟨h, .refl m, ⟨hu, ?_, .inl ⟨x, rfl, hsame.symm⟩, ?_⟩, rfl, Nat.succ_pos _⟩
        · intro v hv
          cases hv
        · intro v l hcall
          cases hcall
      case isFalse =>
        cases heq
        refine ⟨h, .refl m, ⟨hu, hrest u hu, .inr fun v hv => .inl (hfull ▸ hv), ?_⟩, rfl,
          Nat.lt_succ_self _⟩
        intro v l hcall
        cases hcall
  | links u todo call =>
      obtain ⟨hu, htodo, hcov, hcall⟩ := hl
      cases call with
      | none =>
          cases todo with
          | nil => cases hnext
          | cons v todo =>
              cases hnext
              refine ⟨h, .refl m, ⟨hu, fun w hw => htodo w (List.mem_cons_of_mem v hw), ?_, ?_⟩,
                rfl, ?_⟩
              · refine hcov.imp_right fun hall w hw => ?_
                rcases hall w hw with hmem | ⟨l, hnone⟩ | hsame
                · cases hmem with
                  | head => exact .inr (.inl ⟨_, rfl⟩)
                  | tail _ hmem => exact .inl hmem
                · cases hnone
                · exact .inr (.inr hsame)
              · intro w l heq
                cases heq
                exact ⟨(htodo v List.mem_cons_self).1, (htodo v List.mem_cons_self).2, trivial⟩
              · simp only [LinkTask.toGo, callsToGo, List.map_cons, List.sum_cons, LinkAt.toGo]
                omega
      | some call =>
          obtain ⟨v, l⟩ := call
          obtain ⟨hv, huv, hk⟩ := hcall v l rfl
          rw [linking_next_call] at hnext
          obtain ⟨⟨l₁, m₁⟩, hstep, heq⟩ := Option.map_eq_some_iff.mp hnext
          cases heq
          have hls := linkStep_spec h.toSound hu huv hv hk hstep
          refine ⟨⟨hls.sound, fun x hx => hls.reg.trans (h.reg x hx),
              fun x y hxy => hls.grows.same (h.same x y hxy)⟩,
            hls.grows, ⟨hu, htodo, ?_, ?_⟩, rfl, ?_⟩
          · refine hcov.imp (·.grows hls.grows) fun hall w hw => ?_
            rcases hall w hw with hmem | ⟨l₂, hsome⟩ | hsame
            · exact .inl hmem
            · cases hsome
              cases l₁ with
              | none => exact .inr (.inr (hls.returned rfl))
              | some l₁ => exact .inr (.inl ⟨l₁, rfl⟩)
            · exact .inr (.inr (hls.grows.same hsame))
          · intro w l₂ hsome
            cases l₁ with
            | none => cases hsome
            | some l₁ =>
                cases hsome
                exact ⟨hv, huv, (hls.goesOn _ rfl).1⟩
          · cases l₁ with
            | none =>
                have hpos := l.toGo_pos u v
                simp only [LinkTask.toGo, Option.map_none]
                omega
            | some l₁ =>
                have hlt := (hls.goesOn l₁ rfl).2
                simp only [LinkTask.toGo, Option.map_some]
                omega

/-- What a thread knows stays true while trees grow. -/
theorem LinkTask.Knows.grows {l : LinkTask} (hl : l.Knows g rest full c m)
    (hg : Grows m m') : l.Knows g rest full c m' := by
  cases l with
  | check u => exact hl
  | links u todo call =>
      obtain ⟨hu, htodo, hcov, hcall⟩ := hl
      refine ⟨hu, htodo, hcov.imp (·.grows hg) fun hall v hv => ?_, fun v l heq => ?_⟩
      · exact (hall v hv).imp_right fun h => h.imp_right hg.same
      · obtain ⟨hv, huv, hk⟩ := hcall v l heq
        exact ⟨hv, huv, hk.grows hg⟩

def linkOutline (linked : Nat → Nat → Prop) (full : Nat → List Nat) (c : Option Nat)
    (hrest : ∀ u < g.numNodes, ∀ v ∈ rest u, v < g.numNodes ∧ Connected g u v) :
    Outline (linking rest) Nat where
  tag := LinkTask.vertex
  inv := Linked g linked c
  asserts l m := l.Knows g rest full c m
  left l _ := l.toGo rest
  moves h hl hdone := linking_moves h hl hdone
  own h hl hnext := by
    obtain ⟨h', -, hl', htag, hlt⟩ := linking_own hrest h hl hnext
    exact ⟨h', hl', htag, hlt⟩
  other h hl hl₁ _ hnext :=
    ⟨hl.grows (linking_own hrest h hl₁ hnext).2.1, Nat.le_refl _⟩

/-- A loop that links every `u` with `full u`, or skips it. -/
theorem linkLoop_total (linked : Nat → Nat → Prop) (full : Nat → List Nat) (c : Option Nat)
    {start : Nat → LinkTask}
    (hrest : ∀ u < g.numNodes, ∀ v ∈ rest u, v < g.numNodes ∧ Connected g u v)
    (h : Linked g linked c m) (htag : ∀ u, (start u).vertex = u)
    (hstart : ∀ u < g.numNodes, (start u).Knows g rest full c m) :
    Total (.parallelFor (linking rest) g.numNodes start) m fun m' =>
      Linked g linked c m'
        ∧ ∀ u < g.numNodes, Skipped c m' u ∨ ∀ v ∈ full u, SameTree m' u v := by
  refine (linkOutline linked full c hrest).parallelFor htag h hstart ?_
  intro m' h' hall
  refine ⟨h', fun u hu => ?_⟩
  obtain ⟨l, hl, hk, hdone⟩ := hall u hu
  cases l with
  | check u => cases hdone
  | links w todo call =>
      have hwu : w = u := hl
      subst hwu
      cases todo with
      | cons v todo => cases hdone
      | nil =>
          cases call with
          | some call => cases hdone
          | none =>
              refine hk.2.2.1.imp_right fun hcov v hv => ?_
              rcases hcov v hv with hmem | ⟨l, hnone⟩ | hsame
              · cases hmem
              · cases hnone
              · exact hsame

end Linking

-- ============================================================= Afforest

theorem connected_outs (hu : u < g.numNodes) (hv : v ∈ g.outs u) : Connected g u v :=
  .rel u v ⟨hu, hv⟩

variable {neighborRounds : Nat}

/-- The edges that are left after sampling lead to connected vertices. -/
theorem remaining_linkable (hg : g.Transposed) :
    ∀ u < g.numNodes, ∀ v ∈ remaining g neighborRounds u,
      v < g.numNodes ∧ Connected g u v := by
  intro u hu v hv
  rcases List.mem_append.mp hv with hv | hv
  · have hv := List.mem_of_mem_drop hv
    exact ⟨hg.outs_lt hu hv, connected_outs hu hv⟩
  · split at hv
    case isTrue =>
      have hlt := hg.ins_lt hu hv
      exact ⟨hlt, .symm v u (connected_outs hlt ((hg.mem_ins u hu v hlt).mp hv))⟩
    case isFalse => cases hv

/-- The ends of the first `r` edges of every vertex are in one tree. -/
def Sampled (g : CSRGraph Nat) (r : Nat) (m : Memory Nat) : Prop :=
  Sound g m ∧ ∀ u < g.numNodes, ∀ v ∈ (g.outs u).take r, SameTree m u v

/-- Pointing every vertex to its root keeps the trees. -/
theorem sameTree_of_rooted {m m' : Memory ρ} (h : Rooted g (root m.label) m.reg m')
    (hxy : SameTree m x y) : SameTree m' x y := by
  unfold SameTree
  rw [h.root, h.root]
  exact hxy

/-- A round of sampling links every vertex with its `r`-th neighbour. -/
theorem sampleRound_total {m : Memory Nat} (hg : g.Transposed) {r : Nat}
    (h : Sampled g r m) :
    Total (sampleRound g neighborRounds r) m (Sampled g (r + 1)) := by
  refine (linkLoop_total (fun u v => u < g.numNodes ∧ v ∈ (g.outs u).take r)
    (fun u => ((g.outs u).drop r).take 1) none (remaining_linkable hg)
    ⟨h.1, fun x hx => ?_, fun u v huv => h.2 u huv.1 v huv.2⟩ (fun _ => rfl) ?_).mono ?_
  · cases hx
  · intro u hu
    refine ⟨hu, fun v hv => ?_, .inr fun v hv => .inl hv, fun v l hcall => ?_⟩
    · have hv := List.mem_of_mem_drop (List.mem_of_mem_take hv)
      exact ⟨hg.outs_lt hu hv, connected_outs hu hv⟩
    · cases hcall
  · rintro m' ⟨h', hall⟩
    refine ⟨h'.toSound, fun u hu v hv => ?_⟩
    rw [List.take_add, List.mem_append] at hv
    cases hv with
    | inl hv => exact h'.same u v ⟨hu, hv⟩
    | inr hv =>
        cases hall u hu with
        | inl hskip =>
            obtain ⟨x, hx, -⟩ := hskip
            cases hx
        | inr hlinked => exact hlinked v hv

/-- All rounds of sampling, each with its compression. -/
theorem sampleRounds_total {m : Memory Nat} (hg : g.Transposed) (h : Sampled g 0 m) :
    Total (.seqs ((List.range neighborRounds).map fun r =>
      .seq (sampleRound g neighborRounds r) (compress g.numNodes))) m
      (Sampled g neighborRounds) := by
  have hrun := total_seqs ((List.range neighborRounds).map fun r =>
    .seq (sampleRound g neighborRounds r) (compress g.numNodes)) (Sampled g) ?_ h
  · rw [List.length_map, List.length_range] at hrun
    exact hrun
  · intro i p hp m₁ hm₁
    rw [List.getElem?_map] at hp
    obtain ⟨r, hr, rfl⟩ := Option.map_eq_some_iff.mp hp
    have hi := (List.getElem?_eq_some_iff.mp hr).2
    rw [List.getElem_range] at hi
    subst hi
    refine (sampleRound_total hg hm₁).seq fun m₂ hm₂ => (compress_total hm₂.1).mono ?_
    rintro m₃ ⟨hm₃, -⟩
    exact ⟨hm₃.toSound, fun u hu v hv => sameTree_of_rooted hm₃ (hm₂.2 u hu v hv)⟩

/-- After the last loop the ends of every edge are in one tree: the loop
linked them, from one end or the other, or skipped both. -/
theorem sameTree_of_linked {m : Memory Nat} (hg : g.Transposed) {c : Option Nat}
    (hsample : ∀ u < g.numNodes, ∀ v ∈ (g.outs u).take neighborRounds, SameTree m u v)
    (hlast : ∀ u < g.numNodes,
      Skipped c m u ∨ ∀ v ∈ remaining g neighborRounds u, SameTree m u v)
    (hu : u < g.numNodes) (hv : v ∈ g.outs u) : SameTree m u v := by
  have hvn := hg.outs_lt hu hv
  have hin : u ∈ g.ins v := (hg.mem_ins v hvn u hu).mpr hv
  rw [← List.take_append_drop neighborRounds (g.outs u), List.mem_append] at hv
  cases hv with
  | inl hv => exact hsample u hu v hv
  | inr hv =>
      rcases hlast u hu with ⟨x, hx, hux⟩ | hall
      · rcases hlast v hvn with ⟨y, hy, hvy⟩ | hall
        · cases hx.symm.trans hy
          exact hux.trans hvy.symm
        · -- `v` has linked its incoming edges, or they are its outgoing ones
          cases hd : g.directed with
          | true =>
              refine (hall u (List.mem_append_right _ ?_)).symm
              rw [hd]
              exact hin
          | false =>
              have hout : u ∈ g.outs v := by
                rw [CSRGraph.ins, CSRGraph.inNeigh, hg.incoming hd] at hin
                exact hin
              rw [← List.take_append_drop neighborRounds (g.outs v), List.mem_append] at hout
              cases hout with
              | inl hout => exact (hsample v hvn u hout).symm
              | inr hout => exact (hall u (List.mem_append_left _ hout)).symm
      · exact hall v (List.mem_append_left _ hv)

/-- Every run of `Afforest` ends with the labels of the components. -/
theorem afforest_total {m : Memory Nat} (hg : g.Transposed) (hn : 0 < g.numNodes)
    (hlen : m.comp.length = g.numNodes) :
    Total (afforest g neighborRounds) m (Labelled g) := by
  refine (initialise_total hlen).seq fun m₁ hm₁ => ?_
  refine (sampleRounds_total hg ⟨hm₁.sound, fun u _ v hv => ?_⟩).seq fun m₂ hm₂ => ?_
  · rw [List.take_zero] at hv
    cases hv
  refine (total_act (q := fun m₃ => Sampled g neighborRounds m₃) ?_ ?_).seq fun m₃ hm₃ => ?_
  · exact ⟨_, 0, _, hm₂.1.get hn, rfl⟩
  · rintro m₃ ⟨n, c, -, rfl⟩
    exact ⟨⟨hm₂.1.length, hm₂.1.le, hm₂.1.connected⟩, hm₂.2⟩
  have hlast : Total (linkRemaining g neighborRounds) m₃ _ :=
    linkLoop_total (fun u v => u < g.numNodes ∧ v ∈ (g.outs u).take neighborRounds)
      (remaining g neighborRounds) (some m₃.reg) (remaining_linkable hg)
      ⟨hm₃.1, fun x hx => Option.some.inj hx, fun u v huv => hm₃.2 u huv.1 v huv.2⟩
      (fun _ => rfl) fun u hu => ⟨hu, rfl, rfl⟩
  refine hlast.seq fun m₄ hm₄ => ?_
  refine (compress_total hm₄.1.toSound).mono ?_
  rintro m₅ ⟨hm₅, hlabel⟩
  refine ⟨hm₅.length, fun x hx => ?_⟩
  rw [hlabel]
  refine hm₄.1.isLeast (fun u hu v hv => ?_) x
  exact sameTree_of_linked hg (fun u hu v hv => hm₄.1.same u v ⟨hu, hv⟩) hm₄.2 hu hv

end ThesisBench.Gapbs.Components

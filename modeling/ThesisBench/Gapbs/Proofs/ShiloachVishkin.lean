/-
`ShiloachVishkin` labels every vertex with the least vertex of its
component, and so returns what `Afforest` returns.

The writes of a pass may overwrite each other, so a pass can undo what
another edge of it has hooked. It still hooks only what was a root when
the pass began, and hangs it below a smaller vertex of its component
(`Hooked`). A pass that sets `change` therefore leaves fewer roots, and
a pass that does not has changed no label, so that the two ends of every
edge had one label all the time.
-/
import Mathlib.Data.Finset.Card
import Mathlib.Order.Lattice.Nat
import Mathlib.Tactic.IntervalCases
import ThesisBench.Gapbs.Proofs.Afforest

namespace ThesisBench.Gapbs.Components

open Parallel Forest

variable {m m' : Memory Bool} {g : CSRGraph Nat} {u v x : Nat} {f : Nat → Nat}

-- ================================================================= hook

/-- What a pass keeps; `f` are the labels it began with. -/
structure Hooked (g : CSRGraph Nat) (f : Nat → Nat) (m : Memory Bool) : Prop
    extends Sound g m where
  le_first : ∀ x, m.label x ≤ f x
  unchanged : m.reg = false → m.label = f
  hooked : m.reg = true → ∃ x < g.numNodes, f x = x ∧ m.label x < x

/-- What the treatment of the edge from `u` to `v` knows. While nothing
was hooked, what it has read are labels of the start. -/
def HookAt.Knows (g : CSRGraph Nat) (f : Nat → Nat) (m : Memory Bool) (u : Nat) :
    HookAt → Prop
  | .first => True
  | .second compU => compU < g.numNodes ∧ Connected g u compU ∧ (m.reg = false → compU = f u)
  | .test high low => high < g.numNodes ∧ low < high ∧ Connected g high low
      ∧ (m.reg = false → f high = high)
  | .write high low => high < g.numNodes ∧ low < high ∧ Connected g high low ∧ f high = high

def HookAt.toGo : HookAt → Nat
  | .first => 4
  | .second _ => 3
  | .test _ _ => 2
  | .write _ _ => 1

/-- The treatment of an edge is never stuck. -/
theorem hookStep_moves (h : Hooked g f m) (hu : u < g.numNodes) (hv : v < g.numNodes)
    {l : HookAt} (hl : l.Knows g f m u) : ∃ l' m', hookStep u v l m = some (l', m') := by
  cases l with
  | first => exact exists_map (h.get hu) _
  | second compU => exact exists_map (h.get hv) _
  | test high low => exact exists_map (h.get hl.1) _
  | write high low =>
      have hlen : high < ({ m with reg := true } : Memory Bool).comp.length := by
        rw [h.length]
        exact hl.1
      obtain ⟨m', hm'⟩ := Memory.exists_store hlen low
      exact exists_map hm' _

/-- A step keeps what a pass keeps, and an edge that is done with has
ends with one label unless something was hooked. -/
structure HookStep (g : CSRGraph Nat) (f : Nat → Nat) (m m' : Memory Bool) (u v : Nat)
    (l : HookAt) (l' : Option HookAt) : Prop where
  hooked : Hooked g f m'
  reg : m'.reg = false → m.reg = false
  finished : l' = none → m'.reg = false → f u = f v
  goesOn : ∀ l₁, l' = some l₁ → l₁.Knows g f m' u ∧ l₁.toGo < l.toGo

/-- A read brings the iteration on and changes nothing. -/
theorem HookStep.read (h : Hooked g f m) {l l' : HookAt} (hl : l'.Knows g f m u)
    (hlt : l'.toGo < l.toGo) : HookStep g f m m u v l (some l') where
  hooked := h
  reg h := h
  finished h := by cases h
  goesOn l₁ h := by
    cases h
    exact ⟨hl, hlt⟩

/-- The iteration may end if the labels are the same or something was
hooked. -/
theorem HookStep.skip (h : Hooked g f m) {l : HookAt} (hs : m.reg = false → f u = f v) :
    HookStep g f m m u v l none where
  hooked := h
  reg h := h
  finished _ := hs
  goesOn l₁ h := by cases h

/-- The write hangs what was a root below a smaller vertex. -/
theorem Hooked.write (h : Hooked g f m) {high low : Nat} (hhigh : high < g.numNodes)
    (hlow : low < high) (hc : Connected g high low) (hf : f high = high)
    (hs : ({ m with reg := true } : Memory Bool).store high low = some m') :
    Hooked g f m' ∧ m'.reg = true := by
  obtain ⟨-, -, hreg, hlabel⟩ := Memory.store_spec hs
  have hsound : Sound g ({ m with reg := true } : Memory Bool) :=
    ⟨h.length, h.le, h.connected⟩
  have hlabel' : m'.label = Function.update m.label high low := hlabel
  refine ⟨⟨hsound.store hs (by omega) hc, fun x => ?_, fun hfalse => ?_, fun _ => ?_⟩, hreg⟩
  · rw [hlabel']
    by_cases hx : x = high
    · subst hx
      rw [Function.update_self, hf]
      omega
    · rw [Function.update_of_ne hx]
      exact h.le_first x
  · rw [hreg] at hfalse
    cases hfalse
  · refine ⟨high, hhigh, hf, ?_⟩
    rw [hlabel', Function.update_self]
    exact hlow

theorem hookStep_spec (hf : ∀ x, f (f x) = f x) (hle : ∀ x, f x ≤ x)
    (h : Hooked g f m) (hu : u < g.numNodes) (hv : v < g.numNodes) (huv : Connected g u v)
    {l : HookAt} {l' : Option HookAt} (hl : l.Knows g f m u)
    (hstep : hookStep u v l m = some (l', m')) : HookStep g f m m' u v l l' := by
  cases l with
  | first =>
      obtain ⟨p, hp, heq⟩ := Option.map_eq_some_iff.mp hstep
      cases heq
      have hp := Memory.label_of_get hp
      subst hp
      have hlt := h.le u
      refine .read h ⟨by omega, h.connected u, fun hreg => ?_⟩ (Nat.lt_succ_self _)
      rw [h.unchanged hreg]
  | second compU =>
      obtain ⟨hlt, hcu, hfu⟩ := hl
      obtain ⟨compV, hp, heq⟩ := Option.map_eq_some_iff.mp hstep
      have hp := Memory.label_of_get hp
      subst hp
      have hfv : m.reg = false → m.label v = f v := fun hreg => by rw [h.unchanged hreg]
      have hcv : Connected g compU (m.label v) :=
        .trans _ u _ (.symm _ _ hcu) (.trans _ v _ huv (h.connected v))
      have hvlt := h.le v
      split at heq
      case isTrue hsame =>
        cases heq
        exact .skip h fun hreg => (hfu hreg).symm.trans (hsame.trans (hfv hreg))
      case isFalse hne =>
        cases heq
        refine .read h ?_ (Nat.lt_succ_self _)
        rcases high_low hne with ⟨hhigh, hlow, hless⟩ | ⟨hhigh, hlow, hless⟩
        · rw [hhigh, hlow]
          refine ⟨hlt, hless, hcv, fun hreg => ?_⟩
          rw [hfu hreg, hf]
        · rw [hhigh, hlow]
          refine ⟨by omega, hless, .symm _ _ hcv, fun hreg => ?_⟩
          rw [hfv hreg, hf]
  | test high low =>
      obtain ⟨hhigh, hlow, hc, hroot⟩ := hl
      obtain ⟨p, hp, heq⟩ := Option.map_eq_some_iff.mp hstep
      have hp := Memory.label_of_get hp
      split at heq
      case isTrue hfix =>
        cases heq
        have hge := h.le_first high
        have hle' := hle high
        exact .read h ⟨hhigh, hlow, hc, by omega⟩ (Nat.lt_succ_self _)
      case isFalse hne =>
        cases heq
        refine .skip h fun hreg => absurd ?_ hne
        rw [← hp, h.unchanged hreg, hroot hreg]
  | write high low =>
      obtain ⟨hhigh, hlow, hc, hroot⟩ := hl
      obtain ⟨m₁, hm₁, heq⟩ := Option.map_eq_some_iff.mp hstep
      cases heq
      obtain ⟨h', hreg⟩ := h.write hhigh hlow hc hroot hm₁
      refine ⟨h', fun hfalse => ?_, fun _ hfalse => ?_, fun l₁ h => by cases h⟩ <;>
        rw [hreg] at hfalse <;> cases hfalse

/-- What an iteration of a pass knows: each neighbour of `u` is still to
come, is being treated, or has the label of `u` unless something was
hooked. -/
structure HookTask.Knows (g : CSRGraph Nat) (f : Nat → Nat) (m : Memory Bool)
    (l : HookTask) : Prop where
  lt : l.u < g.numNodes
  todo : ∀ v ∈ l.todo, v ∈ g.outs l.u
  covers : ∀ v ∈ g.outs l.u,
    v ∈ l.todo ∨ (∃ a, l.call = some (v, a)) ∨ (m.reg = false → f l.u = f v)
  call : ∀ v a, l.call = some (v, a) → v ∈ g.outs l.u ∧ a.Knows g f m l.u

def HookTask.toGo : HookTask → Nat
  | ⟨_, todo, none⟩ => 5 * todo.length
  | ⟨_, todo, some (_, a)⟩ => 5 * todo.length + a.toGo

/-- An iteration makes the accesses of its edge. -/
theorem hooking_next_call {todo : List Nat} {a : HookAt} :
    hooking.next ⟨u, todo, some (v, a)⟩ m
      = (hookStep u v a m).map fun c => (⟨u, todo, c.1.map fun a => (v, a)⟩, c.2) := by
  cases todo <;> rfl

/-- An edge under way has something left to do. -/
theorem HookAt.toGo_pos (a : HookAt) : 0 < a.toGo := by
  cases a <;> exact Nat.succ_pos _

theorem hooking_moves (hg : g.Transposed) (h : Hooked g f m) {l : HookTask}
    (hl : l.Knows g f m) (hdone : hooking.done l = false) :
    ∃ l' m', hooking.next l m = some (l', m') := by
  obtain ⟨u, todo, call⟩ := l
  cases call with
  | none =>
      cases todo with
      | nil => cases hdone
      | cons v todo => exact ⟨_, _, rfl⟩
  | some call =>
      obtain ⟨v, a⟩ := call
      obtain ⟨hv, ha⟩ := hl.call v a rfl
      obtain ⟨l', m', hstep⟩ := hookStep_moves h hl.lt (hg.outs_lt hl.lt hv) ha
      rw [hooking_next_call]
      exact exists_map hstep _

/-- An iteration's step keeps the labels sound and leaves less to do. -/
theorem hooking_own (hg : g.Transposed) (hf : ∀ x, f (f x) = f x) (hle : ∀ x, f x ≤ x)
    (h : Hooked g f m) {l l' : HookTask} (hl : l.Knows g f m)
    (hnext : hooking.next l m = some (l', m')) :
    Hooked g f m' ∧ (m'.reg = false → m.reg = false) ∧ l'.Knows g f m' ∧ l'.u = l.u
      ∧ l'.toGo < l.toGo := by
  obtain ⟨u, todo, call⟩ := l
  cases call with
  | none =>
      cases todo with
      | nil => cases hnext
      | cons v todo =>
          cases hnext
          refine ⟨h, id, ⟨hl.lt, fun w hw => hl.todo w (List.mem_cons_of_mem v hw),
            fun w hw => ?_, fun w a heq => ?_⟩, rfl, ?_⟩
          · rcases hl.covers w hw with hmem | ⟨a, hnone⟩ | hsame
            · cases hmem with
              | head => exact .inr (.inl ⟨_, rfl⟩)
              | tail _ hmem => exact .inl hmem
            · cases hnone
            · exact .inr (.inr hsame)
          · cases heq
            exact ⟨hl.todo v List.mem_cons_self, trivial⟩
          · simp only [HookTask.toGo, HookAt.toGo, List.length_cons]
            omega
  | some call =>
      obtain ⟨v, a⟩ := call
      obtain ⟨hv, ha⟩ := hl.call v a rfl
      rw [hooking_next_call] at hnext
      obtain ⟨⟨a₁, m₁⟩, hstep, heq⟩ := Option.map_eq_some_iff.mp hnext
      cases heq
      have hs := hookStep_spec hf hle h hl.lt (hg.outs_lt hl.lt hv) (connected_outs hl.lt hv)
        ha hstep
      refine ⟨hs.hooked, hs.reg, ⟨hl.lt, hl.todo, fun w hw => ?_, fun w a₂ hsome => ?_⟩, rfl, ?_⟩
      · rcases hl.covers w hw with hmem | ⟨a₂, hsome⟩ | hsame
        · exact .inl hmem
        · cases hsome
          cases a₁ with
          | none => exact .inr (.inr (hs.finished rfl))
          | some a₁ => exact .inr (.inl ⟨a₁, rfl⟩)
        · exact .inr (.inr fun hreg => hsame (hs.reg hreg))
      · cases a₁ with
        | none => cases hsome
        | some a₁ =>
            cases hsome
            exact ⟨hv, (hs.goesOn _ rfl).1⟩
      · cases a₁ with
        | none =>
            have hpos := a.toGo_pos
            simp only [HookTask.toGo, Option.map_none]
            omega
        | some a₁ =>
            have hlt := (hs.goesOn a₁ rfl).2
            simp only [HookTask.toGo, Option.map_some]
            omega

/-- What an edge knows stays true while others hook. -/
theorem HookAt.Knows.frame {a : HookAt} (ha : a.Knows g f m u)
    (hreg : m'.reg = false → m.reg = false) : a.Knows g f m' u := by
  cases a with
  | first => trivial
  | second compU => exact ⟨ha.1, ha.2.1, fun h => ha.2.2 (hreg h)⟩
  | test high low => exact ⟨ha.1, ha.2.1, ha.2.2.1, fun h => ha.2.2.2 (hreg h)⟩
  | write high low => exact ha

/-- What an iteration knows stays true while others hook. -/
theorem HookTask.Knows.frame {l : HookTask} (hl : l.Knows g f m)
    (hreg : m'.reg = false → m.reg = false) : l.Knows g f m' where
  lt := hl.lt
  todo := hl.todo
  covers v hv := (hl.covers v hv).imp_right fun h => h.imp_right fun hsame hr => hsame (hreg hr)
  call v a hcall := ⟨(hl.call v a hcall).1, (hl.call v a hcall).2.frame hreg⟩

def hookOutline (hg : g.Transposed) (hf : ∀ x, f (f x) = f x) (hle : ∀ x, f x ≤ x) :
    Outline hooking Nat where
  tag l := HookTask.u l
  inv := Hooked g f
  asserts l m := HookTask.Knows g f m l
  left l _ := HookTask.toGo l
  moves h hl hdone := hooking_moves hg h hl hdone
  own h hl hnext := by
    obtain ⟨h', -, hl', htag, hlt⟩ := hooking_own hg hf hle h hl hnext
    exact ⟨h', hl', htag, hlt⟩
  other h hl hl₁ _ hnext :=
    ⟨hl.frame (hooking_own hg hf hle h hl₁ hnext).2.1, Nat.le_refl _⟩

/-- A pass over the edges. -/
theorem hook_total (hg : g.Transposed) (h : Sound g m)
    (hstar : ∀ x, m.label (m.label x) = m.label x) (hreg : m.reg = false) :
    Total (hook g) m fun m' => Hooked g m.label m'
      ∧ (m'.reg = false → ∀ u < g.numNodes, ∀ v ∈ g.outs u, m.label u = m.label v) := by
  have hstart : Hooked g m.label m := by
    refine ⟨h, fun _ => Nat.le_refl _, fun _ => rfl, fun htrue => ?_⟩
    rw [hreg] at htrue
    cases htrue
  refine (hookOutline hg hstar h.le).parallelFor (fun _ => rfl) hstart (fun u hu => ?_) ?_
  · exact ⟨hu, fun v hv => hv, fun v hv => .inl hv, fun v a hcall => by cases hcall⟩
  · intro m' h' hall
    refine ⟨h', fun hfalse u hu v hv => ?_⟩
    obtain ⟨⟨w, todo, call⟩, hl, hk, hdone⟩ := hall u hu
    have hwu : w = u := hl
    subst hwu
    have hk : HookTask.Knows g m.label m' ⟨w, todo, call⟩ := hk
    have hdone' : todo = [] ∧ call = none := by simpa [hooking] using hdone
    obtain ⟨rfl, rfl⟩ := hdone'
    rcases hk.covers v hv with hmem | ⟨a, hnone⟩ | hsame
    · cases hmem
    · cases hnone
    · exact hsame hfalse

-- ====================================================== ShiloachVishkin

/-- How many vertices point at themselves. -/
def numRoots (g : CSRGraph Nat) (f : Nat → Nat) : Nat :=
  ((Finset.range g.numNodes).filter fun x => f x = x).card

/-- Between two passes: labels are roots, and when nothing was hooked the
ends of every edge have one label. -/
structure Passed (g : CSRGraph Nat) (m : Memory Bool) : Prop extends Sound g m where
  star : ∀ x, m.label (m.label x) = m.label x
  edges : m.reg = false → ∀ u < g.numNodes, ∀ v ∈ g.outs u, m.label u = m.label v

/-- When labels point at roots, the root is the label. -/
theorem root_eq_label {m : Memory Bool} (h : Sound g m)
    (hstar : ∀ x, m.label (m.label x) = m.label x) (x : Nat) : root m.label x = m.label x := by
  rw [← root_parent h.le x, root_of_fixed (hstar x)]

/-- A pass that hooks a root leaves fewer of them. -/
theorem Hooked.numRoots_lt (h : Hooked g f m) (hle : ∀ x, f x ≤ x) (hreg : m.reg = true) :
    numRoots g (root m.label) < numRoots g f := by
  refine Finset.card_lt_card ⟨fun x hx => ?_, fun hsub => ?_⟩
  · obtain ⟨hx, hroot⟩ := Finset.mem_filter.mp hx
    refine Finset.mem_filter.mpr ⟨hx, ?_⟩
    have hfix := root_fixed h.le x
    rw [hroot] at hfix
    have hfirst := h.le_first x
    have hdown := hle x
    omega
  · obtain ⟨x, hx, hfx, hlt⟩ := h.hooked hreg
    have hmem := hsub (Finset.mem_filter.mpr ⟨Finset.mem_range.mpr hx, hfx⟩)
    have hroot := (Finset.mem_filter.mp hmem).2
    rw [root_of_lt hlt] at hroot
    have hle := root_le m.label (m.label x)
    omega

theorem setChange_total (b : Bool) : Total (setChange b) m (· = { m with reg := b }) :=
  total_act ⟨_, rfl⟩ fun _ h => h

/-- A pass keeps the labels sound, and hooks a root or ends the loop. -/
theorem pass_total (hg : g.Transposed) (h : Passed g m) :
    Total (.seq (setChange false) (.seq (hook g) (compress g.numNodes))) m fun m' =>
      Passed g m' ∧ (m'.reg = true → numRoots g m'.label < numRoots g m.label) := by
  refine (setChange_total false).seq fun m₁ hm₁ => ?_
  subst hm₁
  refine (hook_total (m := { m with reg := false }) hg ⟨h.length, h.le, h.connected⟩ h.star
    rfl).seq fun m₂ hm₂ => ?_
  obtain ⟨hm₂, hsame⟩ := hm₂
  refine (compress_total hm₂.toSound).mono ?_
  rintro m₃ ⟨hm₃, hlabel⟩
  have hlabel' : m₃.label = root m₂.label := funext hlabel
  refine ⟨⟨hm₃.toSound, fun x => ?_, fun hreg u hu v hv => ?_⟩, fun hreg => ?_⟩
  · rw [hlabel', root_root hm₂.le]
  · have hreg₂ : m₂.reg = false := hm₃.reg.symm.trans hreg
    have hroot : ∀ x, m₃.label x = m.label x := by
      intro x
      rw [hlabel x, hm₂.unchanged hreg₂]
      exact root_eq_label h.toSound h.star x
    rw [hroot, hroot]
    exact hsame hreg₂ u hu v hv
  · rw [hlabel']
    exact hm₂.numRoots_lt h.le (hm₃.reg.symm.trans hreg)

/-- Every run ends with the labels of the components. -/
theorem shiloachVishkin_total (hg : g.Transposed) (hlen : m.comp.length = g.numNodes) :
    Total (shiloachVishkin g) m (Labelled g) := by
  refine (initialise_total hlen).seq fun m₁ hm₁ => ?_
  refine (setChange_total true).seq fun m₂ hm₂ => ?_
  subst hm₂
  refine total_loop (Passed g) (fun m => if m.reg then numRoots g m.label + 1 else 0) ?_ ?_ ?_
  · intro m₃ hm₃ hreg
    refine (pass_total hg hm₃).mono ?_
    rintro m₄ ⟨hm₄, hlt⟩
    refine ⟨hm₄, ?_⟩
    rw [hreg]
    cases hr : m₄.reg with
    | true =>
        have hlt := hlt hr
        simp only [if_true]
        omega
    | false => exact Nat.succ_pos _
  · intro m₃ hm₃ hreg
    refine ⟨hm₃.length, fun x _ => ?_⟩
    rw [← root_eq_label hm₃.toSound hm₃.star x]
    refine hm₃.toSound.isLeast (fun u hu v hv => ?_) x
    rw [root_eq_label hm₃.toSound hm₃.star, root_eq_label hm₃.toSound hm₃.star]
    exact hm₃.edges hreg u hu v hv
  · have hsound := hm₁.sound
    have hlabel : ({ m₁ with reg := true } : Memory Bool).label = m₁.label := rfl
    refine ⟨⟨hsound.length, hsound.le, hsound.connected⟩, fun x => ?_, fun hfalse => ?_⟩
    · rw [hlabel, hm₁.label, hm₁.label]
    · cases hfalse

-- ================================================================ both

/-- The least vertex of every vertex's component. -/
noncomputable def leastLabels (g : CSRGraph Nat) : List Nat :=
  (List.range g.numNodes).map fun v => sInf {w | Connected g v w}

theorem Labelled.comp_eq {ρ : Type} {m : Memory ρ} (h : Labelled g m) :
    m.comp = leastLabels g := by
  refine List.ext_getElem? fun v => ?_
  by_cases hv : v < g.numNodes
  · rw [Memory.get_label (h.1 ▸ hv), leastLabels, List.getElem?_map,
      List.getElem?_range hv, Option.map_some, (h.2 v hv).csInf_eq]
  · have hlen : m.comp.length ≤ v := h.1 ▸ Nat.le_of_not_lt hv
    have hlen' : (leastLabels g).length ≤ v := by
      rw [leastLabels, List.length_map, List.length_range]
      exact Nat.le_of_not_lt hv
    rw [List.getElem?_eq_none hlen, List.getElem?_eq_none hlen']

/-- Whatever the order of the tasks' steps and whatever label is skipped,
both algorithms end, and with one array: every vertex has the least
vertex of its weakly connected component. -/
theorem afforest_shiloachVishkin (g : CSRGraph Nat) (hg : g.Transposed)
    (hn : 0 < g.numNodes) (neighborRounds : Nat) :
    ∃ comp : List Nat, comp.length = g.numNodes
      ∧ (∀ v < g.numNodes, ∃ c, comp[v]? = some c ∧ IsLeast {w | Connected g v w} c)
      ∧ (∀ m : Memory Nat, m.comp.length = g.numNodes →
          Ends (fun m' => m'.comp = comp) ([afforest g neighborRounds], m))
      ∧ ∀ m : Memory Bool, m.comp.length = g.numNodes →
          Ends (fun m' => m'.comp = comp) ([shiloachVishkin g], m) := by
  refine ⟨leastLabels g, ?_, fun v hv => ?_, fun m hm => ?_, fun m hm => ?_⟩
  · rw [leastLabels, List.length_map, List.length_range]
  · refine ⟨sInf {w | Connected g v w}, ?_, ?_⟩
    · rw [leastLabels, List.getElem?_map, List.getElem?_range hv, Option.map_some]
    · exact ⟨Nat.sInf_mem ⟨v, .refl v⟩, fun w hw => Nat.sInf_le hw⟩
  · exact ((afforest_total hg hn hm).mono fun _ h => h.comp_eq).ends
  · exact ((shiloachVishkin_total hg hm).mono fun _ h => h.comp_eq).ends

/-- Three vertices, of which the last two are joined. -/
def pairGraph : CSRGraph Nat :=
  ⟨false, 3, 1, ⟨[0, 0, 1, 2], [some 2, some 1]⟩, ⟨[0, 0, 1, 2], [some 2, some 1]⟩⟩

theorem pairGraph_transposed : pairGraph.Transposed where
  outNeigh u hu := by
    have hu : u < 3 := hu
    interval_cases u <;> exact ⟨_, rfl, by decide⟩
  inNeigh u hu := by
    have hu : u < 3 := hu
    interval_cases u <;> exact ⟨_, rfl, by decide⟩
  incoming _ := rfl
  mem_ins := by decide

theorem pairGraph_connected {x y : Nat} (h : Connected pairGraph x y) : x = 0 ↔ y = 0 := by
  induction h with
  | rel u v huv =>
      have hedge : ∀ u < 3, ∀ v ∈ pairGraph.outs u, u = 0 ↔ v = 0 := by decide
      exact hedge u huv.1 v huv.2
  | refl => rfl
  | symm _ _ _ ih => exact ih.symm
  | trans _ _ _ _ _ ih₁ ih₂ => exact ih₁.trans ih₂

/-- Both kernels on the three vertices. -/
theorem afforest_shiloachVishkin_three :
    Ends (fun m' : Memory Nat => m'.comp[0]? = some 0 ∧ m'.comp[2]? = some 1)
        ([afforest pairGraph 1], ⟨[7, 7, 7], 0⟩)
      ∧ Ends (fun m' : Memory Bool => m'.comp[0]? = some 0 ∧ m'.comp[2]? = some 1)
        ([shiloachVishkin pairGraph], ⟨[7, 7, 7], false⟩) := by
  obtain ⟨comp, -, hleast, hafforest, hvishkin⟩ :=
    afforest_shiloachVishkin pairGraph pairGraph_transposed (by decide) 1
  have h0 : comp[0]? = some 0 := by
    obtain ⟨c, hc, hmin⟩ := hleast 0 (by decide)
    have hzero : c = 0 := (pairGraph_connected hmin.1).mp rfl
    rw [hc, hzero]
  have h2 : comp[2]? = some 1 := by
    obtain ⟨c, hc, hmin⟩ := hleast 2 (by decide)
    have hne : c ≠ 0 := fun hzero => absurd ((pairGraph_connected hmin.1).mpr hzero) (by decide)
    have hle : c ≤ 1 := hmin.2 (connected_outs (by decide) (by decide))
    rw [hc, show c = 1 by omega]
  refine ⟨(hafforest ⟨[7, 7, 7], 0⟩ rfl).mono ?_, (hvishkin ⟨[7, 7, 7], false⟩ rfl).mono ?_⟩ <;>
    rintro m rfl <;> exact ⟨h0, h2⟩

end ThesisBench.Gapbs.Components

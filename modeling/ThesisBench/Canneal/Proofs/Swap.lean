/-
No location is lost or duplicated by concurrent swaps, and they do not
deadlock.

A word under the marker belongs to exactly one swap, the one that
checked it out and will check it back in (`SwapInv`); nobody else can
write it meanwhile, because every compare-and-set expects a location.
That makes the plain store of `Checkin` safe, and an `ABA` exchange is
harmless since the set that succeeds takes out the value that is there.
For progress, take the swap whose checked-out element has the highest
address: the other element it needs lies higher, so no swap has it.
-/
import ThesisBench.Canneal.Swap
import Mathlib.Data.Finset.Max
import Mathlib.Data.Fintype.Basic
import Mathlib.Order.Fin.Basic
import Mathlib.Tactic.Abel

namespace ThesisBench.Canneal.Swap

open Machine

variable {T E L : Type} {s s' : State T E L}

-- ============================================================== positions

theorem goto_self [DecidableEq T] (s : State T E L) (t : T) (l : Local E L) :
    (s.goto t l).threads t = l := Function.update_self ..

theorem goto_other [DecidableEq T] (s : State T E L) {t u : T}
    (l : Local E L) (h : u ≠ t) :
    (s.goto t l).threads u = s.threads u := Function.update_of_ne h ..

/-- The element a swap has checked out. -/
def Local.owner : Local E L → Option E
  | .exchangeGet first _ _ | .exchangeSet first _ _ _ | .checkin first _ =>
      some first
  | _ => none

/-- A thread that is in no swap holds nothing. -/
theorem Local.rests {l : Local E L} (h : l.swapping = false) :
    l.owner = none ∧ l.held = none := by
  cases l <;> first | exact ⟨rfl, rfl⟩ | cases h

variable [LinearOrder E]

-- =========================================================== the invariant

/-- A swap goes from the lower element to the higher. -/
def Local.ordered : Local E L → Prop
  | .checkoutGet first last | .checkoutSet first last _
  | .exchangeGet first last _ | .exchangeSet first last _ _ => first < last
  | _ => True

/-- The words under the marker are the ones checked out, each by one
swap. -/
structure SwapInv (s : State T E L) : Prop where
  marked : ∀ t e, (s.threads t).owner = some e → s.p e = none
  owned : ∀ e, s.p e = none → ∃ t, (s.threads t).owner = some e
  one : ∀ t u e, (s.threads t).owner = some e →
    (s.threads u).owner = some e → t = u
  ordered : ∀ t, (s.threads t).ordered

/-- The invariant holds at the start, with every location at its element. -/
theorem swapInv_init {loc : E → L} (h : Init loc s) : SwapInv s where
  marked := by
    intro t e he
    rw [h.2 t] at he
    cases he
  owned := by
    intro e he
    rw [h.1 e] at he
    cases he
  one := by
    intro t u e he
    rw [h.2 t] at he
    cases he
  ordered := by
    intro t
    rw [h.2 t]
    trivial

variable [DecidableEq T]

/-- A step that leaves the words and the ownership alone. -/
theorem SwapInv.goto (hi : SwapInv s) {t : T} {l : Local E L}
    (howner : l.owner = (s.threads t).owner) (hord : l.ordered) :
    SwapInv (s.goto t l) := by
  have hown : ∀ u, ((s.goto t l).threads u).owner = (s.threads u).owner := by
    intro u
    by_cases hu : u = t
    · subst hu
      rw [goto_self, howner]
    · rw [goto_other s l hu]
  refine ⟨fun u e he => hi.marked u e (hown u ▸ he), fun e he => ?_,
    fun u v e hu hv => hi.one u v e (hown u ▸ hu) (hown v ▸ hv), fun u => ?_⟩
  · obtain ⟨u, hu⟩ := hi.owned e he
    exact ⟨u, (hown u).trans hu⟩
  · by_cases hu : u = t
    · subst hu
      rw [goto_self]
      exact hord
    · rw [goto_other s l hu]
      exact hi.ordered u

/-- Checking an element out. -/
theorem SwapInv.lock (hi : SwapInv s) {t : T} {e : E} {v : L}
    {l : Local E L} (hp : s.p e = some v) (hown : (s.threads t).owner = none)
    (hl : l.owner = some e) (hord : l.ordered) :
    SwapInv (s.write t e none l) := by
  obtain ⟨hmarked, howned, hone, hordered⟩ := hi
  constructor <;> simp only [State.write, Function.update_apply] <;> grind

/-- Replacing the location of an element nobody has checked out. -/
theorem SwapInv.exchange (hi : SwapInv s) {t : T} {e : E} {v w : L}
    {l : Local E L} (hp : s.p e = some w)
    (hl : l.owner = (s.threads t).owner) (hord : l.ordered) :
    SwapInv (s.write t e (some v) l) := by
  obtain ⟨hmarked, howned, hone, hordered⟩ := hi
  constructor <;> simp only [State.write, Function.update_apply] <;> grind

/-- Checking an element back in. -/
theorem SwapInv.unlock (hi : SwapInv s) {t : T} {e : E} {v : L}
    {l : Local E L} (hown : (s.threads t).owner = some e)
    (hl : l.owner = none) (hord : l.ordered) :
    SwapInv (s.write t e (some v) l) := by
  obtain ⟨hmarked, howned, hone, hordered⟩ := hi
  constructor <;> simp only [State.write, Function.update_apply] <;> grind

-- ======================================================== what a move does

/-- All that a move can do to the words: nothing, or take a location out
of a word, exchange the one in a word for the one in hand, or put the
one in hand back. -/
inductive Effect (s : State T E L) (t : T) : State T E L → Prop
  | relabel {l : Local E L} : l.owner = (s.threads t).owner →
      l.held = (s.threads t).held → l.ordered → Effect s t (s.goto t l)
  | lock {e : E} {v : L} {l : Local E L} : s.p e = some v →
      (s.threads t).owner = none → (s.threads t).held = none →
      l.owner = some e → l.held = some v → l.ordered →
      Effect s t (s.write t e none l)
  | exchange {e : E} {v w : L} {l : Local E L} : s.p e = some w →
      (s.threads t).held = some v → l.owner = (s.threads t).owner →
      l.held = some w → l.ordered → Effect s t (s.write t e (some v) l)
  | unlock {e : E} {v : L} {l : Local E L} :
      (s.threads t).owner = some e → (s.threads t).held = some v →
      l.owner = none → l.held = none → l.ordered →
      Effect s t (s.write t e (some v) l)

/-- A failed load or a spin changes nothing. -/
theorem Effect.stay (t : T) (hord : (s.threads t).ordered) : Effect s t s := by
  have hs : s.goto t (s.threads t) = s := by
    unfold State.goto
    rw [Function.update_eq_self]
  have h := Effect.relabel (s := s) (t := t) rfl rfl hord
  rwa [hs] at h

variable [DecidableEq L]

/-- What one access of a swap can do. -/
theorem step_effect {t : T} (hord : (s.threads t).ordered)
    (h : step s t = some s') : Effect s t s' := by
  unfold step at h
  cases hl : s.threads t with
  | idle => simp [hl] at h
  | get e =>
      simp only [hl] at h
      split at h
      · cases h
        exact .stay t hord
      · cases h
        exact .relabel (by rw [hl]; rfl) (by rw [hl]; rfl) trivial
  | checkoutGet first last =>
      simp only [hl] at h
      rw [hl] at hord
      split at h
      · cases h
        exact .stay t (by rw [hl]; exact hord)
      · cases h
        exact .relabel (by rw [hl]; rfl) (by rw [hl]; rfl) hord
  | checkoutSet first last val =>
      simp only [hl] at h
      rw [hl] at hord
      split at h
      next hp =>
        cases h
        exact .lock hp (by rw [hl]; rfl) (by rw [hl]; rfl) rfl rfl hord
      · cases h
        exact .relabel (by rw [hl]; rfl) (by rw [hl]; rfl) hord
  | exchangeGet first last valFirst =>
      simp only [hl] at h
      rw [hl] at hord
      split at h
      · cases h
        exact .stay t (by rw [hl]; exact hord)
      · cases h
        exact .relabel (by rw [hl]; rfl) (by rw [hl]; rfl) hord
  | exchangeSet first last valFirst val =>
      simp only [hl] at h
      rw [hl] at hord
      split at h
      next hp =>
        cases h
        exact .exchange hp (by rw [hl]; rfl) (by rw [hl]; rfl) rfl trivial
      · cases h
        exact .relabel (by rw [hl]; rfl) (by rw [hl]; rfl) hord
  | checkin first valLast =>
      simp only [hl] at h
      cases h
      exact .unlock (by rw [hl]; rfl) (by rw [hl]; rfl) rfl rfl trivial

/-- What one action can do, a new swap included. -/
theorem next_effect {m : T × Action E} (hord : (s.threads m.1).ordered)
    (h : next m s = some s') : Effect s m.1 s' := by
  obtain ⟨t, a⟩ := m
  cases a with
  | swap a b =>
      simp only [next] at h
      split at h
      next hl =>
        split at h
        next hne =>
          cases h
          unfold swapStart
          split
          next hlt => exact .relabel (by rw [hl]; rfl) (by rw [hl]; rfl) hlt
          next hlt =>
            exact .relabel (by rw [hl]; rfl) (by rw [hl]; rfl)
              (lt_of_le_of_ne (not_lt.mp hlt) hne.symm)
        · cases h
      · cases h
  | get e =>
      simp only [next] at h
      split at h
      next hl =>
        cases h
        exact .relabel (by rw [hl]; rfl) (by rw [hl]; rfl) trivial
      · cases h
  | step => exact step_effect hord h

omit [DecidableEq L] in
theorem Effect.inv {t : T} (he : Effect s t s') (hi : SwapInv s) :
    SwapInv s' := by
  cases he with
  | relabel hown _ hord => exact hi.goto hown hord
  | lock hp hown _ hl _ hord => exact hi.lock hp hown hl hord
  | exchange hp _ hl _ hord => exact hi.exchange hp hl hord
  | unlock hown _ hl _ hord => exact hi.unlock hown hl hord

/-- The invariant holds in every reachable state. -/
theorem Reachable.inv {loc : E → L} (hr : Reachable loc s) : SwapInv s :=
  Reach.invariant (fun _ h => swapInv_init h)
    (fun _ _ _ hi _ h => (next_effect (hi.ordered _) h).inv hi) hr

-- ============================================================ conservation

/-- A sum over a family of which one member changes. -/
theorem sum_comp_update {ι α M : Type} [Fintype ι] [DecidableEq ι]
    [AddCommMonoid M] (f : α → M) (g : ι → α) (i : ι) (a : α) :
    ∑ x, f (Function.update g i a x) + f (g i) = f a + ∑ x, f (g x) := by
  have hnew : ∑ x, f (Function.update g i a x)
      = f a + ∑ x ∈ Finset.univ.erase i, f (g x) := by
    rw [← Finset.add_sum_erase _ _ (Finset.mem_univ i), Function.update_self]
    congr 1
    refine Finset.sum_congr rfl fun x hx => ?_
    rw [Function.update_of_ne (Finset.ne_of_mem_erase hx)]
  rw [hnew, ← Finset.add_sum_erase Finset.univ (fun x => f (g x))
    (Finset.mem_univ i)]
  abel

variable [Fintype T] [Fintype E]

omit [DecidableEq L] in
/-- What leaves a word is in hand, and what leaves the hand is in a
word. -/
theorem Effect.locations {t : T} (he : Effect s t s') (hi : SwapInv s) :
    s'.locations = s.locations := by
  have hwrite : ∀ {e : E} {x : Option L} {l : Local E L},
      cell x + cell l.held = cell (s.p e) + cell (s.threads t).held →
      (s.write t e x l).locations = s.locations := by
    intro e x l hx
    have hp := sum_comp_update cell s.p e x
    have ht := sum_comp_update (fun l : Local E L => cell l.held) s.threads t l
    refine add_right_cancel (b := cell (s.p e) + cell (s.threads t).held) ?_
    unfold State.locations State.write
    calc _ = (∑ f, cell (Function.update s.p e x f) + cell (s.p e))
          + (∑ u, cell (Function.update s.threads t l u).held
            + cell (s.threads t).held) := by abel
      _ = (cell x + cell l.held)
          + (∑ f, cell (s.p f) + ∑ u, cell (s.threads u).held) := by
            rw [hp, ht]
            abel
      _ = _ := by
            rw [hx]
            abel
  cases he with
  | @relabel l _ hheld _ =>
      have ht := sum_comp_update (fun l : Local E L => cell l.held) s.threads t l
      rw [hheld] at ht
      unfold State.locations State.goto
      congr 1
      exact add_right_cancel (ht.trans (add_comm _ _))
  | lock hp _ hheld _ hl _ =>
      refine hwrite ?_
      rw [hp, hheld, hl]
      exact add_comm _ _
  | exchange hp hheld _ hl _ =>
      refine hwrite ?_
      rw [hp, hheld, hl]
      exact add_comm _ _
  | unlock hown hheld _ hl _ =>
      refine hwrite ?_
      rw [hi.marked _ _ hown, hheld, hl]
      exact add_comm _ _

omit [LinearOrder E] [DecidableEq L] in
/-- The locations of all elements, as one multiset. -/
theorem sum_singleton (f : E → L) :
    ∑ e, ({f e} : Multiset L) = Finset.univ.val.map f := by
  have h := Multiset.sum_map_singleton (Finset.univ.val.map f)
  rw [Multiset.map_map] at h
  exact h

/-- No location is lost and none comes twice. -/
theorem Reachable.locations {loc : E → L} (hr : Reachable loc s) :
    s.locations = Finset.univ.val.map loc := by
  have hboth : SwapInv s ∧ s.locations = Finset.univ.val.map loc := by
    refine Reach.invariant (I := fun s => SwapInv s
      ∧ s.locations = Finset.univ.val.map loc) (fun s h => ?_) ?_ hr
    · refine ⟨swapInv_init h, ?_⟩
      have hp : ∀ e, cell (s.p e) = {loc e} := fun e => by rw [h.1 e]; rfl
      have ht : ∀ t, cell (s.threads t).held = (0 : Multiset L) := fun t => by
        rw [h.2 t]
        rfl
      unfold State.locations
      simp only [hp, ht, Finset.sum_const_zero, add_zero]
      exact sum_singleton loc
    · intro m s s' hI _ hn
      have he := next_effect (hI.1.ordered _) hn
      exact ⟨he.inv hI.1, (he.locations hI.1).trans hI.2⟩
  exact hboth.2

/-- With no swap in flight every word holds a location, and together they
hold the initial ones. -/
theorem Reachable.placement {loc : E → L} (hr : Reachable loc s)
    (hquiet : ∀ t, (s.threads t).swapping = false) :
    ∃ place : E → L, (∀ e, s.p e = some (place e))
      ∧ Finset.univ.val.map place = Finset.univ.val.map loc := by
  have hheld : ∀ t, (s.threads t).held = none := fun t =>
    (Local.rests (hquiet t)).2
  have hsome : ∀ e, ∃ v, s.p e = some v := by
    intro e
    cases hp : s.p e with
    | some v => exact ⟨v, rfl⟩
    | none =>
        obtain ⟨t, ht⟩ := hr.inv.owned e hp
        rw [(Local.rests (hquiet t)).1] at ht
        cases ht
  choose place hplace using hsome
  refine ⟨place, hplace, ?_⟩
  rw [← hr.locations]
  unfold State.locations
  simp only [hplace, hheld, cell, Finset.sum_const_zero, add_zero]
  exact (sum_singleton place).symm

-- ================================================================ progress

omit [Fintype T] [Fintype E] in
/-- A thread that can finish after a step can finish before it. -/
theorem FinishesAlone.step {t : T} (h : step s t = some s')
    (hf : FinishesAlone s' t) : FinishesAlone s t := by
  obtain ⟨k, s'', hrun, hidle⟩ := hf
  refine ⟨k + 1, s'', ?_, hidle⟩
  rw [List.replicate_succ, run, if_pos (show free (t, Action.step) s from trivial)]
  show (Swap.step s t).bind _ = _
  rw [h]
  exact hrun

section Alone

omit [Fintype T] [Fintype E]

variable {t : T} {first last : E}

/-- From the checkin on nothing can hold the thread up. -/
theorem finishes_checkin {v : L} (hl : s.threads t = .checkin first v) :
    FinishesAlone s t := by
  have hs : step s t = some (s.write t first (some v) .idle) := by rw [step, hl]
  refine .step hs ?_
  exact ⟨0, _, rfl, Function.update_self ..⟩

/-- From the read of the second pointer on it finishes, if nobody holds
that pointer. -/
theorem finishes_exchangeGet {v w : L}
    (hl : s.threads t = .exchangeGet first last v) (hp : s.p last = some w) :
    FinishesAlone s t := by
  have hget : step s t = some (s.goto t (.exchangeSet first last v w)) := by
    rw [step, hl]
    simp only [hp]
  have hset : step (s.goto t (.exchangeSet first last v w)) t
      = some ((s.goto t (.exchangeSet first last v w)).write t last
        (some v) (.checkin first w)) := by
    rw [step, goto_self]
    exact if_pos hp
  exact .step hget (.step hset (finishes_checkin (Function.update_self ..)))

/-- From the exchange on it finishes, though it may have to read again. -/
theorem finishes_exchangeSet {v w x : L}
    (hl : s.threads t = .exchangeSet first last v x) (hp : s.p last = some w) :
    FinishesAlone s t := by
  by_cases hx : s.p last = some x
  · have hset : step s t = some (s.write t last (some v) (.checkin first x)) := by
      rw [step, hl]
      exact if_pos hx
    exact .step hset (finishes_checkin (Function.update_self ..))
  · have hretry : step s t = some (s.goto t (.exchangeGet first last v)) := by
      rw [step, hl]
      exact if_neg hx
    exact .step hretry (finishes_exchangeGet (goto_self ..) hp)

/-- From a checkout with the right value on it finishes. -/
theorem finishes_checkoutSet {v w : L}
    (hl : s.threads t = .checkoutSet first last v) (hf : s.p first = some v)
    (hp : s.p last = some w) (hne : last ≠ first) : FinishesAlone s t := by
  have hset : step s t
      = some (s.write t first none (.exchangeGet first last v)) := by
    rw [step, hl]
    exact if_pos hf
  refine .step hset (finishes_exchangeGet (w := w) (Function.update_self ..) ?_)
  exact (Function.update_of_ne hne ..).trans hp

/-- From the first read on it finishes. -/
theorem finishes_checkoutGet {v w : L}
    (hl : s.threads t = .checkoutGet first last) (hf : s.p first = some v)
    (hp : s.p last = some w) (hne : last ≠ first) : FinishesAlone s t := by
  have hget : step s t = some (s.goto t (.checkoutSet first last v)) := by
    rw [step, hl]
    simp only [hf]
  exact .step hget (finishes_checkoutSet (goto_self ..) hf hp hne)

/-- From a checkout with any value on it finishes, though it may have to
read again. -/
theorem finishes_checkoutSet_retry {v w x : L}
    (hl : s.threads t = .checkoutSet first last x) (hf : s.p first = some v)
    (hp : s.p last = some w) (hne : last ≠ first) : FinishesAlone s t := by
  by_cases hx : s.p first = some x
  · exact finishes_checkoutSet hl hx hp hne
  · have hretry : step s t = some (s.goto t (.checkoutGet first last)) := by
      rw [step, hl]
      exact if_neg hx
    exact .step hretry (finishes_checkoutGet (goto_self ..) hf hp hne)

end Alone

omit [Fintype T] in
/-- Some swap in flight can finish alone: the one that has checked out
the highest element, or any if none has checked out one. -/
theorem SwapInv.progress (hi : SwapInv s)
    (hbusy : ∃ t, (s.threads t).swapping = true) :
    ∃ t, (s.threads t).swapping = true ∧ FinishesAlone s t := by
  have hsome : ∀ {e : E}, s.p e ≠ none → ∃ v, s.p e = some v :=
    fun h => Option.ne_none_iff_exists'.mp h
  by_cases hany : ∃ e, s.p e = none
  · obtain ⟨e₀, he₀⟩ := hany
    obtain ⟨e, he, hmax⟩ := Finset.exists_max_image
      (Finset.univ.filter fun e => s.p e = none) id
      ⟨e₀, Finset.mem_filter.mpr ⟨Finset.mem_univ _, he₀⟩⟩
    obtain ⟨t, ht⟩ := hi.owned e (Finset.mem_filter.mp he).2
    have hhigh : ∀ {last : E}, e < last → ∃ w, s.p last = some w := by
      intro last hlt
      refine hsome fun hnone => absurd hlt (not_lt.mpr ?_)
      exact hmax last (Finset.mem_filter.mpr ⟨Finset.mem_univ _, hnone⟩)
    have hord := hi.ordered t
    refine ⟨t, ?_⟩
    cases hl : s.threads t with
    | exchangeGet first last v =>
        rw [hl] at hord ht
        obtain ⟨w, hw⟩ := hhigh (Option.some.inj ht ▸ hord)
        exact ⟨rfl, finishes_exchangeGet hl hw⟩
    | exchangeSet first last v x =>
        rw [hl] at hord ht
        obtain ⟨w, hw⟩ := hhigh (Option.some.inj ht ▸ hord)
        exact ⟨rfl, finishes_exchangeSet hl hw⟩
    | checkin first v => exact ⟨rfl, finishes_checkin hl⟩
    | _ =>
        rw [hl] at ht
        cases ht
  · -- nothing is checked out, so every word can be taken
    have hfree : ∀ e, ∃ v, s.p e = some v := fun e =>
      hsome fun hnone => hany ⟨e, hnone⟩
    obtain ⟨t, ht⟩ := hbusy
    have hord := hi.ordered t
    have hown : ∀ {e : E}, (s.threads t).owner ≠ some e := fun h =>
      hany ⟨_, hi.marked t _ h⟩
    refine ⟨t, ht, ?_⟩
    cases hl : s.threads t with
    | checkoutGet first last =>
        rw [hl] at hord
        obtain ⟨v, hv⟩ := hfree first
        obtain ⟨w, hw⟩ := hfree last
        exact finishes_checkoutGet hl hv hw (ne_of_gt hord)
    | checkoutSet first last x =>
        rw [hl] at hord
        obtain ⟨v, hv⟩ := hfree first
        obtain ⟨w, hw⟩ := hfree last
        exact finishes_checkoutSet_retry hl hv hw (ne_of_gt hord)
    | exchangeGet first last v => exact absurd (by rw [hl]; rfl) (hown (e := first))
    | exchangeSet first last v x =>
        exact absurd (by rw [hl]; rfl) (hown (e := first))
    | checkin first v => exact absurd (by rw [hl]; rfl) (hown (e := first))
    | _ =>
        rw [hl] at ht
        cases ht

/-- Under every interleaving of any number of threads the words and the
swaps in flight together hold the initial locations; when no swap is in
flight the placement is a rearrangement of the initial one, without
repetition if that had none; and while a swap is in flight some thread
can finish its swap alone. -/
theorem swaps_conserve (loc : E → L) (s : State T E L)
    (hr : Reachable loc s) :
    s.locations = Finset.univ.val.map loc
      ∧ ((∀ t, (s.threads t).swapping = false) →
          ∃ place : E → L, (∀ e, s.p e = some (place e))
            ∧ Finset.univ.val.map place = Finset.univ.val.map loc
            ∧ (Function.Injective loc → Function.Injective place))
      ∧ ((∃ t, (s.threads t).swapping = true) →
          ∃ t, (s.threads t).swapping = true ∧ FinishesAlone s t) := by
  refine ⟨hr.locations, fun hquiet => ?_, hr.inv.progress⟩
  obtain ⟨place, hplace, hperm⟩ := hr.placement hquiet
  refine ⟨place, hplace, hperm, fun hinj => ?_⟩
  have hnodup : (Finset.univ.val.map place).Nodup := by
    rw [hperm]
    exact Finset.univ.nodup.map hinj
  intro e f hef
  exact Multiset.inj_on_of_nodup_map hnodup e (Finset.mem_univ e) f
    (Finset.mem_univ f) hef

/-- Initial locations of three elements. -/
def threeLocs (e : Fin 3) : Nat := e.val + 10

/-- Two threads swap the same two of three elements; the first has
checked one of them out. -/
theorem swaps_conserve_two :
    ∃ s : State (Fin 2) (Fin 3) Nat, Reachable threeLocs s
      ∧ s.p 0 = none ∧ s.locations = Finset.univ.val.map threeLocs := by
  have hinit : Init threeLocs
      (⟨fun e => some (threeLocs e), fun _ => .idle⟩ : State (Fin 2) (Fin 3) Nat) :=
    ⟨fun _ => rfl, fun _ => rfl⟩
  obtain ⟨s, hr, hp⟩ : ∃ s : State (Fin 2) (Fin 3) Nat,
      Reach next (Init threeLocs) free s ∧ decide (s.p 0 = none) = true :=
    exists_reach_of_run hinit
      [(0, .swap 0 1), (1, .swap 1 0), (1, .step), (0, .step), (0, .step)]
      (by decide)
  exact ⟨s, hr, of_decide_eq_true hp, (swaps_conserve _ s hr).1⟩

end ThesisBench.Canneal.Swap

/-
What the two passes build from the parsed records.

A pass that stays inside the tables ends in a state that can be read off
its steps: `Netlist.after`. The first pass has reserved a slot for every
connection, unless a counter wrapped, so the second stays inside the
tables exactly when every id and connection is in range and no element
has too many of them (`Fits`). This, and everything `after` says but the
order of the pushes, depends on the records only and not on how they are
spread over the threads.
-/
import ThesisBench.Canneal.Proofs.Races

namespace ThesisBench.Canneal

open Interleave

variable {hd : Header} {sizes : Nat → Nat}

-- ======================================================= the first pass

/-- The first pass counts modulo `2^32`, and goes wrong if an id is out of
range. -/
theorem count_spec (s : List Nat) : ∀ c : Nat → Nat, (∀ e, c e < 2 ^ 32) →
    s.foldlM (countStep hd) c
      = if ∀ x ∈ s, x < hd.numElements then some (fun e => (c e + s.count e) % 2 ^ 32)
        else none := by
  induction s with
  | nil =>
      intro c hc
      rw [List.foldlM_nil, if_pos (fun x hx => by cases hx)]
      exact congrArg some (funext fun e => (Nat.mod_eq_of_lt (hc e)).symm)
  | cons x s ih =>
      intro c hc
      rw [List.foldlM_cons, countStep]
      by_cases hx : x < hd.numElements
      · rw [if_pos hx]
        show s.foldlM (countStep hd) _ = _
        rw [ih]
        · by_cases hs : ∀ y ∈ s, y < hd.numElements
          · have hall : ∀ y ∈ x :: s, y < hd.numElements :=
              List.forall_mem_cons.mpr ⟨hx, hs⟩
            rw [if_pos hs, if_pos hall]
            congr 1
            funext e
            by_cases he : e = x
            · rw [if_pos he, he, List.count_cons_self]
              omega
            · rw [if_neg he, List.count_cons_of_ne (Ne.symm he)]
          · have hnot : ¬ ∀ y ∈ x :: s, y < hd.numElements := fun h =>
              hs fun y hy => h y (List.mem_cons_of_mem _ hy)
            rw [if_neg hs, if_neg hnot]
        · intro e
          split
          · exact Nat.mod_lt _ (by decide)
          · exact hc e
      · have hnot : ¬ ∀ y ∈ x :: s, y < hd.numElements := fun h =>
          hx (h x (List.mem_cons_self ..))
        rw [if_neg hx, if_neg hnot]
        rfl

-- ====================================================== the second pass

/-- The step stays inside the tables, slots aside. -/
def Step.InRange (hd : Header) : Step → Prop
  | .name id => id < hd.chipSize
  | .fanin id conn => id < hd.chipSize ∧ conn < hd.chipSize
  | .fanout conn _ => conn < hd.numElements
  | .parsed _ => True

instance (st : Step) : Decidable (st.InRange hd) := by
  cases st <;> unfold Step.InRange <;> infer_instance

/-- What a step pushes to the fanin of `e`. -/
def Step.faninOf (e : Nat) : Step → Option Nat
  | .fanin id conn => if id = e then some conn else none
  | _ => none

/-- What a step puts into the fanout of `e`. -/
def Step.fanoutOf (e : Nat) : Step → Option Nat
  | .fanout conn id => if conn = e then some id else none
  | _ => none

/-- What a step adds to `total_parsed`. -/
def Step.parsedOf : Step → Option Nat
  | .parsed k => some k
  | _ => none

/-- The netlist after a list of steps. -/
def Netlist.after (m : Netlist) (s : List Step) : Netlist where
  itemName := fun e => if .name e ∈ s then some e else m.itemName e
  fanin := fun e => m.fanin e ++ s.filterMap (Step.faninOf e)
  fanout := fun e => m.fanout e ++ s.filterMap (Step.fanoutOf e)
  totalParsed := m.totalParsed + (s.filterMap Step.parsedOf).sum

theorem after_nil (m : Netlist) : m.after [] = m := by
  simp [Netlist.after]

/-- A step and what follows. -/
theorem run_after {m : Netlist} {st : Step} (s : List Step)
    (hin : st.InRange hd)
    (hslot : ∀ e, (m.fanout e).length + ((st :: s).filterMap
      (Step.fanoutOf e)).length ≤ sizes e) :
    ∃ m', st.run hd sizes m = some m' ∧ m'.after s = m.after (st :: s)
      ∧ ∀ e, (m'.fanout e).length + (s.filterMap (Step.fanoutOf e)).length
          ≤ sizes e := by
  cases st with
  | name id =>
      refine ⟨_, if_pos hin, ?_, fun e => hslot e⟩
      unfold Netlist.after
      congr 1
      · funext e
        by_cases he : e = id
        · simp [he]
        · simp [he]
  | fanin id conn =>
      refine ⟨_, if_pos hin, ?_, fun e => hslot e⟩
      unfold Netlist.after
      congr 1
      · funext e
        simp
      · funext e
        by_cases he : id = e
        · simp [Step.faninOf, he]
        · simp [Step.faninOf, he, Ne.symm he]
  | fanout conn id =>
      have hroom := hslot conn
      rw [List.filterMap_cons_some (b := id) (by simp [Step.fanoutOf]),
        List.length_cons] at hroom
      refine ⟨_, if_pos ⟨hin, by omega⟩, ?_, fun e => ?_⟩
      · unfold Netlist.after
        congr 1
        · funext e
          simp
        · funext e
          by_cases he : conn = e
          · simp [Step.fanoutOf, he]
          · simp [Step.fanoutOf, he, Ne.symm he]
      · have := hslot e
        by_cases he : conn = e
        · rw [List.filterMap_cons_some (b := id) (by simp [Step.fanoutOf, he]),
            List.length_cons] at this
          simp only [he, if_true, List.length_append, List.length_singleton]
          omega
        · rw [List.filterMap_cons_none (by simp [Step.fanoutOf, he])] at this
          simpa only [if_neg (Ne.symm he)] using this
  | parsed k =>
      refine ⟨_, rfl, ?_, fun e => hslot e⟩
      unfold Netlist.after
      congr 1
      · funext e
        simp
      · simp [Step.parsedOf, Nat.add_assoc]

/-- With room in the vectors the second pass does all its steps, or goes
wrong at one outside the tables. -/
theorem run_spec (s : List Step) : ∀ m : Netlist,
    (∀ e, (m.fanout e).length + (s.filterMap (Step.fanoutOf e)).length
      ≤ sizes e) →
    s.foldlM (Step.run hd sizes) m
      = if ∀ st ∈ s, st.InRange hd then some (m.after s) else none := by
  induction s with
  | nil => exact fun m _ => by simp [after_nil]
  | cons st s ih =>
      intro m hslot
      rw [List.foldlM_cons]
      by_cases hin : st.InRange hd
      · obtain ⟨m', hrun, hafter, hslot'⟩ := run_after s hin hslot
        rw [hrun]
        show s.foldlM (Step.run hd sizes) m' = _
        rw [ih m' hslot', hafter]
        by_cases hs : ∀ x ∈ s, x.InRange hd
        · rw [if_pos hs, if_pos (List.forall_mem_cons.mpr ⟨hin, hs⟩)]
        · rw [if_neg hs, if_neg fun h => hs (List.forall_mem_cons.mp h).2]
      · rw [if_neg fun h => hin (List.forall_mem_cons.mp h).1]
        have hnone : st.run hd sizes m = none := by
          cases st with
          | name id => exact if_neg hin
          | fanin id conn => exact if_neg hin
          | fanout conn id => exact if_neg fun h => hin h.1
          | parsed k => exact absurd trivial hin
        rw [hnone]
        rfl

/-- A step fills at most one slot, which the vector has. -/
theorem run_length {m m' : Netlist} {st : Step} (h : st.run hd sizes m = some m') (e : Nat) :
    (m'.fanout e).length
        = (m.fanout e).length + ([st].filterMap (Step.fanoutOf e)).length
      ∧ ((m.fanout e).length ≤ sizes e → (m'.fanout e).length ≤ sizes e) := by
  cases st with
  | name id =>
      obtain ⟨-, heq⟩ := Option.ite_none_right_eq_some.mp h
      cases heq
      exact ⟨rfl, fun hle => hle⟩
  | fanin id conn =>
      obtain ⟨-, heq⟩ := Option.ite_none_right_eq_some.mp h
      cases heq
      exact ⟨rfl, fun hle => hle⟩
  | fanout conn id =>
      obtain ⟨⟨-, hroom⟩, heq⟩ := Option.ite_none_right_eq_some.mp h
      cases heq
      by_cases he : e = conn
      · subst he
        simp only [if_true, List.length_append, List.length_singleton, Step.fanoutOf,
          List.filterMap_cons, List.filterMap_nil]
        exact ⟨trivial, fun _ => hroom⟩
      · simp only [if_neg he, Step.fanoutOf, if_neg (Ne.symm he), List.filterMap_cons,
          List.filterMap_nil, List.length_nil, Nat.add_zero]
        exact ⟨trivial, fun hle => hle⟩
  | parsed k =>
      cases h
      exact ⟨rfl, fun hle => hle⟩

/-- A run that ends has filled the slots of its steps, all of them in the
vectors. -/
theorem foldlM_length (s : List Step) : ∀ m m' : Netlist,
    s.foldlM (Step.run hd sizes) m = some m' → ∀ e, (m'.fanout e).length
        = (m.fanout e).length + (s.filterMap (Step.fanoutOf e)).length
      ∧ ((m.fanout e).length ≤ sizes e → (m'.fanout e).length ≤ sizes e) := by
  induction s with
  | nil =>
      intro m m' h e
      cases h
      exact ⟨rfl, fun hle => hle⟩
  | cons st s ih =>
      intro m m' h e
      rw [List.foldlM_cons] at h
      obtain ⟨m₁, hm₁, h⟩ := Option.bind_eq_some_iff.mp h
      obtain ⟨hlen₁, hle₁⟩ := run_length hm₁ e
      obtain ⟨hlen, hle⟩ := ih m₁ m' h e
      have hsplit : (st :: s).filterMap (Step.fanoutOf e)
          = [st].filterMap (Step.fanoutOf e) ++ s.filterMap (Step.fanoutOf e) := by
        rw [← List.filterMap_append, List.singleton_append]
      rw [hsplit, List.length_append]
      exact ⟨by omega, fun h₀ => hle (hle₁ h₀)⟩

-- ============================================================ the steps

/-- The pushes of a record to the fanin of `e`. -/
def Record.faninOf (e : Nat) (r : Record) : List Nat :=
  if r.id = e then r.conns else []

/-- The slots of a record in the fanout of `e`. -/
def Record.fanoutOf (e : Nat) (r : Record) : List Nat :=
  (r.conns.filter (· = e)).map fun _ => r.id

/-- The record stays inside the tables. -/
def Record.InRange (hd : Header) (r : Record) : Prop :=
  r.id < hd.chipSize ∧ ∀ c ∈ r.conns, c < hd.chipSize ∧ c < hd.numElements

instance (r : Record) : Decidable (r.InRange hd) :=
  inferInstanceAs (Decidable (_ ∧ _))

/-- What the constructor needs of the records to stay inside its tables
and vectors. -/
def Fits (hd : Header) (rs : List Record) : Prop :=
  hd.numElements ≤ hd.chipSize ∧ (∀ r ∈ rs, r.InRange hd)
    ∧ ∀ e < hd.numElements, (rs.flatMap Record.conns).count e < 2 ^ 32

instance (rs : List Record) : Decidable (Fits hd rs) :=
  inferInstanceAs (Decidable (_ ∧ _ ∧ _))

/-- What a record's steps push to the fanin of `e`. -/
theorem steps_fanin (e : Nat) (r : Record) :
    r.steps.filterMap (Step.faninOf e) = r.faninOf e := by
  unfold Record.steps Record.faninOf
  rw [List.filterMap_cons_none rfl]
  induction r.conns with
  | nil => simp
  | cons c cs ih =>
      by_cases he : r.id = e
      · rw [if_pos he] at ih ⊢
        rw [List.flatMap_cons, List.filterMap_append, ih]
        simp [Step.faninOf, he, List.filterMap_cons]
      · rw [if_neg he] at ih ⊢
        rw [List.flatMap_cons, List.filterMap_append, ih]
        simp [Step.faninOf, he, List.filterMap_cons]

/-- What a record's steps put into the fanout of `e`. -/
theorem steps_fanout (e : Nat) (r : Record) :
    r.steps.filterMap (Step.fanoutOf e) = r.fanoutOf e := by
  unfold Record.steps Record.fanoutOf
  rw [List.filterMap_cons_none rfl]
  induction r.conns with
  | nil => simp
  | cons c cs ih =>
      rw [List.flatMap_cons, List.filterMap_append, ih]
      by_cases he : c = e
      · simp [Step.fanoutOf, he, List.filterMap_cons]
      · simp [Step.fanoutOf, he, List.filterMap_cons]

/-- A record's steps do not add to the number of elements parsed. -/
theorem steps_parsed (r : Record) : r.steps.filterMap Step.parsedOf = [] := by
  unfold Record.steps
  rw [List.filterMap_cons_none rfl]
  refine List.filterMap_eq_nil_iff.mpr fun st hst => ?_
  obtain ⟨c, -, hc⟩ := List.mem_flatMap.mp hst
  simp only [List.mem_cons, List.not_mem_nil, or_false] at hc
  rcases hc with rfl | rfl <;> rfl

/-- A record's steps are in range when the record is. -/
theorem steps_inRange (r : Record) :
    (∀ st ∈ r.steps, st.InRange hd) ↔ r.InRange hd := by
  unfold Record.steps Record.InRange
  rw [List.forall_mem_cons]
  constructor
  · rintro ⟨hid, h⟩
    refine ⟨hid, fun c hc => ⟨?_, ?_⟩⟩
    · exact (h (.fanin r.id c) (List.mem_flatMap.mpr ⟨c, hc, by simp⟩)).2
    · exact h (.fanout c r.id) (List.mem_flatMap.mpr ⟨c, hc, by simp⟩)
  · rintro ⟨hid, h⟩
    refine ⟨hid, fun st hst => ?_⟩
    obtain ⟨c, hc, hm⟩ := List.mem_flatMap.mp hst
    simp only [List.mem_cons, List.not_mem_nil, or_false] at hm
    rcases hm with rfl | rfl
    · exact ⟨hid, (h c hc).1⟩
    · exact (h c hc).2

/-- What a thread's steps do, the counter aside, its records do. -/
theorem thread_filterMap {β : Type} {f : Step → Option β}
    (hf : ∀ k, f (.parsed k) = none) : ∀ (n : Nat) (rs : List Record),
    (threadSteps n rs).filterMap f = rs.flatMap fun r => r.steps.filterMap f := by
  intro n rs
  induction rs generalizing n with
  | nil =>
      rw [threadSteps, List.filterMap_cons_none (hf _)]
      rfl
  | cons r rs ih =>
      have hmid : (if (n + 1) % 5000000 = 0 then [Step.parsed 5000000]
          else []).filterMap f = [] := by
        split
        · rw [List.filterMap_cons_none (hf _)]
          rfl
        · rfl
      rw [threadSteps, List.filterMap_append, List.filterMap_append, hmid, ih,
        List.nil_append, List.flatMap_cons]

/-- The counter adds up to the number of lines. -/
theorem thread_parsed (n : Nat) (rs : List Record) :
    ((threadSteps n rs).filterMap Step.parsedOf).sum
      = n % 5000000 + rs.length := by
  induction rs generalizing n with
  | nil => rfl
  | cons r rs ih =>
      rw [threadSteps, List.filterMap_append, List.filterMap_append, steps_parsed,
        List.nil_append, List.sum_append, ih, List.length_cons]
      split
      · rw [show [Step.parsed 5000000].filterMap Step.parsedOf = [5000000] from rfl,
          List.sum_singleton]
        omega
      · rw [show ([] : List Step).filterMap Step.parsedOf = [] from rfl,
          List.sum_nil]
        omega

/-- Apart from the count at its end, a thread does the steps of its
records. -/
theorem mem_threadSteps {st : Step} (hst : ∀ k, st ≠ .parsed k) (n : Nat)
    (rs : List Record) : st ∈ threadSteps n rs ↔ ∃ r ∈ rs, st ∈ r.steps := by
  induction rs generalizing n with
  | nil => simp [threadSteps, hst]
  | cons r rs ih =>
      have hmid : st ∉ (if (n + 1) % 5000000 = 0 then [Step.parsed 5000000]
          else []) := by
        split
        · exact fun hm => hst _ (List.mem_singleton.mp hm)
        · exact List.not_mem_nil
      simp only [threadSteps, List.mem_append, ih, hmid, false_or,
        List.mem_cons, exists_eq_or_imp]

-- ============================================================ the threads

variable {rss : List (List Record)} {s : List Step}

/-- What the threads do together, taken record by record. -/
theorem flatten_filterMap {β : Type} {f : Step → Option β}
    (hf : ∀ k, f (.parsed k) = none) (rss : List (List Record)) :
    (rss.map (threadSteps 0)).flatten.filterMap f
      = rss.flatten.flatMap fun r => r.steps.filterMap f := by
  induction rss with
  | nil => rfl
  | cons rs rss ih =>
      rw [List.map_cons, List.flatten_cons, List.filterMap_append, ih,
        thread_filterMap hf, List.flatten_cons, List.flatMap_append]

/-- The counts of the threads add up to the number of records. -/
theorem flatten_parsed (rss : List (List Record)) :
    ((rss.map (threadSteps 0)).flatten.filterMap Step.parsedOf).sum
      = rss.flatten.length := by
  induction rss with
  | nil => rfl
  | cons rs rss ih =>
      rw [List.map_cons, List.flatten_cons, List.filterMap_append,
        List.sum_append, ih, thread_parsed, List.flatten_cons,
        List.length_append]
      omega

/-- In any order the steps are those of the records. -/
theorem mem_interleaved (h : Interleaves (rss.map (threadSteps 0)) s)
    {st : Step} (hst : ∀ k, st ≠ .parsed k) :
    st ∈ s ↔ ∃ r ∈ rss.flatten, st ∈ r.steps := by
  rw [h.perm.mem_iff, List.mem_flatten]
  simp only [List.mem_map, List.mem_flatten]
  constructor
  · rintro ⟨t, ⟨rs, hrs, rfl⟩, hm⟩
    obtain ⟨r, hr, hm⟩ := (mem_threadSteps hst 0 rs).mp hm
    exact ⟨r, ⟨rs, hrs, hr⟩, hm⟩
  · rintro ⟨r, ⟨rs, hrs, hr⟩, hm⟩
    exact ⟨_, ⟨rs, hrs, rfl⟩, (mem_threadSteps hst 0 rs).mpr ⟨r, hr, hm⟩⟩

/-- In any order the steps stay inside the tables if the records do. -/
theorem inRange_interleaved (h : Interleaves (rss.map (threadSteps 0)) s) :
    (∀ st ∈ s, st.InRange hd) ↔ ∀ r ∈ rss.flatten, r.InRange hd := by
  constructor
  · intro hall r hr
    refine (steps_inRange r).mp fun st hst => ?_
    cases st with
    | parsed k => trivial
    | name id => exact hall _ ((mem_interleaved h (by simp)).mpr ⟨r, hr, hst⟩)
    | fanin id conn => exact hall _ ((mem_interleaved h (by simp)).mpr ⟨r, hr, hst⟩)
    | fanout conn id => exact hall _ ((mem_interleaved h (by simp)).mpr ⟨r, hr, hst⟩)
  · intro hall st hst
    have hrec : ∀ st, (∀ k, st ≠ .parsed k) → st ∈ s → st.InRange hd := by
      intro st hne hm
      obtain ⟨r, hr, hm⟩ := (mem_interleaved h hne).mp hm
      exact (steps_inRange r).mpr (hall r hr) st hm
    cases st with
    | parsed k => trivial
    | name id => exact hrec _ (by simp) hst
    | fanin id conn => exact hrec _ (by simp) hst
    | fanout conn id => exact hrec _ (by simp) hst

/-- The fanout slots taken are the connections counted. -/
theorem length_fanoutOf (e : Nat) (rs : List Record) :
    (rs.flatMap (Record.fanoutOf e)).length = (rs.flatMap Record.conns).count e := by
  induction rs with
  | nil => rfl
  | cons r rs ih =>
      rw [List.flatMap_cons, List.length_append, ih, List.flatMap_cons,
        List.count_append]
      congr 1
      rw [Record.fanoutOf, List.length_map, List.count_eq_length_filter]
      congr 1

/-- The first pass counts the connections of all records. -/
theorem conns_interleaved {s₁ : List Nat}
    (h : Interleaves (rss.map fun rs => rs.flatMap Record.conns) s₁) :
    s₁.Perm (rss.flatten.flatMap Record.conns) := by
  refine h.perm.trans (List.Perm.of_eq ?_)
  rw [List.flatMap_def, List.map_flatten, List.flatten_flatten, List.map_map]
  rfl

/-- The second pass takes a slot of `e` for each connection to it. -/
theorem slots_interleaved (h : Interleaves (rss.map (threadSteps 0)) s) (e : Nat) :
    (s.filterMap (Step.fanoutOf e)).length = (rss.flatten.flatMap Record.conns).count e := by
  rw [(h.perm.filterMap _).length_eq, flatten_filterMap fun _ => rfl,
    ← length_fanoutOf, show (fun r : Record =>
      r.steps.filterMap (Step.fanoutOf e)) = Record.fanoutOf e from
      funext (steps_fanout e)]

/-- The second pass, with the slots that 32-bit counters leave it. -/
theorem secondPass_spec (h : Interleaves (rss.map (threadSteps 0)) s)
    (hchip : hd.numElements ≤ hd.chipSize)
    (hconns : ∀ c ∈ rss.flatten.flatMap Record.conns, c < hd.numElements)
    (hsizes : ∀ e, sizes e = (rss.flatten.flatMap Record.conns).count e % 2 ^ 32) :
    s.foldlM (Step.run hd sizes) Netlist.empty
      = if Fits hd rss.flatten then some (Netlist.empty.after s) else none := by
  have hempty : ∀ e, (Netlist.empty.fanout e).length = 0 := fun _ => rfl
  by_cases hlt : ∀ e < hd.numElements, (rss.flatten.flatMap Record.conns).count e < 2 ^ 32
  case pos =>
    have hslot : ∀ e, (Netlist.empty.fanout e).length
        + (s.filterMap (Step.fanoutOf e)).length ≤ sizes e := by
      intro e
      rw [hsizes, slots_interleaved h, hempty, Nat.zero_add]
      by_cases he : e < hd.numElements
      · rw [Nat.mod_eq_of_lt (hlt e he)]
      · rw [List.count_eq_zero_of_not_mem fun hmem => he (hconns e hmem)]
        exact Nat.zero_le _
    have hiff : (∀ st ∈ s, st.InRange hd) ↔ Fits hd rss.flatten := by
      rw [inRange_interleaved h]
      exact ⟨fun hin => ⟨hchip, hin, hlt⟩, fun hfits => hfits.2.1⟩
    simp only [run_spec s _ hslot, hiff]
  case neg =>
    -- the counter of `e` has wrapped, so its vector is too short
    rw [if_neg fun hfits => hlt hfits.2.2]
    push Not at hlt
    obtain ⟨e, -, hbig⟩ := hlt
    refine Option.eq_none_iff_forall_ne_some.mpr fun m hm => ?_
    obtain ⟨hlen, hle⟩ := foldlM_length s _ m hm e
    replace hle := hle (Nat.zero_le _)
    rw [hsizes] at hle
    rw [slots_interleaved h, hempty] at hlen
    have := Nat.mod_lt ((rss.flatten.flatMap Record.conns).count e) (Nat.two_pow_pos 32)
    omega

/-- Both passes, in any order of the threads. -/
theorem construct_spec {s₁ : List Nat}
    (h₁ : Interleaves (rss.map fun rs => rs.flatMap Record.conns) s₁)
    (h₂ : Interleaves (rss.map (threadSteps 0)) s) :
    ((s₁.foldlM (countStep hd) fun _ => 0).bind fun counts =>
        (resizeFanout hd counts).bind fun sizes =>
          s.foldlM (Step.run hd sizes) Netlist.empty)
      = if Fits hd rss.flatten then some (Netlist.empty.after s) else none := by
  have hperm := conns_interleaved h₁
  rw [count_spec s₁ _ fun _ => by decide]
  by_cases hconns : ∀ x ∈ s₁, x < hd.numElements
  case neg =>
    have hnot : ¬ Fits hd rss.flatten := fun hfits => hconns fun x hx => by
      obtain ⟨r, hr, hxr⟩ := List.mem_flatMap.mp (hperm.mem_iff.mp hx)
      exact ((hfits.2.1 r hr).2 x hxr).2
    rw [if_neg hconns, if_neg hnot]
    rfl
  rw [if_pos hconns, Option.bind_some, resizeFanout]
  by_cases hchip : hd.numElements ≤ hd.chipSize
  case neg =>
    rw [if_neg hchip, if_neg fun hfits => hchip hfits.1]
    rfl
  rw [if_pos hchip, Option.bind_some]
  refine secondPass_spec h₂ hchip (fun c hc => hconns c (hperm.mem_iff.mpr hc)) fun e => ?_
  rw [Nat.zero_add, hperm.count_eq]

/-- When no two threads have lines of one element, one thread at most
pushes to `e`. -/
theorem pairwise_faninOf (e : Nat) (h : ¬ Races rss) :
    (rss.map fun rs => rs.flatMap (Record.faninOf e)).Pairwise
      fun t u => t = [] ∨ u = [] := by
  have hex : ∀ rs : List Record, rs.flatMap (Record.faninOf e) ≠ [] →
      ∃ r ∈ rs, r.id = e := by
    intro rs hne
    by_contra hno
    push Not at hno
    exact hne (List.flatMap_eq_nil_iff.mpr fun r hr => if_neg (hno r hr))
  refine List.pairwise_map.mpr ((not_not.mp h).imp fun {rs rs'} hids => ?_)
  by_contra hboth
  push Not at hboth
  obtain ⟨r, hr, hre⟩ := hex rs hboth.1
  obtain ⟨r', hr', hre'⟩ := hex rs' hboth.2
  exact hids r hr r' hr' (hre.trans hre'.symm)

/-- The pushes to `e`, in the order of the lines. -/
theorem interleaved_fanin (e : Nat) (h : Interleaves (rss.map (threadSteps 0)) s)
    (hrace : ¬ Races rss) :
    s.filterMap (Step.faninOf e) = rss.flatten.flatMap (Record.faninOf e) := by
  have hi := h.filterMap (Step.faninOf e)
  have hmap : (rss.map (threadSteps 0)).map (List.filterMap (Step.faninOf e))
      = rss.map fun rs => rs.flatMap (Record.faninOf e) := by
    rw [List.map_map]
    refine List.map_congr_left fun rs _ => ?_
    show (threadSteps 0 rs).filterMap (Step.faninOf e) = _
    rw [thread_filterMap fun _ => rfl]
    exact congrArg (rs.flatMap ·) (funext (steps_fanin e))
  rw [hmap] at hi
  rw [hi.eq_flatten (pairwise_faninOf e hrace), List.flatMap_def, List.map_flatten,
    List.flatten_flatten, List.map_map]
  rfl

/-- What the order of the threads leaves to see of the netlist. -/
theorem after_same {rss' : List (List Record)} {s' : List Step}
    (h : Interleaves (rss.map (threadSteps 0)) s)
    (h' : Interleaves (rss'.map (threadSteps 0)) s') (hrace : ¬ Races rss)
    (hrace' : ¬ Races rss') (hrs : rss.flatten = rss'.flatten) :
    Netlist.Same (Netlist.empty.after s) (Netlist.empty.after s') where
  itemName := by
    funext e
    have hiff : (Step.name e ∈ s) ↔ (Step.name e ∈ s') := by
      rw [mem_interleaved h (by simp), mem_interleaved h' (by simp), hrs]
    simp only [Netlist.after, hiff]
  totalParsed := by
    have hsum : ∀ {rss : List (List Record)} {s : List Step},
        Interleaves (rss.map (threadSteps 0)) s →
        (s.filterMap Step.parsedOf).sum = rss.flatten.length := by
      intro rss s h
      rw [(h.perm.filterMap _).sum_nat, flatten_parsed]
    simp only [Netlist.after, hsum h, hsum h', hrs]
  fanout := by
    intro e
    have hf := (h.perm.filterMap (Step.fanoutOf e)).trans
      (List.Perm.of_eq (flatten_filterMap (fun _ => rfl) rss))
    have hf' := (h'.perm.filterMap (Step.fanoutOf e)).trans
      (List.Perm.of_eq (flatten_filterMap (fun _ => rfl) rss'))
    rw [hrs] at hf
    exact (hf.trans hf'.symm).append_left _
  fanin := by
    funext e
    simp only [Netlist.after, interleaved_fanin e h hrace, interleaved_fanin e h' hrace', hrs]

-- ========================================================= the netlist

/-- The threads' records in a row, when the chunks meet. -/
theorem flatten_threadRecords {lines : List (List Byte)} {nthreads : Nat}
    (hl : ∀ l ∈ lines, IsLine l) (hn : 0 < nthreads)
    (hc : CutsInside (render lines) nthreads) :
    (threadRecords (render lines) nthreads).flatten = lines.map lineRecord := by
  have hall := congrArg (List.map Prod.snd) (flatMap_parseChunk hl hn hc)
  rw [map_snd_lineEvents] at hall
  rw [threadRecords, ← hall, List.flatMap_def, List.map_flatten, List.map_map]
  rfl

/-- With no line beginning at a cut, and without races, every order of
steps ends as a single thread does. -/
theorem sameNetlist_of_cutsInside {lines : List (List Byte)} {nthreads : Nat}
    (hl : ∀ l ∈ lines, IsLine l) (hn : 0 < nthreads)
    (hc : CutsInside (render lines) nthreads)
    (hrace : ¬ Races (threadRecords (render lines) nthreads)) (hd : Header) :
    SameNetlist hd lines nthreads := by
  intro out ref hout href
  obtain ⟨s₁, s₂, h₁, h₂, hout⟩ := hout.resolve_left hrace
  obtain ⟨t₁, t₂, g₁, g₂, href⟩ := href.resolve_left (not_races_one _)
  have hone : CutsInside (render lines) 1 := fun k hk hk' => by omega
  have hrs := flatten_threadRecords hl hn hc
  have hrs' := flatten_threadRecords hl Nat.one_pos hone
  rw [construct_spec h₁ h₂, hrs] at hout
  rw [construct_spec g₁ g₂, hrs'] at href
  by_cases hfits : Fits hd (lines.map lineRecord)
  · rw [if_pos hfits] at hout href
    exact Or.inr ⟨_, _, hout, href,
      after_same h₂ g₂ hrace (not_races_one _) (hrs.trans hrs'.symm)⟩
  · rw [if_neg hfits] at hout href
    exact Or.inl ⟨hout, href⟩

/-- Some interleaving of the two passes there is. -/
theorem exists_constructs (hd : Header) (b : Body) (nthreads : Nat) :
    ∃ out, Constructs hd b nthreads out :=
  ⟨_, .inr ⟨_, _, interleaves_flatten _, interleaves_flatten _, rfl⟩⟩

/-- A race can leave what one thread never leaves. -/
theorem not_sameNetlist_of_races {lines : List (List Byte)} {nthreads : Nat}
    (hrace : Races (threadRecords (render lines) nthreads)) (hd : Header) :
    ¬ SameNetlist hd lines nthreads := by
  intro h
  obtain ⟨ref, href⟩ := exists_constructs hd (render lines) 1
  cases ref with
  | none =>
      rcases h (some Netlist.empty) none (.inl hrace) href with ⟨hout, -⟩ | ⟨m, n, -, hn, -⟩
      · cases hout
      · cases hn
  | some ref =>
      rcases h none (some ref) (.inl hrace) href with ⟨-, href⟩ | ⟨m, n, hm, -, -⟩
      · cases href
      · cases hm

/-- The lines of every element are in one chunk, exactly when no two
threads race. -/
theorem linesTogether_iff {lines : List (List Byte)} {nthreads : Nat}
    (hl : ∀ l ∈ lines, IsLine l) (hn : 0 < nthreads)
    (hc : CutsInside (render lines) nthreads) :
    LinesTogether lines nthreads ↔ ¬ Races (threadRecords (render lines) nthreads) := by
  by_cases hne : 0 < (render lines).length
  · rw [races_iff_not_linesTogether hl hne hc, not_not]
  · have hnil := lines_eq_nil hne
    have hrecords := flatten_threadRecords hl hn hc
    subst hnil
    refine iff_of_true (fun i j l l' _ hi => by cases hi) (not_not_intro ?_)
    -- no thread has a record
    refine List.pairwise_of_forall_mem_list fun rs hrs rs' _ r hr => ?_
    have hmem := List.mem_flatten.mpr ⟨rs, hrs, hr⟩
    rw [hrecords] at hmem
    cases hmem

/-- Every line is parsed once, and the netlist is the one a single
thread builds, exactly when no chunk boundary falls on the first byte of
a line or comes between two lines of one element. -/
theorem parsedOnce_sameNetlist_iff (lines : List (List Byte))
    (hl : ∀ l ∈ lines, IsLine l) (nthreads : Nat) (hn : 1 ≤ nthreads) :
    (ParsedOnce lines nthreads ∧ ∀ hd, SameNetlist hd lines nthreads)
      ↔ CutsInside (render lines) nthreads ∧ LinesTogether lines nthreads := by
  constructor
  · rintro ⟨hp, hsame⟩
    have hc : CutsInside (render lines) nthreads := by
      by_contra hc
      exact not_parsedOnce hl hc hp
    refine ⟨hc, (linesTogether_iff hl hn hc).mpr fun hrace => ?_⟩
    exact not_sameNetlist_of_races hrace ⟨0, 0⟩ (hsame ⟨0, 0⟩)
  · rintro ⟨hc, htogether⟩
    have hrace := (linesTogether_iff hl hn hc).mp htogether
    refine ⟨?_, sameNetlist_of_cutsInside hl hn hc hrace⟩
    unfold ParsedOnce
    rw [flatMap_parseChunk hl hn hc]

/-- `0 1 2 3 4 5 6` -/
def shortLine : List Byte := [48, 9, 49, 9, 50, 9, 51, 9, 52, 9, 53, 9, 54]

/-- `1 1 2 3 4 5 6` -/
def secondLine : List Byte := [49, 9, 49, 9, 50, 9, 51, 9, 52, 9, 53, 9, 54]

theorem shortLine_isLine : IsLine shortLine :=
  ⟨by decide, 48, by decide, by decide⟩

/-- Two lines of 14 bytes and three threads: the boundaries 9 and 18 are
inside the lines, and one thread has each line. -/
theorem parsedOnce_sameNetlist_iff_three :
    (∀ l ∈ [shortLine, secondLine], IsLine l) ∧ 1 ≤ 3
      ∧ ParsedOnce [shortLine, secondLine] 3
      ∧ SameNetlist ⟨7, 9⟩ [shortLine, secondLine] 3 := by
  have hl : ∀ l ∈ [shortLine, secondLine], IsLine l := by
    intro l hl
    rcases List.mem_pair.mp hl with rfl | rfl
    · exact shortLine_isLine
    · exact ⟨by decide, 49, by decide, by decide⟩
  have hids : (lineRecord shortLine).id ≠ (lineRecord secondLine).id := by decide
  have hcond : CutsInside (render [shortLine, secondLine]) 3
      ∧ LinesTogether [shortLine, secondLine] 3 := by
    refine ⟨fun k hpos hk => ?_, fun i j l l' hij hi hj heq => ?_⟩
    · have hk' : k = 1 ∨ k = 2 := by omega
      rcases hk' with rfl | rfl
      · exact fun h => absurd h.2 (by decide)
      · exact fun h => absurd h.2 (by decide)
    · have hj2 := (List.getElem?_eq_some_iff.mp hj).1
      have hj2 : j < 2 := hj2
      obtain ⟨rfl, rfl⟩ : i = 0 ∧ j = 1 := by omega
      cases hi
      cases hj
      exact absurd heq hids
  have hboth := (parsedOnce_sameNetlist_iff [shortLine, secondLine] hl 3 (by decide)).mpr hcond
  exact ⟨hl, by decide, hboth.1, hboth.2 ⟨7, 9⟩⟩

/-- Two lines of 14 bytes of one element. With two threads the second
line starts on the boundary, and both threads parse it. With three the
boundary 9 comes between the starts of the two lines, and two threads
push to the element's vector. -/
theorem not_parsedOnce_sameNetlist :
    (∀ l ∈ [shortLine, shortLine], IsLine l)
      ∧ ¬ (ParsedOnce [shortLine, shortLine] 2
        ∧ ∀ hd, SameNetlist hd [shortLine, shortLine] 2)
      ∧ ¬ SameNetlist ⟨7, 9⟩ [shortLine, shortLine] 3 := by
  have hl : ∀ l ∈ [shortLine, shortLine], IsLine l := by
    simpa using shortLine_isLine
  refine ⟨hl, fun h => not_parsedOnce hl (fun hc => ?_) h.1, not_sameNetlist_of_races ?_ _⟩
  · exact hc 1 (by decide) (by decide) ⟨by decide, by decide⟩
  · have hc : CutsInside (render [shortLine, shortLine]) 3 := by
      intro k hpos hk
      have hk' : k = 1 ∨ k = 2 := by omega
      rcases hk' with rfl | rfl
      · exact fun h => absurd h.2 (by decide)
      · exact fun h => absurd h.2 (by decide)
    by_contra hrace
    have htogether := (linesTogether_iff hl (by decide) hc).mpr hrace
    exact htogether 0 1 shortLine shortLine (by decide) rfl rfl rfl 1 (by decide) (by decide)
      ⟨by decide, by decide⟩

end ThesisBench.Canneal

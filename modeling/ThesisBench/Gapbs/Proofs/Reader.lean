/-
When `ReadInGR` returns the edges of a `.gr` file.

# Forwards

At the start of a line the loop has the whole line before it. A comment
or problem line is dropped 200 characters at a time, and the pieces it
looks at begin at the multiples of 200: where none of them is an `a` the
loop gets to the next line with the edges it had (`text_turns`). An arc
line takes one turn for its numbers and one for the line end
(`arc_turns`). So clean lines are read as they should be, and the loop
returns (`lines_return`).

# Backwards

A line that is not clean cannot be made up for. At a mark the loop
appends an edge of its own making, and whatever is there it cannot read
past the next line's first letter (`Confined`): it goes on in the same
line, or the file is over, or it has failed and never returns. In each
case every arc line still to come has its edge as well, so what is
returned has an edge too many (`Owes`). An arc whose end cannot be
decremented is a fault.
-/
import ThesisBench.Gapbs.Reader
import Mathlib.Data.List.Flatten

namespace ThesisBench.Gapbs

open IStream While

-- =============================================================== marks

/-- A mark is an `a` at a multiple of 200 characters. -/
theorem marked_iff (t : List UInt8) : Marked t ↔ ∃ k, t[200 * k]? = some 97 := by
  constructor
  · rintro ⟨k, -, hk⟩
    exact ⟨k, hk⟩
  · rintro ⟨k, hk⟩
    obtain ⟨hlt, -⟩ := List.getElem?_eq_some_iff.mp hk
    exact ⟨k, by omega, hk⟩

theorem marked_of_head {t : List UInt8} (h : t.head? = some 97) : Marked t := by
  rw [marked_iff]
  exact ⟨0, by rw [← h, List.head?_eq_getElem?]⟩

/-- The marks past the first 200 characters. -/
theorem marked_drop {t : List UInt8} (h : t.head? ≠ some 97) :
    Marked (t.drop 200) ↔ Marked t := by
  rw [marked_iff, marked_iff]
  constructor
  · rintro ⟨k, hk⟩
    rw [List.getElem?_drop] at hk
    exact ⟨k + 1, by rwa [Nat.mul_succ, Nat.add_comm]⟩
  · rintro ⟨k, hk⟩
    cases k with
    | zero => exact absurd (by rwa [List.head?_eq_getElem?]) h
    | succ k => exact ⟨k, by rwa [List.getElem?_drop, Nat.add_comm, ← Nat.mul_succ]⟩

theorem not_marked_short {t : List UInt8} (h : t.head? ≠ some 97) (hlen : t.length < 200) :
    ¬ Marked t := by
  rw [← marked_drop h, List.drop_of_length_le (Nat.le_of_lt hlen)]
  rintro ⟨k, hk, -⟩
  exact Nat.not_lt_zero k hk

-- =============================================================== lines

/-- What follows the text of a line. -/
def restOf (final : Bool) : List GrLine → List UInt8
  | [] => if final then [newline] else []
  | l :: ls => newline :: (l.text ++ restOf final ls)

/-- The text of the first line, and what follows. -/
theorem grText_cons (final : Bool) (l : GrLine) (ls : List GrLine) :
    grText final (l :: ls) = l.text ++ restOf final ls := by
  induction ls generalizing l with
  | nil => simp [grText, restOf]
  | cons l' ls ih =>
      have h := ih l'
      simp only [grText, List.map_cons, List.intercalate_cons_cons, List.append_assoc,
        restOf] at h ⊢
      rw [h]
      rfl

theorem Blanks.all_space (b : Blanks) : ∀ c ∈ b.chars, isSpace c = true := by
  intro c hc
  cases b.blank c hc with
  | inl h => rw [h]; decide
  | inr h => rw [h]; decide

theorem Blanks.not_newline (b : Blanks) : newline ∉ b.chars := by
  intro h
  cases b.blank _ h with
  | inl h => exact absurd h (by decide)
  | inr h => exact absurd h (by decide)

theorem Blanks.noDigit (b : Blanks) (rest : List UInt8) : NoDigit (b.chars ++ rest) := by
  cases hb : b.chars with
  | nil => exact absurd hb b.nonempty
  | cons c cs =>
      intro c' hc'
      obtain rfl : c = c' := by simpa using hc'
      cases b.blank c (by simp [hb]) with
      | inl h => rw [h]; decide
      | inr h => rw [h]; decide

/-- A line begins with its letter and has no line end in it. -/
theorem GrLine.text_eq_cons (l : GrLine) :
    ∃ c cs, l.text = c :: cs ∧ (c = 97 ∨ c = 99 ∨ c = 112) ∧ newline ∉ c :: cs := by
  cases l with
  | comment t =>
      refine ⟨99, t.chars, rfl, .inr (.inl rfl), ?_⟩
      rw [List.mem_cons, not_or]
      exact ⟨by decide, t.one_line⟩
  | problem t =>
      refine ⟨112, t.chars, rfl, .inr (.inr rfl), ?_⟩
      rw [List.mem_cons, not_or]
      exact ⟨by decide, t.one_line⟩
  | arc b₁ u b₂ v b₃ w =>
      refine ⟨97, _, rfl, .inl rfl, ?_⟩
      simp only [List.mem_cons, List.mem_append, not_or]
      exact ⟨by decide, b₁.not_newline, u.not_newline, b₂.not_newline, v.not_newline,
        b₃.not_newline, w.not_newline⟩

/-- What follows a line does not begin with a digit. -/
theorem fresh_restOf (final : Bool) (ls : List GrLine) : Fresh (restOf final ls) := by
  cases ls with
  | nil =>
      cases final with
      | true => exact ⟨by simp [restOf], by simp [restOf, newline, IStream.isSpace]⟩
      | false => exact ⟨by simp [restOf], by simp [restOf]⟩
  | cons l ls =>
      obtain ⟨c, cs, htext, hc, -⟩ := l.text_eq_cons
      constructor
      · simp [restOf]
      · have hdrop : (restOf final (l :: ls)).dropWhile IStream.isSpace =
            c :: (cs ++ restOf final ls) := by
          have hnl : IStream.isSpace newline = true := by decide
          have hsp : IStream.isSpace c = false := by
            obtain rfl | rfl | rfl := hc <;> decide
          simp [restOf, htext, hnl, hsp]
        rw [hdrop]
        intro c' hc'
        obtain rfl : c = c' := by simpa using hc'
        obtain rfl | rfl | rfl := hc <;> decide

-- ======================================================= one turn onwards

variable {final : Bool} {t : List UInt8} {l : GrLine} {ls : List GrLine} {s s' : GrState}

/-- The stream has `t` before it, then the lines after `t`'s. -/
def AtText (final : Bool) (t : List UInt8) (ls : List GrLine) (s : GrState) : Prop :=
  s.input = ⟨t ++ restOf final ls, false, false⟩

/-- The stream is where the lines `ls` begin. -/
def AtLines (final : Bool) : List GrLine → GrState → Prop
  | [], s => s.input.eof = true ∨ s.input = ⟨[], false, false⟩
  | l :: ls, s => AtText final l.text ls s

/-- At the end of the file the loop notices. -/
theorem turn_end (h : s.input = ⟨[], false, false⟩) :
    s.turn = some { s with input := ⟨[], true, true⟩ } := by
  simp [GrState.turn, h, peek_of_good, ignore_of_not_good, good]

/-- A turn that finds no `a` skips to the end of the line, or 200
characters. -/
theorem turn_skip {cs : List UInt8} (h : s.input = ⟨cs, false, false⟩) (hne : cs ≠ [])
    (hc : cs.head? ≠ some 97) :
    s.turn = some { s with
      input := ⟨(skipTo newline 200 cs).1, (skipTo newline 200 cs).2, false⟩ } := by
  have hempty : cs.isEmpty = false := by simpa using hne
  simp [GrState.turn, h, peek_of_good, hc, hempty, ignore, good]

/-- A line that does not begin with `a` does not with what follows either. -/
theorem AtText.head_ne (hc : t.head? ≠ some 97) (ls : List GrLine) :
    (t ++ restOf final ls).head? ≠ some 97 := by
  cases t with
  | cons c t => simpa using hc
  | nil =>
      intro h
      exact absurd ((fresh_restOf final ls).head 97 h) (by decide)

/-- A line of which more than 200 characters are left. -/
theorem AtText.turn_long (h : AtText final t ls s) (ht : newline ∉ t)
    (hc : t.head? ≠ some 97) (hlen : 200 ≤ t.length) :
    ∃ s', s.turn = some s' ∧ AtText final (t.drop 200) ls s' ∧ s'.el = s.el := by
  have hne : t ++ restOf final ls ≠ [] := by
    intro hnil
    rw [(List.append_eq_nil_iff.mp hnil).1] at hlen
    exact absurd hlen (by decide)
  refine ⟨_, turn_skip h hne (head_ne hc ls), ?_, rfl⟩
  rw [skipTo_drop ht _ hlen]
  rfl

/-- A line that ends in the next 200 characters. -/
theorem AtText.turn_short (h : AtText final t ls s) (ht : newline ∉ t)
    (hc : t.head? ≠ some 97) (hlen : t.length < 200) :
    ∃ s', s.turn = some s' ∧ AtLines final ls s' ∧ s'.el = s.el := by
  by_cases hne : t ++ restOf final ls = []
  · refine ⟨_, turn_end (h.trans (by rw [hne])), ?_, rfl⟩
    have hls : ls = [] := by
      cases ls with
      | nil => rfl
      | cons l ls => simp [restOf] at hne
    rw [hls]
    exact .inl rfl
  · refine ⟨_, turn_skip h hne (head_ne hc ls), ?_, rfl⟩
    cases ls with
    | cons l ls =>
        rw [restOf, skipTo_delim ht _ hlen]
        rfl
    | nil =>
        cases final with
        | true =>
            rw [restOf, if_pos rfl, skipTo_delim ht _ hlen]
            exact .inr rfl
        | false =>
            rw [restOf, if_neg Bool.false_ne_true, List.append_nil, skipTo_end ht hlen]
            exact .inl rfl

-- ============================================================== arc lines

/-- Every number but the least has one before it. -/
theorem pred32_eq_some {x : Int} (h : x ≠ -2 ^ 31) : pred32 x = some (x - 1) := if_neg h

/-- A printed number is read as its value. -/
theorem getInt32_text (b : Blanks) (d : Decimal32) {rest : List UInt8} (hr : NoDigit rest)
    (x : Option Int) : getInt32 ⟨b.chars ++ (d.text ++ rest), false, false⟩ x =
      (some d.value, ⟨rest, rest.isEmpty, false⟩) :=
  getInt_text b.all_space d hr x

/-- What the three numbers of an arc line are read as. -/
theorem readArc_arc {b₁ b₂ b₃ : Blanks} {u v w : Decimal32}
    (h : AtText final (GrLine.arc b₁ u b₂ v b₃ w).text ls s) :
    s.readArc = do
      let edge : ReadEdge := ⟨← pred32 u.value, ← pred32 v.value, w.value⟩
      return ⟨⟨restOf final ls, (restOf final ls).isEmpty, false⟩, some u.value,
        some v.value, some w.value, s.el ++ [edge]⟩ := by
  have hw := getInt32_text b₃ w (fresh_restOf final ls).noDigit s.w
  have hv := getInt32_text b₂ v (b₃.noDigit (w.text ++ restOf final ls)) s.v
  have hu := getInt32_text b₁ u
    (b₂.noDigit (v.text ++ (b₃.chars ++ (w.text ++ restOf final ls)))) s.u
  have hempty : ∀ (b : Blanks) (cs : List UInt8), (b.chars ++ cs).isEmpty = false := by
    intro b cs
    simp [b.nonempty]
  rw [hempty] at hu hv
  have hc : s.input.getChar = (some 97, ⟨b₁.chars ++ (u.text ++ (b₂.chars ++ (v.text ++
      (b₃.chars ++ (w.text ++ restOf final ls))))), false, false⟩) := by
    rw [h]
    simp [IStream.getChar, sentry, good, GrLine.text, isSpace]
  simp only [GrState.readArc, hc, hu, hv, hw]
  rfl

/-- The turn of an arc line. -/
theorem turn_arc {b₁ b₂ b₃ : Blanks} {u v w : Decimal32}
    (h : AtText final (GrLine.arc b₁ u b₂ v b₃ w).text ls s) : s.turn = s.readArc := by
  have hpeek : s.input.peek = (some 97, s.input) := by
    rw [h, peek_of_good]
    rfl
  simp [GrState.turn, hpeek]

-- ============================================================== forwards

theorem AtText.more (h : AtText final t ls s) : s.more = true := by
  rw [GrState.more, h]
  rfl

theorem not_marked_nil : ¬ Marked [] := by decide

/-- What is left of an unmarked line is dropped, and nothing else
happens. -/
theorem text_turns (h : AtText final t ls s) (ht : newline ∉ t) (hm : ¬ Marked t) :
    ∃ s', Turns GrState.more GrState.turn s s' ∧ AtLines final ls s' ∧ s'.el = s.el := by
  induction hn : t.length using Nat.strong_induction_on generalizing t s with
  | _ n ih =>
      have hc : t.head? ≠ some 97 := fun hc => hm (marked_of_head hc)
      by_cases hlen : t.length < 200
      · obtain ⟨s', hs, hat, hel⟩ := h.turn_short ht hc hlen
        exact ⟨s', .single ⟨h.more, hs⟩, hat, hel⟩
      · obtain ⟨s', hs, hat, hel⟩ := h.turn_long ht hc (Nat.le_of_not_lt hlen)
        have hshort : (t.drop 200).length < n := by
          rw [List.length_drop]
          omega
        obtain ⟨r, hr, hnext, hel'⟩ := ih _ hshort hat
          (fun hmem => ht (List.mem_of_mem_drop hmem)) (mt (marked_drop hc).mp hm) rfl
        exact ⟨r, .head ⟨h.more, hs⟩ hr, hnext, hel'.trans hel⟩

/-- An arc line adds its edge. -/
theorem arc_turns {b₁ b₂ b₃ : Blanks} {u v w : Decimal32}
    (hl : (GrLine.arc b₁ u b₂ v b₃ w).Clean)
    (h : AtText final (GrLine.arc b₁ u b₂ v b₃ w).text ls s) :
    ∃ s', Turns GrState.more GrState.turn s s' ∧ AtLines final ls s' ∧
      s'.el = s.el ++ (GrLine.arc b₁ u b₂ v b₃ w).edges := by
  have hturn := turn_arc h
  rw [readArc_arc h, pred32_eq_some hl.1, pred32_eq_some hl.2] at hturn
  have hstep : Turn GrState.more GrState.turn s _ := ⟨h.more, hturn⟩
  cases hrest : (restOf final ls).isEmpty with
  | true =>
      have hls : ls = [] := by
        cases ls with
        | nil => rfl
        | cons l ls => simp [restOf] at hrest
      refine ⟨_, .single hstep, ?_, rfl⟩
      rw [hls] at hrest ⊢
      exact .inl hrest
  | false =>
      -- the line end is still there and takes a turn of its own
      rw [hrest] at hstep
      obtain ⟨r, hr, hnext, hel⟩ := text_turns (s := ⟨⟨restOf final ls, false, false⟩, _, _, _, _⟩)
        (t := []) rfl List.not_mem_nil not_marked_nil
      exact ⟨r, .head hstep hr, hnext, hel⟩

/-- A clean line brings its edges and is read to its end. -/
theorem line_turns (hl : l.Clean) (h : AtText final l.text ls s) :
    ∃ s', Turns GrState.more GrState.turn s s' ∧ AtLines final ls s' ∧
      s'.el = s.el ++ l.edges := by
  obtain ⟨c, cs, htext, -, hnl⟩ := l.text_eq_cons
  rw [← htext] at hnl
  cases l with
  | comment t => simpa [GrLine.edges] using text_turns h hnl hl
  | problem t => simpa [GrLine.edges] using text_turns h hnl hl
  | arc b₁ u b₂ v b₃ w => exact arc_turns hl h

/-- Clean lines are read to the end of the file. -/
theorem lines_return (hls : ∀ l ∈ ls, l.Clean) (h : AtLines final ls s) :
    ∃ r, Returns GrState.more GrState.turn s r ∧ r.el = s.el ++ grEdges ls := by
  induction ls generalizing s with
  | nil =>
      rw [grEdges, List.flatMap_nil, List.append_nil]
      cases h with
      | inl heof => exact ⟨s, ⟨.refl, by simp [GrState.more, heof]⟩, rfl⟩
      | inr hin =>
          have hmore : s.more = true := by simp [GrState.more, hin]
          exact ⟨_, ⟨.single ⟨hmore, turn_end hin⟩, rfl⟩, rfl⟩
  | cons l ls ih =>
      obtain ⟨s', hs, hnext, hel⟩ := line_turns (hls l List.mem_cons_self) h
      obtain ⟨r, hr, hel'⟩ := ih (fun l' hl' => hls l' (List.mem_cons_of_mem l hl')) hnext
      refine ⟨r, ⟨hs.trans hr.1, hr.2⟩, ?_⟩
      rw [hel', hel, grEdges, grEdges, List.flatMap_cons, List.append_assoc]

-- ============================================================= backwards

/-- The edges a text brings: at its first mark one at the least. -/
def owed (t : List UInt8) : Nat := if Marked t then 1 else 0

def owedLines (ls : List GrLine) : Nat := (ls.map fun l => owed l.text).sum

theorem owed_le_one (t : List UInt8) : owed t ≤ 1 := by
  unfold owed
  split <;> decide

theorem owed_eq_zero (h : ¬ Marked t) : owed t = 0 := if_neg h

/-- A line has no more edges than it owes. -/
theorem edges_length_le (l : GrLine) : l.edges.length ≤ owed l.text := by
  cases l with
  | comment t => exact Nat.zero_le _
  | problem t => exact Nat.zero_le _
  | arc b₁ u b₂ v b₃ w => rw [owed, if_pos (marked_of_head rfl)]; rfl

theorem grEdges_length_le (ls : List GrLine) : (grEdges ls).length ≤ owedLines ls := by
  induction ls with
  | nil => exact Nat.le_refl 0
  | cons l ls ih =>
      have h := edges_length_le l
      simp only [grEdges, owedLines, List.flatMap_cons, List.length_append, List.map_cons,
        List.sum_cons] at ih ⊢
      omega

/-- There will be `n` edges if the loop returns: they are there or due,
or it has lost the stream for good. -/
inductive Owes (n : Nat) (s : GrState) : Prop
  | text (final : Bool) (t : List UInt8) (ls : List GrLine) (h : AtText final t ls s)
      (ht : newline ∉ t) (hn : n ≤ s.el.length + (owed t + owedLines ls))
  | lost (hf : s.input.fail = true) (he : s.input.eof = false)
  | settled (he : s.input.eof = true) (hn : n ≤ s.el.length)

/-- Where lines begin, their edges are owed. -/
theorem Owes.of_lines {n : Nat} (h : AtLines final ls s)
    (hn : n ≤ s.el.length + owedLines ls) : Owes n s := by
  cases ls with
  | nil =>
      cases h with
      | inl heof => exact .settled heof hn
      | inr hin =>
          exact .text false [] [] hin List.not_mem_nil (Nat.le_trans hn (by simp [owedLines]))
  | cons l ls =>
      obtain ⟨c, cs, htext, -, hnl⟩ := l.text_eq_cons
      exact .text final l.text ls h (htext ▸ hnl) hn

/-- Reading an arc takes a character and three numbers and adds an edge. -/
theorem readArc_some (h : s.readArc = some s') :
    s'.input = (getInt32 (getInt32 (getInt32 s.input.getChar.2 s.u).2 s.v).2 s.w).2 ∧
      s'.el.length = s.el.length + 1 := by
  simp only [GrState.readArc, Option.bind_eq_bind, Option.bind_eq_some_iff] at h
  obtain ⟨u, -, v, -, w, -, h⟩ := h
  obtain rfl := Option.some.inj h
  exact ⟨rfl, List.length_append⟩

/-- At a mark one edge comes, and the lines after this one stay
untouched. -/
theorem Owes.mark {n : Nat} (h : AtText final t ls s) (ht : newline ∉ t)
    (hc : t.head? = some 97) (hn : n ≤ s.el.length + (owed t + owedLines ls))
    (hs : s.turn = some s') : Owes n s' := by
  obtain ⟨t', rfl⟩ : ∃ t', t = 97 :: t' := by
    cases t with
    | nil => simp at hc
    | cons c t => exact ⟨t, by simpa using hc⟩
  have hpeek : s.input.peek = (some 97, s.input) := by
    rw [h, peek_of_good]
    rfl
  have hchar : s.input.getChar.2 = ⟨t' ++ restOf final ls, false, false⟩ := by
    rw [h]
    simp [IStream.getChar, sentry, good, isSpace]
  simp only [GrState.turn, hpeek, if_true] at hs
  obtain ⟨hin, hel⟩ := readArc_some (s := s) hs
  have hfresh := fresh_restOf final ls
  have hconf : Confined (restOf final ls) s'.input := by
    rw [hin, hchar]
    have h0 : Confined (restOf final ls) ⟨t' ++ restOf final ls, false, false⟩ :=
      .before t' fun hmem => ht (List.mem_cons_of_mem 97 hmem)
    exact ((h0.getInt hfresh _ _ _).getInt hfresh _ _ _).getInt hfresh _ _ _
  have hle : n ≤ s'.el.length + owedLines ls := by
    have := owed_le_one (97 :: t')
    omega
  cases hin' : s'.input with
  | mk rest eof fail =>
      rw [hin'] at hconf
      cases hconf with
      | before b hb => exact .text final b ls hin' hb (by omega)
      | lost _ hf he => exact .lost (by rw [hin']; exact hf) (by rw [hin']; exact he)
      | ended _ he hr =>
          have hat : AtLines final [] s' := .inl (by rw [hin']; exact he)
          refine .of_lines hat ?_
          cases ls with
          | nil => exact hle
          | cons l ls =>
              obtain ⟨c, cs, htext, hc, -⟩ := l.text_eq_cons
              have hall := List.dropWhile_eq_nil_iff.mp hr c (by simp [restOf, htext])
              obtain rfl | rfl | rfl := hc <;> exact absurd hall (by decide)

/-- A turn takes nothing of what is owed away. -/
theorem Owes.turn {n : Nat} (h : Owes n s) (hturn : Turn GrState.more GrState.turn s s') :
    Owes n s' := by
  obtain ⟨hmore, hs⟩ := hturn
  cases h with
  | settled he hn => simp [GrState.more, he] at hmore
  | lost hf he =>
      have hbad : s.input.good = false := by simp [good, hf]
      have hbad' : ({ s.input with fail := true } : IStream).good = false := by simp [good]
      simp only [GrState.turn, peek_of_not_good hbad, ignore_of_not_good hbad',
        reduceCtorEq, if_false, Option.some.injEq] at hs
      rw [← hs]
      exact .lost rfl he
  | text final t ls h ht hn =>
      by_cases hc : t.head? = some 97
      · exact .mark h ht hc hn hs
      · by_cases hlen : t.length < 200
        · obtain ⟨s'', hs'', hnext, hel⟩ := h.turn_short ht hc hlen
          obtain rfl := Option.some.inj (hs.symm.trans hs'')
          rw [owed_eq_zero (not_marked_short hc hlen), Nat.zero_add, ← hel] at hn
          exact .of_lines hnext hn
        · obtain ⟨s'', hs'', hat, hel⟩ := h.turn_long ht hc (Nat.le_of_not_lt hlen)
          obtain rfl := Option.some.inj (hs.symm.trans hs'')
          have howed : owed (t.drop 200) = owed t := by simp only [owed, marked_drop hc]
          refine .text final _ ls hat (fun hmem => ht (List.mem_of_mem_drop hmem)) ?_
          rw [howed, hel]
          exact hn

/-- What is owed has been paid when the loop returns. -/
theorem Owes.paid {n : Nat} {r : GrState} (h : Owes n s)
    (hr : Returns GrState.more GrState.turn s r) : n ≤ r.el.length := by
  have hend : Owes n r := hr.1.invariant (fun _ _ => Owes.turn) h
  have heof : r.input.eof = true := by simpa [GrState.more] using hr.2
  cases hend with
  | settled _ hn => exact hn
  | lost _ he => exact absurd (heof.symm.trans he) (by decide)
  | text final t ls hat =>
      rw [hat] at heof
      exact absurd heof Bool.false_ne_true

/-- Marked comments bring edges of their own. -/
theorem not_marked_of_returns {r : GrState} (h : AtText final t ls s) (ht : newline ∉ t)
    (hr : Returns GrState.more GrState.turn s r) (hel : r.el = s.el ++ grEdges ls) :
    ¬ Marked t := by
  intro hm
  have hpaid := (Owes.text final t ls h ht (Nat.le_refl _)).paid hr
  have hle := grEdges_length_le ls
  rw [owed, if_pos hm, hel, List.length_append] at hpaid
  omega

/-- A line from which the right edges are read is clean. -/
theorem clean_of_returns {r : GrState} (h : AtText final l.text ls s)
    (hr : Returns GrState.more GrState.turn s r) (hel : r.el = s.el ++ grEdges (l :: ls)) :
    l.Clean := by
  obtain ⟨c, cs, htext, -, hnl⟩ := l.text_eq_cons
  rw [← htext] at hnl
  cases l with
  | comment t => exact not_marked_of_returns h hnl hr hel
  | problem t => exact not_marked_of_returns h hnl hr hel
  | arc b₁ u b₂ v b₃ w =>
      have hbody := hr.body_ne_none h.more
      rw [turn_arc h, readArc_arc h] at hbody
      constructor
      · intro hu
        exact hbody (by simp [pred32, hu])
      · intro hv
        cases hu : pred32 u.value with
        | none => exact hbody (by simp [hu])
        | some n => exact hbody (by simp [pred32, hv])

/-- A loop that returns the edges of its lines has found them clean. -/
theorem lines_clean {r : GrState} (h : AtLines final ls s)
    (hr : Returns GrState.more GrState.turn s r) (hel : r.el = s.el ++ grEdges ls) :
    ∀ l ∈ ls, l.Clean := by
  induction ls generalizing s with
  | nil => simp
  | cons l ls ih =>
      have hl := clean_of_returns h hr hel
      obtain ⟨s', hs, hnext, hel'⟩ := line_turns hl h
      have hrest : r.el = s'.el ++ grEdges ls := by
        rw [hel, hel', grEdges, grEdges, List.flatMap_cons, List.append_assoc]
      intro l' hl'
      cases List.mem_cons.mp hl' with
      | inl heq => exact heq ▸ hl
      | inr hmem => exact ih hnext (hr.resume hs) hrest l' hmem

-- ============================================================= the result

/-- What `ReadInGR` returns is what its loop leaves. -/
theorem readInGR_eq_some (text : List UInt8) (el : List ReadEdge) :
    (∃ fuel, readInGR fuel text = some el) ↔
      ∃ r, Returns GrState.more GrState.turn (GrState.start text) r ∧ r.el = el := by
  simp only [readInGR, Option.map_eq_some_iff]
  constructor
  · rintro ⟨fuel, r, hloop, hel⟩
    exact ⟨r, returns_iff.mp ⟨fuel, hloop⟩, hel⟩
  · rintro ⟨r, hr, hel⟩
    obtain ⟨fuel, hloop⟩ := returns_iff.mpr hr
    exact ⟨fuel, r, hloop, hel⟩

/-- The whole file is ahead at the start, after a turn for the line end
of a file that has no lines. -/
theorem start_turns (final : Bool) (lines : List GrLine) :
    ∃ s, Turns GrState.more GrState.turn (GrState.start (grText final lines)) s ∧
      AtLines final lines s ∧ s.el = [] := by
  cases lines with
  | nil => exact text_turns (t := []) rfl List.not_mem_nil not_marked_nil
  | cons l ls =>
      refine ⟨_, .refl, ?_, rfl⟩
      rw [grText_cons]
      rfl

/-- If the right edges are read, all lines are clean. -/
theorem clean_of_readInGR {final : Bool} {lines : List GrLine}
    (h : ∃ fuel, readInGR fuel (grText final lines) = some (grEdges lines)) :
    ∀ l ∈ lines, l.Clean := by
  obtain ⟨r, hr, hedges⟩ := (readInGR_eq_some _ _).mp h
  obtain ⟨s, hs, hat, hel⟩ := start_turns final lines
  exact lines_clean hat (hr.resume hs) (by rw [hedges, hel, List.nil_append])

/-- From clean lines the right edges are read. -/
theorem readInGR_of_clean (final : Bool) {lines : List GrLine}
    (h : ∀ l ∈ lines, l.Clean) :
    ∃ fuel, readInGR fuel (grText final lines) = some (grEdges lines) := by
  obtain ⟨s, hs, hat, hel⟩ := start_turns final lines
  obtain ⟨r, hr, hedges⟩ := lines_return h hat
  rw [hel, List.nil_append] at hedges
  exact (readInGR_eq_some _ _).mpr ⟨r, ⟨hs.trans hr.1, hr.2⟩, hedges⟩

/-- The reader returns the edges of a file's arc lines exactly when every
line is clean. -/
theorem readInGR_grEdges_iff (final : Bool) (lines : List GrLine) :
    (∃ fuel, readInGR fuel (grText final lines) = some (grEdges lines)) ↔
      ∀ l ∈ lines, l.Clean :=
  ⟨clean_of_readInGR, readInGR_of_clean final⟩

/-- The comment `cxx...xa 7 8 9`, with the `a` 200 characters into the
line. -/
def longComment : GrLine :=
  .comment ⟨List.replicate 199 120 ++ [97, 32, 55, 32, 56, 32, 57], by decide⟩

/-- `p sp 2 1` -/
def problemLine : GrLine := .problem ⟨[32, 115, 112, 32, 50, 32, 49], by decide⟩

def oneBlank : Blanks := ⟨[32], by decide, fun _ hc => .inl (List.mem_singleton.mp hc)⟩

def oneDigit (n : Fin 10) : Decimal32 where
  sign := .none
  digits := [48 + n.val.toUInt8]
  nonempty := List.cons_ne_nil _ _
  digit := by
    intro d hd
    rw [List.mem_singleton.mp hd]
    clear hd
    revert n
    decide
  lower := by revert n; decide
  upper := by revert n; decide

/-- `a 1 2 5` -/
def arcLine : GrLine :=
  .arc oneBlank (oneDigit 1) oneBlank (oneDigit 2) oneBlank (oneDigit 5)

/-- The comment is read as an edge: the reader returns two, and the file
has one. -/
theorem readInGR_longComment :
    readInGR 8 (grText true [longComment, problemLine, arcLine]) =
        some [⟨6, 7, 9⟩, ⟨0, 1, 5⟩] ∧
      ¬ ∃ fuel, readInGR fuel (grText true [longComment, problemLine, arcLine]) =
        some (grEdges [longComment, problemLine, arcLine]) := by
  constructor
  · decide +kernel
  · intro h
    have hclean := clean_of_readInGR h longComment List.mem_cons_self
    exact absurd hclean (by decide +kernel)

end ThesisBench.Gapbs

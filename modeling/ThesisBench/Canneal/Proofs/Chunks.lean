/-
Which lines a thread parses.

Both ends of a chunk are starts of lines. For a boundary at offset `x`
the chunk behind it begins at the first line that starts at `x` or
later, and the chunk before it ends at the first line that starts later
than `x`. The two differ exactly when a line starts at `x`, and that
line is then in both chunks.
-/
import ThesisBench.Canneal.Proofs.Parse
import Mathlib.Data.List.Nodup
import Mathlib.Order.Monotone.Basic

namespace ThesisBench.Canneal

variable {lines : List (List Byte)} {nthreads : Nat}

-- ============================================================ positions

theorem pos_zero (lines : List (List Byte)) : pos lines 0 = 0 := rfl

theorem pos_cons (l : List Byte) (ls : List (List Byte)) (i : Nat) :
    pos (l :: ls) (i + 1) = l.length + 1 + pos ls i :=
  length_render_cons l (ls.take i)

/-- The end of the last line is the end of the file. -/
theorem pos_length (lines : List (List Byte)) :
    pos lines lines.length = (render lines).length := by
  rw [pos, List.take_length]

/-- The body from line `i` on. -/
theorem drop_pos (lines : List (List Byte)) (i : Nat) :
    (render lines).drop (pos lines i) = render (lines.drop i) := by
  have hsplit := render_append (lines.take i) (lines.drop i)
  rw [List.take_append_drop] at hsplit
  rw [hsplit, pos, List.drop_left]

/-- A line begins behind the newline of the one before. -/
theorem pos_succ {i : Nat} (hi : i < lines.length) :
    pos lines (i + 1) = pos lines i + (lines[i].length + 1) := by
  rw [pos, pos, List.take_succ_eq_append_getElem hi, render_append,
    List.length_append, render_cons, List.length_append, List.length_cons]
  rfl

theorem pos_mono {i j : Nat} (h : i ≤ j) : pos lines i ≤ pos lines j := by
  rw [pos, pos, ← List.take_append_drop i (lines.take j), List.take_take,
    Nat.min_eq_left h, render_append, List.length_append]
  exact Nat.le_add_right _ _

theorem pos_le (i : Nat) : pos lines i ≤ (render lines).length := by
  rw [← pos_length]
  rcases Nat.le_total i lines.length with h | h
  · exact pos_mono h
  · rw [pos, List.take_of_length_le h, pos_length]

theorem pos_lt {i j : Nat} (h : i < j) (hj : j ≤ lines.length) :
    pos lines i < pos lines j := by
  have h₁ := @pos_succ lines i (by omega)
  have h₂ := @pos_mono lines (i + 1) j h
  omega

/-- The newlines of the body are the bytes before the starts. -/
theorem get_eq_newline (hl : ∀ l ∈ lines, IsLine l) {i q : Nat}
    (hi : i < lines.length) (hq : pos lines i ≤ q)
    (hlt : q < pos lines (i + 1)) :
    (render lines).get q = newline ↔ q + 1 = pos lines (i + 1) := by
  have hsucc := pos_succ hi
  have hline := hl _ (List.getElem_mem hi)
  obtain ⟨k, rfl⟩ := Nat.exists_eq_add_of_le hq
  have hget : (render lines).get (pos lines i + k)
      = (lines[i] ++ newline :: render (lines.drop (i + 1))).getD k 0 := by
    rw [Body.get, List.getD_eq_getElem?_getD, List.getD_eq_getElem?_getD,
      ← List.getElem?_drop, drop_pos, List.drop_eq_getElem_cons hi, render_cons]
  rw [hget, List.getD_eq_getElem?_getD]
  rcases Nat.lt_or_ge k lines[i].length with hk | hk
  · rw [List.getElem?_append_left hk, List.getElem?_eq_getElem hk,
      Option.getD_some]
    refine ⟨fun he => absurd (List.getElem_mem hk) ?_, fun he => by omega⟩
    rw [he]
    exact hline.newline
  · have hk' : k = lines[i].length := by omega
    rw [List.getElem?_append_right hk, hk', Nat.sub_self]
    exact ⟨fun _ => by omega, fun _ => rfl⟩

-- ============================================================ boundaries

/-- The first line that starts at `x` or later. -/
def lineFrom : Nat → List (List Byte) → Nat
  | _, [] => 0
  | x, l :: ls => if x = 0 then 0 else lineFrom (x - (l.length + 1)) ls + 1

/-- `lineFrom x` is the first line that begins at `x` or later. -/
theorem lineFrom_spec : ∀ {lines : List (List Byte)} {x : Nat},
    x ≤ (render lines).length →
    lineFrom x lines ≤ lines.length ∧ x ≤ pos lines (lineFrom x lines)
      ∧ ∀ i < lineFrom x lines, pos lines i < x := by
  intro lines
  induction lines with
  | nil =>
      intro x hx
      exact ⟨Nat.le_refl 0, hx, fun i hi => absurd hi (Nat.not_lt_zero i)⟩
  | cons l ls ih =>
      intro x hx
      rw [lineFrom]
      by_cases hz : x = 0
      · rw [if_pos hz, hz]
        exact ⟨Nat.zero_le _, Nat.zero_le _, fun i hi => absurd hi (Nat.not_lt_zero i)⟩
      · rw [length_render_cons] at hx
        obtain ⟨h₁, h₂, h₃⟩ := ih (x := x - (l.length + 1)) (by omega)
        rw [if_neg hz]
        refine ⟨Nat.succ_le_succ h₁, ?_, fun i hi => ?_⟩
        · rw [pos_cons]
          omega
        · cases i with
          | zero =>
              rw [pos_zero]
              exact Nat.pos_of_ne_zero hz
          | succ i =>
              have := h₃ i (Nat.lt_of_succ_lt_succ hi)
              rw [pos_cons]
              omega

/-- `lineFrom` is the least such line. -/
theorem lineFrom_eq {x j : Nat} (hx : x ≤ pos lines j)
    (hj : ∀ i < j, pos lines i < x) : lineFrom x lines = j := by
  obtain ⟨-, h₂, h₃⟩ := lineFrom_spec (Nat.le_trans hx (pos_le j))
  rcases Nat.lt_trichotomy (lineFrom x lines) j with h | h | h
  · exact absurd (hj _ h) (Nat.not_lt.mpr h₂)
  · exact h
  · exact absurd (h₃ j h) (Nat.not_lt.mpr hx)

/-- From the beginning on that is the first line. -/
theorem lineFrom_zero (lines : List (List Byte)) : lineFrom 0 lines = 0 := by
  cases lines <;> rfl

/-- From a later place on it is a later line. -/
theorem lineFrom_mono {x y : Nat} (h : x ≤ y) (hy : y ≤ (render lines).length) :
    lineFrom x lines ≤ lineFrom y lines := by
  by_contra hlt
  have h₁ := (lineFrom_spec (Nat.le_trans h hy)).2.2 _ (Nat.lt_of_not_le hlt)
  have h₂ := (lineFrom_spec hy).2.1
  omega

theorem le_advance (c : Nat → Bool) : ∀ room p : Nat, p ≤ advance c room p := by
  intro room
  induction room with
  | zero => exact Nat.le_refl
  | succ room ih =>
      intro p
      rw [advance]
      split
      · exact Nat.le_of_succ_le (ih (p + 1))
      · exact Nat.le_refl p

/-- A scan that passes everything before `r` and nothing at `r`. -/
theorem advance_eq {c : Nat → Bool} : ∀ {room p r : Nat}, p ≤ r →
    r ≤ p + room → (∀ q, p ≤ q → q < r → c q = true) →
    (r < p + room → c r = false) → advance c room p = r := by
  intro room
  induction room with
  | zero =>
      intro p r h₁ h₂ _ _
      exact Nat.le_antisymm h₁ h₂
  | succ room ih =>
      intro p r h₁ h₂ hpass hstop
      rw [advance]
      rcases Nat.eq_or_lt_of_le h₁ with rfl | hlt
      · rw [hstop (by omega)]
        rfl
      · rw [hpass p (Nat.le_refl p) hlt, if_pos rfl]
        exact ih hlt (by omega) (fun q hq => hpass q (Nat.le_of_succ_le hq))
          fun h => hstop (by omega)

/-- The aligned start of a chunk. -/
theorem advance_start (hl : ∀ l ∈ lines, IsLine l) {x : Nat}
    (hx : x ≤ (render lines).length) :
    advance (fun p => decide ((render lines).before p ≠ newline))
      ((render lines).length - x) x = pos lines (lineFrom x lines) := by
  obtain ⟨hj, hle, hbelow⟩ := lineFrom_spec hx
  have hend := @pos_le lines (lineFrom x lines)
  refine advance_eq hle (by omega) (fun q hq hlt => ?_) fun _ => ?_
  · -- the byte before `q` is inside the line that ends at the start found
    cases hji : lineFrom x lines with
    | zero =>
        rw [hji, pos_zero] at hlt
        omega
    | succ i =>
        have hi := hbelow i (by omega)
        rw [hji] at hlt hj
        refine decide_eq_true fun he => ?_
        rw [Body.before, if_neg (by omega), get_eq_newline hl hj
          (by omega) (by omega)] at he
        omega
  · refine decide_eq_false fun hne => hne ?_
    unfold Body.before
    split
    · rfl
    · next hz =>
        cases hji : lineFrom x lines with
        | zero =>
            rw [hji, pos_zero] at hz
            exact absurd rfl hz
        | succ i =>
            rw [hji] at hj
            have hlt := @pos_lt lines _ _ (Nat.lt_add_one i) hj
            exact (get_eq_newline hl hj (by omega) (by omega)).mpr (by omega)

/-- The aligned end of a chunk. -/
theorem advance_stop (hl : ∀ l ∈ lines, IsLine l) {x : Nat}
    (hx : x < (render lines).length) :
    advance (fun p => decide ((render lines).get p ≠ newline))
      ((render lines).length - x) x + 1 = pos lines (lineFrom (x + 1) lines) := by
  obtain ⟨hj, hle, hbelow⟩ := @lineFrom_spec lines (x + 1) hx
  cases hji : lineFrom (x + 1) lines with
  | zero =>
      rw [hji, pos_zero] at hle
      omega
  | succ i =>
      rw [hji] at hj hle
      have hi := hbelow i (by omega)
      have hend := @pos_le lines (i + 1)
      have hscan : advance (fun p => decide ((render lines).get p ≠ newline))
          ((render lines).length - x) x = pos lines (i + 1) - 1 := by
        refine advance_eq (by omega) (by omega) (fun q hq hlt => ?_) fun _ => ?_
        · refine decide_eq_true fun he => ?_
          rw [get_eq_newline hl hj (by omega) (by omega)] at he
          omega
        · exact decide_eq_false fun hne => hne
            ((get_eq_newline hl hj (by omega) (by omega)).mpr (by omega))
      rw [hscan]
      omega

-- =============================================================== chunks

/-- The events of the lines from `i` up to `j`. -/
def seg (lines : List (List Byte)) (i j : Nat) : List (Nat × Record) :=
  lineEvents (pos lines i) ((lines.take j).drop i)

/-- The lines before `j`, split at `i`. -/
theorem take_split {i j : Nat} (h : i ≤ j) :
    lines.take j = lines.take i ++ (lines.take j).drop i := by
  have hsplit := List.take_append_drop i (lines.take j)
  rw [List.take_take, Nat.min_eq_left h] at hsplit
  exact hsplit.symm

/-- The text between the beginnings of two lines. -/
theorem pos_split {i j : Nat} (h : i ≤ j) :
    pos lines j = pos lines i + (render ((lines.take j).drop i)).length := by
  have hlen := congrArg (fun ls => (render ls).length) (@take_split lines _ _ h)
  unfold pos
  simpa only [render_append, List.length_append] using hlen

/-- Parsing between two starts of lines. -/
theorem parseLines_seg (hl : ∀ l ∈ lines, IsLine l) (i j : Nat) :
    parseLines (render lines) (pos lines j) ((render lines).length + 1)
      (pos lines i) = seg lines i j := by
  rcases Nat.le_total i j with hij | hji
  · have hbody : render lines = render (lines.take i)
        ++ (render ((lines.take j).drop i) ++ render (lines.drop j)) := by
      rw [← List.append_assoc, ← render_append, ← take_split hij,
        ← render_append, List.take_append_drop]
    have hdrop : (render lines).drop (pos lines i)
        = render ((lines.take j).drop i) ++ render (lines.drop j) := by
      rw [hbody, pos, List.drop_left]
    have hpos := @pos_split lines _ _ hij
    have hlen := length_le_render ((lines.take j).drop i)
    have hle := @pos_le lines j
    rw [hpos]
    refine parseLines_spec _ (fun l hm => ?_) hdrop (by omega)
    exact hl l (List.mem_of_mem_take (List.mem_of_mem_drop hm))
  · have hmono := @pos_mono lines _ _ hji
    rw [parseLines, if_neg (by omega), seg, List.drop_eq_nil_of_le]
    · rfl
    · rw [List.length_take]
      omega

/-- The events of two runs of lines, one behind the other. -/
theorem lineEvents_append (p : Nat) (ls ms : List (List Byte)) :
    lineEvents p (ls ++ ms)
      = lineEvents p ls ++ lineEvents (p + (render ls).length) ms := by
  induction ls generalizing p with
  | nil => rfl
  | cons l ls ih =>
      rw [List.cons_append, lineEvents, ih, lineEvents, List.cons_append,
        length_render_cons]
      congr 3
      omega

/-- Neighbouring segments join. -/
theorem seg_append {i j k : Nat} (hij : i ≤ j) (hjk : j ≤ k) :
    seg lines i j ++ seg lines j k = seg lines i k := by
  have hk : (lines.take k).drop i
      = (lines.take j).drop i ++ (lines.take k).drop j := by
    rcases Nat.le_total j lines.length with h | h
    · nth_rewrite 1 [take_split hjk]
      rw [List.drop_append_of_le_length (by rw [List.length_take]; omega)]
    · rw [List.take_of_length_le h, List.take_of_length_le (by omega),
        List.drop_eq_nil_of_le h, List.append_nil]
  rw [seg, seg, seg, hk, lineEvents_append, pos_split hij]

/-- There are no lines between a line and itself. -/
theorem seg_self (i : Nat) : seg lines i i = [] := by
  rw [seg, List.drop_eq_nil_of_le]
  · rfl
  · rw [List.length_take]
    omega

/-- Segments that meet cover everything between the ends. -/
theorem flatMap_seg {idx : Nat → Nat} (hmono : Monotone idx) (n : Nat) :
    (List.range n).flatMap (fun k => seg lines (idx k) (idx (k + 1)))
      = seg lines (idx 0) (idx n) := by
  induction n with
  | zero => exact (seg_self _).symm
  | succ n ih =>
      rw [List.range_succ, List.flatMap_append, ih, List.flatMap_singleton,
        seg_append (hmono (Nat.zero_le n)) (hmono (Nat.le_succ n))]

/-- The boundaries of the chunks. -/
theorem boundary_lt (hne : 0 < (render lines).length) {k : Nat}
    (hk : k < nthreads) :
    k * ((render lines).length / nthreads) < (render lines).length := by
  have hmul := Nat.mul_div_le (render lines).length nthreads
  rcases Nat.eq_zero_or_pos ((render lines).length / nthreads) with hz | hpos
  · rw [hz, Nat.mul_zero]
    exact hne
  · exact Nat.lt_of_lt_of_le (Nat.mul_lt_mul_of_pos_right hk hpos) hmul

/-- Where the chunk before boundary `k` ends, as a line. -/
def stopLine (lines : List (List Byte)) (nthreads k : Nat) : Nat :=
  if k = nthreads then lines.length
  else lineFrom (k * ((render lines).length / nthreads) + 1) lines

/-- The lines a thread parses. -/
theorem parseChunk_eq (hl : ∀ l ∈ lines, IsLine l)
    (hne : 0 < (render lines).length) {tid : Nat} (htid : tid < nthreads) :
    parseChunk (render lines) nthreads tid
      = seg lines (lineFrom (tid * ((render lines).length / nthreads)) lines)
          (stopLine lines nthreads (tid + 1)) := by
  have hx := boundary_lt hne htid
  have hstart : (getChunkBounds (render lines) tid nthreads).start
      = pos lines (lineFrom (tid * ((render lines).length / nthreads)) lines) := by
    unfold getChunkBounds
    by_cases hz : tid = 0
    · simp only [hz, Nat.zero_mul, ne_eq, not_true_eq_false, if_false,
        lineFrom_zero, pos_zero]
    · simp only [ne_eq, hz, not_false_eq_true, if_true]
      exact advance_start hl (Nat.le_of_lt hx)
  have hstop : (getChunkBounds (render lines) tid nthreads).stop
      = pos lines (stopLine lines nthreads (tid + 1)) := by
    unfold getChunkBounds stopLine
    by_cases hlast : tid + 1 = nthreads
    · have hlast' : tid = nthreads - 1 := by omega
      simp only [ne_eq, hlast', not_true_eq_false, if_false, if_true]
      rw [if_pos (by omega), pos_length]
    · have hlast' : tid ≠ nthreads - 1 := by omega
      have hy := @boundary_lt lines nthreads hne (tid + 1) (by omega)
      have hscan := advance_stop hl hy
      have hend := @pos_le lines (lineFrom ((tid + 1)
        * ((render lines).length / nthreads) + 1) lines)
      rw [← hscan] at hend
      dsimp only
      rw [if_neg hlast, if_neg hlast', if_pos hlast']
      exact (if_pos hend).trans hscan
  rw [parseChunk, hstart, hstop, parseLines_seg hl]

-- ========================================================= exactly once

/-- The events of lines have increasing places. -/
theorem lineEvents_pairwise (hl : ∀ l ∈ lines, IsLine l) : ∀ p : Nat,
    (lineEvents p lines).Pairwise (fun a b => a.1 < b.1)
      ∧ ∀ ev ∈ lineEvents p lines, p ≤ ev.1 := by
  induction lines with
  | nil => exact fun p => ⟨List.Pairwise.nil, by simp [lineEvents]⟩
  | cons l ls ih =>
      intro p
      obtain ⟨hpw, hge⟩ := ih (fun l h => hl l (List.mem_cons_of_mem _ h))
        (p + l.length + 1)
      have hind := (hl l (List.mem_cons_self ..)).indent_lt
      refine ⟨List.pairwise_cons.mpr ⟨fun ev hev => ?_, hpw⟩, fun ev hev => ?_⟩
      · have := hge ev hev
        show p + indent l < ev.1
        omega
      · rcases List.mem_cons.mp hev with rfl | hev
        · exact Nat.le_add_right _ _
        · have := hge ev hev
          omega

theorem lineEvents_nodup (hl : ∀ l ∈ lines, IsLine l) :
    (lineEvents 0 lines).Nodup :=
  (lineEvents_pairwise hl 0).1.imp fun h he => absurd (congrArg Prod.fst he)
    (Nat.ne_of_lt h)

/-- A segment contains the events of its lines. -/
theorem mem_seg {i j k : Nat} (hik : i ≤ k) (hkj : k < j)
    (hk : k < lines.length) :
    (pos lines k + indent lines[k], lineRecord lines[k]) ∈ seg lines i j := by
  rw [← seg_append hik (Nat.le_of_lt hkj), List.mem_append]
  right
  have hhead : (lines.take j).drop k
      = lines[k] :: (lines.take j).drop (k + 1) := by
    rw [List.drop_eq_getElem_cons (by rw [List.length_take]; omega),
      List.getElem_take]
  rw [seg, hhead]
  exact List.mem_cons_self ..

/-- A start of a line, as a line. -/
theorem lineStart_iff (hl : ∀ l ∈ lines, IsLine l) {x : Nat}
    (hx : x < (render lines).length) :
    LineStart (render lines) x ↔ pos lines (lineFrom x lines) = x := by
  obtain ⟨hj, hle, hbelow⟩ := lineFrom_spec (Nat.le_of_lt hx)
  constructor
  · rintro ⟨-, hnl⟩
    have hstart := advance_start hl (Nat.le_of_lt hx)
    rw [← hstart]
    obtain ⟨room, hroom⟩ : ∃ room, (render lines).length - x = room + 1 :=
      ⟨(render lines).length - x - 1, by omega⟩
    rw [hroom, advance, if_neg (by simp [hnl])]
  · intro hpos
    refine ⟨hx, ?_⟩
    have hstart := advance_start hl (Nat.le_of_lt hx)
    rw [hpos] at hstart
    obtain ⟨room, hroom⟩ : ∃ room, (render lines).length - x = room + 1 :=
      ⟨(render lines).length - x - 1, by omega⟩
    rw [hroom, advance] at hstart
    by_contra hne
    rw [if_pos (by simpa using hne)] at hstart
    have := le_advance (fun p => decide ((render lines).before p ≠ newline)) room
      (x + 1)
    omega

/-- An empty body has no lines. -/
theorem lines_eq_nil (h : ¬ 0 < (render lines).length) : lines = [] :=
  List.length_eq_zero_iff.mp (by
    have := length_le_render lines
    omega)

/-- The first line behind boundary `k`. -/
def firstLine (lines : List (List Byte)) (nthreads k : Nat) : Nat :=
  if nthreads ≤ k then lines.length
  else lineFrom (k * ((render lines).length / nthreads)) lines

theorem firstLine_lt {k : Nat} (hk : k < nthreads) : firstLine lines nthreads k
    = lineFrom (k * ((render lines).length / nthreads)) lines :=
  if_neg (Nat.not_le.mpr hk)

theorem firstLine_ge {k : Nat} (hk : nthreads ≤ k) :
    firstLine lines nthreads k = lines.length :=
  if_pos hk

theorem firstLine_mono (hne : 0 < (render lines).length) :
    Monotone (firstLine lines nthreads) := by
  intro i j hij
  rcases Nat.lt_or_ge j nthreads with hj | hj
  · rw [firstLine_lt hj, firstLine_lt (by omega)]
    exact lineFrom_mono (Nat.mul_le_mul_right _ hij) (Nat.le_of_lt (boundary_lt hne hj))
  · rw [firstLine_ge hj]
    rcases Nat.lt_or_ge i nthreads with hi | hi
    · rw [firstLine_lt hi]
      exact (lineFrom_spec (Nat.le_of_lt (boundary_lt hne hi))).1
    · rw [firstLine_ge hi]

/-- Boundaries inside lines: the two scans agree. -/
theorem parseChunk_seg (hl : ∀ l ∈ lines, IsLine l) (hne : 0 < (render lines).length)
    (hc : CutsInside (render lines) nthreads) {k : Nat} (hk : k < nthreads) :
    parseChunk (render lines) nthreads k
      = seg lines (firstLine lines nthreads k) (firstLine lines nthreads (k + 1)) := by
  rw [parseChunk_eq hl hne hk, firstLine_lt hk]
  congr 1
  unfold stopLine
  by_cases hlast : k + 1 = nthreads
  · rw [if_pos hlast, firstLine_ge (by omega)]
  · have hlt : k + 1 < nthreads := by omega
    have hx := boundary_lt hne hlt
    have hin := hc (k + 1) (Nat.succ_pos k) hlt
    rw [lineStart_iff hl hx] at hin
    rw [if_neg hlast, firstLine_lt hlt]
    obtain ⟨-, hle, hbelow⟩ := lineFrom_spec (Nat.le_of_lt hx)
    refine lineFrom_eq (by omega) fun i hi => ?_
    have := hbelow i hi
    omega

/-- The chunks in order are the lines in order. -/
theorem flatMap_parseChunk (hl : ∀ l ∈ lines, IsLine l) (hn : 0 < nthreads)
    (hc : CutsInside (render lines) nthreads) :
    (List.range nthreads).flatMap (parseChunk (render lines) nthreads)
      = lineEvents 0 lines := by
  by_cases hne : 0 < (render lines).length
  · have hchunk : ∀ k ∈ List.range nthreads, parseChunk (render lines) nthreads k
        = seg lines (firstLine lines nthreads k) (firstLine lines nthreads (k + 1)) :=
      fun k hk => parseChunk_seg hl hne hc (List.mem_range.mp hk)
    rw [List.flatMap_congr hchunk, flatMap_seg (firstLine_mono hne), firstLine_lt hn,
      firstLine_ge (Nat.le_refl _), Nat.zero_mul, lineFrom_zero, seg, pos_zero,
      List.take_length, List.drop_zero]
  · have hnil := lines_eq_nil hne
    subst hnil
    refine List.flatMap_eq_nil_iff.mpr fun k _ => ?_
    have hempty : render [] = [] := rfl
    unfold parseChunk getChunkBounds
    simp [hempty, parseLines, advance]

/-- A line that starts on a boundary is parsed on both sides of it. -/
theorem not_parsedOnce (hl : ∀ l ∈ lines, IsLine l)
    (hc : ¬ CutsInside (render lines) nthreads) :
    ¬ ParsedOnce lines nthreads := by
  intro hp
  unfold CutsInside at hc
  push Not at hc
  obtain ⟨k, hpos, hk, hstart⟩ := hc
  obtain ⟨i, rfl⟩ : ∃ i, k = i + 1 := ⟨k - 1, by omega⟩
  have hne : 0 < (render lines).length := Nat.zero_lt_of_lt hstart.1
  have hx := hstart.1
  rw [lineStart_iff hl hx] at hstart
  have hnd : ((List.range nthreads).flatMap
      (parseChunk (render lines) nthreads)).Nodup :=
    hp.nodup_iff.mpr (lineEvents_nodup hl)
  have hdisj := (List.nodup_flatMap.mp hnd).2
  generalize hcs : (render lines).length / nthreads = chunkSize at *
  generalize hj : lineFrom ((i + 1) * chunkSize) lines = j at *
  have hjlt : j < lines.length := by
    by_contra hge
    have hmono := @pos_mono lines _ _ (Nat.le_of_not_lt hge)
    rw [pos_length] at hmono
    omega
  have hnext : lineFrom ((i + 1) * chunkSize + 1) lines = j + 1 := by
    have hlt := @pos_lt lines _ _ (Nat.lt_add_one j) hjlt
    refine lineFrom_eq (by omega) fun q hq => ?_
    have := @pos_mono lines _ _ (Nat.le_of_lt_succ hq)
    omega
  have hprev : lineFrom (i * chunkSize) lines ≤ j := by
    rw [← hj]
    exact lineFrom_mono (Nat.mul_le_mul_right _ (Nat.le_succ i)) (Nat.le_of_lt hx)
  -- the line in the chunk that ends behind it
  have hin₁ : (pos lines j + indent lines[j], lineRecord lines[j])
      ∈ parseChunk (render lines) nthreads i := by
    rw [parseChunk_eq hl hne (by omega), hcs]
    refine mem_seg hprev ?_ hjlt
    rw [stopLine, if_neg (by omega), hcs, hnext]
    exact Nat.lt_add_one j
  -- and in the chunk that begins with it
  have hin₂ : (pos lines j + indent lines[j], lineRecord lines[j])
      ∈ parseChunk (render lines) nthreads (i + 1) := by
    rw [parseChunk_eq hl hne hk, hcs, hj]
    refine mem_seg (Nat.le_refl j) ?_ hjlt
    unfold stopLine
    split
    · exact hjlt
    · next hlast =>
        have hlt : i + 1 + 1 < nthreads := by omega
        have hy := boundary_lt hne hlt
        rw [hcs] at hy ⊢
        have hle : (i + 1) * chunkSize + 1 ≤ (i + 1 + 1) * chunkSize + 1 :=
          Nat.succ_le_succ (Nat.mul_le_mul_right _ (Nat.le_succ _))
        have := @lineFrom_mono lines _ _ hle hy
        omega
  have hpair := List.pairwise_iff_getElem.mp hdisj i (i + 1)
    (by rw [List.length_range]; omega) (by rw [List.length_range]; omega)
    (Nat.lt_succ_self i)
  rw [List.getElem_range, List.getElem_range] at hpair
  exact hpair hin₁ hin₂

end ThesisBench.Canneal

/-
The parser on a body made of lines.

No scan of the parser passes a newline, so inside a line it sees the
rest of the line and nothing else. `Within b p e l post` is that view:
at `p` stand the bytes `l`, then the line's newline at `e`, then `post`.
Each scan keeps `e` and `post` and shortens `l`; what a record says is
then a function of the line (`readRecord`).
-/
import ThesisBench.Canneal.Netlist
import Mathlib.Data.List.TakeWhile

namespace ThesisBench.Canneal

-- ============================================================= scanning

/-- The parser stands inside a line. -/
structure Within (b : Body) (p e : Nat) (l : List Byte) (post : List Byte) :
    Prop where
  drop : b.drop p = l ++ newline :: post
  place : p + l.length = e
  inner : newline ∉ l

/-- The byte at a place, from the text that begins there. -/
theorem get_of_drop {b : Body} {p : Nat} {x : Byte} {rest : List Byte}
    (h : b.drop p = x :: rest) : b.get p = x := by
  have hget : (b.drop p)[0]? = some x := by
    rw [h]
    rfl
  rw [List.getElem?_drop, Nat.add_zero] at hget
  rw [Body.get, List.getD_eq_getElem?_getD, hget]
  rfl

/-- A byte on, the text is one byte shorter. -/
theorem drop_succ {b : Body} {p : Nat} {x : Byte} {rest : List Byte}
    (h : b.drop p = x :: rest) : b.drop (p + 1) = rest := by
  rw [← List.drop_drop, h]
  rfl

/-- A scan stops at the first byte that fails. -/
theorem advance_spec {f : Byte → Bool} {b : Body} {a : List Byte} {x : Byte}
    {rest : List Byte} (ha : ∀ c ∈ a, f c = true) (hx : f x = false) :
    ∀ {p room : Nat}, b.drop p = a ++ x :: rest → a.length ≤ room →
      advance (fun p => f (b.get p)) room p = p + a.length := by
  induction a with
  | nil =>
      intro p room hd _
      cases room with
      | zero => rfl
      | succ room =>
          rw [advance, get_of_drop hd, hx]
          rfl
  | cons c a ih =>
      intro p room hd hroom
      cases room with
      | zero => cases hroom
      | succ room =>
          rw [advance, get_of_drop hd, ha c (List.mem_cons_self ..), if_pos rfl,
            ih (fun c hc => ha c (List.mem_cons_of_mem _ hc)) (drop_succ hd)
              (Nat.le_of_succ_le_succ hroom), List.length_cons]
          omega

/-- Reading digits ends at the first other byte, with their value. -/
theorem parseDigits_spec {b : Body} {a : List Byte} {x : Byte}
    {rest : List Byte} (ha : ∀ c ∈ a, isDigit c = true)
    (hx : isDigit x = false) :
    ∀ {p room val : Nat}, b.drop p = a ++ x :: rest → a.length ≤ room →
      parseDigits b room val p
        = (a.foldl (fun v c => v * 10 + (c.toNat - 48)) val, p + a.length) := by
  induction a with
  | nil =>
      intro p room val hd _
      cases room with
      | zero => rfl
      | succ room =>
          rw [parseDigits, get_of_drop hd, hx]
          rfl
  | cons c a ih =>
      intro p room val hd hroom
      cases room with
      | zero => cases hroom
      | succ room =>
          rw [parseDigits, get_of_drop hd, ha c (List.mem_cons_self ..),
            if_pos rfl, ih (fun c hc => ha c (List.mem_cons_of_mem _ hc))
              (drop_succ hd) (Nat.le_of_succ_le_succ hroom), List.length_cons]
          congr 1
          omega

/-- A class without the newline splits the rest of a line. -/
theorem split_line {f : Byte → Bool} (hf : f newline = false)
    (l post : List Byte) :
    ∃ x rest, l ++ newline :: post = l.takeWhile f ++ x :: rest
      ∧ f x = false ∧ x :: rest = l.dropWhile f ++ newline :: post := by
  have hl : l ++ newline :: post
      = l.takeWhile f ++ (l.dropWhile f ++ newline :: post) := by
    rw [← List.append_assoc, List.takeWhile_append_dropWhile]
  cases hd : l.dropWhile f with
  | nil => exact ⟨newline, post, by rw [hl, hd]; rfl, hf, rfl⟩
  | cons x r =>
      refine ⟨x, r ++ newline :: post, by rw [hl, hd]; rfl, ?_, rfl⟩
      have := List.head_dropWhile_not f (l := l) (by rw [hd]; simp)
      simpa [hd] using this

/-- A line is inside the body, its newline included. -/
theorem Within.room {b : Body} {p e : Nat} {l post : List Byte}
    (w : Within b p e l post) : p + l.length < b.length := by
  have hlen := congrArg List.length w.drop
  rw [List.length_drop, List.length_append, List.length_cons] at hlen
  omega

/-- Where a scan over such a class leaves the parser. -/
theorem Within.scan {f : Byte → Bool} {b : Body} {p e : Nat}
    {l post : List Byte} (w : Within b p e l post) :
    Within b (p + (l.takeWhile f).length) e (l.dropWhile f) post := by
  have hsplit : (l.takeWhile f).length + (l.dropWhile f).length = l.length := by
    rw [← List.length_append, List.takeWhile_append_dropWhile]
  refine ⟨?_, ?_, fun hm => w.inner ((List.dropWhile_suffix f).subset hm)⟩
  · rw [← List.drop_drop, w.drop]
    nth_rewrite 2 [← List.takeWhile_append_dropWhile (p := f) (l := l)]
    rw [List.append_assoc, List.drop_left]
  · have := w.place
    omega

/-- Scanning for a byte that fits ends in the line, as its newline does
not. -/
theorem Within.advance {f : Byte → Bool} (hf : f newline = false) {b : Body}
    {p e : Nat} {l post : List Byte} (w : Within b p e l post) {room : Nat}
    (hroom : l.length ≤ room) :
    advance (fun p => f (b.get p)) room p = p + (l.takeWhile f).length := by
  obtain ⟨x, rest, hd, hx, -⟩ := split_line hf l post
  refine advance_spec (fun c hc => ?_) hx (w.drop.trans hd)
    (Nat.le_trans (List.takeWhile_sublist f).length_le hroom)
  exact List.mem_takeWhile_imp hc

-- ============================================================== records

/-- The number at the front of the rest of a line. -/
def readLong (l : List Byte) : Nat × List Byte :=
  ((l.takeWhile isDigit).foldl (fun v c => v * 10 + (c.toNat - 48)) 0,
    l.dropWhile isDigit)

def readConns : Nat → List Byte → List Nat × List Byte
  | 0, l => ([], l)
  | k + 1, l =>
      let (connId, l) := readLong l
      let (conns, l) := readConns k (l.dropWhile isSpace)
      (connId :: conns, l)

/-- What `parseRecord` reads in the rest of a line, and what it leaves. -/
def readRecord (l : List Byte) : Record × List Byte :=
  let (id, l) := readLong l
  let (_, l) := readLong (l.dropWhile isSpace)
  let (conns, l) := readConns 5 (l.dropWhile isSpace)
  (⟨id, conns⟩, l)

variable {b : Body} {p e : Nat} {l post : List Byte}

/-- `fast_parse_long` reads a number as from the line alone. -/
theorem Within.fastParseLong (w : Within b p e l post) :
    ∃ p', fastParseLong b p = ((readLong l).1, p')
      ∧ Within b p' e (readLong l).2 post := by
  obtain ⟨x, rest, hd, hx, -⟩ := split_line (f := isDigit) rfl l post
  have hroom := w.room
  have hle := (List.takeWhile_sublist (l := l) isDigit).length_le
  refine ⟨_, ?_, w.scan⟩
  exact parseDigits_spec (fun c hc => List.mem_takeWhile_imp hc) hx
    (w.drop.trans hd) (by omega)

/-- `skip_ws` skips the line's white space and no more. -/
theorem Within.skipWs (w : Within b p e l post) :
    Within b (skipWs b p) e (l.dropWhile isSpace) post := by
  have hroom := w.room
  unfold Canneal.skipWs
  rw [w.advance (f := isSpace) rfl (by omega)]
  exact w.scan

/-- The connections are read as from the line alone. -/
theorem Within.parseConns (k : Nat) : ∀ {p : Nat} {l : List Byte},
    Within b p e l post →
    ∃ p', parseConns b k p = ((readConns k l).1, p')
      ∧ Within b p' e (readConns k l).2 post := by
  induction k with
  | zero => exact fun {p l} w => ⟨p, rfl, w⟩
  | succ k ih =>
      intro p l w
      obtain ⟨p₁, h₁, w₁⟩ := w.fastParseLong
      obtain ⟨p₂, h₂, w₂⟩ := ih w₁.skipWs
      refine ⟨p₂, ?_, w₂⟩
      simp only [Canneal.parseConns, h₁, h₂]
      rfl

/-- A record is read as from the line alone. -/
theorem Within.parseRecord (w : Within b p e l post) :
    ∃ p', parseRecord b p = ((readRecord l).1, p')
      ∧ Within b p' e (readRecord l).2 post := by
  obtain ⟨p₁, h₁, w₁⟩ := w.fastParseLong
  obtain ⟨p₂, h₂, w₂⟩ := w₁.skipWs.fastParseLong
  obtain ⟨p₃, h₃, w₃⟩ := Within.parseConns 5 w₂.skipWs
  refine ⟨p₃, ?_, w₃⟩
  simp only [Canneal.parseRecord, h₁, h₂, h₃]
  rfl

/-- The line's record, read. -/
theorem lineRecord_eq (hl : IsLine l) :
    lineRecord l = (readRecord (l.dropWhile isBlank)).1 := by
  have w : Within (l ++ [newline]) 0 l.length l [] :=
    ⟨rfl, Nat.zero_add _, hl.newline⟩
  have hscan := w.scan (f := isBlank)
  rw [Nat.zero_add] at hscan
  obtain ⟨p', hp, -⟩ := hscan.parseRecord
  rw [lineRecord, indent, hp]

-- ================================================================ lines

/-- The first line, its newline, and the others. -/
theorem render_cons (l : List Byte) (ls : List (List Byte)) :
    render (l :: ls) = l ++ newline :: render ls := by
  unfold render
  rw [List.flatMap_cons, List.append_assoc]
  rfl

/-- The text of two runs of lines, one behind the other. -/
theorem render_append (ls ms : List (List Byte)) :
    render (ls ++ ms) = render ls ++ render ms := List.flatMap_append

theorem length_render_cons (l : List Byte) (ls : List (List Byte)) :
    (render (l :: ls)).length = l.length + 1 + (render ls).length := by
  rw [render_cons, List.length_append, List.length_cons]
  omega

/-- The blanks in front of a line end inside the line. -/
theorem IsLine.indent_lt (hl : IsLine l) : indent l < l.length := by
  obtain ⟨c, hc, hb⟩ := hl.nonblank
  have hsplit : l.takeWhile isBlank ++ l.dropWhile isBlank = l :=
    List.takeWhile_append_dropWhile
  have hlen := congrArg List.length hsplit
  rw [List.length_append] at hlen
  have hne : l.dropWhile isBlank ≠ [] := by
    intro hnil
    rw [hnil, List.append_nil] at hsplit
    rw [← hsplit] at hc
    rw [List.mem_takeWhile_imp hc] at hb
    cases hb
  have := List.length_pos_iff.mpr hne
  unfold indent
  omega

/-- One round of the line loop. -/
theorem parseLines_line (hl : IsLine l) {stop fuel : Nat}
    (hd : b.drop p = l ++ newline :: post) (hstop : p + l.length + 1 ≤ stop) :
    parseLines b stop (fuel + 1) p
      = (p + indent l, lineRecord l)
        :: parseLines b stop fuel (p + l.length + 1) := by
  have w : Within b p (p + l.length) l post := ⟨hd, rfl, hl.newline⟩
  have hind := hl.indent_lt
  have hblank : advance (fun p => isBlank (b.get p)) (stop - p) p
      = p + indent l := by
    have hne : l.dropWhile isBlank ≠ [] := by
      intro hnil
      have hlen := congrArg List.length
        (List.takeWhile_append_dropWhile (p := isBlank) (l := l))
      rw [hnil, List.append_nil] at hlen
      exact absurd hlen (Nat.ne_of_lt hind)
    obtain ⟨x, r, hx⟩ := List.exists_cons_of_ne_nil hne
    have hxf : isBlank x = false := by
      have := List.head_dropWhile_not isBlank hne
      simpa [hx] using this
    have hsplit : b.drop p = l.takeWhile isBlank ++ x :: (r ++ newline :: post) := by
      rw [hd]
      nth_rewrite 1 [← List.takeWhile_append_dropWhile (p := isBlank) (l := l)]
      rw [hx, List.append_assoc]
      rfl
    exact advance_spec (fun c hc => List.mem_takeWhile_imp hc) hxf hsplit
      (by unfold indent at hind; omega)
  obtain ⟨p', hrec, w'⟩ := (w.scan (f := isBlank)).parseRecord
  have hend : advance (fun p => b.get p ≠ newline) (stop - p') p'
      = p + l.length := by
    have hplace := w'.place
    have hall : ∀ c ∈ (readRecord (l.dropWhile isBlank)).2,
        decide (c ≠ newline) = true := fun c hc =>
      decide_eq_true fun he => w'.inner (he ▸ hc)
    rw [advance_spec (f := fun c => decide (c ≠ newline)) hall (by decide)
      w'.drop (by omega)]
    exact hplace
  have hlt : p < stop := by omega
  have hnot : ¬ stop ≤ p + indent l := by omega
  have hlast : p + l.length < stop := by omega
  rw [parseLines, if_pos hlt]
  simp only [hblank, if_neg hnot]
  rw [show parseRecord b (p + indent l) = _ from hrec]
  simp only [hend, if_pos hlast, lineRecord_eq hl]

/-- There are no more lines than bytes. -/
theorem length_le_render (ls : List (List Byte)) :
    ls.length ≤ (render ls).length := by
  induction ls with
  | nil => exact Nat.zero_le _
  | cons l ls ih =>
      rw [length_render_cons, List.length_cons]
      omega

/-- The line loop on whole lines. -/
theorem parseLines_spec (ls : List (List Byte)) (hls : ∀ l ∈ ls, IsLine l) :
    ∀ {p fuel : Nat}, b.drop p = render ls ++ post → ls.length < fuel →
      parseLines b (p + (render ls).length) fuel p = lineEvents p ls := by
  induction ls with
  | nil =>
      intro p fuel _ hfuel
      obtain ⟨fuel, rfl⟩ := Nat.exists_eq_add_of_lt hfuel
      rw [parseLines, if_neg (by simp [render])]
      rfl
  | cons l ls ih =>
      intro p fuel hd hfuel
      cases fuel with
      | zero => cases hfuel
      | succ fuel =>
          rw [render_cons, List.append_assoc, List.cons_append] at hd
          have hlen := length_render_cons l ls
          have hnext : b.drop (p + l.length + 1) = render ls ++ post := by
            rw [Nat.add_assoc, ← List.drop_drop, hd, ← List.drop_drop,
              List.drop_left]
            rfl
          rw [parseLines_line (hls l (List.mem_cons_self ..)) hd (by omega),
            show p + (render (l :: ls)).length
              = p + l.length + 1 + (render ls).length by omega,
            ih (fun l hl => hls l (List.mem_cons_of_mem _ hl)) hnext
              (Nat.lt_of_succ_lt_succ hfuel)]
          rfl

end ThesisBench.Canneal

/-
What the constructor makes of a generated file.

The writer and the parser meet at three places. A natText is read back
as its number, whatever the number of digits (`readLong_natText`); a
line is read back as its element and connections (`lineRecord_text`);
and the buffers, whole lines each, leave in the file some permutation of
the lines of all the elements (`exists_lines`), from which one parsing
thread fills the tables whatever their order.
-/
import ThesisBench.Canneal.Generator
import ThesisBench.Canneal.Proofs.Construct
import ThesisBench.Canneal.Proofs.Locations

namespace ThesisBench.Canneal.Generator

open Digits Interleave

-- ============================================================= decimals

theorem isDigit_of_mem_natText {n : Nat} {b : Byte} (hb : b ∈ natText n) :
    isDigit b = true := by
  simpa only [isDigit, Bool.and_eq_true, decide_eq_true_eq, UInt8.le_iff_toNat_le,
    UInt8.reduceToNat] using mem_natText hb

theorem newline_notMem_natText (n : Nat) : newline ∉ natText n := by
  intro h
  have := isDigit_of_mem_natText h
  revert this
  decide

/-- Bytes of a class without digits are not skipped in front of a decimal. -/
theorem dropWhile_natText {f : Byte → Bool} (hf : ∀ b, isDigit b = true → f b = false)
    (n : Nat) (rest : List Byte) :
    (natText n ++ rest).dropWhile f = natText n ++ rest := by
  cases hd : natText n with
  | nil => exact absurd hd (natText_ne_nil n)
  | cons b bs =>
      have hb : isDigit b = true := isDigit_of_mem_natText (n := n) (by rw [hd]; simp)
      rw [List.cons_append, List.dropWhile_cons_of_neg]
      rw [hf b hb]
      nofun

theorem isBlank_of_isDigit (b : Byte) (hb : isDigit b = true) : isBlank b = false := by
  rw [Bool.eq_false_iff]
  intro h
  simp only [isBlank, Bool.or_eq_true, beq_iff_eq] at h
  rcases h with ((rfl | rfl) | rfl) | rfl <;> revert hb <;> decide

theorem isSpace_of_isDigit (b : Byte) (hb : isDigit b = true) : isSpace b = false := by
  have h := isBlank_of_isDigit b hb
  simp only [isBlank, Bool.or_eq_false_iff] at h
  rw [isSpace, h.1.2, h.2]
  rfl

/-- A natText is read back, up to the byte behind it. -/
theorem readLong_natText (n : Nat) {rest : List Byte}
    (hrest : ∀ b ∈ rest.head?, isDigit b = false) :
    readLong (natText n ++ rest) = (n, rest) := by
  have hstop : rest.takeWhile isDigit = [] ∧ rest.dropWhile isDigit = rest := by
    cases rest with
    | nil => exact ⟨rfl, rfl⟩
    | cons b bs =>
        have hb := hrest b rfl
        simp [hb]
  have hall : ∀ b ∈ natText n, isDigit b = true := fun b hb => isDigit_of_mem_natText hb
  rw [readLong, List.takeWhile_append_of_pos hall, List.dropWhile_append_of_pos hall,
    hstop.1, hstop.2, List.append_nil, foldl_natText]

-- ================================================================ lines

/-- The connections are read back. -/
theorem readConns_natText (cs : List Nat) : ∀ c : Nat,
    readConns (cs.length + 1) (natText c ++ cs.flatMap fun conn => tab :: natText conn)
      = (c :: cs, []) := by
  induction cs with
  | nil =>
      intro c
      rw [readConns, List.flatMap_nil, readLong_natText c (by simp)]
      rfl
  | cons d cs ih =>
      intro c
      rw [readConns, readLong_natText c (by simp [show isDigit tab = false from rfl])]
      simp only [List.length_cons, List.flatMap_cons, List.cons_append]
      rw [List.dropWhile_cons_of_pos (show isSpace tab = true from rfl),
        dropWhile_natText isSpace_of_isDigit, ih d]

/-- What the generator prints for an element is a line. -/
theorem isLine_text (i ty : Nat) (cs : List Nat) : IsLine (text i ty cs) := by
  refine ⟨?_, ?_⟩
  · simp only [text, List.mem_append, List.mem_cons, List.mem_flatMap, not_or]
    refine ⟨⟨newline_notMem_natText i, by decide, newline_notMem_natText ty⟩, ?_⟩
    rintro ⟨c, -, h | h⟩
    · revert h
      decide
    · exact newline_notMem_natText c h
  · obtain ⟨b, bs, hb⟩ := List.exists_cons_of_ne_nil (natText_ne_nil i)
    refine ⟨b, by simp [text, hb], isBlank_of_isDigit b ?_⟩
    exact isDigit_of_mem_natText (n := i) (by rw [hb]; simp)

/-- A line is read back. -/
theorem lineRecord_text (i ty : Nat) {cs : List Nat} (hcs : cs.length = 5) :
    lineRecord (text i ty cs) = ⟨i, cs⟩ := by
  obtain ⟨c, cs, rfl⟩ := List.exists_cons_of_length_eq_add_one hcs
  have hlen : cs.length = 4 := by simpa using hcs
  have htab : isDigit tab = false := rfl
  have hconns := readConns_natText cs c
  rw [hlen] at hconns
  rw [lineRecord_eq (isLine_text _ _ _), text, List.append_assoc, List.cons_append,
    dropWhile_natText isBlank_of_isDigit, readRecord,
    readLong_natText i (by simp [htab])]
  simp only
  rw [List.dropWhile_cons_of_pos (show isSpace tab = true from rfl),
    dropWhile_natText isSpace_of_isDigit, readLong_natText ty (by simp [htab])]
  simp only
  rw [List.flatMap_cons, List.cons_append,
    List.dropWhile_cons_of_pos (show isSpace tab = true from rfl),
    dropWhile_natText isSpace_of_isDigit, hconns]

-- ========================================================== connections

/-- A connection is the product of two random values modulo the number of
elements. -/
theorem conn_eq (n : Nat) (r s : Rand) : conn n r s = r.val * s.val % n := by
  have hr : r.val ≤ 2147483647 := Nat.le_of_lt_succ r.isLt
  have hs : s.val ≤ 2147483647 := Nat.le_of_lt_succ s.isLt
  have hle : r.val * s.val ≤ 2147483647 * 2147483647 := Nat.mul_le_mul hr hs
  have hbmod : ((r.val : Int) * s.val).bmod (2 ^ 64) = ((r.val * s.val : Nat) : Int) := by
    rw [← Int.natCast_mul]
    generalize r.val * s.val = q at *
    apply Int.bmod_eq_of_le
    · omega
    · omega
  have hmod : (((r.val : Int) * s.val).bmod (2 ^ 64)).tmod n
      = ((r.val * s.val % n : Nat) : Int) := by
    rw [hbmod]
    exact Int.ofNat_tmod _ _
  have hnot : ¬ ((r.val * s.val % n : Nat) : Int) < 0 := by omega
  unfold conn
  rw [hmod]
  simp only [if_neg hnot, Int.toNat_natCast]

theorem conn_lt {n : Nat} (hn : 1 ≤ n) (r s : Rand) : conn n r s < n := by
  rw [conn_eq]
  exact Nat.mod_lt _ hn

theorem length_conns (n : Nat) (rand : Nat → Rand) (k : Nat) :
    (conns n rand k).length = 5 := by
  simp [conns]

theorem lt_of_mem_conns {n : Nat} (hn : 1 ≤ n) {rand : Nat → Rand} {k c : Nat}
    (hc : c ∈ conns n rand k) : c < n := by
  obtain ⟨j, -, rfl⟩ := List.mem_map.mp hc
  exact conn_lt hn _ _

-- ============================================================== buffers

theorem length_long_le {n : Nat} (hn : n < 2 ^ 63) : (natText n).length ≤ 19 :=
  length_natText_le (by decide) (by omega)

/-- A line is as long as its pieces together, newline included. -/
theorem sum_pieces (i ty : Nat) (cs : List Nat) :
    ((pieces i ty cs).map List.length).sum = (text i ty cs).length + 1 := by
  unfold pieces text
  rw [List.length_append, List.length_flatMap]
  simp only [List.cons_append, List.map_cons, List.map_append, List.map_map, List.map_nil,
    List.sum_cons, List.sum_append, List.sum_nil, List.length_singleton, Function.comp_def]
  omega

/-- A line and its newline need less than the 512 bytes that are kept
free. -/
theorem length_text_le {i ty n : Nat} (hi : i < 2 ^ 63) (hty : ty < 2 ^ 63)
    (hn : 1 ≤ n) (hlt : n < 2 ^ 63) (rand : Nat → Rand) (k : Nat) :
    (text i ty (conns n rand k)).length + 2 ≤ 512 := by
  have hsum : ∀ cs : List Nat, (∀ c ∈ cs, c < 2 ^ 63) →
      (cs.flatMap fun conn => tab :: natText conn).length ≤ cs.length * 20 := by
    intro cs hcs
    induction cs with
    | nil => simp
    | cons c cs ih =>
        have hc := length_long_le (hcs c (List.mem_cons_self ..))
        have hrest := ih fun c hc => hcs c (List.mem_cons_of_mem _ hc)
        rw [List.flatMap_cons, List.length_append, List.length_cons, List.length_cons]
        omega
  have hconns := hsum (conns n rand k) fun c hc =>
    Nat.lt_trans (lt_of_mem_conns hn hc) hlt
  rw [length_conns] at hconns
  have h1 := length_long_le hi
  have h2 := length_long_le hty
  rw [text, List.length_append, List.length_append, List.length_cons]
  omega

/-- The positions inside a line do not pass its end. -/
theorem scanl_le (line : List (List Byte)) : ∀ (start : Nat),
    ∀ pos ∈ line.scanl (fun pos piece => pos + piece.length) start,
      pos ≤ start + (line.map List.length).sum := by
  induction line with
  | nil =>
      intro start pos hpos
      rw [List.scanl_nil, List.mem_singleton] at hpos
      omega
  | cons piece line ih =>
      intro start pos hpos
      rw [List.scanl_cons] at hpos
      rw [List.map_cons, List.sum_cons]
      rcases List.mem_cons.mp hpos with rfl | hpos
      · omega
      · have := ih _ pos hpos
        omega

/-- With room for a line at every round, the position stays in the
buffer. -/
theorem bufPositions_le {n : Nat} (hn : 1 ≤ n) (hlt : n < 2 ^ 63) (rand : Nat → Rand)
    (rounds : Nat) : ∀ i k bufPos : Nat, (0 < rounds → i + rounds ≤ n) →
      bufPos ≤ bufSize - 512 →
      ∀ pos ∈ bufPositions n rand rounds i k bufPos, pos ≤ bufSize := by
  have hsize : 512 ≤ bufSize := by
    unfold bufSize
    decide
  induction rounds with
  | zero =>
      intro i k bufPos _ hbuf pos hpos
      unfold bufPositions at hpos
      rw [List.mem_singleton] at hpos
      omega
  | succ rounds ih =>
      intro i k bufPos hi hbuf pos hpos
      have hi := hi (Nat.succ_pos rounds)
      have hty : type (rand k) < 2 ^ 63 := by
        unfold type
        omega
      have hline := length_text_le (by omega : i < 2 ^ 63) hty hn hlt rand (k + 1)
      unfold bufPositions at hpos
      dsimp only at hpos
      rcases List.mem_append.mp hpos with hpos | hpos
      · have := scanl_le _ _ pos hpos
        rw [sum_pieces] at this
        omega
      · split at hpos
        · exact ih (i + 1) _ 0 (by omega) (Nat.zero_le _) pos hpos
        · exact ih (i + 1) _ _ (by omega) (by omega) pos hpos

/-- After the last element what is in the buffer is written. -/
theorem writes_zero (n : Nat) (rand : Nat → Rand) (i k : Nat) (buffer : List Byte) :
    writes n rand 0 i k buffer = if buffer.length > 0 then [buffer] else [] := rfl

/-- A round appends a line to the buffer, and writes it when little room is
left. -/
theorem writes_succ (n : Nat) (rand : Nat → Rand) (rounds i k : Nat)
    (buffer : List Byte) :
    writes n rand (rounds + 1) i k buffer =
      let buffer := buffer ++ text i (type (rand k)) (conns n rand (k + 1)) ++ [newline]
      if buffer.length > bufSize - 512
      then buffer :: writes n rand rounds (i + 1) (k + callsPerLine) []
      else writes n rand rounds (i + 1) (k + callsPerLine) buffer := rfl

/-- Lines that render to nothing are none. -/
theorem render_eq_nil {ls : List (List Byte)} (h : (render ls).length = 0) : ls = [] := by
  cases ls with
  | nil => rfl
  | cons l ls =>
      rw [length_render_cons] at h
      omega

/-- Rendering block by block is rendering all lines. -/
theorem render_flatten (blocks : List (List (List Byte))) :
    (blocks.map render).flatten = render blocks.flatten := by
  induction blocks with
  | nil => rfl
  | cons ls blocks ih =>
      rw [List.map_cons, List.flatten_cons, ih, List.flatten_cons, render_append]

/-- The line that the loop puts out in the round of element `i`, with `k`
calls of `rand_r` behind it. -/
def roundLine (n : Nat) (rand : Nat → Rand) (i k : Nat) : List Byte :=
  text i (type (rand k)) (conns n rand (k + 1))

/-- The writes are blocks of whole lines, and the lines are those of the
rounds in order. -/
theorem writes_blocks (n : Nat) (rand : Nat → Rand) (rounds : Nat) :
    ∀ (i k : Nat) (ls : List (List Byte)), ∃ blocks : List (List (List Byte)),
      writes n rand rounds i k (render ls) = blocks.map render
        ∧ blocks.flatten = ls ++ (List.range rounds).map fun j =>
            roundLine n rand (i + j) (k + callsPerLine * j) := by
  induction rounds with
  | zero =>
      intro i k ls
      rw [writes_zero]
      split
      · exact ⟨[ls], rfl, by simp⟩
      · have hnil := render_eq_nil (by omega : (render ls).length = 0)
        exact ⟨[], rfl, by simp [hnil]⟩
  | succ rounds ih =>
      intro i k ls
      have hbuffer : render ls ++ text i (type (rand k)) (conns n rand (k + 1)) ++ [newline]
          = render (ls ++ [roundLine n rand i k]) := by
        rw [render_append, List.append_assoc]
        simp [render, roundLine]
      have hrounds : (List.range (rounds + 1)).map (fun j =>
            roundLine n rand (i + j) (k + callsPerLine * j))
          = roundLine n rand i k :: (List.range rounds).map fun j =>
            roundLine n rand (i + 1 + j) (k + callsPerLine + callsPerLine * j) := by
        rw [List.range_succ_eq_map, List.map_cons, List.map_map]
        refine congrArg₂ _ rfl (List.map_congr_left fun j _ => ?_)
        show roundLine n rand (i + (j + 1)) (k + callsPerLine * (j + 1)) = _
        rw [Nat.add_comm j 1, Nat.add_assoc, Nat.mul_add, Nat.mul_one, Nat.add_assoc]
      rw [writes_succ, hbuffer]
      simp only
      split
      · obtain ⟨blocks, hw, hb⟩ := ih (i + 1) (k + callsPerLine) []
        refine ⟨(ls ++ [roundLine n rand i k]) :: blocks, ?_, ?_⟩
        · rw [List.map_cons, ← hw]
          rfl
        · rw [List.flatten_cons, hb, hrounds, List.nil_append, List.append_assoc]
          rfl
      · obtain ⟨blocks, hw, hb⟩ := ih (i + 1) (k + callsPerLine)
          (ls ++ [roundLine n rand i k])
        refine ⟨blocks, hw, ?_⟩
        rw [hb, hrounds, List.append_assoc]
        rfl

-- =============================================================== shares

variable {a : Args} {numThreads : Nat} {rand : Nat → Nat → Rand}

/-- Element `j` of the share of thread `tid`. -/
theorem lineOf_share {tid j : Nat} (hj : j < a.chunkSize numThreads) :
    a.lineOf numThreads rand (tid * a.chunkSize numThreads + j)
      = roundLine a.numElements (rand tid) (tid * a.chunkSize numThreads + j)
          (callsPerLine * j) := by
  have hpos : 0 < a.chunkSize numThreads := by omega
  have hdiv : (tid * a.chunkSize numThreads + j) / a.chunkSize numThreads = tid := by
    rw [Nat.mul_comm, Nat.mul_add_div hpos, Nat.div_eq_of_lt hj, Nat.add_zero]
  have hmod : (tid * a.chunkSize numThreads + j) % a.chunkSize numThreads = j := by
    rw [Nat.mul_comm, Nat.mul_add_mod, Nat.mod_eq_of_lt hj]
  simp only [Args.lineOf, Args.connsOf, Args.calls, Args.randOf, hdiv, hmod, roundLine]

/-- A thread writes the lines of its share. -/
theorem threadWrites_blocks (tid : Nat) : ∃ blocks : List (List (List Byte)),
    a.threadWrites numThreads rand tid = blocks.map render
      ∧ blocks.flatten = (List.range' (tid * a.chunkSize numThreads)
          (min (tid * a.chunkSize numThreads + a.chunkSize numThreads) a.numElements
            - tid * a.chunkSize numThreads)).map (a.lineOf numThreads rand) := by
  obtain ⟨blocks, hw, hb⟩ := writes_blocks a.numElements (rand tid)
    (min (tid * a.chunkSize numThreads + a.chunkSize numThreads) a.numElements
      - tid * a.chunkSize numThreads) (tid * a.chunkSize numThreads) 0 []
  refine ⟨blocks, hw, ?_⟩
  rw [hb, List.nil_append, List.range'_eq_map_range, List.map_map]
  refine List.map_congr_left fun j hj => ?_
  have hlt : j < a.chunkSize numThreads := by
    have := List.mem_range.mp hj
    omega
  rw [Nat.zero_add]
  exact (lineOf_share hlt).symm

/-- The shares in a row. -/
theorem flatMap_shares (c n t : Nat) :
    (List.range t).flatMap (fun tid =>
        List.range' (tid * c) (min (tid * c + c) n - tid * c))
      = List.range (min (t * c) n) := by
  induction t with
  | zero => simp
  | succ t ih =>
      have hsplit : min ((t + 1) * c) n
          = min (t * c) n + (min (t * c + c) n - t * c) := by
        rw [Nat.succ_mul]
        omega
      rw [List.range_succ, List.flatMap_append, ih, List.flatMap_singleton, hsplit,
        List.range_add, List.range'_eq_map_range]
      by_cases hle : t * c ≤ n
      · rw [Nat.min_eq_left hle]
      · have hzero : min (t * c + c) n - t * c = 0 := by omega
        rw [hzero]
        rfl

theorem le_mul_chunkSize (ht : 1 ≤ numThreads) :
    a.numElements ≤ numThreads * a.chunkSize numThreads := by
  have h := Nat.lt_div_mul_add (a := a.numElements + numThreads - 1)
    (Nat.lt_of_lt_of_le Nat.zero_lt_one ht)
  unfold Args.chunkSize
  rw [Nat.mul_comm]
  omega

/-- A generated file is the header and the lines of all the elements, in
some order. -/
theorem exists_lines (ht : 1 ≤ numThreads) {file : List Byte}
    (hf : a.Generates numThreads rand file) : ∃ lines : List (List Byte),
      file = a.header ++ render lines
        ∧ lines.Perm ((List.range a.numElements).map (a.lineOf numThreads rand)) := by
  obtain ⟨-, s, hs, rfl⟩ := hf
  have hblocks := @threadWrites_blocks a numThreads rand
  choose blocks hw hb using hblocks
  obtain ⟨s', rfl, hs'⟩ := hs.of_map render ((List.range numThreads).map blocks) (by
    rw [List.map_map]
    exact List.map_congr_left fun tid _ => hw tid)
  refine ⟨s'.flatten, by rw [render_flatten], ?_⟩
  have hall : ((List.range numThreads).map blocks).flatten.flatten
      = (List.range a.numElements).map (a.lineOf numThreads rand) := by
    have hcut : min (numThreads * a.chunkSize numThreads) a.numElements = a.numElements :=
      Nat.min_eq_right (le_mul_chunkSize ht)
    rw [← hcut, ← flatMap_shares, List.map_flatMap, List.flatten_flatten, List.map_map,
      List.flatMap_def]
    exact congrArg _ (List.map_congr_left fun tid _ => hb tid)
  rw [← hall]
  exact hs'.perm.flatten

-- =============================================================== header

/-- A side of a grid with fewer than `2 ^ 32` places. -/
theorem side_lt {x y : Nat} (hy : 1 < y) (hxy : x * y < 2 ^ 32) : x < 2 ^ 31 := by
  have hle : x * 2 ≤ x * y := Nat.mul_le_mul_left x hy
  omega

/-- The header line is read back, to 32 bits, and the body starts behind
it. -/
theorem parseHeader_header (a : Args) (body : List Byte) : ∃ p,
      parseHeader (a.header ++ body)
          = (⟨a.numElements % 2 ^ 32, a.x % 2 ^ 32, a.y % 2 ^ 32⟩, p)
        ∧ (a.header ++ body).drop p = body := by
  let l := natText a.numElements ++ tab :: natText a.x ++ tab :: natText a.y
  have htab : isDigit tab = false := rfl
  have hline : a.header ++ body = l ++ newline :: body := by simp [Args.header, l]
  have hinner : newline ∉ l := by
    simp only [l, List.mem_append, List.mem_cons, not_or]
    exact ⟨⟨newline_notMem_natText _, by decide, newline_notMem_natText _⟩, by decide,
      newline_notMem_natText _⟩
  have w : Within (a.header ++ body) 0 l.length l body :=
    ⟨hline, Nat.zero_add _, hinner⟩
  have hl : readLong l = (a.numElements, tab :: natText a.x ++ tab :: natText a.y) := by
    simp only [l, List.append_assoc, List.cons_append]
    exact readLong_natText _ (by simp [htab])
  have hx' : readLong ((tab :: natText a.x ++ tab :: natText a.y).dropWhile isSpace)
      = (a.x, tab :: natText a.y) := by
    rw [List.cons_append, List.dropWhile_cons_of_pos (show isSpace tab = true from rfl),
      dropWhile_natText isSpace_of_isDigit]
    exact readLong_natText _ (by simp [htab])
  have hy' : readLong ((tab :: natText a.y).dropWhile isSpace) = (a.y, []) := by
    rw [List.dropWhile_cons_of_pos (show isSpace tab = true from rfl)]
    have hd := dropWhile_natText isSpace_of_isDigit a.y []
    rw [List.append_nil] at hd
    rw [hd]
    have hread : readLong (natText a.y ++ []) = (a.y, []) :=
      readLong_natText a.y (by simp)
    rwa [List.append_nil] at hread
  obtain ⟨p₁, h₁, w₁⟩ := w.fastParseLong
  rw [hl] at h₁ w₁
  obtain ⟨p₂, h₂, w₂⟩ := w₁.skipWs.fastParseLong
  rw [hx'] at h₂ w₂
  obtain ⟨p₃, h₃, w₃⟩ := w₂.skipWs.fastParseLong
  rw [hy'] at h₃ w₃
  have hroom := w₃.room
  have hdrop : (a.header ++ body).drop p₃ = newline :: body := w₃.drop
  have hstay : advance (fun p => Body.get (a.header ++ body) p ≠ newline)
      ((a.header ++ body).length - p₃) p₃ = p₃ := by
    rw [advance_spec (f := fun c => decide (c ≠ newline)) (a := []) (by simp) (by decide)
      hdrop (Nat.zero_le _)]
    rfl
  have hlt : p₃ < (a.header ++ body).length := hroom
  refine ⟨p₃ + 1, ?_, drop_succ hdrop⟩
  simp only [parseHeader, h₁, h₂, h₃, hstay, if_pos hlt]

-- ======================================================= one parsing thread

/-- A single thread has the records of all lines. -/
theorem threadRecords_one {lines : List (List Byte)} (hl : ∀ l ∈ lines, IsLine l) :
    threadRecords (render lines) 1 = [lines.map lineRecord] := by
  have hflat := flatten_threadRecords hl Nat.one_pos (fun k hk hk' => by omega)
  have hone : threadRecords (render lines) 1
      = [(parseChunk (render lines) 1 0).map Prod.snd] := rfl
  rw [hone] at hflat ⊢
  simpa using hflat

/-- One thread on whole lines: one result. -/
theorem constructs_one {lines : List (List Byte)} (hl : ∀ l ∈ lines, IsLine l) (hd : Header)
    (out : Option Netlist) :
    Constructs hd (render lines) 1 out
      ↔ out = if Fits hd (lines.map lineRecord) then
          some (Netlist.empty.after (threadSteps 0 (lines.map lineRecord))) else none := by
  have hspec : ∀ {s₁ s₂},
      Interleaves ([lines.map lineRecord].map fun rs => rs.flatMap Record.conns) s₁ →
      Interleaves ([lines.map lineRecord].map (threadSteps 0)) s₂ →
      ((s₁.foldlM (countStep hd) fun _ => 0).bind fun counts =>
          (resizeFanout hd counts).bind fun sizes =>
            s₂.foldlM (Step.run hd sizes) Netlist.empty)
        = if Fits hd (lines.map lineRecord) then
          some (Netlist.empty.after (threadSteps 0 (lines.map lineRecord))) else none := by
    intro s₁ s₂ h₁ h₂
    have hs₂ : s₂ = threadSteps 0 (lines.map lineRecord) := by
      rw [h₂.eq_flatten (List.pairwise_singleton _ _), List.map_singleton,
        List.flatten_singleton]
    rw [construct_spec h₁ h₂, List.flatten_singleton, hs₂]
  have hrace := not_races_one (render lines)
  unfold Constructs
  rw [or_iff_right hrace, threadRecords_one hl]
  constructor
  · rintro ⟨s₁, s₂, h₁, h₂, rfl⟩
    exact hspec h₁ h₂
  · rintro rfl
    exact ⟨_, _, interleaves_flatten _, interleaves_flatten _,
      (hspec (interleaves_flatten _) (interleaves_flatten _)).symm⟩

-- =============================================================== tables

/-- The records of the lines, in their order in the file. -/
theorem records_perm {lines : List (List Byte)}
    (hp : lines.Perm ((List.range a.numElements).map (a.lineOf numThreads rand))) :
    (lines.map lineRecord).Perm
      ((List.range a.numElements).map fun i => ⟨i, a.connsOf numThreads rand i⟩) := by
  refine (hp.map lineRecord).trans ?_
  rw [List.map_map]
  refine List.Perm.of_eq (List.map_congr_left fun i _ => ?_)
  exact lineRecord_text _ _ (length_conns _ _ _)

/-- The lines of the file are lines, in whatever order they stand. -/
theorem isLine_of_perm {lines : List (List Byte)}
    (hp : lines.Perm ((List.range a.numElements).map (a.lineOf numThreads rand))) :
    ∀ l ∈ lines, IsLine l := by
  intro l hl
  obtain ⟨i, -, rfl⟩ := List.mem_map.mp (hp.mem_iff.mp hl)
  exact isLine_text _ _ _

section

variable {rs : List Record}
  (hp : rs.Perm ((List.range a.numElements).map fun i =>
    ⟨i, a.connsOf numThreads rand i⟩))

include hp

/-- The records of element `e`: its line, or none. -/
theorem filter_records (e : Nat) : (rs.filter fun r => r.id = e)
    = if e < a.numElements then [⟨e, a.connsOf numThreads rand e⟩] else [] := by
  have hrange : (List.range a.numElements).filter (fun i => decide (i = e))
      = if e < a.numElements then [e] else [] := by
    rw [List.filter_eq]
    by_cases he : e < a.numElements
    · rw [if_pos he, List.count_eq_one_of_mem List.nodup_range (List.mem_range.mpr he)]
      rfl
    · rw [if_neg he, List.count_eq_zero_of_not_mem (by simpa using he)]
      rfl
  have hfilter := hp.filter (fun r => decide (r.id = e))
  rw [List.filter_map] at hfilter
  have hcomp : (fun r : Record => decide (r.id = e))
      ∘ (fun i => (⟨i, a.connsOf numThreads rand i⟩ : Record)) = fun i => decide (i = e) := rfl
  rw [hcomp, hrange] at hfilter
  by_cases he : e < a.numElements
  · rw [if_pos he] at hfilter ⊢
    exact List.perm_singleton.mp hfilter
  · rw [if_neg he] at hfilter ⊢
    exact List.perm_nil.mp hfilter

/-- An element's fanin is what the generator gave it. -/
theorem fanin_records (e : Nat) : rs.flatMap (Record.faninOf e)
    = if e < a.numElements then a.connsOf numThreads rand e else [] := by
  have hfilter : rs.flatMap (Record.faninOf e)
      = (rs.filter fun r => r.id = e).flatMap Record.conns := by
    clear hp
    induction rs with
    | nil => rfl
    | cons r rs ih =>
        rw [List.flatMap_cons, ih, Record.faninOf]
        by_cases hr : r.id = e
        · rw [if_pos hr, List.filter_cons_of_pos (by simpa using hr), List.flatMap_cons]
        · rw [if_neg hr, List.filter_cons_of_neg (by simpa using hr), List.nil_append]
  rw [hfilter, filter_records hp e]
  split
  · simp
  · rfl

/-- A record of the file is that of an element. -/
theorem mem_records {r : Record} (hr : r ∈ rs) :
    r.id < a.numElements ∧ r.conns = a.connsOf numThreads rand r.id := by
  obtain ⟨i, hi, rfl⟩ := List.mem_map.mp (hp.mem_iff.mp hr)
  exact ⟨List.mem_range.mp hi, rfl⟩

/-- Numbers that name no element have no fanout. -/
theorem fanout_records (h1 : 1 ≤ a.numElements) {e : Nat} (he : a.numElements ≤ e) :
    rs.flatMap (Record.fanoutOf e) = [] := by
  refine List.flatMap_eq_nil_iff.mpr fun r hr => ?_
  rw [Record.fanoutOf, List.map_eq_nil_iff, List.filter_eq_nil_iff]
  intro c hc
  rw [(mem_records hp hr).2] at hc
  have := lt_of_mem_conns h1 hc
  simp only [decide_eq_true_eq]
  omega

/-- The records stay inside the tables of a chip with more places than
elements. -/
theorem inRange_records (h1 : 1 ≤ a.numElements) {chipSize : Nat}
    (hn : a.numElements < chipSize) :
    ∀ r ∈ rs, r.InRange ⟨a.numElements, chipSize⟩ := by
  intro r hr
  obtain ⟨hid, hconns⟩ := mem_records hp hr
  refine ⟨Nat.lt_trans hid hn, fun c hc => ?_⟩
  rw [hconns] at hc
  have hlt := lt_of_mem_conns h1 hc
  exact ⟨Nat.lt_trans hlt hn, hlt⟩

/-- An element is named as often as the random values say. -/
theorem count_records (e : Nat) :
    (rs.flatMap Record.conns).count e = a.named numThreads rand e := by
  rw [(hp.flatMap_right Record.conns).count_eq, List.flatMap_map]
  rfl

/-- The records fit the tables when no element is named too often. -/
theorem fits_records (h1 : 1 ≤ a.numElements) {chipSize : Nat}
    (hn : a.numElements < chipSize) : Fits ⟨a.numElements, chipSize⟩ rs
      ↔ ∀ e < a.numElements, a.named numThreads rand e < 2 ^ 32 := by
  unfold Fits
  simp only [count_records hp]
  exact ⟨fun h => h.2.2, fun h => ⟨hn.le, inRange_records hp h1 hn, h⟩⟩

end

/-- A line names five elements. -/
theorem named_le (a : Args) (numThreads : Nat) (rand : Nat → Nat → Rand) (e : Nat) :
    a.named numThreads rand e ≤ 5 * a.numElements := by
  have hfive : ∀ i ∈ List.range a.numElements, (a.connsOf numThreads rand i).length = 5 :=
    fun i _ => length_conns _ _ _
  have hlen : ((List.range a.numElements).flatMap (a.connsOf numThreads rand)).length
      = 5 * a.numElements := by
    rw [List.length_flatMap, List.map_congr_left hfive, List.map_const', List.sum_replicate_nat,
      List.length_range, Nat.mul_comm]
  exact hlen ▸ List.count_le_length

/-- With zeros from `rand_r` a line names element 0 five times. -/
theorem named_zero (a : Args) (numThreads : Nat) :
    a.named numThreads (fun _ _ => 0) 0 = 5 * a.numElements := by
  have hconn : conn a.numElements 0 0 = 0 := by
    rw [conn_eq]
    exact Nat.zero_mod _
  have hfive : ∀ i ∈ List.range a.numElements,
      (a.connsOf numThreads (fun _ _ => 0) i).count 0 = 5 := by
    intro i _
    have hconns : a.connsOf numThreads (fun _ _ => 0) i = (List.range 5).map fun _ => 0 :=
      List.map_congr_left fun j _ => hconn
    rw [hconns]
    rfl
  rw [Args.named, List.count_flatMap, Function.comp_def, List.map_congr_left hfive,
    List.map_const', List.sum_replicate_nat, List.length_range, Nat.mul_comm]

-- ============================================================= the result

/-- On a grid that the arguments allow, one parsing thread rebuilds the
elements exactly when no counter wraps. -/
theorem rebuilt_iff {file : List Byte} (hx : 1 < a.x) (hy : 1 < a.y) (h1 : 1 ≤ a.numElements)
    (hn : a.numElements < a.x * a.y) (hxy : a.x * a.y < 2 ^ 32)
    (hlines : a.Lines numThreads rand file) : a.Rebuilt numThreads rand file
      ↔ ∀ e < a.numElements, a.named numThreads rand e < 2 ^ 32 := by
  obtain ⟨lines, hfile, hlines⟩ := hlines
  have hrs := records_perm hlines
  have hx' : a.x < 2 ^ 32 :=
    Nat.lt_of_le_of_lt (Nat.le_mul_of_pos_right _ (by omega)) hxy
  have hy' : a.y < 2 ^ 32 :=
    Nat.lt_of_le_of_lt (Nat.le_mul_of_pos_left _ (by omega)) hxy
  obtain ⟨p, hhead, hbody⟩ := parseHeader_header a (render lines)
  rw [Nat.mod_eq_of_lt (show a.numElements < 2 ^ 32 by omega), Nat.mod_eq_of_lt hx',
    Nat.mod_eq_of_lt hy'] at hhead
  have hplaces : (⟨a.numElements, a.x, a.y⟩ : Grid).assignLocations.isSome = true := by
    rw [Grid.assignLocations_eq (side_lt hy hxy) (side_lt hx (Nat.mul_comm a.x a.y ▸ hxy)) hxy]
    rfl
  have hchip : (⟨a.numElements, a.x, a.y⟩ : Grid).chipSize = a.x * a.y :=
    Nat.mod_eq_of_lt hxy
  have hone := constructs_one (isLine_of_perm hlines) ⟨a.numElements, a.x * a.y⟩
  have hspec : ∀ out, ConstructsFile file 1 out
      ↔ out = (if Fits ⟨a.numElements, a.x * a.y⟩ (lines.map lineRecord) then
          some (Netlist.empty.after (threadSteps 0 (lines.map lineRecord))) else none).map
        fun m => (⟨a.numElements, a.x, a.y⟩, m) := by
    intro out
    simp only [hfile, ConstructsFile, hhead, hbody, hchip, if_pos hplaces, hone, exists_eq_left]
  rw [← fits_records hrs h1 hn]
  constructor
  · rintro ⟨m, hout, -⟩
    refine Decidable.byContradiction fun hfits => ?_
    have hnone : ConstructsFile file 1 none := by
      rw [hspec, if_neg hfits, Option.map_none]
    cases (hout none).mp hnone
  · intro hfits
    refine ⟨Netlist.empty.after (threadSteps 0 (lines.map lineRecord)),
      fun out => ?_, fun i hi => ?_, fun i hi _ => ?_⟩
    · rw [hspec, if_pos hfits, Option.map_some]
    · refine ⟨?_, ?_⟩
      · have hmem : Step.name i ∈ threadSteps 0 (lines.map lineRecord) := by
          rw [mem_threadSteps (fun k hk => by cases hk)]
          refine ⟨⟨i, a.connsOf numThreads rand i⟩, ?_, List.mem_cons_self ..⟩
          rw [hrs.mem_iff]
          exact List.mem_map.mpr ⟨i, List.mem_range.mpr hi, rfl⟩
        exact if_pos hmem
      · simp only [Netlist.after, Netlist.empty, List.nil_append,
          thread_filterMap (f := Step.faninOf i) (fun _ => rfl), steps_fanin]
        rw [fanin_records hrs, if_pos hi]
    · simp only [Netlist.after, Netlist.empty, List.nil_append,
        thread_filterMap (f := Step.faninOf i) (fun _ => rfl), steps_fanin,
        thread_filterMap (f := Step.fanoutOf i) (fun _ => rfl), steps_fanout]
      rw [fanin_records hrs, if_neg (by omega), fanout_records hrs h1 hi]
      exact ⟨rfl, rfl⟩

/-- Whatever the values of `rand_r`, the number of threads and the order
of their writes, the generated file has the lines of all elements, and
one parsing thread builds from it the header's numbers and, for every
element, the connections on its line, exactly when no element is named
`2 ^ 32` times or more. -/
theorem constructs_generated (a : Args) (numThreads : Nat) (rand : Nat → Nat → Rand)
    (file : List Byte) (ht : 1 ≤ numThreads) (hx : 1 < a.x) (hy : 1 < a.y)
    (h1 : 1 ≤ a.numElements) (hn : a.numElements < a.x * a.y)
    (hxy : a.x * a.y < 2 ^ 32) (hf : a.Generates numThreads rand file) :
    a.Lines numThreads rand file
      ∧ (a.Rebuilt numThreads rand file
        ↔ ∀ e < a.numElements, a.named numThreads rand e < 2 ^ 32) := by
  have hlines : a.Lines numThreads rand file := exists_lines ht hf
  exact ⟨hlines, rebuilt_iff hx hy h1 hn hxy hlines⟩

/-- Three elements on a grid of two by two, written by two threads. -/
theorem constructs_generated_three : ∃ file : List Byte,
    (Args.mk 2 2 3).Generates 2 (fun tid _ => Fin.ofNat _ tid) file
      ∧ (Args.mk 2 2 3).Rebuilt 2 (fun tid _ => Fin.ofNat _ tid) file := by
  let rand : Nat → Nat → Rand := fun tid _ => Fin.ofNat _ tid
  have hf : (Args.mk 2 2 3).Generates 2 rand _ :=
    ⟨by decide, _, interleaves_flatten _, rfl⟩
  refine ⟨_, hf, ((constructs_generated ⟨2, 2, 3⟩ 2 rand _ (by decide) (by decide) (by decide)
    (by decide) (by decide) (by decide) hf).2).mpr fun e _ => ?_⟩
  exact Nat.lt_of_le_of_lt (named_le _ _ _ _) (by decide)

/-- 858993460 elements on a grid of 65535 by 65536, and zeros from
`rand_r`: 4294967300 connections to element 0, which its counter takes
for 4. -/
theorem not_constructs_generated : ∃ file : List Byte,
    (Args.mk 65535 65536 858993460).Generates 1 (fun _ _ => 0) file
      ∧ ¬ (Args.mk 65535 65536 858993460).Rebuilt 1 (fun _ _ => 0) file := by
  have hf : (Args.mk 65535 65536 858993460).Generates 1 (fun _ _ => 0) _ :=
    ⟨by decide, _, interleaves_flatten _, rfl⟩
  refine ⟨_, hf, fun h => ?_⟩
  have hlt := (rebuilt_iff (by decide) (by decide) (by decide) (by decide) (by decide)
    (exists_lines (Nat.le_refl 1) hf)).mp h 0 (by decide)
  rw [named_zero] at hlt
  exact absurd hlt (by decide)

-- ======================================================== the file's text

/-- The file is the header and the lines of all elements. -/
theorem complete_of_generates {a : Args} {numThreads : Nat} {rand : Nat → Nat → Rand}
    {file : List Byte} (ht : 1 ≤ numThreads) (h1 : 1 ≤ a.numElements)
    (hf : a.Generates numThreads rand file) : a.Complete file := by
  obtain ⟨lines, rfl, hlines⟩ := exists_lines ht hf
  have hline : ∀ i, lineRecord (a.lineOf numThreads rand i)
      = ⟨i, a.connsOf numThreads rand i⟩ :=
    fun i => lineRecord_text _ _ (length_conns _ _ _)
  -- a line names its element
  have hids : (lines.map fun l => (lineRecord l).id).Perm (List.range a.numElements) := by
    have := hlines.map fun l => (lineRecord l).id
    rwa [List.map_map, List.map_congr_left (g := id) (fun i _ => by
      rw [Function.comp_apply, hline, id]), List.map_id] at this
  have hback : lines
      = (lines.map fun l => (lineRecord l).id).map (a.lineOf numThreads rand) := by
    rw [List.map_map]
    refine (List.map_id lines).symm.trans (List.map_congr_left fun l hl => ?_)
    obtain ⟨i, -, rfl⟩ := List.mem_map.mp (hlines.mem_iff.mp hl)
    rw [Function.comp_apply, hline, id]
  rw [hback]
  refine ⟨_, fun i => type (a.randOf numThreads rand i (a.calls numThreads i)),
    a.connsOf numThreads rand, hids, rfl, ?_⟩
  intro i _
  refine ⟨?_, length_conns _ _ _, fun c hc => lt_of_mem_conns h1 hc⟩
  dsimp only
  unfold type
  omega

/-- Every thread's position stays in its buffer. -/
theorem threadPositions_le {a : Args} (h1 : 1 ≤ a.numElements) (hlt : a.numElements < 2 ^ 63)
    (numThreads : Nat) (rand : Nat → Nat → Rand) (tid : Nat) :
    ∀ pos ∈ a.threadPositions numThreads rand tid, pos ≤ bufSize := by
  unfold Args.threadPositions
  exact bufPositions_le h1 hlt (rand tid) _ _ 0 0 (by omega) (Nat.zero_le _)

/-- The program writes the header and whole lines, one for each element, and
stays in its buffers, exactly when its arithmetic does not overflow. -/
theorem writes_complete_iff (a : Args) (numThreads : Nat) (rand : Nat → Nat → Rand)
    (hvalid : a.valid) (ht : 1 ≤ numThreads) (h1 : 1 ≤ a.numElements) :
    (∀ out, a.Writes numThreads rand out → ∃ file, out = some file ∧ a.Complete file
        ∧ ∀ tid < numThreads, ∀ pos ∈ a.threadPositions numThreads rand tid, pos ≤ bufSize)
      ↔ a.x * a.y < 2 ^ 63 ∧ a.numElements + numThreads < 2 ^ 63 := by
  constructor
  · intro h
    by_contra hno
    have hover : a.Overflows numThreads := by
      unfold Args.Overflows
      omega
    obtain ⟨file, hnone, -⟩ := h none ⟨hvalid, Or.inl ⟨hover, rfl⟩⟩
    cases hnone
  · rintro ⟨hxy, hn⟩ out ⟨-, ⟨hover, -⟩ | ⟨-, file, hf, rfl⟩⟩
    · unfold Args.Overflows at hover
      omega
    · exact ⟨file, rfl, complete_of_generates ht h1 hf,
        fun tid _ => threadPositions_le h1 (by omega) numThreads rand tid⟩

/-- Three elements, two threads. -/
theorem writes_complete_iff_three :
    (Args.mk 2 2 3).valid ∧ ∀ out, (Args.mk 2 2 3).Writes 2 (fun tid _ => Fin.ofNat _ tid) out →
      ∃ file, out = some file ∧ (Args.mk 2 2 3).Complete file
        ∧ ∀ tid < 2, ∀ pos ∈ (Args.mk 2 2 3).threadPositions 2 (fun tid _ => Fin.ofNat _ tid) tid,
          pos ≤ bufSize :=
  ⟨by decide, (writes_complete_iff ⟨2, 2, 3⟩ 2 _ (by decide) (by decide) (by decide)).mpr
    ⟨by decide, by decide⟩⟩

/-- The largest number of elements on a grid of 2^63 - 1 places, four
threads: their sum does not fit `long`. -/
theorem not_writes_complete :
    (Args.mk 7 1317624576693539401 9223372036854775806).valid
      ∧ ¬ ∀ out, (Args.mk 7 1317624576693539401 9223372036854775806).Writes 4 (fun _ _ => 0) out →
        ∃ file, out = some file ∧ (Args.mk 7 1317624576693539401 9223372036854775806).Complete file
          ∧ ∀ tid < 4, ∀ pos ∈ (Args.mk 7 1317624576693539401 9223372036854775806).threadPositions
            4 (fun _ _ => 0) tid, pos ≤ bufSize := by
  refine ⟨by decide, fun h => ?_⟩
  obtain ⟨file, hnone, -⟩ := h none ⟨by decide, Or.inl ⟨Or.inr (by decide), rfl⟩⟩
  cases hnone

end ThesisBench.Canneal.Generator

/-
An input stream of characters with its state bits, and what is read
from it.

A stream is what is left to read and two bits: `eof` says that reading
has run into the end, `fail` that something asked for was not there.
Every operation first asks whether the stream is good, and does no more
than set `fail` when it is not; a formatted one then skips white space,
line ends included. `peek` on the end sets `eof`, taking the last
character does not.

# Reading a decimal

An integer is a sign, when there is one, and the longest run of digits.
No digits give 0 and `fail`; a value that does not fit gives the nearest
one that does, and `fail`; `eof` is set when nothing follows. When not
even white space is followed by anything, the variable keeps what it
held.

# Where reading gets to

A reader that goes wrong inside a text loses its place, and the question
is how far. `Confined rest` says it cannot have got into `rest`: it is
still before it, or has failed, or there was nothing there. Reading an
integer keeps that wherever `rest` opens a new line that no number
starts (`Confined.getInt`).
-/
import Mathlib.Data.List.TakeWhile
import Mathlib.Tactic.Common

namespace ThesisBench

-- ============================================================ the stream

structure IStream where
  rest : List UInt8
  eof : Bool
  fail : Bool
  deriving DecidableEq, Repr

namespace IStream

-- ============================================================ characters

/-- `'\n'` -/
def newline : UInt8 := 10

/-- `isspace` of the C locale -/
def isSpace (c : UInt8) : Bool := c == 32 || (9 ≤ c && c ≤ 13)

/-- `isdigit` of the C locale -/
def isDigit (c : UInt8) : Bool := 48 ≤ c && c ≤ 57

/-- `'+'` or `'-'` -/
def isSign (c : UInt8) : Bool := c == 43 || c == 45

-- ============================================================ operations

/-- A stream newly opened on a text. -/
def ofText (text : List UInt8) : IStream := ⟨text, false, false⟩

def good (s : IStream) : Bool := !s.eof && !s.fail

/-- `peek()`; `none` is the end-of-file value -/
def peek (s : IStream) : Option UInt8 × IStream :=
  if s.good then
    match s.rest with
    | [] => (none, { s with eof := true })
    | c :: _ => (some c, s)
  else (none, { s with fail := true })

/-- Drop `n` characters, fewer when one of them is the delimiter, which
is the last dropped then, or when the text ends, which is the second
result. -/
def skipTo (delim : UInt8) : Nat → List UInt8 → List UInt8 × Bool
  | 0, cs => (cs, false)
  | _ + 1, [] => ([], true)
  | n + 1, c :: cs => if c = delim then (cs, false) else skipTo delim n cs

/-- `ignore(n, delim)` -/
def ignore (s : IStream) (n : Nat) (delim : UInt8) : IStream :=
  if s.good then
    { s with rest := (skipTo delim n s.rest).1, eof := (skipTo delim n s.rest).2 }
  else { s with fail := true }

/-- What a formatted operation does first. -/
def sentry (s : IStream) : IStream :=
  if s.good then
    match s.rest.dropWhile isSpace with
    | [] => ⟨[], true, true⟩
    | c :: cs => { s with rest := c :: cs }
  else { s with fail := true }

/-- `s >> c` for a character -/
def getChar (s : IStream) : Option UInt8 × IStream :=
  match s.sentry.good, s.sentry.rest with
  | true, c :: cs => (some c, { s.sentry with rest := cs })
  | _, _ => (none, s.sentry)

/-- The optional sign of a number: is it negative, and what follows. -/
def takeSign : List UInt8 → Bool × List UInt8
  | [] => (false, [])
  | c :: cs => if isSign c then (c == 45, cs) else (false, c :: cs)

def digitsVal (ds : List UInt8) : Nat :=
  ds.foldl (fun n d => 10 * n + (d.toNat - 48)) 0

def signedVal (neg : Bool) (ds : List UInt8) : Int :=
  if neg then -digitsVal ds else digitsVal ds

/-- Read a decimal: what is stored for a target type from `lo` to `hi`,
whether that is a failure, and what is left. -/
def scanInt (lo hi : Int) (cs : List UInt8) : Int × Bool × List UInt8 :=
  let body := (takeSign cs).2
  let ds := body.takeWhile isDigit
  let left := body.dropWhile isDigit
  let n := signedVal (takeSign cs).1 ds
  if ds = [] then (0, true, left)
  else if n < lo then (lo, true, left)
  else if hi < n then (hi, true, left)
  else (n, false, left)

/-- `s >> x` for an integer variable that holds `x` -/
def getInt (lo hi : Int) (s : IStream) (x : Option Int) : Option Int × IStream :=
  if s.sentry.good then
    let r := scanInt lo hi s.sentry.rest
    (some r.1, ⟨r.2.2, r.2.2.isEmpty, r.2.1⟩)
  else (x, s.sentry)

theorem peek_of_good (cs : List UInt8) :
    peek ⟨cs, false, false⟩ = (cs.head?, ⟨cs, cs.isEmpty, false⟩) := by
  cases cs <;> rfl

-- ============================================================= bad streams

/-- A stream that is not good sets `fail` and stays where it is. -/
theorem peek_of_not_good {s : IStream} (h : s.good = false) :
    s.peek = (none, { s with fail := true }) := by simp [peek, h]

theorem ignore_of_not_good {s : IStream} (h : s.good = false) (n : Nat) (delim : UInt8) :
    s.ignore n delim = { s with fail := true } := by simp [ignore, h]

theorem sentry_of_not_good {s : IStream} (h : s.good = false) :
    s.sentry = { s with fail := true } := by simp [sentry, h]

/-- Reading from a bad stream fails and leaves the number as it was. -/
theorem getInt_of_not_good {s : IStream} (h : s.good = false) (lo hi : Int)
    (x : Option Int) : getInt lo hi s x = (x, { s with fail := true }) := by
  simp [getInt, sentry_of_not_good h, good]

-- ============================================================== decimals

inductive Sign
  | none
  | plus
  | minus
  deriving DecidableEq, Repr

def Sign.text : Sign → List UInt8
  | .none => []
  | .plus => [43]
  | .minus => [45]

/-- A decimal numeral whose value lies between `lo` and `hi`. -/
structure Decimal (lo hi : Int) where
  sign : Sign
  digits : List UInt8
  nonempty : digits ≠ []
  digit : ∀ d ∈ digits, isDigit d = true
  lower : lo ≤ signedVal (sign == .minus) digits
  upper : signedVal (sign == .minus) digits ≤ hi

def Decimal.text {lo hi : Int} (d : Decimal lo hi) : List UInt8 := d.sign.text ++ d.digits

def Decimal.value {lo hi : Int} (d : Decimal lo hi) : Int :=
  signedVal (d.sign == .minus) d.digits

-- ============================================================== skipping

/-- Within a text without the delimiter all characters asked for are
skipped. -/
theorem skipTo_drop {delim : UInt8} {t : List UInt8} (ht : delim ∉ t) (rest : List UInt8)
    {n : Nat} (hn : n ≤ t.length) :
    skipTo delim n (t ++ rest) = (t.drop n ++ rest, false) := by
  induction t generalizing n with
  | nil =>
      obtain rfl : n = 0 := Nat.le_zero.mp hn
      rfl
  | cons c t ih =>
      obtain ⟨hc, ht⟩ := not_or.mp (mt List.mem_cons.mpr ht)
      cases n with
      | zero => rfl
      | succ n => simpa [skipTo, Ne.symm hc] using ih ht (Nat.le_of_succ_le_succ hn)

/-- The delimiter is skipped and ends the skipping. -/
theorem skipTo_delim {delim : UInt8} {t : List UInt8} (ht : delim ∉ t) (rest : List UInt8)
    {n : Nat} (hn : t.length < n) :
    skipTo delim n (t ++ delim :: rest) = (rest, false) := by
  induction t generalizing n with
  | nil =>
      cases n with
      | zero => exact absurd hn (Nat.not_lt_zero _)
      | succ n => simp [skipTo]
  | cons c t ih =>
      obtain ⟨hc, ht⟩ := not_or.mp (mt List.mem_cons.mpr ht)
      cases n with
      | zero => exact absurd hn (Nat.not_lt_zero _)
      | succ n => simpa [skipTo, Ne.symm hc] using ih ht (Nat.lt_of_succ_lt_succ hn)

/-- Without a delimiter the skipping ends at the end of the text. -/
theorem skipTo_end {delim : UInt8} {t : List UInt8} (ht : delim ∉ t) {n : Nat}
    (hn : t.length < n) : skipTo delim n t = ([], true) := by
  induction t generalizing n with
  | nil =>
      cases n with
      | zero => exact absurd hn (Nat.not_lt_zero _)
      | succ n => rfl
  | cons c t ih =>
      obtain ⟨hc, ht⟩ := not_or.mp (mt List.mem_cons.mpr ht)
      cases n with
      | zero => exact absurd hn (Nat.not_lt_zero _)
      | succ n => simpa [skipTo, Ne.symm hc] using ih ht (Nat.lt_of_succ_lt_succ hn)

-- ====================================================== reading a decimal

/-- `rest` does not go on with a digit. -/
def NoDigit (rest : List UInt8) : Prop := ∀ c ∈ rest.head?, isDigit c = false

theorem NoDigit.takeWhile {rest : List UInt8} (h : NoDigit rest) :
    rest.takeWhile isDigit = [] := by
  cases rest with
  | nil => rfl
  | cons c cs => simp [h c rfl]

theorem NoDigit.dropWhile {rest : List UInt8} (h : NoDigit rest) :
    rest.dropWhile isDigit = rest := by
  cases rest with
  | nil => rfl
  | cons c cs => simp [h c rfl]

theorem not_isSign_of_isDigit {c : UInt8} (h : isDigit c = true) : isSign c = false := by
  simp only [isDigit, isSign, Bool.and_eq_true, decide_eq_true_eq, UInt8.le_iff_toNat_le,
    Bool.or_eq_false_iff, beq_eq_false_iff_ne, ne_eq, ← UInt8.toNat_inj] at h ⊢
  simp only [UInt8.reduceToNat] at h ⊢
  omega

theorem not_isSpace_of_isDigit {c : UInt8} (h : isDigit c = true) : isSpace c = false := by
  simp only [isDigit, isSpace, Bool.and_eq_true, decide_eq_true_eq, UInt8.le_iff_toNat_le,
    Bool.or_eq_false_iff, beq_eq_false_iff_ne, Bool.and_eq_false_iff, decide_eq_false_iff_not,
    ne_eq, ← UInt8.toNat_inj] at h ⊢
  simp only [UInt8.reduceToNat] at h ⊢
  omega

variable {lo hi : Int}

/-- The sign of a decimal is taken off. -/
theorem Decimal.takeSign_text (d : Decimal lo hi) (rest : List UInt8) :
    takeSign (d.text ++ rest) = (d.sign == .minus, d.digits ++ rest) := by
  cases hs : d.sign with
  | none =>
      cases hd : d.digits with
      | nil => exact absurd hd d.nonempty
      | cons c cs =>
          have hc : isSign c = false :=
            not_isSign_of_isDigit (d.digit c (by simp [hd]))
          simp [Decimal.text, Sign.text, takeSign, hs, hd, hc]
  | plus => simp [Decimal.text, Sign.text, takeSign, hs, isSign]
  | minus => simp [Decimal.text, Sign.text, takeSign, hs, isSign]

/-- A decimal is read up to its last digit. -/
theorem Decimal.scanInt_text (d : Decimal lo hi) {rest : List UInt8} (hr : NoDigit rest) :
    scanInt lo hi (d.text ++ rest) = (d.value, false, rest) := by
  have htake : (d.digits ++ rest).takeWhile isDigit = d.digits := by
    rw [List.takeWhile_append_of_pos d.digit, hr.takeWhile, List.append_nil]
  have hdrop : (d.digits ++ rest).dropWhile isDigit = rest := by
    rw [List.dropWhile_append_of_pos d.digit, hr.dropWhile]
  simp only [scanInt, d.takeSign_text, htake, hdrop]
  rw [if_neg d.nonempty, if_neg (Int.not_lt.mpr d.lower), if_neg (Int.not_lt.mpr d.upper)]
  rfl

/-- A decimal opens with something that is not white space. -/
theorem Decimal.text_eq_cons (d : Decimal lo hi) :
    ∃ c cs, d.text = c :: cs ∧ isSpace c = false := by
  cases hs : d.sign with
  | none =>
      cases hd : d.digits with
      | nil => exact absurd hd d.nonempty
      | cons c cs =>
          exact ⟨c, cs, by simp [Decimal.text, Sign.text, hs, hd],
            not_isSpace_of_isDigit (d.digit c (by simp [hd]))⟩
  | plus => exact ⟨43, d.digits, by simp [Decimal.text, Sign.text, hs], by decide⟩
  | minus => exact ⟨45, d.digits, by simp [Decimal.text, Sign.text, hs], by decide⟩

/-- `s >> x` where a decimal comes next, after white space or none. -/
theorem getInt_text {ws : List UInt8} (hws : ∀ c ∈ ws, isSpace c = true)
    (d : Decimal lo hi) {rest : List UInt8} (hr : NoDigit rest) (x : Option Int) :
    getInt lo hi ⟨ws ++ (d.text ++ rest), false, false⟩ x =
      (some d.value, ⟨rest, rest.isEmpty, false⟩) := by
  obtain ⟨c, cs, htext, hc⟩ := d.text_eq_cons
  have hsentry : sentry ⟨ws ++ (d.text ++ rest), false, false⟩ =
      ⟨d.text ++ rest, false, false⟩ := by
    simp [sentry, good, List.dropWhile_append_of_pos hws, htext, hc]
  simp only [getInt, hsentry, d.scanInt_text hr]
  simp [good]

/-- A decimal stands on one line. -/
theorem Decimal.not_newline (d : Decimal lo hi) : newline ∉ d.text := by
  intro h
  cases List.mem_append.mp h with
  | inl h => cases hs : d.sign <;> simp [hs, Sign.text, newline] at h
  | inr h => exact absurd (d.digit _ h) (by decide)

-- ===================================================== losing one's place

/-- `rest` ends the text, or opens a new line; and no number is the next
thing in it. -/
structure Fresh (rest : List UInt8) : Prop where
  head : ∀ c ∈ rest.head?, c = newline
  next : ∀ c ∈ (rest.dropWhile isSpace).head?, isDigit c = false ∧ isSign c = false

/-- Where the stream is: still before `rest`, or stopped by a failure
with something left, or at the end of the text, with nothing in
`rest`. -/
inductive Confined (rest : List UInt8) : IStream → Prop
  | before (t : List UInt8) (ht : newline ∉ t) : Confined rest ⟨t ++ rest, false, false⟩
  | lost (s : IStream) (hf : s.fail = true) (he : s.eof = false) : Confined rest s
  | ended (s : IStream) (he : s.eof = true) (hr : rest.dropWhile isSpace = []) :
      Confined rest s

/-- A new line does not begin with a digit. -/
theorem Fresh.noDigit {rest : List UInt8} (h : Fresh rest) : NoDigit rest := by
  intro c hc
  rw [h.head c hc]
  decide

/-- Looking for a sign does not leave the line. -/
theorem Fresh.takeSign {rest : List UInt8} (h : Fresh rest) {t : List UInt8}
    (ht : newline ∉ t) :
    ∃ b, newline ∉ b ∧ (IStream.takeSign (t ++ rest)).2 = b ++ rest := by
  cases t with
  | nil =>
      refine ⟨[], List.not_mem_nil, ?_⟩
      cases rest with
      | nil => rfl
      | cons c cs =>
          obtain rfl := h.head c rfl
          rfl
  | cons c t =>
      cases hc : isSign c with
      | true =>
          exact ⟨t, fun hmem => ht (List.mem_cons_of_mem c hmem),
            by simp [IStream.takeSign, hc]⟩
      | false => exact ⟨c :: t, ht, by simp [IStream.takeSign, hc]⟩

/-- What is left is the text behind the sign and the digits, in range or
not. -/
theorem scanInt_left (lo hi : Int) (cs : List UInt8) :
    (scanInt lo hi cs).2.2 = (takeSign cs).2.dropWhile isDigit := by
  unfold scanInt
  dsimp only
  split_ifs <;> rfl

/-- A number read before `rest` leaves `rest` whole. -/
theorem Fresh.scanInt {rest : List UInt8} (h : Fresh rest) {t : List UInt8}
    (ht : newline ∉ t) (lo hi : Int) :
    ∃ b, newline ∉ b ∧ (IStream.scanInt lo hi (t ++ rest)).2.2 = b ++ rest := by
  obtain ⟨b, hb, heq⟩ := h.takeSign ht
  refine ⟨b.dropWhile isDigit, fun hmem => hb ((List.dropWhile_sublist _).mem hmem), ?_⟩
  rw [scanInt_left, heq, List.dropWhile_append, h.noDigit.dropWhile]
  cases hd : b.dropWhile isDigit <;> rfl

/-- The stream after a number was looked for at `c :: cs`, what was left
of `t ++ rest` past its white space. -/
theorem confined_scan {rest : List UInt8} (hfresh : Fresh rest) {t cs : List UInt8}
    {c : UInt8} (ht : newline ∉ t) (hd : (t ++ rest).dropWhile isSpace = c :: cs)
    (lo hi : Int) :
    Confined rest ⟨(scanInt lo hi (c :: cs)).2.2, (scanInt lo hi (c :: cs)).2.2.isEmpty,
      (scanInt lo hi (c :: cs)).2.1⟩ := by
  rw [List.dropWhile_append] at hd
  cases hb : t.dropWhile isSpace with
  | nil =>
      -- the white space ran into `rest`, where no number is next
      have hrest : rest.dropWhile isSpace = c :: cs := by simpa [hb] using hd
      obtain ⟨hdig, hsign⟩ := hfresh.next c (by rw [hrest]; rfl)
      have hscan : scanInt lo hi (c :: cs) = (0, true, c :: cs) := by
        simp [scanInt, takeSign, hdig, hsign]
      rw [hscan]
      exact .lost _ rfl rfl
  | cons c' b =>
      have heq : c' :: b ++ rest = c :: cs := by simpa [hb] using hd
      have hnl : newline ∉ c' :: b := by
        rw [← hb]
        exact fun hmem => ht ((List.dropWhile_sublist _).mem hmem)
      obtain ⟨b', hb', hleft⟩ := hfresh.scanInt hnl lo hi
      rw [heq] at hleft
      rw [hleft]
      cases hempty : (b' ++ rest).isEmpty with
      | true =>
          have hrest : rest = [] := (List.append_eq_nil_iff.mp (by simpa using hempty)).2
          exact .ended _ rfl (by simp [hrest])
      | false =>
          cases hfail : (scanInt lo hi (c :: cs)).2.1 with
          | true => exact .lost _ rfl rfl
          | false => exact .before b' hb'

/-- Reading a number loses no more than the place in the text before
`rest`. -/
theorem Confined.getInt {rest : List UInt8} (hfresh : Fresh rest) {s : IStream}
    (h : Confined rest s) (lo hi : Int) (x : Option Int) :
    Confined rest (IStream.getInt lo hi s x).2 := by
  cases h with
  | lost _ hf he =>
      rw [getInt_of_not_good (by simp [good, hf])]
      exact .lost _ rfl he
  | ended _ he hr =>
      rw [getInt_of_not_good (by simp [good, he])]
      exact .ended _ he hr
  | before t ht =>
      cases hd : (t ++ rest).dropWhile isSpace with
      | nil =>
          have hs : sentry ⟨t ++ rest, false, false⟩ = ⟨[], true, true⟩ := by
            simp [sentry, good, hd]
          have hrest : rest.dropWhile isSpace = [] := by
            have hall := List.dropWhile_eq_nil_iff.mp hd
            exact List.dropWhile_eq_nil_iff.mpr fun c hc =>
              hall c (List.mem_append_right t hc)
          simp only [IStream.getInt, hs]
          exact .ended _ rfl hrest
      | cons c cs =>
          have hs : sentry ⟨t ++ rest, false, false⟩ = ⟨c :: cs, false, false⟩ := by
            simp [sentry, good, hd]
          simp only [IStream.getInt, hs]
          exact confined_scan hfresh ht hd lo hi

end IStream

end ThesisBench

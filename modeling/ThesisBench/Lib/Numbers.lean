/-
The numbers of a text, and texts of numbers.

`in >> x >> y >> ..` takes one integer after the other until there is
none, or one that does not fit. `numbers` lists what it gets: whatever a
loop over `>>` returns is a function of that list alone, and the list is
where the text and the loop meet. Texts that are printed number by
number, each followed by white space, give the numbers that were printed
(`numbers_spaced`).
-/
import ThesisBench.Lib.Digits
import ThesisBench.Lib.IStream

namespace ThesisBench.IStream

open Digits

-- =========================================================== the numbers

/-- `s >> x`, when that does not fail. -/
def next (lo hi : Int) (s : IStream) : Option (Int × IStream) :=
  let r := getInt lo hi s none
  if r.2.fail then none else r.1.map (·, r.2)

/-- The first `n` numbers of a stream, fewer when one is missing. -/
def takeNumbers (lo hi : Int) : Nat → IStream → List Int
  | 0, _ => []
  | n + 1, s =>
      match next lo hi s with
      | none => []
      | some (x, s') => x :: takeNumbers lo hi n s'

/-- The numbers up to the first place without one. -/
def numbers (lo hi : Int) (s : IStream) : List Int := takeNumbers lo hi s.rest.length s

variable {lo hi : Int} {s s' : IStream} {x : Int}

/-- The sentry only takes characters away. -/
theorem length_sentry_le (s : IStream) : s.sentry.rest.length ≤ s.rest.length := by
  unfold sentry
  split
  · have hle := (List.dropWhile_sublist isSpace (l := s.rest)).length_le
    cases hd : s.rest.dropWhile isSpace with
    | nil => exact Nat.zero_le _
    | cons c cs => rwa [hd] at hle
  · exact Nat.le_refl _

theorem length_takeSign_le (cs : List UInt8) : (takeSign cs).2.length ≤ cs.length := by
  cases cs with
  | nil => exact Nat.le_refl _
  | cons c cs => cases hc : isSign c <;> simp [takeSign, hc]

/-- A number that is read has a digit. -/
theorem length_scanInt_lt {cs : List UInt8} (h : (scanInt lo hi cs).2.1 = false) :
    (scanInt lo hi cs).2.2.length < cs.length := by
  have hdigits : (takeSign cs).2.takeWhile isDigit ≠ [] := by
    intro hnil
    simp [scanInt, hnil] at h
  have hpos := List.length_pos_iff.mpr hdigits
  have hsplit := congrArg List.length
    (List.takeWhile_append_dropWhile (p := isDigit) (l := (takeSign cs).2))
  rw [List.length_append] at hsplit
  have hsign := length_takeSign_le cs
  rw [scanInt_left]
  omega

/-- White space with nothing after it is a failure. -/
theorem fail_sentry (h : s.sentry.good = false) : s.sentry.fail = true := by
  cases hs : s.good with
  | false => rw [sentry_of_not_good hs]
  | true =>
      cases hd : s.rest.dropWhile isSpace with
      | nil => simp [sentry, hs, hd]
      | cons c cs =>
          have hgood : s.sentry = { s with rest := c :: cs } := by simp [sentry, hs, hd]
          rw [hgood] at h
          exact absurd (hs.symm.trans h) (by decide)

/-- A number that is read leaves a good stream with less in it, whatever
the variable held before. -/
theorem next_eq_some (h : next lo hi s = some (x, s')) :
    s'.fail = false ∧ s'.rest.length < s.rest.length ∧
      ∀ held, getInt lo hi s held = (some x, s') := by
  cases hgood : s.sentry.good with
  | false =>
      have hfail := fail_sentry hgood
      simp [next, getInt, hgood, hfail] at h
  | true =>
      have hget : ∀ held, getInt lo hi s held = getInt lo hi s none := by
        intro held
        simp [getInt, hgood]
      simp only [next, getInt, hgood, if_true, Option.ite_none_left_eq_some,
        Bool.not_eq_true, Option.map_some, Option.some.injEq, Prod.mk.injEq] at h
      obtain ⟨hfail, rfl, rfl⟩ := h
      refine ⟨hfail, ?_, fun held => ?_⟩
      · exact Nat.lt_of_lt_of_le (length_scanInt_lt hfail) (length_sentry_le s)
      · simp [getInt, hgood]

/-- Where there is no number the stream fails. -/
theorem next_eq_none (h : next lo hi s = none) (held : Option Int) :
    (getInt lo hi s held).2.fail = true := by
  cases hgood : s.sentry.good with
  | false => simpa [getInt, hgood] using fail_sentry hgood
  | true => simpa [next, getInt, hgood] using h

/-- A stream that has failed reads nothing more. -/
theorem getInt_of_fail (h : s.fail = true) (held : Option Int) :
    (getInt lo hi s held).2.fail = true := by
  rw [getInt_of_not_good (by simp [good, h])]

/-- A text has no more numbers than characters. -/
theorem takeNumbers_of_le {n : Nat} (hn : s.rest.length ≤ n) :
    takeNumbers lo hi n s = numbers lo hi s := by
  have hall : ∀ n m : Nat, ∀ s : IStream, s.rest.length ≤ n → s.rest.length ≤ m →
      takeNumbers lo hi n s = takeNumbers lo hi m s := by
    intro n
    induction n with
    | zero =>
        intro m s hn hm
        cases m with
        | zero => rfl
        | succ m =>
            cases hnext : next lo hi s with
            | none => simp [takeNumbers, hnext]
            | some r =>
                obtain ⟨x, s'⟩ := r
                have hlt := (next_eq_some hnext).2.1
                omega
    | succ n ih =>
        intro m s hn hm
        cases hnext : next lo hi s with
        | none => cases m <;> simp [takeNumbers, hnext]
        | some r =>
            obtain ⟨x, s'⟩ := r
            have hlt := (next_eq_some hnext).2.1
            cases m with
            | zero => omega
            | succ m =>
                simp only [takeNumbers, hnext]
                rw [ih m s' (by omega) (by omega)]
  exact hall n _ s hn (Nat.le_refl _)

theorem numbers_of_none (h : next lo hi s = none) : numbers lo hi s = [] := by
  unfold numbers
  cases s.rest.length <;> simp [takeNumbers, h]

/-- The numbers are the first one and those after it. -/
theorem numbers_of_some (h : next lo hi s = some (x, s')) :
    numbers lo hi s = x :: numbers lo hi s' := by
  have hlt := (next_eq_some h).2.1
  rw [← takeNumbers_of_le (Nat.le_succ _)]
  simp only [takeNumbers, h]
  rw [takeNumbers_of_le (Nat.le_of_lt hlt)]

/-- A stream without numbers does not begin with one. -/
theorem numbers_eq_nil (h : numbers lo hi s = []) : next lo hi s = none := by
  cases hnext : next lo hi s with
  | none => rfl
  | some r =>
      rw [numbers_of_some hnext] at h
      cases h

/-- A stream with numbers begins with the first. -/
theorem numbers_eq_cons {l : List Int} (h : numbers lo hi s = x :: l) :
    ∃ s', next lo hi s = some (x, s') ∧ numbers lo hi s' = l := by
  cases hnext : next lo hi s with
  | none =>
      rw [numbers_of_none hnext] at h
      cases h
  | some r =>
      rw [numbers_of_some hnext, List.cons.injEq] at h
      obtain ⟨rfl, htail⟩ := h
      exact ⟨r.2, rfl, htail⟩

-- ======================================================= printing numbers

/-- `out << x` for an integer -/
def intText (x : Int) : List UInt8 := (if x < 0 then [45] else []) ++ natText x.natAbs

theorem isDigit_natText (n : Nat) : ∀ c ∈ natText n, isDigit c = true := by
  intro c hc
  simpa only [isDigit, Bool.and_eq_true, decide_eq_true_eq, UInt8.le_iff_toNat_le,
    UInt8.reduceToNat] using mem_natText hc

/-- The digits have the value that was printed. -/
theorem digitsVal_natText (n : Nat) : digitsVal (natText n) = n := by
  unfold digitsVal
  simp only [Nat.mul_comm 10]
  exact foldl_natText n

theorem signedVal_natText (x : Int) :
    signedVal ((if x < 0 then Sign.minus else .none) == .minus) (natText x.natAbs) = x := by
  unfold signedVal
  rw [digitsVal_natText]
  by_cases hx : x < 0
  · rw [if_pos hx, if_pos (by decide)]
    omega
  · rw [if_neg hx, if_neg (by decide)]
    omega

/-- An integer in range, as it is printed. -/
def Decimal.ofInt (x : Int) (hlo : lo ≤ x) (hhi : x ≤ hi) : Decimal lo hi where
  sign := if x < 0 then .minus else .none
  digits := natText x.natAbs
  nonempty := natText_ne_nil _
  digit := isDigit_natText _
  lower := by rwa [signedVal_natText]
  upper := by rwa [signedVal_natText]

/-- The text of an integer is what is printed. -/
theorem Decimal.text_ofInt (hlo : lo ≤ x) (hhi : x ≤ hi) :
    (Decimal.ofInt x hlo hhi).text = intText x := by
  unfold Decimal.text Decimal.ofInt intText
  split <;> rfl

theorem Decimal.value_ofInt (hlo : lo ≤ x) (hhi : x ≤ hi) :
    (Decimal.ofInt x hlo hhi).value = x := signedVal_natText x

-- ======================================================== texts of numbers

/-- Numbers, each followed by one character. -/
def spaced (l : List (Int × UInt8)) : List UInt8 := l.flatMap fun e => intText e.1 ++ [e.2]

/-- White space before a number does not count. -/
theorem numbers_blank {c : UInt8} (hc : isSpace c = true) (cs : List UInt8) :
    numbers lo hi (ofText (c :: cs)) = numbers lo hi (ofText cs) := by
  have hsentry : (ofText (c :: cs)).sentry = (ofText cs).sentry := by
    simp [ofText, sentry, good, hc]
  have hnext : next lo hi (ofText (c :: cs)) = next lo hi (ofText cs) := by
    simp only [next, getInt, hsentry]
  cases h : next lo hi (ofText cs) with
  | none => rw [numbers_of_none h, numbers_of_none (hnext.trans h)]
  | some r => rw [numbers_of_some h, numbers_of_some (hnext.trans h)]

/-- A number that is printed is read. -/
theorem numbers_intText (hlo : lo ≤ x) (hhi : x ≤ hi) {c : UInt8} (hc : isDigit c = false)
    (cs : List UInt8) :
    numbers lo hi (ofText (intText x ++ c :: cs)) = x :: numbers lo hi (ofText (c :: cs)) := by
  have hr : NoDigit (c :: cs) := by
    rintro _ ⟨⟩
    exact hc
  have hws : ∀ c ∈ ([] : List UInt8), isSpace c = true := fun c hc => absurd hc List.not_mem_nil
  have hget := getInt_text hws (Decimal.ofInt x hlo hhi) hr none
  rw [List.nil_append, Decimal.text_ofInt, Decimal.value_ofInt] at hget
  refine numbers_of_some ?_
  unfold next
  rw [ofText, hget]
  rfl

theorem not_isDigit_of_isSpace {c : UInt8} (h : isSpace c = true) : isDigit c = false := by
  cases hd : isDigit c with
  | false => rfl
  | true =>
      rw [not_isSpace_of_isDigit hd] at h
      cases h

/-- Every number that is printed is read, and no other. -/
theorem numbers_spaced {l : List (Int × UInt8)}
    (hl : ∀ e ∈ l, lo ≤ e.1 ∧ e.1 ≤ hi ∧ isSpace e.2 = true) :
    numbers lo hi (ofText (spaced l)) = l.map Prod.fst := by
  induction l with
  | nil => rfl
  | cons e l ih =>
      obtain ⟨hlo, hhi, hspace⟩ := hl e List.mem_cons_self
      have htext : spaced (e :: l) = intText e.1 ++ e.2 :: spaced l := by simp [spaced]
      rw [htext, numbers_intText hlo hhi (not_isDigit_of_isSpace hspace), numbers_blank hspace,
        ih fun e' he' => hl e' (List.mem_cons_of_mem e he'), List.map_cons]

end ThesisBench.IStream

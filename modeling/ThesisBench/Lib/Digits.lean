/-
Texts of natural numbers, with the digits from `'0'` to `'9'`.

A text is read back by taking one digit after the other to its value
(`foldl_natText`); everything else that a reader asks of it is that it
has a digit and no other character.
-/
import Mathlib.Algebra.Ring.Nat
import Mathlib.Tactic.Common

namespace ThesisBench.Digits

/-- What `printf` and `<<` write for a number that is not negative. -/
def natText (n : Nat) : List UInt8 :=
  (Nat.toDigits 10 n).map fun c => UInt8.ofNat c.toNat

theorem toNat_digit {c : Char} (hc : c.isDigit = true) :
    48 ≤ c.toNat ∧ c.toNat ≤ 57 := by
  simp only [Char.isDigit, Bool.and_eq_true, decide_eq_true_eq, ge_iff_le,
    UInt32.le_iff_toNat_le] at hc
  exact hc

/-- The character of a digit is its byte. -/
theorem toNat_ofNat_digit {c : Char} (hc : c.isDigit = true) :
    (UInt8.ofNat c.toNat).toNat = c.toNat := by
  have hd := toNat_digit hc
  rw [UInt8.toNat_ofNat']
  exact Nat.mod_eq_of_lt (by omega)

/-- A text has only digits. -/
theorem mem_natText {n : Nat} {b : UInt8} (hb : b ∈ natText n) :
    48 ≤ b.toNat ∧ b.toNat ≤ 57 := by
  obtain ⟨c, hc, rfl⟩ := List.mem_map.mp hb
  have hd := Nat.isDigit_of_mem_toDigits (by decide) (by decide) hc
  rw [toNat_ofNat_digit hd]
  exact toNat_digit hd

theorem natText_ne_nil (n : Nat) : natText n ≠ [] := by
  rw [natText, Ne, List.map_eq_nil_iff]
  exact Nat.toDigits_ne_nil

/-- A text is read back as its number. -/
theorem foldl_natText (n : Nat) :
    (natText n).foldl (fun v b => v * 10 + (b.toNat - 48)) 0 = n := by
  have hfold : ∀ (l : List Char) (v : Nat), (∀ c ∈ l, c.isDigit = true) →
      (l.map fun c => UInt8.ofNat c.toNat).foldl (fun v b => v * 10 + (b.toNat - 48)) v
        = Nat.ofDigitChars 10 l v := by
    intro l
    induction l with
    | nil => exact fun v _ => rfl
    | cons c l ih =>
        intro v hl
        rw [List.map_cons, List.foldl_cons, ih _ fun c hc => hl c (List.mem_cons_of_mem _ hc),
          Nat.ofDigitChars_cons, toNat_ofNat_digit (hl c List.mem_cons_self), Nat.mul_comm v 10]
        rfl
  rw [natText, hfold _ 0 fun c hc =>
    Nat.isDigit_of_mem_toDigits (by decide) (by decide) hc]
  exact Nat.ofDigitChars_ten_toDigits

/-- A number below `10 ^ k` has at most `k` digits. -/
theorem length_natText_le {n k : Nat} (hk : 0 < k) (hn : n < 10 ^ k) :
    (natText n).length ≤ k := by
  rw [natText, List.length_map, Nat.length_toDigits_le_iff (by decide) hk]
  exact hn

end ThesisBench.Digits

import Mathlib.Data.List.Induction
import Mathlib.Order.Basic
import Mathlib.Tactic.Common

/-!
# Numerals

The number that a text of digits stands for, in a base of at most sixteen. Printing a number in
decimal and reading the digits back gives the number; a text without a leading zero is what is
printed for its number.

## Main definitions

* `Numerals.isDigit`, `Numerals.ofDigits`: the digits of a base, and the number of a text of them.
* `Numerals.IsNumeral`: one or more digits.
* `Numerals.Canonical`: no leading zero.

## Main results

* `Numerals.ofDigits_toDigits`: what is printed for a number reads as that number.
* `Numerals.toDigits_ofDigits`: a canonical decimal numeral is what is printed for its number.
-/

namespace Numerals

/-- The value of a hexadecimal digit, and `16` for every other character. -/
def digitValue (c : Char) : ℕ :=
  if '0' ≤ c ∧ c ≤ '9' then c.toNat - '0'.toNat
  else if 'a' ≤ c ∧ c ≤ 'f' then c.toNat - 'a'.toNat + 10
  else if 'A' ≤ c ∧ c ≤ 'F' then c.toNat - 'A'.toNat + 10
  else 16

/-- The character is a digit of the base. -/
def isDigit (base : ℕ) (c : Char) : Bool := digitValue c < base

/-- The number that a text of digits stands for, the most significant digit first. -/
def ofDigits (base : ℕ) (digits : List Char) : ℕ :=
  digits.foldl (fun n c => base * n + digitValue c) 0

/-- One or more digits of the base. -/
structure IsNumeral (base : ℕ) (digits : List Char) : Prop where
  ne_nil : digits ≠ []
  isDigit : ∀ c ∈ digits, Numerals.isDigit base c = true

/-- A text of digits with no leading zero, or the single digit `0`. -/
def Canonical (digits : List Char) : Prop := digits.head? = some '0' → digits = ['0']

instance decidableIsNumeral (base : ℕ) (digits : List Char) : Decidable (IsNumeral base digits) :=
  decidable_of_iff (digits ≠ [] ∧ digits.all (Numerals.isDigit base) = true)
    ⟨fun h => ⟨h.1, List.all_eq_true.mp h.2⟩, fun h => ⟨h.ne_nil, List.all_eq_true.mpr h.isDigit⟩⟩

instance decidableCanonical (digits : List Char) : Decidable (Canonical digits) :=
  inferInstanceAs (Decidable (digits.head? = some '0' → digits = ['0']))

variable {base n : ℕ} {c : Char} {digits : List Char}

theorem ofDigits_concat (base : ℕ) (digits : List Char) (c : Char) :
    ofDigits base (digits ++ [c]) = base * ofDigits base digits + digitValue c :=
  List.foldl_append

theorem digitValue_lt (h : isDigit base c = true) : digitValue c < base := of_decide_eq_true h

theorem digitValue_digitChar (h : n < 10) : digitValue n.digitChar = n := by
  have hall : ∀ m < 10, digitValue (Nat.digitChar m) = m := by decide
  exact hall n h

theorem isDigit_ten_iff : isDigit 10 c = true ↔ '0' ≤ c ∧ c ≤ '9' := by
  rw [isDigit, decide_eq_true_eq, digitValue]
  have hle : '0' ≤ c ∧ c ≤ '9' → c.toNat - '0'.toNat < 10 := by
    rintro ⟨-, h⟩
    have hc : c.toNat ≤ 57 := h
    have h0 : '0'.toNat = 48 := rfl
    omega
  split_ifs with h
  · exact iff_of_true (hle h) h
  · exact iff_of_false (by omega) h
  · exact iff_of_false (by omega) h
  · exact iff_of_false (by omega) h

/-- A decimal digit is the character that is printed for its value. -/
theorem digitChar_digitValue (h : isDigit 10 c = true) : (digitValue c).digitChar = c := by
  obtain ⟨h0, h9⟩ := isDigit_ten_iff.mp h
  have hlow : 48 ≤ c.toNat := h0
  have hhigh : c.toNat ≤ 57 := h9
  have hall : ∀ n ≤ 57, 48 ≤ n → (digitValue (Char.ofNat n)).digitChar = Char.ofNat n := by decide
  simpa only [Char.ofNat_toNat] using hall c.toNat hhigh hlow

theorem isDigit_of_mem_toDigits (h : c ∈ Nat.toDigits 10 n) : isDigit 10 c = true := by
  have hdigit : c.isDigit = true := Nat.isDigit_of_mem_toDigits (by decide) (Nat.le_refl 10) h
  rw [Char.isDigit, Bool.and_eq_true, decide_eq_true_eq, decide_eq_true_eq] at hdigit
  exact isDigit_ten_iff.mpr hdigit

theorem isNumeral_toDigits (n : ℕ) : IsNumeral 10 (Nat.toDigits 10 n) where
  ne_nil := Nat.toDigits_ne_nil
  isDigit _ := isDigit_of_mem_toDigits

/-- What is printed for a number reads as that number. -/
theorem ofDigits_toDigits (n : ℕ) : ofDigits 10 (Nat.toDigits 10 n) = n := by
  induction n using Nat.strongRecOn with
  | _ n ih =>
    rcases Nat.lt_or_ge n 10 with hlt | hge
    · rw [Nat.toDigits_of_lt_base hlt, ← List.nil_append [n.digitChar], ofDigits_concat,
        digitValue_digitChar hlt]
      exact Nat.zero_add n
    · rw [Nat.toDigits_of_base_le (by decide) hge, ofDigits_concat, ih (n / 10) (by omega),
        digitValue_digitChar (Nat.mod_lt n (by decide))]
      exact Nat.div_add_mod n 10

theorem head?_concat (h : digits ≠ []) (c : Char) : (digits ++ [c]).head? = digits.head? := by
  obtain ⟨d, digits, rfl⟩ := List.exists_cons_of_ne_nil h
  rfl

/-- A decimal numeral with no leading zero that is not `0` stands for a positive number. -/
theorem ofDigits_pos (hdigits : IsNumeral 10 digits) (hlead : digits.head? ≠ some '0') :
    0 < ofDigits 10 digits := by
  induction digits using List.reverseRecOn with
  | nil => exact absurd rfl hdigits.ne_nil
  | append_singleton digits c ih =>
    rw [ofDigits_concat]
    rcases eq_or_ne digits [] with rfl | hne
    · have hc : isDigit 10 c = true := hdigits.isDigit c (List.mem_singleton.mpr rfl)
      refine Nat.pos_of_ne_zero fun hzero => hlead ?_
      have hvalue : digitValue c = 0 := by omega
      rw [List.nil_append, List.head?_cons, ← digitChar_digitValue hc, hvalue]
      rfl
    · rw [head?_concat hne] at hlead
      have hpos := ih ⟨hne, fun d hd => hdigits.isDigit d (List.mem_append_left [c] hd)⟩ hlead
      omega

/-- A canonical decimal numeral is what is printed for its number. -/
theorem toDigits_ofDigits (hdigits : IsNumeral 10 digits) (hcanonical : Canonical digits) :
    Nat.toDigits 10 (ofDigits 10 digits) = digits := by
  induction digits using List.reverseRecOn with
  | nil => exact absurd rfl hdigits.ne_nil
  | append_singleton digits c ih =>
    have hc : isDigit 10 c = true :=
      hdigits.isDigit c (List.mem_append_right digits (List.mem_singleton.mpr rfl))
    rw [ofDigits_concat]
    rcases eq_or_ne digits [] with rfl | hne
    · have hzero : 10 * ofDigits 10 [] + digitValue c = digitValue c := Nat.zero_add _
      rw [hzero, Nat.toDigits_of_lt_base (digitValue_lt hc), digitChar_digitValue hc,
        List.nil_append]
    · have hlead : digits.head? ≠ some '0' := fun hhead => by
        have hone := hcanonical (by rw [head?_concat hne]; exact hhead)
        have hlength := congrArg List.length hone
        have hpos := List.length_pos_iff.mpr hne
        simp only [List.length_append, List.length_singleton] at hlength
        omega
      have hnumeral : IsNumeral 10 digits :=
        ⟨hne, fun d hd => hdigits.isDigit d (List.mem_append_left [c] hd)⟩
      rw [← Nat.toDigits_append_toDigits (by decide) (ofDigits_pos hnumeral hlead)
          (digitValue_lt hc), ih hnumeral fun h => absurd h hlead,
        Nat.toDigits_of_lt_base (digitValue_lt hc), digitChar_digitValue hc]

/-- No number is printed with a leading zero. -/
theorem canonical_toDigits (n : ℕ) : Canonical (Nat.toDigits 10 n) := by
  induction n using Nat.strongRecOn with
  | _ n ih =>
    rcases Nat.lt_or_ge n 10 with hlt | hge
    · rw [Nat.toDigits_of_lt_base hlt]
      intro hhead
      rw [Option.some.inj hhead]
    · intro hhead
      rw [Nat.toDigits_of_base_le (by decide) hge, head?_concat Nat.toDigits_ne_nil] at hhead
      have hzero : n / 10 = 0 := by
        rw [← ofDigits_toDigits (n / 10), ih (n / 10) (by omega) hhead]
        rfl
      omega

end Numerals

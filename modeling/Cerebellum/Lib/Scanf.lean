import Cerebellum.Lib.Numerals
import Mathlib.Algebra.Ring.Nat
import Mathlib.Data.List.TakeWhile

/-!
# Scanning integers with `sscanf`

`sscanf` of the C library for formats of `%u`, `%x` and ordinary characters. A conversion skips
white space and takes the longest text that can begin an integer in the format of `strtoul`: an
optional sign, for `%x` an optional `0x`, and digits. An ordinary character of the format stands
for itself. The input ends at its first null character.

`strtoul` answers with the largest `unsigned long`, of 64 bits, for numbers beyond it, and negates
the number after a minus sign; the 32 low bits of the answer are stored.

## Main definitions

* `Scanf.sscanf`: the answer of `sscanf` and the values that it stores.
* `Scanf.Item`: the text that one conversion takes, in its pieces.
* `Scanf.Reading`: a text that begins with items separated by a character.

## Main results

* `Scanf.scanItem_eq_ok_iff`: which text a conversion takes.
* `Scanf.Reading.scan_eq`, `Scanf.exists_reading`: a format of conversions and separators stores
  all its values if and only if the input begins with items so separated.
* `Scanf.Reading.unique`: in one way only.
-/

open Numerals

namespace Scanf

/-- `isspace`, in the C locale. -/
def isSpace (c : Char) : Bool := c = ' ' ∨ '\t' ≤ c ∧ c ≤ '\r'

/-- The two conversions: `%u` and `%x`. -/
inductive Conversion where
  | u
  | x
deriving DecidableEq

/-- The base of the numbers of a conversion. -/
def Conversion.base : Conversion → ℕ
  | .u => 10
  | .x => 16

/-- Why a directive fails: the input has ended, or it does not match. -/
inductive Failure where
  | input
  | matching
deriving DecidableEq

/-- The failure at a place where nothing of the input matches. -/
def failureAt (input : List Char) : Failure :=
  if input = [] ∨ input.head? = some '\x00' then .input else .matching

/-! ### One conversion -/

/-- The text that a conversion takes: white space, a sign, `0x`, and digits. -/
structure Item where
  space : List Char := []
  sign : List Char := []
  zeroX : List Char := []
  digits : List Char
deriving DecidableEq

/-- The text of an item. -/
def Item.text (item : Item) : List Char := item.space ++ item.sign ++ item.zeroX ++ item.digits

/-- The character is a sign. -/
def isSign (c : Char) : Bool := c = '+' ∨ c = '-'

/-- The character is the `x` of `0x`. -/
def isX (c : Char) : Bool := c = 'x' ∨ c = 'X'

/-- Split off a sign. -/
def splitSign : List Char → List Char × List Char
  | c :: input => if isSign c then ([c], input) else ([], c :: input)
  | [] => ([], [])

/-- Split off `0x`, for `%x`. -/
def splitZeroX (conv : Conversion) : List Char → List Char × List Char
  | z :: c :: input =>
    if conv = .x ∧ z = '0' ∧ isX c then ([z, c], input) else ([], z :: c :: input)
  | input => ([], input)

/-- The item that a conversion takes, and the input after it. A text that can only begin an
integer, as a sign alone does, is a matching failure. For `%x` so is `0x` without a digit behind it,
as the C standard has it; glibc takes the `0` for the integer and leaves the `x`. -/
def scanItem (conv : Conversion) (input : List Char) : Except Failure (Item × List Char) :=
  let space := input.takeWhile isSpace
  let input := input.dropWhile isSpace
  let (sign, input) := splitSign input
  let (zeroX, input) := splitZeroX conv input
  let digits := input.takeWhile (isDigit conv.base)
  if digits = [] then .error (if sign ++ zeroX = [] then failureAt input else .matching)
  else .ok ({ space, sign, zeroX, digits }, input.dropWhile (isDigit conv.base))

/-- The number of the digits of an item. -/
def Item.magnitude (conv : Conversion) (item : Item) : ℕ := ofDigits conv.base item.digits

/-- `strtoul` on an item. -/
def Item.strtoul (conv : Conversion) (item : Item) : UInt64 :=
  if 2 ^ 64 ≤ item.magnitude conv then UInt64.ofNat (2 ^ 64 - 1)
  else if item.sign = ['-'] then -UInt64.ofNat (item.magnitude conv)
  else UInt64.ofNat (item.magnitude conv)

/-- The value that is stored for an item. -/
def Item.stored (conv : Conversion) (item : Item) : UInt32 := (item.strtoul conv).toUInt32

/-! ### A format -/

/-- The directives of a format. -/
inductive Directive where
  | literal (c : Char)
  | convert (conv : Conversion)
deriving DecidableEq

/-- The directives of a format in which no white space occurs, and `%` in `%u` and `%x` only. -/
def directives : List Char → List Directive
  | '%' :: 'u' :: format => .convert .u :: directives format
  | '%' :: 'x' :: format => .convert .x :: directives format
  | c :: format => .literal c :: directives format
  | [] => []

/-- The values that the directives store until one of them fails, and its failure. -/
def scan : List Directive → List Char → List UInt32 × Option Failure
  | [], _ => ([], none)
  | .literal c :: format, input =>
    if input.head? = some c then scan format input.tail else ([], some (failureAt input))
  | .convert conv :: format, input =>
    match scanItem conv input with
    | .error failure => ([], some failure)
    | .ok (item, rest) => (item.stored conv :: (scan format rest).1, (scan format rest).2)

/-- `EOF`. -/
def eof : ℤ := -1

/-- `sscanf`: its answer, which is `EOF` when the input ends before the first conversion, and the
values that it stores. -/
def sscanf (input format : String) : ℤ × List UInt32 :=
  let (stored, failure) := scan (directives format.toList) input.toList
  (if stored = [] ∧ failure = some .input then eof else stored.length, stored)

example : sscanf "10.0.1.255" "%u.%u.%u.%u" = (4, [10, 0, 1, 255]) := by decide
example : sscanf " +1.-1.18446744073709551616" "%u.%u.%u" = (3, [1, 4294967295, 4294967295]) := by
  decide
example : sscanf "0xg" "%x" = (0, []) ∧ sscanf "" "%x" = (-1, []) := by decide

/-! ### The text that a conversion takes -/

/-- The pieces of an item are what a conversion can take. -/
structure Item.WellFormed (conv : Conversion) (item : Item) : Prop where
  space : ∀ c ∈ item.space, isSpace c = true
  sign : item.sign ∈ [[], ['+'], ['-']]
  zeroX : item.zeroX = [] ∨ conv = .x ∧ item.zeroX ∈ [['0', 'x'], ['0', 'X']]
  digits : IsNumeral conv.base item.digits

/-- The item can not be continued with the text after it: that does not begin with a digit, nor
with the `x` of `0x`. -/
def Item.StopsAt (conv : Conversion) (item : Item) (rest : List Char) : Prop :=
  ∀ c ∈ rest.head?, isDigit conv.base c = false ∧
    ¬ (conv = .x ∧ item.zeroX = [] ∧ item.digits = ['0'] ∧ isX c = true)

instance decidableWellFormed (conv : Conversion) (item : Item) :
    Decidable (item.WellFormed conv) :=
  decidable_of_iff (item.space.all isSpace = true ∧ item.sign ∈ [[], ['+'], ['-']] ∧
      (item.zeroX = [] ∨ conv = .x ∧ item.zeroX ∈ [['0', 'x'], ['0', 'X']]) ∧
      IsNumeral conv.base item.digits)
    ⟨fun h => ⟨List.all_eq_true.mp h.1, h.2.1, h.2.2.1, h.2.2.2⟩,
      fun h => ⟨List.all_eq_true.mpr h.space, h.sign, h.zeroX, h.digits⟩⟩

instance decidableStopsAt (conv : Conversion) (item : Item) (rest : List Char) :
    Decidable (item.StopsAt conv rest) :=
  Option.decidableForallMem rest.head?

variable {conv : Conversion} {item : Item} {input rest : List Char} {c : Char}

theorem isDigit_bounds (h : isDigit conv.base c = true) :
    '0' ≤ c ∧ c ≤ '9' ∨ 'a' ≤ c ∧ c ≤ 'f' ∨ 'A' ≤ c ∧ c ≤ 'F' := by
  have hbase : conv.base ≤ 16 := by cases conv <;> decide
  have hvalue : digitValue c < 16 := Nat.lt_of_lt_of_le (digitValue_lt h) hbase
  rw [digitValue] at hvalue
  split_ifs at hvalue with h0 ha hA
  · exact Or.inl h0
  · exact Or.inr (Or.inl ha)
  · exact Or.inr (Or.inr hA)
  · exact absurd hvalue (Nat.lt_irrefl 16)

theorem isSpace_of_isDigit (h : isDigit conv.base c = true) : isSpace c = false := by
  refine decide_eq_false ?_
  rintro (rfl | ⟨-, hr⟩)
  · exact absurd (isDigit_bounds h) (by decide)
  · have hlow : '0' ≤ c := by
      rcases isDigit_bounds h with h | h | h
      · exact h.1
      · exact Char.le_trans (by decide) h.1
      · exact Char.le_trans (by decide) h.1
    exact absurd (Char.le_trans hlow hr) (by decide)

theorem isSign_of_isDigit (h : isDigit conv.base c = true) : isSign c = false := by
  refine decide_eq_false ?_
  rintro (rfl | rfl)
  · exact absurd (isDigit_bounds h) (by decide)
  · exact absurd (isDigit_bounds h) (by decide)

theorem isX_of_isDigit (h : isDigit conv.base c = true) : isX c = false := by
  refine decide_eq_false ?_
  rintro (rfl | rfl)
  · exact absurd (isDigit_bounds h) (by decide)
  · exact absurd (isDigit_bounds h) (by decide)

theorem splitSign_append (input : List Char) :
    (splitSign input).1 ++ (splitSign input).2 = input := by
  cases input with
  | nil => rfl
  | cons c input =>
    rw [splitSign]
    split_ifs <;> rfl

theorem splitSign_fst_mem (input : List Char) : (splitSign input).1 ∈ [[], ['+'], ['-']] := by
  cases input with
  | nil => exact List.mem_cons_self
  | cons c input =>
    rw [splitSign]
    split_ifs with h
    · rcases of_decide_eq_true h with rfl | rfl
      · simp
      · simp
    · exact List.mem_cons_self

theorem splitSign_of_mem {sign : List Char} (hsign : sign ∈ [[], ['+'], ['-']])
    (hrest : ∀ c ∈ rest.head?, isSign c = false) : splitSign (sign ++ rest) = (sign, rest) := by
  simp only [List.mem_cons, List.not_mem_nil, or_false] at hsign
  rcases hsign with rfl | rfl | rfl
  · cases rest with
    | nil => rfl
    | cons c rest =>
      have hc : isSign c = false := hrest c rfl
      rw [List.nil_append, splitSign, if_neg (Bool.not_eq_true _ ▸ hc)]
  · rfl
  · rfl

theorem splitZeroX_append (conv : Conversion) (input : List Char) :
    (splitZeroX conv input).1 ++ (splitZeroX conv input).2 = input := by
  rcases input with _ | ⟨z, _ | ⟨c, input⟩⟩
  · rfl
  · rfl
  · rw [splitZeroX]
    split_ifs <;> rfl

theorem splitZeroX_fst (conv : Conversion) (input : List Char) :
    (splitZeroX conv input).1 = [] ∨
      conv = .x ∧ (splitZeroX conv input).1 ∈ [['0', 'x'], ['0', 'X']] := by
  rcases input with _ | ⟨z, _ | ⟨c, input⟩⟩
  · exact Or.inl rfl
  · exact Or.inl rfl
  · rw [splitZeroX]
    split_ifs with h
    · obtain ⟨hconv, rfl, hx⟩ := h
      rcases of_decide_eq_true hx with rfl | rfl
      · exact Or.inr ⟨hconv, by simp⟩
      · exact Or.inr ⟨hconv, by simp⟩
    · exact Or.inl rfl

/-- What begins with `0x` is split, for `%x`. -/
theorem splitZeroX_fst_ne_nil (hc : isX c = true) :
    (splitZeroX .x ('0' :: c :: input)).1 ≠ [] := by
  rw [splitZeroX, if_pos ⟨rfl, rfl, hc⟩]
  exact List.cons_ne_nil _ _

theorem takeWhile_append_of_head? {p : Char → Bool} {text : List Char} (htext : ∀ c ∈ text, p c)
    (hrest : ∀ c ∈ rest.head?, p c = false) : (text ++ rest).takeWhile p = text := by
  rw [List.takeWhile_append_of_pos htext]
  cases rest with
  | nil => rw [List.takeWhile_nil, List.append_nil]
  | cons c rest =>
    rw [List.takeWhile_cons_of_neg (Bool.not_eq_true _ ▸ hrest c rfl), List.append_nil]

theorem dropWhile_append_of_head? {p : Char → Bool} {text : List Char} (htext : ∀ c ∈ text, p c)
    (hrest : ∀ c ∈ rest.head?, p c = false) : (text ++ rest).dropWhile p = rest := by
  rw [List.dropWhile_append_of_pos htext]
  cases rest with
  | nil => rfl
  | cons c rest => exact List.dropWhile_cons_of_neg (Bool.not_eq_true _ ▸ hrest c rfl)

theorem Item.text_append (item : Item) (rest : List Char) :
    item.text ++ rest =
      item.space ++ (item.sign ++ (item.zeroX ++ (item.digits ++ rest))) := by
  simp only [Item.text, List.append_assoc]

theorem Item.WellFormed.exists_digit (h : item.WellFormed conv) :
    ∃ d ∈ item.digits.head?, isDigit conv.base d = true := by
  obtain ⟨d, digits, hdigits⟩ := List.exists_cons_of_ne_nil h.digits.ne_nil
  refine ⟨d, ?_, h.digits.isDigit d ?_⟩
  · rw [hdigits]
    rfl
  · rw [hdigits]
    exact List.mem_cons_self

/-- After the sign of an item comes a digit. -/
theorem Item.WellFormed.isDigit_head? (h : item.WellFormed conv) :
    ∀ c ∈ (item.zeroX ++ (item.digits ++ rest)).head?, isDigit conv.base c = true := by
  intro c hc
  rcases h.zeroX with hzeroX | ⟨rfl, hzeroX⟩
  · obtain ⟨d, hd, hdigit⟩ := h.exists_digit
    rw [hzeroX, List.nil_append, List.head?_append, hd, Option.some_or] at hc
    rw [← Option.some.inj hc]
    exact hdigit
  · simp only [List.mem_cons, List.not_mem_nil, or_false] at hzeroX
    rcases hzeroX with hzeroX | hzeroX
    · rw [hzeroX] at hc
      rw [← Option.some.inj hc]
      rfl
    · rw [hzeroX] at hc
      rw [← Option.some.inj hc]
      rfl

/-- The `0x` of an item is split off, and nothing where the item has none. -/
theorem Item.WellFormed.splitZeroX_eq (h : item.WellFormed conv) (hstops : item.StopsAt conv rest) :
    splitZeroX conv (item.zeroX ++ (item.digits ++ rest)) = (item.zeroX, item.digits ++ rest) := by
  rcases h.zeroX with hzeroX | ⟨rfl, hzeroX⟩
  · rw [hzeroX, List.nil_append]
    -- a text of digits begins with `0x` only if it is `0` and an `x` follows
    rcases hdigits : item.digits ++ rest with _ | ⟨z, _ | ⟨c, tail⟩⟩
    · rfl
    · rfl
    · rw [splitZeroX, if_neg]
      rintro ⟨hconv, rfl, hx⟩
      rcases hone : item.digits with _ | ⟨d, _ | ⟨e, digits⟩⟩
      · exact h.digits.ne_nil hone
      · rw [hone, List.cons_append, List.nil_append, List.cons.injEq] at hdigits
        obtain ⟨rfl, rfl⟩ := hdigits
        exact (hstops c rfl).2 ⟨hconv, hzeroX, hone, hx⟩
      · rw [hone, List.cons_append, List.cons_append, List.cons.injEq, List.cons.injEq] at hdigits
        obtain ⟨rfl, rfl, rfl⟩ := hdigits
        have hdigit : isDigit conv.base e = true := h.digits.isDigit e (by
          rw [hone]
          exact List.mem_cons_of_mem _ List.mem_cons_self)
        exact absurd hx (Bool.not_eq_true _ ▸ isX_of_isDigit hdigit)
  · simp only [List.mem_cons, List.not_mem_nil, or_false] at hzeroX
    rcases hzeroX with hzeroX | hzeroX
    · rw [hzeroX]
      rfl
    · rw [hzeroX]
      rfl

/-- A conversion takes a text of its pieces, as far as it goes. -/
theorem scanItem_text (h : item.WellFormed conv) (hstops : item.StopsAt conv rest) :
    scanItem conv (item.text ++ rest) = .ok (item, rest) := by
  have hdigit : ∀ c ∈ (item.zeroX ++ (item.digits ++ rest)).head?,
      isDigit conv.base c = true := h.isDigit_head?
  have hsign : ∀ c ∈ (item.zeroX ++ (item.digits ++ rest)).head?, isSign c = false :=
    fun c hc => isSign_of_isDigit (hdigit c hc)
  have hspace : ∀ c ∈ (item.sign ++ (item.zeroX ++ (item.digits ++ rest))).head?,
      isSpace c = false := by
    intro c hc
    have hmem := h.sign
    simp only [List.mem_cons, List.not_mem_nil, or_false] at hmem
    rcases hmem with hmem | hmem | hmem
    · rw [hmem, List.nil_append] at hc
      exact isSpace_of_isDigit (hdigit c hc)
    · rw [hmem] at hc
      rw [← Option.some.inj hc]
      decide
    · rw [hmem] at hc
      rw [← Option.some.inj hc]
      decide
  have hrest : ∀ c ∈ rest.head?, isDigit conv.base c = false := fun c hc => (hstops c hc).1
  rw [scanItem, Item.text_append]
  simp only [takeWhile_append_of_head? h.space hspace, dropWhile_append_of_head? h.space hspace,
    splitSign_of_mem h.sign hsign, h.splitZeroX_eq hstops,
    takeWhile_append_of_head? h.digits.isDigit hrest,
    dropWhile_append_of_head? h.digits.isDigit hrest, if_neg h.digits.ne_nil]

theorem mem_takeWhile {p : Char → Bool} (h : c ∈ input.takeWhile p) : p c = true := by
  induction input with
  | nil => cases h
  | cons d input ih =>
    rw [List.takeWhile_cons] at h
    split_ifs at h with hd
    · rcases List.mem_cons.mp h with rfl | h
      · exact hd
      · exact ih h
    · cases h

theorem of_mem_head?_dropWhile {p : Char → Bool} (h : c ∈ (input.dropWhile p).head?) :
    p c = false := by
  have hnot := List.head?_dropWhile_not p input
  rw [Option.mem_def.mp h] at hnot
  exact hnot

/-- What a conversion takes, and where it stops. -/
theorem scanItem_eq_ok_iff : scanItem conv input = .ok (item, rest) ↔
    input = item.text ++ rest ∧ item.WellFormed conv ∧ item.StopsAt conv rest := by
  constructor
  · intro h
    rw [scanItem] at h
    have hsign := splitSign_append (input.dropWhile isSpace)
    have hsignMem := splitSign_fst_mem (input.dropWhile isSpace)
    rcases hs₁ : splitSign (input.dropWhile isSpace) with ⟨sign, input₁⟩
    have hzeroX := splitZeroX_append conv input₁
    have hzeroXMem := splitZeroX_fst conv input₁
    have hsplit : ∀ c l, conv = .x → isX c = true → input₁ = '0' :: c :: l →
        (splitZeroX conv input₁).1 ≠ [] := by
      rintro c l rfl hc rfl
      exact splitZeroX_fst_ne_nil hc
    rcases hs₂ : splitZeroX conv input₁ with ⟨zeroX, input₂⟩
    rw [hs₁] at hsign hsignMem
    rw [hs₂] at hzeroX hzeroXMem hsplit
    simp only [hs₁, hs₂] at h
    split_ifs at h with hdigits
    obtain ⟨rfl, rfl⟩ := Prod.mk.inj (Except.ok.inj h)
    refine ⟨?_, ⟨fun c hc => mem_takeWhile hc, hsignMem, hzeroXMem, hdigits, fun c hc =>
      mem_takeWhile hc⟩, fun c hc => ⟨of_mem_head?_dropWhile hc, ?_⟩⟩
    · rw [Item.text_append, List.takeWhile_append_dropWhile, hzeroX, hsign,
        List.takeWhile_append_dropWhile]
    · rintro ⟨hconv, hnil, hone, hx⟩
      obtain ⟨l, hl⟩ : ∃ l, input₂.dropWhile (isDigit conv.base) = c :: l :=
        List.head?_eq_some_iff.mp hc
      replace hone : input₂.takeWhile (isDigit conv.base) = ['0'] := hone
      replace hnil : zeroX = [] := hnil
      have htail : input₂ = '0' :: c :: l := by
        rw [← List.takeWhile_append_dropWhile (p := isDigit conv.base) (l := input₂), hone, hl]
        rfl
      exact hsplit c l hconv hx (by rw [← hzeroX, hnil, htail]; rfl) hnil
  · rintro ⟨rfl, h, hstops⟩
    exact scanItem_text h hstops

/-! ### Conversions and separators -/

/-- The directives of `n` conversions with a character between them. -/
def separated (conv : Conversion) (sep : Char) : ℕ → List Directive
  | 0 => []
  | 1 => [.convert conv]
  | n + 2 => .convert conv :: .literal sep :: separated conv sep (n + 1)

/-- The input begins with the items, with the separator between them. -/
structure Reading (conv : Conversion) (sep : Char) (input : List Char) (items : List Item)
    (rest : List Char) : Prop where
  input_eq : input = [sep].intercalate (items.map Item.text) ++ rest
  wellFormed : ∀ item ∈ items, item.WellFormed conv
  stopsAt : ∀ item ∈ items.getLast?, item.StopsAt conv rest

instance decidableReading (conv : Conversion) (sep : Char) (input : List Char) (items : List Item)
    (rest : List Char) : Decidable (Reading conv sep input items rest) :=
  decidable_of_iff (input = [sep].intercalate (items.map Item.text) ++ rest ∧
      (∀ item ∈ items, item.WellFormed conv) ∧ ∀ item ∈ items.getLast?, item.StopsAt conv rest)
    ⟨fun h => ⟨h.1, h.2.1, h.2.2⟩, fun h => ⟨h.input_eq, h.wellFormed, h.stopsAt⟩⟩

variable {sep : Char} {items : List Item} {n : ℕ}

/-- Every item stops at a separator that is neither a digit nor an `x`. -/
theorem stopsAt_separator (hdigit : isDigit conv.base sep = false) (hx : isX sep = false)
    (item : Item) (rest : List Char) : item.StopsAt conv (sep :: rest) := by
  intro c hc
  obtain rfl : sep = c := Option.some.inj hc
  exact ⟨hdigit, fun h => absurd h.2.2.2 (Bool.not_eq_true _ ▸ hx)⟩

theorem Reading.nil_iff : Reading conv sep input [] rest ↔ input = rest :=
  ⟨fun h => h.input_eq, fun h => ⟨h, fun _ h => absurd h List.not_mem_nil, fun _ h => by cases h⟩⟩

theorem Reading.singleton_iff :
    Reading conv sep input [item] rest ↔ scanItem conv input = .ok (item, rest) := by
  rw [scanItem_eq_ok_iff]
  constructor
  · rintro ⟨heq, hwf, hstops⟩
    rw [List.map_singleton, List.intercalate_singleton] at heq
    exact ⟨heq, hwf item (List.mem_singleton.mpr rfl), hstops item rfl⟩
  · rintro ⟨heq, hwf, hstops⟩
    refine ⟨?_, fun i hi => ?_, fun i hi => ?_⟩
    · rw [List.map_singleton, List.intercalate_singleton]
      exact heq
    · rw [List.mem_singleton.mp hi]
      exact hwf
    · rw [← Option.some.inj hi]
      exact hstops

theorem Reading.cons_cons_iff (hsep : ∀ (item : Item) rest, item.StopsAt conv (sep :: rest))
    {item' : Item} :
    Reading conv sep input (item :: item' :: items) rest ↔
      ∃ tail, scanItem conv input = .ok (item, sep :: tail) ∧
        Reading conv sep tail (item' :: items) rest := by
  simp only [scanItem_eq_ok_iff]
  constructor
  · rintro ⟨heq, hwf, hstops⟩
    rw [List.map_cons, List.map_cons, List.intercalate_cons_cons, List.append_assoc,
      List.append_assoc] at heq
    refine ⟨_, ⟨heq, hwf item List.mem_cons_self, hsep item _⟩, rfl, fun i hi => ?_, hstops⟩
    exact hwf i (List.mem_cons_of_mem item hi)
  · rintro ⟨tail, ⟨heq, hwf, -⟩, htail, hwfs, hstops⟩
    refine ⟨?_, fun i hi => ?_, hstops⟩
    · rw [List.map_cons, List.map_cons, List.intercalate_cons_cons, List.append_assoc,
        List.append_assoc, heq, htail]
      rfl
    · rcases List.mem_cons.mp hi with rfl | hi
      · exact hwf
      · exact hwfs i hi

/-- Where the input begins with items so separated, all their values are stored. -/
theorem Reading.scan_eq (hsep : ∀ (item : Item) rest, item.StopsAt conv (sep :: rest))
    (h : Reading conv sep input items rest) :
    scan (separated conv sep items.length) input = (items.map (Item.stored conv), none) := by
  induction items generalizing input with
  | nil => rfl
  | cons item items ih =>
    cases items with
    | nil =>
      have hitem := Reading.singleton_iff.mp h
      simp only [List.length_singleton, separated, scan, hitem, List.map_singleton]
    | cons item' items =>
      obtain ⟨tail, hitem, htail⟩ := (Reading.cons_cons_iff hsep).mp h
      have hscan : scan (separated conv sep (items.length + 1)) tail = _ := ih htail
      simp only [List.length_cons, separated, scan, hitem, List.head?_cons, List.tail_cons,
        if_true, hscan, List.map_cons]

/-- A format of `n` conversions stores `n` values only where the input begins with `n` items so
separated. -/
theorem exists_reading (hsep : ∀ (item : Item) rest, item.StopsAt conv (sep :: rest))
    (h : (scan (separated conv sep n) input).1.length = n) :
    ∃ items rest, items.length = n ∧ Reading conv sep input items rest := by
  induction n generalizing input with
  | zero => exact ⟨[], input, rfl, Reading.nil_iff.mpr rfl⟩
  | succ n ih =>
    cases n with
    | zero =>
      cases hitem : scanItem conv input with
      | error failure =>
        simp only [separated, scan, hitem, List.length_nil] at h
        omega
      | ok taken => exact ⟨[taken.1], taken.2, rfl, Reading.singleton_iff.mpr hitem⟩
    | succ n =>
      cases hitem : scanItem conv input with
      | error failure =>
        simp only [separated, scan, hitem, List.length_nil] at h
        omega
      | ok taken =>
        obtain ⟨item, rest⟩ := taken
        simp only [separated, scan, hitem, List.length_cons] at h
        split_ifs at h with hhead
        · obtain ⟨tail, rfl⟩ := List.head?_eq_some_iff.mp hhead
          obtain ⟨items, rest, hlength, htail⟩ := ih (Nat.succ.inj h)
          obtain ⟨item', items, rfl⟩ := List.exists_cons_of_length_eq_add_one hlength
          exact ⟨item :: item' :: items, rest, congrArg (· + 1) hlength,
            (Reading.cons_cons_iff hsep).mpr ⟨tail, hitem, htail⟩⟩
        · simp only [List.length_nil] at h
          omega

/-- The input begins with a given number of items so separated in one way only. -/
theorem Reading.unique (hsep : ∀ (item : Item) rest, item.StopsAt conv (sep :: rest))
    {items' : List Item} {rest' : List Char} (h : Reading conv sep input items rest)
    (h' : Reading conv sep input items' rest') (hlength : items.length = items'.length) :
    items = items' ∧ rest = rest' := by
  induction items generalizing input items' with
  | nil =>
    obtain rfl := List.eq_nil_of_length_eq_zero hlength.symm
    exact ⟨rfl, (Reading.nil_iff.mp h).symm.trans (Reading.nil_iff.mp h')⟩
  | cons item items ih =>
    obtain ⟨item', items', rfl⟩ := List.exists_cons_of_length_eq_add_one hlength.symm
    cases items with
    | nil =>
      obtain rfl := List.eq_nil_of_length_eq_zero (Nat.succ.inj hlength).symm
      have heq := (Reading.singleton_iff.mp h).symm.trans (Reading.singleton_iff.mp h')
      obtain ⟨rfl, rfl⟩ := Prod.mk.inj (Except.ok.inj heq)
      exact ⟨rfl, rfl⟩
    | cons second items =>
      obtain ⟨second', items', rfl⟩ :=
        List.exists_cons_of_length_eq_add_one (Nat.succ.inj hlength).symm
      obtain ⟨tail, hitem, htail⟩ := (Reading.cons_cons_iff hsep).mp h
      obtain ⟨tail', hitem', htail'⟩ := (Reading.cons_cons_iff hsep).mp h'
      obtain ⟨rfl, heq⟩ := Prod.mk.inj (Except.ok.inj (hitem.symm.trans hitem'))
      obtain rfl : tail = tail' := List.tail_eq_of_cons_eq heq
      obtain ⟨hitems, hrest⟩ := ih htail htail' (Nat.succ.inj hlength)
      exact ⟨congrArg (item :: ·) hitems, hrest⟩

/-- The answer and the values of `sscanf` where the input begins with items so separated. -/
theorem Reading.sscanf_eq (hsep : ∀ (item : Item) rest, item.StopsAt conv (sep :: rest))
    {input format : String} (hformat : directives format.toList = separated conv sep items.length)
    (h : Reading conv sep input.toList items rest) :
    sscanf input format = ((items.length : ℤ), items.map (Item.stored conv)) := by
  have hne : ¬ (items.map (Item.stored conv) = [] ∧ (none : Option Failure) = some .input) :=
    fun h => by cases h.2
  simp only [sscanf, hformat, h.scan_eq hsep, if_neg hne, List.length_map]

/-- `sscanf` answers with the number of conversions only where the input begins with that many
items. -/
theorem exists_reading_of_sscanf (hsep : ∀ (item : Item) rest, item.StopsAt conv (sep :: rest))
    {input format : String} (hformat : directives format.toList = separated conv sep n)
    (h : (sscanf input format).1 = n) :
    ∃ items rest, items.length = n ∧ Reading conv sep input.toList items rest := by
  refine exists_reading hsep ?_
  simp only [sscanf, hformat] at h
  split_ifs at h
  · have heof : eof < 0 := by decide
    omega
  · exact Int.ofNat.inj h

/-- The value that is stored, as a number. -/
theorem Item.toNat_stored (conv : Conversion) (item : Item) :
    (item.stored conv).toNat =
      if 2 ^ 64 ≤ item.magnitude conv then 2 ^ 32 - 1
      else if item.sign = ['-'] then (2 ^ 64 - item.magnitude conv) % 2 ^ 32
      else item.magnitude conv % 2 ^ 32 := by
  rw [Item.stored, UInt64.toNat_toUInt32, Item.strtoul]
  split_ifs with hlarge hminus
  · rfl
  · have hlt : item.magnitude conv < 2 ^ 64 := Nat.not_le.mp hlarge
    rw [UInt64.toNat_neg, UInt64.toNat_ofNat_of_lt' hlt]
    exact Nat.mod_mod_of_dvd _ (by decide)
  · have hlt : item.magnitude conv < 2 ^ 64 := Nat.not_le.mp hlarge
    rw [UInt64.toNat_ofNat_of_lt' hlt]

end Scanf

import Mathlib.Logic.Function.Iterate
import Mathlib.Order.Basic

/-!
# Shift registers with feedback

A register of `w` bits is shifted down by one place, and the polynomial is added to it if the bit
that is shifted out was set. This is the step of a cyclic redundancy check over bits that are
reflected. It is linear in exclusive or, and injective if the highest bit of the polynomial is set,
because that bit tells whether the polynomial was added.

A byte is fed by adding it to the low bits of the register and shifting eight times. Feeding as many
bytes as fit into the register is adding all of them at once and shifting after that, so that
different strings of that length leave different registers, from any register to begin with and
whatever is fed before and after.

## Main definitions

* `ShiftRegister.shift`, `ShiftRegister.feed`: the register after one bit and after some bytes.
* `ShiftRegister.word`: bytes as one word, the lowest first.

## Main results

* `ShiftRegister.shift_injective`, `ShiftRegister.feed_left_injective`.
* `ShiftRegister.feed_eq`: feeding bytes one by one and all at once.
* `ShiftRegister.feed_window_injective`: what differs in a window of the register's width is told
  apart.
-/

namespace ShiftRegister

variable {w : ℕ} (poly : BitVec w)

/-- The register after one shift. -/
def shift (c : BitVec w) : BitVec w :=
  if c.getLsbD 0 then (c >>> 1) ^^^ poly else c >>> 1

/-- The register after some bytes. -/
def feed (c : BitVec w) (bytes : List (BitVec 8)) : BitVec w :=
  bytes.foldl (fun c b => (shift poly)^[8] (c ^^^ b.setWidth w)) c

/-- The word of some bytes, the first one in the lowest bits. -/
def word (w : ℕ) : List (BitVec 8) → BitVec w
  | [] => 0
  | b :: bytes => b.setWidth w ^^^ (word w bytes <<< 8)

variable {poly}

/-! ### Linearity -/

theorem xor_xor_xor_self (a b p : BitVec w) : (a ^^^ p) ^^^ (b ^^^ p) = a ^^^ b := by
  rw [BitVec.xor_assoc, BitVec.xor_comm b p, ← BitVec.xor_assoc p, BitVec.xor_self,
    BitVec.zero_xor]

theorem eq_of_xor_eq_zero {a b : BitVec w} (h : a ^^^ b = 0#w) : a = b := by
  have hcancel : a ^^^ b ^^^ b = b := by rw [h, BitVec.zero_xor]
  rwa [BitVec.xor_assoc, BitVec.xor_self, BitVec.xor_zero] at hcancel

theorem shift_xor (a b : BitVec w) : shift poly (a ^^^ b) = shift poly a ^^^ shift poly b := by
  unfold shift
  rw [BitVec.getLsbD_xor, BitVec.ushiftRight_xor_distrib]
  cases a.getLsbD 0 <;> cases b.getLsbD 0
  · rfl
  · exact BitVec.xor_assoc ..
  · simp only [Bool.true_xor, Bool.not_false, if_true, Bool.false_eq_true, if_false]
    rw [BitVec.xor_assoc, BitVec.xor_assoc, BitVec.xor_comm poly]
  · simp only [Bool.true_xor, Bool.not_true, if_true, Bool.false_eq_true, if_false]
    exact (xor_xor_xor_self _ _ _).symm

theorem shift_iterate_xor (n : ℕ) (a b : BitVec w) :
    (shift poly)^[n] (a ^^^ b) = (shift poly)^[n] a ^^^ (shift poly)^[n] b := by
  induction n generalizing a b with
  | zero => rfl
  | succ n ih => rw [Function.iterate_succ_apply, shift_xor, ih]; rfl

/-! ### Injectivity -/

/-- Only the register zero is shifted to zero: a polynomial that was added shows in the highest
bit. -/
theorem eq_zero_of_shift_eq_zero (hpoly : poly.msb = true) {c : BitVec w}
    (h : shift poly c = 0#w) : c = 0#w := by
  have hw : 0 < w := by
    by_contra hw
    obtain rfl : w = 0 := Nat.eq_zero_of_not_pos hw
    rw [BitVec.msb_of_zero_length rfl] at hpoly
    exact Bool.noConfusion hpoly
  unfold shift at h
  by_cases hlow : c.getLsbD 0 = true
  · rw [if_pos hlow] at h
    have hhigh := congrArg BitVec.msb (eq_of_xor_eq_zero h)
    rw [hpoly, BitVec.msb_ushiftRight] at hhigh
    exact absurd hhigh (by simp)
  · rw [if_neg hlow] at h
    refine BitVec.eq_of_getLsbD_eq fun i hi => ?_
    cases i with
    | zero => rwa [BitVec.getLsbD_zero, ← Bool.not_eq_true]
    | succ i =>
      have hbit := congrArg (fun c => c.getLsbD i) h
      rw [Nat.add_comm]
      simpa using hbit

theorem shift_injective (hpoly : poly.msb = true) : Function.Injective (shift poly) := by
  intro a b h
  refine eq_of_xor_eq_zero (eq_zero_of_shift_eq_zero hpoly ?_)
  rw [shift_xor, h, BitVec.xor_self]

theorem xor_right_injective (b : BitVec w) : Function.Injective fun c : BitVec w => c ^^^ b := by
  intro a a' h
  refine eq_of_xor_eq_zero ?_
  have hxor : (a ^^^ b) ^^^ (a' ^^^ b) = 0#w := by
    rw [show a ^^^ b = a' ^^^ b from h]
    exact BitVec.xor_self
  rwa [xor_xor_xor_self] at hxor

/-- Different registers stay different, whatever is fed. -/
theorem feed_left_injective (hpoly : poly.msb = true) (bytes : List (BitVec 8)) :
    Function.Injective fun c => feed poly c bytes := by
  induction bytes with
  | nil => exact fun _ _ h => h
  | cons b bytes ih =>
    exact ih.comp (((shift_injective hpoly).iterate 8).comp (xor_right_injective _))

/-! ### Bytes as one word -/

/-- The bits of a word beyond its bytes are clear. -/
theorem getLsbD_word {bytes : List (BitVec 8)} {i : ℕ} (h : 8 * bytes.length ≤ i) :
    (word w bytes).getLsbD i = false := by
  induction bytes generalizing i with
  | nil => exact BitVec.getLsbD_zero
  | cons b bytes ih =>
    rw [List.length_cons] at h
    rw [word, BitVec.getLsbD_xor, BitVec.getLsbD_setWidth, BitVec.getLsbD_shiftLeft,
      ih (show 8 * bytes.length ≤ i - 8 by omega), BitVec.getLsbD_of_ge b i (by omega)]
    simp

/-- A register whose low bit is clear just moves down. -/
theorem shift_iterate_shiftLeft (c : BitVec w) (n : ℕ) (h : ∀ i, w ≤ i + n → c.getLsbD i = false) :
    (shift poly)^[n] (c <<< n) = c := by
  induction n with
  | zero => exact BitVec.shiftLeft_zero c
  | succ n ih =>
    have hlow : (c <<< (n + 1)).getLsbD 0 = false := by simp
    have hdown : (c <<< (n + 1)) >>> 1 = c <<< n := by
      refine BitVec.eq_of_getLsbD_eq fun i hi => ?_
      simp only [BitVec.getLsbD_ushiftRight, BitVec.getLsbD_shiftLeft]
      by_cases hlt : 1 + i < w
      · have hn : (1 + i < n + 1) ↔ i < n := by omega
        have hsub : 1 + i - (n + 1) = i - n := by omega
        simp only [hlt, hi, hn, hsub]
      · by_cases hin : i < n
        · simp [hlt, hin]
        · simp [hlt, h (i - n) (by omega)]
    have hstep : shift poly (c <<< (n + 1)) = c <<< n := by
      rw [shift, hlow, hdown]
      rfl
    rw [Function.iterate_succ_apply, hstep]
    exact ih fun i hi => h i (by omega)

/-- Feeding as many bytes as fit into the register is adding them all and shifting after that. -/
theorem feed_eq {bytes : List (BitVec 8)} (h : 8 * bytes.length ≤ w) (c : BitVec w) :
    feed poly c bytes = (shift poly)^[8 * bytes.length] (c ^^^ word w bytes) := by
  induction bytes generalizing c with
  | nil => exact BitVec.xor_zero.symm
  | cons b bytes ih =>
    rw [List.length_cons] at h
    have hword : (shift poly)^[8] (word w bytes <<< 8) = word w bytes :=
      shift_iterate_shiftLeft _ _ fun i hi => getLsbD_word (by omega)
    have hhead : feed poly c (b :: bytes) =
        feed poly ((shift poly)^[8] (c ^^^ b.setWidth w)) bytes := rfl
    rw [hhead, ih (by omega), List.length_cons, Nat.mul_succ, Function.iterate_add_apply, word,
      ← BitVec.xor_assoc, shift_iterate_xor 8 _ (word w bytes <<< 8), hword]

/-- Bytes that fit into the register can be read off their word. -/
theorem word_injective {bytes bytes' : List (BitVec 8)} (hlength : bytes.length = bytes'.length)
    (h : 8 * bytes.length ≤ w) (heq : word w bytes = word w bytes') : bytes = bytes' := by
  induction bytes generalizing bytes' with
  | nil => exact (List.length_eq_zero_iff.mp hlength.symm).symm
  | cons b bytes ih =>
    cases bytes' with
    | nil => exact absurd hlength (Nat.succ_ne_zero _)
    | cons b' bytes' =>
      rw [List.length_cons] at h
      have hlength' : bytes.length = bytes'.length := Nat.succ.inj hlength
      have hbit (i : ℕ) := congrArg (fun c => c.getLsbD i) heq
      simp only [word, BitVec.getLsbD_xor, BitVec.getLsbD_setWidth, BitVec.getLsbD_shiftLeft]
        at hbit
      have hb : b = b' := by
        refine BitVec.eq_of_getLsbD_eq fun i hi => ?_
        simpa [hi, show i < w by omega] using hbit i
      have hrest : word w bytes = word w bytes' := by
        refine BitVec.eq_of_getLsbD_eq fun i hi => ?_
        by_cases hlt : i + 8 < w
        · have hnext := hbit (i + 8)
          rw [BitVec.getLsbD_of_ge b _ (by omega), BitVec.getLsbD_of_ge b' _ (by omega)] at hnext
          simpa [hlt, show ¬ i + 8 < 8 by omega] using hnext
        · rw [getLsbD_word (by omega), getLsbD_word (by omega)]
      rw [hb, ih hlength' (by omega) hrest]

/-- Two strings that differ in a window of the register's width only leave different registers. -/
theorem feed_window_injective (hpoly : poly.msb = true) (c : BitVec w)
    (before after : List (BitVec 8)) {bytes bytes' : List (BitVec 8)}
    (hlength : bytes.length = bytes'.length) (h : 8 * bytes.length ≤ w)
    (heq : feed poly c (before ++ bytes ++ after) = feed poly c (before ++ bytes' ++ after)) :
    bytes = bytes' := by
  have happend (l l' : List (BitVec 8)) (c : BitVec w) :
      feed poly c (l ++ l') = feed poly (feed poly c l) l' := List.foldl_append
  rw [happend, happend, happend, happend] at heq
  have hwindow := feed_left_injective hpoly after heq
  have h' : 8 * bytes'.length ≤ w := by rwa [← hlength]
  simp only [feed_eq h, feed_eq h', ← hlength] at hwindow
  have hsum := (shift_injective hpoly).iterate _ hwindow
  rw [BitVec.xor_comm, BitVec.xor_comm _ (word w bytes')] at hsum
  exact word_injective hlength h (xor_right_injective _ hsum)

end ShiftRegister

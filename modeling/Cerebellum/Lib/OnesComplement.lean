import Cerebellum.Lib.Bytes

/-!
# Sums in ones' complement

The checksum of a byte string is the complement of the sum of its 16-bit words in ones' complement
arithmetic, where a carry out of the highest bit is added to the lowest one. Zero has two
representations, all bits zero and all bits one: a sum folds to `0` only if all words are zero, and
to `0xFFFF` if it is another multiple of `65535`. A byte string whose checksum is stored in one of
its words verifies: the sum over it folds to `0xFFFF`.

## Main definitions

* `OnesComplement.fold`, `OnesComplement.checksum`, `OnesComplement.Verifies`.
* `Bytes.wordSum`: the sum of the words of a part of the memory.

## Main results

* `OnesComplement.verifies_iff`: which sums verify.
* `OnesComplement.verifies_add_checksum`: adding its checksum makes a sum verify.
* `Bytes.wordSum_writeBE`: what a word that is written does to the sum.
-/

namespace OnesComplement

/-- The carries beyond 16 bits are added to the low 16 bits, until there are none. -/
def fold (n : ℕ) : ℕ :=
  if n < 2 ^ 16 then n else fold (n / 2 ^ 16 + n % 2 ^ 16)

/-- The complement of the folded sum. -/
def checksum (sum : ℕ) : ℕ := 0xFFFF - fold sum

/-- The sum over data that includes its checksum is that of all bits one. -/
def Verifies (sum : ℕ) : Prop := fold sum = 0xFFFF

theorem fold_lt (n : ℕ) : fold n < 2 ^ 16 := by
  induction n using fold.induct with
  | case1 n h => rwa [fold, if_pos h]
  | case2 n h ih => rwa [fold, if_neg h]

theorem fold_modEq (n : ℕ) : fold n ≡ n [MOD 0xFFFF] := by
  induction n using fold.induct with
  | case1 n h => rw [fold, if_pos h]
  | case2 n h ih =>
    rw [fold, if_neg h]
    refine ih.trans ?_
    -- a carry counts `2 ^ 16`, which is one more than the modulus
    rw [Nat.ModEq]
    omega

theorem fold_eq_zero_iff {n : ℕ} : fold n = 0 ↔ n = 0 := by
  induction n using fold.induct with
  | case1 n h => rw [fold, if_pos h]
  | case2 n h ih =>
    rw [fold, if_neg h, ih]
    omega

/-- The sums that verify are the multiples of `65535`, except that of words that are all zero. -/
theorem verifies_iff {sum : ℕ} : Verifies sum ↔ sum ≠ 0 ∧ 0xFFFF ∣ sum := by
  have hlt := fold_lt sum
  have hmod := fold_modEq sum
  have hzero := fold_eq_zero_iff (n := sum)
  rw [Nat.ModEq] at hmod
  rw [Verifies]
  omega

theorem verifies_add_checksum (sum : ℕ) : Verifies (sum + checksum sum) := by
  have hlt := fold_lt sum
  have hmod := fold_modEq sum
  have hzero := fold_eq_zero_iff (n := sum)
  rw [Nat.ModEq] at hmod
  rw [verifies_iff, checksum]
  omega

/-- The other zero serves as well as a checksum that is zero. -/
theorem verifies_add_of_checksum_eq_zero {sum : ℕ} (h : checksum sum = 0) :
    Verifies (sum + 0xFFFF) := by
  have hverifies := verifies_add_checksum sum
  rw [h, verifies_iff] at hverifies
  rw [verifies_iff]
  omega

theorem checksum_lt (sum : ℕ) : checksum sum < 2 ^ 16 := by
  rw [checksum]
  omega

end OnesComplement

namespace Bytes

variable {mem mem' : Memory} {off len i v : ℕ}

/-- The sum of the 16-bit words of `len` bytes, with a zero byte behind the last one if their number
is odd. -/
def wordSum (mem : Memory) : ℕ → ℕ → ℕ
  | _, 0 => 0
  | off, 1 => (mem off).toNat * 256
  | off, len + 2 => readBE mem off 2 + wordSum mem (off + 2) len

theorem wordSum_congr (h : ∀ i, off ≤ i → i < off + len → mem i = mem' i) :
    wordSum mem off len = wordSum mem' off len := by
  induction off, len using wordSum.induct with
  | case1 off => rfl
  | case2 off => rw [wordSum, wordSum, h off le_rfl (Nat.lt_succ_self off)]
  | case3 off len ih =>
    rw [wordSum, wordSum, ih fun i hi hi' => h i (by omega) (by omega),
      readBE_congr fun i hi hi' => h i hi (by omega)]

/-- A word that is written takes the place of the word that was there. -/
theorem wordSum_writeBE (hi : 2 * i + 2 ≤ len) :
    wordSum (writeBE mem (off + 2 * i) 2 v) off len + readBE mem (off + 2 * i) 2 =
      wordSum mem off len + v % 256 ^ 2 := by
  induction i generalizing off len with
  | zero =>
    obtain ⟨len, rfl⟩ := Nat.exists_eq_add_of_le' hi
    have hrest : wordSum (writeBE mem off 2 v) (off + 2) len = wordSum mem (off + 2) len :=
      wordSum_congr fun j hj _ => writeBE_of_notMem (.inr hj)
    rw [Nat.mul_zero, Nat.add_zero, wordSum, wordSum, hrest, readBE_writeBE]
    omega
  | succ i ih =>
    obtain ⟨len, rfl⟩ := Nat.exists_eq_add_of_le' (show 2 ≤ len by omega)
    have hfirst : readBE (writeBE mem (off + 2 * (i + 1)) 2 v) off 2 = readBE mem off 2 :=
      readBE_congr fun j _ hj => writeBE_of_notMem (by omega)
    have hrest : wordSum (writeBE mem (off + 2 + 2 * i) 2 v) (off + 2) len +
        readBE mem (off + 2 + 2 * i) 2 = wordSum mem (off + 2) len + v % 256 ^ 2 := ih (by omega)
    have hoff : off + 2 + 2 * i = off + 2 * (i + 1) := by omega
    rw [hoff] at hrest
    rw [wordSum, wordSum, hfirst]
    omega

/-- A word that is written where a zero was is added to the sum. -/
theorem wordSum_writeBE_of_eq_zero (hi : 2 * i + 2 ≤ len) (hv : v < 256 ^ 2)
    (hzero : readBE mem (off + 2 * i) 2 = 0) :
    wordSum (writeBE mem (off + 2 * i) 2 v) off len = wordSum mem off len + v := by
  have hsum : wordSum (writeBE mem (off + 2 * i) 2 v) off len + readBE mem (off + 2 * i) 2 =
      wordSum mem off len + v % 256 ^ 2 := wordSum_writeBE hi
  rwa [hzero, Nat.mod_eq_of_lt hv] at hsum

end Bytes

import Mathlib.Data.Nat.ModEq
import Mathlib.Logic.Function.Basic
import Mathlib.Tactic.Common

/-!
# Numbers and byte strings in memory

A memory is a function from addresses to bytes. `readBE` and `writeBE` read and write a number of
`k` bytes at an address, the most significant byte first; `blit` copies a byte string. What is
written is read back, and nothing else changes.

## Main definitions

* `Bytes.readBE`, `Bytes.writeBE`, `Bytes.readBytes`, `Bytes.blit`.

## Main results

* `Bytes.readBE_writeBE`: a number that is written is read back, reduced to its width.
* `Bytes.readBE_congr`: reading depends on the bytes in range only.
* `Bytes.writeBE_of_notMem`, `Bytes.blit_of_notMem`: writing changes the bytes in range only.
-/

namespace Bytes

/-- The byte at each address. -/
abbrev Memory := ℕ → UInt8

variable {mem mem' : Memory} {off k v i : ℕ}

/-- The number in the `k` bytes at `off`, the most significant byte first. -/
def readBE (mem : Memory) (off : ℕ) : ℕ → ℕ
  | 0 => 0
  | k + 1 => readBE mem off k * 256 + (mem (off + k)).toNat

/-- Write the `k` low bytes of `v` at `off`, the most significant byte first. -/
def writeBE (mem : Memory) (off : ℕ) : ℕ → ℕ → Memory
  | 0, _ => mem
  | k + 1, v => Function.update (writeBE mem off k (v / 256)) (off + k) (UInt8.ofNat v)

theorem readBE_congr (h : ∀ i, off ≤ i → i < off + k → mem i = mem' i) :
    readBE mem off k = readBE mem' off k := by
  induction k with
  | zero => rfl
  | succ k ih =>
    rw [readBE, readBE, ih fun i hi hik => h i hi (by omega), h (off + k) (by omega) (by omega)]

theorem writeBE_of_notMem (h : i < off ∨ off + k ≤ i) : writeBE mem off k v i = mem i := by
  induction k generalizing v with
  | zero => rfl
  | succ k ih =>
    rw [writeBE, Function.update_of_ne (by omega)]
    exact ih (by omega)

/-- A number that is written is read back, reduced to its width. -/
theorem readBE_writeBE (mem : Memory) (off k v : ℕ) :
    readBE (writeBE mem off k v) off k = v % 256 ^ k := by
  induction k generalizing v with
  | zero => rw [readBE, Nat.pow_zero, Nat.mod_one]
  | succ k ih =>
    have hlow : readBE (writeBE mem off (k + 1) v) off k =
        readBE (writeBE mem off k (v / 256)) off k :=
      readBE_congr fun i hi hik => Function.update_of_ne (by omega) _ _
    have hsplit : v % 256 ^ (k + 1) = v % 256 + 256 * (v / 256 % 256 ^ k) := by
      rw [Nat.pow_succ', Nat.mod_mul]
    rw [readBE, hlow, ih, writeBE, Function.update_self, UInt8.toNat_ofNat', hsplit]
    omega

/-- The `k` bytes at `off`. -/
def readBytes (mem : Memory) (off k : ℕ) (j : Fin k) : UInt8 := mem (off + j)

/-- Copy `k` bytes to `off`. -/
def blit (mem : Memory) (off : ℕ) {k : ℕ} (bytes : Fin k → UInt8) : Memory := fun i =>
  if h : off ≤ i ∧ i < off + k then bytes ⟨i - off, by omega⟩ else mem i

theorem blit_of_notMem (bytes : Fin k → UInt8) (h : i < off ∨ off + k ≤ i) :
    blit mem off bytes i = mem i :=
  dif_neg (by omega)

theorem readBytes_blit (mem : Memory) (off : ℕ) (bytes : Fin k → UInt8) :
    readBytes (blit mem off bytes) off k = bytes := by
  funext j
  have hj : off ≤ off + j.val ∧ off + j.val < off + k := by omega
  rw [readBytes, blit, dif_pos hj]
  congr 1
  exact Fin.ext (by simp)

theorem readBytes_congr (h : ∀ i, off ≤ i → i < off + k → mem i = mem' i) :
    readBytes mem off k = readBytes mem' off k := by
  funext j
  exact h _ (by omega) (by omega)

end Bytes

import Cerebellum.Lib.Bytes
import Mathlib.Data.List.GetD

/-!
# Byte strings with checked access

A byte string is a memory that ends. `read?` and `write?` access the `k` bytes at an offset as the
functions on memories do, and fail when these are not all inside the string. A chain of checked
writes that does not fail does to the string what the unchecked chain does to the memory.

## Main definitions

* `Bytes.toMemory`: a byte string as a memory.
* `Bytes.read?`, `Bytes.write?`: the checked accesses.
* `Bytes.Performs`: a checked computation that succeeds with a given memory.

## Main results

* `Bytes.performs_write?`, `Bytes.Performs.bind`: the rules for chains of writes.
-/

namespace Bytes

variable {α : Type*} {bytes : List UInt8} {off k len : ℕ} {mem mem' : Memory}

/-- A byte string as a memory, with zeros behind its end. -/
def toMemory (bytes : List UInt8) : Memory := fun i => bytes.getD i 0

/-- Read the `k` bytes at `off`; reading behind the end is an error. -/
def read? (bytes : List UInt8) (off k : ℕ) (read : Memory → α) : Option α :=
  if off + k ≤ bytes.length then some (read (toMemory bytes)) else none

/-- Write the `k` bytes at `off`; writing behind the end is an error. -/
def write? (bytes : List UInt8) (off k : ℕ) (write : Memory → Memory) : Option (List UInt8) :=
  if off + k ≤ bytes.length then some ((List.range bytes.length).map (write (toMemory bytes)))
  else none

/-- The computation succeeds, with a string of the given length and contents. -/
def Performs (o : Option (List UInt8)) (len : ℕ) (mem : Memory) : Prop :=
  ∃ bytes, o = some bytes ∧ bytes.length = len ∧ toMemory bytes = mem

theorem read?_of_le (h : off + k ≤ bytes.length) (read : Memory → α) :
    read? bytes off k read = some (read (toMemory bytes)) := if_pos h

theorem read?_eq_some_iff {read : Memory → α} {x : α} :
    read? bytes off k read = some x ↔ off + k ≤ bytes.length ∧ read (toMemory bytes) = x := by
  rw [read?, Option.ite_none_right_eq_some, Option.some.injEq]

/-- A write inside the string, which changes nothing behind the bytes it is for. -/
theorem performs_write? (h : off + k ≤ bytes.length) {write : Memory → Memory}
    (hwrite : ∀ i, off + k ≤ i → write (toMemory bytes) i = toMemory bytes i) :
    Performs (write? bytes off k write) bytes.length (write (toMemory bytes)) := by
  refine ⟨_, if_pos h, by rw [List.length_map, List.length_range], ?_⟩
  funext i
  rcases lt_or_ge i bytes.length with hi | hi
  · rw [toMemory, List.getD_eq_getElem _ _ (by simpa using hi), List.getElem_map,
      List.getElem_range]
  · rw [hwrite i (by omega), toMemory, toMemory, List.getD_eq_default _ _ (by simpa using hi),
      List.getD_eq_default _ _ hi]

theorem Performs.bind {o : Option (List UInt8)} {next : List UInt8 → Option (List UInt8)}
    (h : Performs o len mem)
    (hnext : ∀ bytes, bytes.length = len → toMemory bytes = mem → Performs (next bytes) len mem') :
    Performs (o >>= next) len mem' := by
  obtain ⟨bytes, rfl, hlen, hmem⟩ := h
  exact hnext bytes hlen hmem

/-- A read inside the string hands on what it reads. -/
theorem performs_read?_bind {β : Type} {read : Memory → β} {next : β → Option (List UInt8)}
    (hlen : bytes.length = len) (hmem : toMemory bytes = mem) (h : off + k ≤ len)
    (hnext : Performs (next (read mem)) len mem') :
    Performs (read? bytes off k read >>= next) len mem' := by
  subst hlen hmem
  rw [read?_of_le h]
  exact hnext

/-- A computation that succeeds, before one that fails or succeeds with any type of result. -/
theorem Performs.exists_bind {β : Type} {o : Option (List UInt8)} (h : Performs o len mem)
    (next : List UInt8 → Option β) :
    ∃ bytes, (o >>= next) = next bytes ∧ bytes.length = len ∧ toMemory bytes = mem := by
  obtain ⟨bytes, rfl, hlen, hmem⟩ := h
  exact ⟨bytes, rfl, hlen, hmem⟩

end Bytes

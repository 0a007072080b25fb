import Mathlib.Data.Fin.Basic
import Mathlib.Logic.Function.Basic
import Mathlib.Tactic.Common

/-!
# Circular probing

A table with `n` cells is scanned from a starting cell, one cell after the other and around the
end, at most `n` cells in all. `probeAt start i` is the `i`-th cell of such a scan, and `probeLoop`
runs a loop body on the cells in this order until the body stops it. The body may change a state
on the way, which is how scans that clean up behind themselves are written.

The rule `probeLoop_induct` is the only thing a user of the loop needs: an invariant indexed by the
number of cells visited, kept by a body that continues, and giving the postcondition when the body
stops or the cells run out.

## Main definitions

* `Probing.probeAt`: the `i`-th cell after `start`, modulo the number of cells.
* `Probing.Visit`, `Probing.probeLoop`: the loop body's verdict on a cell, and the loop.

## Main results

* `Probing.exists_probeAt_eq`: every cell is met within `n` steps.
* `Probing.probeLoop_induct`: the invariant rule of the loop.
* `Probing.scan_congr`: loop bodies that agree where the loop goes.
-/

namespace Probing

variable {n : ℕ} {σ β : Type*}

/-- The `i`-th cell of the scan that starts at `start`. -/
def probeAt (start : Fin n) (i : ℕ) : Fin n :=
  ⟨(start + i) % n, Nat.mod_lt _ start.pos⟩

theorem probeAt_zero (start : Fin n) : probeAt start 0 = start :=
  Fin.ext (Nat.mod_eq_of_lt start.isLt)

/-- Every cell is the `i`-th cell of the scan for some `i` below the number of cells. -/
theorem exists_probeAt_eq (start c : Fin n) : ∃ i < n, probeAt start i = c := by
  have hs := start.isLt
  have hc := c.isLt
  by_cases h : start.val ≤ c.val
  · refine ⟨c - start, by omega, Fin.ext ?_⟩
    have : start.val + (c.val - start.val) = c.val := by omega
    simp only [probeAt, this, Nat.mod_eq_of_lt hc]
  · refine ⟨n - start + c, by omega, Fin.ext ?_⟩
    have : start.val + (n - start.val + c.val) = c.val + n := by omega
    simp only [probeAt, this, Nat.add_mod_right, Nat.mod_eq_of_lt hc]

/-- The scan meets no cell twice within `n` steps. -/
theorem probeAt_injOn (start : Fin n) {i j : ℕ} (hi : i < n) (hj : j < n)
    (h : probeAt start i = probeAt start j) : i = j := by
  have hs := start.isLt
  have hmod : (start + i) % n = (start + j) % n := congrArg Fin.val h
  have hwrap (k : ℕ) (hk : k < n) :
      (start + k) % n = if start + k < n then start + k else start + k - n := by
    split_ifs with hlt
    · exact Nat.mod_eq_of_lt hlt
    · rw [Nat.mod_eq_sub_mod (by omega), Nat.mod_eq_of_lt (by omega)]
  rw [hwrap i hi, hwrap j hj] at hmod
  split_ifs at hmod <;> omega

/-- What a loop body decides on one cell: go on to the next cell, or stop with a result. -/
inductive Visit (σ β : Type*) where
  | next (s : σ)
  | done (s : σ) (r : Option β)

/-- Run `body` on the cells `probeAt start i`, `probeAt start (i + 1)`, … until it stops or
`fuel` cells have been visited; a scan that runs out of cells has no result. -/
def probeLoop (body : σ → Fin n → Visit σ β) (start : Fin n) : ℕ → ℕ → σ → σ × Option β
  | 0, _, s => (s, none)
  | fuel + 1, i, s =>
    match body s (probeAt start i) with
    | .next s => probeLoop body start fuel (i + 1) s
    | .done s r => (s, r)

/-- The whole scan: every cell once, from `start` on. -/
def scan (body : σ → Fin n → Visit σ β) (start : Fin n) (s : σ) : σ × Option β :=
  probeLoop body start n 0 s

/-- The invariant rule of `probeLoop`. -/
theorem probeLoop_induct (body : σ → Fin n → Visit σ β) (start : Fin n)
    (I : ℕ → σ → Prop) (Q : σ → Option β → Prop)
    (hnext : ∀ i s s', i < n → I i s → body s (probeAt start i) = .next s' → I (i + 1) s')
    (hdone : ∀ i s s' r, i < n → I i s → body s (probeAt start i) = .done s' r → Q s' r)
    (hend : ∀ s, I n s → Q s none) (fuel i : ℕ) (s : σ) (hfuel : fuel + i = n) (hI : I i s) :
    Q (probeLoop body start fuel i s).1 (probeLoop body start fuel i s).2 := by
  induction fuel generalizing i s with
  | zero =>
    have : i = n := by omega
    subst this
    exact hend s hI
  | succ fuel ih =>
    rw [probeLoop]
    cases hb : body s (probeAt start i) with
    | next s' => exact ih (i + 1) s' (by omega) (hnext i s s' (by omega) hI hb)
    | done s' r => exact hdone i s s' r (by omega) hI hb

/-- The invariant rule of a whole scan. -/
theorem scan_induct (body : σ → Fin n → Visit σ β) (start : Fin n) (s : σ)
    (I : ℕ → σ → Prop) (Q : σ → Option β → Prop) (hinit : I 0 s)
    (hnext : ∀ i s s', i < n → I i s → body s (probeAt start i) = .next s' → I (i + 1) s')
    (hdone : ∀ i s s' r, i < n → I i s → body s (probeAt start i) = .done s' r → Q s' r)
    (hend : ∀ s, I n s → Q s none) :
    Q (scan body start s).1 (scan body start s).2 :=
  probeLoop_induct body start I Q hnext hdone hend n 0 s rfl hinit

/-- Two loop bodies that do the same in every state of a set that the loop does not leave run the
same scan. -/
theorem scan_congr {body body' : σ → Fin n → Visit σ β} (I : σ → Prop)
    (hbody : ∀ s c, I s → body' s c = body s c)
    (hnext : ∀ s c s', I s → body s c = .next s' → I s') (start : Fin n) {s : σ} (hs : I s) :
    scan body' start s = scan body start s := by
  have hloop (fuel i : ℕ) (s : σ) (hs : I s) :
      probeLoop body' start fuel i s = probeLoop body start fuel i s := by
    induction fuel generalizing i s with
    | zero => rfl
    | succ fuel ih =>
      rw [probeLoop, probeLoop, hbody s _ hs]
      cases hb : body s (probeAt start i) with
      | next s' => exact ih (i + 1) s' (hnext s _ s' hs hb)
      | done s' r => rfl
  exact hloop n 0 s hs

end Probing

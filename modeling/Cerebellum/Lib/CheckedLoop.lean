import Mathlib.Order.Basic
import Mathlib.Tactic.Common

/-!
# Loops whose body may fail

`loop? cond body` runs `body` as long as `cond` holds. The body may fail, for instance when it
accesses an element that is not there, and the number of rounds is limited; both ends are `none`.
A loop that returns a state therefore ends, and none of its rounds fails.

## Main definitions

* `CheckedLoop.loop?`: the loop, with a limit on the number of rounds.

## Main results

* `CheckedLoop.loop?_spec`: the invariant rule, with a measure that bounds the number of rounds.
* `CheckedLoop.loop?_unique`: the limit does not affect the state that is returned.
* `CheckedLoop.loop?_eq_none`: a loop whose condition always holds returns nothing.
-/

namespace CheckedLoop

variable {σ : Type*}

/-- `while (cond) body`, for less than the given number of rounds. -/
def loop? (cond : σ → Bool) (body : σ → Option σ) : ℕ → σ → Option σ
  | 0, _ => none
  | rounds + 1, s => if cond s then (body s).bind (loop? cond body rounds) else some s

variable {cond : σ → Bool} {body : σ → Option σ} {rounds : ℕ} {s : σ}

theorem loop?_succ_of_true (h : cond s = true) :
    loop? cond body (rounds + 1) s = (body s).bind (loop? cond body rounds) :=
  if_pos h

theorem loop?_succ_of_false (h : cond s = false) : loop? cond body (rounds + 1) s = some s :=
  if_neg (Bool.not_eq_true _ ▸ h)

/-- The invariant rule. While the condition holds, the body succeeds, keeps the invariant and makes
the measure smaller; then the loop ends within as many rounds as the measure says. -/
theorem loop?_spec (cond : σ → Bool) (body : σ → Option σ) (I : σ → Prop) (μ : σ → ℕ)
    (hbody : ∀ s, I s → cond s = true → ∃ s', body s = some s' ∧ I s' ∧ μ s' < μ s) (hinit : I s)
    (hrounds : μ s < rounds) :
    ∃ s', loop? cond body rounds s = some s' ∧ I s' ∧ cond s' = false := by
  induction rounds generalizing s with
  | zero => exact absurd hrounds (Nat.not_lt_zero _)
  | succ rounds ih =>
    cases hcond : cond s with
    | false => exact ⟨s, loop?_succ_of_false hcond, hinit, hcond⟩
    | true =>
      obtain ⟨s₁, hs₁, hinit₁, hlt⟩ := hbody s hinit hcond
      obtain ⟨s', hs', hrest⟩ := ih hinit₁ (by omega)
      exact ⟨s', by rw [loop?_succ_of_true hcond, hs₁, Option.bind_some, hs'], hrest⟩

/-- Two limits that suffice give the same state. -/
theorem loop?_unique {rounds' : ℕ} {s₁ s₂ : σ} (h₁ : loop? cond body rounds s = some s₁)
    (h₂ : loop? cond body rounds' s = some s₂) : s₁ = s₂ := by
  induction rounds generalizing rounds' s with
  | zero => exact absurd h₁.symm (Option.some_ne_none s₁)
  | succ rounds ih =>
    cases rounds' with
    | zero => exact absurd h₂.symm (Option.some_ne_none s₂)
    | succ rounds' =>
      cases hcond : cond s with
      | false =>
        rw [loop?_succ_of_false hcond] at h₁ h₂
        exact Option.some.inj (h₁.symm.trans h₂)
      | true =>
        rw [loop?_succ_of_true hcond, Option.bind_eq_some_iff] at h₁ h₂
        obtain ⟨t₁, ht₁, hrest₁⟩ := h₁
        obtain ⟨t₂, ht₂, hrest₂⟩ := h₂
        obtain rfl : t₁ = t₂ := Option.some.inj (ht₁.symm.trans ht₂)
        exact ih hrest₁ hrest₂

/-- A loop whose condition always holds runs into the limit, or fails before. -/
theorem loop?_eq_none (hcond : ∀ s, cond s = true) (rounds : ℕ) (s : σ) :
    loop? cond body rounds s = none := by
  induction rounds generalizing s with
  | zero => rfl
  | succ rounds ih =>
    rw [loop?_succ_of_true (hcond s), Option.bind_eq_none_iff]
    exact fun s' _ => ih s'

end CheckedLoop

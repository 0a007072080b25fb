import Mathlib.Algebra.Ring.Nat
import Mathlib.Logic.Relation

/-!
# Two completions contain a whole call

A part of a system makes calls one after the other, and the state counts those that are over. The
call under way at some moment may have read what no longer holds, but of two calls that are over
after the moment the second began after it. So, if every call that began under some condition brings
a target about, and the condition stays, then the target holds once two more calls are over, in
whatever order the parts of the system move. One call is enough if the one under way began under the
condition.

## Main definitions

* `Completions.Calls`: what has to be shown for single steps.

## Main results

* `Completions.Calls.target_of_fresh`, `Completions.Calls.target`: the target is reached.
-/

open Relation

namespace Completions

variable {σ : Type*} {Step : σ → σ → Prop} {done : σ → ℕ} {Given Fresh Target : σ → Prop}

/-- A step that keeps the condition is one of those that end no call or one of those that end one.
The call under way is fresh if it began under the condition; ending a fresh call brings the target
about, which then stays. -/
structure Calls (Step : σ → σ → Prop) (done : σ → ℕ) (Given Fresh Target : σ → Prop) : Prop where
  given : ∀ {s s'}, Step s s' → Given s → Given s'
  count : ∀ {s s'}, Step s s' → done s' = done s ∨ done s' = done s + 1
  fresh : ∀ {s s'}, Step s s' → Given s → done s' = done s → Fresh s → Fresh s'
  begins : ∀ {s s'}, Step s s' → Given s → done s' = done s + 1 → Fresh s'
  achieves : ∀ {s s'}, Step s s' → Given s → Fresh s → done s' = done s + 1 → Target s'
  keeps : ∀ {s s'}, Step s s' → Given s → Target s → Target s'

namespace Calls

variable {s s' : σ}

theorem given_of_steps (h : Calls Step done Given Fresh Target) (hsteps : ReflTransGen Step s s')
    (hgiven : Given s) : Given s' := by
  induction hsteps with
  | refl => exact hgiven
  | tail _ hstep ih => exact h.given hstep ih

theorem target_of_steps (h : Calls Step done Given Fresh Target) (hsteps : ReflTransGen Step s s')
    (hgiven : Given s) (htarget : Target s) : Target s' := by
  induction hsteps with
  | refl => exact htarget
  | tail hsteps hstep ih => exact h.keeps hstep (h.given_of_steps hsteps hgiven) ih

/-- Once a fresh call is over the target is reached. -/
theorem target_of_fresh (h : Calls Step done Given Fresh Target) (hsteps : ReflTransGen Step s s')
    (hgiven : Given s) (hfresh : Fresh s) (hdone : done s < done s') : Target s' := by
  have hinv : done s' = done s ∧ Fresh s' ∨ Target s' := by
    clear hdone
    induction hsteps with
    | refl => exact Or.inl ⟨rfl, hfresh⟩
    | @tail a b hsteps hstep ih =>
      have hgiven' := h.given_of_steps hsteps hgiven
      obtain ⟨hdone, hfresh⟩ | htarget := ih
      · obtain hsame | hmore := h.count hstep
        · exact Or.inl ⟨hsame.trans hdone, h.fresh hstep hgiven' hsame hfresh⟩
        · exact Or.inr (h.achieves hstep hgiven' hfresh hmore)
      · exact Or.inr (h.keeps hstep hgiven' htarget)
  exact hinv.resolve_left fun hsame => absurd hsame.1 (Nat.ne_of_gt hdone)

/-- Once two calls are over the target is reached. -/
theorem target (h : Calls Step done Given Fresh Target) (hsteps : ReflTransGen Step s s')
    (hgiven : Given s) (hdone : done s + 2 ≤ done s') : Target s' := by
  have hinv : done s' = done s ∨ done s' = done s + 1 ∧ Fresh s' ∨ Target s' := by
    clear hdone
    induction hsteps with
    | refl => exact Or.inl rfl
    | @tail a b hsteps hstep ih =>
      have hgiven' := h.given_of_steps hsteps hgiven
      obtain hdone | ⟨hdone, hfresh⟩ | htarget := ih
      · obtain hsame | hmore := h.count hstep
        · exact Or.inl (hsame.trans hdone)
        · exact Or.inr (Or.inl ⟨hdone ▸ hmore, h.begins hstep hgiven' hmore⟩)
      · obtain hsame | hmore := h.count hstep
        · exact Or.inr (Or.inl ⟨hsame.trans hdone, h.fresh hstep hgiven' hsame hfresh⟩)
        · exact Or.inr (Or.inr (h.achieves hstep hgiven' hfresh hmore))
      · exact Or.inr (Or.inr (h.keeps hstep hgiven' htarget))
  obtain hsame | ⟨hone, -⟩ | htarget := hinv
  · omega
  · omega
  · exact htarget

end Calls

end Completions

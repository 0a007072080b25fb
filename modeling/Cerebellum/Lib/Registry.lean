import Mathlib.Algebra.Order.Ring.Nat
import Mathlib.Logic.Function.Basic

/-!
# Names of objects

Objects are numbered as they are made. A name refers to one of them until it is removed, and a name
that refers to none can be given to a new object; an object never gets a name back. So two lookups
of a name find the same object exactly when the name was bound all the time from the one to the
other.

## Main definitions

* `Registry`: what the names refer to.
* `Registry.Step`: a name is given to a new object, or removed.
* `Registry.Sound`: names refer to objects that were made.

## Main results

* `Registry.eq_iff_forall_bound`: when two lookups find the same object.
-/

/-- What each name refers to, and the number of objects made so far. -/
structure Registry (Name : Type*) where
  lookup : Name → Option ℕ := fun _ => none
  made : ℕ := 0

namespace Registry

variable {Name : Type*} [DecidableEq Name]

/-- A new object gets the name. -/
def make (r : Registry Name) (n : Name) : Registry Name where
  lookup := Function.update r.lookup n (some r.made)
  made := r.made + 1

/-- The name is removed; its object stays. -/
def remove (r : Registry Name) (n : Name) : Registry Name :=
  { r with lookup := Function.update r.lookup n none }

/-- One change of the names, or none. -/
inductive Step : Registry Name → Registry Name → Prop
  | same (r : Registry Name) : Step r r
  | make {r : Registry Name} {n : Name} (h : r.lookup n = none) : Step r (r.make n)
  | remove (r : Registry Name) (n : Name) : Step r (r.remove n)

/-- Names refer to objects that were made. -/
def Sound (r : Registry Name) : Prop := ∀ n o, r.lookup n = some o → o < r.made

variable {r r' : Registry Name} {n : Name} {o o' : ℕ}

omit [DecidableEq Name] in
theorem sound_empty : Sound ({} : Registry Name) := fun _ _ h => nomatch h

theorem lookup_make_self : (r.make n).lookup n = some r.made := Function.update_self _ _ _

theorem lookup_make_of_ne {m : Name} (h : m ≠ n) : (r.make n).lookup m = r.lookup m :=
  Function.update_of_ne h _ _

theorem lookup_remove_self : (r.remove n).lookup n = none := Function.update_self _ _ _

/-- What a change can do to a name. -/
theorem Step.lookup_cases (h : Step r r') (n : Name) :
    r'.lookup n = r.lookup n ∨ r'.lookup n = none ∨
      r.lookup n = none ∧ r'.lookup n = some r.made ∧ r'.made = r.made + 1 := by
  cases h with
  | same => exact Or.inl rfl
  | @make m hnone =>
    obtain rfl | hne := eq_or_ne n m
    · exact Or.inr (Or.inr ⟨hnone, lookup_make_self, rfl⟩)
    · exact Or.inl (lookup_make_of_ne hne)
  | remove m =>
    obtain rfl | hne := eq_or_ne n m
    · exact Or.inr (Or.inl lookup_remove_self)
    · exact Or.inl (Function.update_of_ne hne _ _)

theorem Step.made_le (h : Step r r') : r.made ≤ r'.made := by
  cases h with
  | make => exact Nat.le_succ _
  | _ => exact le_rfl

theorem Step.sound (h : Step r r') (hsound : r.Sound) : r'.Sound := by
  intro n o hlookup
  obtain hsame | hnone | ⟨-, hnew, hmade⟩ := h.lookup_cases n
  · exact (hsound n o (hsame ▸ hlookup)).trans_le h.made_le
  · exact absurd (hnone.symm.trans hlookup) (Option.some_ne_none o).symm
  · obtain rfl := Option.some.inj (hnew.symm.trans hlookup)
    exact hmade ▸ Nat.lt_succ_self _

section Runs

variable {rs : ℕ → Registry Name} {i j : ℕ}

theorem made_le_of_steps (hsteps : ∀ k, Step (rs k) (rs (k + 1))) (hij : i ≤ j) :
    (rs i).made ≤ (rs j).made := by
  induction j, hij using Nat.le_induction with
  | base => exact le_rfl
  | succ j _ ih => exact ih.trans (hsteps j).made_le

/-- A name that is bound all the time keeps its object. -/
theorem lookup_eq_of_bound (hsteps : ∀ k, Step (rs k) (rs (k + 1)))
    (hbound : ∀ k, i ≤ k → k ≤ j → (rs k).lookup n ≠ none) (hij : i ≤ j) :
    (rs j).lookup n = (rs i).lookup n := by
  induction j, hij using Nat.le_induction with
  | base => rfl
  | succ j hij ih =>
    have hprefix := ih fun k hik hkj => hbound k hik (hkj.trans (Nat.le_succ j))
    obtain hsame | hnone | ⟨hnone, -⟩ := (hsteps j).lookup_cases n
    · exact hsame.trans hprefix
    · exact absurd hnone (hbound (j + 1) (hij.trans (Nat.le_succ j)) le_rfl)
    · exact absurd hnone (hbound j hij (Nat.le_succ j))

/-- A name that was not bound refers to later objects only. -/
theorem made_le_of_unbound (hsteps : ∀ k, Step (rs k) (rs (k + 1)))
    (hnone : (rs i).lookup n = none) (hij : i ≤ j) (hj : (rs j).lookup n = some o) :
    (rs i).made ≤ o := by
  induction j, hij using Nat.le_induction generalizing o with
  | base => exact absurd (hnone.symm.trans hj) (Option.some_ne_none o).symm
  | succ j hij ih =>
    obtain hsame | hnone' | ⟨-, hnew, -⟩ := (hsteps j).lookup_cases n
    · exact ih (hsame ▸ hj)
    · exact absurd (hnone'.symm.trans hj) (Option.some_ne_none o).symm
    · obtain rfl := Option.some.inj (hnew.symm.trans hj)
      exact made_le_of_steps hsteps hij

/-- Two lookups find the same object if and only if the name was bound all the time between. -/
theorem eq_iff_forall_bound (hsteps : ∀ k, Step (rs k) (rs (k + 1))) (hij : i ≤ j)
    (hsound : (rs i).Sound) (hi : (rs i).lookup n = some o) (hj : (rs j).lookup n = some o') :
    o = o' ↔ ∀ k, i ≤ k → k ≤ j → (rs k).lookup n ≠ none := by
  constructor
  · rintro rfl k hik hkj hnone
    have hlater := made_le_of_unbound hsteps hnone hkj hj
    have hearlier := (hsound n o hi).trans_le (made_le_of_steps hsteps hik)
    exact absurd hlater (Nat.not_le.mpr hearlier)
  · intro hbound
    have hsame := lookup_eq_of_bound hsteps hbound hij
    exact Option.some.inj (hi.symm.trans (hsame.symm.trans hj))

end Runs

end Registry

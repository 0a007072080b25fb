import Mathlib.Data.List.Forall2
import Mathlib.Data.List.Induction
import Mathlib.Logic.Function.Basic

/-!
# Simulations of labelled transition systems

A run of a system is seen through the labels of its steps. One system refines another if a relation
between their states lets the second answer every step of the first, with a label that stands for
the label of that step. Then every run of the first is matched by a run of the second, label by
label. Labels can be of different types, so that the second system may leave out what it does not
speak of.

## Main definitions

* `Simulation.System`, `Simulation.Exec`: transition systems and their runs.
* `Simulation.System.restrict`: the runs in which all labels are of one kind.
* `Simulation.System.product`: systems that make their steps in any interleaving.
* `Simulation.Simulates`: a forward simulation.

## Main results

* `Simulation.Simulates.exec`: runs are matched label by label.
* `Simulation.Simulates.trans`, `Simulation.Simulates.product`: simulations compose.
-/

namespace Simulation

/-- A system with one initial state and labelled steps. -/
structure System (State Label : Type*) where
  init : State
  step : State → Label → State → Prop

variable {State₁ State₂ State₃ Label₁ Label₂ Label₃ : Type*}

/-- A run with the labels of its steps in order, and the state that it leads to. -/
inductive Exec (S : System State₁ Label₁) : List Label₁ → State₁ → Prop
  | nil : Exec S [] S.init
  | snoc {labels : List Label₁} {s s' : State₁} {l : Label₁} (h : Exec S labels s)
      (hstep : S.step s l s') : Exec S (labels ++ [l]) s'

/-- A run that ends with a given step. -/
theorem Exec.of_snoc {S : System State₁ Label₁} {labels : List Label₁} {l : Label₁} {s : State₁}
    (h : Exec S (labels ++ [l]) s) : ∃ s', Exec S labels s' ∧ S.step s' l s := by
  generalize heq : labels ++ [l] = all at h
  cases h with
  | nil => exact absurd heq (by simp)
  | snoc h hstep =>
    obtain ⟨rfl, hlast⟩ := List.append_inj' heq rfl
    obtain rfl := List.singleton_inj.mp hlast
    exact ⟨_, h, hstep⟩

/-- The first part of a run. -/
theorem Exec.of_append {S : System State₁ Label₁} {labels labels' : List Label₁} {s : State₁}
    (h : Exec S (labels ++ labels') s) : ∃ s', Exec S labels s' := by
  induction labels' using List.reverseRecOn generalizing s with
  | nil => exact ⟨s, List.append_nil labels ▸ h⟩
  | append_singleton labels' l ih =>
    rw [← List.append_assoc] at h
    obtain ⟨s', hexec, -⟩ := h.of_snoc
    exact ih hexec

/-- The steps whose labels are of one kind. -/
def System.restrict (S : System State₁ Label₁) (ok : Label₁ → Prop) : System State₁ Label₁ where
  init := S.init
  step s l s' := ok l ∧ S.step s l s'

/-- Any number of systems, one of which makes each step. -/
def System.product {ι : Type*} [DecidableEq ι] (S : ι → System State₁ Label₁) :
    System (ι → State₁) (ι × Label₁) where
  init i := (S i).init
  step s l s' := ∃ x, (S l.1).step (s l.1) l.2 x ∧ s' = Function.update s l.1 x

/-- Every step of the first system is answered by the second, with a label that stands for its
label. -/
structure Simulates (S₁ : System State₁ Label₁) (S₂ : System State₂ Label₂)
    (shows : Label₁ → Label₂ → Prop) (R : State₁ → State₂ → Prop) : Prop where
  init : R S₁.init S₂.init
  step : ∀ {s t l s'}, R s t → S₁.step s l s' → ∃ l' t', shows l l' ∧ S₂.step t l' t' ∧ R s' t'

variable {S₁ : System State₁ Label₁} {S₂ : System State₂ Label₂} {S₃ : System State₃ Label₃}
  {shows : Label₁ → Label₂ → Prop} {shows' : Label₂ → Label₃ → Prop}
  {R : State₁ → State₂ → Prop} {R' : State₂ → State₃ → Prop}

/-- Every run of the first system is matched by a run of the second. -/
theorem Simulates.exec (h : Simulates S₁ S₂ shows R) {labels : List Label₁} {s : State₁}
    (hexec : Exec S₁ labels s) :
    ∃ labels' t, List.Forall₂ shows labels labels' ∧ Exec S₂ labels' t ∧ R s t := by
  induction hexec with
  | nil => exact ⟨[], S₂.init, .nil, .nil, h.init⟩
  | snoc _ hstep ih =>
    obtain ⟨labels', t, hshows, hexec', hR⟩ := ih
    obtain ⟨l', t', hl, hstep', hR'⟩ := h.step hR hstep
    exact ⟨labels' ++ [l'], t', List.rel_append hshows (.cons hl .nil), hexec'.snoc hstep', hR'⟩

/-- Simulations compose, and so do the relations between states and between labels. -/
theorem Simulates.trans (h : Simulates S₁ S₂ shows R) (h' : Simulates S₂ S₃ shows' R') :
    Simulates S₁ S₃ (fun l l'' => ∃ l', shows l l' ∧ shows' l' l'')
      (fun s u => ∃ t, R s t ∧ R' t u) where
  init := ⟨S₂.init, h.init, h'.init⟩
  step := by
    rintro s u l s' ⟨t, hR, hR'⟩ hstep
    obtain ⟨l', t', hl, hstep', hRt⟩ := h.step hR hstep
    obtain ⟨l'', u', hl', hstep'', hRu⟩ := h'.step hR' hstep'
    exact ⟨l'', u', ⟨l', hl, hl'⟩, hstep'', t', hRt, hRu⟩

/-- A simulation may say less about the labels. -/
theorem Simulates.imp (h : Simulates S₁ S₂ shows R) {shows' : Label₁ → Label₂ → Prop}
    (himp : ∀ l l', shows l l' → shows' l l') : Simulates S₁ S₂ shows' R where
  init := h.init
  step hR hstep := by
    obtain ⟨l', t', hl, hstep', hR'⟩ := h.step hR hstep
    exact ⟨l', t', himp _ _ hl, hstep', hR'⟩

/-- A simulation whose labels stand for themselves holds between the restricted systems. -/
theorem Simulates.restrict {S₂ : System State₂ Label₁}
    (h : Simulates S₁ S₂ (fun l l' => l = l') R) (ok : Label₁ → Prop) :
    Simulates (S₁.restrict ok) (S₂.restrict ok) (fun l l' => l = l') R where
  init := h.init
  step := by
    rintro s t l s' hR ⟨hok, hstep⟩
    obtain ⟨_, t', rfl, hstep', hR'⟩ := h.step hR hstep
    exact ⟨l, t', rfl, ⟨hok, hstep'⟩, hR'⟩

/-- Systems in parallel are simulated one by one. -/
theorem Simulates.product {ι : Type*} [DecidableEq ι] {S₁ : ι → System State₁ Label₁}
    {S₂ : ι → System State₂ Label₂} {R : ι → State₁ → State₂ → Prop}
    (h : ∀ i, Simulates (S₁ i) (S₂ i) shows (R i)) :
    Simulates (System.product S₁) (System.product S₂)
      (fun l l' => l.1 = l'.1 ∧ shows l.2 l'.2) (fun s t => ∀ i, R i (s i) (t i)) where
  init i := (h i).init
  step := by
    rintro s t ⟨i, l⟩ _ hR ⟨x, hstep, rfl⟩
    obtain ⟨l', y, hl, hstep', hR'⟩ := (h i).step (hR i) hstep
    refine ⟨(i, l'), Function.update t i y, ⟨rfl, hl⟩, ⟨y, hstep', rfl⟩, fun j => ?_⟩
    by_cases hj : j = i
    · subst hj
      rwa [Function.update_self, Function.update_self]
    · rw [Function.update_of_ne hj, Function.update_of_ne hj]
      exact hR j

/-- Where a label of the answering run comes from. -/
theorem forall₂_append_cons_right {labels : List Label₁} {before after : List Label₂} {l' : Label₂}
    (h : List.Forall₂ shows labels (before ++ l' :: after)) :
    ∃ before' l after', labels = before' ++ l :: after' ∧ List.Forall₂ shows before' before ∧
      shows l l' ∧ List.Forall₂ shows after' after := by
  obtain ⟨l, after', hl, hafter, hdrop⟩ :=
    List.forall₂_cons_right_iff.mp (List.forall₂_drop_append labels before (l' :: after) h)
  refine ⟨labels.take before.length, l, after', ?_, List.forall₂_take_append _ _ _ h, hl, hafter⟩
  rw [← hdrop, List.take_append_drop]

end Simulation

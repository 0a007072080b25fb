import Cerebellum.Lib.Simulation
import Mathlib.Data.List.Induction
import Mathlib.Logic.Function.Basic

/-!
# Address translation in the abstract

A translator gives inside addresses outside addresses, binds no outside address to two inside
addresses at a time, and may give up any binding at any time. An observer sees packets go out from
an inside address under an outside one, and replies come back to an outside address and go on to an
inside one. Whatever is bound and given up in between, and however outside addresses are used again,
a reply goes to the address that the last packet under its outside address has come from.

## Main definitions

* `Bindings.Event`: what an observer sees.
* `Bindings.system`: the translators, over any two types of addresses.
* `Bindings.lastSender`: from where the last packet under an outside address came.

## Main results

* `Bindings.lastSender_of_bound`: the invariant.
* `Bindings.lastSender_of_returned`: replies go to the last sender.
* `Bindings.lastSender_eq_some`: what `lastSender` says about the run.
* `Bindings.simulates_combine`: translators with disjoint pools are together a translator.
-/

namespace Bindings

open Simulation

variable {Inside Outside : Type*}

/-- A packet from the inside under an outside address, a reply that is passed on, or a step that
shows neither. -/
inductive Event (Inside Outside : Type*)
  | sent (a : Inside) (b : Outside)
  | returned (b : Outside) (a : Inside)
  | quiet

/-- All bindings of the first are bindings of the second. -/
def Within (bound bound' : Inside → Option Outside) : Prop :=
  ∀ a b, bound a = some b → bound' a = some b

theorem Within.trans {bound bound' bound'' : Inside → Option Outside} (h : Within bound bound')
    (h' : Within bound' bound'') : Within bound bound'' :=
  fun a b hbound => h' a b (h a b hbound)

theorem Within.update [DecidableEq Inside] {bound bound' : Inside → Option Outside}
    (h : Within bound bound') (a : Inside) (b : Option Outside) :
    Within (Function.update bound a b) (Function.update bound' a b) := by
  intro a' b' hbound
  by_cases ha : a' = a
  · subst ha
    rwa [Function.update_self] at hbound ⊢
  · rw [Function.update_of_ne ha] at hbound ⊢
    exact h a' b' hbound

/-! ### The last sender -/

section LastSender

variable [DecidableEq Outside]

/-- The inside address that the last packet under the outside address came from. -/
def lastSender (events : List (Event Inside Outside)) (b : Outside) : Option Inside :=
  events.foldl (fun last event =>
    match event with
    | .sent a b' => if b' = b then some a else last
    | .returned _ _ => last
    | .quiet => last) none

variable {events : List (Event Inside Outside)} {event : Event Inside Outside} {a : Inside}
  {b : Outside}

theorem lastSender_concat_sent (b' : Outside) :
    lastSender (events ++ [.sent a b']) b =
      if b' = b then some a else lastSender events b := by
  rw [lastSender, List.foldl_concat]
  rfl

@[simp] theorem lastSender_concat_returned (b' : Outside) :
    lastSender (events ++ [.returned b' a]) b = lastSender events b := by
  rw [lastSender, List.foldl_concat]
  rfl

@[simp] theorem lastSender_concat_quiet :
    lastSender (events ++ [.quiet]) b = lastSender events b := by
  rw [lastSender, List.foldl_concat]
  rfl

theorem lastSender_concat_of_ne (h : ∀ a, event ≠ .sent a b) :
    lastSender (events ++ [event]) b = lastSender events b := by
  cases event with
  | sent a b' =>
    rw [lastSender_concat_sent]
    exact if_neg fun hb => h a (by rw [hb])
  | returned b' a => exact lastSender_concat_returned b'
  | quiet => exact lastSender_concat_quiet

/-- What `lastSender` says: a packet under the outside address, and none from elsewhere after it. -/
theorem lastSender_eq_some (h : lastSender events b = some a) :
    ∃ before after, events = before ++ .sent a b :: after ∧
      ∀ a', Event.sent a' b ∉ after := by
  induction events using List.reverseRecOn with
  | nil => exact absurd h (Option.some_ne_none a).symm
  | append_singleton events event ih =>
    by_cases hsent : ∃ a', event = .sent a' b
    · obtain ⟨a', rfl⟩ := hsent
      rw [lastSender_concat_sent, if_pos rfl, Option.some.injEq] at h
      exact ⟨events, [], by rw [h], fun _ => List.not_mem_nil⟩
    · rw [lastSender_concat_of_ne (not_exists.mp hsent)] at h
      obtain ⟨before, after, rfl, hafter⟩ := ih h
      refine ⟨before, after ++ [event], by simp, fun a' hmem => ?_⟩
      obtain hmem | hmem := List.mem_append.mp hmem
      · exact hafter a' hmem
      · exact hsent ⟨a', (List.mem_singleton.mp hmem).symm⟩

end LastSender

/-! ### Translators -/

variable [DecidableEq Inside]

/-- The steps of a translator. Bindings may be given up before and after each of them. -/
inductive Step : (Inside → Option Outside) → Event Inside Outside → (Inside → Option Outside) → Prop
  | quiet {bound bound' : Inside → Option Outside} (h : Within bound' bound) :
      Step bound .quiet bound'
  | sent {bound kept bound' : Inside → Option Outside} {a : Inside} {b : Outside}
      (hkept : Within kept bound)
      (hbind : kept a = some b ∨ ∀ a', kept a' ≠ some b)
      (h : Within bound' (Function.update kept a (some b))) : Step bound (.sent a b) bound'
  | returned {bound bound' : Inside → Option Outside} {a : Inside} {b : Outside}
      (hbound : bound a = some b) (h : Within bound' bound) : Step bound (.returned b a) bound'

/-- The translators, which start without bindings. -/
def system : System (Inside → Option Outside) (Event Inside Outside) where
  init := fun _ => none
  step := Step

variable [DecidableEq Outside] {events : List (Event Inside Outside)}
  {bound : Inside → Option Outside} {a : Inside} {b : Outside}

/-- Whatever is bound has sent the last packet under its outside address. -/
theorem lastSender_of_bound (h : Exec system events bound) (hbound : bound a = some b) :
    lastSender events b = some a := by
  induction h generalizing a b with
  | nil => exact absurd hbound (Option.some_ne_none b).symm
  | snoc h hstep ih =>
    cases hstep with
    | quiet hwithin =>
      rw [lastSender_concat_quiet]
      exact ih (hwithin a b hbound)
    | returned _ hwithin =>
      rw [lastSender_concat_returned]
      exact ih (hwithin a b hbound)
    | @sent _ kept a₁ b₁ hkept hbind hwithin =>
      have hafter := hwithin a b hbound
      rw [lastSender_concat_sent]
      by_cases ha : a = a₁
      · subst ha
        rw [Function.update_self, Option.some.injEq] at hafter
        rw [if_pos hafter]
      · rw [Function.update_of_ne ha] at hafter
        have hlast := ih (hkept a b hafter)
        -- the address that was just used was not bound elsewhere
        have hne : b₁ ≠ b := by
          rintro rfl
          obtain hbind | hbind := hbind
          · exact ha (Option.some.inj (hlast.symm.trans (ih (hkept a₁ b₁ hbind))))
          · exact hbind a hafter
        rwa [if_neg hne]

/-- A reply is passed on to where the last packet under its outside address came from. -/
theorem lastSender_of_returned (h : Exec system (events ++ [.returned b a]) bound) :
    lastSender events b = some a := by
  obtain ⟨bound', hexec, hstep⟩ := h.of_snoc
  cases hstep with
  | returned hbound _ => exact lastSender_of_bound hexec hbound

/-! ### Translators side by side -/

/-- The outside addresses of packets from the inside are from a pool. -/
def InPool (pool : Outside → Prop) : Event Inside Outside → Prop
  | .sent _ b => pool b
  | .returned _ _ => True
  | .quiet => True

/-- A step of one of several translators, as a step of all of them together. -/
def Tagged {ι : Type*} (l : ι × Event Inside Outside) : Event (ι × Inside) Outside → Prop
  | .sent a b => a.1 = l.1 ∧ l.2 = .sent a.2 b
  | .returned b a => a.1 = l.1 ∧ l.2 = .returned b a.2
  | .quiet => l.2 = .quiet

section Combine

omit [DecidableEq Outside]

variable {ι : Type*} [DecidableEq ι] {pool : ι → Outside → Prop}
  {bounds : ι → Inside → Option Outside}

/-- The bindings of several translators together. -/
def combine (bounds : ι → Inside → Option Outside) : ι × Inside → Option Outside :=
  fun a => bounds a.1 a.2

omit [DecidableEq Inside] in
theorem within_combine {i : ι} {bound : Inside → Option Outside} (h : Within bound (bounds i)) :
    Within (combine (Function.update bounds i bound)) (combine bounds) := by
  rintro ⟨j, a⟩ b hbound
  by_cases hj : j = i
  · subst hj
    rw [combine, Function.update_self] at hbound
    exact h a b hbound
  · rw [combine, Function.update_of_ne hj] at hbound
    exact hbound

omit [DecidableEq ι] in
/-- A step keeps the outside addresses in the pool. -/
theorem inPool_of_step {P : Outside → Prop} {bound bound' : Inside → Option Outside}
    {event : Event Inside Outside} (hstep : Step bound event bound') (hin : InPool P event)
    (hpool : ∀ a b, bound a = some b → P b) : ∀ a b, bound' a = some b → P b := by
  intro a b hbound
  cases hstep with
  | quiet hwithin => exact hpool a b (hwithin a b hbound)
  | returned _ hwithin => exact hpool a b (hwithin a b hbound)
  | @sent _ kept a₁ b₁ hkept hbind hwithin =>
    have hafter := hwithin a b hbound
    by_cases ha : a = a₁
    · subst ha
      rw [Function.update_self, Option.some.injEq] at hafter
      exact hafter ▸ hin
    · rw [Function.update_of_ne ha] at hafter
      exact hpool a b (hkept a b hafter)

/-- A step of one translator is a step of all of them together. -/
theorem combine_step (hdisjoint : ∀ i j b, pool i b → pool j b → i = j)
    (hpool : ∀ i a b, bounds i a = some b → pool i b) {i : ι} {event : Event Inside Outside}
    {bound : Inside → Option Outside} (hin : InPool (pool i) event)
    (hstep : Step (bounds i) event bound) : ∃ event', Tagged (i, event) event' ∧
      Step (combine bounds) event' (combine (Function.update bounds i bound)) := by
  cases hstep with
  | quiet hwithin => exact ⟨.quiet, rfl, .quiet (within_combine hwithin)⟩
  | @returned _ a b hbound hwithin =>
    exact ⟨.returned b (i, a), ⟨rfl, rfl⟩, .returned hbound (within_combine hwithin)⟩
  | @sent _ kept a b hkept hbind hwithin =>
    refine ⟨.sent (i, a) b, ⟨rfl, rfl⟩, .sent (within_combine hkept) ?_ ?_⟩
    · refine hbind.imp (fun hbound => ?_) fun hfree => ?_
      · rwa [combine, Function.update_self]
      · rintro ⟨j, a'⟩ hbound
        by_cases hj : j = i
        · subst hj
          rw [combine, Function.update_self] at hbound
          exact hfree a' hbound
        · rw [combine, Function.update_of_ne hj] at hbound
          exact hj (hdisjoint j i b (hpool j a' b hbound) hin)
    · rintro ⟨j, a'⟩ b' hbound
      by_cases hj : j = i
      · subst hj
        rw [combine, Function.update_self] at hbound
        have hafter := hwithin a' b' hbound
        by_cases ha : a' = a
        · subst ha
          rwa [Function.update_self] at hafter ⊢
        · rw [Function.update_of_ne ha] at hafter
          rw [Function.update_of_ne fun h => ha (congrArg Prod.snd h), combine,
            Function.update_self]
          exact hafter
      · rw [combine, Function.update_of_ne hj] at hbound
        rw [Function.update_of_ne fun h => hj (congrArg Prod.fst h), combine,
          Function.update_of_ne hj]
        exact hbound

/-- Translators whose outside addresses come from disjoint pools are together a translator. -/
theorem simulates_combine (hdisjoint : ∀ i j b, pool i b → pool j b → i = j) :
    Simulates
      (System.product fun i => (system : System (Inside → Option Outside)
        (Event Inside Outside)).restrict (InPool (pool i)))
      (system : System (ι × Inside → Option Outside) (Event (ι × Inside) Outside)) Tagged
      (fun bounds bound => (∀ i a b, bounds i a = some b → pool i b) ∧ combine bounds = bound) where
  init := ⟨fun _ _ b hbound => absurd hbound.symm (Option.some_ne_none b), rfl⟩
  step := by
    rintro bounds _ ⟨i, event⟩ _ ⟨hpool, rfl⟩ ⟨bound, ⟨hin, hstep⟩, rfl⟩
    obtain ⟨event', htag, hstep'⟩ := combine_step hdisjoint hpool hin hstep
    refine ⟨event', _, htag, hstep', fun j => ?_, rfl⟩
    by_cases hj : j = i
    · subst hj
      rw [Function.update_self]
      exact inPool_of_step hstep hin (hpool j)
    · rw [Function.update_of_ne hj]
      exact hpool j

end Combine

end Bindings

import Cerebellum.Lb.NatTable
import Mathlib.Logic.Relation

/-!
# What the operations of the conntrack table do

One statement for each operation of `NatTable`, so that no later proof opens a loop again. The two
lookups first *reap*: they mark expired entries they walk over, and nothing else. `Reaps` is that
relation between tables; it changes neither which entries are live nor the reverse index.

## Main definitions

* `Cerebellum.NatTable.Reaps`: reaching one table from another by reaping expired slots only.
* `Cerebellum.NatTable.Answers`: a slot holds a live flow with a given reply tuple.
* `Cerebellum.NatTable.Busy`: a cell of `rev` that `IndexReverse` passes over.

## Main results

* `Cerebellum.NatTable.Reaps.slots_eq_or`: what reaping does to a slot.
* `Cerebellum.NatTable.lookupForward_spec`, `lookupReverse_spec`, `insert_spec`,
  `indexReverse_spec`, `close_of_unreaped`.
-/

open Probing

namespace Cerebellum

namespace NatTable

variable {bits : ℕ} {t t' : NatTable bits} {s : Slot bits} {timeoutMs nowMs : UInt32}
  {flow : NatFlow}

/-! ### Expired and live entries -/

theorem occupied_of_expired (h : expired timeoutMs flow nowMs = true) : flow.occupied = true :=
  (Bool.and_eq_true_iff.mp h).1

theorem expired_eq_false_iff (hocc : flow.occupied = true) :
    expired timeoutMs flow nowMs = false ↔ flow.Live timeoutMs nowMs := by
  simp only [expired, hocc, Bool.true_and, Bool.or_eq_false_iff, decide_eq_false_iff_not,
    UInt32.not_lt, NatFlow.Live, NatFlow.Unreaped, true_and]

theorem expired_eq_false_of_live (h : flow.Live timeoutMs nowMs) :
    expired timeoutMs flow nowMs = false :=
  (expired_eq_false_iff h.1.1).mpr h

theorem not_live_of_expired (h : expired timeoutMs flow nowMs = true) :
    ¬ flow.Live timeoutMs nowMs := fun hlive => by
  rw [expired_eq_false_of_live hlive] at h
  exact absurd h (by decide)

theorem not_live_iff :
    ¬ flow.Live timeoutMs nowMs ↔
      flow.occupied = false ∨ expired timeoutMs flow nowMs = true := by
  cases hocc : flow.occupied with
  | false => simp only [NatFlow.Live, NatFlow.Unreaped, hocc, Bool.false_eq_true, false_and,
      not_false_eq_true, true_or]
  | true => simp only [← expired_eq_false_iff hocc, Bool.not_eq_false, Bool.true_eq_false, false_or]

/-- An entry that was just refreshed is live. -/
theorem live_of_lastSeen_eq (hun : flow.Unreaped) (h : flow.lastSeenMs = nowMs) :
    flow.Live timeoutMs nowMs := by
  refine ⟨hun, ?_⟩
  rw [h, UInt32.sub_self]
  exact UInt32.zero_le

/-! ### Single assignments -/

@[simp] theorem setSlot_slots (f : NatFlow) :
    (t.setSlot s f).slots = Function.update t.slots s f := rfl

@[simp] theorem setSlot_rev (f : NatFlow) : (t.setSlot s f).rev = t.rev := rfl

@[simp] theorem setSlot_timeoutMs (f : NatFlow) : (t.setSlot s f).timeoutMs = t.timeoutMs := rfl

@[simp] theorem touch_slots :
    (t.touch s nowMs).slots = Function.update t.slots s { t.slots s with lastSeenMs := nowMs } :=
  rfl

@[simp] theorem touch_rev : (t.touch s nowMs).rev = t.rev := rfl

@[simp] theorem touch_timeoutMs : (t.touch s nowMs).timeoutMs = t.timeoutMs := rfl

@[simp] theorem reap_slots (t : NatTable bits) (s : Slot bits) :
    (t.reap s).slots = Function.update t.slots s { t.slots s with reaped := true } := by
  rw [reap]
  by_cases h : (t.slots s).reaped = true
  · rw [if_pos h, ← h, Function.update_eq_self]
  · rw [if_neg h]

@[simp] theorem reap_rev (t : NatTable bits) (s : Slot bits) : (t.reap s).rev = t.rev := by
  unfold reap
  split_ifs <;> rfl

@[simp] theorem reap_timeoutMs (t : NatTable bits) (s : Slot bits) :
    (t.reap s).timeoutMs = t.timeoutMs := by
  unfold reap
  split_ifs <;> rfl

/-! ### Reaping -/

/-- One entry that is expired at `nowMs` is reaped. -/
def ReapStep (nowMs : UInt32) (t t' : NatTable bits) : Prop :=
  ∃ s, expired t.timeoutMs (t.slots s) nowMs = true ∧ t' = t.reap s

/-- Any number of entries that are expired at `nowMs` are reaped, and nothing else happens. -/
def Reaps (nowMs : UInt32) : NatTable bits → NatTable bits → Prop :=
  Relation.ReflTransGen (ReapStep nowMs)

namespace Reaps

theorem refl (t : NatTable bits) : Reaps nowMs t t := Relation.ReflTransGen.refl

theorem trans {t'' : NatTable bits} (h : Reaps nowMs t t') (h' : Reaps nowMs t' t'') :
    Reaps nowMs t t'' :=
  Relation.ReflTransGen.trans h h'

theorem reap (h : Reaps nowMs t t') (hs : expired t'.timeoutMs (t'.slots s) nowMs = true) :
    Reaps nowMs t (t'.reap s) :=
  Relation.ReflTransGen.tail h ⟨s, hs, rfl⟩

theorem rev_eq (h : Reaps nowMs t t') : t'.rev = t.rev := by
  induction h with
  | refl => rfl
  | tail _ hstep ih =>
    obtain ⟨s, -, rfl⟩ := hstep
    rw [reap_rev, ih]

theorem timeoutMs_eq (h : Reaps nowMs t t') : t'.timeoutMs = t.timeoutMs := by
  induction h with
  | refl => rfl
  | tail _ hstep ih =>
    obtain ⟨s, -, rfl⟩ := hstep
    rw [reap_timeoutMs, ih]

/-- Reaping leaves a slot as it is, or marks an expired one. -/
theorem slots_eq_or (h : Reaps nowMs t t') (s : Slot bits) :
    t'.slots s = t.slots s ∨ (expired t.timeoutMs (t.slots s) nowMs = true ∧
      t'.slots s = { t.slots s with reaped := true }) := by
  induction h with
  | refl => exact Or.inl rfl
  | @tail t₁ _ hrun hstep ih =>
    have htime : t₁.timeoutMs = t.timeoutMs := timeoutMs_eq hrun
    obtain ⟨c, hc, rfl⟩ := hstep
    rw [reap_slots]
    rcases eq_or_ne s c with rfl | hne
    · rw [Function.update_self]
      rcases ih with ih | ⟨hexp, ih⟩
      · rw [ih, htime] at hc
        exact Or.inr ⟨hc, by rw [ih]⟩
      · exact Or.inr ⟨hexp, by rw [ih]⟩
    · rw [Function.update_of_ne hne]
      exact ih

theorem slots_eq_of_live (h : Reaps nowMs t t')
    (hlive : (t.slots s).Live t.timeoutMs nowMs) : t'.slots s = t.slots s := by
  rcases h.slots_eq_or s with heq | ⟨hexp, -⟩
  · exact heq
  · exact absurd hlive (not_live_of_expired hexp)

/-- An entry that is not reaped at the end is as it was before. -/
theorem slots_eq_of_unreaped (h : Reaps nowMs t t') (hun : (t'.slots s).Unreaped) :
    t'.slots s = t.slots s := by
  rcases h.slots_eq_or s with heq | ⟨-, heq⟩
  · exact heq
  · rw [heq] at hun
    exact Bool.noConfusion hun.2

theorem occupied_eq (h : Reaps nowMs t t') (s : Slot bits) :
    (t'.slots s).occupied = (t.slots s).occupied := by
  rcases h.slots_eq_or s with heq | ⟨-, heq⟩ <;> rw [heq]

/-- The same entries are live before and after. -/
theorem live_iff (h : Reaps nowMs t t') (s : Slot bits) :
    (t'.slots s).Live t'.timeoutMs nowMs ↔ (t.slots s).Live t.timeoutMs nowMs := by
  constructor
  · intro hlive
    have heq := h.slots_eq_of_unreaped hlive.1
    rwa [heq, h.timeoutMs_eq] at hlive
  · intro hlive
    rwa [h.slots_eq_of_live hlive, h.timeoutMs_eq]

end Reaps

/-! ### Lookups -/

section Operations

variable (hash : FlowKey → UInt32)

/-- No entry for `key` that is not reaped can be met before the first slot never used. -/
def AbsentOnScan (t : NatTable bits) (key : FlowKey) : Prop :=
  ∀ i < 2 ^ bits,
    (∀ j < i, (t.slots (probeAt (home (hash key)) j)).occupied = true) →
      ¬ ((t.slots (probeAt (home (hash key)) i)).Unreaped ∧
        (t.slots (probeAt (home (hash key)) i)).fwdKey = key)

/-- The slot is in use, but not by an entry for `key` that is not reaped. -/
def PassedOver (t : NatTable bits) (key : FlowKey) (s : Slot bits) : Prop :=
  (t.slots s).occupied = true ∧ ¬ ((t.slots s).Unreaped ∧ (t.slots s).fwdKey = key)

private theorem Reaps.passedOver (h : Reaps nowMs t t') {key : FlowKey}
    (hs : t.PassedOver key s) : t'.PassedOver key s := by
  rcases h.slots_eq_or s with heq | ⟨-, heq⟩
  · rwa [PassedOver, heq]
  · rw [PassedOver, heq]
    exact ⟨hs.1, fun hun => Bool.noConfusion hun.1.2⟩

/-- The forward scan goes on from a slot that it reaps or that holds another key. -/
theorem visitForward_next {key : FlowKey} (h : visitForward key nowMs t s = .next t') :
    Reaps nowMs t t' ∧ t'.PassedOver key s := by
  dsimp only [visitForward] at h
  split_ifs at h with hocc hexp hkey
  · obtain rfl := Visit.next.inj h
    have hused := occupied_of_expired hexp
    refine ⟨(Reaps.refl t).reap hexp, ?_⟩
    rw [PassedOver, reap_slots, Function.update_self]
    exact ⟨hused, fun hun => Bool.noConfusion hun.1.2⟩
  · obtain rfl := Visit.next.inj h
    exact ⟨Reaps.refl t, by simpa using hocc, fun hun => hkey hun.2⟩

/-- The forward scan stops at a slot never used or at a live entry for the key. -/
private theorem visitForward_done {key : FlowKey} {r : Option (Slot bits)}
    (h : visitForward key nowMs t s = .done t' r) :
    (r = none ∧ t' = t ∧ (t.slots s).occupied = false) ∨
      (r = some s ∧ t' = t.touch s nowMs ∧ (t.slots s).Live t.timeoutMs nowMs ∧
        (t.slots s).fwdKey = key) := by
  dsimp only [visitForward] at h
  split_ifs at h with hocc hexp hkey
  · obtain ⟨rfl, rfl⟩ := Visit.done.inj h
    exact Or.inl ⟨rfl, rfl, by simpa using hocc⟩
  · obtain ⟨rfl, rfl⟩ := Visit.done.inj h
    have hlive := (expired_eq_false_iff (by simpa using hocc)).mp (by simpa using hexp)
    exact Or.inr ⟨rfl, rfl, hlive, hkey⟩

/-- A forward lookup reaps, and then either refreshes a live entry for the key or finds that the
scan holds no entry for the key that is not reaped. -/
theorem lookupForward_spec (t : NatTable bits) (key : FlowKey) (nowMs : UInt32) :
    ∃ t₁, Reaps nowMs t t₁ ∧
      ((∃ s, lookupForward hash t key nowMs = (t₁.touch s nowMs, some s) ∧
          (t₁.slots s).Live t₁.timeoutMs nowMs ∧ (t₁.slots s).fwdKey = key) ∨
        (lookupForward hash t key nowMs = (t₁, none) ∧ AbsentOnScan hash t₁ key)) := by
  have h := scan_induct (visitForward key nowMs) (home (hash key)) t
    (fun i t₁ => Reaps nowMs t t₁ ∧ ∀ j < i, t₁.PassedOver key (probeAt (home (hash key)) j))
    (fun t' r => ∃ t₁, Reaps nowMs t t₁ ∧
      ((∃ s, r = some s ∧ t' = t₁.touch s nowMs ∧ (t₁.slots s).Live t₁.timeoutMs nowMs ∧
          (t₁.slots s).fwdKey = key) ∨
        (r = none ∧ t' = t₁ ∧ AbsentOnScan hash t₁ key)))
    ⟨Reaps.refl t, fun j hj => absurd hj (Nat.not_lt_zero j)⟩ ?_ ?_ ?_
  · obtain ⟨t₁, hreaps, ⟨s, hr, ht, hlive, hkey⟩ | ⟨hr, ht, habs⟩⟩ := h
    · exact ⟨t₁, hreaps, Or.inl ⟨s, Prod.ext ht hr, hlive, hkey⟩⟩
    · exact ⟨t₁, hreaps, Or.inr ⟨Prod.ext ht hr, habs⟩⟩
  · rintro i t₁ t₂ - ⟨hreaps, hscan⟩ hbody
    obtain ⟨hstep, hpassed⟩ := visitForward_next hbody
    refine ⟨hreaps.trans hstep, Nat.forall_lt_succ_right.mpr ⟨fun j hj => ?_, hpassed⟩⟩
    exact hstep.passedOver (hscan j hj)
  · rintro i t₁ t₂ r hi ⟨hreaps, hscan⟩ hbody
    obtain ⟨hr, ht, hocc⟩ | ⟨hr, ht, hlive, hkey⟩ := visitForward_done hbody
    · -- an entry for the key would stand before the slot never used
      refine ⟨t₁, hreaps, Or.inr ⟨hr, ht, fun k hk hbefore hun => ?_⟩⟩
      rcases lt_trichotomy k i with hlt | rfl | hgt
      · exact (hscan k hlt).2 hun
      · exact Bool.noConfusion (hocc.symm.trans hun.1.1)
      · exact Bool.noConfusion (hocc.symm.trans (hbefore i hgt))
    · exact ⟨t₁, hreaps, Or.inl ⟨_, hr, ht, hlive, hkey⟩⟩
  · rintro t₁ ⟨hreaps, hscan⟩
    exact ⟨t₁, hreaps, Or.inr ⟨rfl, rfl, fun k hk _ hun => (hscan k hk).2 hun⟩⟩

/-- Slot `s` holds a live flow whose reply tuple, laid out as a key, is `key`. -/
def Answers (t : NatTable bits) (key : FlowKey) (nowMs : UInt32) (s : Slot bits) : Prop :=
  (t.slots s).Live t.timeoutMs nowMs ∧ (t.slots s).revKey = key

theorem Reaps.answers_iff (h : Reaps nowMs t t') {key : FlowKey} :
    t'.Answers key nowMs s ↔ t.Answers key nowMs s := by
  rw [Answers, Answers, h.live_iff]
  refine and_congr_right fun hlive => ?_
  rw [h.slots_eq_of_live hlive]

section Reverse

variable {backendIp : UInt32} {backendPort snatPort : UInt16} {proto : UInt8} {cell : Slot bits}

/-- The reverse scan goes on from a cell whose entry does not answer. -/
theorem visitReverse_next
    (h : visitReverse backendIp backendPort snatPort proto nowMs t cell = .next t') :
    Reaps nowMs t t' ∧ ∃ s, t.rev cell = some s ∧
      ¬ t.Answers (replyKey backendIp backendPort snatPort proto) nowMs s := by
  dsimp only [visitReverse] at h
  split at h
  · cases h
  · next s hcell =>
    split_ifs at h with hexp hmatch
    · obtain rfl := Visit.next.inj h
      obtain ⟨-, hexp⟩ := Bool.and_eq_true_iff.mp hexp
      exact ⟨(Reaps.refl t).reap hexp, s, hcell, fun hans => not_live_of_expired hexp hans.1⟩
    · obtain rfl := Visit.next.inj h
      refine ⟨Reaps.refl t, s, hcell, fun hans => hmatch ?_⟩
      obtain ⟨hip, hport, hsnat, hproto⟩ := replyKey_inj.mp hans.2
      exact ⟨hans.1.1.1, hip, hport, hsnat, hproto⟩

/-- The reverse scan stops at an empty cell or at a cell whose entry answers. -/
private theorem visitReverse_done {r : Option (Slot bits)}
    (h : visitReverse backendIp backendPort snatPort proto nowMs t cell = .done t' r) :
    (t' = t ∧ r = none ∧ t.rev cell = none) ∨
      ∃ s, t' = t.touch s nowMs ∧ r = some s ∧ t.rev cell = some s ∧
        t.Answers (replyKey backendIp backendPort snatPort proto) nowMs s := by
  dsimp only [visitReverse] at h
  split at h
  · next hcell =>
    obtain ⟨rfl, rfl⟩ := Visit.done.inj h
    exact Or.inl ⟨rfl, rfl, hcell⟩
  · next s hcell =>
    split_ifs at h with hexp hmatch
    obtain ⟨rfl, rfl⟩ := Visit.done.inj h
    obtain ⟨hocc, hmatch⟩ := hmatch
    have hlive : (t.slots s).Live t.timeoutMs nowMs := by
      rw [← expired_eq_false_iff hocc]
      simpa only [hocc, Bool.true_and, Bool.not_eq_true] using hexp
    exact Or.inr ⟨s, rfl, rfl, hcell, hlive, replyKey_inj.mpr hmatch⟩

end Reverse

/-- A reverse lookup reaps, and then either refreshes the first entry on the scan that answers the
reply tuple, or finds that no cell before the first empty one points to such an entry. -/
theorem lookupReverse_spec (t : NatTable bits) (backendIp : UInt32)
    (backendPort snatPort : UInt16) (proto : UInt8) (nowMs : UInt32) :
    let key := replyKey backendIp backendPort snatPort proto
    let found := lookupReverse hash t backendIp backendPort snatPort proto nowMs
    ∃ t₁, Reaps nowMs t t₁ ∧
      ((∃ i < 2 ^ bits, ∃ s, found = (t₁.touch s nowMs, some s) ∧
          t.rev (probeAt (home (hash key)) i) = some s ∧ t.Answers key nowMs s ∧
          ∀ j < i, ∃ s', t.rev (probeAt (home (hash key)) j) = some s' ∧
            ¬ t.Answers key nowMs s') ∨
        (found = (t₁, none) ∧ ∀ i < 2 ^ bits,
          (∀ j < i, t.rev (probeAt (home (hash key)) j) ≠ none) →
            ∀ s, t.rev (probeAt (home (hash key)) i) = some s → ¬ t.Answers key nowMs s)) := by
  intro key found
  have hpassed {i : ℕ} {s : Slot bits} (hs : t.rev (probeAt (home (hash key)) i) = some s)
      (h : ∃ s', t.rev (probeAt (home (hash key)) i) = some s' ∧ ¬ t.Answers key nowMs s') :
      ¬ t.Answers key nowMs s := by
    obtain ⟨s', hs', hno⟩ := h
    obtain rfl := Option.some.inj (hs'.symm.trans hs)
    exact hno
  have h := scan_induct (visitReverse backendIp backendPort snatPort proto nowMs)
    (home (hash key)) t
    (fun i t₁ => Reaps nowMs t t₁ ∧ ∀ j < i, ∃ s',
      t.rev (probeAt (home (hash key)) j) = some s' ∧ ¬ t.Answers key nowMs s')
    (fun t' r => ∃ t₁, Reaps nowMs t t₁ ∧
      ((∃ i < 2 ^ bits, ∃ s, (t' = t₁.touch s nowMs ∧ r = some s) ∧
          t.rev (probeAt (home (hash key)) i) = some s ∧ t.Answers key nowMs s ∧
          ∀ j < i, ∃ s', t.rev (probeAt (home (hash key)) j) = some s' ∧
            ¬ t.Answers key nowMs s') ∨
        ((t' = t₁ ∧ r = none) ∧ ∀ i < 2 ^ bits,
          (∀ j < i, t.rev (probeAt (home (hash key)) j) ≠ none) →
            ∀ s, t.rev (probeAt (home (hash key)) i) = some s → ¬ t.Answers key nowMs s)))
    ⟨Reaps.refl t, fun j hj => absurd hj (Nat.not_lt_zero j)⟩ ?_ ?_ ?_
  · obtain ⟨t₁, hreaps, ⟨i, hi, s, ⟨ht, hr⟩, hrest⟩ | ⟨⟨ht, hr⟩, hrest⟩⟩ := h
    · exact ⟨t₁, hreaps, Or.inl ⟨i, hi, s, Prod.ext ht hr, hrest⟩⟩
    · exact ⟨t₁, hreaps, Or.inr ⟨Prod.ext ht hr, hrest⟩⟩
  · rintro i t₁ t₂ - ⟨hreaps, hscan⟩ hbody
    obtain ⟨hstep, s, hcell, hno⟩ := visitReverse_next hbody
    rw [hreaps.rev_eq] at hcell
    rw [hreaps.answers_iff] at hno
    exact ⟨hreaps.trans hstep, Nat.forall_lt_succ_right.mpr ⟨hscan, s, hcell, hno⟩⟩
  · rintro i t₁ t₂ r hi ⟨hreaps, hscan⟩ hbody
    obtain ⟨ht, hr, hcell⟩ | ⟨s, ht, hr, hcell, hans⟩ := visitReverse_done hbody
    · refine ⟨t₁, hreaps, Or.inr ⟨⟨ht, hr⟩, fun k hk hbefore s hs => ?_⟩⟩
      rw [hreaps.rev_eq] at hcell
      rcases lt_trichotomy k i with hlt | rfl | hgt
      · exact hpassed hs (hscan k hlt)
      · exact absurd (hcell.symm.trans hs) (Option.some_ne_none s).symm
      · exact absurd hcell (hbefore i hgt)
    · rw [hreaps.rev_eq] at hcell
      rw [hreaps.answers_iff] at hans
      exact ⟨t₁, hreaps, Or.inl ⟨i, hi, s, ⟨ht, hr⟩, hcell, hans, hscan⟩⟩
  · rintro t₁ ⟨hreaps, hscan⟩
    exact ⟨t₁, hreaps, Or.inr ⟨⟨rfl, rfl⟩, fun k hk _ s hs => hpassed hs (hscan k hk)⟩⟩

/-! ### Insertion -/

/-- The cell points to a live entry, so that `IndexReverse` passes over it. -/
def Busy (t : NatTable bits) (nowMs : UInt32) (cell : Slot bits) : Prop :=
  ∃ p, t.rev cell = some p ∧ (t.slots p).Live t.timeoutMs nowMs

/-- `IndexReverse` passes over busy cells. -/
private theorem visitCell_next {slot cell : Slot bits}
    (h : visitCell slot nowMs t cell = .next t') : t' = t ∧ t.Busy nowMs cell := by
  rw [visitCell] at h
  split at h
  · cases h
  · next p hcell =>
    split_ifs at h with hp
    refine ⟨(Visit.next.inj h).symm, p, hcell, ?_⟩
    rw [Bool.not_eq_true, Bool.or_eq_false_iff, Bool.not_eq_false'] at hp
    exact (expired_eq_false_iff hp.1).mp hp.2

/-- `IndexReverse` takes a cell that is not busy. -/
private theorem visitCell_done {slot cell : Slot bits} {r : Option (Slot bits)}
    (h : visitCell slot nowMs t cell = .done t' r) :
    t' = { t with rev := Function.update t.rev cell (some slot) } ∧ ¬ t.Busy nowMs cell := by
  rw [visitCell] at h
  split at h
  · next hcell =>
    refine ⟨(Visit.done.inj h).1.symm, ?_⟩
    rintro ⟨p, hp, -⟩
    exact absurd (hcell.symm.trans hp) (Option.some_ne_none p).symm
  · next p hcell =>
    split_ifs at h with hp
    refine ⟨(Visit.done.inj h).1.symm, ?_⟩
    rintro ⟨q, hq, hlive⟩
    obtain rfl := Option.some.inj (hcell.symm.trans hq)
    rw [hlive.1.1, expired_eq_false_of_live hlive] at hp
    cases hp

/-- Indexing a slot takes the first cell of its scan that is not busy, if there is one. -/
theorem indexReverse_spec (t : NatTable bits) (slot : Slot bits) (nowMs : UInt32) :
    (∃ i < 2 ^ bits, ¬ t.Busy nowMs (probeAt (home (hash (t.slots slot).revKey)) i) ∧
        (∀ j < i, t.Busy nowMs (probeAt (home (hash (t.slots slot).revKey)) j)) ∧
        indexReverse hash t slot nowMs =
          { t with
            rev := Function.update t.rev (probeAt (home (hash (t.slots slot).revKey)) i)
              (some slot) }) ∨
      ((∀ cell, t.Busy nowMs cell) ∧ indexReverse hash t slot nowMs = t) := by
  refine scan_induct (visitCell slot nowMs) (home (hash (t.slots slot).revKey)) t
    (fun i t₁ => t₁ = t ∧
      ∀ j < i, t.Busy nowMs (probeAt (home (hash (t.slots slot).revKey)) j))
    (fun t' _ => (∃ i < 2 ^ bits,
        ¬ t.Busy nowMs (probeAt (home (hash (t.slots slot).revKey)) i) ∧
        (∀ j < i, t.Busy nowMs (probeAt (home (hash (t.slots slot).revKey)) j)) ∧
        t' = { t with
          rev := Function.update t.rev (probeAt (home (hash (t.slots slot).revKey)) i)
            (some slot) }) ∨
      ((∀ cell, t.Busy nowMs cell) ∧ t' = t))
    ⟨rfl, fun j hj => absurd hj (Nat.not_lt_zero j)⟩ ?_ ?_ ?_
  · rintro i t₁ t₂ - ⟨rfl, hscan⟩ hbody
    obtain ⟨ht, hbusy⟩ := visitCell_next hbody
    exact ⟨ht, Nat.forall_lt_succ_right.mpr ⟨hscan, hbusy⟩⟩
  · rintro i t₁ t₂ r hi ⟨rfl, hscan⟩ hbody
    obtain ⟨ht, hfree⟩ := visitCell_done hbody
    exact Or.inl ⟨i, hi, hfree, hscan, ht⟩
  · rintro t₁ ⟨rfl, hscan⟩
    refine Or.inr ⟨fun cell => ?_, rfl⟩
    obtain ⟨i, hi, rfl⟩ := exists_probeAt_eq (home (hash (t₁.slots slot).revKey)) cell
    exact hscan i hi

/-- Indexing changes nothing but the reverse index. -/
theorem indexReverse_eq (t : NatTable bits) (slot : Slot bits) (nowMs : UInt32) :
    indexReverse hash t slot nowMs = { t with rev := (indexReverse hash t slot nowMs).rev } := by
  rcases indexReverse_spec hash t slot nowMs with ⟨i, -, -, -, h⟩ | ⟨-, h⟩ <;> rw [h]

@[simp] theorem place_slots (t : NatTable bits) (flow : NatFlow) (s : Slot bits) (size : ℕ)
    (nowMs : UInt32) : (place hash t flow s size nowMs).slots =
      Function.update t.slots s { flow with occupied := true, lastSeenMs := nowMs } := by
  rw [place, indexReverse_eq]

@[simp] theorem place_size (t : NatTable bits) (flow : NatFlow) (s : Slot bits) (size : ℕ)
    (nowMs : UInt32) : (place hash t flow s size nowMs).size = size := by
  rw [place, indexReverse_eq]

@[simp] theorem place_timeoutMs (t : NatTable bits) (flow : NatFlow) (s : Slot bits) (size : ℕ)
    (nowMs : UInt32) : (place hash t flow s size nowMs).timeoutMs = t.timeoutMs := by
  rw [place, indexReverse_eq]

/-- `Insert` passes over live entries. -/
private theorem visitVictim_next (h : visitVictim hash flow nowMs t s = .next t') :
    t' = t ∧ (t.slots s).Live t.timeoutMs nowMs := by
  dsimp only [visitVictim] at h
  split_ifs at h with hocc hexp
  refine ⟨(Visit.next.inj h).symm, ?_⟩
  exact (expired_eq_false_iff (by simpa using hocc)).mp (by simpa using hexp)

/-- `Insert` takes a slot that is not live, and reports the port and the backend of its entry. -/
private theorem visitVictim_done {r : Option (Slot bits × UInt16 × UInt8)}
    (h : visitVictim hash flow nowMs t s = .done t' r) :
    ¬ (t.slots s).Live t.timeoutMs nowMs ∧
      t' = place hash t flow s (if (t.slots s).Unreaped then t.size else t.size + 1) nowMs ∧
      r = some (s, if (t.slots s).occupied then (t.slots s).snatPort else 0,
        if (t.slots s).occupied then (t.slots s).backendIdx else 0) := by
  dsimp only [visitVictim] at h
  split_ifs at h with hocc hexp hreaped
  · -- a slot never used
    have hocc : (t.slots s).occupied = false := by simpa using hocc
    obtain ⟨rfl, rfl⟩ := Visit.done.inj h
    refine ⟨not_live_iff.mpr (Or.inl hocc), ?_, ?_⟩
    · rw [if_neg fun hun : NatFlow.Unreaped _ => Bool.noConfusion (hocc.symm.trans hun.1)]
    · simp only [hocc, Bool.false_eq_true, if_false]
  · -- an entry reaped before
    obtain ⟨rfl, rfl⟩ := Visit.done.inj h
    refine ⟨not_live_iff.mpr (Or.inr hexp), ?_, ?_⟩
    · rw [if_neg fun hun : NatFlow.Unreaped _ => Bool.noConfusion (hreaped.symm.trans hun.2)]
    · simp only [occupied_of_expired hexp, if_true]
  · -- an entry that timed out and was not met since
    obtain ⟨rfl, rfl⟩ := Visit.done.inj h
    refine ⟨not_live_iff.mpr (Or.inr hexp), ?_, ?_⟩
    · rw [if_pos (show NatFlow.Unreaped _ from
        ⟨occupied_of_expired hexp, by simpa using hreaped⟩)]
    · simp only [occupied_of_expired hexp, if_true]

/-- An insertion takes the first slot of the key's scan that is not live, and reports the port and
the backend of the entry it finds there; it fails only when every slot is live. -/
theorem insert_spec (t : NatTable bits) (flow : NatFlow) (nowMs : UInt32) :
    (∃ i < 2 ^ bits, ∃ s, s = probeAt (home (hash flow.fwdKey)) i ∧
        ¬ (t.slots s).Live t.timeoutMs nowMs ∧
        (∀ j < i, (t.slots (probeAt (home (hash flow.fwdKey)) j)).Live t.timeoutMs nowMs) ∧
        insert hash t flow nowMs =
          (place hash t flow s (if (t.slots s).Unreaped then t.size else t.size + 1) nowMs,
            some s, if (t.slots s).occupied then (t.slots s).snatPort else 0,
            if (t.slots s).occupied then (t.slots s).backendIdx else 0)) ∨
      ((∀ s, (t.slots s).Live t.timeoutMs nowMs) ∧ insert hash t flow nowMs = (t, none, 0, 0)) := by
  have h := scan_induct (visitVictim hash flow nowMs) (home (hash flow.fwdKey)) t
    (fun i t₁ => t₁ = t ∧
      ∀ j < i, (t.slots (probeAt (home (hash flow.fwdKey)) j)).Live t.timeoutMs nowMs)
    (fun t' r => (∃ i < 2 ^ bits, ∃ s, s = probeAt (home (hash flow.fwdKey)) i ∧
        ¬ (t.slots s).Live t.timeoutMs nowMs ∧
        (∀ j < i, (t.slots (probeAt (home (hash flow.fwdKey)) j)).Live t.timeoutMs nowMs) ∧
        t' = place hash t flow s (if (t.slots s).Unreaped then t.size else t.size + 1) nowMs ∧
        r = some (s, if (t.slots s).occupied then (t.slots s).snatPort else 0,
          if (t.slots s).occupied then (t.slots s).backendIdx else 0)) ∨
      ((∀ s, (t.slots s).Live t.timeoutMs nowMs) ∧ t' = t ∧ r = none))
    ⟨rfl, fun j hj => absurd hj (Nat.not_lt_zero j)⟩ ?_ ?_ ?_
  · rcases h with ⟨i, hi, s, hs, hdead, hbefore, ht, hr⟩ | ⟨hall, ht, hr⟩
    · refine Or.inl ⟨i, hi, s, hs, hdead, hbefore, ?_⟩
      simp only [insert, hr, ht]
    · refine Or.inr ⟨hall, ?_⟩
      simp only [insert, hr, ht]
  · rintro i t₁ t₂ - ⟨rfl, hscan⟩ hbody
    obtain ⟨ht, hlive⟩ := visitVictim_next hash hbody
    exact ⟨ht, Nat.forall_lt_succ_right.mpr ⟨hscan, hlive⟩⟩
  · rintro i t₁ t₂ r hi ⟨rfl, hscan⟩ hbody
    obtain ⟨hdead, ht, hr⟩ := visitVictim_done hash hbody
    exact Or.inl ⟨i, hi, _, rfl, hdead, hscan, ht, hr⟩
  · rintro t₁ ⟨rfl, hscan⟩
    refine Or.inr ⟨fun s => ?_, rfl, rfl⟩
    obtain ⟨i, hi, rfl⟩ := exists_probeAt_eq (home (hash flow.fwdKey)) s
    exact hscan i hi

end Operations

/-! ### Closing -/

/-- Closing an entry that is not reaped marks it, empties its port field and hands the port out. -/
theorem close_of_unreaped (h : (t.slots s).Unreaped) :
    t.close s = ({ t with
      slots := Function.update t.slots s { t.slots s with reaped := true, snatPort := 0 }
      size := if 0 < t.size then t.size - 1 else t.size },
      (t.slots s).snatPort, (t.slots s).backendIdx) := by
  simp only [close, h.1, h.2, Bool.not_true, Bool.or_self, Bool.false_eq_true, if_false, reap,
    setSlot, Function.update_self, Function.update_idem]

/-- Closing an entry again does nothing. -/
theorem close_of_not_unreaped (h : ¬ (t.slots s).Unreaped) : t.close s = (t, 0, 0) := by
  have : (!(t.slots s).occupied || (t.slots s).reaped) = true := by
    by_contra hc
    simp only [Bool.not_eq_true, Bool.or_eq_false_iff, Bool.not_eq_false'] at hc
    exact h hc
  simp only [close, this, if_true]

end NatTable

end Cerebellum

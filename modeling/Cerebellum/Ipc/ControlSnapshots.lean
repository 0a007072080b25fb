import Cerebellum.Ipc.ControlView

/-!
# Snapshots of the control view

What `ReadControl` returns is one version of the view, either the initial content or one completed
publish, and `RunControlLoop` stores the pools of later and later versions. The sequence number of
version `k` is `2 k` above the first one, modulo `2 ^ 32`. The reader copies entries while
they may change, but then finds another sequence number, unless it came round in between: this takes
`2 ^ 31` publishes that make it odd during one call of `ReadControl`.

## Main definitions

* `Cerebellum.seqAt`: the sequence number of a version.
* `Cerebellum.Control.Consistent`: the invariant of the publisher, the reader and their records.

## Main results

* `Cerebellum.Control.consistent_run`: the invariant holds along every run within the bound.
* `Cerebellum.Control.snapshots_not_torn`: snapshots are versions, and pools are stored in order.
* `Cerebellum.Control.wrapped_seq_tears_snapshot`: the same bound on the publishes that begin during
  the call, and not on those that make their first store during it, is too weak.
-/

namespace Cerebellum

/-! ### Sequence numbers -/

/-- The sequence number of version `k`, when version `0` has the number `start`. -/
def seqAt (start : UInt32) (k : ℕ) : UInt32 := start + UInt32.ofNat (2 * k)

theorem toNat_seqAt (start : UInt32) (k : ℕ) :
    (seqAt start k).toNat = (start.toNat + 2 * k) % 2 ^ 32 := by
  rw [seqAt, UInt32.toNat_add, UInt32.toNat_ofNat', Nat.add_mod_mod]

theorem seqAt_zero (start : UInt32) : seqAt start 0 = start := by
  rw [← UInt32.toNat_inj, toNat_seqAt]
  exact Nat.mod_eq_of_lt start.toNat_lt

theorem seqAt_add_two (start : UInt32) (k : ℕ) : seqAt start k + 2 = seqAt start (k + 1) := by
  rw [← UInt32.toNat_inj, UInt32.toNat_add, toNat_seqAt, toNat_seqAt, Nat.mod_add_mod]
  rfl

theorem and_one_eq_zero_iff (a : UInt32) : a &&& 1 = 0 ↔ a.toNat % 2 = 0 := by
  rw [← UInt32.toNat_inj, UInt32.toNat_and]
  exact (Nat.and_one_is_mod a.toNat).symm ▸ Iff.rfl

/-- Fewer than `2 ^ 31` versions have different sequence numbers. -/
theorem eq_of_seqAt_eq {start : UInt32} {k n : ℕ} (hle : k ≤ n) (hlt : n < k + 2 ^ 31)
    (h : seqAt start k = seqAt start n) : k = n := by
  rw [← UInt32.toNat_inj, toNat_seqAt, toNat_seqAt] at h
  omega

/-- While a publish is under way the sequence number is not that of a version. -/
theorem seqAt_add_one_ne (start : UInt32) (k n : ℕ) : seqAt start k + 1 ≠ seqAt start n := by
  intro h
  rw [← UInt32.toNat_inj, UInt32.toNat_add, toNat_seqAt, toNat_seqAt] at h
  have hone : (1 : UInt32).toNat = 1 := rfl
  omega

theorem seqAt_add_one_and_one {start : UInt32} (heven : start &&& 1 = 0) (k : ℕ) :
    (seqAt start k + 1) &&& 1 ≠ 0 := by
  rw [and_one_eq_zero_iff] at heven
  rw [ne_eq, and_one_eq_zero_iff, UInt32.toNat_add, toNat_seqAt]
  have hone : (1 : UInt32).toNat = 1 := rfl
  omega

namespace Control

variable {view₀ : ControlView} {s : Control} {base r : ℕ}

/-! ### The invariant -/

/-- The number of publishes that made the sequence number odd. -/
def opens (s : Control) : ℕ := s.published.length + if s.publisher.isWriting then 1 else 0

/-- The first `i` entries of `src` are written, after version `n`. -/
structure Written (view₀ view : ControlView) (n : ℕ) (src : List ControlBackend) (start : UInt32)
    (i : ℕ) : Prop where
  start_eq : start = seqAt view₀.seq n
  seq_eq : view.seq = start + 1
  count_eq : view.count = min src.length kMaxBackends
  le_count : i ≤ view.count
  backends_eq : ∀ j < i, view.backends j = src.getD j default

/-- The view is at rest and holds the last version. -/
def AtRest (view₀ : ControlView) (s : Control) : Prop :=
  (s.versions view₀)[s.published.length]? = some (s.view.seq, s.view.content)

/-- What the publisher has written so far. -/
def Publishing (view₀ : ControlView) (s : Control) : Prop :=
  match s.publisher with
  | .idle => s.AtRest view₀
  | .loaded _ start => start = s.view.seq ∧ s.AtRest view₀
  | .opened _ start => start = seqAt view₀.seq s.published.length ∧ s.view.seq = start + 1
  | .looping src start i => Written view₀ s.view s.published.length src start i
  | .copying src start i =>
    Written view₀ s.view s.published.length src start i ∧ i < s.view.count
  | .closing src start => Written view₀ s.view s.published.length src start s.view.count

/-- The reader loaded the sequence number of version `k`, which is not older than version `r`; the
publishes that opened since then are among those counted by `s.opened`. -/
structure ReadsVersion (view₀ : ControlView) (s : Control) (r : ℕ) (seqBefore : UInt32)
    (k : ℕ) : Prop where
  le : r ≤ k
  le_published : k ≤ s.published.length
  seq_eq : seqBefore = seqAt view₀.seq k
  opens_le : s.opens ≤ k + s.opened

/-- What the reader has copied so far: a part of its version, unless a publish opened since. -/
def Reading (view₀ : ControlView) (s : Control) (r : ℕ) : Prop :=
  match s.reader with
  | .sleeping | .entering => True
  | .counting seqBefore => ∃ k, s.ReadsVersion view₀ r seqBefore k
  | .copying seqBefore count out => ∃ k, s.ReadsVersion view₀ r seqBefore k ∧
      (s.opens = k → ∃ p, (s.versions view₀)[k]? = some p ∧ p.2.1.length = count ∧
        out.1 <+: p.2.1)

/-- The stored pools are those of a subsequence of the versions from `base` on; the last of these is
version `m - 1`, which is the one applied. -/
def StoredInOrder (view₀ : ControlView) (base : ℕ) (s : Control) (r : ℕ) : Prop :=
  ∃ (m : ℕ) (sub : List (UInt32 × Snapshot)), base ≤ m ∧ m ≤ r + 1 ∧
    sub.Sublist (((s.versions view₀).take m).drop base) ∧
    s.stored = sub.map (fun p => buildPool p.2) ∧
    ∀ n, m = n + 1 → s.applied = seqAt view₀.seq n

/-- The invariant; `r` is the version that was returned last. -/
structure Consistent (view₀ : ControlView) (base : ℕ) (s : Control) (r : ℕ) : Prop where
  numbered : ∀ (k : ℕ) (p : UInt32 × Snapshot),
    (s.versions view₀)[k]? = some p → p.1 = seqAt view₀.seq k
  publishing : s.Publishing view₀
  reading : s.Reading view₀ r
  returned_mem : ∀ p ∈ s.returned, p ∈ s.versions view₀
  stored : s.StoredInOrder view₀ base r
  le_published : r ≤ s.published.length

theorem length_versions : (s.versions view₀).length = s.published.length + 1 := by
  simp [versions]

/-- Between two publishes the view is at rest, and during one the sequence number is odd. -/
theorem Publishing.atRest_or_odd (h : s.Publishing view₀) :
    s.publisher.isWriting = false ∧ s.AtRest view₀ ∨
      s.publisher.isWriting = true ∧ s.view.seq = seqAt view₀.seq s.published.length + 1 := by
  unfold Publishing at h
  cases hp : s.publisher with
  | idle =>
    simp only [hp] at h
    exact .inl ⟨rfl, h⟩
  | loaded src start =>
    simp only [hp] at h
    exact .inl ⟨rfl, h.2⟩
  | opened src start =>
    simp only [hp] at h
    exact .inr ⟨rfl, h.1 ▸ h.2⟩
  | looping src start i =>
    simp only [hp] at h
    exact .inr ⟨rfl, h.start_eq ▸ h.seq_eq⟩
  | copying src start i =>
    simp only [hp] at h
    exact .inr ⟨rfl, h.1.start_eq ▸ h.1.seq_eq⟩
  | closing src start =>
    simp only [hp] at h
    exact .inr ⟨rfl, h.start_eq ▸ h.seq_eq⟩

/-- When no publish opened after version `k`, the view holds version `k`. -/
theorem Publishing.content_of_opens {k : ℕ} (h : s.Publishing view₀)
    (hk : k ≤ s.published.length) (hopens : s.opens = k) :
    (s.versions view₀)[k]? = some (s.view.seq, s.view.content) := by
  obtain ⟨hquiet, hrest⟩ | ⟨hwriting, -⟩ := h.atRest_or_odd
  · have hlen : s.published.length = k := by simpa [opens, hquiet] using hopens
    exact hlen ▸ hrest
  · rw [opens, if_pos hwriting] at hopens
    omega

/-! ### Moves of the publisher -/

/-- What the publisher leaves alone, and how its move shows in the counts. -/
structure PublisherMove (view₀ : ControlView) (s s' : Control) : Prop where
  reader_eq : s'.reader = s.reader
  returned_eq : s'.returned = s.returned
  stored_eq : s'.stored = s.stored
  applied_eq : s'.applied = s.applied
  versions_extend : s.versions view₀ <+: s'.versions view₀
  opens_le : s.opens ≤ s'.opens
  opens_eq : s'.opens + s.opened = s.opens + s'.opened

theorem publisherMove_publish (src : List ControlBackend) :
    PublisherMove view₀ s (s.publish src) := by
  cases hp : s.publisher with
  | looping src' start i =>
    rw [publish, hp]
    by_cases hi : i < s.view.count <;> constructor <;>
      simp [versions, opens, hp, hi, Publisher.isWriting]
  | loaded src' start =>
    rw [publish, hp]
    constructor <;> simp [versions, opens, hp, Publisher.isWriting]
    omega
  | _ =>
    rw [publish, hp]
    constructor <;> simp [versions, opens, hp, Publisher.isWriting]

namespace PublisherMove

variable {s' : Control}

theorem length_le (h : PublisherMove view₀ s s') : s.published.length ≤ s'.published.length := by
  simpa [length_versions] using h.versions_extend.length_le

theorem getElem?_eq (h : PublisherMove view₀ s s') {k : ℕ} (hk : k ≤ s.published.length) :
    (s'.versions view₀)[k]? = (s.versions view₀)[k]? := by
  obtain ⟨later, hlater⟩ := h.versions_extend
  rw [← hlater, List.getElem?_append_left]
  rw [length_versions]
  omega

theorem readsVersion (h : PublisherMove view₀ s s') {seqBefore : UInt32} {k : ℕ}
    (hk : s.ReadsVersion view₀ r seqBefore k) : s'.ReadsVersion view₀ r seqBefore k where
  le := hk.le
  le_published := hk.le_published.trans h.length_le
  seq_eq := hk.seq_eq
  opens_le := by
    have hopens := hk.opens_le
    have heq := h.opens_eq
    omega

/-- If no publish opened after version `k` now, none had before. -/
theorem opens_eq_of_eq (h : PublisherMove view₀ s s') {k : ℕ} (hk : k ≤ s.published.length)
    (hopens : s'.opens = k) : s.opens = k := by
  have hle := h.opens_le
  have hlen : s.published.length ≤ s.opens := Nat.le_add_right _ _
  omega

theorem reading (h : PublisherMove view₀ s s') (hs : s.Reading view₀ r) :
    s'.Reading view₀ r := by
  unfold Reading at hs ⊢
  rw [h.reader_eq]
  cases hr : s.reader with
  | sleeping => trivial
  | entering => trivial
  | counting seqBefore =>
    simp only [hr] at hs ⊢
    exact hs.imp fun k hk => h.readsVersion hk
  | copying seqBefore count out =>
    simp only [hr] at hs ⊢
    obtain ⟨k, hk, hout⟩ := hs
    refine ⟨k, h.readsVersion hk, fun hopens => ?_⟩
    rw [h.getElem?_eq hk.le_published]
    exact hout (h.opens_eq_of_eq hk.le_published hopens)

theorem storedInOrder (h : PublisherMove view₀ s s') (hs : s.StoredInOrder view₀ base r) :
    s'.StoredInOrder view₀ base r := by
  obtain ⟨m, sub, hbase, hm, hsub, hstored, happlied⟩ := hs
  refine ⟨m, sub, hbase, hm, hsub.trans ?_, h.stored_eq ▸ hstored, h.applied_eq ▸ happlied⟩
  obtain ⟨later, hlater⟩ := h.versions_extend
  rw [← hlater, List.take_append]
  exact (List.sublist_append_left _ _).drop base

end PublisherMove

/-- When all entries are written the view holds the clamped list. -/
theorem Written.content_eq {view : ControlView} {n : ℕ} {src : List ControlBackend} {start : UInt32}
    (h : Written view₀ view n src start view.count) : view.content = clamp src :=
  ControlView.content_eq_clamp h.count_eq h.backends_eq

/-- The last move of a publish adds a version. -/
theorem versions_publish_closing {src src' : List ControlBackend} {start : UInt32}
    (h : s.publisher = .closing src' start) :
    (s.publish src).versions view₀ = s.versions view₀ ++ [(start + 2, clamp src')] := by
  simp [publish, h, versions]

theorem numbered_publish (src : List ControlBackend) (h : s.Consistent view₀ base r) (k : ℕ)
    (p : UInt32 × Snapshot) (hp : ((s.publish src).versions view₀)[k]? = some p) :
    p.1 = seqAt view₀.seq k := by
  have hlen : k < ((s.publish src).versions view₀).length := (List.getElem?_eq_some_iff.mp hp).1
  by_cases hk : k ≤ s.published.length
  · rw [(publisherMove_publish src).getElem?_eq hk] at hp
    exact h.numbered k p hp
  have hpublishing := h.publishing
  unfold Publishing at hpublishing
  -- Only the last move of a publish adds a version.
  cases hpub : s.publisher with
  | closing src' start =>
    simp only [hpub] at hpublishing
    rw [versions_publish_closing hpub] at hp hlen
    rw [List.length_append, length_versions, List.length_singleton] at hlen
    have hk' : k = s.published.length + 1 := by omega
    subst hk'
    rw [← length_versions, List.getElem?_concat_length, Option.some.injEq] at hp
    rw [← hp, hpublishing.start_eq]
    exact seqAt_add_two _ _
  | _ =>
    simp [publish, hpub, versions] at hlen
    omega

theorem publishing_publish (src : List ControlBackend) (h : s.Consistent view₀ base r) :
    (s.publish src).Publishing view₀ := by
  have hpublishing := h.publishing
  unfold Publishing at hpublishing
  cases hpub : s.publisher with
  | idle =>
    simp only [hpub] at hpublishing
    rw [publish, hpub]
    exact ⟨rfl, hpublishing⟩
  | loaded src' start =>
    simp only [hpub] at hpublishing
    rw [publish, hpub]
    refine ⟨?_, rfl⟩
    rw [hpublishing.1]
    exact h.numbered _ _ hpublishing.2
  | opened src' start =>
    simp only [hpub] at hpublishing
    rw [publish, hpub]
    exact ⟨hpublishing.1, hpublishing.2, rfl, Nat.zero_le _, fun j hj => absurd hj j.not_lt_zero⟩
  | looping src' start i =>
    simp only [hpub] at hpublishing
    rw [publish, hpub]
    by_cases hi : i < s.view.count
    · simp only [Publishing, hi, if_true]
      exact ⟨hpublishing, trivial⟩
    · simp only [Publishing, hi, if_false]
      have heq : i = s.view.count := le_antisymm hpublishing.le_count (not_lt.mp hi)
      exact heq ▸ hpublishing
  | copying src' start i =>
    simp only [hpub] at hpublishing
    obtain ⟨hwritten, hi⟩ := hpublishing
    rw [publish, hpub]
    refine ⟨hwritten.start_eq, hwritten.seq_eq, hwritten.count_eq, hi, fun j hj => ?_⟩
    by_cases hj' : j = i
    · subst hj'
      exact Function.update_self _ _ _
    · rw [← hwritten.backends_eq j (by omega)]
      exact Function.update_of_ne hj' _ _
  | closing src' start =>
    simp only [hpub] at hpublishing
    have hcontent : s.view.content = clamp src' := hpublishing.content_eq
    have hlast : ((s.publish src).versions view₀)[s.published.length + 1]? =
        some (start + 2, clamp src') := by
      rw [versions_publish_closing hpub, ← length_versions, List.getElem?_concat_length]
    rw [publish, hpub] at hlast ⊢
    simp only [Publishing, AtRest, List.length_append, List.length_singleton]
    rw [hlast, ← hcontent]
    rfl

theorem Consistent.publish (h : s.Consistent view₀ base r) (src : List ControlBackend) :
    (s.publish src).Consistent view₀ base r := by
  have hmove : PublisherMove view₀ s (s.publish src) := publisherMove_publish src
  exact {
    numbered := numbered_publish src h
    publishing := publishing_publish src h
    reading := hmove.reading h.reading
    returned_mem := fun p hp =>
      hmove.versions_extend.subset (h.returned_mem p (hmove.returned_eq ▸ hp))
    stored := hmove.storedInOrder h.stored
    le_published := h.le_published.trans hmove.length_le }

/-! ### Moves of the reader -/

/-- A sequence number that is even is the number of the last version. -/
theorem Consistent.readsVersion_of_even (h : s.Consistent view₀ base r)
    (heven : view₀.seq &&& 1 = 0) (hseq : s.view.seq &&& 1 = 0) :
    s.ReadsVersion view₀ r s.view.seq s.published.length := by
  obtain ⟨hquiet, hrest⟩ | ⟨-, hodd⟩ := h.publishing.atRest_or_odd
  · refine ⟨h.le_published, le_rfl, h.numbered _ _ hrest, ?_⟩
    simp [opens, hquiet]
  · rw [hodd] at hseq
    exact absurd hseq (seqAt_add_one_and_one heven _)

/-- The two loads of the sequence number agree only if no publish opened between them. -/
theorem Consistent.opens_eq_of_seq_eq (h : s.Consistent view₀ base r) {k : ℕ} {seqBefore : UInt32}
    (hk : s.ReadsVersion view₀ r seqBefore k) (hopened : s.opened < 2 ^ 31)
    (hseq : s.view.seq = seqBefore) : s.opens = k := by
  obtain ⟨hquiet, hrest⟩ | ⟨-, hodd⟩ := h.publishing.atRest_or_odd
  · have hlen : s.opens = s.published.length := by simp [opens, hquiet]
    have hle : s.opens ≤ k + s.opened := hk.opens_le
    have hnumber : s.view.seq = seqAt view₀.seq s.published.length := h.numbered _ _ hrest
    rw [hlen]
    have heq : seqAt view₀.seq k = seqAt view₀.seq s.published.length := by
      rw [← hk.seq_eq, ← hnumber, hseq]
    exact (eq_of_seqAt_eq hk.le_published (by omega) heq).symm
  · rw [hodd, hk.seq_eq] at hseq
    exact absurd hseq (seqAt_add_one_ne _ _ _)

/-- The entry that is copied next is the next one of the version. -/
theorem append_getElem_content {view : ControlView} {out : List ControlBackend}
    (hout : out <+: view.content.1) (hlt : out.length < view.content.1.length) :
    out ++ [view.backends out.length] <+: view.content.1 := by
  have hnext : view.content.1.get ⟨out.length, hlt⟩ = view.backends out.length := by
    simp [ControlView.content]
  obtain ⟨rest, hrest⟩ := hout
  cases rest with
  | nil => simp [← hrest] at hlt
  | cons e rest =>
    refine ⟨rest, ?_⟩
    have he : e = view.backends out.length := by
      rw [← hnext, List.get_eq_getElem]
      simp [← hrest]
    rw [List.append_assoc, List.singleton_append, ← he, hrest]

theorem ReadsVersion.withReader {seqBefore : UInt32} {k : ℕ}
    (h : s.ReadsVersion view₀ r seqBefore k) (reader : Reader) :
    ({ s with reader := reader } : Control).ReadsVersion view₀ r seqBefore k :=
  ⟨h.le, h.le_published, h.seq_eq, h.opens_le⟩

/-- A returned version is newer than the one applied last, or it is the same one again. -/
theorem StoredInOrder.readReturn (h : s.StoredInOrder view₀ base r) {k : ℕ} {seq : UInt32}
    {out : Snapshot} (hk : s.ReadsVersion view₀ r seq k)
    (hversion : (s.versions view₀)[k]? = some (seq, out)) :
    (s.readReturn seq out).StoredInOrder view₀ base k := by
  have hle := hk.le
  obtain ⟨m, sub, hbase, hm, hsub, hstored, happlied⟩ := h
  by_cases hseq : seq = s.applied
  · refine ⟨m, sub, hbase, by omega, hsub, ?_, ?_⟩
    · simpa [Control.readReturn, hseq] using hstored
    · simpa [Control.readReturn, hseq] using happlied
  · have hmk : m ≤ k := by
      by_contra hlt
      exact hseq (hk.seq_eq.trans (happlied k (by omega)).symm)
    refine ⟨k + 1, sub ++ [(seq, out)], by omega, le_rfl, ?_, ?_, ?_⟩
    · have hlen : base ≤ ((s.versions view₀).take k).length := by
        have hkn := hk.le_published
        rw [List.length_take, length_versions]
        omega
      have htake : ((s.versions view₀).take (k + 1)).drop base =
          ((s.versions view₀).take k).drop base ++ [(seq, out)] := by
        rw [List.take_add_one, hversion, Option.toList_some, List.drop_append_of_le_length hlen]
      have hearlier : sub.Sublist (((s.versions view₀).take k).drop base) :=
        hsub.trans ((List.take_prefix_take_left hmk).sublist.drop base)
      exact htake ▸ hearlier.append_right _
    · simp [Control.readReturn, hseq, hstored]
    · intro n hn
      obtain rfl : k = n := Nat.succ.inj hn
      exact (if_pos hseq).trans hk.seq_eq

theorem Consistent.readReturn (h : s.Consistent view₀ base r) {k : ℕ} {seq : UInt32}
    {out : Snapshot} (hk : s.ReadsVersion view₀ r seq k)
    (hversion : (s.versions view₀)[k]? = some (seq, out)) :
    (s.readReturn seq out).Consistent view₀ base k where
  numbered := h.numbered
  publishing := h.publishing
  reading := trivial
  returned_mem p hp := by
    obtain hp | hp := List.mem_append.mp hp
    · exact h.returned_mem p hp
    · rw [List.mem_singleton.mp hp]
      exact List.mem_of_getElem? hversion
  stored := h.stored.readReturn hk hversion
  le_published := hk.le_published

theorem Consistent.read (h : s.Consistent view₀ base r) (heven : view₀.seq &&& 1 = 0)
    (hopened : s.reader.isReading = true → s.opened < 2 ^ 31) :
    ∃ r', s.read.Consistent view₀ base r' := by
  have hreading := h.reading
  unfold Reading at hreading
  cases hreader : s.reader with
  | sleeping =>
    rw [Control.read, hreader]
    exact ⟨r, h.numbered, h.publishing, trivial, h.returned_mem, h.stored, h.le_published⟩
  | entering =>
    rw [Control.read, hreader]
    by_cases hseq : s.view.seq &&& 1 = 0
    · simp only [hseq, ne_eq, not_true_eq_false, if_false]
      exact ⟨r, h.numbered, h.publishing, 
        ⟨_, (h.readsVersion_of_even heven hseq).withReader _⟩, h.returned_mem, h.stored,
        h.le_published⟩
    · simp only [ne_eq, hseq, not_false_eq_true, if_true]
      exact ⟨r, h⟩
  | counting seqBefore =>
    simp only [hreader] at hreading
    obtain ⟨k, hk⟩ := hreading
    rw [Control.read, hreader]
    refine ⟨r, h.numbered, h.publishing, ⟨k, hk.withReader _, fun hopens => ?_⟩, h.returned_mem,
      h.stored, h.le_published⟩
    refine ⟨_, h.publishing.content_of_opens hk.le_published hopens, ?_, List.nil_prefix⟩
    simp [ControlView.content]
  | copying seqBefore count out =>
    simp only [hreader] at hreading
    obtain ⟨k, hk, hout⟩ := hreading
    rw [Control.read, hreader]
    by_cases hlt : out.1.length < count
    · simp only [hlt, dif_pos]
      refine ⟨r, h.numbered, h.publishing, ⟨k, hk.withReader _, fun hopens => ?_⟩, h.returned_mem,
        h.stored, h.le_published⟩
      obtain ⟨p, hp, hlen, hpre⟩ := hout hopens
      have hcontent := h.publishing.content_of_opens hk.le_published hopens
      obtain rfl : p = _ := Option.some.inj (hp.symm.trans hcontent)
      exact ⟨_, hp, hlen, append_getElem_content hpre (hlen ▸ hlt)⟩
    · simp only [hlt, dif_neg, not_false_eq_true]
      by_cases hseq : s.view.seq = seqBefore
      · rw [if_pos hseq]
        have hopens : s.opens = k := h.opens_eq_of_seq_eq hk (hopened (by rw [hreader]; rfl)) hseq
        obtain ⟨p, hp, hlen, hpre⟩ := hout hopens
        have hall : out = p.2 := Subtype.ext (hpre.eq_of_length_le (by omega))
        have hnumber : seqBefore = p.1 := hk.seq_eq.trans (h.numbered k p hp).symm
        exact ⟨k, h.readReturn hk (hall ▸ hnumber ▸ hp)⟩
      · rw [if_neg hseq]
        exact ⟨r, h.numbered, h.publishing, trivial, h.returned_mem, h.stored, h.le_published⟩

/-! ### Runs -/

theorem run_append (s : Control) (moves later : List Move) :
    s.run (moves ++ later) = (s.run moves).run later :=
  List.foldl_append

theorem within_append {count : Control → ℕ} {moves later : List Move} :
    Within count s (moves ++ later) ↔ Within count s moves ∧ Within count (s.run moves) later := by
  induction moves generalizing s with
  | nil => simp [Within, run]
  | cons move moves ih =>
    simp only [List.cons_append, Within, ih, and_assoc]
    rfl

/-- Fewer than `2 ^ 31` openings during one call keep the invariant, in any interleaving. -/
theorem consistent_run (heven : view₀.seq &&& 1 = 0) (moves : List Move)
    (h : s.Consistent view₀ base r) (hwithin : Within Control.opened s moves) :
    ∃ r', (s.run moves).Consistent view₀ base r' := by
  induction moves generalizing s r with
  | nil => exact ⟨r, h⟩
  | cons move moves ih =>
    obtain ⟨hnow, hlater⟩ := hwithin
    cases move with
    | publish src => exact ih (h.publish src) hlater
    | read =>
      obtain ⟨r', h'⟩ := h.read heven hnow
      exact ih h' hlater

/-- The invariant at the start; version `0` counts as applied if it has the number `applied₀`. -/
theorem consistent_init (view₀ : ControlView) (applied₀ : UInt32)
    (hbase : base = 0 ∨ base = 1 ∧ applied₀ = view₀.seq) :
    (init view₀ applied₀).Consistent view₀ base 0 where
  numbered k p hp := by
    cases k with
    | zero =>
      obtain rfl : _ = p := Option.some.inj hp
      exact (seqAt_zero _).symm
    | succ k => simp [versions, init] at hp
  publishing := rfl
  reading := trivial
  returned_mem p hp := absurd hp List.not_mem_nil
  stored := by
    refine ⟨base, [], le_rfl, ?_, List.nil_sublist _, rfl, fun n hn => ?_⟩
    · omega
    · obtain rfl : n = 0 := by omega
      obtain ⟨-, happlied⟩ := hbase.resolve_left (by omega)
      exact happlied.trans (seqAt_zero _).symm
  le_published := le_rfl

/-- Whatever `ReadControl` returns is the sequence number and the content of one version, and the
stored pools are those of a subsequence of the versions, of the published ones if the first was
already applied. -/
theorem snapshots_not_torn (view₀ : ControlView) (applied₀ : UInt32) (moves : List Move)
    (heven : view₀.seq &&& 1 = 0) (hwithin : Within Control.opened (init view₀ applied₀) moves) :
    (∀ p ∈ ((init view₀ applied₀).run moves).returned,
        p ∈ ((init view₀ applied₀).run moves).versions view₀) ∧
      (∃ sub : List (UInt32 × Snapshot),
        sub.Sublist (((init view₀ applied₀).run moves).versions view₀) ∧
        ((init view₀ applied₀).run moves).stored = sub.map fun p => buildPool p.2) ∧
      (applied₀ = view₀.seq → ∃ sub : List (UInt32 × List ControlBackend),
        sub.Sublist ((init view₀ applied₀).run moves).published ∧
        ((init view₀ applied₀).run moves).stored = sub.map fun p => buildPool (clamp p.2)) := by
  refine ⟨?_, ?_, fun happlied => ?_⟩
  · obtain ⟨r, h⟩ := consistent_run heven moves (consistent_init view₀ applied₀ (.inl rfl)) hwithin
    exact h.returned_mem
  · obtain ⟨r, h⟩ := consistent_run heven moves (consistent_init view₀ applied₀ (.inl rfl)) hwithin
    obtain ⟨m, sub, -, -, hsub, hstored, -⟩ := h.stored
    exact ⟨sub, hsub.trans (List.take_sublist _ _), hstored⟩
  · obtain ⟨r, h⟩ :=
      consistent_run heven moves (consistent_init view₀ applied₀ (.inr ⟨rfl, happlied⟩)) hwithin
    obtain ⟨m, sub, -, -, hsub, hstored, -⟩ := h.stored
    have hpublished := hsub.trans ((List.take_sublist _ _).drop 1)
    rw [versions, List.drop_one, List.tail_cons, List.sublist_map_iff] at hpublished
    obtain ⟨sub', hsub', rfl⟩ := hpublished
    exact ⟨sub', hsub', by rw [hstored, List.map_map]; rfl⟩

/-- A backend is published, then read, and its pool is stored. -/
theorem snapshots_not_torn_one_publish :
    ((init {} 0).run
        (List.replicate 7 (.publish [{ ip := 1 }]) ++ List.replicate 5 .read)).stored =
      [buildPool (clamp [{ ip := 1 }])] ∧
    ∃ sub : List (UInt32 × List ControlBackend),
      sub.Sublist ((init {} 0).run
        (List.replicate 7 (.publish [{ ip := 1 }]) ++ List.replicate 5 .read)).published ∧
      [buildPool (clamp [{ ip := 1 }])] = sub.map fun p => buildPool (clamp p.2) :=
  ⟨rfl, (snapshots_not_torn {} 0 _ rfl (by decide)).2.2 rfl⟩

/-! ### A sequence number that comes round -/

section Wrap

/-- The list that is published over and over. -/
private def newList : List ControlBackend := [{ ip := 2 }, { ip := 2 }]

/-- The view at the start holds two entries that differ from those. -/
private def oldView : ControlView where
  count := 2
  backends _ := { ip := 1 }

/-- The reader has one of the old entries, and `n + 1` publishes are complete. -/
private structure Stalled (n : ℕ) (s : Control) : Prop where
  publisher_eq : s.publisher = .idle
  reader_eq : s.reader = .copying 0 ⟨2, by decide⟩ ⟨[{ ip := 1 }], by decide⟩
  seq_eq : s.view.seq = seqAt 0 (n + 1)
  backends_eq : s.view.backends 1 = { ip := 2 }
  started_eq : s.started = n
  published_eq : ∀ p ∈ s.published, p.2 = newList

/-- A whole call of `PublishControl` for `newList`. -/
private theorem run_publish_newList (h : s.publisher = .idle) :
    s.run (List.replicate 9 (.publish newList)) =
      { s with
        view := {
          seq := s.view.seq + 2
          count := 2
          backends :=
            Function.update (Function.update s.view.backends 0 { ip := 2 }) 1 { ip := 2 } }
        published := s.published ++ [(s.view.seq + 2, newList)]
        started := s.started + 1
        opened := s.opened + 1 } := by
  obtain ⟨view, publisher, reader, applied, published, returned, stored, started, opened⟩ := s
  obtain rfl : publisher = .idle := h
  rfl

private theorem within_publish_newList (h : s.publisher = .idle) (hs : s.started + 1 < 2 ^ 31) :
    Within Control.started s (List.replicate 9 (.publish newList)) := by
  obtain ⟨view, publisher, reader, applied, published, returned, stored, started, opened⟩ := s
  obtain rfl : publisher = .idle := h
  have hlt : started < 2 ^ 31 := Nat.lt_of_succ_lt hs
  exact ⟨fun _ => hlt, fun _ => hs, fun _ => hs, fun _ => hs, fun _ => hs, fun _ => hs,
    fun _ => hs, fun _ => hs, fun _ => hs, trivial⟩

private theorem stalled_publish {n : ℕ} (h : Stalled n s) :
    Stalled (n + 1) (s.run (List.replicate 9 (.publish newList))) := by
  rw [run_publish_newList h.publisher_eq]
  exact {
    publisher_eq := h.publisher_eq
    reader_eq := h.reader_eq
    seq_eq := (congrArg (· + 2) h.seq_eq).trans (seqAt_add_two _ _)
    backends_eq := rfl
    started_eq := congrArg (· + 1) h.started_eq
    published_eq := fun p hp => by
      obtain hp | hp := List.mem_append.mp hp
      · exact h.published_eq p hp
      · rw [List.mem_singleton.mp hp] }

private theorem stalled_publishes {n m : ℕ} (h : Stalled n s) (hm : n + m < 2 ^ 31) :
    Stalled (n + m) (s.run (List.replicate (9 * m) (.publish newList))) ∧
      Within Control.started s (List.replicate (9 * m) (.publish newList)) := by
  induction m generalizing n s with
  | zero => exact ⟨h, trivial⟩
  | succ m ih =>
    have hsplit : List.replicate (9 * (m + 1)) (Move.publish newList) =
        List.replicate 9 (.publish newList) ++ List.replicate (9 * m) (.publish newList) := by
      rw [List.replicate_append_replicate, Nat.mul_succ, Nat.add_comm]
    obtain ⟨hlast, hwithin⟩ := ih (stalled_publish h) (by omega)
    have hstarted : s.started + 1 < 2 ^ 31 := by
      rw [h.started_eq]
      omega
    rw [hsplit, run_append, within_append]
    rw [Nat.add_assoc, Nat.add_comm 1 m] at hlast
    exact ⟨hlast, within_publish_newList h.publisher_eq hstarted, hwithin⟩

/-- The publisher loads the sequence number, the reader copies one entry, and the publisher goes on
to the end of its call. -/
private def stallMoves : List Move :=
  .publish newList :: List.replicate 4 .read ++ List.replicate 8 (.publish newList)

/-- Then the publisher goes on until the sequence number has come round, and the reader copies the
other entry. -/
private def wrapMoves : List Move :=
  stallMoves ++ List.replicate (9 * (2 ^ 31 - 1)) (.publish newList) ++ [.read, .read]

private theorem stalled_start : Stalled 0 ((init oldView 0).run stallMoves) := by
  constructor
  · rfl
  · rfl
  · rfl
  · rfl
  · rfl
  · intro p hp
    obtain rfl : p = (2, newList) := List.mem_singleton.mp hp
    rfl

private theorem within_start : Within Control.started (init oldView 0) stallMoves := by
  decide

/-- If the sequence number is that of version `0` again, the reader returns one old entry and one
new entry. -/
private theorem stalled_read {n : ℕ} (h : Stalled n s) (hn : n < 2 ^ 31)
    (hseq : seqAt 0 (n + 1) = 0) :
    Within Control.started s [.read, .read] ∧
    (0, ⟨[{ ip := 1 }, { ip := 2 }], by decide⟩) ∈ (s.run [.read, .read]).returned ∧
      (s.run [.read, .read]).published = s.published := by
  obtain ⟨view, publisher, reader, applied, published, returned, stored, started, opened⟩ := s
  obtain rfl : reader = _ := h.reader_eq
  have hnumber : view.seq = 0 := h.seq_eq.trans hseq
  have hentry : view.backends 1 = { ip := 2 } := h.backends_eq
  have hstarted : started < 2 ^ 31 := h.started_eq.trans_lt hn
  refine ⟨⟨fun _ => hstarted, fun _ => hstarted, trivial⟩, ?_⟩
  simp [run, step, Control.read, readReturn, hnumber, hentry]

/-- A bound on the publishes that begin during a call of `ReadControl` is not enough: one that was
about to make its first store when the call began is not among them, and makes it `2 ^ 31` openings
in all. -/
theorem wrapped_seq_tears_snapshot :
    ¬ ∀ (view₀ : ControlView) (applied₀ : UInt32) (moves : List Move), view₀.seq &&& 1 = 0 →
      Within Control.started (init view₀ applied₀) moves →
      ∀ p ∈ ((init view₀ applied₀).run moves).returned,
        p ∈ ((init view₀ applied₀).run moves).versions view₀ := by
  intro hclaim
  have hlt : 0 + (2 ^ 31 - 1) < 2 ^ 31 := by decide
  obtain ⟨hstalled, hpublishes⟩ := stalled_publishes stalled_start hlt
  obtain ⟨hreads, hreturned, hpublished⟩ := stalled_read hstalled hlt rfl
  have hwithin : Within Control.started (init oldView 0) wrapMoves := by
    rw [wrapMoves, within_append, within_append, run_append]
    exact ⟨⟨within_start, hpublishes⟩, hreads⟩
  have hmem := hclaim oldView 0 wrapMoves rfl hwithin
  rw [wrapMoves, run_append, run_append] at hmem
  have htorn := hmem _ hreturned
  rw [versions, hpublished, List.mem_cons, List.mem_map] at htorn
  obtain hold | ⟨p, hp, hnew⟩ := htorn
  · exact absurd (congrArg (fun p => p.2.1) hold) (by decide)
  · rw [hstalled.published_eq p hp] at hnew
    exact absurd (congrArg (fun p => p.2.1) hnew)
      (show ¬ (clamp newList).1 = [{ ip := 1 }, { ip := 2 }] by decide)

end Wrap

end Control

end Cerebellum

import Mathlib.Data.List.Perm.Basic
import Mathlib.Tactic.Common

/-!
# Resources with one owner

A family of lists *partitions* some resources when each of these is in exactly one of the lists and
there only once. This is what it takes for a resource that is reached through one list not to be
changed through another one. The lemmas say that a partition stays one when a resource moves from
one list to another, when a new resource is made, and when a list is moved as a whole.

## Main definitions

* `Cerebellum.Partitioned`.

## Main results

* `Cerebellum.Partitioned.move`, `Cerebellum.Partitioned.insert`, `Cerebellum.Partitioned.moveAll`.
-/

namespace Cerebellum

variable {ι α : Type*}

/-- Each element with the property `P`, and no other, is in exactly one of the lists, once. -/
structure Partitioned (lists : ι → List α) (P : α → Prop) : Prop where
  nodup : ∀ i, (lists i).Nodup
  eq_of_mem : ∀ {a : α} {i j : ι}, a ∈ lists i → a ∈ lists j → i = j
  iff_mem : ∀ a : α, P a ↔ ∃ i, a ∈ lists i

namespace Partitioned

variable {lists lists' : ι → List α} {P Q : α → Prop} {i j : ι} {a : α}

theorem of_mem (h : Partitioned lists P) (ha : a ∈ lists i) : P a :=
  (h.iff_mem a).mpr ⟨i, ha⟩

/-- The first resource of list `i` moves to list `j`. -/
theorem move (h : Partitioned lists P) (hij : i ≠ j) (hi : lists i = a :: lists' i)
    (hj : (lists' j).Perm (a :: lists j)) (hother : ∀ k, k ≠ i → k ≠ j → lists' k = lists k) :
    Partitioned lists' P := by
  have hai : a ∈ lists i := hi ▸ List.mem_cons_self
  have haj : a ∉ lists j := fun haj => hij (h.eq_of_mem hai haj)
  have hnodup : (a :: lists' i).Nodup := hi ▸ h.nodup i
  have hmem : ∀ b k, b ∈ lists' k ↔ b = a ∧ k = j ∨ b ≠ a ∧ b ∈ lists k := by
    intro b k
    by_cases hkj : k = j
    · subst hkj
      rw [hj.mem_iff, List.mem_cons]
      by_cases hb : b = a <;> simp [hb]
    by_cases hki : k = i
    · subst hki
      rw [hi, List.mem_cons]
      have hne : b ∈ lists' k → b ≠ a := by
        rintro hb rfl
        exact (List.nodup_cons.mp hnodup).1 hb
      tauto
    · rw [hother k hki hkj]
      have hne : b ∈ lists k → b ≠ a := by
        rintro hb rfl
        exact hki (h.eq_of_mem hb hai)
      tauto
  refine ⟨fun k => ?_, fun {b k l} hk hl => ?_, fun b => ?_⟩
  · by_cases hkj : k = j
    · subst hkj
      exact hj.nodup_iff.mpr (List.nodup_cons.mpr ⟨haj, h.nodup k⟩)
    by_cases hki : k = i
    · subst hki
      exact (List.nodup_cons.mp hnodup).2
    · exact hother k hki hkj ▸ h.nodup k
  · rw [hmem] at hk hl
    obtain ⟨rfl, rfl⟩ | ⟨hb, hk⟩ := hk
    · obtain ⟨-, rfl⟩ | ⟨hb, -⟩ := hl
      · rfl
      · exact absurd rfl hb
    · obtain ⟨rfl, -⟩ | ⟨-, hl⟩ := hl
      · exact absurd rfl hb
      · exact h.eq_of_mem hk hl
  · simp only [hmem, h.iff_mem]
    by_cases hb : b = a
    · subst hb
      simp only [true_and, ne_eq, not_true_eq_false, false_and, or_false, exists_eq, iff_true]
      exact ⟨i, hai⟩
    · simp [hb]

/-- A new resource goes to list `j`. -/
theorem insert (h : Partitioned lists P) (ha : ¬ P a) (hQ : ∀ b, Q b ↔ b = a ∨ P b)
    (hj : (lists' j).Perm (a :: lists j)) (hother : ∀ k, k ≠ j → lists' k = lists k) :
    Partitioned lists' Q := by
  have haP : ∀ k, a ∉ lists k := fun k hk => ha (h.of_mem hk)
  have hmem : ∀ b k, b ∈ lists' k ↔ b = a ∧ k = j ∨ b ∈ lists k := by
    intro b k
    by_cases hkj : k = j
    · subst hkj
      simp [hj.mem_iff]
    · simp [hother k hkj, hkj]
  refine ⟨fun k => ?_, fun {b k l} hk hl => ?_, fun b => ?_⟩
  · by_cases hkj : k = j
    · subst hkj
      exact hj.nodup_iff.mpr (List.nodup_cons.mpr ⟨haP k, h.nodup k⟩)
    · exact hother k hkj ▸ h.nodup k
  · rw [hmem] at hk hl
    obtain ⟨rfl, rfl⟩ | hk := hk
    · obtain ⟨-, rfl⟩ | hl := hl
      · rfl
      · exact absurd hl (haP l)
    · obtain ⟨rfl, -⟩ | hl := hl
      · exact absurd hk (haP k)
      · exact h.eq_of_mem hk hl
  · simp only [hQ, hmem, h.iff_mem, exists_or, exists_and_left, exists_eq, and_true]

/-- List `i` becomes list `j`, which was empty. -/
theorem moveAll (h : Partitioned lists P) (hij : i ≠ j) (hj : lists j = [])
    (hi' : lists' i = []) (hj' : lists' j = lists i)
    (hother : ∀ k, k ≠ i → k ≠ j → lists' k = lists k) : Partitioned lists' P := by
  have hmem : ∀ b k, b ∈ lists' k ↔ k = j ∧ b ∈ lists i ∨ k ≠ i ∧ b ∈ lists k := by
    intro b k
    by_cases hkj : k = j
    · subst hkj
      simp [hj', hj]
    by_cases hki : k = i
    · subst hki
      simp [hi', hkj]
    · simp [hother k hki hkj, hki, hkj]
  refine ⟨fun k => ?_, fun {b k l} hk hl => ?_, fun b => ?_⟩
  · by_cases hkj : k = j
    · subst hkj
      exact hj' ▸ h.nodup i
    by_cases hki : k = i
    · subst hki
      exact hi' ▸ List.nodup_nil
    · exact hother k hki hkj ▸ h.nodup k
  · rw [hmem] at hk hl
    obtain ⟨rfl, hk⟩ | ⟨hki, hk⟩ := hk
    · obtain ⟨rfl, -⟩ | ⟨hli, hl⟩ := hl
      · rfl
      · exact absurd (h.eq_of_mem hl hk) hli
    · obtain ⟨rfl, hl⟩ | ⟨-, hl⟩ := hl
      · exact absurd (h.eq_of_mem hk hl) hki
      · exact h.eq_of_mem hk hl
  · rw [h.iff_mem]
    constructor
    · rintro ⟨k, hk⟩
      by_cases hki : k = i
      · exact ⟨j, (hmem b j).mpr (.inl ⟨rfl, hki ▸ hk⟩)⟩
      · exact ⟨k, (hmem b k).mpr (.inr ⟨hki, hk⟩)⟩
    · rintro ⟨k, hk⟩
      obtain ⟨-, hk⟩ | ⟨-, hk⟩ := (hmem b k).mp hk
      · exact ⟨i, hk⟩
      · exact ⟨k, hk⟩

end Partitioned

end Cerebellum

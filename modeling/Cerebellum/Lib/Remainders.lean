import Mathlib.Data.Int.CardIntervalMod
import Mathlib.Data.Nat.ChineseRemainder
import Mathlib.Data.Set.Card

/-!
# Numbers with two given remainders

Among the first `N` numbers those with the remainders `i` modulo `n` and `j` modulo `m` are spread
evenly: if `i` and `j` agree modulo the common divisor of `n` and `m`, one of any `n.lcm m` numbers
in a row has both, and otherwise none has. What a bijection onto these numbers maps there is as
many.

## Main results

* `Remainders.mod_eq_and_mod_eq_iff`: two remainders are one modulo the least common multiple.
* `Remainders.count_mod_eq_and_mod_eq`: how many numbers have them.
* `Remainders.ncard_setOf_comp`: counting through a bijection.
-/

namespace Remainders

variable {n m N i j : ℕ}

theorem modEq_gcd_of_mod_eq {x : ℕ} (hi : x % n = i) (hj : x % m = j) : i ≡ j [MOD n.gcd m] := by
  have hx : i ≡ x [MOD n.gcd m] := (hi ▸ Nat.mod_modEq x n).of_dvd (Nat.gcd_dvd_left n m)
  exact hx.trans ((hj ▸ Nat.mod_modEq x m).of_dvd (Nat.gcd_dvd_right n m)).symm

/-- Two remainders that agree modulo the common divisor are one modulo the least common multiple. -/
theorem mod_eq_and_mod_eq_iff (hi : i < n) (hj : j < m) (h : i ≡ j [MOD n.gcd m]) (x : ℕ) :
    x % n = i ∧ x % m = j ↔ x ≡ Nat.chineseRemainder' h [MOD n.lcm m] := by
  obtain ⟨hn, hm⟩ := (Nat.chineseRemainder' h).2
  constructor
  · rintro ⟨hxi, hxj⟩
    refine Nat.mod_lcm ?_ ?_
    · exact (hxi ▸ Nat.mod_modEq x n).symm.trans hn.symm
    · exact (hxj ▸ Nat.mod_modEq x m).symm.trans hm.symm
  · intro hx
    exact ⟨Nat.mod_eq_of_modEq ((hx.of_dvd (Nat.dvd_lcm_left n m)).trans hn) hi,
      Nat.mod_eq_of_modEq ((hx.of_dvd (Nat.dvd_lcm_right n m)).trans hm) hj⟩

/-- The numbers below `N` with two remainders that agree modulo the common divisor. -/
theorem count_mod_eq_and_mod_eq (hi : i < n) (hj : j < m) (h : i ≡ j [MOD n.gcd m]) (N : ℕ) :
    N.count (fun x => x % n = i ∧ x % m = j) = N / n.lcm m ∨
      N.count (fun x => x % n = i ∧ x % m = j) = N / n.lcm m + 1 := by
  have hlcm : 0 < n.lcm m := Nat.lcm_pos (Nat.zero_lt_of_lt hi) (Nat.zero_lt_of_lt hj)
  have hcount : N.count (fun x => x % n = i ∧ x % m = j) =
      N.count (· ≡ Nat.chineseRemainder' h [MOD n.lcm m]) := by
    simp only [Nat.count_eq_card_filter_range, mod_eq_and_mod_eq_iff hi hj h]
  rw [hcount, Nat.count_modEq_card N hlcm]
  split_ifs
  · exact Or.inr rfl
  · exact Or.inl rfl

/-- Counting the arguments of a bijection whose values have a property. -/
theorem ncard_setOf_comp {α : Type*} {f : α → ℕ} (hf : Set.BijOn f Set.univ (Set.Iio N))
    (p : ℕ → Prop) [DecidablePred p] : {a | p (f a)}.ncard = N.count p := by
  have himage : f '' {a | p (f a)} = ((Finset.range N).filter p : Set ℕ) := by
    ext x
    simp only [Set.mem_image, Set.mem_ofPred_eq, Finset.coe_filter, Finset.mem_range]
    constructor
    · rintro ⟨a, ha, rfl⟩
      exact ⟨hf.mapsTo (Set.mem_univ a), ha⟩
    · rintro ⟨hx, hpx⟩
      obtain ⟨a, -, rfl⟩ := hf.surjOn hx
      exact ⟨a, hpx, rfl⟩
  have hinj : Set.InjOn f {a | p (f a)} := hf.injOn.mono (Set.subset_univ _)
  rw [← hinj.ncard_image, himage, Set.ncard_coe_finset, Nat.count_eq_card_filter_range]

end Remainders

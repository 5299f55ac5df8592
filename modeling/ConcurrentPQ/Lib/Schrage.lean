import Mathlib.RingTheory.Coprime.Lemmas
import Mathlib.Tactic.Ring
import Mathlib.Tactic.Linarith

/-!
# Schrage's method

`a * s` modulo `m = a * q + r` without a number above `m`: with `s = q * hi + lo` the difference
`a * lo - r * hi` differs from `a * s` by a multiple of `m`, and for `r < q` both products stay below
`m`.

* `schrage_sub` — the difference, up to a multiple of `m`;
* `schrage_lo`, `schrage_hi` — the two products;
* `schrage_emod` — the result.
-/

namespace ConcurrentPQ

variable {a q r m s : ℤ}

/-- The difference is `a * s` less a multiple of `m`. -/
theorem schrage_sub (hm : m = a * q + r) : a * (s % q) - r * (s / q) = a * s - m * (s / q) := by
  have hs : q * (s / q) + s % q = s := Int.mul_ediv_add_emod s q
  calc a * (s % q) - r * (s / q) = a * (q * (s / q) + s % q) - (a * q + r) * (s / q) := by ring
    _ = a * s - m * (s / q) := by rw [hs, ← hm]

theorem schrage_lo (hm : m = a * q + r) (ha : 0 < a) (hr : 0 ≤ r) (hq : 0 < q) :
    0 ≤ a * (s % q) ∧ a * (s % q) < m := by
  have h0 := Int.emod_nonneg s hq.ne'
  have hlt := Int.emod_lt_of_pos s hq
  refine ⟨mul_nonneg ha.le h0, ?_⟩
  have hmul : a * (s % q) < a * q := mul_lt_mul_of_pos_left hlt ha
  linarith

theorem schrage_hi (hr : 0 ≤ r) (hrq : r < q) (hs : 0 ≤ s) :
    0 ≤ r * (s / q) ∧ r * (s / q) ≤ s := by
  have hq : 0 < q := hr.trans_lt hrq
  have h0 : 0 ≤ s / q := Int.ediv_nonneg hs hq.le
  refine ⟨mul_nonneg hr h0, ?_⟩
  have hmul : r * (s / q) ≤ q * (s / q) := mul_le_mul_of_nonneg_right hrq.le h0
  have hdiv := Int.mul_ediv_self_le (x := s) hq.ne'
  linarith

/-- **Schrage's method.**  If `m` and `a` have no common factor, the difference, or the difference and
`m`, is `a * s` modulo `m`, and is not 0. -/
theorem schrage_emod (hm : m = a * q + r) (ha : 0 < a) (hr : 0 ≤ r) (hrq : r < q)
    (hcop : IsCoprime a m) (hs : 0 < s) (hsm : s < m) :
    (if 0 < a * (s % q) - r * (s / q) then a * (s % q) - r * (s / q)
      else a * (s % q) - r * (s / q) + m) = a * s % m ∧ 0 < a * s % m := by
  have hq : 0 < q := hr.trans_lt hrq
  have hmpos : 0 < m := hs.trans hsm
  obtain ⟨hlo0, hlo⟩ := schrage_lo (s := s) hm ha hr hq
  obtain ⟨hhi0, hhi⟩ := schrage_hi hr hrq hs.le
  have hsub := schrage_sub (s := s) hm
  have hpos : 0 < a * s % m := by
    refine (Int.emod_nonneg _ hmpos.ne').lt_of_ne fun h0 => ?_
    -- otherwise `m` divides `s`
    have hdvd : m ∣ a * s := Int.dvd_of_emod_eq_zero h0.symm
    have hle := Int.le_of_dvd hs (hcop.symm.dvd_of_dvd_mul_left hdvd)
    exact absurd hsm (not_lt.mpr hle)
  refine ⟨?_, hpos⟩
  have hmod : (a * (s % q) - r * (s / q)) % m = a * s % m := by
    rw [hsub, Int.sub_mul_emod_self_left]
  split
  · rename_i htest
    rw [← hmod, Int.emod_eq_of_lt htest.le]
    linarith
  · rename_i htest
    have hne : a * (s % q) - r * (s / q) ≠ 0 := fun h0 => by
      rw [h0, Int.zero_emod] at hmod
      exact absurd hpos (by rw [← hmod]; exact lt_irrefl 0)
    have hneg := lt_of_le_of_ne (not_lt.mp htest) hne
    have hadd := Int.add_emod_right (a * (s % q) - r * (s / q)) m
    rw [← hmod, ← hadd]
    refine (Int.emod_eq_of_lt ?_ ?_).symm
    · linarith
    · linarith

end ConcurrentPQ

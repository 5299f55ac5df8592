import Mathlib.Data.Int.CardIntervalMod
import Mathlib.Data.Nat.Factorization.Basic
import Mathlib.Logic.Function.Iterate
import Mathlib.Tactic.Ring

/-!
# Linear congruential generators modulo powers of two

For `a` congruent to 1 modulo 4 and an odd `c` the generator `x ↦ a * x + c` has full period modulo
every power of two.  The numbers here do not wrap: the residues modulo `2 ^ m` are those of a
generator modulo any higher power of two.

* `lcg_iterate_two_pow` — `2 ^ k` steps are again of the form `x ↦ A * x + C`;
* `lcg_iterate_mul` — `2 ^ k * t` steps add `2 ^ k * t`, modulo `2 ^ (k + 1)`;
* `lcg_iterate_modEq` — the period modulo `2 ^ m`;
* `lcg_window` — a window of `2 ^ m` draws meets every residue modulo `2 ^ m` once;
* `lcg_iterate_wrap` — the generator with wrapping.
-/

namespace ConcurrentPQ

/-- One step of the generator, without wrapping. -/
def lcg (a c x : ℕ) : ℕ := a * x + c

section Period

variable {a c : ℕ} (ha : a % 4 = 1) (hc : c % 2 = 1)

include ha hc

theorem lcg_iterate_two_pow (k : ℕ) :
    ∃ t s, ∀ x, (lcg a c)^[2 ^ k] x = (1 + 2 ^ (k + 2) * t) * x + 2 ^ k * (2 * s + 1) := by
  induction k with
  | zero =>
    refine ⟨a / 4, c / 2, fun x => ?_⟩
    have ha' : 1 + 2 ^ (0 + 2) * (a / 4) = a := by omega
    have hc' : 2 ^ 0 * (2 * (c / 2) + 1) = c := by omega
    rw [ha', hc', pow_zero, Function.iterate_one, lcg]
  | succ k ih =>
    obtain ⟨t, s, h⟩ := ih
    refine ⟨t + 2 ^ (k + 1) * t ^ 2, s + 2 ^ k * t * (2 * s + 1), fun x => ?_⟩
    -- twice `2 ^ k` steps
    calc (lcg a c)^[2 ^ (k + 1)] x = (lcg a c)^[2 ^ k] ((lcg a c)^[2 ^ k] x) := by
          rw [pow_succ, mul_two, Function.iterate_add_apply]
      _ = _ := by
          rw [h, h]
          ring

theorem lcg_iterate_mul (k t x : ℕ) :
    (lcg a c)^[2 ^ k * t] x ≡ x + 2 ^ k * t [MOD 2 ^ (k + 1)] := by
  obtain ⟨u, s, h⟩ := lcg_iterate_two_pow ha hc k
  induction t with
  | zero => exact Nat.ModEq.refl _
  | succ t ih =>
    have hstep : ∀ y, (lcg a c)^[2 ^ k] y ≡ y + 2 ^ k [MOD 2 ^ (k + 1)] := fun y => by
      have hform : (lcg a c)^[2 ^ k] y = y + 2 ^ k + 2 ^ (k + 1) * (2 * u * y + s) := by
        rw [h]
        ring
      rw [hform]
      exact Nat.add_modEq_left_iff.mpr ⟨_, rfl⟩
    have hsum : 2 ^ k * (t + 1) = 2 ^ k * t + 2 ^ k := mul_add_one _ _
    rw [hsum, ← add_assoc, add_comm (2 ^ k * t), Function.iterate_add_apply]
    exact (hstep _).trans (ih.add_right _)

/-- **The period.**  The residue modulo `2 ^ m` is back after a multiple of `2 ^ m` steps only. -/
theorem lcg_iterate_modEq (n m x : ℕ) : (lcg a c)^[n] x ≡ x [MOD 2 ^ m] → 2 ^ m ∣ n := by
  intro h
  rcases Nat.eq_zero_or_pos n with rfl | hn
  · exact dvd_zero _
  obtain ⟨k, t, hodd, rfl⟩ := Nat.exists_eq_two_pow_mul_odd hn.ne'
  by_contra hnd
  have hkm : k + 1 ≤ m := by
    by_contra hlt
    exact hnd (dvd_mul_of_dvd_left (pow_dvd_pow 2 (by omega)) t)
  -- already modulo `2 ^ (k + 1)` the residues differ
  have hlow : x + 2 ^ k * t ≡ x [MOD 2 ^ (k + 1)] :=
    (lcg_iterate_mul ha hc k t x).symm.trans (h.of_dvd (pow_dvd_pow 2 hkm))
  rw [Nat.add_modEq_left_iff, pow_succ] at hlow
  have htwo := Nat.dvd_of_mul_dvd_mul_left (Nat.two_pow_pos k) hlow
  exact (Nat.not_even_iff_odd.mpr hodd) (even_iff_two_dvd.mpr htwo)

/-! ### Windows of draws -/

theorem lcg_injOn (m x : ℕ) :
    Set.InjOn (fun k => (lcg a c)^[k] x % 2 ^ m) (Finset.range (2 ^ m)) := by
  have hle : ∀ i j, i ≤ j → j < 2 ^ m → (lcg a c)^[i] x % 2 ^ m = (lcg a c)^[j] x % 2 ^ m →
      i = j := fun i j hij hj heq => by
    have hsteps : (lcg a c)^[j - i] ((lcg a c)^[i] x) = (lcg a c)^[j] x := by
      rw [← Function.iterate_add_apply, Nat.sub_add_cancel hij]
    have hper := lcg_iterate_modEq ha hc (j - i) m ((lcg a c)^[i] x) (by rw [hsteps]; exact heq.symm)
    have hzero := Nat.eq_zero_of_dvd_of_lt hper (by omega)
    omega
  intro i hi j hj heq
  rw [Finset.coe_range, Set.mem_Iio] at hi hj
  rcases Nat.le_total i j with hij | hij
  · exact hle i j hij hj heq
  · exact (hle j i hij hi heq.symm).symm

/-- **A window of `2 ^ m` draws** meets every residue modulo `2 ^ m` once. -/
theorem lcg_window (m x : ℕ) (P : ℕ → Prop) [DecidablePred P] :
    ((Finset.range (2 ^ m)).filter fun k => P ((lcg a c)^[k] x % 2 ^ m)).card =
      ((Finset.range (2 ^ m)).filter P).card := by
  have hinj := lcg_injOn ha hc m x
  have himage : (Finset.range (2 ^ m)).image (fun k => (lcg a c)^[k] x % 2 ^ m) =
      Finset.range (2 ^ m) := by
    refine Finset.eq_of_subset_of_card_le (fun r hr => ?_) (Finset.card_image_of_injOn hinj).ge
    obtain ⟨k, -, rfl⟩ := Finset.mem_image.mp hr
    exact Finset.mem_range.mpr (Nat.mod_lt _ (Nat.two_pow_pos m))
  have hsub := Finset.coe_subset.mpr
    (Finset.filter_subset (fun k => P ((lcg a c)^[k] x % 2 ^ m)) (Finset.range (2 ^ m)))
  rw [← Finset.card_image_of_injOn (hinj.mono hsub)]
  conv_rhs => rw [← himage, Finset.filter_image]

end Period

/-- Residues modulo a multiple of the modulus are enough. -/
theorem lcg_iterate_wrap (a c N k x : ℕ) :
    (fun y => lcg a c y % N)^[k] x ≡ (lcg a c)^[k] x [MOD N] := by
  induction k with
  | zero => exact Nat.ModEq.refl _
  | succ k ih =>
    rw [Function.iterate_succ_apply', Function.iterate_succ_apply']
    exact (Nat.mod_modEq _ _).trans ((ih.mul_left a).add_right c)

end ConcurrentPQ

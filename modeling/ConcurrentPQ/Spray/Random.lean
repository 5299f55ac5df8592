import ConcurrentPQ.Lib.Schrage
import ConcurrentPQ.Spray.Program
import Mathlib.Logic.Function.Iterate
import Mathlib.Tactic.IntervalCases

/-!
# The random generator of the SprayList

`_MarsagliaXOR` is laid out as Schrage's method, but its constants `q` and `r` are not the quotient and
the remainder of `m` by `a`, as its comments say.  Those of `_old_MarsagliaXOR`, which stands above it
in the source, are.

* `schrage`, `intermediates`, `Promise` — both generators, the values they compute on the way, and
  what the method promises;
* `old_promise`, `old_draws` — **`_old_MarsagliaXOR` keeps the promise**, and what it draws in a row;
* `draws_promise_iff` — when the draws of `spray_delete_min` do.
-/

namespace ConcurrentPQ.Spray

/-- The body of the generators; `/` and `%` are those of C. -/
def schrage (a m q r seed : ℤ) : ℤ :=
  let hi := seed.tdiv q
  let lo := seed.tmod q
  let test := int32 (int32 (a * lo) - int32 (r * hi))
  if 0 < test then test else int32 (test + m)

/-- `_old_MarsagliaXOR`. -/
def _old_MarsagliaXOR (seed : ℤ) : ℤ := schrage 16807 2147483647 127773 2836 seed

theorem _MarsagliaXOR_eq (seed : ℤ) :
    _MarsagliaXOR seed = schrage 123456789 2147483647 521288629 88675123 seed := rfl

/-- The values of the expressions in the body, as they are without overflow. -/
def intermediates (a m q r seed : ℤ) : List ℤ :=
  let hi := seed.tdiv q
  let lo := seed.tmod q
  let test := a * lo - r * hi
  [hi, lo, a * lo, r * hi, test, if 0 < test then test else test + m]

/-- A value of type `int`. -/
def IsInt (z : ℤ) : Prop := -2147483648 ≤ z ∧ z ≤ 2147483647

instance (z : ℤ) : Decidable (IsInt z) := inferInstanceAs (Decidable (_ ∧ _))

/-- What Schrage's method promises of one draw: no overflow, and the residue of `a * seed`, which is a
seed again. -/
structure Promise (a m q r seed : ℤ) : Prop where
  fits : ∀ z ∈ intermediates a m q r seed, IsInt z
  value : schrage a m q r seed = a * seed % m
  range : 1 ≤ schrage a m q r seed ∧ schrage a m q r seed ≤ m - 1

section Draws

variable {a m q r seed z : ℤ}

theorem int32_eq (h : IsInt z) : int32 z = z := by
  obtain ⟨hlo, hhi⟩ := h
  unfold int32
  rw [Int.bmod_eq_of_le] <;> omega

/-- Without overflow the wrapping arithmetic is exact. -/
theorem schrage_eq (h : ∀ z ∈ intermediates a m q r seed, IsInt z) :
    schrage a m q r seed =
      if 0 < a * seed.tmod q - r * seed.tdiv q then a * seed.tmod q - r * seed.tdiv q
      else a * seed.tmod q - r * seed.tdiv q + m := by
  simp only [intermediates, List.forall_mem_cons] at h
  obtain ⟨-, -, hlo, hhi, htest, hres, -⟩ := h
  unfold schrage
  dsimp only
  rw [int32_eq hlo, int32_eq hhi, int32_eq htest]
  split
  · rfl
  · rename_i hneg
    rw [if_neg hneg] at hres
    exact int32_eq hres

/-- **Constants for which the method works**: `q` and `r` are the quotient and the remainder, and `r`
is the smaller one. -/
theorem promise_of_quotient (hm : m = a * q + r) (ha : 0 < a) (hr : 0 ≤ r) (hrq : r < q)
    (hcop : IsCoprime a m) (hmax : m ≤ 2147483647) (hs : 0 < seed) (hsm : seed < m) :
    Promise a m q r seed := by
  have hq : 0 < q := hr.trans_lt hrq
  obtain ⟨hlo0, hlo⟩ := schrage_lo (s := seed) hm ha hr hq
  obtain ⟨hhi0, hhi⟩ := schrage_hi hr hrq hs.le
  obtain ⟨hres, hpos⟩ := schrage_emod hm ha hr hrq hcop hs hsm
  have hdiv : seed.tdiv q = seed / q := Int.tdiv_eq_ediv_of_nonneg hs.le
  have hmod : seed.tmod q = seed % q := Int.tmod_eq_emod_of_nonneg hs.le
  have hlt := Int.emod_lt_of_pos (a * seed) (hs.trans hsm)
  have hfits : ∀ z ∈ intermediates a m q r seed, IsInt z := by
    have hd0 := Int.ediv_nonneg hs.le hq.le
    have hd := Int.ediv_le_self q hs.le
    have hm0 := Int.emod_nonneg seed hq.ne'
    have hm1 : seed % q ≤ seed := by
      have hsum := Int.mul_ediv_add_emod seed q
      have hprod := mul_nonneg hq.le hd0
      linarith
    simp only [intermediates, hdiv, hmod, hres, List.forall_mem_cons, List.not_mem_nil,
      false_imp_iff, implies_true, and_true, IsInt]
    refine ⟨⟨?_, ?_⟩, ⟨?_, ?_⟩, ⟨?_, ?_⟩, ⟨?_, ?_⟩, ⟨?_, ?_⟩, ?_, ?_⟩ <;> linarith
  have hval : schrage a m q r seed = a * seed % m := by
    rw [schrage_eq hfits, hdiv, hmod, hres]
  refine ⟨hfits, hval, ?_, ?_⟩
  · rw [hval]
    exact hpos
  · rw [hval]
    exact Int.le_sub_one_of_lt hlt

end Draws

/-- **`_old_MarsagliaXOR` keeps the promise** for every seed. -/
theorem old_promise {seed : ℤ} (hs : 0 < seed) (hsm : seed < 2147483647) :
    Promise 16807 2147483647 127773 2836 seed := by
  have hcop : IsCoprime (16807 : ℤ) 2147483647 := by
    rw [Int.isCoprime_iff_gcd_eq_one]
    decide
  exact promise_of_quotient (by decide) (by decide) (by decide) (by decide) hcop (by decide) hs hsm

/-- **The draws of `_old_MarsagliaXOR`.**  From every seed in `[1, 2^31 - 2]` the `k`-th value drawn is
`16807^k * seed` modulo `2^31 - 1`, and the next draw keeps the promise. -/
theorem old_draws {seed : ℤ} (hs : 0 < seed) (hsm : seed < 2147483647) (k : ℕ) :
    _old_MarsagliaXOR^[k] seed = 16807 ^ k * seed % 2147483647 ∧
      Promise 16807 2147483647 127773 2836 (_old_MarsagliaXOR^[k] seed) := by
  induction k with
  | zero =>
    rw [pow_zero, one_mul]
    exact ⟨(Int.emod_eq_of_lt hs.le hsm).symm, old_promise hs hsm⟩
  | succ k ih =>
    obtain ⟨heq, hp⟩ := ih
    rw [Function.iterate_succ_apply']
    refine ⟨?_, old_promise hp.range.1 (Int.lt_of_le_sub_one hp.range.2)⟩
    calc _old_MarsagliaXOR (_old_MarsagliaXOR^[k] seed)
        = 16807 * (_old_MarsagliaXOR^[k] seed) % 2147483647 := hp.value
      _ = 16807 * (16807 ^ k * seed) % 2147483647 := by
        rw [heq, Int.mul_emod, Int.emod_emod, ← Int.mul_emod]
      _ = 16807 ^ (k + 1) * seed % 2147483647 := by rw [pow_succ', mul_assoc]

/-- Three draws from the seed 18, at which `_MarsagliaXOR` overflows. -/
theorem old_draws_eighteen :
    _old_MarsagliaXOR^[3] 18 = 16807 ^ 3 * 18 % 2147483647 ∧
      Promise 16807 2147483647 127773 2836 (_old_MarsagliaXOR^[3] 18) :=
  old_draws (by decide) (by decide) 3

/-! ### The constants of `_MarsagliaXOR` -/

section Constants

variable {seed : ℤ}

/-- A product that does not overflow has a small remainder in it, and then only the quotient 0 gives
the residue of `a * seed`: `a * q + r` is no multiple of `m`. -/
theorem Promise.le_seventeen (h0 : 1 ≤ seed) (h1 : seed ≤ 2147483646)
    (hp : Promise 123456789 2147483647 521288629 88675123 seed) : seed ≤ 17 := by
  have hval := hp.value
  rw [schrage_eq hp.fits] at hval
  have hfits := hp.fits
  simp only [intermediates, List.forall_mem_cons] at hfits
  obtain ⟨-, -, ⟨-, hlo⟩, -⟩ := hfits
  rw [Int.tmod_eq_emod_of_nonneg (by linarith)] at hval hlo
  rw [Int.tdiv_eq_ediv_of_nonneg (by linarith)] at hval
  have hsum := Int.mul_ediv_add_emod seed 521288629
  have hlo0 := Int.emod_nonneg seed (b := 521288629) (by decide)
  generalize seed % 521288629 = lo at *
  have hhi0 : 0 ≤ seed / 521288629 := by omega
  have hhi1 : seed / 521288629 ≤ 4 := by omega
  generalize seed / 521288629 = hi at *
  subst hsum
  by_contra hlt
  interval_cases hi
  · omega
  all_goals
    split at hval <;> omega

theorem promise_of_le_seventeen (h0 : 1 ≤ seed) (h1 : seed ≤ 17) :
    Promise 123456789 2147483647 521288629 88675123 seed := by
  have hdiv : seed.tdiv 521288629 = 0 := Int.tdiv_eq_zero_of_lt (by omega) (by omega)
  have hmod : seed.tmod 521288629 = seed := Int.tmod_eq_of_lt (by omega) (by omega)
  have hfits : ∀ z ∈ intermediates 123456789 2147483647 521288629 88675123 seed, IsInt z := by
    have htest : 0 < 123456789 * seed - 88675123 * 0 := by omega
    simp only [intermediates, hdiv, hmod, if_pos htest, List.forall_mem_cons, List.not_mem_nil,
      false_imp_iff, implies_true, and_true, IsInt]
    omega
  have hval : schrage 123456789 2147483647 521288629 88675123 seed = 123456789 * seed := by
    rw [schrage_eq hfits, hdiv, hmod, if_pos (by omega)]
    omega
  refine ⟨hfits, ?_, ?_⟩
  · rw [hval, Int.emod_eq_of_lt (by omega) (by omega)]
  · rw [hval]
    omega

end Constants

/-- The draw from a small seed gives a large one. -/
theorem nextSeed_of_le_seventeen {seed : ℕ} (h0 : 1 ≤ seed) (h1 : seed ≤ 17) :
    nextSeed seed = 123456789 * seed := by
  have hseed : int32 seed = seed := int32_eq ⟨by omega, by omega⟩
  have hval := (promise_of_le_seventeen (Int.natCast_pos.mpr h0) (Int.ofNat_le.mpr h1)).value
  rw [← _MarsagliaXOR_eq, Int.emod_eq_of_lt (by omega) (by omega)] at hval
  have hcast : 123456789 * (seed : ℤ) = (123456789 * seed : ℕ) := by push_cast; ring
  rw [nextSeed, hseed, hval, Int.emod_eq_of_lt (by omega) (by omega), hcast, Int.toNat_natCast]

/-! ### The draws of a thread -/

/-- In the calls of a thread `d->seed2` changes by draws only. -/
theorem access_seed (any : Bool) (c : Config) :
    (access any c).seed = c.seed ∨ (access any c).seed = nextSeed c.seed := by
  obtain ⟨sh, seed, pc⟩ := c
  unfold access
  dsimp only
  split
  · exact Or.inl rfl
  split
  · exact Or.inl rfl
  split
  · exact Or.inl rfl
  · cases code pc with
    | draw cont =>
      right
      simp only [exec]
    | casNext n i e new cont =>
      left
      simp only [exec]
      split <;> rfl
    | _ => exact Or.inl rfl

/-- **The draws of `spray_delete_min`.**  The first `n` draws from a seed in `[1, 2^31 - 2]` keep what
the method promises if and only if there is no draw, or one and the seed is at most 17. -/
theorem draws_promise_iff (n seed : ℕ) (h0 : 1 ≤ seed) (h1 : seed ≤ 2147483646) :
    (∀ k < n, Promise 123456789 2147483647 521288629 88675123 (int32 (nextSeed^[k] seed))) ↔
      n = 0 ∨ n = 1 ∧ seed ≤ 17 := by
  have hseed : int32 seed = seed := int32_eq ⟨by omega, by omega⟩
  constructor
  · intro hall
    rcases Nat.eq_zero_or_pos n with hn | hn
    · exact Or.inl hn
    have hfirst := hall 0 hn
    rw [Function.iterate_zero, id_eq, hseed] at hfirst
    have hle : seed ≤ 17 := by
      have := hfirst.le_seventeen (by omega) (by omega)
      omega
    refine Or.inr ⟨?_, hle⟩
    by_contra hne
    -- the second draw starts from a large seed
    have hsecond := hall 1 (by omega)
    rw [Function.iterate_one, nextSeed_of_le_seventeen h0 hle,
      int32_eq ⟨by omega, by omega⟩] at hsecond
    have := hsecond.le_seventeen (by omega) (by omega)
    omega
  · rintro (hn | ⟨hn, hle⟩) k hk
    · omega
    · obtain rfl : k = 0 := by omega
      rw [Function.iterate_zero, id_eq, hseed]
      exact promise_of_le_seventeen (by omega) (by omega)

theorem draws_promise_iff_one :
    (∀ k < 1, Promise 123456789 2147483647 521288629 88675123 (int32 (nextSeed^[k] 1))) ↔
      1 = 0 ∨ 1 = 1 ∧ 1 ≤ 17 :=
  draws_promise_iff 1 1 (by decide) (by decide)

/-- From the seed 18 the product `a * lo` overflows. -/
theorem not_draws_promise : ¬∀ n seed : ℕ, 1 ≤ seed → seed ≤ 2147483646 →
    ∀ k < n, Promise 123456789 2147483647 521288629 88675123 (int32 (nextSeed^[k] seed)) := by
  intro hall
  have hfits := (hall 1 18 (by decide) (by decide) 0 (by decide)).fits
  exact absurd (hfits 2222222202 (by decide)).2 (by decide)

end ConcurrentPQ.Spray

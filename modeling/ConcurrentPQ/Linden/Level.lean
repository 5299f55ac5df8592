import ConcurrentPQ.Lib.Lcg
import ConcurrentPQ.Linden.Program

/-!
# The levels `alloc_node` draws

`alloc_node` counts the ones that follow the lowest bit of `ptst->rand`, and then steps `ptst->rand`,
a linear congruential generator.  Its low bits are a short cycle, but a full one, and in a window of
`2 ^ m` calls the levels follow the geometric law exactly.

* `nextRand`, `countOnes`, `alloc_node` — the source;
* `lt_countOnes_iff`, `level_range` — the bits a level stands for, and its range;
* `geometric_levels` — **the levels of `2 ^ m` consecutive calls**.
-/

namespace ConcurrentPQ.Linden

/-- `ptst->rand = r * 1103515245 + 12345` on an `unsigned int`. -/
def nextRand (r : ℕ) : ℕ := (r * 1103515245 + 12345) % 0x100000000

/-- `while ((r >>= 1) & 1) ++level;` -/
def countOnes (r level : ℕ) : ℕ :=
  if (r >>> 1) &&& 1 ≠ 0 then countOnes (r >>> 1) (level + 1) else level
termination_by r
decreasing_by
  rename_i hbit
  rw [Nat.shiftRight_eq_div_pow, pow_one, Nat.and_one_is_mod] at *
  omega

/-- The level that `alloc_node` computes, and the value it leaves in `ptst->rand`. -/
def alloc_node (rand : ℕ) : ℕ × ℕ :=
  let r := rand &&& ((1 <<< (NUM_LEVELS - 1)) - 1)
  (countOnes r 1, nextRand rand)

/-- The level of the `k`-th of consecutive calls, counted from 0. -/
def levelAt (rand k : ℕ) : ℕ := (alloc_node ((fun r => (alloc_node r).2)^[k] rand)).1

section Bits

variable {r level j m : ℕ}

theorem countOnes_odd (h : r / 2 % 2 = 1) : countOnes r level = countOnes (r / 2) (level + 1) := by
  rw [countOnes, Nat.shiftRight_eq_div_pow, pow_one, Nat.and_one_is_mod, h, if_pos one_ne_zero]

theorem countOnes_even (h : r / 2 % 2 = 0) : countOnes r level = level := by
  rw [countOnes, Nat.shiftRight_eq_div_pow, pow_one, Nat.and_one_is_mod, h]
  exact if_neg fun hne => hne rfl

theorem le_countOnes (r level : ℕ) : level ≤ countOnes r level := by
  induction r using Nat.strong_induction_on generalizing level with
  | _ r ih =>
    rcases Nat.mod_two_eq_zero_or_one (r / 2) with h | h
    · rw [countOnes_even h]
    · rw [countOnes_odd h]
      exact (Nat.le_succ level).trans (ih (r / 2) (by omega) (level + 1))

/-- The loop runs `j` times if and only if bits 1 to `j` are all set. -/
theorem lt_countOnes_iff : level + j ≤ countOnes r level ↔ r / 2 % 2 ^ j = 2 ^ j - 1 := by
  induction j generalizing r level with
  | zero =>
    rw [pow_zero, Nat.mod_one]
    exact iff_of_true (le_countOnes r level) rfl
  | succ j ih =>
    have hpos := Nat.two_pow_pos j
    have hsplit : r / 2 % 2 ^ (j + 1) = r / 2 % 2 + 2 * (r / 2 / 2 % 2 ^ j) := by
      rw [pow_succ, mul_comm, Nat.mod_mul]
    have hpow : 2 ^ (j + 1) = 2 * 2 ^ j := by rw [pow_succ, mul_comm]
    rw [hsplit, hpow]
    rcases Nat.mod_two_eq_zero_or_one (r / 2) with h | h
    · rw [countOnes_even h, h]
      refine iff_of_false (by omega) (by omega)
    · have hstep : level + (j + 1) = level + 1 + j := by omega
      rw [countOnes_odd h, h, hstep, ih]
      omega

/-- Bits below a power of two do not see a reduction modulo it. -/
theorem low_bits (h : j < m) : r % 2 ^ m / 2 % 2 ^ j = r / 2 % 2 ^ j := by
  obtain ⟨k, rfl⟩ : ∃ k, m = k + 1 := ⟨m - 1, by omega⟩
  have hdvd : 2 ^ j ∣ 2 ^ k := pow_dvd_pow 2 (by omega)
  rw [pow_succ, mul_comm, Nat.mod_mul_right_div_self, Nat.mod_mod_of_dvd _ hdvd]

/-- `alloc_node` draws a level above `j` if and only if bits 1 to `j` of `ptst->rand` are set. -/
theorem lt_level_iff {rand : ℕ} (h : j < 31) :
    j < (alloc_node rand).1 ↔ rand / 2 % 2 ^ j = 2 ^ j - 1 := by
  have hmask : rand &&& ((1 <<< (NUM_LEVELS - 1)) - 1) = rand % 2 ^ 31 := by
    rw [Nat.one_shiftLeft]
    exact Nat.and_two_pow_sub_one_eq_mod rand 31
  have hlow := low_bits (r := rand) h
  dsimp only [alloc_node]
  have hones : 1 + j ≤ countOnes (rand % 2 ^ 31) 1 ↔ rand % 2 ^ 31 / 2 % 2 ^ j = 2 ^ j - 1 :=
    lt_countOnes_iff
  rw [hmask, ← hlow, ← hones]
  omega

/-- The level is at least 1 and below `NUM_LEVELS`. -/
theorem level_range (rand : ℕ) : 1 ≤ (alloc_node rand).1 ∧ (alloc_node rand).1 < NUM_LEVELS := by
  refine ⟨le_countOnes _ 1, ?_⟩
  by_contra hge
  have hmask : rand &&& ((1 <<< (NUM_LEVELS - 1)) - 1) = rand % 2 ^ 31 := by
    rw [Nat.one_shiftLeft]
    exact Nat.and_two_pow_sub_one_eq_mod rand 31
  -- a level of `NUM_LEVELS` needs bits above the mask
  have hones : 1 + 31 ≤ countOnes (rand % 2 ^ 31) 1 := by
    rw [← hmask]
    exact not_lt.mp hge
  rw [lt_countOnes_iff] at hones
  omega

/-- The residues modulo `2 ^ m` whose bits 1 to `j` are set. -/
theorem card_ones (h : j < m) :
    ((Finset.range (2 ^ m)).filter fun r => r / 2 % 2 ^ j = 2 ^ j - 1).card = 2 ^ (m - j) := by
  have hpos := Nat.two_pow_pos j
  have hres : ∀ v, v < 2 * 2 ^ j →
      ((Finset.range (2 ^ m)).filter fun r => r % (2 * 2 ^ j) = v).card = 2 ^ (m - j - 1) := by
    intro v hv
    have hcount := Nat.count_modEq_card (r := 2 * 2 ^ j) (2 ^ m) (by omega) v
    have hm : 2 ^ m = 2 ^ (m - j - 1) * (2 * 2 ^ j) := by
      rw [← pow_succ', ← pow_add]
      congr 1
      omega
    rw [hm, Nat.mul_mod_left, if_neg (Nat.not_lt_zero _), Nat.mul_div_cancel _ (by omega), ← hm,
      Nat.count_eq_card_filter_range, Nat.add_zero] at hcount
    rw [← hcount]
    congr 1
    ext r
    rw [Finset.mem_filter, Finset.mem_filter, Nat.ModEq, Nat.mod_eq_of_lt hv]
  have hor : ((Finset.range (2 ^ m)).filter fun r => r / 2 % 2 ^ j = 2 ^ j - 1) =
      ((Finset.range (2 ^ m)).filter fun r => r % (2 * 2 ^ j) = 2 * 2 ^ j - 2) ∪
        ((Finset.range (2 ^ m)).filter fun r => r % (2 * 2 ^ j) = 2 * 2 ^ j - 1) := by
    rw [← Finset.filter_or]
    ext r
    rw [Finset.mem_filter, Finset.mem_filter, ← Nat.mod_mul_right_div_self]
    generalize 2 ^ j = N at hpos ⊢
    generalize r % (2 * N) = v
    apply and_congr_right
    intro hr
    omega
  have hdisj : Disjoint ((Finset.range (2 ^ m)).filter fun r => r % (2 * 2 ^ j) = 2 * 2 ^ j - 2)
      ((Finset.range (2 ^ m)).filter fun r => r % (2 * 2 ^ j) = 2 * 2 ^ j - 1) := by
    apply Finset.disjoint_filter.mpr
    omega
  rw [hor, Finset.card_union_of_disjoint hdisj, hres _ (by omega), hres _ (by omega), ← two_mul,
    ← pow_succ']
  congr 1
  omega

end Bits

/-- The generator of `ptst->rand` is a wrapping one. -/
theorem rand_modEq (rand k : ℕ) :
    (fun r => (alloc_node r).2)^[k] rand ≡ (lcg 1103515245 12345)^[k] rand [MOD 2 ^ 32] := by
  have hstep : (fun r => (alloc_node r).2) = fun r => lcg 1103515245 12345 r % 2 ^ 32 := by
    funext r
    show (r * 1103515245 + 12345) % 0x100000000 = (1103515245 * r + 12345) % 2 ^ 32
    rw [mul_comm]
    norm_num
  rw [hstep]
  exact lcg_iterate_wrap 1103515245 12345 (2 ^ 32) k rand

/-- **The levels of `2 ^ m` consecutive calls.**  Exactly `2 ^ (m - j)` of them are above `j`, and
each level is one more than an index of `gc_id`. -/
theorem geometric_levels (rand start m j : ℕ) (hm : m ≤ 31) (hj : j < m) :
    ((Finset.range (2 ^ m)).filter fun k => j < levelAt rand (start + k)).card = 2 ^ (m - j) ∧
      ∀ k, 1 ≤ levelAt rand k ∧ levelAt rand k - 1 < NUM_LEVELS := by
  constructor
  · have hwindow := lcg_window (a := 1103515245) (c := 12345) (by decide) (by decide) m
      ((lcg 1103515245 12345)^[start] rand) fun r => r / 2 % 2 ^ j = 2 ^ j - 1
    rw [← card_ones hj, ← hwindow]
    congr 1
    ext k
    have hmod := (rand_modEq rand (start + k)).of_dvd (pow_dvd_pow 2 (by omega : m ≤ 32))
    have hlow := low_bits (r := (fun r => (alloc_node r).2)^[start + k] rand) hj
    rw [Finset.mem_filter, Finset.mem_filter, levelAt, lt_level_iff (by omega), ← hlow, hmod,
      ← Function.iterate_add_apply, add_comm k start]
  · intro k
    have hrange := level_range ((fun r => (alloc_node r).2)^[k] rand)
    exact ⟨hrange.1, (Nat.sub_le _ _).trans_lt hrange.2⟩

theorem geometric_levels_two :
    ((Finset.range (2 ^ 2)).filter fun k => 1 < levelAt 1 (0 + k)).card = 2 ^ (2 - 1) ∧
      ∀ k, 1 ≤ levelAt 1 k ∧ levelAt 1 k - 1 < NUM_LEVELS :=
  geometric_levels 1 0 2 1 (by decide) (by decide)

end ConcurrentPQ.Linden

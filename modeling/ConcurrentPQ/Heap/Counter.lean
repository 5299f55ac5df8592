import ConcurrentPQ.Lib.BitReverse
import Mathlib.Data.Int.Notation

/-!
# The item counter of the heap

`cds::bitop::bit_reverse_counter`: `m_nReversed` runs through the array slots of the heap in
bit-reversed order while `m_nCounter` counts up and down.

* `inc`, `dec`, `value`, `reversed_value` — the member functions;
* `Good` — `m_nReversed` is the slot whose rank is `m_nCounter`;
* `Good.inc`, `Good.dec` — both functions keep that.
-/

namespace ConcurrentPQ.Heap

open ConcurrentPQ.BitReverse

/-- `bit_reverse_counter<size_t>`. -/
structure BitReverseCounter where
  m_nCounter : ℕ
  m_nReversed : ℕ
  m_nHighBit : ℤ
  deriving DecidableEq, Repr

namespace BitReverseCounter

/-- The constructor. -/
def init : BitReverseCounter := ⟨0, 0, -1⟩

/-- The loop complements the bits from `m_nHighBit - 1` down until one of them was clear. -/
def inc (c : BitReverseCounter) : BitReverseCounter :=
  let r := bumpUp c.m_nHighBit.toNat c.m_nReversed
  if r.1 = true then ⟨c.m_nCounter + 1, r.2, c.m_nHighBit⟩
  else ⟨c.m_nCounter + 1, c.m_nCounter + 1, c.m_nHighBit + 1⟩

/-- The loop complements the bits from `m_nHighBit - 1` down until one of them was set. -/
def dec (c : BitReverseCounter) : BitReverseCounter :=
  let r := bumpDown c.m_nHighBit.toNat c.m_nReversed
  if r.1 = true then ⟨c.m_nCounter - 1, r.2, c.m_nHighBit⟩
  else ⟨c.m_nCounter - 1, c.m_nCounter - 1, c.m_nHighBit - 1⟩

def value (c : BitReverseCounter) : ℕ := c.m_nCounter

def reversed_value (c : BitReverseCounter) : ℕ := c.m_nReversed

/-- The counter is zero, or `m_nReversed` is a slot between `2 ^ m_nHighBit` and the next power of
two, and its rank is the count. -/
inductive Good : BitReverseCounter → Prop
  | zero : Good init
  | pos {n r k : ℕ} : 2 ^ k ≤ r → r < 2 ^ (k + 1) → n = 2 ^ k + revBits k r → Good ⟨n, r, k⟩

variable {c : BitReverseCounter}

theorem Good.reversed_ne_zero (h : Good c) (hc : c.value ≠ 0) : c.reversed_value ≠ 0 := by
  cases h with
  | zero => exact absurd rfl hc
  | @pos n r k h₁ _ _ =>
    have := Nat.two_pow_pos k
    show r ≠ 0
    omega

/-- The reversed value is the slot whose rank is the count. -/
theorem Good.rank_reversed (h : Good c) (hc : c.value ≠ 0) : rank c.reversed_value = c.value := by
  cases h with
  | zero => exact absurd rfl hc
  | pos h₁ h₂ h₃ => exact (rank_eq h₁ h₂).trans h₃.symm

theorem inc_value (c : BitReverseCounter) : c.inc.value = c.value + 1 := by
  unfold inc
  dsimp only
  split <;> rfl

theorem dec_value (c : BitReverseCounter) : c.dec.value = c.value - 1 := by
  unfold dec
  dsimp only
  split <;> rfl

/-- Bits above the ones a loop touches say between which powers of two a number lies. -/
theorem range_of_testBit {k x y : ℕ} (h₁ : 2 ^ k ≤ x) (h₂ : x < 2 ^ (k + 1))
    (h : ∀ j, k ≤ j → y.testBit j = x.testBit j) : 2 ^ k ≤ y ∧ y < 2 ^ (k + 1) := by
  have hdiv : y / 2 ^ k = x / 2 ^ k := by
    refine Nat.eq_of_testBit_eq fun j => ?_
    rw [Nat.testBit_div_two_pow, Nat.testBit_div_two_pow]
    exact h _ (Nat.le_add_left _ _)
  have hone : x / 2 ^ k = 1 := by
    rw [pow_succ] at h₂
    exact Nat.div_eq_of_lt_le (by omega) (by omega)
  rw [hone] at hdiv
  have hpos := Nat.two_pow_pos k
  have hle := Nat.div_mul_le_self y (2 ^ k)
  have hlt := Nat.lt_div_mul_add hpos (a := y)
  rw [hdiv] at hle hlt
  rw [pow_succ]
  omega

theorem Good.inc (h : Good c) : Good c.inc := by
  cases h with
  | zero => exact Good.pos (k := 0) (le_refl _) (by decide) rfl
  | @pos n r k h₁ h₂ h₃ =>
    obtain ⟨hup, hout⟩ := bumpUp_spec k r
    unfold BitReverseCounter.inc
    dsimp only
    rw [Int.toNat_natCast]
    split
    · rename_i ht
      obtain ⟨hr₁, hr₂⟩ := range_of_testBit h₁ h₂ fun j hj => testBit_bumpUp hj
      exact .pos hr₁ hr₂ (by rw [hup ht, h₃]; rfl)
    · rename_i hf
      have hall := hout (by simpa using hf)
      have hn : n + 1 = 2 ^ (k + 1) := by rw [h₃, pow_succ]; omega
      rw [hn]
      refine Good.pos (k := k + 1) (le_refl _) ?_ ?_
      · exact Nat.pow_lt_pow_right (by decide) (Nat.lt_succ_self _)
      · -- no bit below the top one is set
        have hzero : revBits (k + 1) (2 ^ (k + 1)) = revBits (k + 1) 0 :=
          revBits_congr fun j hj => by
            rw [Nat.testBit_two_pow_of_ne (by omega), Nat.zero_testBit]
        have hrev : ∀ j, revBits j 0 = 0 := by
          intro j
          induction j with
          | zero => rfl
          | succ j ih => rw [revBits, ih, Nat.zero_testBit]; rfl
        rw [hzero, hrev]
        rfl

/-- All bits set read backwards is all bits set. -/
theorem revBits_ones (k m : ℕ) (h : ∀ j, j < k → m.testBit j = true) :
    revBits k m = 2 ^ k - 1 := by
  induction k with
  | zero => rfl
  | succ k ih =>
    rw [revBits, h k (Nat.lt_succ_self k), ih fun j hj => h j (Nat.lt_succ_of_lt hj), pow_succ]
    have := Nat.two_pow_pos k
    simp
    omega

theorem Good.dec (h : Good c) (hc : c.value ≠ 0) : Good c.dec := by
  cases h with
  | zero => exact absurd rfl hc
  | @pos n r k h₁ h₂ h₃ =>
    obtain ⟨hdown, hout⟩ := bumpDown_spec k r
    unfold BitReverseCounter.dec
    dsimp only
    rw [Int.toNat_natCast]
    split
    · rename_i ht
      obtain ⟨hr₁, hr₂⟩ := range_of_testBit h₁ h₂ fun j hj => testBit_bumpDown hj
      refine .pos hr₁ hr₂ ?_
      have := hdown ht
      omega
    · rename_i hf
      have hzero := hout (by simpa using hf)
      have hn : n = 2 ^ k := by omega
      cases k with
      | zero =>
        rw [hn]
        exact .zero
      | succ k =>
        have hcast : ((k + 1 : ℕ) : ℤ) - 1 = (k : ℕ) := by push_cast; ring
        rw [hcast]
        have hpos := Nat.two_pow_pos k
        have hp : 2 ^ (k + 1) = 2 * 2 ^ k := by rw [pow_succ]; ring
        refine .pos (by omega) (by omega) ?_
        rw [revBits_ones k (n - 1) fun j hj => ?_]
        · omega
        · rw [hn, Nat.testBit_two_pow_sub_one]
          simp
          omega

/-- The slot the next `inc` hands out. -/
theorem Good.inc_reversed (h : Good c) :
    c.inc.reversed_value ≠ 0 ∧ rank c.inc.reversed_value = c.value + 1 := by
  have hv := inc_value c
  have hne : c.inc.value ≠ 0 := by omega
  exact ⟨h.inc.reversed_ne_zero hne, (h.inc.rank_reversed hne).trans hv⟩

end BitReverseCounter

end ConcurrentPQ.Heap

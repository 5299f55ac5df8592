import Mathlib.Data.Nat.Bitwise
import Mathlib.Data.Nat.Log
import Mathlib.Tactic.Ring

/-!
# Counting in bit-reversed order

The positive numbers below `2 ^ (k + 1)` and not below `2 ^ k` are visited in the order of their `k`
low bits read backwards.  `rank` is the place of a number in that order, all powers of two in turn.

* `revBits`, `revBits_lt`, `revBits_inj` — the low bits read backwards;
* `bumpUp`, `bumpDown` — adding and subtracting one with the carry running downwards;
* `rank`, `rank_inj` — places are unique;
* `rank_half`, `rank_sibling` — in a binary tree stored in an array a parent comes before its
  children, and a left child before the right one.
-/

namespace ConcurrentPQ.BitReverse

/-- The `k` low bits of `x` read backwards. -/
def revBits : ℕ → ℕ → ℕ
  | 0, _ => 0
  | k + 1, x => (x.testBit k).toNat + 2 * revBits k x

theorem revBits_lt (k x : ℕ) : revBits k x < 2 ^ k := by
  induction k with
  | zero => exact Nat.one_pos
  | succ k ih =>
    have hb : (x.testBit k).toNat ≤ 1 := Bool.toNat_le _
    rw [revBits, pow_succ]
    omega

theorem revBits_congr {k x y : ℕ} (h : ∀ j, j < k → x.testBit j = y.testBit j) :
    revBits k x = revBits k y := by
  induction k with
  | zero => rfl
  | succ k ih =>
    rw [revBits, revBits, h k (Nat.lt_succ_self k), ih fun j hj => h j (Nat.lt_succ_of_lt hj)]

theorem revBits_inj {k x y : ℕ} (h : revBits k x = revBits k y) :
    ∀ j, j < k → x.testBit j = y.testBit j := by
  induction k with
  | zero => intro j hj; omega
  | succ k ih =>
    rw [revBits, revBits] at h
    have hx : (x.testBit k).toNat ≤ 1 := Bool.toNat_le _
    have hy : (y.testBit k).toNat ≤ 1 := Bool.toNat_le _
    intro j hj
    by_cases hjk : j = k
    · have : (x.testBit k).toNat = (y.testBit k).toNat := by omega
      rw [hjk]
      cases hx' : x.testBit k <;> cases hy' : y.testBit k <;> simp_all
    · exact ih (by omega) j (by omega)

/-- Bit `b` of `x` flipped. -/
def flip (x b : ℕ) : ℕ := x ^^^ 2 ^ b

theorem testBit_flip_self (x b : ℕ) : (flip x b).testBit b = !x.testBit b := by
  simp [flip, Nat.testBit_xor]

theorem testBit_flip_of_ne {x b j : ℕ} (h : j ≠ b) : (flip x b).testBit j = x.testBit j := by
  simp [flip, Nat.testBit_xor, h.symm]

/-- Add one to the `k` low bits read backwards; the answer is false when the carry runs out. -/
def bumpUp : ℕ → ℕ → Bool × ℕ
  | 0, x => (false, x)
  | b + 1, x => if x.testBit b = true then bumpUp b (flip x b) else (true, flip x b)

/-- Subtract one from the `k` low bits read backwards; the answer is false when the borrow runs
out. -/
def bumpDown : ℕ → ℕ → Bool × ℕ
  | 0, x => (false, x)
  | b + 1, x => if x.testBit b = true then (true, flip x b) else bumpDown b (flip x b)

theorem testBit_bumpUp {k x j : ℕ} (h : k ≤ j) : (bumpUp k x).2.testBit j = x.testBit j := by
  induction k generalizing x with
  | zero => rfl
  | succ k ih =>
    rw [bumpUp]
    split
    · rw [ih (by omega), testBit_flip_of_ne (by omega)]
    · exact testBit_flip_of_ne (by omega)

theorem testBit_bumpDown {k x j : ℕ} (h : k ≤ j) : (bumpDown k x).2.testBit j = x.testBit j := by
  induction k generalizing x with
  | zero => rfl
  | succ k ih =>
    rw [bumpDown]
    split
    · exact testBit_flip_of_ne (by omega)
    · rw [ih (by omega), testBit_flip_of_ne (by omega)]

theorem revBits_flip_of_le {k b : ℕ} (x : ℕ) (h : k ≤ b) :
    revBits k (flip x b) = revBits k x :=
  revBits_congr fun _ hj => testBit_flip_of_ne (by omega)

/-- The carry of `bumpUp` runs out exactly when all bits are set. -/
theorem bumpUp_spec (k x : ℕ) :
    ((bumpUp k x).1 = true → revBits k (bumpUp k x).2 = revBits k x + 1) ∧
    ((bumpUp k x).1 = false → revBits k x + 1 = 2 ^ k) := by
  induction k generalizing x with
  | zero => exact ⟨fun h => (by cases h), fun _ => rfl⟩
  | succ k ih =>
    obtain ⟨h₁, h₂⟩ := ih (flip x k)
    have hsame := revBits_flip_of_le x (le_refl k)
    by_cases hb : x.testBit k = true
    · have hstep : bumpUp (k + 1) x = bumpUp k (flip x k) := if_pos hb
      rw [hstep]
      constructor
      · intro ht
        have hbit : (bumpUp k (flip x k)).2.testBit k = false := by
          rw [testBit_bumpUp (le_refl k), testBit_flip_self, hb]
          rfl
        rw [revBits, revBits, hbit, hb, h₁ ht, hsame]
        simp
        omega
      · intro hf
        have := h₂ hf
        rw [revBits, hb, pow_succ, ← this, hsame]
        simp
        omega
    · have hstep : bumpUp (k + 1) x = (true, flip x k) := if_neg hb
      have hb : x.testBit k = false := by simpa using hb
      rw [hstep]
      refine ⟨fun _ => ?_, fun hf => by cases hf⟩
      rw [revBits, revBits, testBit_flip_self, hb, hsame]
      simp
      omega

/-- The borrow of `bumpDown` runs out exactly when no bit is set. -/
theorem bumpDown_spec (k x : ℕ) :
    ((bumpDown k x).1 = true → revBits k (bumpDown k x).2 + 1 = revBits k x) ∧
    ((bumpDown k x).1 = false → revBits k x = 0) := by
  induction k generalizing x with
  | zero => exact ⟨fun h => (by cases h), fun _ => rfl⟩
  | succ k ih =>
    obtain ⟨h₁, h₂⟩ := ih (flip x k)
    have hsame := revBits_flip_of_le x (le_refl k)
    by_cases hb : x.testBit k = true
    · have hstep : bumpDown (k + 1) x = (true, flip x k) := if_pos hb
      rw [hstep]
      refine ⟨fun _ => ?_, fun hf => by cases hf⟩
      rw [revBits, revBits, testBit_flip_self, hb, hsame]
      simp
      omega
    · have hstep : bumpDown (k + 1) x = bumpDown k (flip x k) := if_neg hb
      have hb : x.testBit k = false := by simpa using hb
      rw [hstep]
      constructor
      · intro ht
        have hbit : (bumpDown k (flip x k)).2.testBit k = true := by
          rw [testBit_bumpDown (le_refl k), testBit_flip_self, hb]
          rfl
        have := h₁ ht
        rw [revBits, revBits, hbit, hb, ← hsame, ← this]
        simp
        omega
      · intro hf
        rw [revBits, hb, ← hsame, h₂ hf]
        rfl

/-! ### Ranks -/

/-- The place of a positive number in the bit-reversed order. -/
def rank (x : ℕ) : ℕ := 2 ^ Nat.log 2 x + revBits (Nat.log 2 x) x

theorem rank_eq {k x : ℕ} (h₁ : 2 ^ k ≤ x) (h₂ : x < 2 ^ (k + 1)) :
    rank x = 2 ^ k + revBits k x := by
  have : Nat.log 2 x = k := Nat.log_eq_of_pow_le_of_lt_pow h₁ h₂
  rw [rank, this]

theorem le_rank {x : ℕ} : 2 ^ Nat.log 2 x ≤ rank x := Nat.le_add_right _ _

theorem rank_lt (x : ℕ) : rank x < 2 ^ (Nat.log 2 x + 1) := by
  have := revBits_lt (Nat.log 2 x) x
  rw [rank, pow_succ]
  omega

theorem rank_pos (x : ℕ) : 0 < rank x := lt_of_lt_of_le (Nat.two_pow_pos _) le_rank

theorem log_rank (x : ℕ) : Nat.log 2 (rank x) = Nat.log 2 x :=
  Nat.log_eq_of_pow_le_of_lt_pow le_rank (rank_lt x)

/-- Two numbers between `2 ^ k` and `2 ^ (k + 1)` with the same low bits are equal. -/
theorem eq_of_testBit {k x y : ℕ} (hx₁ : 2 ^ k ≤ x) (hx₂ : x < 2 ^ (k + 1)) (hy₁ : 2 ^ k ≤ y)
    (hy₂ : y < 2 ^ (k + 1)) (h : ∀ j, j < k → x.testBit j = y.testBit j) : x = y := by
  have hlow : x % 2 ^ k = y % 2 ^ k := by
    refine Nat.eq_of_testBit_eq fun j => ?_
    rw [Nat.testBit_mod_two_pow, Nat.testBit_mod_two_pow]
    by_cases hj : j < k
    · rw [h j hj]
    · simp [hj]
  rw [pow_succ] at hx₂ hy₂
  have hdx : x / 2 ^ k = 1 := Nat.div_eq_of_lt_le (by omega) (by omega)
  have hdy : y / 2 ^ k = 1 := Nat.div_eq_of_lt_le (by omega) (by omega)
  rw [← Nat.div_add_mod x (2 ^ k), ← Nat.div_add_mod y (2 ^ k), hdx, hdy, hlow]

theorem rank_inj {x y : ℕ} (hx : x ≠ 0) (hy : y ≠ 0) (h : rank x = rank y) : x = y := by
  have hk : Nat.log 2 x = Nat.log 2 y := by rw [← log_rank x, h, log_rank y]
  have hrev : revBits (Nat.log 2 x) x = revBits (Nat.log 2 x) y := by
    rw [rank, rank, hk] at h
    rw [hk]
    omega
  refine eq_of_testBit (Nat.pow_log_le_self 2 hx) (Nat.lt_pow_succ_log_self (by decide) x)
    ?_ ?_ (revBits_inj hrev)
  · rw [hk]; exact Nat.pow_log_le_self 2 hy
  · rw [hk]; exact Nat.lt_pow_succ_log_self (by decide) y

theorem rank_half {x : ℕ} (hx : 2 ≤ x) : rank (x / 2) < rank x := by
  have hlog : Nat.log 2 x = Nat.log 2 (x / 2) + 1 := by
    rw [Nat.log_div_base]
    have := Nat.log_pos (by decide : 1 < 2) hx
    omega
  calc rank (x / 2) < 2 ^ (Nat.log 2 (x / 2) + 1) := rank_lt _
    _ = 2 ^ Nat.log 2 x := by rw [hlog]
    _ ≤ rank x := le_rank

theorem rank_sibling {p : ℕ} (hp : p ≠ 0) : rank (2 * p) < rank (2 * p + 1) := by
  have h₁ : 2 ^ Nat.log 2 p ≤ p := Nat.pow_log_le_self 2 hp
  have h₂ : p < 2 ^ (Nat.log 2 p + 1) := Nat.lt_pow_succ_log_self (by decide) p
  set k := Nat.log 2 p
  have hp1 : 2 ^ (k + 1) = 2 * 2 ^ k := by rw [pow_succ]; ring
  have hp2 : 2 ^ (k + 1 + 1) = 2 * 2 ^ (k + 1) := by rw [pow_succ]; ring
  rw [rank_eq (k := k + 1) (by omega) (by omega), rank_eq (k := k + 1) (by omega) (by omega)]
  have key : ∀ j, revBits (j + 1) (2 * p + 1) = revBits (j + 1) (2 * p) + 2 ^ j := by
    intro j
    induction j with
    | zero => simp [revBits]
    | succ j ih =>
      have hbit : (2 * p + 1).testBit (j + 1) = (2 * p).testBit (j + 1) := by
        rw [Nat.testBit_succ, Nat.testBit_succ]
        congr 1
        omega
      have hx : revBits (j + 1 + 1) (2 * p + 1) =
          ((2 * p + 1).testBit (j + 1)).toNat + 2 * revBits (j + 1) (2 * p + 1) := rfl
      have hy : revBits (j + 1 + 1) (2 * p) =
          ((2 * p).testBit (j + 1)).toNat + 2 * revBits (j + 1) (2 * p) := rfl
      rw [hx, hy, ih, hbit, pow_succ]
      ring
  rw [key k]
  have := Nat.two_pow_pos k
  omega

end ConcurrentPQ.BitReverse

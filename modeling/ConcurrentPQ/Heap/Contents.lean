import ConcurrentPQ.Heap.Program
import Mathlib.Tactic.IntervalCases

/-!
# What the array holds

`contents h n` is the multiset of the values in the nodes `0, …, n - 1` whose tag is not `Empty`, and
`Used c` are the slots the counter has handed out.

* `sum_change` — a sum of which one summand changes;
* `contents_update`, `contents_swap`, `contents_setTag` — what the writes to the array do to it;
* `Used`, `used_inc`, `used_dec` — the counter hands out one slot at a time, and takes back the last
  one;
* `Used.lt`, `Used.half`, `Used.left` — used slots are inside the buffer, and closed under parents
  and left siblings;
* `log2ceil_eq`, `one_lt_ceil2`, `ceil2_buffer` — the buffer, whose size the shift of `int` gets right
  up to a capacity of `2 ^ 31`.
-/

namespace ConcurrentPQ.Heap

open ConcurrentPQ.BitReverse

/-- The value of a node that is not empty. -/
def item (x : Node) : Multiset ℕ := if x.m_nTag = .empty then 0 else {x.m_Value}

/-- The values in the first `n` nodes. -/
def contents (h : Nodes) (n : ℕ) : Multiset ℕ := ∑ i ∈ Finset.range n, item (h i)

theorem item_empty {x : Node} (h : x.m_nTag = .empty) : item x = 0 := if_pos h

theorem item_of_ne {x : Node} (h : x.m_nTag ≠ .empty) : item x = {x.m_Value} := if_neg h

/-- A sum of which one summand changes. -/
theorem sum_change {ι M : Type*} [DecidableEq ι] [AddCommMonoid M] {T : Finset ι}
    (F F' : ι → M) {t : ι} (ht : t ∈ T) (h : ∀ u, u ≠ t → F' u = F u) :
    ∑ u ∈ T, F' u + F t = ∑ u ∈ T, F u + F' t := by
  rw [← Finset.add_sum_erase _ _ ht, ← Finset.add_sum_erase _ _ ht]
  have hrest : ∑ u ∈ T.erase t, F' u = ∑ u ∈ T.erase t, F u :=
    Finset.sum_congr rfl fun u hu => h u (Finset.ne_of_mem_erase hu)
  rw [hrest, add_right_comm, add_assoc, add_comm]

/-- A node overwritten. -/
theorem contents_update {h : Nodes} {n i : ℕ} (hi : i < n) (x : Node) :
    contents (Function.update h i x) n + item (h i) = contents h n + item x := by
  have hsum := sum_change (fun j => item (h j))
    (fun j => item (Function.update h i x j)) (Finset.mem_range.mpr hi)
    fun j hj => by rw [Function.update_of_ne hj]
  rwa [Function.update_self] at hsum

/-- Two nodes exchanged. -/
theorem contents_swap {h : Nodes} {n i j : ℕ} (hi : i < n) (hj : j < n) :
    contents (swap h i j) n = contents h n := by
  by_cases hij : i = j
  · subst hij
    rw [swap, Function.update_eq_self, Function.update_eq_self]
  · have h₁ := contents_update (h := h) hi (h j)
    have h₂ := contents_update (h := Function.update h i (h j)) hj (h i)
    rw [Function.update_of_ne (Ne.symm hij), h₁] at h₂
    exact add_right_cancel h₂

/-- A tag overwritten that was not empty, by one that is not empty. -/
theorem contents_setTag {h : Nodes} {n i : ℕ} {g : Tag} (hi : i < n) (hold : (h i).m_nTag ≠ .empty)
    (hnew : g ≠ .empty) : contents (setTag h i g) n = contents h n := by
  have h₁ := contents_update (h := h) hi { h i with m_nTag := g }
  have heq : item { h i with m_nTag := g } = item (h i) := by
    rw [item_of_ne hold, item_of_ne hnew]
  rw [heq] at h₁
  exact add_right_cancel h₁

/-- A node cleared. -/
theorem contents_clear {h : Nodes} {n i : ℕ} (hi : i < n) (hold : (h i).m_nTag ≠ .empty) :
    contents (setTag h i .empty) n + {(h i).m_Value} = contents h n := by
  have h₁ := contents_update (h := h) hi { h i with m_nTag := .empty }
  have h₂ : item { h i with m_nTag := .empty } = 0 := item_empty rfl
  rw [item_of_ne hold, h₂, add_zero] at h₁
  exact h₁

/-- A node filled that was empty. -/
theorem contents_fill {h : Nodes} {n i : ℕ} {x : Node} (hi : i < n) (hold : (h i).m_nTag = .empty)
    (hnew : x.m_nTag ≠ .empty) :
    contents (Function.update h i x) n = contents h n + {x.m_Value} := by
  have h₁ := contents_update (h := h) hi x
  rw [item_empty hold, item_of_ne hnew, add_zero] at h₁
  exact h₁

/-- A value overwritten in a node that is not empty. -/
theorem contents_setValue {h : Nodes} {n i v : ℕ} (hi : i < n) (hold : (h i).m_nTag ≠ .empty) :
    contents (setValue h i v) n + {(h i).m_Value} = contents h n + {v} := by
  have h₁ := contents_update (h := h) hi { h i with m_Value := v }
  rw [item_of_ne hold, item_of_ne (x := { h i with m_Value := v }) hold] at h₁
  exact h₁

/-! ### Reading back a write -/

section ReadBack

variable (h : Nodes) (i j : ℕ) (g : Tag) (v : ℕ)

@[simp] theorem setTag_value : (setTag h i g j).m_Value = (h j).m_Value := by
  unfold setTag
  by_cases hj : j = i
  · subst hj; simp
  · simp [hj]

@[simp] theorem setTag_tag_same : (setTag h i g i).m_nTag = g := by simp [setTag]

theorem setTag_tag_ne (hj : j ≠ i) : (setTag h i g j).m_nTag = (h j).m_nTag := by
  simp [setTag, hj]

@[simp] theorem setValue_tag : (setValue h i v j).m_nTag = (h j).m_nTag := by
  unfold setValue
  by_cases hj : j = i
  · subst hj; simp
  · simp [hj]

@[simp] theorem setValue_value_same : (setValue h i v i).m_Value = v := by simp [setValue]

theorem setValue_value_ne (hj : j ≠ i) : (setValue h i v j).m_Value = (h j).m_Value := by
  simp [setValue, hj]

theorem swap_right : swap h i j j = h i := by simp [swap]

theorem swap_left : swap h i j i = h j := by
  unfold swap
  by_cases hij : i = j
  · subst hij; simp
  · simp [hij]

theorem swap_ne {k : ℕ} (hi : k ≠ i) (hj : k ≠ j) : swap h i j k = h k := by
  simp [swap, hi, hj]

end ReadBack

/-! ### The slots the counter has handed out -/

/-- Slot `i` is handed out. -/
def Used (c : BitReverseCounter) (i : ℕ) : Prop := i ≠ 0 ∧ rank i ≤ c.value

instance (c : BitReverseCounter) : DecidablePred (Used c) := fun i =>
  inferInstanceAs (Decidable (i ≠ 0 ∧ rank i ≤ c.value))

variable {c : BitReverseCounter} {i : ℕ}

theorem used_inc (hc : c.Good) :
    Used c.inc i ↔ Used c i ∨ i = c.inc.reversed_value := by
  obtain ⟨hne, hrank⟩ := hc.inc_reversed
  rw [Used, Used, BitReverseCounter.inc_value]
  constructor
  · rintro ⟨h0, hr⟩
    rcases Nat.lt_or_ge (rank i) (c.value + 1) with hlt | hge
    · exact Or.inl ⟨h0, by omega⟩
    · exact Or.inr (rank_inj h0 hne (by omega))
  · rintro (⟨h0, hr⟩ | rfl)
    · exact ⟨h0, by omega⟩
    · exact ⟨hne, hrank.le⟩

theorem not_used_inc (hc : c.Good) : ¬Used c c.inc.reversed_value := by
  rintro ⟨-, hr⟩
  have := hc.inc_reversed.2
  omega

theorem used_reversed (hc : c.Good) (h0 : c.value ≠ 0) : Used c c.reversed_value :=
  ⟨hc.reversed_ne_zero h0, (hc.rank_reversed h0).le⟩

theorem used_dec (hc : c.Good) (h0 : c.value ≠ 0) :
    Used c.dec i ↔ Used c i ∧ i ≠ c.reversed_value := by
  have hrank := hc.rank_reversed h0
  rw [Used, Used, BitReverseCounter.dec_value]
  constructor
  · rintro ⟨hi, hr⟩
    refine ⟨⟨hi, by omega⟩, ?_⟩
    rintro rfl
    omega
  · rintro ⟨⟨hi, hr⟩, hne⟩
    have hlt : rank i ≠ c.value := fun he =>
      hne (rank_inj hi (hc.reversed_ne_zero h0) (he.trans hrank.symm))
    exact ⟨hi, by omega⟩

theorem rank_one : rank 1 = 1 := by decide

/-- Used slots are inside the buffer. -/
theorem Used.lt {k : ℕ} (h : Used c i) (hc : c.value < 2 ^ k) : i < 2 ^ k := by
  have h₁ : 2 ^ Nat.log 2 i < 2 ^ k := lt_of_le_of_lt (le_rank.trans h.2) hc
  have h₂ : Nat.log 2 i < k := (Nat.pow_lt_pow_iff_right (by decide)).mp h₁
  exact lt_of_lt_of_le (Nat.lt_pow_succ_log_self (by decide) i)
    (Nat.pow_le_pow_right (by decide) h₂)

/-- The parent of a used slot is used. -/
theorem Used.half (h : Used c i) (hi : 2 ≤ i) : Used c (i / 2) :=
  ⟨by omega, (rank_half hi).le.trans h.2⟩

/-- The left sibling of a used right child is used. -/
theorem Used.left {p : ℕ} (h : Used c (p * 2 + 1)) (hp : p ≠ 0) : Used c (p * 2) := by
  have := rank_sibling hp
  rw [Nat.mul_comm] at this
  exact ⟨by omega, this.le.trans h.2⟩

/-! ### The size of the buffer -/

theorem ceil2_eq (n : ℕ) : ceil2 n = 2 ^ (log2ceil n % 64) := rfl

theorem intShift_of_lt {i : ℕ} (hi : i < 31) : intShift i = 2 ^ i := by
  interval_cases i <;> rfl

/-- Up to `2 ^ 31` the shift of `int` does what it is meant to do. -/
theorem log2ceil_eq {n : ℕ} (hn : n ≠ 0) (hle : n ≤ 2 ^ 31) :
    log2ceil n = if 2 ^ log2floor n < n then log2floor n + 1 else log2floor n := by
  have hlow : 2 ^ log2floor n ≤ n := Nat.pow_log_le_self 2 hn
  rw [log2ceil]
  by_cases h31 : log2floor n < 31
  · rw [intShift_of_lt h31]
  · have hpow : 2 ^ 31 ≤ 2 ^ log2floor n := Nat.pow_le_pow_right (by decide) (not_lt.mp h31)
    have hlog : log2floor n = 31 := Nat.pow_right_injective le_rfl (le_antisymm (hlow.trans hle) hpow)
    have hshift : intShift 31 = 2 ^ 64 - 2 ^ 31 := by decide
    rw [hlog, hshift, if_neg (by omega), if_neg (by omega)]

theorem log2ceil_pos {n : ℕ} (h : 2 ≤ n) : 0 < log2ceil n := by
  have hlog := Nat.log_pos (by decide : 1 < 2) h
  unfold log2ceil log2floor
  split <;> omega

theorem log2ceil_le {n : ℕ} (hn : n ≠ 0) (hle : n ≤ 2 ^ 31) : log2ceil n ≤ 31 := by
  have hlow : 2 ^ log2floor n ≤ n := Nat.pow_log_le_self 2 hn
  have hlog : log2floor n ≤ 31 := (Nat.pow_le_pow_iff_right (by decide)).mp (hlow.trans hle)
  rw [log2ceil_eq hn hle]
  split
  · rename_i hlt
    have hne : log2floor n ≠ 31 := fun he => by
      rw [he] at hlt
      omega
    omega
  · exact hlog

theorem ceil2_eq_of_le {n : ℕ} (hn : n ≠ 0) (hle : n ≤ 2 ^ 31) : ceil2 n = 2 ^ log2ceil n := by
  have h31 := log2ceil_le hn hle
  rw [ceil2, Nat.mod_eq_of_lt (by omega)]

theorem one_lt_ceil2 {c : ℕ} (hc : 2 ≤ c) (hle : c ≤ 2 ^ 31) : 1 < ceil2 c := by
  rw [ceil2_eq_of_le (by omega) hle]
  exact Nat.one_lt_two_pow (Nat.pos_iff_ne_zero.mp (log2ceil_pos hc))

/-- A buffer of more than one node has a power of two of them that is not 1. -/
theorem ceil2_buffer {c : ℕ} (hc : 1 < ceil2 c) : ∃ k, 0 < k ∧ ceil2 c = 2 ^ k := by
  refine ⟨_, Nat.pos_of_ne_zero fun h0 => ?_, rfl⟩
  rw [ceil2, h0] at hc
  exact absurd hc (lt_irrefl 1)

end ConcurrentPQ.Heap

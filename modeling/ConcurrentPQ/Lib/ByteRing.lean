import Mathlib.Data.List.Basic
import Mathlib.Tactic.Common

/-!
# Rings of 256 slots behind one-byte counters

A queue kept in 256 slots by a cursor and a count, both of one byte and both wrapping.  The count says
how many of the slots behind the cursor are in use:

* `window` — the queue, the oldest entry first;
* `window_take` — taking the oldest entry takes one from the count;
* `window_put` — storing at the cursor appends, unless the count wraps.
-/

namespace ConcurrentPQ.ByteRing

variable {α : Type*} {slots : UInt8 → α} {cur num : UInt8}

/-- The `num` entries behind the cursor, the oldest first. -/
def window (slots : UInt8 → α) (cur num : UInt8) : List α :=
  (List.range num.toNat).map fun k => slots (cur - num + UInt8.ofNat k)

@[simp] theorem window_zero : window slots cur 0 = [] := rfl

@[simp] theorem window_length : (window slots cur num).length = num.toNat := by
  simp [window]

/-- The oldest entry, and the others. -/
theorem window_take (h : 0 < num.toNat) :
    window slots cur num = slots (cur - num) :: window slots cur (num - 1) := by
  have hnum : num.toNat = (num - 1).toNat + 1 := by
    have hle : (1 : UInt8) ≤ num := by
      rw [UInt8.le_iff_toNat_le]
      exact h
    have hsub := UInt8.toNat_sub_of_le num 1 hle
    have hone : (1 : UInt8).toNat = 1 := rfl
    omega
  have hshift : ∀ k, cur - num + UInt8.ofNat (k + 1) = cur - (num - 1) + UInt8.ofNat k := by
    intro k
    rw [UInt8.ofNat_add]
    have hone : UInt8.ofNat 1 = 1 := rfl
    rw [hone]
    grind
  rw [window, hnum, List.range_succ_eq_map, List.map_cons, List.map_map]
  have hhead : cur - num + UInt8.ofNat 0 = cur - num := by
    have hzero : UInt8.ofNat 0 = 0 := rfl
    rw [hzero]
    grind
  rw [hhead]
  refine congrArg _ (List.map_congr_left fun k _ => ?_)
  exact congrArg slots (hshift k)

/-- Storing at the cursor appends. -/
theorem window_put (h : num.toNat < 255) (p : α) :
    window (Function.update slots cur p) (cur + 1) (num + 1) = window slots cur num ++ [p] := by
  have hnum : (num + 1).toNat = num.toNat + 1 := by
    rw [UInt8.toNat_add]
    have hone : (1 : UInt8).toNat = 1 := rfl
    omega
  have hstart : cur + 1 - (num + 1) = cur - num := by grind
  rw [window, hnum, List.range_succ, List.map_append, hstart, window]
  have hlast : cur - num + UInt8.ofNat num.toNat = cur := by
    rw [UInt8.ofNat_toNat]
    grind
  refine congrArg₂ _ (List.map_congr_left fun k hk => ?_) ?_
  · have hk : k < num.toNat := List.mem_range.mp hk
    have hne : cur - num + UInt8.ofNat k ≠ cur := by
      intro heq
      have hkn : UInt8.ofNat k = num := by grind
      have hcast : (UInt8.ofNat k).toNat = k := by
        rw [UInt8.toNat_ofNat']
        omega
      rw [hkn] at hcast
      omega
    exact Function.update_of_ne hne _ _
  · simp only [List.map_cons, List.map_nil, hlast, Function.update_self]

end ConcurrentPQ.ByteRing

import ConcurrentPQ.Heap.Sequential

/-!
# GlobalLock against Heap

`GlobalLock` keeps the default comparator of `std::priority_queue`, so it removes a greatest element,
while `Heap` removes a smallest one.  The two give the same answers exactly as long as every
`delete_min` finds all stored values equal.

* `Fits` — no insert into a full heap;
* `Uniform` — every `delete_min` of the sequence finds equal values only;
* `interchangeable_iff` — the exact condition;
* `not_interchangeable` — two different values tell the two apart.
-/

namespace ConcurrentPQ.Heap

/-- With `n` elements stored, the sequence never stores more than `capacity`. -/
def Fits (capacity : ℕ) : ℕ → List Op → Prop
  | _, [] => True
  | n, .insert _ :: ops => n + 1 ≤ capacity ∧ Fits capacity (n + 1) ops
  | n, .delete_min :: ops => Fits capacity (n - 1) ops

/-- All stored values are equal. -/
def AllEqual (M : Multiset ℕ) : Prop := ∀ a ∈ M, ∀ b ∈ M, a = b

/-- Every `delete_min` of the sequence finds equal values only. -/
def Uniform : GlobalLock → List Op → Prop
  | _, [] => True
  | q, .insert v :: ops => Uniform (q.insert v) ops
  | q, .delete_min :: ops => AllEqual q.m_q ∧ Uniform q.delete_min.1 ops

namespace GlobalLock

theorem le_top (q : GlobalLock) {a : ℕ} (ha : a ∈ q.m_q) : a ≤ q.top := Multiset.le_sup ha

theorem sup_mem {M : Multiset ℕ} (h : M ≠ 0) : M.sup ∈ M := by
  induction M using Multiset.induction_on with
  | empty => exact absurd rfl h
  | cons a M ih =>
    rw [Multiset.sup_cons]
    by_cases hM : M = 0
    · rw [hM]
      simp
    · rcases le_total a M.sup with hle | hle
      · rw [sup_eq_right.mpr hle]
        exact Multiset.mem_cons_of_mem (ih hM)
      · rw [sup_eq_left.mpr hle]
        exact Multiset.mem_cons_self a M

theorem top_mem (q : GlobalLock) (h : q.m_q ≠ 0) : q.top ∈ q.m_q := sup_mem h

end GlobalLock

variable {q : MSPriorityQueue} {g : GlobalLock}

theorem Valid.top_le_of_mem (hq : Valid q) {v : ℕ} (hv : v ∈ q.elements) :
    (q.m_Heap 1).m_Value ≤ v := by
  obtain ⟨j, hu, rfl⟩ := hq.mem_elements.mp hv
  exact hq.top_le hu

/-- Queues that hold nothing, of which the heap has no room either, agree on every sequence. -/
theorem run_eq_of_no_room (cur : Tid) {ops : List Op} (hempty : q.m_ItemCounter.value = 0)
    (hg : g.m_q = 0) (hroom : q.capacity = 0) (hfits : Fits q.capacity 0 ops) :
    MSPriorityQueue.run cur q ops = some (g.run ops) ∧ Uniform g ops := by
  have hpop : q.pop_with = some (q, none) := if_pos hempty
  have hdel : g.delete_min = (g, none) := if_pos hg
  induction ops with
  | nil => exact ⟨rfl, trivial⟩
  | cons op ops ih =>
    cases op with
    | insert v =>
      have hle := hfits.1
      rw [hroom] at hle
      exact absurd hle (Nat.not_succ_le_zero _)
    | delete_min =>
      obtain ⟨hrun, huni⟩ := ih hfits
      rw [MSPriorityQueue.run, GlobalLock.run, Uniform, hpop, hdel]
      refine ⟨by simp [hrun], fun a ha => ?_, huni⟩
      rw [hg] at ha
      exact absurd ha (Multiset.notMem_zero a)

/-- The two queues hold the same values; from there on their answers agree exactly if every
`delete_min` finds equal values only. -/
theorem run_eq_iff {cur : Tid} {ops : List Op} (hq : Valid q) (hsame : q.elements = g.m_q)
    (hfits : Fits q.capacity q.m_ItemCounter.value ops) :
    MSPriorityQueue.run cur q ops = some (g.run ops) ↔ Uniform g ops := by
  induction ops generalizing q g with
  | nil => exact ⟨fun _ => trivial, fun _ => rfl⟩
  | cons op ops ih =>
    cases op with
    | insert v =>
      obtain ⟨hroom, hfits⟩ := hfits
      obtain ⟨q', he, hq', hb, hval, hel⟩ := hq.push cur v hroom
      rw [MSPriorityQueue.run, he, GlobalLock.run, Uniform]
      refine ih hq' ?_ ?_
      · rw [hel, hsame]; rfl
      · rw [MSPriorityQueue.capacity, hb, hval]; exact hfits
    | delete_min =>
      rw [MSPriorityQueue.run, GlobalLock.run, Uniform]
      by_cases h0 : q.m_ItemCounter.value = 0
      · -- both queues are empty and say so
        have hg : g.m_q = 0 := hsame ▸ hq.elements_eq_zero.mpr h0
        have hpop : q.pop_with = some (q, none) := if_pos h0
        have hdel : g.delete_min = (g, none) := if_pos hg
        have hall : AllEqual g.m_q := by
          rw [hg]
          exact fun a ha => absurd ha (Multiset.notMem_zero a)
        have hrest : Fits q.capacity q.m_ItemCounter.value ops := by
          have hfits' : Fits q.capacity (q.m_ItemCounter.value - 1) ops := hfits
          rw [h0] at hfits' ⊢
          exact hfits'
        have := ih hq hsame hrest
        rw [hpop, hdel, and_iff_right hall, ← this]
        simp
      · obtain ⟨q', he, hq', hb, hval, hel⟩ := hq.pop_with h0
        have hg : g.m_q ≠ 0 := fun hz => h0 (hq.elements_eq_zero.mp (hsame.trans hz))
        have hdel : g.delete_min = (⟨g.m_q.erase g.top⟩, some g.top) := if_neg hg
        have hmem : (q.m_Heap 1).m_Value ∈ g.m_q := by
          rw [← hsame, hel]
          exact Multiset.mem_cons_self _ _
        rw [he, hdel]
        by_cases hall : AllEqual g.m_q
        · -- smallest and greatest coincide
          have htop : (q.m_Heap 1).m_Value = g.top := hall _ hmem _ (g.top_mem hg)
          have hsame' : q'.elements = (⟨g.m_q.erase g.top⟩ : GlobalLock).m_q := by
            dsimp only
            rw [← hsame, hel, htop, Multiset.erase_cons_head]
          have hrest : Fits q'.capacity q'.m_ItemCounter.value ops := by
            have hfits' : Fits q.capacity (q.m_ItemCounter.value - 1) ops := hfits
            rw [MSPriorityQueue.capacity, hb]
            have hv : q'.m_ItemCounter.value = q.m_ItemCounter.value - 1 := by omega
            rw [hv]
            exact hfits'
          have := ih hq' hsame' hrest
          rw [and_iff_right hall, ← this, htop]
          simp
        · refine iff_of_false (fun hrun => hall ?_) fun h => hall h.1
          -- equal answers leave no room between the smallest and the greatest value
          simp only [Option.bind_some, Option.map_eq_some_iff] at hrun
          obtain ⟨l, -, hl⟩ := hrun
          have htop : (q.m_Heap 1).m_Value = g.top := Option.some.inj (List.cons.inj hl).1
          intro a ha b hb
          have ha₁ := hq.top_le_of_mem (hsame ▸ ha)
          have hb₁ := hq.top_le_of_mem (hsame ▸ hb)
          have ha₂ := g.le_top ha
          have hb₂ := g.le_top hb
          omega

/-- **When GlobalLock and Heap are interchangeable.**  On a sequence of calls that never overfills
the heap they give the same answers exactly if every `delete_min` finds all stored values equal. -/
theorem interchangeable_iff {c : ℕ} (cur : Tid) (ops : List Op)
    (hfits : Fits (MSPriorityQueue.new c).capacity 0 ops) :
    MSPriorityQueue.run cur (.new c) ops = some (GlobalLock.run .new ops) ↔
      Uniform .new ops := by
  by_cases hbuf : 1 < ceil2 c
  · exact run_eq_iff (Valid.new hbuf) (Valid.elements_new c) hfits
  · -- `ceil2` has overflowed to 1
    have hroom : (MSPriorityQueue.new c).capacity = 0 := Nat.sub_eq_zero_of_le (not_lt.mp hbuf)
    obtain ⟨hrun, huni⟩ := run_eq_of_no_room cur rfl rfl hroom hfits
    exact iff_of_true hrun huni

/-- A heap of capacity 3 in which two equal values are stored and removed. -/
theorem interchangeable_iff_equal :
    MSPriorityQueue.run 1 (.new 3) [.insert 7, .insert 7, .delete_min] =
        some (GlobalLock.run .new [.insert 7, .insert 7, .delete_min]) ↔
      Uniform .new [.insert 7, .insert 7, .delete_min] :=
  interchangeable_iff 1 _ ⟨by decide +kernel, by decide +kernel, trivial⟩

/-- After `insert(1)` and `insert(2)`, `Heap` removes 1 and `GlobalLock` removes 2. -/
theorem not_interchangeable : ¬∀ (c : ℕ) (cur : Tid) (ops : List Op), 2 ≤ c →
    Fits (MSPriorityQueue.new c).capacity 0 ops →
    MSPriorityQueue.run cur (.new c) ops = some (GlobalLock.run .new ops) := by
  intro h
  have hrun := h 3 1 [.insert 1, .insert 2, .delete_min] (by decide)
    ⟨by decide +kernel, by decide +kernel, trivial⟩
  revert hrun
  decide +kernel

end ConcurrentPQ.Heap

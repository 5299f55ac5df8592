import ConcurrentPQ.Heap.Threads

/-!
# The invariant of the concurrent heap

A slot passes from the counter to the array and back while its lock changes hands, so between the two
the array is out of step with the counter at the slots of the threads under way.

* `Ok` — what a thread knows at its program counter;
* `pending`, `armed` — the slot for which the counter has been changed but the node is not yet
  locked, and the slot whose node is locked but not yet written;
* `Inv` — the locks, the counter, the slots and the threads agree;
* `Inv.step`, `Inv.of_run` — every step keeps the invariant.
-/

namespace ConcurrentPQ.Heap

open ConcurrentPQ.Transition ConcurrentPQ.Locks

/-- `q` is a child of `p`. -/
def Child (p q : ℕ) : Prop := q = p * 2 ∨ q = p * 2 + 1

/-- What a thread knows at its program counter, with a buffer of size `n`. -/
def Ok (n : ℕ) (c : BitReverseCounter) (h : Nodes) : Pc → Prop
  | .pushNode _ i => Used c i ∧ i < n
  | .pushSize _ i | .pushWrite _ i => 0 < i ∧ i < n ∧ (h i).m_nTag = .empty
  | .pushDone _ i => 0 < i ∧ i < n
  | .upParent _ i | .upItem _ i | .upBody _ i => 1 < i ∧ i < n
  | .upUnlockItem _ i next | .upUnlockParent _ i next => 1 < i ∧ i < n ∧ next ≤ i
  | .topLock _ | .topBody _ => 1 < n
  | .popBottom b => ¬Used c b ∧ 0 < b ∧ b < n
  | .popSize b | .popClear b => 0 < b ∧ b < n ∧ (h b).m_nTag ≠ .empty
  | .popTop b | .popMove b | .popStaleBottom b _ => 1 < b ∧ b < n
  | .popUnlockBottom b _ => 1 < b ∧ b < n ∧ (h 1).m_nTag ≠ .empty
  | .popMark _ => 1 < n ∧ (h 1).m_nTag ≠ .empty
  | .downLeft p _ | .downRight p _ | .downChoose p _ =>
      0 < p ∧ p < n / 2 ∧ (h p).m_nTag ≠ .empty
  | .downEmptyRight p _ | .downEmptyLeft p _ => 0 < p
  | .downSibling p q _ | .downCmp p q _ =>
      0 < p ∧ p < n / 2 ∧ Child p q ∧ (h p).m_nTag ≠ .empty ∧ (h q).m_nTag ≠ .empty
  | .downStep p q _ | .downStop p q _ => 0 < p ∧ p < n / 2 ∧ Child p q ∧ (h q).m_nTag ≠ .empty
  | _ => True

/-! ### The locks -/

section Locks

variable {n : ℕ} {t : Tid} {pc k : Pc} {l : Lock} {f : Shared → Shared × Pc} {c : BitReverseCounter}
  {h : Nodes}

theorem sibling_ne {p q : ℕ} (hp : 0 < p) (hq : Child p q) :
    sibling p q ≠ q ∧ sibling p q ≠ p ∧ p ≠ q := by
  unfold sibling
  unfold Child at hq
  split <;> omega

/-- Acquiring a lock adds it to the locks held. -/
theorem holds_acquire (hc : code n t pc = .acquire l k) (l' : Lock) :
    l' ∈ holds k ↔ l' = l ∨ l' ∈ holds pc := by
  cases pc <;> simp only [code, reduceCtorEq, Instr.acquire.injEq] at hc <;>
    obtain ⟨rfl, rfl⟩ := hc <;> simp [holds] <;> tauto

@[simp] theorem holds_upTest (v i : ℕ) : holds (upTest v i) = [] := by
  unfold upTest
  split
  · rfl
  · split <;> rfl

@[simp] theorem holds_downTest (p d : ℕ) : holds (downTest n p d) = [.node p] := by
  unfold downTest
  split <;> rfl

/-- Releasing a lock takes it from the locks held, among which it is. -/
theorem holds_release (hc : code n t pc = .release l k) (hok : Ok n c h pc) :
    l ∈ holds pc ∧ ∀ l', l' ∈ holds k ↔ l' ∈ holds pc ∧ l' ≠ l := by
  cases pc <;> simp only [code, reduceCtorEq, Instr.release.injEq] at hc <;>
    obtain ⟨rfl, rfl⟩ := hc <;> simp only [Ok] at hok
  case downSibling p q d =>
    obtain ⟨h₁, h₂, -⟩ := sibling_ne hok.1 hok.2.2.1
    refine ⟨by simp [holds], fun l' => ?_⟩
    cases l' <;> simp [holds]
    omega
  all_goals
    refine ⟨by simp [holds], fun l' => ?_⟩
    try rw [holds_upTest]
    try rw [holds_downTest]
    cases l' <;> simp [holds, Child] at hok ⊢
    try omega

end Locks

/-! ### Bodies that only move items around -/

/-- No node becomes empty or full, and the array holds the same values. -/
structure Rearranged (n : ℕ) (h h' : Nodes) : Prop where
  empty_iff : ∀ j, (h' j).m_nTag = .empty ↔ (h j).m_nTag = .empty
  contents : contents h' n = contents h n

section Rearranged

variable {n : ℕ} {t : Tid} {h : Nodes} {i j p q : ℕ}

theorem Rearranged.refl : Rearranged n h h := ⟨fun _ => Iff.rfl, rfl⟩

theorem Rearranged.swap (hi : i < n) (hj : j < n) (hti : (h i).m_nTag ≠ .empty)
    (htj : (h j).m_nTag ≠ .empty) : Rearranged n h (swap h i j) := by
  refine ⟨fun k => ?_, contents_swap hi hj⟩
  by_cases hki : k = i
  · rw [hki, swap_left]
    exact iff_of_false htj hti
  · by_cases hkj : k = j
    · rw [hkj, swap_right]
      exact iff_of_false hti htj
    · rw [swap_ne _ _ _ hki hkj]

theorem Rearranged.setTag {g : Tag} (hi : i < n) (hold : (h i).m_nTag ≠ .empty) (hnew : g ≠ .empty) :
    Rearranged n h (setTag h i g) := by
  refine ⟨fun k => ?_, contents_setTag hi hold hnew⟩
  by_cases hki : k = i
  · rw [hki, setTag_tag_same]
    exact iff_of_false hnew hold
  · rw [setTag_tag_ne _ _ _ _ hki]

theorem setTag_ne {g : Tag} (hj : j ≠ i) : setTag h i g j = h j := Function.update_of_ne hj ..

/-- A round of `heapify_after_push`. -/
theorem upBody_spec (hin : i < n) :
    Rearranged n h (upBody h i t).1 ∧
      (∀ j, j ≠ i / 2 → j ≠ i → (upBody h i t).1 j = h j) ∧ (upBody h i t).2.1 ≤ i := by
  unfold upBody
  dsimp only
  split
  · rename_i hc
    have hti : (h i).m_nTag ≠ .empty := by rw [hc.2]; simp
    have htp : (h (i / 2)).m_nTag ≠ .empty := by rw [hc.1]; simp
    split
    · refine ⟨.swap hin (by omega) hti htp, fun j hp hj => swap_ne _ _ _ hj hp, ?_⟩
      exact Nat.div_le_self i 2
    · exact ⟨.setTag hin hti (by simp), fun j _ hj => setTag_ne hj, Nat.zero_le _⟩
  · split
    · exact ⟨.refl, fun _ _ _ => rfl, Nat.zero_le _⟩
    · split
      · exact ⟨.refl, fun _ _ _ => rfl, Nat.div_le_self i 2⟩
      · exact ⟨.refl, fun _ _ _ => rfl, le_rfl⟩

/-- The end of `heapify_after_push`. -/
theorem topBody_spec (hn : 1 < n) :
    Rearranged n h (topBody h t) ∧ ∀ j, j ≠ 1 → topBody h t j = h j := by
  unfold topBody
  split
  · rename_i hc
    exact ⟨.setTag hn (by rw [hc]; simp) (by simp), fun j hj => setTag_ne hj⟩
  · exact ⟨.refl, fun _ _ => rfl⟩

/-- The chosen child is not empty. -/
theorem chooseChild_some (hq : chooseChild h p = some q) :
    Child p q ∧ (h q).m_nTag ≠ .empty := by
  unfold chooseChild at hq
  dsimp only at hq
  split at hq
  · cases hq
  · rename_i hl
    split at hq
    · obtain rfl := Option.some.inj hq
      exact ⟨Or.inl rfl, hl⟩
    · rename_i hr
      obtain rfl := Option.some.inj hq
      exact ⟨Or.inr rfl, fun he => hr (Or.inl he)⟩

theorem Child.lt_buffer (hq : Child p q) (hp : p < n / 2) : p < n ∧ q < n := by
  unfold Child at hq
  omega

end Rearranged

/-! ### One step -/

section Body

variable {n : ℕ} {t : Tid} {pc k : Pc} {l : Lock} {f : Shared → Shared × Pc} {s : Shared}

/-- A body holds the same locks before and after. -/
theorem holds_body (hc : code n t pc = .body f) (l : Lock) : l ∈ holds (f s).2 ↔ l ∈ holds pc := by
  cases pc <;> simp only [code, reduceCtorEq, Instr.body.injEq] at hc <;> subst hc
  case pushCheck v => unfold checkFull; split <;> rfl
  case popCheck => unfold checkEmpty; split <;> rfl
  case popClear b => unfold clearBottom; dsimp only; split <;> rfl
  case popMove b => unfold moveTop; dsimp only; split <;> rfl
  case popMark d => rw [holds_downTest]; rfl
  case downCmp p q d => unfold compareChild; split <;> rfl
  case downChoose p d =>
    unfold lookAtChildren
    split
    · rfl
    · rename_i q hq
      obtain rfl | rfl := (chooseChild_some hq).1 <;> cases l <;> simp [holds, sibling]
      tauto
  all_goals rfl

/-- A body changes the counter only under the size lock. -/
theorem counter_body (hc : code n t pc = .body f) (hl : Lock.size ∉ holds pc) :
    (f s).1.m_ItemCounter = s.m_ItemCounter := by
  cases pc <;> simp only [code, reduceCtorEq, Instr.body.injEq] at hc <;> subst hc
  case pushCheck v => simp [holds] at hl
  case popCheck => simp [holds] at hl
  case popMove b => unfold moveTop; dsimp only; split <;> rfl
  case downChoose p d => unfold lookAtChildren; split <;> rfl
  case downCmp p q d => unfold compareChild; split <;> rfl
  all_goals rfl

/-- The counter stays in step with the slots it has handed out, and inside the buffer. -/
theorem good_body (hgood : s.m_ItemCounter.Good) (hbound : s.m_ItemCounter.value < n)
    (hc : code n t pc = .body f) :
    (f s).1.m_ItemCounter.Good ∧ (f s).1.m_ItemCounter.value < n := by
  by_cases hl : Lock.size ∈ holds pc
  · cases pc <;> simp [holds] at hl <;> simp only [code, reduceCtorEq, Instr.body.injEq] at hc <;>
      subst hc
    case pushCheck v =>
      unfold checkFull
      split
      · exact ⟨hgood, hbound⟩
      · have hv := BitReverseCounter.inc_value s.m_ItemCounter
        exact ⟨hgood.inc, show s.m_ItemCounter.inc.value < n by omega⟩
    case popCheck =>
      unfold checkEmpty
      split
      · exact ⟨hgood, hbound⟩
      · have hv := BitReverseCounter.dec_value s.m_ItemCounter
        exact ⟨hgood.dec ‹_›, show s.m_ItemCounter.dec.value < n by omega⟩
  · rw [counter_body hc hl]
    exact ⟨hgood, hbound⟩

/-- A body changes a node only under its lock. -/
theorem heap_body (hc : code n t pc = .body f) (hok : Ok n s.m_ItemCounter s.m_Heap pc) {j : ℕ}
    (hl : Lock.node j ∉ holds pc) : (f s).1.m_Heap j = s.m_Heap j := by
  cases pc <;> simp only [code, reduceCtorEq, Instr.body.injEq] at hc <;> subst hc <;>
    simp only [Ok] at hok <;> simp [holds] at hl
  case pushCheck v => unfold checkFull; split <;> rfl
  case popCheck => unfold checkEmpty; split <;> rfl
  case pushWrite v i => exact Function.update_of_ne hl ..
  case upBody v i => exact (upBody_spec hok.2).2.1 j hl.1 hl.2
  case topBody v => exact (topBody_spec hok).2 j hl
  case popClear b => exact setTag_ne hl
  case popMove b =>
    unfold moveTop
    dsimp only
    split
    · rfl
    · exact Function.update_of_ne hl.2 ..
  case popMark d => exact setTag_ne hl
  case downChoose p d => unfold lookAtChildren; split <;> rfl
  case downCmp p q d =>
    unfold compareChild
    split
    · exact swap_ne _ _ _ hl.1 hl.2
    · rfl

end Body

/-! ### What the acting thread knows afterwards -/

section OkStep

variable {n : ℕ} {t : Tid} {pc k : Pc} {l : Lock} {f : Shared → Shared × Pc} {s : Shared}
  {c : BitReverseCounter} {h : Nodes}

theorem ok_upTest {v i : ℕ} (hi : i < n) : Ok n c h (upTest v i) := by
  unfold upTest
  split
  · exact ⟨‹_›, hi⟩
  · split
    · show 1 < n
      omega
    · trivial

theorem ok_downTest {p d : ℕ} (hp : 0 < p) (ht : (h p).m_nTag ≠ .empty) :
    Ok n c h (downTest n p d) := by
  unfold downTest
  split
  · exact ⟨hp, ‹_›, ht⟩
  · trivial

theorem Child.pos {p q : ℕ} (hq : Child p q) (hp : 0 < p) : 0 < q := by
  unfold Child at hq
  omega

theorem ok_release (hc : code n t pc = .release l k) (hok : Ok n c h pc) : Ok n c h k := by
  cases pc <;> simp only [code, reduceCtorEq, Instr.release.injEq] at hc <;>
    obtain ⟨rfl, rfl⟩ := hc <;> simp only [Ok] at hok
  case pushSize v i => exact hok
  case pushDone v i => exact ok_upTest hok.2
  case upUnlockItem v i next => exact hok
  case upUnlockParent v i next => exact ok_upTest (by omega)
  case popSize b => exact hok
  case popUnlockBottom b d => exact ⟨by omega, hok.2.2⟩
  case downEmptyRight p d => exact hok
  case downSibling p q d => exact hok
  case downStep p q d => exact ok_downTest (hok.2.2.1.pos hok.1) hok.2.2.2
  all_goals trivial

/-- The tag of a node on which a thread has waited under the size lock tells whether it was handed
out or taken back. -/
theorem ok_acquire (hc : code n t pc = .acquire l k) (hok : Ok n c h pc)
    (hfill : ∀ v i, pc = .pushNode v i → (h i).m_nTag = .empty)
    (hclear : ∀ b, pc = .popBottom b → (h b).m_nTag ≠ .empty) : Ok n c h k := by
  cases pc <;> simp only [code, reduceCtorEq, Instr.acquire.injEq] at hc <;>
    obtain ⟨rfl, rfl⟩ := hc <;> simp only [Ok] at hok
  case pushNode v i => exact ⟨Nat.pos_of_ne_zero hok.1.1, hok.2, hfill v i rfl⟩
  case popBottom b => exact ⟨hok.2.1, hok.2.2, hclear b rfl⟩
  all_goals exact hok

theorem ok_body (hn : ∃ k, n = 2 ^ k) (hgood : s.m_ItemCounter.Good)
    (hbound : s.m_ItemCounter.value < n) (hc : code n t pc = .body f)
    (hok : Ok n s.m_ItemCounter s.m_Heap pc) :
    Ok n (f s).1.m_ItemCounter (f s).1.m_Heap (f s).2 := by
  obtain ⟨e, rfl⟩ := hn
  cases pc <;> simp only [code, reduceCtorEq, Instr.body.injEq] at hc <;> subst hc <;>
    simp only [Ok] at hok
  case pushCheck v =>
    unfold checkFull
    split
    · trivial
    · have hu := (used_inc hgood).mpr (Or.inr rfl)
      have hv := BitReverseCounter.inc_value s.m_ItemCounter
      exact ⟨hu, hu.lt (by omega)⟩
  case pushWrite v i => exact ⟨hok.1, hok.2.1⟩
  case upBody v i => exact ⟨hok.1, hok.2, (upBody_spec hok.2).2.2⟩
  case topBody v => trivial
  case popCheck =>
    unfold checkEmpty
    split
    · trivial
    · rename_i h0
      have hu := used_reversed hgood h0
      exact ⟨fun hu' => ((used_dec hgood h0).mp hu').2 rfl, Nat.pos_of_ne_zero hu.1, hu.lt hbound⟩
  case popClear b =>
    unfold clearBottom
    dsimp only
    split
    · trivial
    · exact ⟨by omega, hok.2.1⟩
  case popMove b =>
    unfold moveTop
    dsimp only
    split
    · exact hok
    · refine ⟨hok.1, hok.2, ?_⟩
      rw [setValue_tag]
      assumption
  case popMark d => exact ok_downTest one_pos (by rw [setTag_tag_same]; simp)
  case downChoose p d =>
    unfold lookAtChildren
    split
    · exact hok.1
    · have hq := chooseChild_some ‹_›
      exact ⟨hok.1, hok.2.1, hq.1, hok.2.2, hq.2⟩
  case downCmp p q d =>
    unfold compareChild
    split
    · refine ⟨hok.1, hok.2.1, hok.2.2.1, ?_⟩
      show (swap s.m_Heap p q q).m_nTag ≠ .empty
      rw [swap_right]
      exact hok.2.2.2.1
    · exact ⟨hok.1, hok.2.1, hok.2.2.1, hok.2.2.2.2⟩

/-- What a thread knows stands while it holds its locks. -/
theorem Ok.stable {c' : BitReverseCounter} {h' : Nodes} (hok : Ok n c h pc)
    (hcount : Lock.size ∈ holds pc → c' = c) (hheap : ∀ j, Lock.node j ∈ holds pc → h' j = h j) :
    Ok n c' h' pc := by
  cases pc <;> simp [holds] at hcount hheap <;> simp only [Ok] at hok ⊢ <;>
    try simp only [hcount, hheap]
  all_goals exact hok

end OkStep

/-! ### Slots under way -/

/-- The slot handed out or taken back by the counter, whose node is not locked yet. -/
def pending : Pc → Option ℕ
  | .pushNode _ i | .popBottom i => some i
  | _ => none

/-- The slot whose node is locked but not yet written. -/
def armed : Pc → Option ℕ
  | .pushSize _ i | .pushWrite _ i | .popSize i | .popClear i => some i
  | _ => none

/-- A thread has slot `j` marked by `g`. -/
def Marks (g : Pc → Option ℕ) (thr : Tid → Pc) (j : ℕ) : Prop := ∃ t, g (thr t) = some j

/-- Slot `j` is out of step with the counter exactly when a thread has it under way. -/
def SlotOk (c : BitReverseCounter) (h : Nodes) (thr : Tid → Pc) (j : ℕ) : Prop :=
  ((h j).m_nTag = .empty ↔ Used c j) ↔ (Marks pending thr j ↔ ¬Marks armed thr j)

section Slots

variable {n : ℕ} {t : Tid} {pc k : Pc} {l : Lock} {f : Shared → Shared × Pc} {s : Shared}
  {c : BitReverseCounter} {h : Nodes} {g : Pc → Option ℕ} {thr : Tid → Pc} {j : ℕ}

/-- A step that neither marks nor unmarks the slot. -/
theorem marks_update (hk : g k = some j ↔ g (thr t) = some j) :
    Marks g (Function.update thr t k) j ↔ Marks g thr j := by
  constructor
  · rintro ⟨u, hu⟩
    by_cases hut : u = t
    · subst hut
      rw [Function.update_self] at hu
      exact ⟨u, hk.mp hu⟩
    · rw [Function.update_of_ne hut] at hu
      exact ⟨u, hu⟩
  · rintro ⟨u, hu⟩
    by_cases hut : u = t
    · subst hut
      exact ⟨u, by rw [Function.update_self]; exact hk.mpr hu⟩
    · exact ⟨u, by rw [Function.update_of_ne hut]; exact hu⟩

/-- A slot no other thread has marked. -/
theorem marks_update_own (hothers : ∀ u, u ≠ t → g (thr u) ≠ some j) :
    Marks g (Function.update thr t k) j ↔ g k = some j := by
  constructor
  · rintro ⟨u, hu⟩
    by_cases hut : u = t
    · subst hut
      rwa [Function.update_self] at hu
    · rw [Function.update_of_ne hut] at hu
      exact absurd hu (hothers u hut)
  · intro hk
    exact ⟨t, by rw [Function.update_self]; exact hk⟩

theorem marks_own (hothers : ∀ u, u ≠ t → g (thr u) ≠ some j) :
    Marks g thr j ↔ g (thr t) = some j := by
  have h := marks_update_own (k := thr t) hothers
  rwa [Function.update_eq_self] at h

theorem size_of_pending (hp : pending pc = some j) : Lock.size ∈ holds pc := by
  cases pc <;> simp [pending] at hp <;> simp [holds]

theorem node_of_armed (ha : armed pc = some j) : Lock.node j ∈ holds pc := by
  cases pc <;> simp [armed] at ha <;> simp [holds, ha]

/-- No step that releases a lock marks or unmarks a slot. -/
theorem marks_release (hc : code n t pc = .release l k) :
    pending k = pending pc ∧ armed k = armed pc := by
  cases pc <;> simp only [code, reduceCtorEq, Instr.release.injEq] at hc <;>
    obtain ⟨rfl, rfl⟩ := hc
  case pushDone v i => unfold upTest; split <;> [exact ⟨rfl, rfl⟩; (split <;> exact ⟨rfl, rfl⟩)]
  case upUnlockParent v i next =>
    unfold upTest; split <;> [exact ⟨rfl, rfl⟩; (split <;> exact ⟨rfl, rfl⟩)]
  case downStep p q d => unfold downTest; split <;> exact ⟨rfl, rfl⟩
  all_goals exact ⟨rfl, rfl⟩

/-- A step that acquires a lock marks or unmarks no slot, but when the node of a pending slot is
locked, the slot becomes armed. -/
theorem marks_acquire (hc : code n t pc = .acquire l k) :
    (pending k = pending pc ∧ armed k = armed pc) ∨
      ∃ i, l = .node i ∧ pending pc = some i ∧ armed pc = none ∧ pending k = none ∧
        armed k = some i := by
  cases pc <;> simp only [code, reduceCtorEq, Instr.acquire.injEq] at hc <;>
    obtain ⟨rfl, rfl⟩ := hc
  case pushNode v i => exact Or.inr ⟨i, rfl, rfl, rfl, rfl, rfl⟩
  case popBottom b => exact Or.inr ⟨b, rfl, rfl, rfl, rfl, rfl⟩
  all_goals exact Or.inl ⟨rfl, rfl⟩

/-- A step that changes nothing about the slot. -/
theorem SlotOk.keep {c' : BitReverseCounter} {h' : Nodes} (hs : SlotOk c h thr j)
    (htag : (h' j).m_nTag = .empty ↔ (h j).m_nTag = .empty) (hused : Used c' j ↔ Used c j)
    (hp : pending k = some j ↔ pending (thr t) = some j)
    (ha : armed k = some j ↔ armed (thr t) = some j) :
    SlotOk c' h' (Function.update thr t k) j := by
  unfold SlotOk
  rw [htag, hused, marks_update hp, marks_update ha]
  exact hs

variable {locks : Lock → Option Tid}

theorem pending_others (ho : Owned locks fun u => holds (thr u)) (hl : Lock.size ∈ holds (thr t)) :
    ∀ u, u ≠ t → pending (thr u) ≠ some j :=
  fun _ hu hp => hu (ho.unique (size_of_pending hp) hl)

theorem armed_others (ho : Owned locks fun u => holds (thr u))
    (hl : Lock.node j ∈ holds (thr t)) : ∀ u, u ≠ t → armed (thr u) ≠ some j :=
  fun _ hu ha => hu (ho.unique (node_of_armed ha) hl)

/-- The counter hands out a slot. -/
theorem slotOk_take (ho : Owned locks fun u => holds (thr u)) (hgood : s.m_ItemCounter.Good)
    {v : ℕ} (hpc : thr t = .pushCheck v) (hs : SlotOk s.m_ItemCounter s.m_Heap thr j) :
    SlotOk (checkFull n v s).1.m_ItemCounter (checkFull n v s).1.m_Heap
      (Function.update thr t (checkFull n v s).2) j := by
  have hl : Lock.size ∈ holds (thr t) := by rw [hpc]; exact List.mem_singleton_self _
  have hnone : ¬Marks pending thr j := by
    rw [marks_own (pending_others ho hl), hpc]
    simp [pending]
  unfold checkFull
  split
  · exact hs.keep Iff.rfl Iff.rfl (by rw [hpc]; rfl) (by rw [hpc]; rfl)
  · dsimp only
    by_cases hj : j = s.m_ItemCounter.inc.reversed_value
    · have hu : ¬Used s.m_ItemCounter j := hj ▸ not_used_inc hgood
      unfold SlotOk at hs ⊢
      rw [marks_update_own (pending_others ho hl), marks_update (g := armed) (by rw [hpc]; rfl),
        used_inc hgood]
      simp only [pending, Option.some.injEq]
      tauto
    · refine hs.keep Iff.rfl ?_ ?_ (by rw [hpc]; rfl)
      · rw [used_inc hgood]
        tauto
      · rw [hpc]
        simp [pending, Ne.symm hj]

/-- The counter takes a slot back. -/
theorem slotOk_give (ho : Owned locks fun u => holds (thr u)) (hgood : s.m_ItemCounter.Good)
    (hpc : thr t = .popCheck) (hs : SlotOk s.m_ItemCounter s.m_Heap thr j) :
    SlotOk (checkEmpty s).1.m_ItemCounter (checkEmpty s).1.m_Heap
      (Function.update thr t (checkEmpty s).2) j := by
  have hl : Lock.size ∈ holds (thr t) := by rw [hpc]; exact List.mem_singleton_self _
  have hnone : ¬Marks pending thr j := by
    rw [marks_own (pending_others ho hl), hpc]
    simp [pending]
  unfold checkEmpty
  split
  · exact hs.keep Iff.rfl Iff.rfl (by rw [hpc]; rfl) (by rw [hpc]; rfl)
  · rename_i h0
    dsimp only
    by_cases hj : j = s.m_ItemCounter.reversed_value
    · have hu : Used s.m_ItemCounter j := hj ▸ used_reversed hgood h0
      unfold SlotOk at hs ⊢
      rw [marks_update_own (pending_others ho hl), marks_update (g := armed) (by rw [hpc]; rfl),
        used_dec hgood h0]
      simp only [pending, Option.some.injEq]
      tauto
    · refine hs.keep Iff.rfl ?_ ?_ (by rw [hpc]; rfl)
      · rw [used_dec hgood h0]
        tauto
      · rw [hpc]
        simp [pending, Ne.symm hj]

/-- The armed slot is written. -/
theorem slotOk_write (ho : Owned locks fun u => holds (thr u)) {i : ℕ}
    (ha : armed (thr t) = some i) (hp : pending (thr t) = none) (hka : armed k = none)
    (hkp : pending k = none) {h' : Nodes} (hne : ∀ j, j ≠ i → h' j = h j)
    (hflip : (h' i).m_nTag = .empty ↔ ¬(h i).m_nTag = .empty) (hs : SlotOk c h thr j) :
    SlotOk c h' (Function.update thr t k) j := by
  by_cases hj : j = i
  · subst hj
    have hl := node_of_armed ha
    have hm : Marks armed thr j := ⟨t, ha⟩
    unfold SlotOk at hs ⊢
    rw [marks_update (g := pending) (by rw [hp, hkp]), marks_update_own (armed_others ho hl), hka,
      hflip]
    simp only [reduceCtorEq]
    tauto
  · refine hs.keep (by rw [hne j hj]) Iff.rfl (by rw [hp, hkp]) ?_
    rw [ha, hka]
    simp [Ne.symm hj]

/-- A body that only moves items around. -/
theorem slotOk_move (hp : pending (thr t) = none) (ha : armed (thr t) = none)
    (hkp : pending k = none) (hka : armed k = none) {h' : Nodes} (hr : Rearranged n h h')
    (hs : SlotOk c h thr j) : SlotOk c h' (Function.update thr t k) j :=
  hs.keep (hr.empty_iff j) Iff.rfl (by rw [hp, hkp]) (by rw [ha, hka])

theorem slotOk_body (ho : Owned locks fun u => holds (thr u)) (hgood : s.m_ItemCounter.Good)
    (hc : code n t (thr t) = .body f) (hok : Ok n s.m_ItemCounter s.m_Heap (thr t))
    (hs : SlotOk s.m_ItemCounter s.m_Heap thr j) :
    SlotOk (f s).1.m_ItemCounter (f s).1.m_Heap (Function.update thr t (f s).2) j := by
  cases hpc : thr t <;> rw [hpc] at hc hok <;>
    simp only [code, reduceCtorEq, Instr.body.injEq] at hc <;> subst hc <;> simp only [Ok] at hok
  case pushCheck v => exact slotOk_take ho hgood hpc hs
  case pushWrite v i =>
    refine slotOk_write ho (i := i) (by rw [hpc]; rfl) (by rw [hpc]; rfl) rfl rfl
      (fun j hj => Function.update_of_ne hj ..) ?_ hs
    simp [hok.2.2]
  case upBody v i =>
    exact slotOk_move (by rw [hpc]; rfl) (by rw [hpc]; rfl) rfl rfl (upBody_spec hok.2).1 hs
  case topBody v =>
    exact slotOk_move (by rw [hpc]; rfl) (by rw [hpc]; rfl) rfl rfl (topBody_spec hok).1 hs
  case popCheck => exact slotOk_give ho hgood hpc hs
  case popClear b =>
    refine slotOk_write ho (i := b) (by rw [hpc]; rfl) (by rw [hpc]; rfl) ?_ ?_
      (fun j hj => setTag_ne hj) ?_ hs
    · unfold clearBottom; dsimp only; split <;> rfl
    · unfold clearBottom; dsimp only; split <;> rfl
    · show (setTag s.m_Heap b .empty b).m_nTag = .empty ↔ _
      simp [hok.2.2]
  case popMove b =>
    unfold moveTop
    dsimp only
    split
    · exact hs.keep Iff.rfl Iff.rfl (by rw [hpc]; rfl) (by rw [hpc]; rfl)
    · refine hs.keep ?_ Iff.rfl (by rw [hpc]; rfl) (by rw [hpc]; rfl)
      rw [setValue_tag]
  case popMark d =>
    refine slotOk_move (by rw [hpc]; rfl) (by rw [hpc]; rfl) ?_ ?_
      (.setTag hok.1 hok.2 (by simp)) hs
    · unfold downTest; split <;> rfl
    · unfold downTest; split <;> rfl
  case downChoose p d =>
    unfold lookAtChildren
    split <;> exact hs.keep Iff.rfl Iff.rfl (by rw [hpc]; rfl) (by rw [hpc]; rfl)
  case downCmp p q d =>
    obtain ⟨hp, hq⟩ := hok.2.2.1.lt_buffer hok.2.1
    unfold compareChild
    split
    · exact slotOk_move (by rw [hpc]; rfl) (by rw [hpc]; rfl) rfl rfl
        (.swap hp hq hok.2.2.2.1 hok.2.2.2.2) hs
    · exact hs.keep Iff.rfl Iff.rfl (by rw [hpc]; rfl) (by rw [hpc]; rfl)

/-- When the node of a pending slot is locked, the slot becomes armed. -/
theorem slotOk_acquire (ho : Owned locks fun u => holds (thr u)) (hfree : locks l = none)
    (hc : code n t (thr t) = .acquire l k) (hs : SlotOk c h thr j) :
    SlotOk c h (Function.update thr t k) j := by
  obtain ⟨hp, ha⟩ | ⟨i, rfl, hp, ha, hkp, hka⟩ := marks_acquire hc
  · exact hs.keep Iff.rfl Iff.rfl (by rw [hp]) (by rw [ha])
  · by_cases hj : j = i
    · subst hj
      have hunarmed : ¬Marks armed thr j := by
        rintro ⟨u, hu⟩
        have := (ho _ _).mpr (node_of_armed hu)
        rw [hfree] at this
        cases this
      have hpend : Marks pending thr j := ⟨t, hp⟩
      have harmed : Marks armed (Function.update thr t k) j :=
        ⟨t, by rw [Function.update_self]; exact hka⟩
      unfold SlotOk at hs ⊢
      rw [marks_update_own (pending_others ho (size_of_pending hp)), hkp]
      simp only [reduceCtorEq]
      tauto
    · refine hs.keep Iff.rfl Iff.rfl ?_ ?_
      · rw [hp, hkp]
        simp [Ne.symm hj]
      · rw [ha, hka]
        simp [Ne.symm hj]

/-- The tag of the node of a pending slot, once its lock is free. -/
theorem pending_tag (ho : Owned locks fun u => holds (thr u)) (hfree : locks (.node j) = none)
    (hp : pending (thr t) = some j) (hs : SlotOk c h thr j) :
    (h j).m_nTag = .empty ↔ Used c j := by
  have hpend : Marks pending thr j := ⟨t, hp⟩
  have hunarmed : ¬Marks armed thr j := by
    rintro ⟨u, hu⟩
    have := (ho _ _).mpr (node_of_armed hu)
    rw [hfree] at this
    cases this
  unfold SlotOk at hs
  tauto

end Slots

/-! ### The invariant -/

/-- The invariant of the heap with its threads, for a buffer of size `n`. -/
structure Inv (n : ℕ) (s : State) : Prop where
  owned : Owned s.locks fun t => holds (s.thr t)
  counter : s.sh.m_ItemCounter.Good
  bound : s.sh.m_ItemCounter.value < n
  slots : ∀ j, SlotOk s.sh.m_ItemCounter s.sh.m_Heap s.thr j
  ok : ∀ t, Ok n s.sh.m_ItemCounter s.sh.m_Heap (s.thr t)

namespace Inv

variable {n : ℕ} {s s' : State} {t : Tid} {e : Event}

theorem of_init (hn : 0 < n) (hi : Init s) : Inv n s where
  owned l t := by
    show s.locks l = some t ↔ l ∈ holds (s.thr t)
    rw [hi.free l, hi.idle t]
    simp [holds]
  counter := by rw [hi.counter]; exact .zero
  bound := by rw [hi.counter]; exact hn
  slots j := by
    have hp : ∀ g : Pc → Option ℕ, g .idle = none → ¬Marks g s.thr j := by
      rintro g hg ⟨t, ht⟩
      rw [hi.idle t, hg] at ht
      cases ht
    have hu : ¬Used s.sh.m_ItemCounter j := by
      rw [hi.counter]
      exact fun hu => absurd (lt_of_lt_of_le (BitReverse.rank_pos j) hu.2) (lt_irrefl _)
    have := hp pending rfl
    have := hp armed rfl
    have := hi.empty j
    unfold SlotOk
    tauto
  ok t := by rw [hi.idle t]; trivial

/-- A step of a thread that leaves the counter and the array alone. -/
theorem of_thread (h : Inv n s) {locks : Lock → Option Tid} {k : Pc}
    (howned : Owned locks fun u => holds (Function.update s.thr t k u))
    (hslots : ∀ j, SlotOk s.sh.m_ItemCounter s.sh.m_Heap (Function.update s.thr t k) j)
    (hok : Ok n s.sh.m_ItemCounter s.sh.m_Heap k) :
    Inv n ⟨s.sh, locks, Function.update s.thr t k⟩ where
  owned := howned
  counter := h.counter
  bound := h.bound
  slots := hslots
  ok u := by
    by_cases hu : u = t
    · subst hu
      simpa using hok
    · simpa [hu] using h.ok u

/-- The locks held after a step of thread `t`. -/
theorem holds_update (thr : Tid → Pc) (k : Pc) :
    (fun u => holds (Function.update thr t k u)) =
      Function.update (fun u => holds (thr u)) t (holds k) := by
  funext u
  by_cases hu : u = t
  · subst hu; simp
  · simp [hu]

theorem of_idle (h : Inv n s) {k : Pc} (hk : ∀ l, l ∈ holds k ↔ l ∈ holds (s.thr t))
    (hp : pending k = pending (s.thr t)) (ha : armed k = armed (s.thr t))
    (hok : Ok n s.sh.m_ItemCounter s.sh.m_Heap k) :
    Inv n { s with thr := Function.update s.thr t k } := by
  refine h.of_thread ?_ (fun j => (h.slots j).keep Iff.rfl Iff.rfl (by rw [hp]) (by rw [ha])) hok
  rw [holds_update]
  exact h.owned.keep hk

theorem body (hn : ∃ k, n = 2 ^ k) (h : Inv n s) {f : Shared → Shared × Pc}
    (hc : code n t (s.thr t) = .body f) :
    Inv n ⟨(f s.sh).1, s.locks, Function.update s.thr t (f s.sh).2⟩ where
  owned := by
    rw [holds_update]
    exact h.owned.keep (holds_body hc)
  counter := (good_body h.counter h.bound hc).1
  bound := (good_body h.counter h.bound hc).2
  slots j := slotOk_body h.owned h.counter hc (h.ok t) (h.slots j)
  ok u := by
    by_cases hu : u = t
    · subst hu
      simpa using ok_body hn h.counter h.bound hc (h.ok u)
    · simp only [Function.update_of_ne hu]
      refine (h.ok u).stable (fun hl => ?_) fun j hl => ?_
      · exact counter_body hc fun hl' => hu (h.owned.unique hl hl')
      · exact heap_body hc (h.ok t) fun hl' => hu (h.owned.unique hl hl')

/-- **Every step keeps the invariant.** -/
theorem step (hn : ∃ k, n = 2 ^ k) (h : Inv n s) (hs : Step n s t e s') : Inv n s' := by
  cases hs with
  | @call op hidle =>
    refine h.of_idle ?_ ?_ ?_ (by cases op <;> trivial) <;> rw [hidle]
    · cases op <;> exact fun _ => Iff.rfl
    · cases op <;> rfl
    · cases op <;> rfl
  | acquire hc hfree =>
    refine h.of_thread ?_ (fun j => slotOk_acquire h.owned hfree hc (h.slots j)) ?_
    · rw [holds_update]
      exact h.owned.acquire hfree (holds_acquire hc)
    · refine ok_acquire hc (h.ok t) (fun v i hpc => ?_) fun b hpc => ?_
      · have hok := h.ok t
        rw [hpc] at hok hc
        obtain ⟨rfl, -⟩ := Instr.acquire.inj hc
        exact (pending_tag h.owned hfree (by rw [hpc]; rfl) (h.slots i)).mpr hok.1
      · have hok := h.ok t
        rw [hpc] at hok hc
        obtain ⟨rfl, -⟩ := Instr.acquire.inj hc
        exact fun he => hok.1 ((pending_tag h.owned hfree (by rw [hpc]; rfl) (h.slots b)).mp he)
  | release hc =>
    obtain ⟨hp, ha⟩ := marks_release hc
    obtain ⟨hheld, hls⟩ := holds_release hc (h.ok t)
    refine h.of_thread ?_ (fun j => (h.slots j).keep Iff.rfl Iff.rfl (by rw [hp]) (by rw [ha]))
      (ok_release hc (h.ok t))
    rw [holds_update]
    exact h.owned.release hheld hls
  | body hc => exact h.body hn hc
  | @ret a hc =>
    have hpc : s.thr t = .done a := by
      cases hpc : s.thr t <;> rw [hpc] at hc <;> simp [code] at hc
      rw [hc]
    refine h.of_idle ?_ ?_ ?_ trivial <;> rw [hpc]
    · exact fun _ => Iff.rfl
    · rfl
    · rfl

/-- **The invariant holds along every run.** -/
theorem of_run {nCapacity : ℕ} {tr : List (Entry State Tid Event)}
    (hrun : Run (concurrentHeap nCapacity) tr s) : Inv (ceil2 nCapacity) s := by
  refine hrun.invariant (fun s (hi : Init s) => of_init (Nat.two_pow_pos _) hi) ?_
  intro s t e s' h hs
  exact h.step ⟨_, ceil2_eq nCapacity⟩ hs

end Inv

end ConcurrentPQ.Heap

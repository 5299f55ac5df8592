import ConcurrentPQ.Heap.Contents

/-!
# The heap used by one thread

With one thread the array is a heap over the slots the counter has handed out, `push` adds its value
and `pop_with` removes a smallest one.

* `Valid` — the invariant between two calls;
* `Rising`, `Sinking` — the heap order with an exception, while an item moves up or down;
* `heapify_after_push_spec`, `heapify_after_pop_spec` — both loops end, with the order restored and
  the contents unchanged;
* `Valid.push`, `Valid.pop_with` — what the calls do to the contents.
-/

namespace ConcurrentPQ.Heap

open ConcurrentPQ.BitReverse

variable {h : Nodes} {c : BitReverseCounter} {cur : Tid}

/-- The tags of a heap in which thread `cur` moves the item in slot `i` up. -/
def Tagged (h : Nodes) (c : BitReverseCounter) (i : ℕ) (cur : Tid) : Prop :=
  ∀ j, (Used c j → (h j).m_nTag = if j = i then .owner cur else .available) ∧
    (¬Used c j → (h j).m_nTag = .empty)

/-- All used slots are available. -/
def Settled (h : Nodes) (c : BitReverseCounter) : Prop :=
  ∀ j, (Used c j → (h j).m_nTag = .available) ∧ (¬Used c j → (h j).m_nTag = .empty)

/-- Every parent holds a value that is at most those of its children. -/
def Ordered (h : Nodes) (c : BitReverseCounter) : Prop :=
  ∀ j, 2 ≤ j → Used c j → (h (j / 2)).m_Value ≤ (h j).m_Value

/-- The order holds except between slot `i` and its parent. -/
structure Rising (h : Nodes) (c : BitReverseCounter) (i : ℕ) : Prop where
  used : Used c i
  order : ∀ j, 2 ≤ j → Used c j → j ≠ i → (h (j / 2)).m_Value ≤ (h j).m_Value
  grand : 2 ≤ i → ∀ j, Used c j → j / 2 = i → (h (i / 2)).m_Value ≤ (h j).m_Value

/-- The order holds except between slot `p` and its children. -/
structure Sinking (h : Nodes) (c : BitReverseCounter) (p : ℕ) : Prop where
  used : Used c p
  order : ∀ j, 2 ≤ j → Used c j → j / 2 ≠ p → (h (j / 2)).m_Value ≤ (h j).m_Value
  grand : 2 ≤ p → ∀ j, Used c j → j / 2 = p → (h (p / 2)).m_Value ≤ (h j).m_Value

/-! ### Moving up -/

theorem Tagged.settle {i : ℕ} (ht : Tagged h c i cur) (hi : Used c i) :
    Settled (setTag h i .available) c := by
  intro j
  by_cases hj : j = i
  · subst hj
    exact ⟨fun _ => setTag_tag_same .., fun hu => absurd hi hu⟩
  · rw [setTag_tag_ne _ _ _ _ hj]
    refine ⟨fun hu => ?_, (ht j).2⟩
    rw [(ht j).1 hu, if_neg hj]

theorem Ordered.retag {i : ℕ} {g : Tag} (ho : Ordered h c) : Ordered (setTag h i g) c := by
  intro j hj hu
  rw [setTag_value, setTag_value]
  exact ho j hj hu

/-- The item has a higher priority than its parent: they are exchanged. -/
theorem Rising.moveUp {i : ℕ} (hr : Rising h c i) (hi : 2 ≤ i)
    (hlt : (h i).m_Value < (h (i / 2)).m_Value) : Rising (swap h i (i / 2)) c (i / 2) := by
  have hne : i / 2 ≠ i := by omega
  have hval : ∀ j, j ≠ i → j ≠ i / 2 → (swap h i (i / 2) j).m_Value = (h j).m_Value :=
    fun j h₁ h₂ => by rw [swap_ne _ _ _ h₁ h₂]
  have hvi : (swap h i (i / 2) i).m_Value = (h (i / 2)).m_Value := by rw [swap_left]
  have hvp : (swap h i (i / 2) (i / 2)).m_Value = (h i).m_Value := by rw [swap_right]
  refine ⟨hr.used.half hi, fun j hj hu hjp => ?_, fun hp j hu hjp => ?_⟩
  · by_cases hji : j = i
    · subst hji
      rw [hvi, hvp]
      exact hlt.le
    · have hold := hr.order j hj hu hji
      rw [hval j hji hjp]
      by_cases h₁ : j / 2 = i / 2
      · rw [h₁] at hold ⊢
        rw [hvp]
        omega
      · by_cases h₂ : j / 2 = i
        · rw [h₂, hvi]
          exact hr.grand hi j hu h₂
        · rw [hval _ h₂ h₁]
          exact hold
  · have htop := hr.order (i / 2) hp (hr.used.half hi) hne
    rw [hval (i / 2 / 2) (by omega) (by omega)]
    by_cases hji : j = i
    · subst hji
      rw [hvi]
      exact htop
    · have hold := hr.order j (by omega) hu hji
      rw [hjp] at hold
      rw [hval j hji (by omega)]
      exact htop.trans hold

theorem Tagged.moveUp {i : ℕ} (ht : Tagged h c i cur) (hi : Used c i) (h2 : 2 ≤ i) :
    Tagged (swap h i (i / 2)) c (i / 2) cur := by
  have hne : i / 2 ≠ i := by omega
  have hp := hi.half h2
  intro j
  by_cases hji : j = i
  · subst hji
    refine ⟨fun _ => ?_, fun hu => absurd hi hu⟩
    rw [swap_left, (ht _).1 hp, if_neg hne, if_neg hne.symm]
  · by_cases hjp : j = i / 2
    · rw [hjp]
      refine ⟨fun _ => ?_, fun hu => absurd hp hu⟩
      rw [swap_right, (ht i).1 hi, if_pos rfl, if_pos rfl]
    · rw [swap_ne _ _ _ hji hjp]
      refine ⟨fun hu => ?_, (ht j).2⟩
      rw [(ht j).1 hu, if_neg hji, if_neg hjp]

/-- A round of `heapify_after_push` finds the parent available and the item its own. -/
theorem upBody_eq {i : ℕ} (ht : Tagged h c i cur) (hi : Used c i) (h2 : 2 ≤ i) :
    upBody h i cur =
      if (h i).m_Value < (h (i / 2)).m_Value then (swap h i (i / 2), i / 2, true)
      else (setTag h i .available, 0, true) := by
  have hp : (h (i / 2)).m_nTag = .available := by
    rw [(ht _).1 (hi.half h2), if_neg (by omega)]
  have hown : (h i).m_nTag = .owner cur := by rw [(ht i).1 hi, if_pos rfl]
  unfold upBody
  dsimp only
  rw [if_pos ⟨hp, hown⟩]
  simp only [cmp_pos]

/-- **`heapify_after_push`** ends and restores the order. -/
theorem heapify_after_push_spec {n : ℕ} (hn : ∀ j, Used c j → j < n) (fuel : ℕ) {i : ℕ}
    (hfuel : i ≤ fuel) (ht : Tagged h c i cur) (hr : Rising h c i) :
    ∃ h', heapify_after_push cur fuel h i = some h' ∧ Settled h' c ∧ Ordered h' c ∧
      contents h' n = contents h n := by
  induction fuel generalizing h i with
  | zero => exact absurd hr.used.1 (by omega)
  | succ fuel ih =>
    have hil := hn i hr.used
    have hown : (h i).m_nTag = .owner cur := by rw [(ht i).1 hr.used, if_pos rfl]
    have hset : contents (setTag h i .available) n = contents h n :=
      contents_setTag hil (by rw [hown]; simp) (by simp)
    rw [heapify_after_push]
    by_cases h1 : 1 < i
    · rw [if_pos h1]
      dsimp only
      rw [upBody_eq ht hr.used h1]
      by_cases hlt : (h i).m_Value < (h (i / 2)).m_Value
      · rw [if_pos hlt]
        obtain ⟨h', he, hs, ho, hc⟩ := ih (by omega) (ht.moveUp hr.used h1) (hr.moveUp h1 hlt)
        refine ⟨h', he, hs, ho, hc.trans (contents_swap hil ?_)⟩
        exact lt_of_le_of_lt (Nat.div_le_self i 2) hil
      · rw [if_neg hlt]
        refine ⟨setTag h i .available, ?_, ht.settle hr.used, Ordered.retag ?_, hset⟩
        · cases fuel <;> rfl
        · intro j hj hu
          by_cases hji : j = i
          · rw [hji]; exact not_lt.mp hlt
          · exact hr.order j hj hu hji
    · obtain rfl : i = 1 := by have := hr.used.1; omega
      rw [if_neg h1, if_pos rfl]
      refine ⟨_, rfl, ?_⟩
      unfold topBody
      rw [if_pos hown]
      exact ⟨ht.settle hr.used, Ordered.retag fun j hj hu => hr.order j hj hu (by omega), hset⟩

/-! ### Moving down -/

/-- The child is exchanged with its parent. -/
theorem Sinking.moveDown {p q : ℕ} (hs : Sinking h c p) (hq : Used c q) (hqp : q / 2 = p)
    (hlt : (h q).m_Value < (h p).m_Value)
    (hmin : ∀ j, Used c j → j / 2 = p → (h q).m_Value ≤ (h j).m_Value) :
    Sinking (swap h p q) c q := by
  have hp0 := hs.used.1
  have hne : p ≠ q := by omega
  have hval : ∀ j, j ≠ p → j ≠ q → (swap h p q j).m_Value = (h j).m_Value :=
    fun j h₁ h₂ => by rw [swap_ne _ _ _ h₁ h₂]
  have hvp : (swap h p q p).m_Value = (h q).m_Value := by rw [swap_left]
  have hvq : (swap h p q q).m_Value = (h p).m_Value := by rw [swap_right]
  refine ⟨hq, fun j hj hu hjq => ?_, fun _ j hu hjq => ?_⟩
  · by_cases hjp : j / 2 = p
    · rw [hjp, hvp]
      by_cases hj2 : j = q
      · rw [hj2, hvq]; exact hlt.le
      · rw [hval j (by omega) hj2]
        exact hmin j hu hjp
    · have hold := hs.order j hj hu hjp
      have hjne : j ≠ q := fun he => hjp (he ▸ hqp)
      rw [hval (j / 2) hjp hjq]
      by_cases hj2 : j = p
      · rw [hj2, hvp]
        exact hs.grand (hj2 ▸ hj) q hq hqp
      · rw [hval j hj2 hjne]
        exact hold
  · have hold := hs.order j (by omega) hu (by omega)
    rw [hjq] at hold
    rw [hqp, hvp, hval j (by omega) (by omega)]
    exact hold

theorem Settled.exchange {i j : ℕ} (hs : Settled h c) (hi : Used c i) (hj : Used c j) :
    Settled (swap h i j) c := by
  intro k
  by_cases hki : k = i
  · rw [hki, swap_left]
    exact ⟨fun _ => (hs j).1 hj, fun hu => absurd hi hu⟩
  · by_cases hkj : k = j
    · rw [hkj, swap_right]
      exact ⟨fun _ => (hs i).1 hi, fun hu => absurd hj hu⟩
    · rw [swap_ne _ _ _ hki hkj]
      exact hs k

theorem Settled.empty_iff (hs : Settled h c) {j : ℕ} : (h j).m_nTag = .empty ↔ ¬Used c j := by
  refine ⟨fun he hu => ?_, (hs j).2⟩
  rw [(hs j).1 hu] at he
  cases he

/-- The child looked at holds the smallest value of the children; there is none if no child is
used. -/
theorem chooseChild_spec (hs : Settled h c) {p : ℕ} (hp : p ≠ 0) :
    (chooseChild h p = none ∧ ∀ j, j / 2 = p → ¬Used c j) ∨
    ∃ q, chooseChild h p = some q ∧ Used c q ∧ q / 2 = p ∧
      ∀ j, Used c j → j / 2 = p → (h q).m_Value ≤ (h j).m_Value := by
  have hchild : ∀ j, j / 2 = p → j = p * 2 ∨ j = p * 2 + 1 := by omega
  unfold chooseChild
  dsimp only
  simp only [hs.empty_iff, cmp_pos]
  by_cases hl : Used c (p * 2)
  · rw [if_neg (not_not.mpr hl)]
    refine Or.inr ?_
    by_cases hr : Used c (p * 2 + 1)
    · by_cases hlt : (h (p * 2)).m_Value < (h (p * 2 + 1)).m_Value
      · rw [if_pos (Or.inr hlt)]
        refine ⟨_, rfl, hl, by omega, fun j _ hj => ?_⟩
        rcases hchild j hj with rfl | rfl
        · exact le_rfl
        · exact hlt.le
      · rw [if_neg (by tauto)]
        refine ⟨_, rfl, hr, by omega, fun j _ hj => ?_⟩
        rcases hchild j hj with rfl | rfl
        · exact not_lt.mp hlt
        · exact le_rfl
    · rw [if_pos (Or.inl hr)]
      refine ⟨_, rfl, hl, by omega, fun j hu hj => ?_⟩
      rcases hchild j hj with rfl | rfl
      · exact le_rfl
      · exact absurd hu hr
  · rw [if_pos hl]
    refine Or.inl ⟨rfl, fun j hj hu => ?_⟩
    rcases hchild j hj with rfl | rfl
    · exact hl hu
    · exact hl (hu.left hp)

/-- **`heapify_after_pop`** ends and restores the order. -/
theorem heapify_after_pop_spec {n : ℕ} (heven : n % 2 = 0) (hn : ∀ j, Used c j → j < n)
    (fuel : ℕ) {p : ℕ} (hfuel : n ≤ p + fuel) (hs : Settled h c) (hk : Sinking h c p) :
    ∃ h', heapify_after_pop n fuel h p = some h' ∧ Settled h' c ∧ Ordered h' c ∧
      contents h' n = contents h n := by
  induction fuel generalizing h p with
  | zero => exact absurd (hn p hk.used) (by omega)
  | succ fuel ih =>
    rw [heapify_after_pop]
    by_cases hp : p < n / 2
    · rw [if_pos hp]
      rcases chooseChild_spec hs hk.used.1 with ⟨he, hno⟩ | ⟨q, he, hq, hqp, hmin⟩
      · rw [he]
        exact ⟨h, rfl, hs, fun j hj hu => hk.order j hj hu fun hjp => hno j hjp hu, rfl⟩
      · rw [he]
        dsimp only
        unfold childFirst
        simp only [cmp_pos, decide_eq_true_eq]
        have hp0 := hk.used.1
        by_cases hlt : (h q).m_Value < (h p).m_Value
        · rw [if_pos hlt]
          obtain ⟨h', he', hs', ho, hc⟩ := ih (by omega) (hs.exchange hk.used hq)
            (hk.moveDown hq hqp hlt hmin)
          exact ⟨h', he', hs', ho, hc.trans (contents_swap (hn p hk.used) (hn q hq))⟩
        · rw [if_neg hlt]
          refine ⟨h, rfl, hs, fun j hj hu => ?_, rfl⟩
          by_cases hjp : j / 2 = p
          · rw [hjp]
            exact (not_lt.mp hlt).trans (hmin j hu hjp)
          · exact hk.order j hj hu hjp
    · rw [if_neg hp]
      refine ⟨h, rfl, hs, fun j hj hu => hk.order j hj hu ?_, rfl⟩
      have := hn j hu
      omega

/-! ### The calls -/

/-- The invariant of the queue between two calls of its only thread. -/
structure Valid (q : MSPriorityQueue) : Prop where
  counter : q.m_ItemCounter.Good
  buffer : ∃ k, 0 < k ∧ q.buffer = 2 ^ k
  bound : q.m_ItemCounter.value ≤ q.capacity
  settled : Settled q.m_Heap q.m_ItemCounter
  ordered : Ordered q.m_Heap q.m_ItemCounter

/-- The elements of the queue. -/
def MSPriorityQueue.elements (q : MSPriorityQueue) : Multiset ℕ := contents q.m_Heap q.buffer

namespace Valid

variable {q : MSPriorityQueue}

theorem even (hq : Valid q) : q.buffer % 2 = 0 := by
  obtain ⟨k, hk, hb⟩ := hq.buffer
  obtain ⟨j, rfl⟩ : ∃ j, k = j + 1 := ⟨k - 1, by omega⟩
  rw [hb, pow_succ]
  omega

/-- Slots handed out are inside the buffer. -/
theorem lt_buffer (hq : Valid q) {c : BitReverseCounter} (hc : c.value ≤ q.capacity) {j : ℕ}
    (hj : Used c j) : j < q.buffer := by
  obtain ⟨k, -, hb⟩ := hq.buffer
  have hpos := Nat.two_pow_pos k
  rw [MSPriorityQueue.capacity] at hc
  rw [hb] at hc ⊢
  exact hj.lt (by omega)

/-- The top holds a smallest value. -/
theorem top_le (hq : Valid q) {j : ℕ} (hj : Used q.m_ItemCounter j) :
    (q.m_Heap 1).m_Value ≤ (q.m_Heap j).m_Value := by
  induction j using Nat.strong_induction_on with
  | _ j ih =>
    by_cases h2 : 2 ≤ j
    · exact (ih (j / 2) (by omega) (hj.half h2)).trans (hq.ordered j h2 hj)
    · obtain rfl : j = 1 := by have := hj.1; omega
      exact le_rfl

theorem mem_elements (hq : Valid q) {v : ℕ} :
    v ∈ q.elements ↔ ∃ j, Used q.m_ItemCounter j ∧ (q.m_Heap j).m_Value = v := by
  rw [MSPriorityQueue.elements, contents, Multiset.mem_sum]
  constructor
  · rintro ⟨j, -, hj⟩
    by_cases he : (q.m_Heap j).m_nTag = .empty
    · rw [item_empty he] at hj
      exact absurd hj (Multiset.notMem_zero v)
    · rw [item_of_ne he, Multiset.mem_singleton] at hj
      exact ⟨j, not_not.mp fun hu => he (hq.settled.empty_iff.mpr hu), hj.symm⟩
  · rintro ⟨j, hu, rfl⟩
    refine ⟨j, Finset.mem_range.mpr (hq.lt_buffer hq.bound hu), ?_⟩
    rw [item_of_ne fun he => hq.settled.empty_iff.mp he hu]
    exact Multiset.mem_singleton_self _

theorem new {n : ℕ} (hn : 1 < ceil2 n) : Valid (.new n) where
  counter := .zero
  buffer := ceil2_buffer hn
  bound := Nat.zero_le _
  settled j := ⟨fun hu => absurd (lt_of_lt_of_le (rank_pos j) hu.2) (lt_irrefl _), fun _ => rfl⟩
  ordered j _ hu := absurd (lt_of_lt_of_le (rank_pos j) hu.2) (lt_irrefl _)

theorem elements_new (n : ℕ) : (MSPriorityQueue.new n).elements = 0 :=
  Finset.sum_const_zero (s := Finset.range (ceil2 n))

/-- **`push`** into a heap that is not full adds its value. -/
theorem push (hq : Valid q) (cur : Tid) (v : ℕ) (hfull : q.m_ItemCounter.value < q.capacity) :
    ∃ q', q.push cur v = some (q', true) ∧ Valid q' ∧ q'.buffer = q.buffer ∧
      q'.m_ItemCounter.value = q.m_ItemCounter.value + 1 ∧ q'.elements = v ::ₘ q.elements := by
  set c := q.m_ItemCounter.inc with hc
  set i := c.reversed_value with hi
  have hval : c.value = q.m_ItemCounter.value + 1 := BitReverseCounter.inc_value _
  have hbound : c.value ≤ q.capacity := by omega
  have hui : Used c i := (used_inc hq.counter).mpr (Or.inr rfl)
  have hempty : (q.m_Heap i).m_nTag = .empty := (hq.settled i).2 (not_used_inc hq.counter)
  have hlt : ∀ j, Used c j → j < q.buffer := fun j hj => hq.lt_buffer hbound hj
  set h := Function.update q.m_Heap i ⟨v, .owner cur⟩ with hh
  have hne : ∀ {j}, j ≠ i → h j = q.m_Heap j := fun hj => Function.update_of_ne hj ..
  have hold : ∀ {j}, Used c j → j ≠ i → Used q.m_ItemCounter j := fun hu hj =>
    ((used_inc hq.counter).mp hu).resolve_right hj
  have htag : Tagged h c i cur := by
    intro j
    by_cases hj : j = i
    · rw [hj, hh, Function.update_self]
      exact ⟨fun _ => (if_pos rfl).symm, fun hu => absurd hui hu⟩
    · rw [hne hj]
      refine ⟨fun hu => ?_, fun hu => (hq.settled j).2 fun hu' => hu ?_⟩
      · rw [if_neg hj]; exact (hq.settled j).1 (hold hu hj)
      · exact (used_inc hq.counter).mpr (Or.inl hu')
  have hrise : Rising h c i := by
    refine ⟨hui, fun j hj hu hji => ?_, fun _ j hu hji => ?_⟩
    · have huj := hold hu hji
      have hpi : j / 2 ≠ i := fun he => by
        have := huj.half hj
        rw [he] at this
        exact not_used_inc hq.counter this
      rw [hne hji, hne hpi]
      exact hq.ordered j hj huj
    · -- the new slot has no children yet
      have hj2 : j ≠ i := by have := hui.1; omega
      have huj := hold hu hj2
      have : 2 ≤ j := by have := hui.1; omega
      have hup := huj.half this
      rw [hji] at hup
      exact absurd hup (not_used_inc hq.counter)
  obtain ⟨h', he, hs, ho, hcont⟩ :=
    heapify_after_push_spec hlt q.buffer (hlt i hui).le htag hrise
  refine ⟨⟨c, h', q.buffer⟩, ?_, ⟨hq.counter.inc, hq.buffer, hbound, hs, ho⟩, rfl, hval, ?_⟩
  · rw [MSPriorityQueue.push, if_neg (not_le.mpr hfull)]
    show (heapify_after_push cur q.buffer h i).map _ = _
    rw [he]
    rfl
  · rw [MSPriorityQueue.elements]
    dsimp only
    rw [hcont, hh, contents_fill (hlt i hui) hempty (by simp), add_comm]
    rfl

/-- A heap with a count of zero is empty. -/
theorem elements_eq_zero (hq : Valid q) : q.elements = 0 ↔ q.m_ItemCounter.value = 0 := by
  constructor
  · intro he
    by_contra h0
    have hmem := hq.mem_elements.mpr ⟨_, used_reversed hq.counter h0, rfl⟩
    rw [he] at hmem
    exact Multiset.notMem_zero _ hmem
  · intro h0
    refine Multiset.eq_zero_of_forall_notMem fun v hv => ?_
    obtain ⟨j, hu, -⟩ := hq.mem_elements.mp hv
    have := lt_of_lt_of_le (rank_pos j) hu.2
    omega

/-- **`pop_with`** on a heap that is not empty removes the value of the top, a smallest one. -/
theorem pop_with (hq : Valid q) (h0 : q.m_ItemCounter.value ≠ 0) :
    ∃ q', q.pop_with = some (q', some (q.m_Heap 1).m_Value) ∧ Valid q' ∧ q'.buffer = q.buffer ∧
      q'.m_ItemCounter.value + 1 = q.m_ItemCounter.value ∧
      q.elements = (q.m_Heap 1).m_Value ::ₘ q'.elements := by
  set c := q.m_ItemCounter.dec with hc
  set b := q.m_ItemCounter.reversed_value with hb
  have hval : c.value = q.m_ItemCounter.value - 1 := BitReverseCounter.dec_value _
  have hbound : c.value ≤ q.capacity := by have := hq.bound; omega
  have hub : Used q.m_ItemCounter b := used_reversed hq.counter h0
  have hdec : ∀ {j}, Used c j ↔ Used q.m_ItemCounter j ∧ j ≠ b := used_dec hq.counter h0
  have hbl := hq.lt_buffer hq.bound hub
  set h := setTag q.m_Heap b .empty with hh
  have hset : Settled h c := by
    intro j
    by_cases hj : j = b
    · rw [hj, hh, setTag_tag_same]
      exact ⟨fun hu => absurd rfl (hdec.mp hu).2, fun _ => rfl⟩
    · rw [hh, setTag_tag_ne _ _ _ _ hj]
      exact ⟨fun hu => (hq.settled j).1 (hdec.mp hu).1, fun hu => (hq.settled j).2 fun hu' =>
        hu (hdec.mpr ⟨hu', hj⟩)⟩
  have hord : Ordered h c := Ordered.retag fun j hj hu => hq.ordered j hj (hdec.mp hu).1
  have hbne : (q.m_Heap b).m_nTag ≠ .empty := fun he => hq.settled.empty_iff.mp he hub
  have hclear : contents h q.buffer + {(q.m_Heap b).m_Value} = q.elements :=
    contents_clear hbl hbne
  by_cases hb1 : b = 1
  · refine ⟨⟨c, h, q.buffer⟩, ?_, ⟨hq.counter.dec h0, hq.buffer, hbound, hset, hord⟩, rfl,
      by dsimp only; omega, ?_⟩
    · rw [MSPriorityQueue.pop_with, if_neg h0]
      dsimp only
      rw [← hb, if_pos hb1, ← hh, ← hc, hh, setTag_value, hb1]
    · rw [← hclear, hb1, add_comm]
      rfl
  · -- the top is another slot, and it is in use
    have hu1 : Used c 1 := by
      refine hdec.mpr ⟨⟨one_ne_zero, ?_⟩, fun he => hb1 he.symm⟩
      rw [rank_one]
      omega
    have htag1 : (h 1).m_nTag = .available := (hset 1).1 hu1
    have h1l := hq.lt_buffer hbound hu1
    set h₁ := setValue h 1 (h b).m_Value with hh₁
    set h₂ := setTag h₁ 1 .available with hh₂
    have hval2 : ∀ {j}, j ≠ 1 → (h₂ j).m_Value = (h j).m_Value := fun hj => by
      rw [hh₂, setTag_value, hh₁, setValue_value_ne _ _ _ _ hj]
    have hset2 : Settled h₂ c := by
      intro j
      by_cases hj : j = 1
      · rw [hj, hh₂, setTag_tag_same]
        exact ⟨fun _ => rfl, fun hu => absurd hu1 hu⟩
      · rw [hh₂, setTag_tag_ne _ _ _ _ hj, hh₁, setValue_tag]
        exact hset j
    have hsink : Sinking h₂ c 1 := by
      refine ⟨hu1, fun j hj hu hjp => ?_, fun h2 => absurd h2 (by decide)⟩
      rw [hval2 (by omega), hval2 (by omega)]
      exact hord j hj hu
    obtain ⟨h', he, hs', ho', hcont⟩ := heapify_after_pop_spec hq.even
      (fun j hj => hq.lt_buffer hbound hj) q.buffer (by omega) hset2 hsink
    refine ⟨⟨c, h', q.buffer⟩, ?_, ⟨hq.counter.dec h0, hq.buffer, hbound, hs', ho'⟩, rfl,
      by dsimp only; omega, ?_⟩
    · rw [MSPriorityQueue.pop_with, if_neg h0]
      dsimp only
      rw [← hb, if_neg hb1, if_neg (by rw [← hh, htag1]; simp)]
      show (heapify_after_pop q.buffer q.buffer h₂ 1).map _ = _
      rw [he, setTag_value]
      rfl
    · have hne1 : (h 1).m_nTag ≠ .empty := by rw [htag1]; simp
      have hset1 := contents_setValue (v := (h b).m_Value) h1l hne1
      have htag2 : contents h₂ q.buffer = contents h₁ q.buffer :=
        contents_setTag h1l (by rw [hh₁, setValue_tag]; exact hne1) (by simp)
      have hv1 : (h 1).m_Value = (q.m_Heap 1).m_Value := setTag_value ..
      have hvb : (h b).m_Value = (q.m_Heap b).m_Value := setTag_value ..
      rw [hv1, hvb, hclear] at hset1
      rw [← hset1, MSPriorityQueue.elements]
      dsimp only
      rw [hcont, htag2, hh₁, hvb, add_comm]
      rfl

end Valid

end ConcurrentPQ.Heap

import ConcurrentPQ.Heap.Sequential
import ConcurrentPQ.Heap.Invariant
import ConcurrentPQ.Lib.Eventually
import Mathlib.Order.Bounds.Basic

/-!
# A heap used by one thread

The locked code of one thread computes `push` and `pop_with`: every call ends, never waits for a lock
it holds itself, and never leaves the buffer.

* `touches`, `Inside` — the array indices a step uses, and a step inside a call;
* `solo` — the state in which thread `t` stands at a program counter and holds the locks it has there;
* `Eventually.heapify_after_push`, `Eventually.push`, … — **the locked code against the sequential
  functions**;
* `Calls`, `stored` — the calls the only thread has completed, and the values they left;
* `bounded_queue` — **one thread has a bounded min-priority queue**.
-/

namespace ConcurrentPQ.Heap

open Relation ConcurrentPQ.BitReverse

/-- The array index of a lock. -/
def Lock.index : Lock → Option ℕ
  | .size => none
  | .node i => some i

/-- The array indices thread `t` uses in its next step: that of the lock it takes or gives back, and
those of the nodes it has locked. -/
def touches (n : ℕ) (t : Tid) (pc : Pc) : List ℕ :=
  match code n t pc with
  | .acquire l _ | .release l _ => l.index.toList
  | .body _ => (holds pc).filterMap Lock.index
  | _ => []

/-- A step of thread `t` inside a call; there is none if an index lies outside of the buffer, or if
the lock is taken. -/
def Inside (n : ℕ) (t : Tid) (s s' : State) : Prop :=
  (∀ i ∈ touches n t (s.thr t), i < n) ∧ Step n s t .internal s'

/-- Thread `t` stands at `pc`, and only its locks are taken. -/
def solo (f : Tid → Pc) (t : Tid) (sh : Shared) (pc : Pc) : State :=
  ⟨sh, fun l => if l ∈ holds pc then some t else none, Function.update f t pc⟩

section Rules

variable {n : ℕ} {t : Tid} {f : Tid → Pc} {sh : Shared} {pc k : Pc} {l : Lock} {Q : State → Prop}

theorem solo_thr : (solo f t sh pc).thr t = pc := Function.update_self ..

theorem mem_index {l : Lock} {i : ℕ} : i ∈ l.index.toList ↔ l = .node i := by
  cases l with
  | size => simp [Lock.index]
  | node j => simp [Lock.index, eq_comm]

/-- A lock that is not held is free. -/
theorem Eventually.acquire (hc : code n t pc = .acquire l k) (hl : l ∉ holds pc)
    (hi : ∀ i, l = .node i → i < n) (hQ : Eventually (Inside n t) Q (solo f t sh k)) :
    Eventually (Inside n t) Q (solo f t sh pc) := by
  have heq : (⟨sh, Function.update (solo f t sh pc).locks l (some t),
      Function.update (solo f t sh pc).thr t k⟩ : State) = solo f t sh k := by
    unfold solo
    rw [Function.update_idem]
    congr 1
    funext l'
    by_cases he : l' = l
    · subst he
      rw [Function.update_self, if_pos ((holds_acquire hc _).mpr (Or.inl rfl))]
    · rw [Function.update_of_ne he]
      exact if_congr ((holds_acquire hc l').trans (or_iff_right he)).symm rfl rfl
  have hc' : code n t ((solo f t sh pc).thr t) = .acquire l k := by rw [solo_thr]; exact hc
  have hfree : (solo f t sh pc).locks l = none := if_neg hl
  refine .next ⟨?_, heq ▸ Step.acquire hc' hfree⟩ ?_ hQ
  · rw [solo_thr, touches, hc]
    exact fun i h => hi i (mem_index.mp h)
  · rintro s' ⟨-, hs⟩
    rcases hs with _ | ⟨h, -⟩ | h | h | _
    · rw [hc'] at h
      cases h
      exact heq
    · rw [hc'] at h
      cases h
    · rw [hc'] at h
      cases h

/-- A lock that is held is given back. -/
theorem Eventually.release (hc : code n t pc = .release l k)
    (hl : ∀ l', l' ∈ holds k ↔ l' ∈ holds pc ∧ l' ≠ l)
    (hi : ∀ i, l = .node i → i < n) (hQ : Eventually (Inside n t) Q (solo f t sh k)) :
    Eventually (Inside n t) Q (solo f t sh pc) := by
  have heq : (⟨sh, Function.update (solo f t sh pc).locks l none,
      Function.update (solo f t sh pc).thr t k⟩ : State) = solo f t sh k := by
    unfold solo
    rw [Function.update_idem]
    congr 1
    funext l'
    by_cases he : l' = l
    · subst he
      rw [Function.update_self, if_neg fun h => ((hl _).mp h).2 rfl]
    · rw [Function.update_of_ne he]
      exact if_congr ((hl l').trans (and_iff_left he)).symm rfl rfl
  have hc' : code n t ((solo f t sh pc).thr t) = .release l k := by rw [solo_thr]; exact hc
  refine .next ⟨?_, heq ▸ Step.release hc'⟩ ?_ hQ
  · rw [solo_thr, touches, hc]
    exact fun i h => hi i (mem_index.mp h)
  · rintro s' ⟨-, hs⟩
    rcases hs with _ | ⟨h, -⟩ | h | h | _
    · rw [hc'] at h
      cases h
    · rw [hc'] at h
      cases h
      exact heq
    · rw [hc'] at h
      cases h

/-- A body runs under the locks held. -/
theorem Eventually.body {g : Shared → Shared × Pc} (hc : code n t pc = .body g)
    (hi : ∀ i, Lock.node i ∈ holds pc → i < n)
    (hQ : Eventually (Inside n t) Q (solo f t (g sh).1 (g sh).2)) :
    Eventually (Inside n t) Q (solo f t sh pc) := by
  have heq : (⟨(g sh).1, (solo f t sh pc).locks,
      Function.update (solo f t sh pc).thr t (g sh).2⟩ : State) = solo f t (g sh).1 (g sh).2 := by
    unfold solo
    rw [Function.update_idem]
    congr 1
    funext l
    exact if_congr (holds_body hc l).symm rfl rfl
  have hc' : code n t ((solo f t sh pc).thr t) = .body g := by rw [solo_thr]; exact hc
  refine .next ⟨?_, heq ▸ Step.body hc'⟩ ?_ hQ
  · rw [solo_thr, touches, hc]
    intro i h
    obtain ⟨l, hl, he⟩ := List.mem_filterMap.mp h
    cases l with
    | size => cases he
    | node j =>
      cases he
      exact hi i hl
  · rintro s' ⟨-, hs⟩
    rcases hs with _ | ⟨h, -⟩ | h | h | _
    · rw [hc'] at h
      cases h
    · rw [hc'] at h
      cases h
    · rw [hc'] at h
      cases h
      exact heq

end Rules

/-! ### The locked code against the sequential functions -/

section Code

variable {n : ℕ} {t : Tid} {f : Tid → Pc} {c : BitReverseCounter} {h h' : Nodes} {Q : State → Prop}

/-- The end of `heapify_after_push`. -/
theorem Eventually.top {i v : ℕ} (hi : i < n) (hi1 : ¬1 < i)
    (hQ : Eventually (Inside n t) Q
      (solo f t ⟨c, if i = 1 then Heap.topBody h t else h⟩ (.done (.pushed v true)))) :
    Eventually (Inside n t) Q (solo f t ⟨c, h⟩ (upTest v i)) := by
  rw [upTest, if_neg hi1]
  by_cases h1 : i = 1
  · subst h1
    rw [if_pos rfl] at hQ ⊢
    refine Eventually.acquire rfl (by simp [holds]) (by rintro _ ⟨⟩; exact hi) ?_
    refine Eventually.body rfl (by simpa [holds] using hi) ?_
    exact Eventually.release rfl (fun l' => by simp [holds]) (by rintro _ ⟨⟩; exact hi) hQ
  · rw [if_neg h1] at hQ ⊢
    exact hQ

/-- `heapify_after_push` from slot `i` on. -/
theorem Eventually.heapify_after_push {fuel i v : ℕ} (hi : i < n)
    (he : Heap.heapify_after_push t fuel h i = some h')
    (hQ : Eventually (Inside n t) Q (solo f t ⟨c, h'⟩ (.done (.pushed v true)))) :
    Eventually (Inside n t) Q (solo f t ⟨c, h⟩ (upTest v i)) := by
  induction fuel generalizing h i with
  | zero =>
    rw [Heap.heapify_after_push] at he
    split at he
    · cases he
    · obtain rfl := Option.some.inj he
      exact Eventually.top hi ‹_› hQ
  | succ fuel ih =>
    rw [Heap.heapify_after_push] at he
    split at he
    · rename_i h1
      rw [upTest, if_pos h1]
      have hnext : (Heap.upBody h i t).2.1 ≤ i := by
        unfold Heap.upBody
        dsimp only
        split_ifs <;> dsimp only <;> omega
      refine Eventually.acquire rfl (by simp [holds]) (by rintro _ ⟨⟩; omega) ?_
      refine Eventually.acquire rfl (by simp [holds]; omega) (by rintro _ ⟨⟩; omega) ?_
      refine Eventually.body rfl (by simp [holds]; omega) ?_
      refine Eventually.release rfl (fun l' => ?_) (by rintro _ ⟨⟩; omega) ?_
      · cases l' <;> simp [holds]
        omega
      refine Eventually.release rfl (fun l' => by rw [holds_upTest]; simp [holds])
        (by rintro _ ⟨⟩; omega) ?_
      exact ih (lt_of_le_of_lt hnext hi) he
    · obtain rfl := Option.some.inj he
      exact Eventually.top hi ‹_› hQ

/-- `push`. -/
theorem Eventually.push {v : ℕ} {q' : MSPriorityQueue} {b : Bool}
    (he : MSPriorityQueue.push ⟨c, h, n⟩ t v = some (q', b))
    (hi : c.value < n - 1 → c.inc.reversed_value < n)
    (hQ : Eventually (Inside n t) Q
      (solo f t ⟨q'.m_ItemCounter, q'.m_Heap⟩ (.done (.pushed v b)))) :
    Eventually (Inside n t) Q (solo f t ⟨c, h⟩ (.pushLock v)) := by
  rw [MSPriorityQueue.push, MSPriorityQueue.capacity] at he
  refine Eventually.acquire rfl (by simp [holds]) (by rintro _ ⟨⟩) ?_
  refine Eventually.body rfl (by simp [holds]) ?_
  rw [checkFull]
  dsimp only at he ⊢
  split at he
  · rename_i hfull
    obtain ⟨rfl, rfl⟩ := Prod.mk.inj (Option.some.inj he)
    rw [if_pos hfull]
    exact Eventually.release rfl (fun l' => by simp [holds]) (by rintro _ ⟨⟩) hQ
  · rename_i hfull
    rw [if_neg hfull]
    replace hi := hi (not_le.mp hfull)
    obtain ⟨h', hup, hr⟩ := Option.map_eq_some_iff.mp he
    obtain ⟨rfl, rfl⟩ := Prod.mk.inj hr
    dsimp only
    refine Eventually.acquire rfl (by simp [holds]) (by rintro _ ⟨⟩; exact hi) ?_
    refine Eventually.release rfl (fun l' => ?_) (by rintro _ ⟨⟩) ?_
    · cases l' <;> simp [holds]
    refine Eventually.body rfl (by simpa [holds] using hi) ?_
    refine Eventually.release rfl (fun l' => by rw [holds_upTest]; simp [holds])
      (by rintro _ ⟨⟩; exact hi) ?_
    exact Eventually.heapify_after_push hi hup hQ

/-- `heapify_after_pop` from slot `p` on. -/
theorem Eventually.heapify_after_pop {fuel p dest : ℕ} (hp : 0 < p) (hpn : p < n)
    (he : Heap.heapify_after_pop n fuel h p = some h')
    (hQ : Eventually (Inside n t) Q (solo f t ⟨c, h'⟩ (.done (.popped (some dest))))) :
    Eventually (Inside n t) Q (solo f t ⟨c, h⟩ (downTest n p dest)) := by
  have hend : ∀ {p h}, p < n →
      Eventually (Inside n t) Q (solo f t ⟨c, h⟩ (.done (.popped (some dest)))) →
      Eventually (Inside n t) Q (solo f t ⟨c, h⟩ (.downUnlock p dest)) := fun hp hQ =>
    Eventually.release rfl (fun l' => by simp [holds]) (by rintro _ ⟨⟩; exact hp) hQ
  induction fuel generalizing h p with
  | zero =>
    rw [Heap.heapify_after_pop] at he
    split at he
    · cases he
    · rename_i h1
      obtain rfl := Option.some.inj he
      rw [downTest, if_neg h1]
      exact hend hpn hQ
  | succ fuel ih =>
    rw [Heap.heapify_after_pop] at he
    split at he
    · rename_i h1
      rw [downTest, if_pos h1]
      have hbound : ∀ {q}, Child p q → q < n := fun hq => by unfold Child at hq; omega
      refine Eventually.acquire rfl (by simp [holds]; omega) (by rintro _ ⟨⟩; omega) ?_
      refine Eventually.acquire rfl (by simp [holds]; omega) (by rintro _ ⟨⟩; omega) ?_
      refine Eventually.body rfl (by simp [holds]; omega) ?_
      rw [lookAtChildren]
      dsimp only at he ⊢
      cases hq : chooseChild h p with
      | none =>
        rw [hq] at he
        obtain rfl := Option.some.inj he
        refine Eventually.release rfl (fun l' => ?_) (by rintro _ ⟨⟩; omega) ?_
        · cases l' <;> simp [holds]
          omega
        refine Eventually.release rfl (fun l' => ?_) (by rintro _ ⟨⟩; omega) ?_
        · cases l' <;> simp [holds]
          omega
        exact hend hpn hQ
      | some q =>
        rw [hq] at he
        have hchild : Child p q := by
          unfold chooseChild at hq
          dsimp only at hq
          unfold Child
          split_ifs at hq <;> cases hq <;> omega
        obtain ⟨hs₁, hs₂, hne⟩ := sibling_ne hp hchild
        have hsib : sibling p q < n := by
          unfold sibling
          split <;> omega
        have hqn := hbound hchild
        dsimp only at he ⊢
        refine Eventually.release rfl (fun l' => ?_) (by rintro _ ⟨⟩; exact hsib) ?_
        · cases l' <;> simp [holds]
          omega
        refine Eventually.body rfl (by simpa [holds] using ⟨hpn, hqn⟩) ?_
        rw [compareChild]
        dsimp only
        split at he
        · rename_i hfirst
          rw [if_pos hfirst]
          refine Eventually.release rfl (fun l' => ?_) (by rintro _ ⟨⟩; exact hpn) ?_
          · rw [holds_downTest]
            cases l' <;> simp [holds]
            omega
          exact ih (by unfold Child at hchild; omega) hqn he
        · rename_i hfirst
          rw [if_neg hfirst]
          obtain rfl := Option.some.inj he
          refine Eventually.release rfl (fun l' => ?_) (by rintro _ ⟨⟩; exact hqn) ?_
          · cases l' <;> simp [holds]
            omega
          exact hend hpn hQ
    · rename_i h1
      obtain rfl := Option.some.inj he
      rw [downTest, if_neg h1]
      exact hend hpn hQ

/-- `pop_with`. -/
theorem Eventually.pop_with {q' : MSPriorityQueue} {o : Option ℕ}
    (he : MSPriorityQueue.pop_with ⟨c, h, n⟩ = some (q', o)) (hn : 1 < n)
    (hi : c.value ≠ 0 → 0 < c.reversed_value ∧ c.reversed_value < n)
    (hQ : Eventually (Inside n t) Q
      (solo f t ⟨q'.m_ItemCounter, q'.m_Heap⟩ (.done (.popped o)))) :
    Eventually (Inside n t) Q (solo f t ⟨c, h⟩ .popLock) := by
  rw [MSPriorityQueue.pop_with] at he
  refine Eventually.acquire rfl (by simp [holds]) (by rintro _ ⟨⟩) ?_
  refine Eventually.body rfl (by simp [holds]) ?_
  rw [checkEmpty]
  dsimp only at he ⊢
  split at he
  · rename_i h0
    obtain ⟨rfl, rfl⟩ := Prod.mk.inj (Option.some.inj he)
    rw [if_pos h0]
    exact Eventually.release rfl (fun l' => by simp [holds]) (by rintro _ ⟨⟩) hQ
  · rename_i h0
    rw [if_neg h0]
    obtain ⟨hpos, hlt⟩ := hi h0
    dsimp only
    refine Eventually.acquire rfl (by simp [holds]) (by rintro _ ⟨⟩; exact hlt) ?_
    refine Eventually.release rfl (fun l' => ?_) (by rintro _ ⟨⟩) ?_
    · cases l' <;> simp [holds]
    refine Eventually.body rfl (by simpa [holds] using hlt) ?_
    rw [clearBottom]
    dsimp only
    split at he
    · rename_i h1
      obtain ⟨rfl, rfl⟩ := Prod.mk.inj (Option.some.inj he)
      rw [if_pos h1]
      exact Eventually.release rfl (fun l' => by simp [holds]) (by rintro _ ⟨⟩; exact hlt) hQ
    · rename_i h1
      rw [if_neg h1]
      refine Eventually.acquire rfl (by simpa [holds] using fun he => h1 he.symm)
        (by rintro _ ⟨⟩; exact hn) ?_
      refine Eventually.body rfl (by simpa [holds] using ⟨hlt, hn⟩) ?_
      rw [moveTop]
      dsimp only
      split at he
      · rename_i htag
        obtain ⟨rfl, rfl⟩ := Prod.mk.inj (Option.some.inj he)
        rw [if_pos htag]
        refine Eventually.release rfl (fun l' => ?_) (by rintro _ ⟨⟩; exact hlt) ?_
        · cases l' <;> simp [holds]
          omega
        exact Eventually.release rfl (fun l' => by simp [holds]) (by rintro _ ⟨⟩; exact hn) hQ
      · rename_i htag
        rw [if_neg htag]
        obtain ⟨h', hdown, hr⟩ := Option.map_eq_some_iff.mp he
        obtain ⟨rfl, rfl⟩ := Prod.mk.inj hr
        refine Eventually.release rfl (fun l' => ?_) (by rintro _ ⟨⟩; exact hlt) ?_
        · cases l' <;> simp [holds]
          omega
        refine Eventually.body rfl (by simpa [holds] using hn) ?_
        exact Eventually.heapify_after_pop Nat.one_pos hn hdown hQ

end Code

/-! ### Whole calls -/

/-- Thread `t` has made a call. -/
def called (s : State) (t : Tid) (op : Op) : State :=
  { s with thr := Function.update s.thr t (start op) }

/-- The calls the only thread has completed, the latest first. -/
inductive Calls (n : ℕ) (t : Tid) : List (Op × Answer) → State → Prop
  | new {s : State} : Init s → Calls n t [] s
  | call {h : List (Op × Answer)} {s s' : State} {op : Op} {a : Answer} : Calls n t h s →
      ReflTransGen (Inside n t) (called s t op) s' → s'.thr t = .done a →
      Calls n t ((op, a) :: h) { s' with thr := Function.update s'.thr t .idle }

/-- The values accepted and not yet returned. -/
def stored : List (Op × Answer) → Multiset ℕ
  | [] => 0
  | (_, .pushed v true) :: h => v ::ₘ stored h
  | (_, .popped (some k)) :: h => (stored h).erase k
  | _ :: h => stored h

/-- The heap holds the values `M`, and every lock is free. -/
structure Holds (n : ℕ) (M : Multiset ℕ) (s : State) : Prop where
  locks : ∀ l, s.locks l = none
  contents : contents s.sh.m_Heap n = M

/-- What holds of the heap besides between two calls of the only thread. -/
structure Quiet (n : ℕ) (M : Multiset ℕ) (s : State) : Prop extends Holds n M s where
  valid : Valid ⟨s.sh.m_ItemCounter, s.sh.m_Heap, n⟩
  count : s.sh.m_ItemCounter.value = M.card

section Whole

variable {n v : ℕ} {t : Tid} {M : Multiset ℕ} {s s' : State}

theorem done_final {a : Answer} (h : s.thr t = .done a) : ¬Inside n t s s' := by
  rintro ⟨-, hs⟩
  have hc : code n t (s.thr t) = .ret a := by rw [h]; rfl
  rcases hs with _ | ⟨h, -⟩ | h | h | _ <;> rw [hc] at h <;> cases h

/-- A call starts with no lock taken. -/
theorem Holds.called (h : Holds n M s) (op : Op) :
    Heap.called s t op = solo s.thr t s.sh (start op) := by
  unfold Heap.called solo
  congr 1
  funext l
  have hno : l ∉ holds (start op) := by cases op <;> simp [start, holds]
  rw [if_neg hno, h.locks]

/-- A call ends with no lock taken. -/
theorem Holds.ended (n : ℕ) (f : Tid → Pc) (t : Tid) (sh : Shared) (a : Answer) :
    Holds n (Heap.contents sh.m_Heap n) (solo f t sh (.done a)) :=
  ⟨fun l => show (if l ∈ holds (.done a) then some t else none) = none from if_neg List.not_mem_nil,
    rfl⟩

theorem Quiet.congr {f : Tid → Pc} (h : Quiet n M s) : Quiet n M { s with thr := f } :=
  ⟨⟨h.locks, h.contents⟩, h.valid, h.count⟩

/-- The end of a call, as the sequential functions leave the heap. -/
theorem Quiet.ended {f : Tid → Pc} {q : MSPriorityQueue} {a : Answer} (hq : Valid q)
    (hb : q.buffer = n) (hcount : q.m_ItemCounter.value = q.elements.card) :
    Quiet n q.elements (solo f t ⟨q.m_ItemCounter, q.m_Heap⟩ (.done a)) := by
  subst hb
  exact ⟨Holds.ended _ f t ⟨q.m_ItemCounter, q.m_Heap⟩ a, hq, hcount⟩

/-- `Heap::insert` adds its value if there is room. -/
theorem Quiet.insert (h : Quiet n M s) :
    Eventually (Inside n t) (fun s' =>
        s'.thr t = .done (.pushed v (decide (M.card < n - 1))) ∧
        Quiet n (if M.card < n - 1 then v ::ₘ M else M) s')
      (called s t (.insert v)) := by
  rw [h.called]
  have hv := h.valid
  have hval : (s.sh.m_ItemCounter.inc).value = M.card + 1 := by
    rw [BitReverseCounter.inc_value, h.count]
  by_cases hroom : M.card < n - 1
  · obtain ⟨q', he, hq', hb, hcount, hel⟩ := hv.push t v (by rw [h.count]; exact hroom)
    have hel' : q'.elements = v ::ₘ M := hel.trans (congrArg (v ::ₘ ·) h.contents)
    rw [if_pos hroom, decide_eq_true hroom, ← hel']
    have hlt : s.sh.m_ItemCounter.inc.reversed_value < n :=
      hv.lt_buffer (c := s.sh.m_ItemCounter.inc) (by rw [hval]; exact hroom)
        ((used_inc hv.counter).mpr (Or.inr rfl))
    refine Eventually.push he (fun _ => hlt) (.now ⟨solo_thr, .ended hq' hb ?_⟩)
    rw [hcount, hel', Multiset.card_cons, h.count]
  · rw [if_neg hroom, decide_eq_false hroom]
    have he : MSPriorityQueue.push ⟨s.sh.m_ItemCounter, s.sh.m_Heap, n⟩ t v =
        some (⟨s.sh.m_ItemCounter, s.sh.m_Heap, n⟩, false) :=
      if_pos (by rw [h.count]; exact not_lt.mp hroom)
    rw [← h.contents]
    refine Eventually.push he (fun hlt => absurd hlt (by rw [h.count]; exact hroom))
      (.now ⟨solo_thr, .ended hv rfl ?_⟩)
    rw [h.count, ← h.contents]
    rfl

/-- `Heap::delete_min` reports an empty heap, or removes one occurrence of a smallest value. -/
theorem Quiet.delete_min (h : Quiet n M s) (hn : 1 < n) :
    Eventually (Inside n t) (fun s' =>
        M = 0 ∧ s'.thr t = .done (.popped none) ∧ Quiet n 0 s' ∨
        ∃ k ∈ M, (∀ x ∈ M, k ≤ x) ∧ s'.thr t = .done (.popped (some k)) ∧ Quiet n (M.erase k) s')
      (called s t .delete_min) := by
  rw [h.called]
  have hv := h.valid
  have hel : MSPriorityQueue.elements ⟨s.sh.m_ItemCounter, s.sh.m_Heap, n⟩ = M := h.contents
  have hlt : s.sh.m_ItemCounter.value ≠ 0 → 0 < s.sh.m_ItemCounter.reversed_value ∧
      s.sh.m_ItemCounter.reversed_value < n := fun h0 =>
    ⟨Nat.pos_of_ne_zero (hv.counter.reversed_ne_zero h0),
      hv.lt_buffer hv.bound (used_reversed hv.counter h0)⟩
  by_cases h0 : s.sh.m_ItemCounter.value = 0
  · have hM : M = 0 := hel ▸ hv.elements_eq_zero.mpr h0
    have he : MSPriorityQueue.pop_with ⟨s.sh.m_ItemCounter, s.sh.m_Heap, n⟩ =
        some (⟨s.sh.m_ItemCounter, s.sh.m_Heap, n⟩, none) := if_pos h0
    refine Eventually.pop_with he hn hlt (.now (Or.inl ⟨hM, solo_thr, ?_⟩))
    rw [← hM, ← hel]
    refine .ended hv rfl ?_
    rw [hel, h.count]
  · obtain ⟨q', he, hq', hb, hcount, hel'⟩ := hv.pop_with h0
    rw [hel] at hel'
    have hmem : (s.sh.m_Heap 1).m_Value ∈ M := by
      rw [hel']
      exact Multiset.mem_cons_self _ _
    have herase : q'.elements = M.erase (s.sh.m_Heap 1).m_Value := by
      rw [hel', Multiset.erase_cons_head]
    refine Eventually.pop_with he hn hlt
      (.now (Or.inr ⟨_, hmem, fun x hx => ?_, solo_thr, ?_⟩))
    · obtain ⟨j, hj, rfl⟩ := hv.mem_elements.mp (hel ▸ hx)
      exact hv.top_le hj
    · rw [← herase]
      refine .ended hq' hb ?_
      have hcard : M.card = q'.elements.card + 1 := by rw [hel', Multiset.card_cons]
      rw [h.count] at hcount
      omega

/-- A heap just constructed. -/
theorem Quiet.init {c : ℕ} (hc : 1 < ceil2 c) (h : Init s) : Quiet (ceil2 c) 0 s where
  locks := h.free
  contents := Finset.sum_eq_zero fun i _ => item_empty (h.empty i)
  valid :=
    { counter := by rw [h.counter]; exact .zero
      buffer := ceil2_buffer hc
      bound := by rw [h.counter]; exact Nat.zero_le _
      settled := fun j => by
        rw [h.counter]
        exact ⟨fun hu => absurd (lt_of_lt_of_le (rank_pos j) hu.2) (lt_irrefl _), fun _ => h.empty j⟩
      ordered := fun j _ hu => by
        rw [h.counter] at hu
        exact absurd (lt_of_lt_of_le (rank_pos j) hu.2) (lt_irrefl _) }
  count := by rw [h.counter]; rfl

/-- **Between two calls the heap holds the values accepted and not yet returned.** -/
theorem Calls.quiet {c : ℕ} (hc : 1 < ceil2 c) {h : List (Op × Answer)} (hh : Calls (ceil2 c) t h s) :
    Quiet (ceil2 c) (stored h) s := by
  induction hh with
  | new hi => exact .init hc hi
  | @call h s s' op a _ hrun hdone ih =>
    refine Quiet.congr ?_
    cases op with
    | insert v =>
      obtain ⟨hret, hq⟩ := (ih.insert).of_final (fun _ _ hs => done_final hs.1) hrun
        fun _ => done_final hdone
      obtain rfl := Pc.done.inj (hdone.symm.trans hret)
      by_cases hroom : (stored h).card < ceil2 c - 1
      · rw [if_pos hroom] at hq
        rw [decide_eq_true hroom]
        exact hq
      · rw [if_neg hroom] at hq
        rw [decide_eq_false hroom]
        exact hq
    | delete_min =>
      rcases (ih.delete_min hc).of_final (fun _ _ hs => hs.elim
          (fun hs => done_final hs.2.1) fun ⟨_, _, _, hs, _⟩ => done_final hs) hrun
        fun _ => done_final hdone with ⟨hM, hret, hq⟩ | ⟨k, -, -, hret, hq⟩
      · obtain rfl := Pc.done.inj (hdone.symm.trans hret)
        change Quiet _ (stored h) s'
        rw [hM]
        exact hq
      · obtain rfl := Pc.done.inj (hdone.symm.trans hret)
        exact hq

end Whole

/-- The buffer has the least power of two as its size that is not below the capacity asked for. -/
theorem ceil2_isLeast {c : ℕ} (hc : 2 ≤ c) (hle : c ≤ 2 ^ 31) :
    IsLeast {p | c ≤ p ∧ ∃ k, p = 2 ^ k} (ceil2 c) := by
  have hlow : 2 ^ log2floor c ≤ c := Nat.pow_log_le_self 2 (by omega)
  have hlt : c < 2 ^ (log2floor c + 1) := Nat.lt_pow_succ_log_self (by decide) c
  rw [ceil2_eq_of_le (by omega) hle, log2ceil_eq (by omega) hle]
  split
  · rename_i hne
    refine ⟨⟨hlt.le, _, rfl⟩, ?_⟩
    rintro _ ⟨hp, k, rfl⟩
    exact Nat.pow_le_pow_right (by decide)
      ((Nat.pow_lt_pow_iff_right (by decide)).mp (lt_of_lt_of_le hne hp))
  · rename_i hge
    exact ⟨⟨not_lt.mp hge, _, rfl⟩, fun p hp => hlow.trans hp.1⟩

/-- **One thread has a bounded min-priority queue**, for any capacity from 2 to `2 ^ 31`; above, `ceil2`
does not compute a power of two that is large enough.  With `N` one less than the least power of two
that is not below the capacity: the heap holds the values accepted and not yet returned, and all locks
are free; `insert` ends and adds its value exactly if less than `N` are stored; `delete_min` ends and
reports an empty heap, or removes one occurrence of a smallest value.  No step uses an index outside of
the buffer. -/
theorem bounded_queue {c : ℕ} (hc : 2 ≤ c) (hle : c ≤ 2 ^ 31) {t : Tid} {h : List (Op × Answer)} {s : State}
    (hh : Calls (ceil2 c) t h s) :
    IsLeast {p | c ≤ p ∧ ∃ k, p = 2 ^ k} (ceil2 c) ∧ Holds (ceil2 c) (stored h) s ∧
    (∀ v, Eventually (Inside (ceil2 c) t) (fun s' =>
        s'.thr t = .done (.pushed v (decide ((stored h).card < ceil2 c - 1))) ∧
        Holds (ceil2 c) (if (stored h).card < ceil2 c - 1 then v ::ₘ stored h else stored h) s')
      (called s t (.insert v))) ∧
    Eventually (Inside (ceil2 c) t) (fun s' =>
        stored h = 0 ∧ s'.thr t = .done (.popped none) ∧ Holds (ceil2 c) 0 s' ∨
        ∃ k ∈ stored h, (∀ x ∈ stored h, k ≤ x) ∧ s'.thr t = .done (.popped (some k)) ∧
          Holds (ceil2 c) ((stored h).erase k) s')
      (called s t .delete_min) := by
  have hone := one_lt_ceil2 hc hle
  have hq := hh.quiet hone
  refine ⟨ceil2_isLeast hc hle, hq.toHolds, fun v => ?_, ?_⟩
  · exact hq.insert.mono fun s' hs => ⟨hs.1, hs.2.toHolds⟩
  · refine (hq.delete_min hone).mono fun s' hs => hs.imp ?_ ?_
    · exact fun ⟨hM, hret, hq⟩ => ⟨hM, hret, hq.toHolds⟩
    · exact fun ⟨k, hk, hle, hret, hq⟩ => ⟨k, hk, hle, hret, hq.toHolds⟩

/-- Two insertions into a heap of capacity 3, and what `delete_min` does then. -/
theorem bounded_queue_two : ∃ s, Calls (ceil2 3) 1
      [(.insert 7, .pushed 7 true), (.insert 7, .pushed 7 true)] s ∧
    Eventually (Inside (ceil2 3) 1) (fun s' => s'.thr 1 = .done (.popped (some 7)))
      (called s 1 .delete_min) := by
  have h₀ : Calls (ceil2 3) 1 [] fresh := .new fresh_init
  obtain ⟨s₁, hrun₁, hs₁, -⟩ := ((bounded_queue (by decide) (by decide) h₀).2.2.1 7).exists_run
  have h₁ : Calls (ceil2 3) 1 [(.insert 7, .pushed 7 true)] _ :=
    h₀.call hrun₁ (hs₁.trans (by decide +kernel))
  obtain ⟨s₂, hrun₂, hs₂, -⟩ := ((bounded_queue (by decide) (by decide) h₁).2.2.1 7).exists_run
  have h₂ : Calls (ceil2 3) 1 [(.insert 7, .pushed 7 true), (.insert 7, .pushed 7 true)] _ :=
    h₁.call hrun₂ (hs₂.trans (by decide +kernel))
  refine ⟨_, h₂, (bounded_queue (by decide) (by decide) h₂).2.2.2.mono fun s' hs => ?_⟩
  rcases hs with ⟨h0, -⟩ | ⟨k, hk, -, hret, -⟩
  · exact absurd h0 Multiset.cons_ne_zero
  · have hk7 : k = 7 := by simpa [stored] using hk
    rw [hret, hk7]

end ConcurrentPQ.Heap

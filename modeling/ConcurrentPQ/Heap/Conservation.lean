import ConcurrentPQ.Heap.Invariant

/-!
# Which elements a concurrent heap keeps

An element pushed is in the array, or with a thread on its way out, or it has been returned.  This
balance survives every step but one: a `pop_with` that finds the top empty, because another one has
taken it since the size lock was released, returns the stale value of the top and drops the value of
its bottom.

* `accepted`, `returned` — the values of a run;
* `credit`, `owed` — the value a thread has stored but not yet reported, and the value it has taken
  out but not yet returned;
* `TopFilled` — the condition on a step;
* `Balanced.step` — the balance is kept by every step that meets it;
* `conserved` — between calls nothing is lost or duplicated.
-/

namespace ConcurrentPQ.Heap

open ConcurrentPQ.Transition

/-- The value a step reports as accepted by `push`. -/
def Event.accepted : Event → Multiset ℕ
  | .ret (.pushed v true) => {v}
  | _ => 0

/-- The value a step returns from `pop_with`. -/
def Event.returned : Event → Multiset ℕ
  | .ret (.popped (some d)) => {d}
  | _ => 0

/-- The values of the calls of `insert` that returned and were accepted. -/
def accepted (tr : List (Entry State Tid Event)) : Multiset ℕ :=
  (tr.map fun x => x.ev.accepted).sum

/-- The values written by the calls of `delete_min` that returned true. -/
def returned (tr : List (Entry State Tid Event)) : Multiset ℕ :=
  (tr.map fun x => x.ev.returned).sum

/-- The value a thread has written into the array and not yet reported. -/
def credit : Pc → Multiset ℕ
  | .pushDone v _ | .upParent v _ | .upItem v _ | .upBody v _ | .upUnlockItem v _ _
  | .upUnlockParent v _ _ | .topLock v | .topBody v | .topUnlock v | .done (.pushed v true) => {v}
  | _ => 0

/-- The value a thread has taken out of the array and not yet returned; it is still in the bottom
node until the top has been looked at. -/
def owed (h : Nodes) : Pc → Multiset ℕ
  | .popTop b | .popMove b => {(h b).m_Value}
  | .popOnly _ d | .popStaleBottom _ d | .popStaleTop d | .popUnlockBottom _ d | .popMark d
  | .downLeft _ d | .downRight _ d | .downChoose _ d | .downEmptyRight _ d | .downEmptyLeft _ d
  | .downSibling _ _ d | .downCmp _ _ d | .downStep _ _ d | .downStop _ _ d | .downUnlock _ d
  | .done (.popped (some d)) => {d}
  | _ => 0

/-- A `pop_with` that goes to take the value of the top finds it filled, or finds there the value
that its bottom holds too. -/
def TopFilled (x : Entry State Tid Event) : Prop :=
  ∀ b, x.pre.thr x.who = .popMove b →
    (x.pre.sh.m_Heap 1).m_nTag ≠ .empty ∨
      (x.pre.sh.m_Heap 1).m_Value = (x.pre.sh.m_Heap b).m_Value

section OneThread

variable {n : ℕ} {t : Tid} {pc k : Pc} {l : Lock} {f : Shared → Shared × Pc} {h : Nodes}
  {s : Shared}

theorem credit_upTest (v i : ℕ) : credit (upTest v i) = {v} := by
  unfold upTest
  split
  · rfl
  · split <;> rfl

theorem owed_upTest (v i : ℕ) : owed h (upTest v i) = 0 := by
  unfold upTest
  split
  · rfl
  · split <;> rfl

theorem credit_downTest (p d : ℕ) : credit (downTest n p d) = 0 := by
  unfold downTest
  split <;> rfl

theorem owed_downTest (p d : ℕ) : owed h (downTest n p d) = {d} := by
  unfold downTest
  split <;> rfl

theorem value_acquire (hc : code n t pc = .acquire l k) :
    credit k = credit pc ∧ owed h k = owed h pc := by
  cases pc <;> simp only [code, reduceCtorEq, Instr.acquire.injEq] at hc <;>
    obtain ⟨rfl, rfl⟩ := hc <;> exact ⟨rfl, rfl⟩

theorem value_release (hc : code n t pc = .release l k) :
    credit k = credit pc ∧ owed h k = owed h pc := by
  cases pc <;> simp only [code, reduceCtorEq, Instr.release.injEq] at hc <;>
    obtain ⟨rfl, rfl⟩ := hc
  case pushDone v i => exact ⟨credit_upTest v i, owed_upTest v i⟩
  case upUnlockParent v i next => exact ⟨credit_upTest v next, owed_upTest v next⟩
  case downStep p q d => exact ⟨credit_downTest q d, owed_downTest q d⟩
  all_goals exact ⟨rfl, rfl⟩

/-- The elements an array holds and those a thread has in hand, before and after a body. -/
def Kept (n : ℕ) (h h' : Nodes) (pc k : Pc) : Prop :=
  credit k + contents h n + owed h pc = contents h' n + owed h' k + credit pc

theorem Kept.of_rearranged {h' : Nodes} (hr : Rearranged n h h') (hcr : credit k = credit pc)
    (how : owed h' k = owed h pc) : Kept n h h' pc k := by
  unfold Kept
  rw [hr.contents, hcr, how, add_assoc, add_comm]

/-- A step inside a call reports and returns nothing. -/
theorem Kept.internal {h' : Nodes} (hk : Kept n h h' pc k) :
    Event.internal.accepted + credit k + contents h n + owed h pc =
      Event.internal.returned + contents h' n + owed h' k + credit pc := by
  unfold Kept at hk
  simpa [Event.accepted, Event.returned] using hk

theorem kept_write {v i : ℕ} (hi : i < n) (he : (h i).m_nTag = .empty) :
    Kept n h (Function.update h i ⟨v, .owner t⟩) (.pushWrite v i) (.pushDone v i) := by
  unfold Kept
  rw [contents_fill hi he (by simp)]
  simp [credit, owed, add_comm]

theorem kept_clear {b : ℕ} (hb : b < n) (he : (s.m_Heap b).m_nTag ≠ .empty) :
    Kept n s.m_Heap (clearBottom b s).1.m_Heap (.popClear b) (clearBottom b s).2 := by
  unfold Kept clearBottom
  dsimp only
  rw [← contents_clear hb he]
  split
  · simp [credit, owed]
  · simp [credit, owed]

/-- The step that looks at the top keeps the balance exactly if it meets the condition. -/
theorem kept_move {b : ℕ} (hb : 1 < b) (hbn : b < n) :
    Kept n s.m_Heap (moveTop b s).1.m_Heap (.popMove b) (moveTop b s).2 ↔
      (s.m_Heap 1).m_nTag ≠ .empty ∨ (s.m_Heap 1).m_Value = (s.m_Heap b).m_Value := by
  unfold Kept moveTop
  dsimp only
  split
  · rename_i he
    simp [credit, owed, he, eq_comm]
  · rename_i he
    have hset := contents_setValue (v := (s.m_Heap b).m_Value) (by omega : 1 < n) he
    simp [credit, owed, he, hset]

theorem kept_body (hc : code n t pc = .body f) (hok : Ok n s.m_ItemCounter s.m_Heap pc)
    (htop : ∀ b, pc = .popMove b →
      (s.m_Heap 1).m_nTag ≠ .empty ∨ (s.m_Heap 1).m_Value = (s.m_Heap b).m_Value) :
    Kept n s.m_Heap (f s).1.m_Heap pc (f s).2 := by
  cases pc <;> simp only [code, reduceCtorEq, Instr.body.injEq] at hc <;> subst hc <;>
    simp only [Ok] at hok
  case pushCheck v => unfold checkFull; split <;> exact .of_rearranged .refl rfl rfl
  case pushWrite v i => exact kept_write hok.2.1 hok.2.2
  case upBody v i => exact .of_rearranged (upBody_spec hok.2).1 rfl rfl
  case topBody v => exact .of_rearranged (topBody_spec hok).1 rfl rfl
  case popCheck => unfold checkEmpty; split <;> exact .of_rearranged .refl rfl rfl
  case popClear b => exact kept_clear hok.2.1 hok.2.2
  case popMove b => exact (kept_move hok.1 hok.2).mpr (htop b rfl)
  case popMark d =>
    exact .of_rearranged (.setTag hok.1 hok.2 (by simp)) (credit_downTest 1 d) (owed_downTest 1 d)
  case downChoose p d => unfold lookAtChildren; split <;> exact .of_rearranged .refl rfl rfl
  case downCmp p q d =>
    obtain ⟨hp, hq⟩ := hok.2.2.1.lt_buffer hok.2.1
    unfold compareChild
    split
    · exact .of_rearranged (.swap hp hq hok.2.2.2.1 hok.2.2.2.2) rfl rfl
    · exact .of_rearranged .refl rfl rfl

/-- What a thread owes stands while it holds its locks. -/
theorem owed_stable {h' : Nodes} (hheap : ∀ j, Lock.node j ∈ holds pc → h' j = h j) :
    owed h' pc = owed h pc := by
  cases pc <;> simp [holds] at hheap
  case popTop b => simp only [owed, hheap]
  case popMove b => simp only [owed, hheap]
  case done a =>
    cases a with
    | pushed v ok => rfl
    | popped d => cases d <;> rfl
  all_goals rfl

end OneThread

/-! ### The balance of a run -/

/-- The balance, over a finite set of threads outside which no thread is in a call. -/
def Balanced (n : ℕ) (tr : List (Entry State Tid Event)) (s : State) : Prop :=
  ∃ T : Finset Tid, (∀ t, t ∉ T → s.thr t = .idle) ∧
    accepted tr + ∑ t ∈ T, credit (s.thr t) =
      returned tr + contents s.sh.m_Heap n + ∑ t ∈ T, owed s.sh.m_Heap (s.thr t)

section Balanced

variable {n : ℕ} {tr : List (Entry State Tid Event)} {s s' : State} {t : Tid} {e : Event}

theorem Balanced.of_init (hi : Init s) : Balanced n [] s := by
  have hcont : contents s.sh.m_Heap n = 0 :=
    Finset.sum_eq_zero fun i _ => item_empty (hi.empty i)
  exact ⟨∅, fun t _ => hi.idle t, by simp [accepted, returned, hcont]⟩

/-- The thread that takes a step may be added to the threads summed over. -/
theorem Balanced.with (h : Balanced n tr s) (t : Tid) :
    ∃ T : Finset Tid, t ∈ T ∧ (∀ u, u ∉ T → s.thr u = .idle) ∧
      accepted tr + ∑ u ∈ T, credit (s.thr u) =
        returned tr + contents s.sh.m_Heap n + ∑ u ∈ T, owed s.sh.m_Heap (s.thr u) := by
  obtain ⟨T, hT, hbal⟩ := h
  by_cases ht : t ∈ T
  · exact ⟨T, ht, hT, hbal⟩
  · refine ⟨insert t T, Finset.mem_insert_self t T, fun u hu => ?_, ?_⟩
    · exact hT u fun hm => hu (Finset.mem_insert_of_mem hm)
    · rw [Finset.sum_insert ht, Finset.sum_insert ht, hT t ht]
      simpa [credit, owed] using hbal

/-- One step: what the acting thread reports, returns, stores and takes is in balance, and no other
thread notices. -/
theorem Balanced.cons (h : Balanced n tr s) {k : Pc} (hthr : s'.thr = Function.update s.thr t k)
    (hothers : ∀ u, u ≠ t → owed s'.sh.m_Heap (s.thr u) = owed s.sh.m_Heap (s.thr u))
    (hstep : e.accepted + credit k + contents s.sh.m_Heap n + owed s.sh.m_Heap (s.thr t) =
      e.returned + contents s'.sh.m_Heap n + owed s'.sh.m_Heap k + credit (s.thr t)) :
    Balanced n (⟨s, t, e, s'⟩ :: tr) s' := by
  obtain ⟨T, ht, hT, hbal⟩ := h.with t
  refine ⟨T, fun u hu => ?_, ?_⟩
  · have hut : u ≠ t := fun hut => hu (hut.symm ▸ ht)
    rw [hthr, Function.update_of_ne hut]
    exact hT u hu
  · have hcredit := sum_change (fun u => credit (s.thr u))
      (fun u => credit (s'.thr u)) ht fun u hu => by rw [hthr, Function.update_of_ne hu]
    have howed := sum_change (fun u => owed s.sh.m_Heap (s.thr u))
      (fun u => owed s'.sh.m_Heap (s'.thr u)) ht fun u hu => by
        rw [hthr, Function.update_of_ne hu, hothers u hu]
    rw [hthr, Function.update_self] at hcredit howed
    have hacc : accepted (⟨s, t, e, s'⟩ :: tr) = e.accepted + accepted tr := by simp [accepted]
    have hret : returned (⟨s, t, e, s'⟩ :: tr) = e.returned + returned tr := by simp [returned]
    rw [hacc, hret, hthr]
    -- the five equations are about multisets: count each value
    refine Multiset.ext.mpr fun v => ?_
    have h₁ := congrArg (Multiset.count v) hbal
    have h₂ := congrArg (Multiset.count v) hcredit
    have h₃ := congrArg (Multiset.count v) howed
    have h₄ := congrArg (Multiset.count v) hstep
    simp only [Multiset.count_add] at h₁ h₂ h₃ h₄ ⊢
    omega

/-- **A step that meets the condition keeps the balance.** -/
theorem Balanced.step (h : Balanced n tr s) (hinv : Inv n s) (hs : Step n s t e s')
    (htop : TopFilled ⟨s, t, e, s'⟩) : Balanced n (⟨s, t, e, s'⟩ :: tr) s' := by
  cases hs with
  | @call op hidle =>
    refine h.cons rfl (fun _ _ => rfl) ?_
    rw [hidle]
    cases op <;> simp [Event.accepted, Event.returned, credit, owed, start]
  | acquire hc hfree =>
    obtain ⟨hcr, how⟩ := value_acquire (h := s.sh.m_Heap) hc
    exact h.cons rfl (fun _ _ => rfl) ((Kept.of_rearranged .refl hcr how).internal)
  | release hc =>
    obtain ⟨hcr, how⟩ := value_release (h := s.sh.m_Heap) hc
    exact h.cons rfl (fun _ _ => rfl) ((Kept.of_rearranged .refl hcr how).internal)
  | body hc =>
    refine h.cons rfl (fun u hu => ?_) ?_
    · refine owed_stable fun j hl => heap_body hc (hinv.ok t) fun hl' => ?_
      exact hu (hinv.owned.unique hl hl')
    · exact (kept_body hc (hinv.ok t) htop).internal
  | @ret a hc =>
    have hpc : s.thr t = .done a := by
      cases hpc : s.thr t <;> rw [hpc] at hc <;> simp [code] at hc
      rw [hc]
    refine h.cons rfl (fun _ _ => rfl) ?_
    rw [hpc]
    cases a with
    | pushed v ok => cases ok <;> simp [Event.accepted, Event.returned, credit, owed, add_comm]
    | popped d => cases d <;> simp [Event.accepted, Event.returned, credit, owed, add_comm]

end Balanced

/-- **Nothing is lost or duplicated** in a run whose steps all meet the condition: whenever no call
is in progress, the values accepted are the values returned and those in the array. -/
theorem conserved {nCapacity : ℕ} {tr : List (Entry State Tid Event)} {s : State}
    (hrun : Run (concurrentHeap nCapacity) tr s) (htop : ∀ x ∈ tr, TopFilled x)
    (hidle : ∀ t, s.thr t = .idle) :
    accepted tr = returned tr + contents s.sh.m_Heap (ceil2 nCapacity) := by
  have hbal : (∀ x ∈ tr, TopFilled x) → Balanced (ceil2 nCapacity) tr s := by
    refine hrun.history (I := fun tr s => (∀ x ∈ tr, TopFilled x) → Balanced _ tr s)
      (fun s hi _ => Balanced.of_init hi) fun tr s t e s' hr ih hs htop => ?_
    refine (ih fun x hx => htop x (List.mem_cons_of_mem _ hx)).step (Inv.of_run hr) hs ?_
    exact htop _ List.mem_cons_self
  obtain ⟨T, -, hT⟩ := hbal htop
  simpa [hidle, credit, owed] using hT

/-! ### Runs -/

/-- The bottom of a thread about to look at the top. -/
def Pc.looksAtTop : Pc → Option ℕ
  | .popMove b => some b
  | _ => none

theorem looksAtTop_iff {pc : Pc} {b : ℕ} : pc.looksAtTop = some b ↔ pc = .popMove b := by
  cases pc <;> simp [Pc.looksAtTop]

instance : DecidablePred TopFilled := fun x =>
  decidable_of_iff (∀ b ∈ (x.pre.thr x.who).looksAtTop, (x.pre.sh.m_Heap 1).m_nTag ≠ .empty ∨
      (x.pre.sh.m_Heap 1).m_Value = (x.pre.sh.m_Heap b).m_Value)
    (forall_congr' fun _ => imp_congr_left looksAtTop_iff)

/-- Two threads store 7 and 5.  A third takes 5, and meanwhile a fourth waits for the last node. -/
def popsInTurn : List Move :=
  turn 0 (some (.insert 7)) 10 ++ turn 1 (some (.insert 5)) 15 ++ turn 2 (some .delete_min) 9 ++
    turn 3 (some .delete_min) 2 ++ turn 2 none 7 ++ turn 3 none 5

theorem conserved_popsInTurn : ∃ tr s, Run (concurrentHeap 4) tr s ∧ returned tr = {7, 5} ∧
    accepted tr = returned tr + contents s.sh.m_Heap (ceil2 4) := by
  obtain ⟨tr, s, hrun, hp⟩ := exists_run_of_schedule 4 popsInTurn
    (fun c => decide (returned c.1 = {7, 5} ∧ (∀ x ∈ c.1, TopFilled x) ∧
      ∀ x ∈ c.1, c.2.thr x.who = .idle)) (by decide +kernel)
  obtain ⟨hret, htop, hidle⟩ := of_decide_eq_true hp
  exact ⟨tr, s, hrun, hret, conserved hrun htop (forall_thread (p := (· = .idle)) hrun rfl hidle)⟩

/-- Two values are stored.  A `delete_min` takes slot 2 as its bottom and releases the size lock; a
second one empties the heap's only other slot and returns 5; the first finds the top empty, returns
5 as well, and 7 is gone. -/
def popsOverlapping : List Move :=
  turn 0 (some (.insert 5)) 10 ++ turn 1 (some (.insert 7)) 12 ++ turn 2 (some .delete_min) 4 ++
    turn 3 (some .delete_min) 7 ++ turn 2 none 6

theorem not_conserved : ¬∀ (nCapacity : ℕ) (tr : List (Entry State Tid Event)) (s : State),
    Run (concurrentHeap nCapacity) tr s → (∀ t, s.thr t = .idle) →
      accepted tr = returned tr + contents s.sh.m_Heap (ceil2 nCapacity) := by
  intro h
  obtain ⟨tr, s, hrun, hp⟩ := exists_run_of_schedule 4 popsOverlapping
    (fun c => decide (accepted c.1 = {5, 7} ∧ returned c.1 = {5, 5} ∧
      contents c.2.sh.m_Heap (ceil2 4) = 0 ∧ ∀ x ∈ c.1, c.2.thr x.who = .idle))
    (by decide +kernel)
  obtain ⟨hacc, hret, hcont, hidle⟩ := of_decide_eq_true hp
  have heq := h 4 tr s hrun (forall_thread (p := (· = .idle)) hrun rfl hidle)
  rw [hacc, hret, hcont] at heq
  exact absurd heq (by decide)

end ConcurrentPQ.Heap

import ConcurrentPQ.Heap.Invariant

/-!
# Threads of the heap waiting for each other

Both `heapify` functions lock a node before its children, but `pop_with` locks the top while it holds
its bottom node.  Every cycle of waiting threads therefore runs through such a `pop_with`, and up the
path from its bottom to the top.

* `Deadlock` — a cycle of waiting threads;
* `Jammed`, `Trapped` — all nodes above a slot are locked by threads waiting for the next node down,
  and this is so for the bottom of a `pop_with` that waits for the top;
* `holds_wants` — what a thread that waits and is waited for can be waiting for;
* `deadlock_iff` — the threads are deadlocked exactly when a `pop_with` is trapped.
-/

namespace ConcurrentPQ.Heap

open ConcurrentPQ.Transition ConcurrentPQ.Locks

/-- Thread `t` of state `s` waits for thread `u`. -/
def Waits (n : ℕ) (s : State) : Tid → Tid → Prop :=
  WaitsFor s.locks fun t => wants n t (s.thr t)

/-- Some threads wait for each other in a cycle. -/
def Deadlock (n : ℕ) (s : State) : Prop :=
  Deadlocked s.locks fun t => wants n t (s.thr t)

/-- Every node above slot `j`, up to the top, is locked by a thread that waits for the next node down
on the way to `j`. -/
inductive Jammed (n : ℕ) (s : State) : ℕ → Prop
  | top : Jammed n s 1
  | child {j : ℕ} {u : Tid} : 2 ≤ j → s.locks (.node (j / 2)) = some u →
      wants n u (s.thr u) = some (.node j) → Jammed n s (j / 2) → Jammed n s j

/-- A `pop_with` waits for the top, with a bottom node all nodes above which are jammed. -/
def Trapped (n : ℕ) (s : State) : Prop :=
  ∃ t b, s.thr t = .popTop b ∧ Jammed n s b

section OneThread

variable {n : ℕ} {t : Tid} {pc : Pc} {l l' : Lock} {c : BitReverseCounter} {h : Nodes}

/-- A thread that waits for the size lock holds no lock. -/
theorem holds_of_wants_size (hw : wants n t pc = some .size) : holds pc = [] := by
  cases pc <;> simp [wants, code] at hw <;> rfl

/-- A thread that holds a lock and waits for another one holds the size lock, or is a `pop_with` that
waits for the top, or waits for a child of a node it holds. -/
theorem holds_wants (hok : Ok n c h pc) (hw : wants n t pc = some l) (hl : l' ∈ holds pc) :
    l' = .size ∨ (∃ b, pc = .popTop b ∧ l = .node 1 ∧ l' = .node b) ∨
      ∃ i, 1 < i ∧ l = .node i ∧ Lock.node (i / 2) ∈ holds pc ∧
        (l' = .node (i / 2) ∨ (l' = .node (i - 1) ∧ i - 1 = i / 2 * 2)) := by
  cases pc <;> simp [wants, code] at hw <;> simp [holds] at hl <;> simp only [Ok] at hok <;>
    subst hw
  case pushNode v i => exact Or.inl hl
  case popBottom b => exact Or.inl hl
  case popTop b => exact Or.inr (Or.inl ⟨b, rfl, rfl, hl⟩)
  case upItem v i => exact Or.inr (Or.inr ⟨i, hok.1, rfl, by simp [holds], Or.inl hl⟩)
  case downLeft p d =>
    have hhalf : p * 2 / 2 = p := by omega
    refine Or.inr (Or.inr ⟨p * 2, by omega, rfl, ?_, Or.inl ?_⟩) <;> rw [hhalf]
    · simp [holds]
    · exact hl
  case downRight p d =>
    have hhalf : (p * 2 + 1) / 2 = p := by omega
    refine Or.inr (Or.inr ⟨p * 2 + 1, by omega, rfl, ?_, ?_⟩) <;> rw [hhalf]
    · simp [holds]
    · exact hl.imp_right fun hl => ⟨hl, rfl⟩

end OneThread

section Cycle

variable {n : ℕ} {s : State} {t u : Tid} {i j : ℕ}

/-- A thread on a cycle holds a lock that another one wants, so it does not wait for the size
lock. -/
theorem wants_node (hinv : Inv n s)
    (ht : OnCycle s.locks (fun t => wants n t (s.thr t)) t) :
    ∃ j, wants n t (s.thr t) = some (.node j) := by
  obtain ⟨v, -, l', -, hl'⟩ := ht.pred
  obtain ⟨w, -, l, hl, -⟩ := ht.succ
  cases l with
  | node j => exact ⟨j, hl⟩
  | size =>
    have hheld := (hinv.owned l' t).mp hl'
    have hnone := holds_of_wants_size hl
    simp only at hheld
    rw [hnone] at hheld
    cases hheld

/-- What a thread on a cycle holds that another one on the cycle waits for. -/
theorem onCycle_edge (hinv : Inv n s)
    (ht : OnCycle s.locks (fun t => wants n t (s.thr t)) t) (htu : Waits n s t u) :
    ∃ j, wants n t (s.thr t) = some (.node j) ∧ (s.thr u = .popTop j ∨
      ∃ i, 1 < i ∧ wants n u (s.thr u) = some (.node i) ∧ s.locks (.node (i / 2)) = some u ∧
        (j = i / 2 ∨ (j = i - 1 ∧ i - 1 = i / 2 * 2))) := by
  obtain ⟨j, hj⟩ := wants_node hinv ht
  obtain ⟨l, hl, hlu⟩ := htu
  obtain rfl : l = .node j := Option.some.inj (hl.symm.trans hj)
  obtain ⟨i, hi⟩ := wants_node hinv (ht.next ⟨_, hl, hlu⟩)
  refine ⟨j, hj, ?_⟩
  obtain hsz | ⟨b, hb, -, hjb⟩ | ⟨i', h1, hi', hhalf, hheld⟩ :=
    holds_wants (hinv.ok u) hi ((hinv.owned _ u).mp hlu)
  · cases hsz
  · cases hjb
    exact Or.inl hb
  · cases hi'
    refine Or.inr ⟨i, h1, hi, (hinv.owned _ u).mpr hhalf, ?_⟩
    simpa using hheld

/-- The nodes above one that a thread on a cycle waits for are jammed. -/
theorem jammed_of_onCycle (hinv : Inv n s) (hj : 0 < j)
    (ht : OnCycle s.locks (fun t => wants n t (s.thr t)) t)
    (hw : wants n t (s.thr t) = some (.node j)) : Jammed n s j := by
  induction j using Nat.strong_induction_on generalizing t with
  | _ j ih =>
    by_cases h1 : j = 1
    · rw [h1]
      exact .top
    · obtain ⟨v, hv, hvt⟩ := ht.pred
      obtain ⟨j', hj', hpop | ⟨i, hi1, hi, hhalf, hcase⟩⟩ := onCycle_edge hinv hv hvt
      · -- a `pop_with` waits for the top
        rw [hpop] at hw
        simp [wants, code] at hw
        exact absurd hw.symm h1
      · obtain rfl : i = j := by
          rw [hi] at hw
          simpa using hw
        refine .child hi1 hhalf hw (ih (i / 2) (by omega) (by omega) hv ?_)
        obtain rfl | ⟨rfl, hleft⟩ := hcase
        · exact hj'
        · -- nobody waits for the left child of a node that `t` holds while it has locked it
          obtain ⟨w, hw', hwv⟩ := hv.pred
          obtain ⟨j'', -, hpop | ⟨i', hi1', hi', hhalf', -⟩⟩ := onCycle_edge hinv hw' hwv
          · rw [hpop] at hj'
            simp [wants, code] at hj'
            omega
          · obtain rfl : i' = i - 1 := by
              rw [hi'] at hj'
              simpa using hj'
            have hsame : (i - 1) / 2 = i / 2 := by omega
            rw [hsame, hhalf] at hhalf'
            obtain rfl := Option.some.inj hhalf'
            rw [hw] at hj'
            simp at hj'
            omega

/-- Along a jammed path threads wait for each other, from the holder of the top on. -/
theorem Jammed.waits (hj : Jammed n s j) (ht : s.locks (.node j) = some t) :
    ∃ u, s.locks (.node 1) = some u ∧ Relation.ReflTransGen (Waits n s) u t := by
  induction hj generalizing t with
  | top => exact ⟨t, ht, .refl⟩
  | child _ hlock hwant _ ih =>
    obtain ⟨u, hu, hpath⟩ := ih hlock
    exact ⟨u, hu, hpath.tail ⟨_, hwant, ht⟩⟩

/-- The node whose lock a thread waits for. -/
def nodeOf : Option Lock → ℕ
  | some (.node i) => i
  | _ => 0

/-- **A deadlock is a trapped `pop_with`.** -/
theorem Inv.deadlock_iff (hinv : Inv n s) : Deadlock n s ↔ Trapped n s := by
  constructor
  · intro hd
    -- every thread on a cycle but a `pop_with` waits for a greater node than the ones it holds
    obtain ⟨t, ht, b, hb⟩ := exists_onCycle (P := fun t => ∃ b, s.thr t = .popTop b)
      (f := fun t => nodeOf (wants n t (s.thr t))) hd
      fun t u ht htu _ hu => by
        obtain ⟨j, hj, hpop | ⟨i, h1, hi, -, hcase⟩⟩ := onCycle_edge hinv ht htu
        · exact absurd ⟨j, hpop⟩ hu
        · simp only [hj, hi, nodeOf]
          omega
    obtain ⟨v, hv, hvt⟩ := ht.pred
    obtain ⟨j, hj, hpop | ⟨i, h1, hi, -⟩⟩ := onCycle_edge hinv hv hvt
    · obtain rfl : b = j := by
        rw [hb] at hpop
        simpa using hpop
      have hok := hinv.ok t
      rw [hb] at hok
      exact ⟨t, b, hb, jammed_of_onCycle hinv (Nat.lt_of_succ_lt hok.1) hv hj⟩
    · rw [hb] at hi
      simp [wants, code] at hi
      omega
  · rintro ⟨t, b, hb, hjam⟩
    have hheld : s.locks (.node b) = some t := by
      rw [hinv.owned]
      simp [hb, holds]
    obtain ⟨u, hu, hpath⟩ := hjam.waits hheld
    have hwant : wants n t (s.thr t) = some (.node 1) := by rw [hb]; rfl
    exact ⟨t, Relation.TransGen.head' ⟨_, hwant, hu⟩ hpath⟩

end Cycle

/-- **The heap is free of deadlock exactly where no `pop_with` is trapped.** -/
theorem not_deadlock_iff {nCapacity : ℕ} {tr : List (Entry State Tid Event)} {s : State}
    (hrun : Run (concurrentHeap nCapacity) tr s) :
    ¬Deadlock (ceil2 nCapacity) s ↔ ¬Trapped (ceil2 nCapacity) s :=
  not_congr (Inv.of_run hrun).deadlock_iff

/-- One value is stored, and a thread storing a second one has locked the top to compare it with
slot 2.  A `delete_min` has locked slot 2 as its bottom, and takes `steps` more steps. -/
def pushMeetsPop (steps : ℕ) : List Move :=
  turn 0 (some (.insert 7)) 10 ++ turn 1 (some (.insert 5)) 7 ++
    turn 2 (some .delete_min) (3 + steps)

/-- A thread has locked its bottom and waits for the top. -/
def Pc.waitsForTop : Pc → Bool
  | .popTop _ => true
  | _ => false

theorem not_deadlock_iff_pushMeetsPop : ∃ tr s, Run (concurrentHeap 4) tr s ∧
    Waits (ceil2 4) s 1 2 ∧ ¬Deadlock (ceil2 4) s := by
  obtain ⟨tr, s, hrun, hp⟩ := exists_run_of_schedule 4 (pushMeetsPop 1)
    (fun c => decide (wants (ceil2 4) 1 (c.2.thr 1) = some (.node 2) ∧
      c.2.locks (.node 2) = some 2 ∧ ∀ x ∈ c.1, (c.2.thr x.who).waitsForTop = false))
    (by decide +kernel)
  obtain ⟨hwant, hlock, hnone⟩ := of_decide_eq_true hp
  refine ⟨tr, s, hrun, ⟨_, hwant, hlock⟩, (not_deadlock_iff hrun).mpr ?_⟩
  rintro ⟨t, b, hb, -⟩
  have hfalse := forall_thread (p := fun pc => pc.waitsForTop = false) hrun rfl hnone t
  rw [hb] at hfalse
  cases hfalse

theorem exists_deadlock : ∃ nCapacity tr s, Run (concurrentHeap nCapacity) tr s ∧
    Deadlock (ceil2 nCapacity) s := by
  obtain ⟨tr, s, hrun, hp⟩ := exists_run_of_schedule 4 (pushMeetsPop 2)
    (fun c => decide (c.2.thr 2 = .popTop 2 ∧ c.2.locks (.node (2 / 2)) = some 1 ∧
      wants (ceil2 4) 1 (c.2.thr 1) = some (.node 2))) (by decide +kernel)
  obtain ⟨hpop, hlock, hwant⟩ := of_decide_eq_true hp
  exact ⟨4, tr, s, hrun, (Inv.of_run hrun).deadlock_iff.mpr
    ⟨2, 2, hpop, .child le_rfl hlock hwant .top⟩⟩

end ConcurrentPQ.Heap

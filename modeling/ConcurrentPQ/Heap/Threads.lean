import ConcurrentPQ.Heap.Contents
import ConcurrentPQ.Lib.Transition
import ConcurrentPQ.Lib.Locks

/-!
# Threads using the heap

`Heap::insert` and `Heap::delete_min` as sequences of lock acquisitions, lock releases and bodies
that run under the locks taken so far.

* `Pc`, `code` — where a thread stands in `push`, `pop_with` and the two `heapify` functions, and
  what it does next;
* `holds`, `wants` — the locks a thread holds there, and the lock it is waiting for;
* `State`, `Step`, `concurrentHeap` — the heap as a system of threads;
* `move`, `step_of_move` — runs that are carried out.
-/

namespace ConcurrentPQ.Heap

open ConcurrentPQ.Transition ConcurrentPQ.Locks

/-- The spin locks: the size lock `m_Lock` and the lock of every node. -/
inductive Lock where
  | size
  | node (i : ℕ)
  deriving DecidableEq, Repr

/-- What a call returns: the value pushed and the answer of `push`, or what `pop_with` wrote to
`dest`. -/
inductive Answer where
  | pushed (v : ℕ) (accepted : Bool)
  | popped (dest : Option ℕ)
  deriving DecidableEq, Repr

/-- Program counters, with the locals that are still needed. -/
inductive Pc where
  | idle
  -- push
  | pushLock (v : ℕ)
  | pushCheck (v : ℕ)
  | pushFull (v : ℕ)
  | pushNode (v i : ℕ)
  | pushSize (v i : ℕ)
  | pushWrite (v i : ℕ)
  | pushDone (v i : ℕ)
  -- heapify_after_push
  | upParent (v i : ℕ)
  | upItem (v i : ℕ)
  | upBody (v i : ℕ)
  | upUnlockItem (v i next : ℕ)
  | upUnlockParent (v i next : ℕ)
  | topLock (v : ℕ)
  | topBody (v : ℕ)
  | topUnlock (v : ℕ)
  -- pop_with
  | popLock
  | popCheck
  | popNone
  | popBottom (b : ℕ)
  | popSize (b : ℕ)
  | popClear (b : ℕ)
  | popOnly (b dest : ℕ)
  | popTop (b : ℕ)
  | popMove (b : ℕ)
  | popStaleBottom (b dest : ℕ)
  | popStaleTop (dest : ℕ)
  | popUnlockBottom (b dest : ℕ)
  | popMark (dest : ℕ)
  -- heapify_after_pop
  | downLeft (p dest : ℕ)
  | downRight (p dest : ℕ)
  | downChoose (p dest : ℕ)
  | downEmptyRight (p dest : ℕ)
  | downEmptyLeft (p dest : ℕ)
  | downSibling (p q dest : ℕ)
  | downCmp (p q dest : ℕ)
  | downStep (p q dest : ℕ)
  | downStop (p q dest : ℕ)
  | downUnlock (p dest : ℕ)
  | done (a : Answer)
  deriving DecidableEq, Repr

/-- What the locks protect: the item counter and the array. -/
structure Shared where
  m_ItemCounter : BitReverseCounter
  m_Heap : Nodes

/-- One step of a thread inside a call. -/
inductive Instr where
  | acquire (l : Lock) (k : Pc)
  | release (l : Lock) (k : Pc)
  | body (f : Shared → Shared × Pc)
  | ret (a : Answer)
  | none

/-- The test of the loop of `heapify_after_push`, and what follows the loop. -/
def upTest (v i : ℕ) : Pc :=
  if 1 < i then .upParent v i else if i = 1 then .topLock v else .done (.pushed v true)

/-- The test of the loop of `heapify_after_pop`, for a buffer of size `n`. -/
def downTest (n p dest : ℕ) : Pc := if p < n / 2 then .downLeft p dest else .downUnlock p dest

/-- The child of `p` that was not chosen. -/
def sibling (p q : ℕ) : ℕ := if q = p * 2 then p * 2 + 1 else p * 2

/-- `push` with the size lock held: the slot for the new item. -/
def checkFull (n v : ℕ) (s : Shared) : Shared × Pc :=
  if n - 1 ≤ s.m_ItemCounter.value then (s, .pushFull v)
  else
    let c := s.m_ItemCounter.inc
    ({ s with m_ItemCounter := c }, .pushNode v c.reversed_value)

/-- `pop_with` with the size lock held: the bottom of the heap. -/
def checkEmpty (s : Shared) : Shared × Pc :=
  if s.m_ItemCounter.value = 0 then (s, .popNone)
  else ({ s with m_ItemCounter := s.m_ItemCounter.dec }, .popBottom s.m_ItemCounter.reversed_value)

/-- `pop_with` with the bottom locked: it is marked empty. -/
def clearBottom (b : ℕ) (s : Shared) : Shared × Pc :=
  let h := setTag s.m_Heap b .empty
  ({ s with m_Heap := h }, if b = 1 then .popOnly b (h b).m_Value else .popTop b)

/-- `pop_with` with the bottom and the top locked: the value of the top is the answer, and the value
of the bottom takes its place unless the top is empty. -/
def moveTop (b : ℕ) (s : Shared) : Shared × Pc :=
  let dest := (s.m_Heap 1).m_Value
  if (s.m_Heap 1).m_nTag = .empty then (s, .popStaleBottom b dest)
  else
    ({ s with m_Heap := setValue s.m_Heap 1 (s.m_Heap b).m_Value }, .popUnlockBottom b dest)

/-- `heapify_after_pop` with the parent and both children locked. -/
def lookAtChildren (p dest : ℕ) (s : Shared) : Shared × Pc :=
  match chooseChild s.m_Heap p with
  | none => (s, .downEmptyRight p dest)
  | some q => (s, .downSibling p q dest)

/-- `heapify_after_pop` with the parent and the chosen child locked. -/
def compareChild (p q dest : ℕ) (s : Shared) : Shared × Pc :=
  if childFirst s.m_Heap p q then ({ s with m_Heap := swap s.m_Heap p q }, .downStep p q dest)
  else (s, .downStop p q dest)

/-- What thread `t` does next, with a buffer of size `n`. -/
def code (n : ℕ) (t : Tid) : Pc → Instr
  | .idle => .none
  -- push
  | .pushLock v => .acquire .size (.pushCheck v)
  | .pushCheck v => .body (checkFull n v)
  | .pushFull v => .release .size (.done (.pushed v false))
  | .pushNode v i => .acquire (.node i) (.pushSize v i)
  | .pushSize v i => .release .size (.pushWrite v i)
  | .pushWrite v i => .body fun s =>
      ({ s with m_Heap := Function.update s.m_Heap i ⟨v, .owner t⟩ }, .pushDone v i)
  | .pushDone v i => .release (.node i) (upTest v i)
  -- heapify_after_push
  | .upParent v i => .acquire (.node (i / 2)) (.upItem v i)
  | .upItem v i => .acquire (.node i) (.upBody v i)
  | .upBody v i => .body fun s =>
      let r := Heap.upBody s.m_Heap i t
      ({ s with m_Heap := r.1 }, .upUnlockItem v i r.2.1)
  | .upUnlockItem v i next => .release (.node i) (.upUnlockParent v i next)
  | .upUnlockParent v i next => .release (.node (i / 2)) (upTest v next)
  | .topLock v => .acquire (.node 1) (.topBody v)
  | .topBody v => .body fun s => ({ s with m_Heap := Heap.topBody s.m_Heap t }, .topUnlock v)
  | .topUnlock v => .release (.node 1) (.done (.pushed v true))
  -- pop_with
  | .popLock => .acquire .size .popCheck
  | .popCheck => .body checkEmpty
  | .popNone => .release .size (.done (.popped none))
  | .popBottom b => .acquire (.node b) (.popSize b)
  | .popSize b => .release .size (.popClear b)
  | .popClear b => .body (clearBottom b)
  | .popOnly b dest => .release (.node b) (.done (.popped (some dest)))
  | .popTop b => .acquire (.node 1) (.popMove b)
  | .popMove b => .body (moveTop b)
  | .popStaleBottom b dest => .release (.node b) (.popStaleTop dest)
  | .popStaleTop dest => .release (.node 1) (.done (.popped (some dest)))
  | .popUnlockBottom b dest => .release (.node b) (.popMark dest)
  | .popMark dest => .body fun s =>
      ({ s with m_Heap := setTag s.m_Heap 1 .available }, downTest n 1 dest)
  -- heapify_after_pop
  | .downLeft p dest => .acquire (.node (p * 2)) (.downRight p dest)
  | .downRight p dest => .acquire (.node (p * 2 + 1)) (.downChoose p dest)
  | .downChoose p dest => .body (lookAtChildren p dest)
  | .downEmptyRight p dest => .release (.node (p * 2 + 1)) (.downEmptyLeft p dest)
  | .downEmptyLeft p dest => .release (.node (p * 2)) (.downUnlock p dest)
  | .downSibling p q dest => .release (.node (sibling p q)) (.downCmp p q dest)
  | .downCmp p q dest => .body (compareChild p q dest)
  | .downStep p q dest => .release (.node p) (downTest n q dest)
  | .downStop p q dest => .release (.node q) (.downUnlock p dest)
  | .downUnlock p dest => .release (.node p) (.done (.popped (some dest)))
  | .done a => .ret a

/-- The locks a thread holds. -/
def holds : Pc → List Lock
  | .pushCheck _ | .pushFull _ | .pushNode _ _ | .popCheck | .popNone | .popBottom _ => [.size]
  | .pushSize _ i | .popSize i => [.size, .node i]
  | .pushWrite _ i | .pushDone _ i => [.node i]
  | .upItem _ i | .upUnlockParent _ i _ => [.node (i / 2)]
  | .upBody _ i | .upUnlockItem _ i _ => [.node (i / 2), .node i]
  | .topBody _ | .topUnlock _ => [.node 1]
  | .popClear b | .popOnly b _ | .popTop b => [.node b]
  | .popMove b | .popStaleBottom b _ | .popUnlockBottom b _ => [.node b, .node 1]
  | .popStaleTop _ | .popMark _ => [.node 1]
  | .downLeft p _ | .downUnlock p _ => [.node p]
  | .downRight p _ | .downEmptyLeft p _ => [.node p, .node (p * 2)]
  | .downChoose p _ | .downEmptyRight p _ => [.node p, .node (p * 2), .node (p * 2 + 1)]
  | .downSibling p q _ => [.node p, .node q, .node (sibling p q)]
  | .downCmp p q _ | .downStop p q _ | .downStep p q _ => [.node p, .node q]
  | _ => []

/-- The lock a thread is waiting for. -/
def wants (n : ℕ) (t : Tid) (pc : Pc) : Option Lock :=
  match code n t pc with
  | .acquire l _ => some l
  | _ => none

/-! ### The system -/

/-- What a step shows. -/
inductive Event where
  | call (op : Op)
  | ret (a : Answer)
  | internal
  deriving DecidableEq

structure State where
  sh : Shared
  locks : Lock → Option Tid
  thr : Tid → Pc

/-- The first program counter of a call. -/
def start : Op → Pc
  | .insert v => .pushLock v
  | .delete_min => .popLock

/-- One step of thread `t`: it makes a call, acquires a lock that is free, releases a lock, runs a
body, or returns. -/
inductive Step (n : ℕ) : State → Tid → Event → State → Prop
  | call {s : State} {t : Tid} {op : Op} : s.thr t = .idle →
      Step n s t (.call op) { s with thr := Function.update s.thr t (start op) }
  | acquire {s : State} {t : Tid} {l : Lock} {k : Pc} : code n t (s.thr t) = .acquire l k →
      s.locks l = none → Step n s t .internal
        ⟨s.sh, Function.update s.locks l (some t), Function.update s.thr t k⟩
  | release {s : State} {t : Tid} {l : Lock} {k : Pc} : code n t (s.thr t) = .release l k →
      Step n s t .internal ⟨s.sh, Function.update s.locks l none, Function.update s.thr t k⟩
  | body {s : State} {t : Tid} {f : Shared → Shared × Pc} : code n t (s.thr t) = .body f →
      Step n s t .internal ⟨(f s.sh).1, s.locks, Function.update s.thr t (f s.sh).2⟩
  | ret {s : State} {t : Tid} {a : Answer} : code n t (s.thr t) = .ret a →
      Step n s t (.ret a) { s with thr := Function.update s.thr t .idle }

/-- A heap just constructed, used by no thread. -/
structure Init (s : State) : Prop where
  counter : s.sh.m_ItemCounter = .init
  empty : ∀ i, (s.sh.m_Heap i).m_nTag = .empty
  free : ∀ l, s.locks l = none
  idle : ∀ t, s.thr t = .idle

/-- The object `Heap(nCapacity)` with its threads. -/
def concurrentHeap (nCapacity : ℕ) : System State Tid Event where
  init := Init
  step := Step (ceil2 nCapacity)

/-! ### Schedules -/

/-- A move of a schedule: a thread makes a call, or takes its next step. -/
inductive Move where
  | call (t : Tid) (op : Op)
  | run (t : Tid)

/-- Carry out a move, if it is possible. -/
def move (n : ℕ) (s : State) : Move → Option (Tid × Event × State)
  | .call t op =>
    if s.thr t = .idle then
      some (t, .call op, { s with thr := Function.update s.thr t (start op) })
    else none
  | .run t =>
    match code n t (s.thr t) with
    | .acquire l k =>
      if s.locks l = none then
        some (t, .internal, ⟨s.sh, Function.update s.locks l (some t), Function.update s.thr t k⟩)
      else none
    | .release l k =>
      some (t, .internal, ⟨s.sh, Function.update s.locks l none, Function.update s.thr t k⟩)
    | .body f =>
      some (t, .internal, ⟨(f s.sh).1, s.locks, Function.update s.thr t (f s.sh).2⟩)
    | .ret a => some (t, .ret a, { s with thr := Function.update s.thr t .idle })
    | .none => none

theorem step_of_move {n : ℕ} {s s' : State} {a : Move} {t : Tid} {e : Event}
    (h : move n s a = some (t, e, s')) : Step n s t e s' := by
  cases a with
  | call u op =>
    rw [move] at h
    split at h
    · obtain ⟨rfl, rfl, rfl⟩ := h
      exact .call ‹_›
    · cases h
  | run u =>
    rw [move] at h
    split at h
    · split at h
      · obtain ⟨rfl, rfl, rfl⟩ := h
        exact .acquire ‹_› ‹_›
      · cases h
    · obtain ⟨rfl, rfl, rfl⟩ := h
      exact .release ‹_›
    · obtain ⟨rfl, rfl, rfl⟩ := h
      exact .body ‹_›
    · obtain ⟨rfl, rfl, rfl⟩ := h
      exact .ret ‹_›
    · cases h

/-- A new heap. -/
def fresh : State := ⟨⟨.init, fun _ => ⟨0, .empty⟩⟩, fun _ => none, fun _ => .idle⟩

theorem fresh_init : Init fresh := ⟨rfl, fun _ => rfl, fun _ => rfl, fun _ => rfl⟩

/-- A thread takes a number of steps, after a call if one is given. -/
def turn (t : Tid) (op : Option Op) (n : ℕ) : List Move :=
  (op.map (Move.call t)).toList ++ List.replicate n (.run t)

/-- What holds of the outcome of a schedule from a new heap holds at the end of some run. -/
theorem exists_run_of_schedule (nCapacity : ℕ) (as : List Move)
    (p : List (Entry State Tid Event) × State → Bool)
    (h : (execute (move (ceil2 nCapacity)) as ([], fresh)).any p = true) :
    ∃ tr s, Run (concurrentHeap nCapacity) tr s ∧ p (tr, s) = true := by
  rw [Option.any_eq_true] at h
  obtain ⟨⟨tr, s⟩, hc, hp⟩ := h
  exact ⟨tr, s, .execute (fun _ _ _ _ _ => step_of_move) (.start fresh_init) hc, hp⟩

/-- A thread that takes no step in a run stays idle. -/
theorem idle_of_run {nCapacity : ℕ} {tr : List (Entry State Tid Event)} {s : State}
    (hrun : Run (concurrentHeap nCapacity) tr s) {t : Tid} (ht : t ∉ tr.map Entry.who) :
    s.thr t = .idle := by
  induction hrun with
  | start hi => exact hi.idle t
  | @step tr s s' u e _ hs ih =>
    rw [List.map_cons, List.mem_cons, not_or] at ht
    have hold := ih ht.2
    have hne : t ≠ u := ht.1
    cases hs <;> exact (Function.update_of_ne hne ..).trans hold

/-- What holds of idle threads and of all threads that took a step in a run holds of all threads. -/
theorem forall_thread {nCapacity : ℕ} {tr : List (Entry State Tid Event)} {s : State}
    (hrun : Run (concurrentHeap nCapacity) tr s) {p : Pc → Prop} (hidle : p .idle)
    (h : ∀ x ∈ tr, p (s.thr x.who)) (t : Tid) : p (s.thr t) := by
  by_cases ht : t ∈ tr.map Entry.who
  · obtain ⟨x, hx, rfl⟩ := List.mem_map.mp ht
    exact h x hx
  · rw [idle_of_run hrun ht]
    exact hidle

end ConcurrentPQ.Heap

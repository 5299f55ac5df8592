import ConcurrentPQ.Heap.Counter
import ConcurrentPQ.Lib.Pointer
import Mathlib.Algebra.BigOperators.Group.Finset.Basic
import Mathlib.Order.Interval.Finset.Nat
import Mathlib.Order.Lattice.Nat
import Mathlib.Data.Multiset.Lattice

/-!
# The array heap and the locked standard heap

`cds::container::MSPriorityQueue` with the traits of `Heap`, and `GlobalLock`.  The parts of `push`
and `pop_with` that run under one set of locks are functions of their own, so that the sequential
functions of this file and the threads of `ConcurrentPQ.Heap.Threads` share them.

* `Tag`, `Node`, `cmp` — heap nodes and the comparator, `std::greater` turned into a three-way test;
* `log2ceil`, `ceil2` — the size of the buffer, with the shift of an `int` as in the source;
* `upBody`, `topBody`, `chooseChild` — one round of `heapify_after_push` and `heapify_after_pop`;
* `push`, `pop_with` — the calls of one thread on its own;
* `GlobalLock.insert`, `GlobalLock.delete_min` — `std::priority_queue<uint32_t>` under a mutex.
-/

namespace ConcurrentPQ.Heap

/-- `m_nTag`: `Empty`, `Available`, or the thread that moves the item up, as `getCurrentThreadId`
returns it. -/
inductive Tag where
  | empty
  | available
  | owner (t : Tid)
  deriving DecidableEq, Repr

/-- `struct node` without its lock. -/
structure Node where
  m_Value : ℕ
  m_nTag : Tag
  deriving DecidableEq, Repr

/-- The array `m_Heap`. -/
abbrev Nodes := ℕ → Node

/-- `log2floor` of `int_algo.h`. -/
def log2floor (n : ℕ) : ℕ := Nat.log 2 n

/-- `size_t( 1 << i )`: the shift is one of `int`, whose count is taken modulo 32, and the sign is
extended. -/
def intShift (i : ℕ) : ℕ := ((1#32 <<< (i % 32)).signExtend 64).toNat

/-- `log2ceil`. -/
def log2ceil (n : ℕ) : ℕ := if intShift (log2floor n) < n then log2floor n + 1 else log2floor n

/-- `ceil2`: the buffer `Heap(c)` allocates.  The shift is one of `size_t`, whose count is taken
modulo 64. -/
def ceil2 (n : ℕ) : ℕ := 2 ^ (log2ceil n % 64)

/-- `options::less`, which is `std::greater<uint32_t>`: a min-heap. -/
def less (a b : ℕ) : Bool := decide (b < a)

/-- `make_comparator_from_less`. -/
def cmp (a b : ℕ) : ℤ := if less a b then -1 else if less b a then 1 else 0

theorem cmp_pos {a b : ℕ} : 0 < cmp a b ↔ a < b := by
  unfold cmp less
  split
  · rename_i h
    have : b < a := by simpa using h
    constructor
    · intro h; omega
    · intro h; omega
  · split
    · rename_i h
      have : a < b := by simpa using h
      exact ⟨fun _ => this, fun _ => by decide⟩
    · rename_i h
      have : ¬a < b := by simpa using h
      exact ⟨fun h => absurd h (by decide), fun h => absurd h this⟩

/-- `m_nTag` of a node overwritten. -/
def setTag (h : Nodes) (i : ℕ) (g : Tag) : Nodes :=
  Function.update h i { h i with m_nTag := g }

/-- The value of a node overwritten. -/
def setValue (h : Nodes) (i : ℕ) (v : ℕ) : Nodes :=
  Function.update h i { h i with m_Value := v }

/-- `std::swap` of the tags and `swap_policy` of the values. -/
def swap (h : Nodes) (i j : ℕ) : Nodes := Function.update (Function.update h i (h j)) j (h i)

/-- One round of `heapify_after_push`, with the parent and the item locked.  The answer is the next
`i`, and `bProgress`. -/
def upBody (h : Nodes) (i : ℕ) (curId : Tid) : Nodes × ℕ × Bool :=
  let nParent := i / 2
  if (h nParent).m_nTag = .available ∧ (h i).m_nTag = .owner curId then
    if 0 < cmp (h i).m_Value (h nParent).m_Value then (swap h i nParent, nParent, true)
    else (setTag h i .available, 0, true)
  else if (h nParent).m_nTag = .empty then (h, 0, true)
  else if (h i).m_nTag ≠ .owner curId then (h, nParent, true)
  else (h, i, false)

/-- The end of `heapify_after_push`, with the top locked. -/
def topBody (h : Nodes) (curId : Tid) : Nodes :=
  if (h 1).m_nTag = .owner curId then setTag h 1 .available else h

/-- The child `heapify_after_pop` looks at, with both children locked: none if the left one is
empty. -/
def chooseChild (h : Nodes) (nParent : ℕ) : Option ℕ :=
  let nLeft := nParent * 2
  let nRight := nLeft + 1
  if (h nLeft).m_nTag = .empty then none
  else if (h nRight).m_nTag = .empty ∨ 0 < cmp (h nLeft).m_Value (h nRight).m_Value then some nLeft
  else some nRight

/-- The child has a higher priority than its parent. -/
def childFirst (h : Nodes) (nParent nChild : ℕ) : Bool :=
  decide (0 < cmp (h nChild).m_Value (h nParent).m_Value)

/-! ### One thread on its own -/

/-- `heapify_after_push`, at most `fuel` rounds. -/
def heapify_after_push (curId : Tid) : ℕ → Nodes → ℕ → Option Nodes
  | fuel, h, i =>
    if 1 < i then
      match fuel with
      | 0 => none
      | fuel + 1 =>
        let r := upBody h i curId
        heapify_after_push curId fuel r.1 r.2.1
    else some (if i = 1 then topBody h curId else h)

/-- `heapify_after_pop`, at most `fuel` rounds. -/
def heapify_after_pop (capacity : ℕ) : ℕ → Nodes → ℕ → Option Nodes
  | fuel, h, nParent =>
    if nParent < capacity / 2 then
      match fuel with
      | 0 => none
      | fuel + 1 =>
        match chooseChild h nParent with
        | none => some h
        | some nChild =>
          if childFirst h nParent nChild then
            heapify_after_pop capacity fuel (swap h nParent nChild) nChild
          else some h
    else some h

/-- `MSPriorityQueue` without its locks: the counter, the array, and the size of its buffer. -/
structure MSPriorityQueue where
  m_ItemCounter : BitReverseCounter
  m_Heap : Nodes
  buffer : ℕ

namespace MSPriorityQueue

/-- The constructor of `Heap`; the values of fresh nodes are never read. -/
def new (nCapacity : ℕ) : MSPriorityQueue := ⟨.init, fun _ => ⟨0, .empty⟩, ceil2 nCapacity⟩

/-- `capacity()`: `m_Heap[0]` is not used. -/
def capacity (q : MSPriorityQueue) : ℕ := q.buffer - 1

/-- `push`. -/
def push (q : MSPriorityQueue) (curId : Tid) (val : ℕ) : Option (MSPriorityQueue × Bool) :=
  if q.capacity ≤ q.m_ItemCounter.value then some (q, false)
  else
    let c := q.m_ItemCounter.inc
    let i := c.reversed_value
    let h := Function.update q.m_Heap i ⟨val, .owner curId⟩
    (heapify_after_push curId q.buffer h i).map fun h => (⟨c, h, q.buffer⟩, true)

/-- `pop_with`; the answer is the value written to `dest`, if the call returns true. -/
def pop_with (q : MSPriorityQueue) : Option (MSPriorityQueue × Option ℕ) :=
  if q.m_ItemCounter.value = 0 then some (q, none)
  else
    let nBottom := q.m_ItemCounter.reversed_value
    let c := q.m_ItemCounter.dec
    let h := setTag q.m_Heap nBottom .empty
    if nBottom = 1 then some (⟨c, h, q.buffer⟩, some (h nBottom).m_Value)
    else
      let dest := (h 1).m_Value
      if (h 1).m_nTag = .empty then some (⟨c, h, q.buffer⟩, some dest)
      else
        let h := setTag (setValue h 1 (h nBottom).m_Value) 1 .available
        (heapify_after_pop q.buffer q.buffer h 1).map fun h => (⟨c, h, q.buffer⟩, some dest)

end MSPriorityQueue

/-! ### GlobalLock -/

/-- `GlobalLock`: the elements of `std::priority_queue<uint32_t>`, whose `top()` is a greatest
element and whose `pop()` removes it. -/
structure GlobalLock where
  m_q : Multiset ℕ

namespace GlobalLock

def new : GlobalLock := ⟨0⟩

/-- `insert`. -/
def insert (q : GlobalLock) (v : ℕ) : GlobalLock := ⟨v ::ₘ q.m_q⟩

/-- `top()` with the default comparator `std::less`. -/
def top (q : GlobalLock) : ℕ := q.m_q.sup

/-- `delete_min`; the answer is the value written to `v`, if the call returns true. -/
def delete_min (q : GlobalLock) : GlobalLock × Option ℕ :=
  if q.m_q = 0 then (q, none) else (⟨q.m_q.erase q.top⟩, some q.top)

end GlobalLock

/-! ### Sequences of calls -/

/-- A call of the wrapper classes. -/
inductive Op where
  | insert (v : ℕ)
  | delete_min
  deriving DecidableEq

/-- The answers of `GlobalLock` to the `delete_min` calls of a sequence. -/
def GlobalLock.run : GlobalLock → List Op → List (Option ℕ)
  | _, [] => []
  | q, .insert v :: ops => GlobalLock.run (q.insert v) ops
  | q, .delete_min :: ops => q.delete_min.2 :: GlobalLock.run q.delete_min.1 ops

/-- The answers of `Heap` to the `delete_min` calls of a sequence made by thread `curId`. -/
def MSPriorityQueue.run (curId : Tid) : MSPriorityQueue → List Op → Option (List (Option ℕ))
  | _, [] => some []
  | q, .insert v :: ops => (q.push curId v).bind fun r => MSPriorityQueue.run curId r.1 ops
  | q, .delete_min :: ops =>
      q.pop_with.bind fun r => (MSPriorityQueue.run curId r.1 ops).map (r.2 :: ·)

end ConcurrentPQ.Heap

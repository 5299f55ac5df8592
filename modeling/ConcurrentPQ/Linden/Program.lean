import ConcurrentPQ.Lib.Pointer
import ConcurrentPQ.Lib.Transition
import Mathlib.Data.Int.Notation

/-!
# The Linden queue as a shared-memory program

`lib/linden/prioq.c`, instruction by instruction.  A thread is a program counter `Pc` that carries
the C locals still in use; `code` gives the one shared-memory access the thread performs next and
what it does with the answer; `exec` performs that access.  Everything between two accesses is local
computation and is folded into the continuation.

* `Node` — `node_t`;
* `Instr`, `exec` — loads, stores, compare-and-swap, fetch-and-or, allocation and `free_node`;
* `Pc`, `code` — `insert` with `alloc_node` and `locate_preds`, `deletemin` with `restructure` and
  the recycling loop;
* `Step`, `lindenQueue` — any number of threads, each calling `Linden::insert` and
  `Linden::delete_min` again and again.

Node memory is not recycled: `alloc` hands out a fresh address and `free_node` only records the node.
The bookkeeping of `critical_enter`, `critical_exit` and `gc_free` touches no field read here.  The
`assert`s of the source perform no access in the build of the benchmark (`Release`, `NDEBUG`).
Reading through a null or a marked pointer stops the thread in `Pc.crashed`.
-/

namespace ConcurrentPQ.Linden

open ConcurrentPQ.Transition

/-- `pq->head`. -/
abbrev head : NodeId := 1

/-- `pq->tail`. -/
abbrev tail : NodeId := 2

/-- The first address `gc_alloc` may hand out. -/
abbrev firstNode : NodeId := 3

/-- `NUM_LEVELS` of `prioq.h`. -/
abbrev NUM_LEVELS : ℕ := 32

/-- `SENTINEL_KEYMIN` of `prioq.h`. -/
abbrev SENTINEL_KEYMIN : ℕ := 0

/-- `SENTINEL_KEYMAX` of `prioq.h`: the complement of `1UL`. -/
abbrev SENTINEL_KEYMAX : ℕ := 0xFFFFFFFFFFFFFFFE

/-- Narrowing to the 32-bit `pkey_t`. -/
abbrev pkey (k : ℕ) : ℕ := k % 0x100000000

/-- `get_unmarked_ref`. -/
def get_unmarked_ref (r : Ref) : Ref := ⟨r.ptr, false⟩

/-- `get_marked_ref`. -/
def get_marked_ref (r : Ref) : Ref := ⟨r.ptr, true⟩

/-- `is_marked_ref`. -/
def is_marked_ref (r : Ref) : Bool := r.mark

/-- `node_t`; only the first `level` entries of `next` exist. -/
structure Node where
  k : ℕ
  level : ℕ
  inserting : Bool
  v : ℕ
  next : ℕ → Ref
  deriving Inhabited

/-- Node memory. -/
abbrev Mem := NodeId → Node

/-! ### Instructions -/

/-- One access to shared memory, with the continuation that receives the answer. -/
inductive Instr (π : Type) where
  | loadNext (n : NodeId) (i : ℕ) (c : Ref → π)
  | loadKey (n : NodeId) (c : ℕ → π)
  | loadVal (n : NodeId) (c : ℕ → π)
  | loadLevel (n : NodeId) (c : ℕ → π)
  | loadInserting (n : NodeId) (c : Bool → π)
  | storeNext (n : NodeId) (i : ℕ) (w : Ref) (c : π)
  | clearNext (n : NodeId) (lvl : ℕ) (c : π)
  | storeKey (n : NodeId) (k : ℕ) (c : π)
  | storeVal (n : NodeId) (v : ℕ) (c : π)
  | storeLevel (n : NodeId) (lvl : ℕ) (c : π)
  | storeInserting (n : NodeId) (b : Bool) (c : π)
  | casNext (n : NodeId) (i : ℕ) (old new : Ref) (c : Bool → π)
  | fetchOrNext (n : NodeId) (i : ℕ) (c : Ref → π)
  | alloc (c : NodeId → π)
  | freeNode (n : NodeId) (c : π)
  | done (c : π)

/-- The node an instruction accesses; those that access none name `head`. -/
def Instr.target {π : Type} : Instr π → NodeId
  | .loadNext n _ _ | .loadKey n _ | .loadVal n _ | .loadLevel n _ | .loadInserting n _
  | .storeNext n _ _ _ | .clearNext n _ _ | .storeKey n _ _ | .storeVal n _ _ | .storeLevel n _ _
  | .storeInserting n _ _ | .casNext n _ _ _ _ | .fetchOrNext n _ _ | .freeNode n _ => n
  | .alloc _ | .done _ => head

/-- Memory with `next[i]` of node `n` overwritten. -/
def setNext (m : Mem) (n : NodeId) (i : ℕ) (w : Ref) : Mem :=
  Function.update m n { m n with next := Function.update (m n).next i w }

/-- Memory with the other fields of node `n` changed by `g`. -/
def modify (m : Mem) (n : NodeId) (g : Node → Node) : Mem := Function.update m n (g (m n))

/-- `memset(n->next, 0, level * sizeof(node_t *))`. -/
def clear (m : Mem) (n : NodeId) (lvl : ℕ) : Mem :=
  modify m n fun x => { x with next := fun i => if i < lvl then ref NULL else x.next i }

/-- The shared part of the state: node memory, the next fresh address, and the nodes passed to
`free_node`. -/
structure Shared where
  mem : Mem
  brk : NodeId
  freed : List NodeId

/-- Perform one instruction. -/
def exec {π : Type} (s : Shared) : Instr π → Shared × π
  | .loadNext n i c => (s, c ((s.mem n).next i))
  | .loadKey n c => (s, c (s.mem n).k)
  | .loadVal n c => (s, c (s.mem n).v)
  | .loadLevel n c => (s, c (s.mem n).level)
  | .loadInserting n c => (s, c (s.mem n).inserting)
  | .storeNext n i w c => ({ s with mem := setNext s.mem n i w }, c)
  | .clearNext n lvl c => ({ s with mem := clear s.mem n lvl }, c)
  | .storeKey n k c => ({ s with mem := modify s.mem n fun x => { x with k := k } }, c)
  | .storeVal n v c => ({ s with mem := modify s.mem n fun x => { x with v := v } }, c)
  | .storeLevel n lvl c => ({ s with mem := modify s.mem n fun x => { x with level := lvl } }, c)
  | .storeInserting n b c =>
      ({ s with mem := modify s.mem n fun x => { x with inserting := b } }, c)
  | .casNext n i old new c =>
      if (s.mem n).next i = old then ({ s with mem := setNext s.mem n i new }, c true)
      else (s, c false)
  | .fetchOrNext n i c =>
      ({ s with mem := setNext s.mem n i (get_marked_ref ((s.mem n).next i)) },
        c ((s.mem n).next i))
  | .alloc c => ({ s with brk := s.brk + 1 }, c s.brk)
  | .freeNode n c => ({ s with freed := n :: s.freed }, c)
  | .done c => (s, c)

/-! ### Threads -/

/-- The locals of `insert`: its arguments, the level drawn by `alloc_node`, the new node, the arrays
`preds` and `succs`, and `del`. -/
structure Frame where
  k : ℕ
  v : ℕ
  lvl : ℕ
  new : NodeId
  preds : ℕ → NodeId
  succs : ℕ → NodeId
  del : NodeId

/-- The locals of `deletemin`. -/
structure DelFrame where
  obs_head : Ref
  x : NodeId
  nxt : Ref
  newhead : NodeId
  offset : ℕ
  v : ℕ

/-- Where `locate_preds` was called: before the level-0 insertion, or after a failed CAS on level
`i`. -/
inductive Site where
  | retry
  | upper (i : ℕ)
  deriving DecidableEq

/-- A call of the wrapper class: the key of `Linden::insert` with the level `alloc_node` will draw,
or `Linden::delete_min`. -/
inductive Op where
  | insert (v : ℕ) (lvl : ℕ)
  | delete_min
  deriving DecidableEq

/-- Program counters.  `loc*` is `locate_preds`, `dup*` the duplicate exit of `insert`, `up*` its
upper levels, `del*` is `deletemin`, `rs*` is `restructure`, `rc*` the recycling loop. -/
inductive Pc where
  | idle
  | crashed
  | insAlloc (k v lvl : ℕ)
  | insLevel (f : Frame)
  | insInserting (f : Frame)
  | insClear (f : Frame)
  | insKey (f : Frame)
  | insVal (f : Frame)
  | locNext (f : Frame) (site : Site) (x : NodeId) (i : ℕ)
  | locKey (f : Frame) (site : Site) (x : NodeId) (i : ℕ) (x_next : NodeId) (d : Bool)
  | locMark (f : Frame) (site : Site) (x : NodeId) (i : ℕ) (x_next : NodeId) (d : Bool)
  | dupKey (f : Frame)
  | dupMark (f : Frame)
  | dupPtr (f : Frame)
  | dupClear (f : Frame)
  | dupFree (f : Frame)
  | link0 (f : Frame)
  | cas0 (f : Frame)
  | upLevel (f : Frame) (i : ℕ)
  | upNew (f : Frame) (i : ℕ)
  | upSucc (f : Frame) (i : ℕ)
  | upStore (f : Frame) (i : ℕ)
  | upCas (f : Frame) (i : ℕ)
  | finish (f : Frame)
  | delObs
  | delLoad (d : DelFrame)
  | delInserting (d : DelFrame)
  | delFao (d : DelFrame)
  | delVal (d : DelFrame)
  | delCheck (d : DelFrame)
  | delSwing (d : DelFrame)
  | rsHead (d : DelFrame) (i : ℕ) (pred : Ref)
  | rsCur (d : DelFrame) (i : ℕ) (pred h : Ref)
  | rsTest (d : DelFrame) (i : ℕ) (pred h cur : Ref)
  | rsWalk (d : DelFrame) (i : ℕ) (pred h cur : Ref)
  | rsStep (d : DelFrame) (i : ℕ) (pred h : Ref)
  | rsCas (d : DelFrame) (i : ℕ) (pred h cur : Ref)
  | rcLoad (d : DelFrame) (cur : NodeId)
  | rcFree (d : DelFrame) (cur nxt : NodeId)
  | ret (v : Option ℕ)

/-- The first access of a call.  `linden_insert` passes its argument as key and as value. -/
def start : Op → Pc
  | .insert v lvl => .insAlloc v v lvl
  | .delete_min => .delObs

/-- The frame of `insert` before `alloc_node` returns. -/
def Frame.begin (k v lvl new : ℕ) : Frame :=
  ⟨k, v, lvl, new, fun _ => NULL, fun _ => NULL, NULL⟩

/-- Enter `locate_preds`: `del` is null, `x` is the head, `i` the topmost level. -/
def locate (f : Frame) (site : Site) : Pc :=
  .locNext { f with del := NULL } site head (NUM_LEVELS - 1)

/-- The body of the inner loop of `locate_preds`: one step to `x_next`, with the skew record on
level 0. -/
def locBody (f : Frame) (site : Site) (i : ℕ) (x_next : NodeId) (d : Bool) : Pc :=
  .locNext (if i = 0 ∧ d = true then { f with del := x_next } else f) site x_next i

/-- `locate_preds` returned: `insert` goes on behind the call. -/
def located (f : Frame) : Site → Pc
  | .retry => .dupKey f
  | .upper i => if f.succs 0 ≠ f.new then .finish f else .upLevel f i

/-- `preds[i] = x; succs[i] = x_next; i--`. -/
def Frame.record (f : Frame) (i : ℕ) (x x_next : NodeId) : Frame :=
  { f with preds := Function.update f.preds i x, succs := Function.update f.succs i x_next }

/-- The end of a level of `locate_preds`. -/
def locDown (f : Frame) (site : Site) (x : NodeId) (i : ℕ) (x_next : NodeId) : Pc :=
  if i = 0 then located (f.record i x x_next) site
  else .locNext (f.record i x x_next) site x (i - 1)

/-- The loop test of `deletemin`: `(x = get_unmarked_ref(nxt)) && is_marked_ref(nxt)`. -/
def delLoop (d : DelFrame) (nxt : Ref) : Pc :=
  if nxt.ptr ≠ NULL ∧ nxt.mark = true then .delLoad { d with nxt := nxt, x := nxt.ptr }
  else .delVal { d with nxt := nxt, x := nxt.ptr }

/-- Behind the `inserting` test of `deletemin`: `continue` if the word read was marked. -/
def delSkip (d : DelFrame) : Pc :=
  if is_marked_ref d.nxt then delLoop d d.nxt else .delFao d

/-- The loop test of the recycling loop. -/
def rcTest (d : DelFrame) (cur : NodeId) : Pc :=
  if cur ≠ d.newhead then .rcLoad d cur else .ret (some d.v)

/-- `i--` in `restructure`, and its loop test. -/
def rsDown (d : DelFrame) (i : ℕ) (pred : Ref) : Pc :=
  if 0 < i - 1 then .rsHead d (i - 1) pred else rcTest d d.obs_head.ptr

/-- The next access of a thread. -/
def code (max_offset : ℤ) : Pc → Instr Pc
  | .idle => .done .idle
  | .crashed => .done .crashed
  -- alloc_node and the two assignments behind it
  | .insAlloc k v lvl => .alloc fun n => .insLevel (Frame.begin k v lvl n)
  | .insLevel f => .storeLevel f.new f.lvl (.insInserting f)
  | .insInserting f => .storeInserting f.new true (.insClear f)
  | .insClear f => .clearNext f.new f.lvl (.insKey f)
  | .insKey f => .storeKey f.new f.k (.insVal f)
  | .insVal f => .storeVal f.new f.v (locate f .retry)
  -- locate_preds
  | .locNext f site x i => .loadNext x i fun w => .locKey f site x i w.ptr w.mark
  | .locKey f site x i x_next d => .loadKey x_next fun key =>
      if key < f.k then locBody f site i x_next d else .locMark f site x i x_next d
  | .locMark f site x i x_next d => .loadNext x_next 0 fun w =>
      if w.mark = true ∨ (i = 0 ∧ d = true) then locBody f site i x_next d
      else locDown f site x i x_next
  -- insert: the key is already present
  | .dupKey f => .loadKey (f.succs 0) fun key => if key = f.k then .dupMark f else .link0 f
  | .dupMark f => .loadNext (f.preds 0) 0 fun w => if w.mark = true then .link0 f else .dupPtr f
  | .dupPtr f => .loadNext (f.preds 0) 0 fun w =>
      if w = ref (f.succs 0) then .dupClear f else .link0 f
  | .dupClear f => .storeInserting f.new false (.dupFree f)
  | .dupFree f => .freeNode f.new (.ret none)
  -- insert: level 0
  | .link0 f => .storeNext f.new 0 (ref (f.succs 0)) (.cas0 f)
  | .cas0 f => .casNext (f.preds 0) 0 (ref (f.succs 0)) (ref f.new) fun ok =>
      if ok then .upLevel f 1 else locate f .retry
  -- insert: the other levels
  | .upLevel f i => .loadLevel f.new fun lvl => if i < lvl then .upNew f i else .finish f
  | .upNew f i => .loadNext f.new 0 fun w => if w.mark = true then .finish f else .upSucc f i
  | .upSucc f i => .loadNext (f.succs i) 0 fun w =>
      if w.mark = true ∨ f.del = f.succs i then .finish f else .upStore f i
  | .upStore f i => .storeNext f.new i (ref (f.succs i)) (.upCas f i)
  | .upCas f i => .casNext (f.preds i) i (ref (f.succs i)) (ref f.new) fun ok =>
      if ok then .upLevel f (i + 1) else locate f (.upper i)
  | .finish f => .storeInserting f.new false (.ret none)
  -- deletemin
  | .delObs => .loadNext head 0 fun w => .delLoad ⟨w, head, ref NULL, NULL, 0, 0⟩
  | .delLoad d => .loadNext d.x 0 fun nxt =>
      let d := { d with offset := d.offset + 1, nxt := nxt }
      if nxt.ptr = tail then .ret (some 0)
      else if d.newhead = NULL then .delInserting d else delSkip d
  | .delInserting d => .loadInserting d.x fun b =>
      delSkip (if b then { d with newhead := d.x } else d)
  | .delFao d => .fetchOrNext d.x 0 fun nxt => delLoop d nxt
  | .delVal d => .loadVal d.x fun v =>
      let d := { d with v := v, newhead := if d.newhead = NULL then d.x else d.newhead }
      if (d.offset : ℤ) ≤ max_offset then .ret (some d.v) else .delCheck d
  | .delCheck d => .loadNext head 0 fun w =>
      if w ≠ d.obs_head then .ret (some d.v) else .delSwing d
  | .delSwing d => .casNext head 0 d.obs_head (get_marked_ref (ref d.newhead)) fun ok =>
      if ok then .rsHead d (NUM_LEVELS - 1) (ref head) else .ret (some d.v)
  -- restructure
  | .rsHead d i pred => .loadNext head i fun h => .rsCur d i pred h
  | .rsCur d i pred h => .loadNext pred.addr i fun cur => .rsTest d i pred h cur
  | .rsTest d i pred h cur => .loadNext h.addr 0 fun w =>
      if w.mark = true then .rsWalk d i pred h cur else rsDown d i pred
  | .rsWalk d i pred h cur => .loadNext cur.addr 0 fun w =>
      if w.mark = true then .rsStep d i cur h else .rsCas d i pred h cur
  | .rsStep d i pred h => .loadNext pred.addr i fun cur => .rsWalk d i pred h cur
  | .rsCas d i pred h cur => .casNext head i h cur fun ok =>
      if ok then rsDown d i pred else .rsHead d i pred
  -- the recycling loop
  | .rcLoad d cur => .loadNext cur 0 fun w => .rcFree d cur w.ptr
  | .rcFree d cur nxt => .freeNode cur (rcTest d nxt)
  | .ret _ => .done .idle

/-! ### The queue as a system of threads -/

/-- What a step shows: a call, a return, the accesses at which an operation takes effect or finds its
key present, or nothing. -/
inductive Event where
  | call (op : Op)
  | insertCas (k : ℕ)
  | giveUp (k : ℕ)
  | deleteFao (n : NodeId)
  | freed (n : NodeId)
  | ret (v : Option ℕ)
  | internal
  deriving DecidableEq

/-- The event of the access a thread is about to perform. -/
def event (m : Mem) : Pc → Event
  | .cas0 f => if (m (f.preds 0)).next 0 = ref (f.succs 0) then .insertCas f.k else .internal
  | .dupPtr f => if (m (f.preds 0)).next 0 = ref (f.succs 0) then .giveUp f.k else .internal
  | .delFao d =>
      if ((m d.x).next 0).mark = true then .internal else .deleteFao ((m d.x).next 0).ptr
  | .rcFree _ cur _ => .freed cur
  | .ret v => .ret v
  | _ => .internal

structure State where
  sh : Shared
  thr : Tid → Pc

/-- One access of thread `t`. -/
def advance (max_offset : ℤ) (s : State) (t : Tid) : State :=
  let ins := code max_offset (s.thr t)
  if ins.target = NULL then { s with thr := Function.update s.thr t .crashed }
  else
    let r := exec s.sh ins
    ⟨r.1, Function.update s.thr t r.2⟩

/-- The calls a client makes: keys strictly between the sentinels, and a level `alloc_node` can
draw. -/
def Admissible : Op → Prop
  | .insert v lvl => SENTINEL_KEYMIN < v ∧ v < pkey SENTINEL_KEYMAX ∧ 1 ≤ lvl ∧ lvl ≤ NUM_LEVELS
  | .delete_min => True

/-- A thread is inside a call. -/
def Pc.busy : Pc → Bool
  | .idle | .crashed => false
  | _ => true

/-- One step of thread `t`: it calls an operation, or performs its next access. -/
inductive Step (max_offset : ℤ) : State → Tid → Event → State → Prop
  | call {s : State} {t : Tid} {op : Op} : s.thr t = .idle → Admissible op →
      Step max_offset s t (.call op) { s with thr := Function.update s.thr t (start op) }
  | access {s : State} {t : Tid} : (s.thr t).busy = true →
      Step max_offset s t (event s.sh.mem (s.thr t)) (advance max_offset s t)

/-- `pq_init`: both sentinels have all levels, the head points to the tail everywhere, and the
`next` words of the tail are whatever `malloc` left there. -/
structure Init (s : State) : Prop where
  head_k : (s.sh.mem head).k = SENTINEL_KEYMIN
  tail_k : (s.sh.mem tail).k = pkey SENTINEL_KEYMAX
  head_level : (s.sh.mem head).level = NUM_LEVELS
  tail_level : (s.sh.mem tail).level = NUM_LEVELS
  head_inserting : (s.sh.mem head).inserting = false
  tail_inserting : (s.sh.mem tail).inserting = false
  head_next : ∀ i, i < NUM_LEVELS → (s.sh.mem head).next i = ref tail
  brk : firstNode ≤ s.sh.brk
  freed : s.sh.freed = []
  idle : ∀ t, s.thr t = .idle

/-- The queue on a memory where the low bit of `tail->next[0]` is clear. -/
def lindenQueue (max_offset : ℤ) : System State Tid Event where
  init s := Init s ∧ ((s.sh.mem tail).next 0).mark = false
  step := Step max_offset

/-! ### Schedules -/

/-- A move of a schedule: a thread calls an operation, or performs its next access. -/
inductive Move where
  | call (t : Tid) (op : Op)
  | access (t : Tid)

/-- A thread is between two calls. -/
def Pc.isIdle : Pc → Bool
  | .idle => true
  | _ => false

instance : DecidablePred Admissible
  | .insert v lvl => inferInstanceAs (Decidable (SENTINEL_KEYMIN < v ∧ v < pkey SENTINEL_KEYMAX ∧
      1 ≤ lvl ∧ lvl ≤ NUM_LEVELS))
  | .delete_min => .isTrue trivial

/-- Carry out a move, if it is possible. -/
def move (max_offset : ℤ) (s : State) : Move → Option (Tid × Event × State)
  | .call t op =>
    if (s.thr t).isIdle = true ∧ Admissible op then
      some (t, .call op, { s with thr := Function.update s.thr t (start op) })
    else none
  | .access t =>
    if (s.thr t).busy = true then
      some (t, event s.sh.mem (s.thr t), advance max_offset s t)
    else none

theorem step_of_move {max_offset : ℤ} {s s' : State} {a : Move} {t : Tid} {e : Event}
    (h : move max_offset s a = some (t, e, s')) : (lindenQueue max_offset).step s t e s' := by
  cases a with
  | call u op =>
    rw [move] at h
    split at h
    · rename_i hc
      obtain ⟨rfl, rfl, rfl⟩ := h
      refine .call ?_ hc.2
      have hidle := hc.1
      cases hpc : s.thr t <;> rw [hpc] at hidle <;> first | rfl | cases hidle
    · cases h
  | access u =>
    rw [move] at h
    split at h
    · rename_i hc
      obtain ⟨rfl, rfl, rfl⟩ := h
      exact .access hc
    · cases h

/-- The memory `pq_init` leaves behind on zeroed storage. -/
def freshMem : Mem := fun n =>
  if n = head then ⟨SENTINEL_KEYMIN, NUM_LEVELS, false, 0, fun _ => ref tail⟩
  else if n = tail then ⟨pkey SENTINEL_KEYMAX, NUM_LEVELS, false, 0, fun _ => ref NULL⟩
  else ⟨0, 0, false, 0, fun _ => ref NULL⟩

/-- An empty queue that no thread uses. -/
def fresh : State := ⟨⟨freshMem, firstNode, []⟩, fun _ => .idle⟩

theorem fresh_init (max_offset : ℤ) : (lindenQueue max_offset).init fresh :=
  ⟨⟨rfl, rfl, rfl, rfl, rfl, rfl, fun _ _ => rfl, Nat.le_refl _, rfl, fun _ => rfl⟩, rfl⟩

/-- A thread makes a number of accesses, after a call if one is given. -/
def turn (t : Tid) (op : Option Op) (n : ℕ) : List Move :=
  (op.map (Move.call t)).toList ++ List.replicate n (.access t)

/-- What holds of the outcome of a schedule from the empty queue holds at the end of some run. -/
theorem exists_run_of_schedule (max_offset : ℤ) (as : List Move)
    (p : List (Entry State Tid Event) × State → Bool)
    (h : (execute (move max_offset) as ([], fresh)).any p = true) :
    ∃ tr s, Run (lindenQueue max_offset) tr s ∧ p (tr, s) = true := by
  rw [Option.any_eq_true] at h
  obtain ⟨⟨tr, s⟩, hc, hp⟩ := h
  exact ⟨tr, s, .execute (fun _ _ _ _ _ => step_of_move) (.start (fresh_init _)) hc, hp⟩

end ConcurrentPQ.Linden

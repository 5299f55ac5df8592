import ConcurrentPQ.Lib.Pointer
import ConcurrentPQ.Lib.Transition
import Mathlib.Data.Int.Notation

/-!
# The SprayList as a shared-memory program

`fraser.c`, `pqueue.c` and the sequential insertion of `intset.c`, instruction by instruction.  A
thread is a program counter `Pc` with the C locals still in use; `code` gives the one access it
performs next and what it does with the answer.

* `Node`, `Instr`, `exec` — `sl_node_t`, the accesses, and what they do;
* `_MarsagliaXOR`, `floor_log_2` — the arithmetic of the spray;
* `Pc`, `code` — `fraser_search`, `mark_node_ptrs`, `fraser_insert`, `fraser_remove`,
  `naive_delete_min`, `spray_delete_min` and `sl_seq_add`;
* `Step`, `sprayList` — any number of threads calling them again and again.

Node memory is not recycled.  A thread that reads through a null pointer stops in `Pc.crashed`, one
that reads through a marked pointer, or an entry of `next` that was never written, in `Pc.wild`.  One
such read is part of `naive_delete_min` (`first->next[0]->deleted`, where `first` has just been
marked): there the answer is any value.
-/

namespace ConcurrentPQ.Spray

open ConcurrentPQ.Transition

/-- The head sentinel, `set->head`. -/
abbrev head : NodeId := 1

/-- The tail sentinel. -/
abbrev tail : NodeId := 2

/-- The first address the allocator hands out after the sentinels. -/
abbrev firstNode : NodeId := 3

/-- `VAL_MAX`, the value of the tail. -/
abbrev INT_MAX : ℕ := 0x7FFFFFFF

/-- `is_marked`. -/
def is_marked (w : Ref) : Bool := w.mark

/-- `unset_mark`. -/
def unset_mark (w : Ref) : Ref := ⟨w.ptr, false⟩

/-- `set_mark`. -/
def set_mark (w : Ref) : Ref := ⟨w.ptr, true⟩

/-- `sl_node_t`; only the first `toplevel` entries of `next` exist. -/
structure Node where
  val : ℕ
  toplevel : ℕ
  deleted : ℕ
  next : ℕ → Ref
  deriving Inhabited

/-- Node memory. -/
abbrev Mem := NodeId → Node

/-! ### Arithmetic -/

/-- `floor_log_2`. -/
def floor_log_2 (n : ℕ) : ℤ :=
  let r := (n, 0)
  let r := if 1 <<< 16 ≤ r.1 then (r.1 >>> 16, r.2 + 16) else r
  let r := if 1 <<< 8 ≤ r.1 then (r.1 >>> 8, r.2 + 8) else r
  let r := if 1 <<< 4 ≤ r.1 then (r.1 >>> 4, r.2 + 4) else r
  let r := if 1 <<< 2 ≤ r.1 then (r.1 >>> 2, r.2 + 2) else r
  let r := if 1 <<< 1 ≤ r.1 then (r.1, r.2 + 1) else r
  if r.1 = 0 then -1 else (r.2 : ℤ)

/-- `INITIAL_SIZE` of `spraylist.cpp`. -/
abbrev INITIAL_SIZE : ℕ := 1 <<< 15

/-- `*levelmax`: the constructor of `SprayList` sets it to `floor_log_2(INITIAL_SIZE)`. -/
abbrev levelmax : ℕ := 15

example : (levelmax : ℤ) = floor_log_2 INITIAL_SIZE := by decide

/-- `SCANHEIGHT`. -/
def SCANHEIGHT (n : ℕ) : ℕ := (floor_log_2 n + 1).toNat

/-- `SCANMAX`. -/
def SCANMAX (n : ℕ) : ℕ := (floor_log_2 n + 1).toNat

/-- The bound of the dummy steps: `n*floor_log_2(n)/2`. -/
def dummyMax (n : ℕ) : ℕ := n * (floor_log_2 n).toNat / 2

/-- The value of an `int` after arithmetic that wraps around. -/
def int32 (z : ℤ) : ℤ := z.bmod 0x100000000

/-- `_MarsagliaXOR`. -/
def _MarsagliaXOR (seed : ℤ) : ℤ :=
  let a := 123456789
  let m := 2147483647
  let q := 521288629
  let r := 88675123
  let hi := seed.tdiv q
  let lo := seed.tmod q
  let test := int32 (int32 (a * lo) - int32 (r * hi))
  if 0 < test then test else int32 (test + m)

/-- `*seed = _MarsagliaXOR(*seed)` on an `unsigned int`. -/
def nextSeed (seed : ℕ) : ℕ := (_MarsagliaXOR (int32 seed) % 0x100000000).toNat

/-- The loop that spends `scanlen` on dummy steps of length `step`; it returns `dummy` and
`scanlen`. -/
def skipDummies (limit step : ℕ) : ℕ → ℕ → ℕ × ℕ
  | dummy, 0 => (dummy, 0)
  | dummy, scanlen + 1 =>
    if dummy < limit then skipDummies limit step (dummy + step) scanlen else (dummy, scanlen + 1)

/-! ### Instructions -/

/-- The expected word of a compare-and-swap: a word, or the address of the array `n->next`, which no
pointer word holds. -/
inductive Expected where
  | word (w : Ref)
  | array (n : NodeId)
  deriving DecidableEq

/-- One access, with the continuation that receives the answer. -/
inductive Instr (π : Type) where
  | loadNext (n : NodeId) (i : ℕ) (c : Ref → π)
  | loadVal (w : Ref) (c : ℕ → π)
  | loadToplevel (n : NodeId) (c : ℕ → π)
  | loadDeleted (n : NodeId) (c : ℕ → π)
  | peekDeleted (w : Ref) (c : Bool → π)
  | storeVal (n : NodeId) (v : ℕ) (c : π)
  | storeToplevel (n : NodeId) (l : ℕ) (c : π)
  | storeDeleted (n : NodeId) (d : ℕ) (c : π)
  | storeNext (n : NodeId) (i : ℕ) (w : Ref) (c : π)
  | casNext (n : NodeId) (i : ℕ) (old : Expected) (new : Ref) (c : Bool → π)
  | fetchInc (n : NodeId) (c : ℕ → π)
  | draw (c : ℕ → π)
  | alloc (c : NodeId → π)
  | freeNode (n : NodeId) (c : π)
  | done (c : π)

/-- The pointer an instruction accesses memory through; those that access none name `head`. -/
def Instr.target {π : Type} : Instr π → Ref
  | .loadNext n _ _ | .loadToplevel n _ | .loadDeleted n _ | .storeVal n _ _
  | .storeToplevel n _ _ | .storeDeleted n _ _ | .storeNext n _ _ _ | .casNext n _ _ _ _
  | .fetchInc n _ | .freeNode n _ => ref n
  | .loadVal w _ => w
  | .peekDeleted w _ => unset_mark w
  | .draw _ | .alloc _ | .done _ => ref head

/-- The entry of `next` an instruction accesses lies below the node's `toplevel`. -/
def Instr.inRange {π : Type} (m : Mem) : Instr π → Bool
  | .loadNext n i _ | .storeNext n i _ _ | .casNext n i _ _ _ => decide (i < (m n).toplevel)
  | _ => true

/-- Memory with `next[i]` of node `n` overwritten. -/
def setNext (m : Mem) (n : NodeId) (i : ℕ) (w : Ref) : Mem :=
  Function.update m n { m n with next := Function.update (m n).next i w }

/-- Memory with the other fields of node `n` changed by `g`. -/
def modify (m : Mem) (n : NodeId) (g : Node → Node) : Mem := Function.update m n (g (m n))

/-- Node memory and the next fresh address. -/
structure Shared where
  mem : Mem
  brk : NodeId

/-- A word meets the expectation of a compare-and-swap. -/
def Expected.matches : Expected → Ref → Bool
  | .word w, w' => decide (w' = w)
  | .array _, _ => false

/-- Perform one instruction.  `seed` is the thread's `d->seed2`, and `any` the answer of a read
through a marked pointer. -/
def exec {π : Type} (any : Bool) (s : Shared) (seed : ℕ) : Instr π → Shared × ℕ × π
  | .loadNext n i c => (s, seed, c ((s.mem n).next i))
  | .loadVal w c => (s, seed, c (s.mem w.ptr).val)
  | .loadToplevel n c => (s, seed, c (s.mem n).toplevel)
  | .loadDeleted n c => (s, seed, c (s.mem n).deleted)
  | .peekDeleted w c =>
      (s, seed, c (if w.mark = true then any else decide ((s.mem w.ptr).deleted ≠ 0)))
  | .storeVal n v c => ({ s with mem := modify s.mem n fun x => { x with val := v } }, seed, c)
  | .storeToplevel n l c =>
      ({ s with mem := modify s.mem n fun x => { x with toplevel := l } }, seed, c)
  | .storeDeleted n d c =>
      ({ s with mem := modify s.mem n fun x => { x with deleted := d } }, seed, c)
  | .storeNext n i w c => ({ s with mem := setNext s.mem n i w }, seed, c)
  | .casNext n i old new c =>
      if old.matches ((s.mem n).next i) then
        ({ s with mem := setNext s.mem n i new }, seed, c true)
      else (s, seed, c false)
  | .fetchInc n c =>
      ({ s with mem := modify s.mem n fun x => { x with deleted := x.deleted + 1 } }, seed,
        c (s.mem n).deleted)
  | .draw c => (s, nextSeed seed, c (nextSeed seed))
  | .alloc c => ({ s with brk := s.brk + 1 }, seed, c s.brk)
  | .freeNode _ c => (s, seed, c)
  | .done c => (s, seed, c)

/-! ### Threads -/

/-- The locals of the insertions: the key, the level `get_rand_level` draws, the new node, and the
arrays `preds` and `succs`.  `fraser_remove` uses the key and `succs`. -/
structure Frame where
  val : ℕ
  lvl : ℕ
  new : NodeId
  preds : ℕ → NodeId
  succs : ℕ → NodeId

/-- The locals of the spray. -/
structure Walk where
  n : ℕ
  cur : NodeId
  i : ℕ
  dummy : ℕ
  scanlen : ℕ

/-- The locals of `sl_seq_add`; its `succs` are words as read. -/
structure SeqFrame where
  val : ℕ
  lvl : ℕ
  new : NodeId
  preds : ℕ → NodeId
  succs : ℕ → Ref

/-- What an operation returns: the results of `fraser_insert`, `fraser_remove` and `sl_seq_add`, and
for the `delete_min` functions the result and what was written to `*val`. -/
inductive Answer where
  | inserted (result : Bool)
  | removed (result : Bool)
  | deleted (result : Bool) (val : Option ℕ)
  deriving DecidableEq, Repr

/-- Where `fraser_search` was called.  In `cleanup` neither list is passed and the answer of the
caller is settled. -/
inductive Site where
  | insert
  | upper (i : ℕ)
  | remove (remove_succ : Bool)
  | cleanup (a : Answer)
  deriving DecidableEq

/-- Where `mark_node_ptrs` was called: for a deleted duplicate, or for a node the caller deleted. -/
inductive MarkSite where
  | duplicate (f : Frame)
  | remove (val : ℕ)
  | naive (val : ℕ)
  | spray (val : ℕ)

/-- An operation, with the level `get_rand_level` will draw for an insertion and `d->nb_threads` for
the spray. -/
inductive Op where
  | fraser_insert (v lvl : ℕ)
  | fraser_remove (val : ℕ) (remove_succ : Bool)
  | naive_delete_min
  | spray_delete_min (n : ℕ)
  | sl_seq_add (val lvl : ℕ)
  deriving DecidableEq

/-- `sl_add`. -/
def sl_add (val lvl : ℕ) (transactional : Bool) : Op :=
  if transactional then .fraser_insert val lvl else .sl_seq_add val lvl

/-- Program counters.  `se*` is `fraser_search`, `mk*` is `mark_node_ptrs`, `ins*` and `up*` are
`fraser_insert`, `rm*` is `fraser_remove`, `nv*` is `naive_delete_min`, `sp*` is `spray_delete_min`,
`sq*` is `sl_seq_add`. -/
inductive Pc where
  | idle
  | crashed
  | wild
  | insAlloc (v lvl : ℕ)
  | insVal (f : Frame)
  | insTop (f : Frame)
  | insDel (f : Frame)
  | seLeft (f : Frame) (site : Site) (left : NodeId) (i : ℕ)
  | seNext (f : Frame) (site : Site) (left left_next right : NodeId) (i : ℕ)
  | seVal (f : Frame) (site : Site) (left left_next right right_next : NodeId) (i : ℕ)
  | seCas (f : Frame) (site : Site) (left left_next right : NodeId) (i : ℕ)
  | insDup (f : Frame)
  | insDupDel (f : Frame)
  | insFree (f : Frame)
  | insTest (f : Frame) (i : ℕ)
  | insLink (f : Frame) (i : ℕ)
  | insCas (f : Frame)
  | upTest (f : Frame) (i : ℕ)
  | upNew (f : Frame) (i : ℕ)
  | upSet (f : Frame) (i : ℕ) (new_next : Ref)
  | upVal (f : Frame) (i : ℕ)
  | upCas (f : Frame) (i : ℕ) (succ : Expected)
  | mkTop (site : MarkSite) (n : NodeId)
  | mkNext (site : MarkSite) (n : NodeId) (i : ℕ)
  | mkCas (site : MarkSite) (n : NodeId) (i : ℕ) (n_next : Ref)
  | rmNext (f : Frame)
  | rmVal (f : Frame) (remove_succ result : Bool)
  | rmDel (f : Frame)
  | rmInc (f : Frame)
  | nvNext (first : NodeId)
  | nvEnd (first : NodeId)
  | nvDel (first : NodeId)
  | nvInc (first : NodeId)
  | nvTail (first : NodeId)
  | nvVal (first : NodeId)
  | nvPeek (first : NodeId) (val : ℕ)
  | nvTest (first : NodeId) (val : ℕ) (w : Ref)
  | nvKey (first : NodeId) (val : ℕ)
  | spSeed (n : ℕ)
  | spDraw (w : Walk)
  | spTest (w : Walk)
  | spMove (w : Walk)
  | spDel (w : Walk)
  | spEnd (w : Walk)
  | spSkip (cur : NodeId)
  | spSkipEnd (cur : NodeId)
  | spSkipMove (cur : NodeId)
  | spTail (cur : NodeId)
  | spCheck (cur : NodeId)
  | spInc (cur : NodeId)
  | spVal (cur : NodeId)
  | sqTop (val lvl : ℕ)
  | sqNext (f : SeqFrame) (node : NodeId) (i : ℕ)
  | sqVal (f : SeqFrame) (node : NodeId) (next : Ref) (i : ℕ)
  | sqSucc (f : SeqFrame) (node : NodeId) (i : ℕ)
  | sqLast (f : SeqFrame) (node : NodeId)
  | sqCmp (f : SeqFrame) (node : Ref)
  | sqAlloc (f : SeqFrame)
  | sqNew (f : SeqFrame)
  | sqNewTop (f : SeqFrame)
  | sqNewDel (f : SeqFrame)
  | sqStore (f : SeqFrame) (i : ℕ)
  | sqLink (f : SeqFrame) (i : ℕ)
  | ret (a : Answer)

/-- The frame of a call before anything is known. -/
def Frame.begin (val lvl new : ℕ) : Frame := ⟨val, lvl, new, fun _ => NULL, fun _ => NULL⟩

/-- The first program counter of a call. -/
def start : Op → Pc
  | .fraser_insert v lvl => .insAlloc v lvl
  | .fraser_remove val rs => .seLeft (.begin val 0 NULL) (.remove rs) head (levelmax - 1)
  | .naive_delete_min => .nvNext head
  | .spray_delete_min n => .spSeed n
  | .sl_seq_add val lvl => .sqTop val lvl

/-- Enter `fraser_search`, or go back to `retry`. -/
def search (f : Frame) (site : Site) : Pc := .seLeft f site head (levelmax - 1)

/-- `fraser_search` returned. -/
def searched (f : Frame) : Site → Pc
  | .insert => .insDup f
  | .upper i => .upNew f i
  | .remove true => .rmNext f
  | .remove false => .rmVal f false true
  | .cleanup a => .ret a

/-- `left_list[i] = left; right_list[i] = right`.  A caller that passes no list does not look at
it. -/
def Frame.record (f : Frame) (i : ℕ) (left right : NodeId) : Frame :=
  { f with preds := Function.update f.preds i left, succs := Function.update f.succs i right }

/-- The end of a level of `fraser_search`. -/
def seDown (f : Frame) (site : Site) (left right : NodeId) (i : ℕ) : Pc :=
  if i = 0 then searched (f.record i left right) site
  else .seLeft (f.record i left right) site left (i - 1)

/-- `mark_node_ptrs` returned. -/
def marked (n : NodeId) : MarkSite → Pc
  | .duplicate f => search f .insert
  | .remove val => search (.begin val 0 NULL) (.cleanup (.removed true))
  | .naive val => .nvPeek n val
  | .spray val => .ret (.deleted true (some val))

/-- `i--` in `mark_node_ptrs`, and its loop test. -/
def mkDown (site : MarkSite) (n : NodeId) (i : ℕ) : Pc :=
  if i = 0 then marked n site else .mkNext site n (i - 1)

/-- The test `scanlen > 0` of the loop that steps right. -/
def spStep (w : Walk) : Pc := if 0 < w.scanlen then .spTest w else .spEnd w

/-- `preds[i] = node; succs[i] = w`. -/
def SeqFrame.record (f : SeqFrame) (i : ℕ) (node : NodeId) (w : Ref) : SeqFrame :=
  { f with preds := Function.update f.preds i node, succs := Function.update f.succs i w }

/-- The loop test of the linking loop of `sl_seq_add`. -/
def sqTest (f : SeqFrame) (i : ℕ) : Pc :=
  if i < f.lvl then .sqStore f i else .ret (.inserted true)

/-- The next access of a thread. -/
def code : Pc → Instr Pc
  | .idle => .done .idle
  | .crashed => .done .crashed
  | .wild => .done .wild
  -- sl_new_simple_node
  | .insAlloc v lvl => .alloc fun n => .insVal (.begin v lvl n)
  | .insVal f => .storeVal f.new f.val (.insTop f)
  | .insTop f => .storeToplevel f.new f.lvl (.insDel f)
  | .insDel f => .storeDeleted f.new 0 (search f .insert)
  -- fraser_search
  | .seLeft f site left i => .loadNext left i fun w =>
      if is_marked w then search f site else .seNext f site left w.ptr w.ptr i
  | .seNext f site left left_next right i => .loadNext right i fun w =>
      if is_marked w then .seNext f site left left_next w.ptr i
      else .seVal f site left left_next right w.ptr i
  | .seVal f site left left_next right right_next i => .loadVal (ref right) fun v =>
      if f.val ≤ v then
        if left_next ≠ right then .seCas f site left left_next right i
        else seDown f site left right i
      else .seNext f site right right_next right_next i
  | .seCas f site left left_next right i =>
      .casNext left i (.word (ref left_next)) (ref right) fun ok =>
        if ok then seDown f site left right i else search f site
  -- fraser_insert: the key is already present
  | .insDup f => .loadVal (ref (f.succs 0)) fun v =>
      if v = f.val then .insDupDel f else .insTest f 0
  | .insDupDel f => .loadDeleted (f.succs 0) fun d =>
      if d ≠ 0 then .mkTop (.duplicate f) (f.succs 0) else .insFree f
  | .insFree f => .freeNode f.new (.ret (.inserted false))
  -- fraser_insert: level 0
  | .insTest f i => .loadToplevel f.new fun l => if i < l then .insLink f i else .insCas f
  | .insLink f i => .storeNext f.new i (ref (f.succs i)) (.insTest f (i + 1))
  | .insCas f => .casNext (f.preds 0) 0 (.word (ref (f.succs 0))) (ref f.new) fun ok =>
      if ok then .upTest f 1 else search f .insert
  -- fraser_insert: the other levels
  | .upTest f i => .loadToplevel f.new fun l =>
      if i < l then .upNew f i else .ret (.inserted true)
  | .upNew f i => .loadNext f.new i fun w =>
      if is_marked w then .ret (.inserted true)
      else if w ≠ ref (f.succs i) then .upSet f i w else .upVal f i
  | .upSet f i w => .casNext f.new i (.word (unset_mark w)) (ref (f.succs i)) fun ok =>
      if ok then .upVal f i else .upTest f (i + 1)
  | .upVal f i => .loadVal (ref (f.succs i)) fun v =>
      if v = f.val then .upCas f i (.array (f.succs i)) else .upCas f i (.word (ref (f.succs i)))
  | .upCas f i succ => .casNext (f.preds i) i succ (ref f.new) fun ok =>
      if ok then .upTest f (i + 1) else search f (.upper i)
  -- mark_node_ptrs
  | .mkTop site n => .loadToplevel n fun l =>
      if l = 0 then marked n site else .mkNext site n (l - 1)
  | .mkNext site n i => .loadNext n i fun w =>
      if is_marked w then mkDown site n i else .mkCas site n i w
  | .mkCas site n i w => .casNext n i (.word w) (set_mark w) fun ok =>
      if ok then mkDown site n i else .mkNext site n i
  -- fraser_remove
  | .rmNext f => .loadNext (f.succs 0) 0 fun w => .rmVal f true (decide (w ≠ ref NULL))
  | .rmVal f rs result => .loadVal (ref (f.succs 0)) fun v =>
      if rs then if result then .rmDel { f with val := v } else .ret (.removed false)
      else if v = f.val then .rmDel f else .ret (.removed false)
  | .rmDel f => .loadDeleted (f.succs 0) fun d =>
      if d ≠ 0 then .ret (.removed false) else .rmInc f
  | .rmInc f => .fetchInc (f.succs 0) fun d =>
      if d = 0 then .mkTop (.remove f.val) (f.succs 0) else .ret (.removed false)
  -- naive_delete_min
  | .nvNext first => .loadNext first 0 fun w => .nvEnd w.ptr
  | .nvEnd first => .loadNext first 0 fun w => if w ≠ ref NULL then .nvDel first else .nvInc first
  | .nvDel first => .loadDeleted first fun d => if d ≠ 0 then .nvNext first else .nvInc first
  | .nvInc first => .fetchInc first fun d => if d ≠ 0 then .nvNext first else .nvTail first
  | .nvTail first => .loadNext first 0 fun w =>
      if w ≠ ref NULL then .nvVal first else .ret (.deleted true none)
  | .nvVal first => .loadVal (ref first) fun v => .mkTop (.naive v) first
  | .nvPeek first v => .loadNext first 0 fun w => .nvTest first v w
  | .nvTest first v w => .peekDeleted w fun d =>
      if d then .ret (.deleted true (some v)) else .nvKey first v
  | .nvKey first v => .loadVal (ref first) fun k =>
      search (.begin k 0 NULL) (.cleanup (.deleted true (some v)))
  -- spray_delete_min
  | .spSeed n => .draw fun seed =>
      if n = 1 ∨ seed % n = 0 then .nvNext head else .spDraw ⟨n, head, SCANHEIGHT n, 0, 0⟩
  | .spDraw w => .draw fun seed =>
      let r := skipDummies (dummyMax w.n) (1 <<< w.i) w.dummy (seed % (SCANMAX w.n + 1))
      spStep { w with dummy := r.1, scanlen := r.2 }
  | .spTest w => .loadNext w.cur w.i fun r => if r ≠ ref NULL then .spMove w else .spEnd w
  | .spMove w => .loadNext w.cur w.i fun r => .spDel { w with cur := r.ptr }
  | .spDel w => .loadDeleted w.cur fun d =>
      spStep (if d = 0 then { w with scanlen := w.scanlen - 1 } else w)
  | .spEnd w => .loadNext w.cur 0 fun r =>
      if r = ref NULL then .ret (.deleted false none)
      else if w.i = 0 then
        if w.cur = head then .ret (.deleted false none) else .spSkip w.cur
      else .spDraw { w with i := w.i - 1 }
  | .spSkip cur => .loadDeleted cur fun d => if d ≠ 0 then .spSkipEnd cur else .spTail cur
  | .spSkipEnd cur => .loadNext cur 0 fun r =>
      if r ≠ ref NULL then .spSkipMove cur else .spTail cur
  | .spSkipMove cur => .loadNext cur 0 fun r => .spSkip r.ptr
  | .spTail cur => .loadNext cur 0 fun r =>
      if r = ref NULL then .ret (.deleted false none) else .spCheck cur
  | .spCheck cur => .loadDeleted cur fun d =>
      if d = 0 then .spInc cur else .ret (.deleted false none)
  | .spInc cur => .fetchInc cur fun d =>
      if d ≠ 0 then .ret (.deleted false none) else .spVal cur
  | .spVal cur => .loadVal (ref cur) fun v => .mkTop (.spray v) cur
  -- sl_seq_add
  | .sqTop val lvl => .loadToplevel head fun l =>
      .sqNext ⟨val, lvl, NULL, fun _ => NULL, fun _ => ref NULL⟩ head (l - 1)
  | .sqNext f node i => .loadNext node i fun w => .sqVal f node w i
  | .sqVal f node next i => .loadVal next fun v =>
      if v < f.val then .sqNext f next.ptr i else .sqSucc f node i
  | .sqSucc f node i => .loadNext node i fun w =>
      if i = 0 then .sqLast (f.record i node w) node
      else .sqNext (f.record i node w) node (i - 1)
  | .sqLast f node => .loadNext node 0 fun w => .sqCmp f w
  | .sqCmp f node => .loadVal node fun v =>
      if v ≠ f.val then .sqAlloc f else .ret (.inserted false)
  | .sqAlloc f => .alloc fun n => .sqNew { f with new := n }
  | .sqNew f => .storeVal f.new f.val (.sqNewTop f)
  | .sqNewTop f => .storeToplevel f.new f.lvl (.sqNewDel f)
  | .sqNewDel f => .storeDeleted f.new 0 (sqTest f 0)
  | .sqStore f i => .storeNext f.new i (f.succs i) (.sqLink f i)
  | .sqLink f i => .storeNext (f.preds i) i (ref f.new) (sqTest f (i + 1))
  | .ret a => .done (.ret a)

/-! ### One access of a thread -/

/-- What a thread sees: the shared memory, its seed, and where it stands. -/
structure Config where
  sh : Shared
  seed : ℕ
  pc : Pc

/-- The next access of a thread, if its pointer is good. -/
def access (any : Bool) (c : Config) : Config :=
  let ins := code c.pc
  if ins.target.mark = true then { c with pc := .wild }
  else if ins.target.ptr = NULL then { c with pc := .crashed }
  else if ins.inRange c.sh.mem = false then { c with pc := .wild }
  else
    let r := exec any c.sh c.seed ins
    ⟨r.1, r.2.1, r.2.2⟩

/-- A thread is inside a call. -/
def Pc.busy : Pc → Bool
  | .idle | .crashed | .wild | .ret _ => false
  | _ => true

section Access

variable {any : Bool} {s : Shared} {seed : ℕ} {pc : Pc} {n : NodeId} {i : ℕ} {w : Ref}

/-- An access through a good pointer is carried out. -/
theorem access_good {ins : Instr Pc} (hc : code pc = ins) (hm : ins.target.mark = false)
    (hn : ins.target.ptr ≠ NULL) (hi : ins.inRange s.mem = true) :
    access any ⟨s, seed, pc⟩ =
      ⟨(exec any s seed ins).1, (exec any s seed ins).2.1, (exec any s seed ins).2.2⟩ := by
  subst hc
  unfold access
  dsimp only
  rw [hm, hi, if_neg Bool.false_ne_true, if_neg hn, if_neg (Ne.symm Bool.false_ne_true)]

theorem access_loadNext {c : Ref → Pc} (hc : code pc = .loadNext n i c) (hn : n ≠ NULL)
    (hi : i < (s.mem n).toplevel) :
    access any ⟨s, seed, pc⟩ = ⟨s, seed, c ((s.mem n).next i)⟩ :=
  access_good hc rfl hn (decide_eq_true hi)

theorem access_loadVal {c : ℕ → Pc} (hc : code pc = .loadVal (ref n) c) (hn : n ≠ NULL) :
    access any ⟨s, seed, pc⟩ = ⟨s, seed, c (s.mem n).val⟩ :=
  access_good hc rfl hn rfl

theorem access_loadToplevel {c : ℕ → Pc} (hc : code pc = .loadToplevel n c) (hn : n ≠ NULL) :
    access any ⟨s, seed, pc⟩ = ⟨s, seed, c (s.mem n).toplevel⟩ :=
  access_good hc rfl hn rfl

theorem access_loadDeleted {c : ℕ → Pc} (hc : code pc = .loadDeleted n c) (hn : n ≠ NULL) :
    access any ⟨s, seed, pc⟩ = ⟨s, seed, c (s.mem n).deleted⟩ :=
  access_good hc rfl hn rfl

variable (any s seed pc) in
theorem access_peekDeleted {c : Bool → Pc} (hc : code pc = .peekDeleted w c)
    (hn : w.ptr ≠ NULL) : ∃ b, access any ⟨s, seed, pc⟩ = ⟨s, seed, c b⟩ :=
  ⟨if w.mark = true then any else decide ((s.mem w.ptr).deleted ≠ 0), access_good hc rfl hn rfl⟩

theorem access_storeNext {c : Pc} (hc : code pc = .storeNext n i w c) (hn : n ≠ NULL)
    (hi : i < (s.mem n).toplevel) :
    access any ⟨s, seed, pc⟩ = ⟨{ s with mem := setNext s.mem n i w }, seed, c⟩ :=
  access_good hc rfl hn (decide_eq_true hi)

theorem access_storeVal {v : ℕ} {c : Pc} (hc : code pc = .storeVal n v c) (hn : n ≠ NULL) :
    access any ⟨s, seed, pc⟩ =
      ⟨{ s with mem := modify s.mem n fun x => { x with val := v } }, seed, c⟩ :=
  access_good hc rfl hn rfl

theorem access_storeToplevel {l : ℕ} {c : Pc} (hc : code pc = .storeToplevel n l c)
    (hn : n ≠ NULL) : access any ⟨s, seed, pc⟩ =
      ⟨{ s with mem := modify s.mem n fun x => { x with toplevel := l } }, seed, c⟩ :=
  access_good hc rfl hn rfl

theorem access_storeDeleted {d : ℕ} {c : Pc} (hc : code pc = .storeDeleted n d c)
    (hn : n ≠ NULL) : access any ⟨s, seed, pc⟩ =
      ⟨{ s with mem := modify s.mem n fun x => { x with deleted := d } }, seed, c⟩ :=
  access_good hc rfl hn rfl

/-- A compare-and-swap. -/
theorem exec_casNext {e : Expected} {new : Ref} {c : Bool → Pc} :
    exec any s seed (.casNext n i e new c) =
      if e.matches ((s.mem n).next i) = true then
        ({ s with mem := setNext s.mem n i new }, seed, c true)
      else (s, seed, c false) := rfl

/-- A compare-and-swap that finds the word it expects. -/
theorem access_cas_hit {new : Ref} {c : Bool → Pc}
    (hc : code pc = .casNext n i (.word w) new c) (hn : n ≠ NULL)
    (hi : i < (s.mem n).toplevel) (h : (s.mem n).next i = w) :
    access any ⟨s, seed, pc⟩ = ⟨{ s with mem := setNext s.mem n i new }, seed, c true⟩ := by
  have hit : Expected.matches (.word w) ((s.mem n).next i) = true := decide_eq_true h
  rw [access_good hc rfl hn (decide_eq_true hi), exec_casNext, if_pos hit]

/-- A compare-and-swap that fails. -/
theorem access_cas_miss {e : Expected} {new : Ref} {c : Bool → Pc}
    (hc : code pc = .casNext n i e new c) (hn : n ≠ NULL) (hi : i < (s.mem n).toplevel)
    (h : e ≠ .word ((s.mem n).next i)) :
    access any ⟨s, seed, pc⟩ = ⟨s, seed, c false⟩ := by
  have hmiss : ¬e.matches ((s.mem n).next i) = true := by
    cases e with
    | word w => exact fun he => h (congrArg Expected.word (of_decide_eq_true he).symm)
    | array n => exact Bool.false_ne_true
  rw [access_good hc rfl hn (decide_eq_true hi), exec_casNext, if_neg hmiss]

theorem access_fetchInc {c : ℕ → Pc} (hc : code pc = .fetchInc n c) (hn : n ≠ NULL) :
    access any ⟨s, seed, pc⟩ =
      ⟨{ s with mem := modify s.mem n fun x => { x with deleted := x.deleted + 1 } }, seed,
        c (s.mem n).deleted⟩ :=
  access_good hc rfl hn rfl

theorem access_draw {c : ℕ → Pc} (hc : code pc = .draw c) :
    access any ⟨s, seed, pc⟩ = ⟨s, nextSeed seed, c (nextSeed seed)⟩ := by
  have hexec : exec any s seed (.draw c) = (s, nextSeed seed, c (nextSeed seed)) := rfl
  rw [access_good hc rfl (by decide : head ≠ NULL) rfl, hexec]

theorem access_alloc {c : NodeId → Pc} (hc : code pc = .alloc c) :
    access any ⟨s, seed, pc⟩ = ⟨{ s with brk := s.brk + 1 }, seed, c s.brk⟩ :=
  access_good hc rfl (by decide : head ≠ NULL) rfl

theorem access_freeNode {c : Pc} (hc : code pc = .freeNode n c) (hn : n ≠ NULL) :
    access any ⟨s, seed, pc⟩ = ⟨s, seed, c⟩ :=
  access_good hc rfl hn rfl

/-- A thread that reads through a null pointer stops. -/
theorem access_null (hp : (code pc).target = ref NULL) :
    access any ⟨s, seed, pc⟩ = ⟨s, seed, .crashed⟩ := by
  simp [access, hp]

end Access

/-! ### Threads in parallel -/

/-- What a step shows: a call, a return, the two accesses at which the set changes, or nothing. -/
inductive Event where
  | call (op : Op)
  | insertCas (k : ℕ)
  | deleteInc (n : NodeId)
  | ret (a : Answer)
  | internal
  deriving DecidableEq

/-- The fetch-and-increment of node `n`: it deletes `n` if that is no sentinel and not deleted
yet. -/
def incEvent (m : Mem) (n : NodeId) : Event :=
  if (m n).deleted = 0 ∧ n ≠ head ∧ n ≠ tail then .deleteInc n else .internal

/-- The event of the access a thread is about to perform. -/
def event (m : Mem) : Pc → Event
  | .insCas f => if (m (f.preds 0)).next 0 = ref (f.succs 0) then .insertCas f.val else .internal
  | .rmInc f => incEvent m (f.succs 0)
  | .nvInc n | .spInc n => incEvent m n
  | _ => .internal

/-- All threads, each with its seed. -/
structure State where
  sh : Shared
  seed : Tid → ℕ
  thr : Tid → Pc

/-- One access of thread `t`. -/
def advance (any : Bool) (s : State) (t : Tid) : State :=
  let c := access any ⟨s.sh, s.seed t, s.thr t⟩
  ⟨c.sh, Function.update s.seed t c.seed, Function.update s.thr t c.pc⟩

/-- The operations of the lock-free list: keys below `INT_MAX`, a level `get_rand_level` can draw, and
a thread count for which the spray starts below `levelmax`. -/
def Admissible : Op → Prop
  | .fraser_insert v lvl => v < INT_MAX ∧ 1 ≤ lvl ∧ lvl ≤ levelmax
  | .fraser_remove v _ => v < INT_MAX
  | .naive_delete_min => True
  | .spray_delete_min n => 0 < n ∧ n < 1 <<< 14
  | .sl_seq_add _ _ => False

/-- One step of thread `t`: it calls an operation, performs its next access, or returns. -/
inductive Step : State → Tid → Event → State → Prop
  | call {s : State} {t : Tid} {op : Op} : s.thr t = .idle → Admissible op →
      Step s t (.call op) { s with thr := Function.update s.thr t (start op) }
  | access {s : State} {t : Tid} (any : Bool) : (s.thr t).busy = true →
      Step s t (event s.sh.mem (s.thr t)) (advance any s t)
  | ret {s : State} {t : Tid} {a : Answer} : s.thr t = .ret a →
      Step s t (.ret a) { s with thr := Function.update s.thr t .idle }

/-- `sl_set_new`: both sentinels have all levels; the head points to the tail everywhere. -/
structure Fresh (s : Shared) : Prop where
  head_top : (s.mem head).toplevel = levelmax
  tail_top : (s.mem tail).toplevel = levelmax
  tail_val : (s.mem tail).val = INT_MAX
  head_deleted : (s.mem head).deleted = 0
  tail_deleted : (s.mem tail).deleted = 0
  head_next : ∀ i, i < levelmax → (s.mem head).next i = ref tail
  tail_next : ∀ i, i < levelmax → (s.mem tail).next i = ref NULL
  brk : firstNode ≤ s.brk

/-- The list with its threads. -/
def sprayList : System State Tid Event where
  init s := Fresh s.sh ∧ ∀ t, s.thr t = .idle
  step := Step

end ConcurrentPQ.Spray

import ConcurrentPQ.Lib.Circle
import ConcurrentPQ.Lib.Epoch
import ConcurrentPQ.Lib.Transition

/-!
# The node allocator

`lib/linden/gc/gc.c` and `critical_enter` of `ptst.c`, with the chunks and their `next` fields, for any
number of threads that call one function after another.

* `Heap` — the chunks and the memory for blocks;
* `add_chunks_to_list`, `get_empty_chunks`, `get_filled_chunks`, `get_alloc_chunk` — the shared lists;
* `gc_alloc`, `chunk_from_cache`, `gc_free`, `gc_reclaim`, `gc_enter`, `gc_init` — the threads;
* `Call`, `exec`, `allocator` — the calls in any order;
* `Sound` — what the allocator promises.

A function answers `none` where the source would read a field that has not been stored to, leave an
array, follow a null pointer, fail its assertion or not return.  Loops have a bound for that reason.
Memory does not run out and there are no hooks.
-/

namespace ConcurrentPQ.Allocator

open ConcurrentPQ.Transition ConcurrentPQ.Circle

abbrev Tid := ℕ

/-- Chunks are numbered in the order in which `alloc_more_chunks` gets them. -/
abbrev Chunk := ℕ

/-- The address of a block. -/
abbrev Block := ℕ

abbrev BLKS_PER_CHUNK : ℕ := 100

abbrev CHUNKS_PER_ALLOC : ℕ := 1000

abbrev ALLOC_CHUNKS_PER_LIST : ℕ := 10

abbrev NR_EPOCHS : ℕ := 3

abbrev MAX_SIZES : ℕ := 32

/-- `NUM_LEVELS` of `prioq.h`. -/
abbrev NUM_LEVELS : ℕ := 32

/-- The fields `next`, `i` and `blk` of the chunks; an `i` that was never stored to is `none`.  `brk` is
the next chunk and `node` the next address that `ALIGNED_ALLOC` returns; `cls` records for which
`alloc_id` the memory at an address was got. -/
structure Heap where
  next : Chunk → Chunk
  i : Chunk → Option ℕ
  blk : Chunk → ℕ → Block
  brk : ℕ
  node : ℕ
  cls : Block → Option ℕ

/-- `gc_global`. -/
structure Global where
  current : ℕ
  inreclaim : ℕ
  nr_sizes : ℕ
  blk_sizes : ℕ → ℕ
  free_chunks : Chunk
  alloc : ℕ → Chunk
  alloc_size : ℕ → ℕ

/-- `count` of `ptst_st`, and its `gc_st`. -/
structure Ptst where
  count : UInt32
  epoch : ℕ
  entries_since_reclaim : UInt32
  garbage : ℕ → ℕ → Option Chunk
  garbage_tail : ℕ → ℕ → Option Chunk
  chunk_cache : Chunk
  alloc : ℕ → Chunk
  alloc_chunks : ℕ → ℕ

/-- The collector.  `ptst` of a thread is null until it first enters a critical section; `held` records
the blocks that `gc_alloc` has returned and that have not been freed since, with their `alloc_id`. -/
structure State where
  heap : Heap
  global : Global
  ptst_list : List Tid
  ptst : Tid → Option Ptst
  held : Block → Option ℕ

/-! ### Stores -/

def Heap.setNext (h : Heap) (c d : Chunk) : Heap := { h with next := Function.update h.next c d }

def Heap.setI (h : Heap) (c : Chunk) (n : ℕ) : Heap := { h with i := Function.update h.i c (some n) }

def Heap.setBlk (h : Heap) (c : Chunk) (k : ℕ) (b : Block) : Heap :=
  { h with blk := Function.update h.blk c (Function.update (h.blk c) k b) }

def Ptst.setGarbage (gc : Ptst) (e i : ℕ) (c : Chunk) : Ptst :=
  { gc with garbage := Function.update gc.garbage e (Function.update (gc.garbage e) i (some c)) }

def Ptst.setTail (gc : Ptst) (e i : ℕ) (c : Chunk) : Ptst :=
  { gc with
    garbage_tail := Function.update gc.garbage_tail e (Function.update (gc.garbage_tail e) i (some c)) }

theorem setGarbage_garbage {gc : Ptst} {e i e' i' : ℕ} {c : Chunk} :
    (gc.setGarbage e i c).garbage e' i' = if e' = e ∧ i' = i then some c else gc.garbage e' i' := by
  rw [Ptst.setGarbage]
  dsimp only
  rw [Function.update_apply]
  split
  · next he =>
    rw [Function.update_apply, he]
    simp
  · next he => rw [if_neg fun h => he h.1]

theorem setTail_tail {gc : Ptst} {e i e' i' : ℕ} {c : Chunk} :
    (gc.setTail e i c).garbage_tail e' i' =
      if e' = e ∧ i' = i then some c else gc.garbage_tail e' i' := by
  rw [Ptst.setTail]
  dsimp only
  rw [Function.update_apply]
  split
  · next he =>
    rw [Function.update_apply, he]
    simp
  · next he => rw [if_neg fun h => he h.1]

def State.setPtst (s : State) (t : Tid) (gc : Ptst) : State :=
  { s with ptst := Function.update s.ptst t (some gc) }

/-! ### The shared lists -/

/-- `alloc_more_chunks`. -/
def alloc_more_chunks (h : Heap) : Chunk × Heap :=
  (h.brk, { h with
    next := fun c =>
      if h.brk ≤ c ∧ c < h.brk + CHUNKS_PER_ALLOC then
        if c + 1 = h.brk + CHUNKS_PER_ALLOC then h.brk else c + 1
      else h.next c
    brk := h.brk + CHUNKS_PER_ALLOC })

/-- `add_chunks_to_list`. -/
def add_chunks_to_list (ch head : Chunk) (h : Heap) : Heap :=
  (h.setNext ch (h.next head)).setNext head (h.next ch)

/-- The walk of `get_empty_chunks` from `rt`; it comes to nothing at the end of the list. -/
def walk (head : Chunk) (h : Heap) : ℕ → Chunk → Option Chunk
  | 0, rt => some rt
  | n + 1, rt => if h.next rt = head then none else walk head h n (h.next rt)

/-- `get_empty_chunks`, with a bound on the number of walks. -/
def get_empty_chunks (head : Chunk) (n : ℕ) : ℕ → Heap → Option (Chunk × Heap)
  | 0, _ => none
  | retries + 1, h =>
    match walk head h n head with
    | some rt =>
      let rh := h.next head
      some (rh, (h.setNext head (h.next rt)).setNext rt rh)
    | none =>
      let (ch, h) := alloc_more_chunks h
      get_empty_chunks head n retries (add_chunks_to_list ch head h)

/-- One chunk in `get_filled_chunks`. -/
def Heap.fill (h : Heap) (sz : ℕ) (p : Chunk) (node : Block) : Heap :=
  { h with
    i := Function.update h.i p (some BLKS_PER_CHUNK)
    blk := Function.update h.blk p fun k =>
      if k < BLKS_PER_CHUNK then node + k * sz else h.blk p k }

/-- The loop of `get_filled_chunks` over the ring of `first`, with a bound on the number of chunks. -/
def fill_chunks (sz : ℕ) (first : Chunk) : ℕ → Chunk → Block → Heap → Option Heap
  | 0, _, _, _ => none
  | n + 1, p, node, h =>
    let h := h.fill sz p node
    if h.next p = first then some h
    else fill_chunks sz first n (h.next p) (node + BLKS_PER_CHUNK * sz) h

/-- `ALIGNED_ALLOC` of `n` bytes for the blocks of `alloc_id`. -/
def Heap.aligned_alloc (h : Heap) (n alloc_id : ℕ) : Heap :=
  { h with
    node := h.node + n
    cls := fun b => if h.node ≤ b ∧ b < h.node + n then some alloc_id else h.cls b }

/-- `get_filled_chunks`, for the blocks of `alloc_id`. -/
def get_filled_chunks (free_chunks : Chunk) (n sz alloc_id : ℕ) (h : Heap) : Option (Chunk × Heap) := do
  let node := h.node
  let (p, h) ← get_empty_chunks free_chunks n (n + 1) (h.aligned_alloc (n * BLKS_PER_CHUNK * sz) alloc_id)
  let h ← fill_chunks sz p n p node h
  some (p, h)

/-- `get_alloc_chunk`, with a bound on the number of times it finds the list empty. -/
def get_alloc_chunk (i : ℕ) : ℕ → Heap → Global → Option (Chunk × Heap × Global)
  | 0, _, _ => none
  | n + 1, h, g =>
    let alloc := g.alloc i
    let p := h.next alloc
    if p = alloc then do
      let sz := g.alloc_size i
      let (nh, h) ← get_filled_chunks g.free_chunks sz (g.blk_sizes i) i h
      let g := { g with alloc_size := Function.update g.alloc_size i (sz + sz / 8) }
      get_alloc_chunk i n (add_chunks_to_list nh alloc h) g
    else
      let h := (h.setNext alloc (h.next p)).setNext p p
      -- assert(p->i == BLKS_PER_CHUNK)
      if h.i p = some BLKS_PER_CHUNK then some (p, h, g) else none

/-! ### Blocks -/

/-- The first half of `gc_alloc`: the thread's allocation chunk is not empty afterwards. -/
def refill (alloc_id : ℕ) (h : Heap) (g : Global) (gc : Ptst) : Option (Heap × Global × Ptst) :=
  let och := gc.alloc alloc_id
  if h.i och = some 0 then
    if gc.alloc_chunks alloc_id = 100 then do
      let (ch, h, g) ← get_alloc_chunk alloc_id 2 (add_chunks_to_list och g.free_chunks h) g
      some (h, g, { gc with
        alloc := Function.update gc.alloc alloc_id ch
        alloc_chunks := Function.update gc.alloc_chunks alloc_id 0 })
    else do
      let (ch, h, g) ← get_alloc_chunk alloc_id 2 h g
      some ((h.setNext ch (h.next och)).setNext och ch, g, { gc with
        alloc := Function.update gc.alloc alloc_id ch
        alloc_chunks := Function.update gc.alloc_chunks alloc_id (gc.alloc_chunks alloc_id + 1) })
  else some (h, g, gc)

/-- `gc_alloc`. -/
def gc_alloc (alloc_id : ℕ) (h : Heap) (g : Global) (gc : Ptst) :
    Option (Block × Heap × Global × Ptst) := do
  let (h, g, gc) ← refill alloc_id h g gc
  let ch := gc.alloc alloc_id
  match h.i ch with
  | some (k + 1) => some (h.blk ch k, h.setI ch k, g, gc)
  | _ => none

/-- `chunk_from_cache`. -/
def chunk_from_cache (free_chunks : Chunk) (h : Heap) (gc : Ptst) : Option (Chunk × Heap × Ptst) :=
  let ch := gc.chunk_cache
  let p := h.next ch
  if ch = p then do
    let (cache, h) ← get_empty_chunks free_chunks 100 101 h
    some (p, h.setI p 0, { gc with chunk_cache := cache })
  else some (p, ((h.setNext ch (h.next p)).setNext p p).setI p 0, gc)

/-- The first half of `gc_free`: the first garbage chunk is not full afterwards. -/
def make_room (alloc_id : ℕ) (h : Heap) (g : Global) (gc : Ptst) : Option (Chunk × Heap × Ptst) :=
  match gc.garbage gc.epoch alloc_id with
  | none => do
    let (ch, h, gc) ← chunk_from_cache g.free_chunks h gc
    some (ch, h, (gc.setGarbage gc.epoch alloc_id ch).setTail gc.epoch alloc_id ch)
  | some ch =>
    if h.i ch = some BLKS_PER_CHUNK then do
      let prev ← gc.garbage_tail gc.epoch alloc_id
      let (new, h, gc) ← chunk_from_cache g.free_chunks h gc
      some (new, (h.setNext new ch).setNext prev new, gc.setGarbage gc.epoch alloc_id new)
    else some (ch, h, gc)

/-- `gc_free`. -/
def gc_free (p : Block) (alloc_id : ℕ) (h : Heap) (g : Global) (gc : Ptst) : Option (Heap × Ptst) := do
  let (ch, h, gc) ← make_room alloc_id h g gc
  match h.i ch with
  | some k => if k < BLKS_PER_CHUNK then some ((h.setBlk ch k p).setI ch (k + 1), gc) else none
  | none => none

/-! ### Epochs -/

/-- One garbage list in `gc_reclaim`. -/
def reclaim_list (three_ago : ℕ) (g : Global) (s : Heap × Ptst) (i : ℕ) : Option (Heap × Ptst) :=
  match s.2.garbage three_ago i with
  | none => some s
  | some t =>
    let ch := s.1.next t
    if ch = t then some s
    else do
      let tail ← s.2.garbage_tail three_ago i
      let h := (s.1.setNext tail ch).setNext t t
      some (add_chunks_to_list ch (g.alloc i) h, s.2.setTail three_ago i t)

/-- The garbage lists of one thread in `gc_reclaim`. -/
def reclaim_thread (three_ago : ℕ) (s : State) (t : Tid) : Option State := do
  let gc ← s.ptst t
  let (h, gc) ← (List.range s.global.nr_sizes).foldlM (reclaim_list three_ago s.global) (s.heap, gc)
  some ({ s with heap := h }.setPtst t gc)

/-- The thread is in a critical section it has entered in another epoch. -/
def State.behind (s : State) (t : Tid) : Bool :=
  match s.ptst t with
  | some gc => 1 < gc.count ∧ gc.epoch ≠ s.global.current
  | none => false

/-- `gc_reclaim`. -/
def gc_reclaim (s : State) : Option State :=
  if s.global.inreclaim ≠ 0 then some s
  else if s.ptst_list.any s.behind then some s
  else do
    let epoch := (s.global.current + 1) % NR_EPOCHS
    let s ← s.ptst_list.foldlM (reclaim_thread epoch) s
    some { s with global := { s.global with current := epoch } }

/-- `gc_enter`, with a bound on the number of attempts. -/
def gc_enter (t : Tid) : ℕ → State → Option State
  | 0, _ => none
  | attempts + 1, s => do
    let gc ← s.ptst t
    let cnt := gc.count
    if cnt = 1 then
      if gc.epoch ≠ s.global.current then
        some (s.setPtst t { gc with
          count := cnt + 1, epoch := s.global.current, entries_since_reclaim := 0 })
      else if gc.entries_since_reclaim = 100 then do
        let s ← gc_reclaim (s.setPtst t { gc with entries_since_reclaim := 0 })
        gc_enter t attempts s
      else
        some (s.setPtst t { gc with
          count := cnt + 1, entries_since_reclaim := gc.entries_since_reclaim + 1 })
    else some (s.setPtst t { gc with count := cnt + 1 })

/-- `gc_exit`. -/
def gc_exit (gc : Ptst) : Ptst := { gc with count := gc.count - 1 }

/-! ### Initialisation -/

/-- `gc->alloc[i] = get_alloc_chunk(gc, i)`. -/
def init_alloc (s : Heap × Global × Ptst) (i : ℕ) : Option (Heap × Global × Ptst) := do
  let (ch, h, g) ← get_alloc_chunk i 2 s.1 s.2.1
  some (h, g, { s.2.2 with alloc := Function.update s.2.2.alloc i ch })

/-- `gc->alloc[i] = chunk_from_cache(gc)`. -/
def init_unused (free_chunks : Chunk) (s : Heap × Ptst) (i : ℕ) : Option (Heap × Ptst) := do
  let (ch, h, gc) ← chunk_from_cache free_chunks s.1 s.2
  some (h, { gc with alloc := Function.update gc.alloc i ch })

/-- `gc_init`, and the `count` that `critical_enter` sets.  The arrays are filled with zeros first. -/
def gc_init (h : Heap) (g : Global) : Option (Heap × Global × Ptst) := do
  let (cache, h) ← get_empty_chunks g.free_chunks 100 101 h
  let gc : Ptst := ⟨1, 0, 0, fun _ _ => none, fun _ _ => none, cache, fun _ => 0, fun _ => 0⟩
  let (h, g, gc) ← (List.range g.nr_sizes).foldlM init_alloc (h, g, gc)
  let (h, gc) ← (List.range' g.nr_sizes (MAX_SIZES - g.nr_sizes)).foldlM (init_unused g.free_chunks) (h, gc)
  some (h, g, gc)

/-- `critical_enter`. -/
def critical_enter (t : Tid) (s : State) : Option State :=
  match s.ptst t with
  | some _ => gc_enter t 2 s
  | none => do
    let (h, g, gc) ← gc_init s.heap s.global
    gc_enter t 2 ({ s with heap := h, global := g, ptst_list := t :: s.ptst_list }.setPtst t gc)

/-- `gc_add_allocator`. -/
def gc_add_allocator (s : Heap × Global) (sz : ℕ) : Option (Heap × Global) := do
  let i := s.2.nr_sizes
  let (ch, h) ← get_filled_chunks s.2.free_chunks ALLOC_CHUNKS_PER_LIST sz i s.1
  some (h, { s.2 with
    nr_sizes := i + 1
    blk_sizes := Function.update s.2.blk_sizes i sz
    alloc_size := Function.update s.2.alloc_size i ALLOC_CHUNKS_PER_LIST
    alloc := Function.update s.2.alloc i ch })

/-- `_init_gc_subsystem`, in a memory of which nothing is known. -/
def init_gc_subsystem (next : Chunk → Chunk) (blk : Chunk → ℕ → Block) (node : Block) : Heap × Global :=
  let (free_chunks, h) := alloc_more_chunks ⟨next, fun _ => none, blk, 0, node, fun _ => none⟩
  (h, ⟨0, 0, 0, fun _ => 0, free_chunks, fun _ => 0, fun _ => 0⟩)

/-- `sizeof(node_t)` and `sizeof(node_t *)`. -/
abbrev sizeof_node : ℕ := 24

abbrev sizeof_pointer : ℕ := 8

/-- The block sizes that `pq_init` asks for. -/
def node_sizes : List ℕ := (List.range NUM_LEVELS).map fun i => sizeof_node + i * sizeof_pointer

/-! ### The calls -/

/-- The calls of a thread. -/
inductive Call where
  | critical_enter
  | critical_exit
  | gc_alloc (alloc_id : ℕ)
  | gc_free (p : Block) (alloc_id : ℕ)
  deriving DecidableEq

/-- A call that may be made: only a thread that has entered a critical section has a `ptst`, `alloc_id`s
are those of `gc_add_allocator`, and a block is freed once, under its `alloc_id`.  Whether the thread is
inside a critical section and which thread got the block makes no difference. -/
def Permitted (s : State) (t : Tid) : Call → Prop
  | .critical_enter => True
  | .critical_exit => s.ptst t ≠ none
  | .gc_alloc alloc_id => s.ptst t ≠ none ∧ alloc_id < s.global.nr_sizes
  | .gc_free p alloc_id => s.ptst t ≠ none ∧ s.held p = some alloc_id

/-- A call is carried out; `gc_alloc` returns a block. -/
def exec (s : State) (t : Tid) : Call → Option (Option Block × State)
  | .critical_enter => do
    let s ← critical_enter t s
    some (none, s)
  | .critical_exit => do
    let gc ← s.ptst t
    some (none, s.setPtst t (gc_exit gc))
  | .gc_alloc alloc_id => do
    let gc ← s.ptst t
    let (b, h, g, gc) ← gc_alloc alloc_id s.heap s.global gc
    some (some b, { s with
      heap := h, global := g, held := Function.update s.held b (some alloc_id) }.setPtst t gc)
  | .gc_free p alloc_id => do
    let gc ← s.ptst t
    let (h, gc) ← gc_free p alloc_id s.heap s.global gc
    some (none, { s with heap := h, held := Function.update s.held p none }.setPtst t gc)

/-- The state after `pq_init`, with no thread registered. -/
def Initial (s : State) : Prop :=
  ∃ next blk node h g, node_sizes.foldlM gc_add_allocator (init_gc_subsystem next blk node) = some (h, g) ∧
    s = ⟨h, g, [], fun _ => none, fun _ => none⟩

/-- Any number of threads that call the functions in any order, each call as a whole. -/
def allocator : System State Tid (Call × Option Block) where
  init := Initial
  step s t c s' := Permitted s t c.1 ∧ exec s t c.1 = some (c.2, s')

/-! ### What is promised -/

/-- The first entries of a chunk are blocks. -/
def Heap.Live (h : Heap) (c : Chunk) (k : ℕ) : Prop := ∃ n, h.i c = some n ∧ k < n

/-- The block sits in a chunk of a garbage ring. -/
def InGarbage (s : State) (b : Block) : Prop :=
  ∃ t gc e i g m k, s.ptst t = some gc ∧ gc.garbage e i = some g ∧
    s.heap.Live (s.heap.next^[m] g) k ∧ s.heap.blk (s.heap.next^[m] g) k = b

/-- The epoch that a thread in a critical section has entered in. -/
def Ptst.reading (gc : Ptst) : Option ℕ := if 1 < gc.count then some gc.epoch else none

/-- What `gc_enter` and `gc_exit` work with. -/
def Ptst.clock (gc : Ptst) : UInt32 × ℕ × UInt32 := (gc.count, gc.epoch, gc.entries_since_reclaim)

/-- The readers are the threads in a critical section, and what has been freed in an epoch is in the
garbage rings of that epoch. -/
def State.epochs (s : State) : Epoch.Epochs Tid Block where
  current := s.global.current
  reading t := (s.ptst t).bind Ptst.reading
  limbo e := {b | ∃ t gc i g m k, s.ptst t = some gc ∧ gc.garbage e i = some g ∧
    s.heap.Live (s.heap.next^[m] g) k ∧ s.heap.blk (s.heap.next^[m] g) k = b}

/-- The thread is in a critical section. -/
def State.Inside (s : State) (t : Tid) : Prop := s.epochs.reading t ≠ none

/-- A critical section is left, and a block freed, only by a thread that is in a critical section. -/
def Bracketed (s : State) (t : Tid) : Call → Prop
  | .critical_enter | .gc_alloc _ => True
  | .critical_exit | .gc_free _ _ => s.Inside t

/-- The threads count their entries up to the one that reclaims. -/
def State.Calm (s : State) : Prop := ∀ t gc, s.ptst t = some gc → gc.entries_since_reclaim ≤ 100

/-- The block is held or sits in a chunk. -/
def Accounted (s : State) (b : Block) : Prop :=
  s.held b ≠ none ∨ ∃ c k, s.heap.Live c k ∧ s.heap.blk c k = b

/-- No chunk has more than `BLKS_PER_CHUNK` entries; a call that may be made is carried out, so the
assertion in `get_alloc_chunk` holds; and `gc_alloc` returns a block of the size class that is neither held
nor in a garbage chunk. -/
structure Sound (s : State) : Prop where
  index : ∀ c n, s.heap.i c = some n → n ≤ BLKS_PER_CHUNK
  runs : ∀ t c, Permitted s t c → ∃ r s', exec s t c = some (r, s')
  alloc : ∀ t alloc_id b s', Permitted s t (.gc_alloc alloc_id) →
    exec s t (.gc_alloc alloc_id) = some (some b, s') →
      s.held b = none ∧ ¬InGarbage s b ∧ s'.heap.cls b = some alloc_id

end ConcurrentPQ.Allocator

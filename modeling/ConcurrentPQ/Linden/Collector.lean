import ConcurrentPQ.Lib.Announce
import ConcurrentPQ.Linden.Allocator
import ConcurrentPQ.Linden.Chunks

/-!
# The collector, access by access

`gc_enter`, `gc_exit`, `gc_reclaim`, `gc_alloc` and `gc_free` of `lib/linden/gc/gc.c` for any number of
registered threads.  An access to a `next` field, to `gc_global`, to `ptst_list`, to `count`, `epoch`,
`garbage` or `garbage_tail` of a `ptst` is a step of its own; what only its owner ever looks at (the other
fields of a `gc_st`, and `i` and `blk` of the chunks a thread owns) goes with the next such access.  The
functions on the shared lists are those of `Chunks`, whose record of owned chunks is not kept up here.

* `Pc`, `State` — where a thread stands, and the memory;
* `code`, `listStep`, `resume` — the functions, the steps of the shared lists, and what follows these;
* `Move`, `Step`, `Initial`, `collector` — the calls of the threads that have been registered;
* `State.stage`, `State.Inside` — how far a thread has come with its critical section.

There are no hooks, memory does not run out, and the number of chunks that `get_filled_chunks` is asked for
is any positive number.
-/

namespace ConcurrentPQ.Collector

open ConcurrentPQ.Transition ConcurrentPQ.Announce
open ConcurrentPQ.Allocator (Chunk Block Ptst BLKS_PER_CHUNK NR_EPOCHS)

variable {n : ℕ}

abbrev Tid := ℕ

/-- The epoch after `e`. -/
def succ (e : ℕ) : ℕ := (e + 1) % NR_EPOCHS

/-- The garbage list that `gc_reclaim` is at, and those it goes through afterwards. -/
structure Sweeping (n : ℕ) where
  curr_epoch : ℕ
  ptst : Tid
  i : Fin n
  rest : List (Tid × Fin n)

/-- The arguments of `gc_free`. -/
structure Freeing (n : ℕ) where
  p : Block
  alloc_id : Fin n

/-- Program counters: `en*` is `gc_enter`, `ex*` is `gc_exit`, `rc*` is `gc_reclaim`, `al*` is `gc_alloc`,
`fr*` is `gc_free` with `chunk_from_cache`.  A new garbage chunk is for the front of `ch`, whose ring ends
with `prev`, or the first of its ring. -/
inductive Pc (n : ℕ) where
  | idle
  | enCount
  | enCurrent
  | enStore (new_epoch : ℕ)
  | enLeave
  | exCount
  | rcTest
  | rcCas
  | rcFirst
  | rcCurrent (first_ptst : List Tid)
  | rcCount (curr_epoch : ℕ) (first_ptst : List Tid) (ptst : Tid) (rest : List Tid)
  | rcEpoch (curr_epoch : ℕ) (first_ptst : List Tid) (ptst : Tid) (rest : List Tid)
  | rcGarbage (k : Sweeping n)
  | rcNext (k : Sweeping n) (t : Chunk)
  | rcTail (k : Sweeping n) (t ch : Chunk)
  | rcClose (k : Sweeping n) (t ch tail : Chunk)
  | rcStore (k : Sweeping n) (t ch : Chunk)
  | rcSelf (k : Sweeping n) (t ch : Chunk)
  | rcAdd (k : Sweeping n)
  | rcAdvance (curr_epoch : ℕ)
  | rcOut
  | alChunk (alloc_id : Fin n)
  | alReturn (alloc_id : Fin n)
  | alGet (alloc_id : Fin n)
  | alMore (alloc_id : Fin n)
  | alNext (alloc_id : Fin n) (ch : Chunk)
  | alLink (alloc_id : Fin n) (ch : Chunk)
  | alTake (alloc_id : Fin n)
  | frGarbage (k : Freeing n)
  | frFull (k : Freeing n) (ch : Chunk)
  | frPrev (k : Freeing n) (ch : Chunk)
  | frCache (k : Freeing n) (at_ : Option (Chunk × Chunk))
  | frFetch (k : Freeing n) (at_ : Option (Chunk × Chunk)) (p : Chunk)
  | frUnlink (k : Freeing n) (at_ : Option (Chunk × Chunk)) (p : Chunk)
  | frSelf (k : Freeing n) (at_ : Option (Chunk × Chunk)) (p : Chunk)
  | frHead (k : Freeing n) (at_ : Option (Chunk × Chunk)) (new : Chunk)
  | frStore (k : Freeing n) (new : Chunk)
  | frLink (k : Freeing n) (new ch prev : Chunk)
  | frClose (k : Freeing n) (new prev : Chunk)
  | frPut (k : Freeing n) (ch : Chunk)

/-- The memory: the `next` fields and where a thread stands in a function on the shared lists, the fields
`i` and `blk` of the chunks, the next address that `ALIGNED_ALLOC` returns, `gc_global`, and the threads.
`held` are the blocks that `gc_alloc` has returned and that have not been freed since. -/
structure State (n : ℕ) where
  lists : Chunks.State n
  i : Chunk → Option ℕ
  blk : Chunk → ℕ → Block
  node : Block
  blk_sizes : Fin n → ℕ
  current : ℕ
  inreclaim : ℕ
  ptst_list : List Tid
  ptst : Tid → Ptst
  pc : Tid → Pc n
  held : Block → Bool

/-! ### Stores -/

def State.goto (s : State n) (t : Tid) (pc : Pc n) : State n :=
  { s with pc := Function.update s.pc t pc }

/-- A function on the shared lists is called. -/
def State.call (s : State n) (t : Tid) (lpc : Chunks.Pc n) (pc : Pc n) : State n :=
  { s with lists := s.lists.goto t lpc, pc := Function.update s.pc t pc }

/-- A store to a `next` field. -/
def State.store (s : State n) (c d : Chunk) : State n := { s with lists := s.lists.store c d }

def State.setPtst (s : State n) (t : Tid) (gc : Ptst) : State n :=
  { s with ptst := Function.update s.ptst t gc }

def State.setI (s : State n) (c : Chunk) (k : ℕ) : State n :=
  { s with i := Function.update s.i c (some k) }

def State.setBlk (s : State n) (c : Chunk) (k : ℕ) (b : Block) : State n :=
  { s with blk := Function.update s.blk c (Function.update (s.blk c) k b) }

def State.setHeld (s : State n) (b : Block) (h : Bool) : State n :=
  { s with held := Function.update s.held b h }

/-! ### Rings -/

/-- The chunks from `c` on, up to the one that leads to `first`. -/
def around (next : Chunk → Chunk) (first : Chunk) : ℕ → Chunk → List Chunk
  | 0, _ => []
  | m + 1, c => c :: if next c = first then [] else around next first m (next c)

/-- The ring of a chunk. -/
def State.ring (s : State n) (c : Chunk) : List Chunk := around s.lists.next c s.lists.brk c

/-- The loop of `get_filled_chunks`, with `ALIGNED_ALLOC`. -/
def fill (sz : ℕ) : State n → List Chunk → State n
  | s, [] => s
  | s, p :: l =>
    fill sz { s with
      i := Function.update s.i p (some BLKS_PER_CHUNK)
      blk := Function.update s.blk p fun k => if k < BLKS_PER_CHUNK then s.node + k * sz else s.blk p k
      node := s.node + BLKS_PER_CHUNK * sz } l

/-! ### The functions -/

/-- `add_chunks_to_list(ch, list)` is called. -/
def State.add_chunks_to_list (s : State n) (t : Tid) (ch : Chunk) (list : Chunks.Lst n) (pc : Pc n) :
    State n := s.call t (.adNext .client list ch ((s.ring ch).rotate 1)) pc

/-- The loop of `gc_reclaim` over the garbage lists. -/
def sweep (curr_epoch : ℕ) : List (Tid × Fin n) → Pc n
  | [] => .rcAdvance curr_epoch
  | (v, i) :: rest => .rcGarbage ⟨curr_epoch, v, i, rest⟩

/-- The loop of `gc_reclaim` over the threads. -/
def scan (curr_epoch : ℕ) (first_ptst : List Tid) : List Tid → Pc n
  | [] => sweep curr_epoch (first_ptst.flatMap fun v => (List.finRange n).map fun i => (v, i))
  | v :: rest => .rcCount curr_epoch first_ptst v rest

/-- What a thread does next, unless it is in a function on the shared lists; `gc_alloc` returns a block. -/
def code (s : State n) (t : Tid) : Option (Option Block × State n) :=
  let gc := s.ptst t
  match s.pc t with
  -- gc_enter
  | .enCount =>
    let s := s.setPtst t { gc with count := gc.count + 1 }
    some (none, if gc.count = 1 then s.goto t .enCurrent else s.goto t .idle)
  | .enCurrent =>
    if gc.epoch ≠ s.current then some (none, s.goto t (.enStore s.current))
    else if gc.entries_since_reclaim = 100 then
      some (none, (s.setPtst t { gc with entries_since_reclaim := 101 }).goto t .enLeave)
    else some (none, (s.setPtst t { gc with
      entries_since_reclaim := gc.entries_since_reclaim + 1 }).goto t .idle)
  | .enStore new_epoch =>
    some (none, (s.setPtst t { gc with epoch := new_epoch, entries_since_reclaim := 0 }).goto t .idle)
  | .enLeave =>
    some (none, (s.setPtst t { gc with count := gc.count - 1, entries_since_reclaim := 0 }).goto t .rcTest)
  -- gc_exit
  | .exCount => some (none, (s.setPtst t { gc with count := gc.count - 1 }).goto t .idle)
  -- gc_reclaim
  | .rcTest => some (none, s.goto t (if s.inreclaim ≠ 0 then .enCount else .rcCas))
  | .rcCas =>
    if s.inreclaim = 0 then some (none, { s with inreclaim := 1 }.goto t .rcFirst)
    else some (none, s.goto t .enCount)
  | .rcFirst => some (none, s.goto t (.rcCurrent s.ptst_list))
  | .rcCurrent first_ptst => some (none, s.goto t (scan s.current first_ptst first_ptst))
  | .rcCount curr_epoch first_ptst v rest =>
    if 1 < (s.ptst v).count then some (none, s.goto t (.rcEpoch curr_epoch first_ptst v rest))
    else some (none, s.goto t (scan curr_epoch first_ptst rest))
  | .rcEpoch curr_epoch first_ptst v rest =>
    if (s.ptst v).epoch ≠ curr_epoch then some (none, s.goto t .rcOut)
    else some (none, s.goto t (scan curr_epoch first_ptst rest))
  | .rcGarbage k =>
    match (s.ptst k.ptst).garbage (succ k.curr_epoch) k.i with
    | none => some (none, s.goto t (sweep k.curr_epoch k.rest))
    | some h => some (none, s.goto t (.rcNext k h))
  | .rcNext k h =>
    if s.lists.next h = h then some (none, s.goto t (sweep k.curr_epoch k.rest))
    else some (none, s.goto t (.rcTail k h (s.lists.next h)))
  | .rcTail k h ch =>
    match (s.ptst k.ptst).garbage_tail (succ k.curr_epoch) k.i with
    | none => none
    | some tail => some (none, s.goto t (.rcClose k h ch tail))
  | .rcClose k h ch tail => some (none, (s.store tail ch).goto t (.rcStore k h ch))
  | .rcStore k h ch =>
    some (none, (s.setPtst k.ptst ((s.ptst k.ptst).setTail (succ k.curr_epoch) k.i h)).goto t (.rcSelf k h ch))
  | .rcSelf k h ch =>
    some (none, (s.store h h).add_chunks_to_list t ch (.alloc k.i) (.rcAdd k))
  | .rcAdvance curr_epoch => some (none, { s with current := succ curr_epoch }.goto t .rcOut)
  | .rcOut => some (none, { s with inreclaim := 0 }.goto t .enCount)
  -- gc_alloc
  | .alChunk alloc_id =>
    let ch := gc.alloc alloc_id
    if s.i ch = some 0 then
      if gc.alloc_chunks alloc_id = 100 then
        some (none, (s.setPtst t { gc with
          alloc_chunks := Function.update gc.alloc_chunks alloc_id 0 }).add_chunks_to_list t ch .free
            (.alReturn alloc_id))
      else some (none, (s.setPtst t { gc with
        alloc_chunks := Function.update gc.alloc_chunks alloc_id (gc.alloc_chunks alloc_id + 1) }).call t
          (.alHead alloc_id) (.alMore alloc_id))
    else some (none, s.goto t (.alTake alloc_id))
  | .alNext alloc_id ch =>
    some (none, (s.store ch (s.lists.next (gc.alloc alloc_id))).goto t (.alLink alloc_id ch))
  | .alLink alloc_id ch =>
    some (none, ((s.store (gc.alloc alloc_id) ch).setPtst t { gc with
      alloc := Function.update gc.alloc alloc_id ch }).goto t (.alTake alloc_id))
  | .alTake alloc_id =>
    let ch := gc.alloc alloc_id
    match s.i ch with
    | some (k + 1) => some (some (s.blk ch k), ((s.setI ch k).setHeld (s.blk ch k) true).goto t .idle)
    | _ => none
  -- gc_free
  | .frGarbage k =>
    match gc.garbage gc.epoch k.alloc_id with
    | none => some (none, s.goto t (.frCache k none))
    | some ch => some (none, s.goto t (.frFull k ch))
  | .frFull k ch =>
    if s.i ch = some BLKS_PER_CHUNK then some (none, s.goto t (.frPrev k ch))
    else some (none, s.goto t (.frPut k ch))
  | .frPrev k ch =>
    match gc.garbage_tail gc.epoch k.alloc_id with
    | none => none
    | some prev => some (none, s.goto t (.frCache k (some (ch, prev))))
  | .frCache k at_ =>
    let p := s.lists.next gc.chunk_cache
    if gc.chunk_cache = p then some (none, s.call t (.emHead .client 100) (.frFetch k at_ p))
    else some (none, s.goto t (.frUnlink k at_ p))
  | .frUnlink k at_ p =>
    some (none, (s.store gc.chunk_cache (s.lists.next p)).goto t (.frSelf k at_ p))
  | .frSelf k at_ p => some (none, ((s.store p p).setI p 0).goto t (.frHead k at_ p))
  | .frHead k at_ new =>
    let s := s.setPtst t (gc.setGarbage gc.epoch k.alloc_id new)
    match at_ with
    | none => some (none, s.goto t (.frStore k new))
    | some (ch, prev) => some (none, s.goto t (.frLink k new ch prev))
  | .frStore k new => some (none, (s.setPtst t (gc.setTail gc.epoch k.alloc_id new)).goto t (.frPut k new))
  | .frLink k new ch prev => some (none, (s.store new ch).goto t (.frClose k new prev))
  | .frClose k new prev => some (none, (s.store prev new).goto t (.frPut k new))
  | .frPut k ch =>
    match s.i ch with
    | none => none
    | some j => some (none, ((s.setBlk ch j k.p).setI ch (j + 1)).goto t .idle)
  | .idle | .rcAdd _ | .alReturn _ | .alGet _ | .alMore _ | .frFetch .. => none

/-- A function on the shared lists has returned `r`. -/
def State.resume (s : State n) (t : Tid) (r : Chunk) : State n :=
  let gc := s.ptst t
  match s.pc t with
  | .rcAdd k => s.goto t (sweep k.curr_epoch k.rest)
  | .alReturn alloc_id => s.call t (.alHead alloc_id) (.alGet alloc_id)
  | .alGet alloc_id =>
    (s.setPtst t { gc with alloc := Function.update gc.alloc alloc_id r }).goto t (.alTake alloc_id)
  | .alMore alloc_id => s.goto t (.alNext alloc_id r)
  | .frFetch k at_ p => ((s.setPtst t { gc with chunk_cache := r }).setI p 0).goto t (.frHead k at_ p)
  | _ => s

/-- What a function on the shared lists returns with its last access. -/
def result : Chunks.Pc n → Chunk
  | .emClose _ rh _ _ => rh
  | .alClose _ p => p
  | _ => 0

/-- The next access of a function on the shared lists; `get_filled_chunks` fills its ring. -/
def listStep (s : State n) (t : Tid) (sz : ℕ) : Option (State n) :=
  (Chunks.run s.lists t sz).map fun lists =>
    let s' := { s with lists := lists }
    match s.lists.pc t with
    | .emClose (.get_filled_chunks i) rh _ _ => fill (s.blk_sizes i) s' (s'.ring rh)
    | pc => if lists.pc t = .idle then s'.resume t (result pc) else s'

/-! ### Critical sections -/

/-- How far a thread has come with its critical section. -/
def State.stage (s : State n) (t : Tid) : Stage ℕ :=
  if 1 < (s.ptst t).count then
    match s.pc t with
    | .enCurrent => .counted
    | .enStore new_epoch => .looked new_epoch
    | _ => .inside
  else .out

/-- The thread is in a critical section, `critical_enter` having returned. -/
def State.Inside (s : State n) (t : Tid) : Prop :=
  1 < (s.ptst t).count ∧ s.pc t ≠ .enCurrent ∧ ∀ new_epoch, s.pc t ≠ .enStore new_epoch

/-! ### The calls -/

/-- What a thread may do: call one of the functions, or perform its next access. -/
inductive Move (n : ℕ) where
  | critical_enter
  | critical_exit
  | gc_alloc (alloc_id : Fin n)
  | gc_free (p : Block) (alloc_id : Fin n)
  | run (sz : ℕ)
  deriving DecidableEq

/-- The thread is registered and between its calls. -/
def State.Ready (s : State n) (t : Tid) : Prop :=
  t ∈ s.ptst_list ∧ s.pc t = .idle ∧ s.lists.pc t = .idle

/-- The steps of a thread.  A critical section is left, and a block freed, only by a thread that is in a
critical section, and a block is freed once; which thread got the block makes no difference. -/
inductive Step (s : State n) (t : Tid) : Move n → Option Block → State n → Prop
  | critical_enter : s.Ready t → Step s t .critical_enter none (s.goto t .enCount)
  | critical_exit : s.Ready t → s.Inside t → Step s t .critical_exit none (s.goto t .exCount)
  | gc_alloc (alloc_id : Fin n) : s.Ready t →
      Step s t (.gc_alloc alloc_id) none (s.goto t (.alChunk alloc_id))
  | gc_free (p : Block) (alloc_id : Fin n) : s.Ready t → s.Inside t → s.held p = true →
      Step s t (.gc_free p alloc_id) none ((s.setHeld p false).goto t (.frGarbage ⟨p, alloc_id⟩))
  | code {sz : ℕ} {r : Option Block} {s' : State n} : t ∈ s.ptst_list → s.lists.pc t = .idle →
      code s t = some (r, s') → Step s t (.run sz) r s'
  | lists {sz : ℕ} {s' : State n} : t ∈ s.ptst_list → s.lists.pc t ≠ .idle →
      listStep s t sz = some s' → Step s t (.run sz) none s'

/-! ### Any number of threads -/

/-- The rings of chunks that a thread has, and the chunks it has just taken. -/
inductive Place (n : ℕ) where
  | cache (t : Tid)
  | alloc (t : Tid) (i : Fin n)
  | garbage (t : Tid) (e : ℕ) (i : Fin n)
  | hand (t : Tid)
  deriving DecidableEq

/-- The first entries of a chunk are blocks. -/
def State.Live (s : State n) (c : Chunk) (k : ℕ) : Prop := ∃ m, s.i c = some m ∧ k < m

/-- A thread that `critical_enter` has just registered. -/
structure Registered (gc : Ptst) : Prop where
  count : gc.count = 1
  epoch : gc.epoch = 0
  entries : gc.entries_since_reclaim = 0
  garbage : ∀ e i, gc.garbage e i = none ∧ gc.garbage_tail e i = none
  alloc_chunks : ∀ i, gc.alloc_chunks i = 0

/-- The chunks of each list and of each ring of a thread, when the threads have been registered. -/
structure Arranged (s : State n) (body : Chunks.Lst n → List Chunk) (L : Place n → List Chunk) : Prop where
  brk : n < s.lists.brk
  ring : ∀ list, Segment.Seg s.lists.next (s.lists.next list.head) (body list) list.head
  bound : (∀ list, ∀ c ∈ body list, n < c ∧ c < s.lists.brk) ∧ ∀ p, ∀ c ∈ L p, n < c ∧ c < s.lists.brk
  lists : ∀ list list' c, c ∈ body list → c ∈ body list' → list = list'
  apart : ∀ p q c, c ∈ L p → c ∈ L q → p = q
  outside : ∀ list p c, c ∈ body list → c ∉ L p
  nodup : ∀ p, (L p).Nodup
  circ : ∀ p, Circle.Circ s.lists.next (L p)
  cache : ∀ t ∈ s.ptst_list, (L (.cache t)).head? = some (s.ptst t).chunk_cache
  alloc : ∀ t ∈ s.ptst_list, ∀ i : Fin n, (L (.alloc t i)).head? = some ((s.ptst t).alloc i)
  garbage : ∀ t e i, L (.garbage t e i) = []
  hand : ∀ t, L (.hand t) = []

/-- The state after the threads of `ptst_list` have been registered: no thread has called anything yet, and
no two entries of chunks are the same block. -/
structure Initial (s : State n) : Prop where
  current : s.current = 0
  inreclaim : s.inreclaim = 0
  idle : ∀ t, s.pc t = .idle ∧ s.lists.pc t = .idle
  held : ∀ b, s.held b = false
  sizes : ∀ i, 0 < s.blk_sizes i
  registered : ∀ t ∈ s.ptst_list, Registered (s.ptst t)
  unregistered : ∀ t, t ∉ s.ptst_list → (s.ptst t).count = 0 ∧
    ∀ e i, (s.ptst t).garbage e i = none ∧ (s.ptst t).garbage_tail e i = none
  chunks : ∃ body L, Arranged s body L
  inj : ∀ c k d j, s.Live c k → s.Live d j → s.blk c k = s.blk d j → c = d ∧ k = j
  below : ∀ c k, s.Live c k → s.blk c k < s.node

/-- The registered threads take steps in any order. -/
def collector (n : ℕ) : System (State n) Tid (Move n × Option Block) where
  init := Initial
  step s t m s' := Step s t m.1 m.2 s'

end ConcurrentPQ.Collector

import ConcurrentPQ.Lib.Segment
import ConcurrentPQ.Lib.Transition

/-!
# The shared chunk lists of the collector

`add_chunks_to_list`, `get_empty_chunks` and `get_alloc_chunk` of `gc.c`, one access to a `next` field
at a time.  The lists are circular, and a chunk that is never taken stands for each of them.  What a
thread owns is recorded beside the memory: a successful compare-and-swap hands it the chunks it has
walked over, or takes from it those it links in.

* `Lst`, `Pc`, `State`, `run`, `Move`, `next`, `chunkLists` — the program and its callers;
* `OnList`, `Holds`, `Partitioned` — where a chunk is, and that it is in one place;
* `Current` — the chunks a removal has walked over are still the first of the list.

What `get_filled_chunks` stores in the chunks themselves is left out, and `alloc_size` with it: a list is
filled with any positive number of chunks.
-/

namespace ConcurrentPQ.Chunks

open ConcurrentPQ.Transition ConcurrentPQ.Segment

abbrev Tid := ℕ

/-- A chunk is a number: 0 stands for `free_chunks` and `i + 1` for the allocation list of size `i`, and
`alloc_more_chunks` hands out larger ones in turn. -/
abbrev Chunk := ℕ

/-- `CHUNKS_PER_ALLOC`. -/
abbrev CHUNKS_PER_ALLOC : ℕ := 1000

/-- The shared lists: `gc_global.free_chunks`, and `gc_global.alloc[i]` for each block size. -/
inductive Lst (nr_sizes : ℕ) where
  | free
  | alloc (i : Fin nr_sizes)
  deriving DecidableEq

variable {nr_sizes : ℕ}

/-- `gc_global.free_chunks`. -/
abbrev free_chunks : Chunk := 0

/-- The chunk that stands for the list. -/
def Lst.head : Lst nr_sizes → Chunk
  | .free => free_chunks
  | .alloc i => i + 1

/-- Who called `get_empty_chunks`: `get_filled_chunks` in `get_alloc_chunk(i)`, or a client. -/
inductive Caller (nr_sizes : ℕ) where
  | client
  | get_filled_chunks (i : Fin nr_sizes)
  deriving DecidableEq

/-- Who called `add_chunks_to_list`. -/
inductive Adder (nr_sizes : ℕ) where
  | client
  | get_empty_chunks (k : Caller nr_sizes) (n : ℕ)
  | get_alloc_chunk (i : Fin nr_sizes)
  deriving DecidableEq

/-- Program counters: `ad*` is `add_chunks_to_list`, `em*` is `get_empty_chunks`, `al*` is
`get_alloc_chunk`.  `chain` are the chunks that are linked in, from `ch->next` round to `ch`, and `seen`
those walked over; the program has no use for either. -/
inductive Pc (nr_sizes : ℕ) where
  | idle
  | adNext (k : Adder nr_sizes) (list : Lst nr_sizes) (ch : Chunk) (chain : List Chunk)
  | adHead (k : Adder nr_sizes) (list : Lst nr_sizes) (ch ch_next : Chunk) (chain : List Chunk)
  | adLink (k : Adder nr_sizes) (list : Lst nr_sizes) (ch ch_next new_h_next : Chunk)
      (chain : List Chunk)
  | adCas (k : Adder nr_sizes) (list : Lst nr_sizes) (ch ch_next h_next : Chunk)
      (chain : List Chunk)
  | emHead (k : Caller nr_sizes) (n : ℕ)
  | emWalk (k : Caller nr_sizes) (n : ℕ) (rh rt : Chunk) (seen : List Chunk)
  | emMore (k : Caller nr_sizes) (n : ℕ)
  | emNext (k : Caller nr_sizes) (n : ℕ) (rh rt : Chunk) (seen : List Chunk)
  | emCas (k : Caller nr_sizes) (n : ℕ) (rh rt rt_next : Chunk) (seen : List Chunk)
  | emClose (k : Caller nr_sizes) (rh rt : Chunk) (seen : List Chunk)
  | alHead (i : Fin nr_sizes)
  | alFill (i : Fin nr_sizes)
  | alNext (i : Fin nr_sizes) (p : Chunk)
  | alCas (i : Fin nr_sizes) (p p_next : Chunk)
  | alClose (i : Fin nr_sizes) (p : Chunk)
  deriving DecidableEq

/-- The `next` fields; the number of the next chunk that `alloc_more_chunks` gets; what each thread owns
and where it stands. -/
structure State (nr_sizes : ℕ) where
  next : Chunk → Chunk
  brk : Chunk
  own : Tid → List Chunk
  pc : Tid → Pc nr_sizes

/-- The thread stands elsewhere. -/
def State.goto (s : State nr_sizes) (t : Tid) (pc : Pc nr_sizes) : State nr_sizes :=
  { s with pc := Function.update s.pc t pc }

/-- A store to a `next` field. -/
def State.store (s : State nr_sizes) (c d : Chunk) : State nr_sizes :=
  { s with next := Function.update s.next c d }

/-- A thread owns other chunks. -/
def State.setOwn (s : State nr_sizes) (t : Tid) (l : List Chunk) : State nr_sizes :=
  { s with own := Function.update s.own t l }

/-- `alloc_more_chunks`: a ring of fresh chunks. -/
def State.alloc_more_chunks (s : State nr_sizes) (t : Tid) : State nr_sizes :=
  { s with
    next := fun c =>
      if s.brk ≤ c ∧ c < s.brk + CHUNKS_PER_ALLOC then
        if c + 1 = s.brk + CHUNKS_PER_ALLOC then s.brk else c + 1
      else s.next c
    brk := s.brk + CHUNKS_PER_ALLOC
    own := Function.update s.own t (s.own t ++ List.range' s.brk CHUNKS_PER_ALLOC) }

/-- `add_chunks_to_list` returned. -/
def added : Adder nr_sizes → Pc nr_sizes
  | .client => .idle
  | .get_empty_chunks k n => .emHead k n
  | .get_alloc_chunk i => .alHead i

/-- The loop test of the walk in `get_empty_chunks`. -/
def walk (k : Caller nr_sizes) (n : ℕ) (rh rt : Chunk) (seen : List Chunk) : Pc nr_sizes :=
  if seen.length < n then .emWalk k n rh rt seen else .emNext k n rh rt seen

/-- `get_empty_chunks` returned `rh`; a ring for `get_alloc_chunk` is filled and linked in. -/
def got_empty (rh : Chunk) (seen : List Chunk) : Caller nr_sizes → Pc nr_sizes
  | .client => .idle
  | .get_filled_chunks i => .adNext (.get_alloc_chunk i) (.alloc i) rh (seen.rotate 1)

/-- The test `p == alloc` in `get_alloc_chunk`. -/
def found (i : Fin nr_sizes) (p : Chunk) : Pc nr_sizes :=
  if p = (Lst.alloc i).head then .alFill i else .alNext i p

/-- The next access of thread `t`; `sz` is the value of `alloc_size[i]` where that is read. -/
def run (s : State nr_sizes) (t : Tid) (sz : ℕ) : Option (State nr_sizes) :=
  match s.pc t with
  | .idle => none
  -- add_chunks_to_list
  | .adNext k list ch chain => some (s.goto t (.adHead k list ch (s.next ch) chain))
  | .adHead k list ch ch_next chain =>
      some (s.goto t (.adLink k list ch ch_next (s.next list.head) chain))
  | .adLink k list ch ch_next new_h_next chain =>
      some ((s.store ch new_h_next).goto t (.adCas k list ch ch_next new_h_next chain))
  | .adCas k list ch ch_next h_next chain =>
      if s.next list.head = h_next then
        some (((s.store list.head ch_next).setOwn t ((s.own t).filter (· ∉ chain))).goto t (added k))
      else some (s.goto t (.adLink k list ch ch_next (s.next list.head) chain))
  -- get_empty_chunks
  | .emHead k n => some (s.goto t (walk k n (s.next free_chunks) free_chunks []))
  | .emWalk k n rh rt seen =>
      if s.next rt = free_chunks then some (s.goto t (.emMore k n))
      else some (s.goto t (walk k n rh (s.next rt) (seen ++ [s.next rt])))
  | .emMore k n =>
      some ((s.alloc_more_chunks t).goto t (.adNext (.get_empty_chunks k n) .free s.brk
        (List.range' (s.brk + 1) (CHUNKS_PER_ALLOC - 1) ++ [s.brk])))
  | .emNext k n rh rt seen => some (s.goto t (.emCas k n rh rt (s.next rt) seen))
  | .emCas k n rh rt rt_next seen =>
      if s.next free_chunks = rh then
        some (((s.store free_chunks rt_next).setOwn t (s.own t ++ seen)).goto t
          (.emClose k rh rt seen))
      else some (s.goto t (walk k n (s.next free_chunks) free_chunks []))
  | .emClose k rh rt seen => some ((s.store rt rh).goto t (got_empty rh seen k))
  -- get_alloc_chunk
  | .alHead i => some (s.goto t (found i (s.next (Lst.alloc i).head)))
  | .alFill i => if 0 < sz then some (s.goto t (.emHead (.get_filled_chunks i) sz)) else none
  | .alNext i p => some (s.goto t (.alCas i p (s.next p)))
  | .alCas i p p_next =>
      if s.next (Lst.alloc i).head = p then
        some (((s.store (Lst.alloc i).head p_next).setOwn t (s.own t ++ [p])).goto t (.alClose i p))
      else some (s.goto t (found i (s.next (Lst.alloc i).head)))
  | .alClose _ p => some ((s.store p p).goto t .idle)

/-- What a thread may do: call one of the functions, link chunks it owns between the calls, or perform its
next access. -/
inductive Move (nr_sizes : ℕ) where
  | get_empty_chunks (n : ℕ)
  | get_alloc_chunk (i : Fin nr_sizes)
  | add_chunks_to_list (list : Lst nr_sizes) (ch : Chunk) (chain : List Chunk)
  | link (c d : Chunk)
  | run (sz : ℕ)
  deriving DecidableEq

/-- `chain` are the chunks of the ring behind `ch`, `ch` itself being the last. -/
def Ring (next : Chunk → Chunk) (ch : Chunk) (chain : List Chunk) : Prop :=
  Seg next (next ch) chain (next ch) ∧ chain.getLast? = some ch ∧ chain.Nodup

instance (next : Chunk → Chunk) (ch : Chunk) (chain : List Chunk) :
    Decidable (Ring next ch chain) := inferInstanceAs (Decidable (_ ∧ _))

/-- A step of a thread, if it may take it: `get_empty_chunks` is called for at least one chunk, and only
chunks that are owned are linked. -/
def next (s : State nr_sizes) (t : Tid) : Move nr_sizes → Option (State nr_sizes)
  | .get_empty_chunks n =>
      if s.pc t = .idle ∧ 0 < n then some (s.goto t (.emHead .client n)) else none
  | .get_alloc_chunk i => if s.pc t = .idle then some (s.goto t (.alHead i)) else none
  | .add_chunks_to_list list ch chain =>
      if s.pc t = .idle ∧ Ring s.next ch chain ∧ ∀ c ∈ chain, c ∈ s.own t then
        some (s.goto t (.adNext .client list ch chain))
      else none
  | .link c d =>
      if s.pc t = .idle ∧ c ∈ s.own t ∧ d ∈ s.own t then some (s.store c d) else none
  | .run sz => run s t sz

/-! ### Where a chunk is -/

/-- The chunk is reached from the one that stands for the list, and leads back to it. -/
def OnList (s : State nr_sizes) (list : Lst nr_sizes) (c : Chunk) : Prop :=
  ∃ l, Seg s.next (s.next list.head) l list.head ∧ list.head ∉ l ∧ c ∈ l

/-- A place for a chunk: a shared list, or a thread that owns it. -/
def Holds (s : State nr_sizes) (c : Chunk) : Lst nr_sizes ⊕ Tid → Prop
  | .inl list => OnList s list c
  | .inr t => c ∈ s.own t

/-- **Every chunk is in one place**: on exactly one shared list, or owned by exactly one thread. -/
def Partitioned (s : State nr_sizes) : Prop :=
  ∀ c, nr_sizes < c → c < s.brk → ∃! q, Holds s c q

/-- The lists as they are made before any thread calls: rings that have no chunk in common and hold all
there are. -/
structure Initial (s : State nr_sizes) : Prop where
  brk : nr_sizes < s.brk
  ring : ∀ list : Lst nr_sizes, ∃ l, Seg s.next (s.next list.head) l list.head ∧
    ∀ c ∈ l, nr_sizes < c ∧ c < s.brk
  partitioned : Partitioned s
  own : ∀ t, s.own t = []
  idle : ∀ t, s.pc t = .idle

/-- Any number of threads on the shared lists. -/
def chunkLists (nr_sizes : ℕ) : System (State nr_sizes) Tid (Move nr_sizes) where
  init := Initial
  step s t m s' := next s t m = some s'

/-- A compare-and-swap that would take chunks off a list finds the chunks the thread has walked over still
at its beginning, in front of the one it has read last. -/
def Current (s : State nr_sizes) : Pc nr_sizes → Prop
  | .emCas _ _ rh _ rt_next seen => s.next free_chunks = rh → Seg s.next rh seen rt_next
  | .alCas i p p_next => s.next (Lst.alloc i).head = p → s.next p = p_next
  | _ => True

instance (s : State nr_sizes) (pc : Pc nr_sizes) : Decidable (Current s pc) := by
  unfold Current
  split <;> infer_instance

end ConcurrentPQ.Chunks

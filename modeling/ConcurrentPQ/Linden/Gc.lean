import ConcurrentPQ.Linden.Machine
import Mathlib.Logic.Function.Iterate

/-!
# The collector of a single thread

`lib/linden/gc/gc.c` and `critical_enter` of `ptst.c`, as one thread runs them: the compare-and-swaps
all succeed, and `ptst_list` holds at most this thread.  A circular list of chunks is the list of its
chunks from the one the source points to; the chunk that stands for the list itself in
`gc_global.alloc` is left out.

* `Chunk`, `Global`, `Ptst`, `State` — `chunk_st`, `gc_global_st`, `ptst_st` with its `gc_st`, and all of
  it;
* `get_filled_chunks`, `get_alloc_chunk`, `gc_alloc`, `gc_free`, `gc_reclaim`, `gc_enter`, `gc_exit`;
* `gc_init`, `critical_enter`, `gc_add_allocator`, `pq_init_gc`;
* `collector` — what `insert` and `deletemin` call.

Chunks that hold no block are all alike: the free chunks, the chunk cache and the used-up chunks of an
allocation ring are left out, and a fresh chunk is the empty list.  There are no hooks.
-/

namespace ConcurrentPQ.Gc

open ConcurrentPQ.Linden

/-- `BLKS_PER_CHUNK` of `gc.c`. -/
abbrev BLKS_PER_CHUNK : ℕ := 100

/-- `ALLOC_CHUNKS_PER_LIST` of `gc.c`. -/
abbrev ALLOC_CHUNKS_PER_LIST : ℕ := 10

/-- `NR_EPOCHS` of `gc.c`. -/
abbrev NR_EPOCHS : ℕ := 3

/-- The blocks `blk[i - 1]`, …, `blk[0]` of a chunk; its length is the field `i`. -/
abbrev Chunk := List NodeId

/-- `gc_global`, with the next block `ALIGNED_ALLOC` will return. -/
structure Global where
  current : ℕ
  inreclaim : ℕ
  nr_sizes : ℕ
  alloc : ℕ → List Chunk
  alloc_size : ℕ → ℕ
  brk : NodeId

/-- The thread: `count` of `ptst_st`, and its `gc_st`.  `garbage e i` are the chunks from
`garbage[e][i]` to `garbage_tail[e][i]`, none if the pointers are null. -/
structure Ptst where
  count : ℕ
  epoch : ℕ
  entries_since_reclaim : ℕ
  garbage : ℕ → ℕ → List Chunk
  alloc : ℕ → Chunk
  alloc_chunks : ℕ → ℕ

/-- The collector; `ptst` is null until the thread first enters a critical section. -/
structure State where
  global : Global
  ptst : Option Ptst

/-! ### Chunks -/

/-- `get_filled_chunks`: `n` chunks with fresh blocks. -/
def get_filled_chunks (n : ℕ) (g : Global) : List Chunk × Global :=
  ((List.range n).map fun j => (List.range' (g.brk + j * BLKS_PER_CHUNK) BLKS_PER_CHUNK).reverse,
    { g with brk := g.brk + n * BLKS_PER_CHUNK })

/-- `add_chunks_to_list`: the ring is cut open behind its first chunk. -/
def add_chunks_to_list (ch list : List Chunk) : List Chunk := ch.rotate 1 ++ list

/-- `get_alloc_chunk`: the first chunk of the main list `i`, which is filled again if it is empty. -/
def get_alloc_chunk (i : ℕ) (g : Global) : Chunk × Global :=
  match g.alloc i with
  | p :: list => (p, { g with alloc := Function.update g.alloc i list })
  | [] =>
    let sz := g.alloc_size i
    let (nh, g) := get_filled_chunks sz g
    let g := { g with alloc_size := Function.update g.alloc_size i (sz + sz / 8) }
    match add_chunks_to_list nh [] with
    | p :: list => (p, { g with alloc := Function.update g.alloc i list })
    | [] => ([], g)

/-! ### Blocks -/

/-- `gc_alloc`. -/
def gc_alloc (i : ℕ) (g : Global) (t : Ptst) : NodeId × Global × Ptst :=
  match t.alloc i with
  | b :: blk => (b, g, { t with alloc := Function.update t.alloc i blk })
  | [] =>
    let chunks := if t.alloc_chunks i = 100 then 0 else t.alloc_chunks i + 1
    let (ch, g) := get_alloc_chunk i g
    (ch.headD NULL, g, { t with
      alloc := Function.update t.alloc i ch.tail
      alloc_chunks := Function.update t.alloc_chunks i chunks })

/-- The thread with another garbage list. -/
def Ptst.setGarbage (t : Ptst) (e i : ℕ) (list : List Chunk) : Ptst :=
  { t with garbage := Function.update t.garbage e (Function.update (t.garbage e) i list) }

/-- `gc_free`. -/
def gc_free (p : NodeId) (i : ℕ) (t : Ptst) : Ptst :=
  match t.garbage t.epoch i with
  | [] => t.setGarbage t.epoch i [[p]]
  | ch :: rest =>
    if ch.length = BLKS_PER_CHUNK then t.setGarbage t.epoch i ([p] :: ch :: rest)
    else t.setGarbage t.epoch i ((p :: ch) :: rest)

/-! ### Epochs -/

/-- One garbage list in `gc_reclaim`: all chunks but the first move to the main list. -/
def reclaim_list (three_ago i : ℕ) (s : Global × Ptst) : Global × Ptst :=
  match s.2.garbage three_ago i with
  | t :: c :: ch =>
    ({ s.1 with alloc := Function.update s.1.alloc i (add_chunks_to_list (c :: ch) (s.1.alloc i)) },
      s.2.setGarbage three_ago i [t])
  | _ => s

/-- `gc_reclaim`. -/
def gc_reclaim (s : Global × Ptst) : Global × Ptst :=
  if s.1.inreclaim ≠ 0 then s
  else
    let curr_epoch := s.1.current
    if 1 < s.2.count ∧ s.2.epoch ≠ curr_epoch then s
    else
      let three_ago := (curr_epoch + 1) % NR_EPOCHS
      let s := (List.range s.1.nr_sizes).foldl (fun s i => reclaim_list three_ago i s) s
      ({ s.1 with current := (curr_epoch + 1) % NR_EPOCHS }, s.2)

theorem reclaim_list_entries (three_ago i : ℕ) (s : Global × Ptst) :
    (reclaim_list three_ago i s).2.entries_since_reclaim = s.2.entries_since_reclaim := by
  unfold reclaim_list
  split <;> rfl

theorem foldl_reclaim_entries (three_ago : ℕ) (l : List ℕ) (s : Global × Ptst) :
    (l.foldl (fun s i => reclaim_list three_ago i s) s).2.entries_since_reclaim =
      s.2.entries_since_reclaim := by
  induction l generalizing s with
  | nil => rfl
  | cons i l ih => exact (ih _).trans (reclaim_list_entries three_ago i s)

theorem gc_reclaim_entries (s : Global × Ptst) :
    (gc_reclaim s).2.entries_since_reclaim = s.2.entries_since_reclaim := by
  unfold gc_reclaim
  split
  · rfl
  · dsimp only
    split
    · rfl
    · exact foldl_reclaim_entries _ _ s

/-- `gc_enter`. -/
def gc_enter (s : Global × Ptst) : Global × Ptst :=
  let cnt := s.2.count
  let t : Ptst := { s.2 with count := cnt + 1 }
  if cnt = 1 then
    if t.epoch ≠ s.1.current then
      (s.1, { t with epoch := s.1.current, entries_since_reclaim := 0 })
    else if _ : t.entries_since_reclaim = 100 then
      gc_enter (gc_reclaim (s.1, { t with count := cnt, entries_since_reclaim := 0 }))
    else (s.1, { t with entries_since_reclaim := t.entries_since_reclaim + 1 })
  else (s.1, t)
termination_by s.2.entries_since_reclaim
decreasing_by
  rename_i h
  rw [gc_reclaim_entries]
  exact h ▸ Nat.succ_pos 99

/-- `gc_exit`. -/
def gc_exit (t : Ptst) : Ptst := { t with count := t.count - 1 }

/-! ### Initialisation -/

/-- The allocation chunks of a new thread: `gc->alloc[i] = get_alloc_chunk(gc, i)`. -/
def init_alloc (i : ℕ) (s : Global × Ptst) : Global × Ptst :=
  let (ch, g) := get_alloc_chunk i s.1
  (g, { s.2 with alloc := Function.update s.2.alloc i ch })

/-- `gc_init`, and the fields `critical_enter` sets. -/
def gc_init (g : Global) : Global × Ptst :=
  (List.range g.nr_sizes).foldl (fun s i => init_alloc i s)
    (g, ⟨1, 0, 0, fun _ _ => [], fun _ => [], fun _ => 0⟩)

/-- `critical_enter`. -/
def critical_enter (s : State) : State :=
  let s := gc_enter (match s.ptst with
    | none => gc_init s.global
    | some t => (s.global, t))
  ⟨s.1, some s.2⟩

/-- `gc_add_allocator`; the first of the chunks stands for the list. -/
def gc_add_allocator (g : Global) : Global :=
  let i := g.nr_sizes
  let (ch, g) := get_filled_chunks ALLOC_CHUNKS_PER_LIST g
  { g with
    nr_sizes := i + 1
    alloc_size := Function.update g.alloc_size i ALLOC_CHUNKS_PER_LIST
    alloc := Function.update g.alloc i ch.tail }

/-- `_init_gc_subsystem`, and the allocators `pq_init` adds; `gc_id[i]` is `i`. -/
def pq_init_gc : State :=
  ⟨gc_add_allocator^[NUM_LEVELS] ⟨0, 0, 0, fun _ => [], fun _ => 0, firstNode⟩, none⟩

/-- The collector as `insert` and `deletemin` see it. -/
def collector : Collector State where
  enter := critical_enter
  exit s := { s with ptst := s.ptst.map gc_exit }
  alloc i s :=
    match s.ptst with
    | some t => let (n, g, t) := gc_alloc i s.global t; (n, ⟨g, some t⟩)
    | none => (NULL, s)
  free n i s := { s with ptst := s.ptst.map (gc_free n i) }

end ConcurrentPQ.Gc

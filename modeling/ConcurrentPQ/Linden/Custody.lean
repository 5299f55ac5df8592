import ConcurrentPQ.Lib.Circle
import ConcurrentPQ.Linden.ChunkClients
import ConcurrentPQ.Linden.CollectorClock

/-!
# Who has which chunks

The threads that use the collector take chunks from the shared lists, keep them in rings, and put them back;
`gc_reclaim` takes them out of the rings of others.  As long as all removals from the shared lists are
current, the rings stay rings, and no chunk is in two of them.

* `State.area` — the garbage ring a thread works on, `area_ne` that no other thread works on it;
* `Ok` — what a thread knows at each program counter;
* `Shelves`, `Custody` — the invariant: the rings `L`, and the record `O` of the owners that makes the
  shared lists' own invariant true, in which a keeper `w` owns all chunks of the rings;
* `Aside`, `Custody.turn`, `Custody.quiet` — what a step has to keep.
-/

namespace ConcurrentPQ.Collector

open ConcurrentPQ.Transition ConcurrentPQ.Announce ConcurrentPQ.Segment ConcurrentPQ.Circle
open ConcurrentPQ.Allocator (Chunk Block Ptst BLKS_PER_CHUNK NR_EPOCHS)

variable {n : ℕ} {s s' : State n} {t u v w : Tid} {c d : Chunk} {body : Chunks.Lst n → List Chunk}
  {O O' : Tid → List Chunk} {L L' : Place n → List Chunk} {p q : Place n} {a : Tid × ℕ × Fin n}

/-! ### Working on garbage rings -/

/-- The garbage ring a thread works on: the owner, the epoch and the size class. -/
def State.area (s : State n) (t : Tid) : Option (Tid × ℕ × Fin n) :=
  match (s.pc t).freeing with
  | some k => some (t, (s.ptst t).epoch, k.alloc_id)
  | none => (s.pc t).sweeping.map fun k => (k.ptst, succ k.curr_epoch, k.i)

/-- The thread is in the middle of a change of the ring. -/
def Pc.mends : Pc n → Prop
  | .frStore .. | .frLink .. | .frClose .. | .rcStore .. | .rcSelf .. => True
  | _ => False

/-- A thread is in the middle of a change of the ring. -/
def State.Mended (s : State n) (a : Tid × ℕ × Fin n) : Prop := ∃ r, (s.pc r).mends ∧ s.area r = some a

theorem area_of_freeing {k : Freeing n} (h : (s.pc t).freeing = some k) :
    s.area t = some (t, (s.ptst t).epoch, k.alloc_id) := by rw [State.area, h]

theorem area_of_sweeping {k : Sweeping n} (h : (s.pc t).sweeping = some k) :
    s.area t = some (k.ptst, succ k.curr_epoch, k.i) := by
  have hfree : (s.pc t).freeing = none := by
    cases hpc : s.pc t <;> rw [hpc] at h <;> first | rfl | cases h
  rw [State.area, hfree, h]
  rfl

theorem area_congr (hpc : s'.pc t = s.pc t) (he : (s'.ptst t).epoch = (s.ptst t).epoch) :
    s'.area t = s.area t := by rw [State.area, State.area, hpc, he]

/-- A thread in `gc_free` does not work on the rings that are being reclaimed. -/
theorem epoch_ne (h : Timed s) {k : Freeing n} {k' : Sweeping n} (ht : (s.pc t).freeing = some k)
    (hu : (s.pc u).sweeping = some k') : (s.ptst t).epoch ≠ succ k'.curr_epoch := by
  have hcurr := h.curr u _ (sweeping_iff hu).2.2.2.1
  have hin := stage_inside (h.counted t (freeing_iff ht).2.2.2.2) (freeing_iff ht).1
  rw [hcurr]
  exact announced_ne succ_ne succ_succ_ne (h.inTime t) hin ⟨u, (sweeping_iff hu).2.1 t⟩

/-- **No two threads work on one garbage ring.** -/
theorem area_ne (h : Timed s) (hne : t ≠ u) (ht : s.area t = some a) : s.area u ≠ some a := by
  intro hu
  cases hft : (s.pc t).freeing with
  | some k =>
    rw [area_of_freeing hft] at ht
    cases hfu : (s.pc u).freeing with
    | some k' =>
      rw [area_of_freeing hfu, ← ht] at hu
      exact hne (Prod.mk.inj (Option.some.inj hu)).1.symm
    | none =>
      rw [State.area, hfu] at hu
      obtain ⟨k', hk', he⟩ := Option.map_eq_some_iff.mp hu
      rw [← Option.some.inj ht] at he
      exact epoch_ne h hft hk' (Prod.mk.inj (Prod.mk.inj he).2).1.symm
  | none =>
    rw [State.area, hft] at ht
    obtain ⟨k, hk, he⟩ := Option.map_eq_some_iff.mp ht
    cases hfu : (s.pc u).freeing with
    | some k' =>
      rw [area_of_freeing hfu, ← he] at hu
      exact epoch_ne h hfu hk (Prod.mk.inj (Prod.mk.inj (Option.some.inj hu)).2).1
    | none =>
      rw [State.area, hfu] at hu
      obtain ⟨k', hk', -⟩ := Option.map_eq_some_iff.mp hu
      exact hne (h.one t u (sweeping_iff hk).2.2.1 (sweeping_iff hk').2.2.1)

/-! ### What a thread knows -/

/-- Where the new garbage chunk of `gc_free` is to go. -/
def Site (s : State n) (t : Tid) (k : Freeing n) : Option (Chunk × Chunk) → Prop
  | none => (s.ptst t).garbage (s.ptst t).epoch k.alloc_id = none
  | some (ch, prev) => (s.ptst t).garbage (s.ptst t).epoch k.alloc_id = some ch ∧
      (s.ptst t).garbage_tail (s.ptst t).epoch k.alloc_id = some prev

/-- The garbage list that `gc_reclaim` is at begins with `x`. -/
def Hangs (s : State n) (k : Sweeping n) (x : Chunk) : Prop :=
  (s.ptst k.ptst).garbage (succ k.curr_epoch) k.i = some x

/-- The garbage list of `gc_free` begins with `x`. -/
def Front (s : State n) (t : Tid) (k : Freeing n) (x : Chunk) : Prop :=
  (s.ptst t).garbage (s.ptst t).epoch k.alloc_id = some x

/-- The ring of the list of `gc_free`. -/
abbrev ringOf (s : State n) (L : Place n → List Chunk) (t : Tid) (k : Freeing n) : List Chunk :=
  L (.garbage t (s.ptst t).epoch k.alloc_id)

/-- A ring has been taken off its list, except for its first chunk. -/
def Detached (s : State n) (L : Place n → List Chunk) (t : Tid) (k : Sweeping n) (x ch : Chunk) : Prop :=
  L (.garbage k.ptst (succ k.curr_epoch) k.i) = [] ∧
    ∃ y, L (.hand t) = x :: ch :: y ∧ Circ s.lists.next (ch :: y)

/-- The assertion attached to a program counter. -/
def Ok (s : State n) (L : Place n → List Chunk) (t : Tid) : Prop :=
  match s.pc t with
  | .rcNext k x => L (.hand t) = [] ∧ Hangs s k x
  | .rcTail k x ch => L (.hand t) = [] ∧ Hangs s k x ∧ s.lists.next x = ch ∧ ch ≠ x
  | .rcClose k x ch tail => L (.hand t) = [] ∧ Hangs s k x ∧ s.lists.next x = ch ∧ ch ≠ x ∧
      (s.ptst k.ptst).garbage_tail (succ k.curr_epoch) k.i = some tail
  | .rcStore k x ch => Detached s L t k x ch ∧ Hangs s k x
  | .rcSelf k x ch => Detached s L t k x ch ∧ Hangs s k x ∧
      (s.ptst k.ptst).garbage_tail (succ k.curr_epoch) k.i = some x
  | .alReturn i | .alGet i => L (.hand t) = [] ∧ L (.alloc t i) = []
  | .alNext _ ch => L (.hand t) = [ch]
  | .alLink i ch => L (.hand t) = [ch] ∧ s.lists.next ch = s.lists.next ((s.ptst t).alloc i)
  | .frFull k ch | .frPrev k ch | .frPut k ch => L (.hand t) = [] ∧ Front s t k ch
  | .frCache k a => L (.hand t) = [] ∧ Site s t k a
  | .frFetch k a p => L (.hand t) = [] ∧ Site s t k a ∧ L (.cache t) = [p]
  | .frUnlink k a p => L (.hand t) = [] ∧ Site s t k a ∧ s.lists.next (s.ptst t).chunk_cache = p ∧
      (s.ptst t).chunk_cache ≠ p
  | .frSelf k a p => L (.hand t) = [p] ∧ Site s t k a
  | .frHead k a new => L (.hand t) = [new] ∧ Site s t k a ∧ s.lists.next new = new
  | .frStore k new => L (.hand t) = [] ∧ ringOf s L t k = [new] ∧ Front s t k new
  | .frLink k new ch prev => L (.hand t) = [new] ∧ Front s t k new ∧ (ringOf s L t k).head? = some ch ∧
      (ringOf s L t k).getLast? = some prev ∧
      (s.ptst t).garbage_tail (s.ptst t).epoch k.alloc_id = some prev
  | .frClose k new prev => L (.hand t) = [new] ∧ Front s t k new ∧
      (ringOf s L t k).head? = some (s.lists.next new) ∧ (ringOf s L t k).getLast? = some prev ∧
      (s.ptst t).garbage_tail (s.ptst t).epoch k.alloc_id = some prev
  | _ => L (.hand t) = []

/-! ### The invariant -/

/-- The rings of a thread; what it has just taken need not be one. -/
def Place.Closed : Place n → Prop
  | .hand _ => False
  | _ => True

/-- The chunks `own` are where `L` says, each in one place at most. -/
structure Shelves (own : List Chunk) (L : Place n → List Chunk) : Prop where
  kept : ∀ p, ∀ c ∈ L p, c ∈ own
  apart : ∀ p q c, c ∈ L p → c ∈ L q → p = q
  nodup : ∀ p, (L p).Nodup

/-- The thread's allocation pointer for `i` is out of date. -/
def Pc.lacks : Pc n → Fin n → Prop
  | .alReturn j, i | .alGet j, i => j = i
  | _, _ => False

/-- What the thread has called on the shared lists. -/
def Pc.service : Pc n → Chunks.Service n
  | .rcAdd _ | .alReturn _ => .add
  | .alGet i | .alMore i => .alloc i
  | .frFetch .. => .empty
  | _ => .none

/-- A garbage ring hangs on the two pointers of its list. -/
structure Hung (s : State n) (L : Place n → List Chunk) (a : Tid × ℕ × Fin n) : Prop where
  head : (L (.garbage a.1 a.2.1 a.2.2)).head? = (s.ptst a.1).garbage a.2.1 a.2.2
  tail : (L (.garbage a.1 a.2.1 a.2.2)).getLast? = (s.ptst a.1).garbage_tail a.2.1 a.2.2

/-- The invariant. -/
structure Custody (w : Tid) (s : State n) (body : Chunks.Lst n → List Chunk) (O : Tid → List Chunk)
    (L : Place n → List Chunk) : Prop where
  lists : Chunks.Books (s.lists.withOwn O) body
  keeper : w ∉ s.ptst_list
  idle : ∀ t, t ∉ s.ptst_list → s.pc t = .idle
  service : ∀ t, (s.lists.pc t).service = (s.pc t).service
  shelves : Shelves (O w) L
  circ : ∀ p, p.Closed → Circ s.lists.next (L p)
  cache : ∀ t ∈ s.ptst_list, (L (.cache t)).head? = some (s.ptst t).chunk_cache
  alloc : ∀ t ∈ s.ptst_list, ∀ i : Fin n, ¬(s.pc t).lacks i →
    (L (.alloc t i)).head? = some ((s.ptst t).alloc i)
  garbage : ∀ a, ¬s.Mended a → Hung s L a
  ok : ∀ t, Ok s L t

/-- The places that do not belong to thread `t`. -/
def Place.Outside (s : State n) (t : Tid) : Place n → Prop
  | .cache u | .alloc u _ | .hand u => u ≠ t
  | .garbage v e i => s.area t ≠ some (v, e, i)

/-- What a step of thread `t` leaves alone. -/
structure Aside (t : Tid) (s s' : State n) (L L' : Place n → List Chunk) : Prop where
  lpc : ∀ u, u ≠ t → s'.lists.pc u = s.lists.pc u
  gc : ∀ u, u ≠ t → (s'.ptst u).chunk_cache = (s.ptst u).chunk_cache ∧
    (s'.ptst u).alloc = (s.ptst u).alloc
  garbage : ∀ a, s.area t ≠ some a →
    (s'.ptst a.1).garbage a.2.1 a.2.2 = (s.ptst a.1).garbage a.2.1 a.2.2 ∧
    (s'.ptst a.1).garbage_tail a.2.1 a.2.2 = (s.ptst a.1).garbage_tail a.2.1 a.2.2
  places : ∀ p, p.Outside s t → L' p = L p
  next : ∀ p, p.Outside s t → ∀ c ∈ L p, s'.lists.next c = s.lists.next c

/-- What a thread works on does not belong to another. -/
theorem outside_area (h : Timed s) (hne : u ≠ t) (hu : s.area u = some a) :
    (Place.garbage a.1 a.2.1 a.2.2 : Place n).Outside s t := area_ne h hne hu

/-- **A thread's knowledge lasts** while another moves. -/
theorem Aside.ok (ha : Aside t s s' L L') (hb : Beside t s s') (h : Custody w s body O L) (hT : Timed s)
    (hu : u ≠ t) : Ok s' L' u := by
  have hok := h.ok u
  have hpc := hb.pc u hu
  have he := hb.epoch u hu
  have hcache := (ha.gc u hu).1
  have halloc := (ha.gc u hu).2
  have hhand : L' (.hand u) = L (.hand u) := ha.places _ hu
  have hnext : ∀ c ∈ L (.hand u), s'.lists.next c = s.lists.next c := ha.next (.hand u) hu
  have hreg : s.pc u ≠ .idle → u ∈ s.ptst_list := fun hne => by
    by_contra hn
    exact hne (h.idle u hn)
  -- the garbage list the thread works on
  have hfree : ∀ k, (s.pc u).freeing = some k → ringOf s' L' u k = ringOf s L u k ∧
      (s'.ptst u).garbage (s.ptst u).epoch k.alloc_id = (s.ptst u).garbage (s.ptst u).epoch k.alloc_id ∧
      (s'.ptst u).garbage_tail (s.ptst u).epoch k.alloc_id =
        (s.ptst u).garbage_tail (s.ptst u).epoch k.alloc_id := by
    intro k hk
    have harea := area_of_freeing hk
    refine ⟨?_, ha.garbage _ (area_ne hT hu harea)⟩
    rw [ringOf, he]
    exact ha.places _ (outside_area hT hu harea)
  have hsite : ∀ k b, (s.pc u).freeing = some k → Site s u k b → Site s' u k b := by
    intro k b hk hb
    cases b with
    | none => rw [Site, he, (hfree k hk).2.1]; exact hb
    | some b => rw [Site, he, (hfree k hk).2.1, (hfree k hk).2.2]; exact hb
  have hsweep : ∀ k, (s.pc u).sweeping = some k →
      (∀ x, Hangs s k x → Hangs s' k x) ∧
      (s'.ptst k.ptst).garbage_tail (succ k.curr_epoch) k.i =
        (s.ptst k.ptst).garbage_tail (succ k.curr_epoch) k.i ∧
      L' (.garbage k.ptst (succ k.curr_epoch) k.i) = L (.garbage k.ptst (succ k.curr_epoch) k.i) ∧
      ∀ c ∈ L (.garbage k.ptst (succ k.curr_epoch) k.i), s'.lists.next c = s.lists.next c := by
    intro k hk
    have harea := area_of_sweeping hk
    have hg := ha.garbage _ (area_ne hT hu harea)
    have hout := outside_area hT hu harea
    exact ⟨fun x hx => hg.1.trans hx, hg.2, ha.places _ hout, ha.next _ hout⟩
  -- the first chunk of the list that is being reclaimed
  have hfirst : ∀ k x, (s.pc u).sweeping = some k → ¬(s.pc u).mends → Hangs s k x →
      s'.lists.next x = s.lists.next x := by
    intro k x hk hm hx
    refine (hsweep k hk).2.2.2 x (List.mem_of_mem_head? ?_)
    have harea := area_of_sweeping hk
    have hnot : ¬s.Mended (k.ptst, succ k.curr_epoch, k.i) := by
      intro ⟨r, hr, hra⟩
      by_cases hru : r = u
      · exact hm (hru ▸ hr)
      · exact area_ne hT hru hra harea
    exact (h.garbage _ hnot).head.trans hx
  have hdetached : ∀ k x ch, (s.pc u).sweeping = some k → Detached s L u k x ch →
      Detached s' L' u k x ch := by
    intro k x ch hk ⟨hempty, y, hy, hcirc⟩
    refine ⟨(hsweep k hk).2.2.1.trans hempty, y, hhand.trans hy, hcirc.congr fun c hc => ?_⟩
    exact (hnext c (by rw [hy]; exact List.mem_cons_of_mem _ hc)).symm
  rw [Ok] at hok
  rw [Ok, hpc]
  cases hs : s.pc u with
  | rcNext k x =>
    rw [hs] at hok
    exact ⟨hhand.trans hok.1, (hsweep k (by rw [hs]; rfl)).1 x hok.2⟩
  | rcTail k x ch =>
    rw [hs] at hok
    have hk : (s.pc u).sweeping = some k := by rw [hs]; rfl
    refine ⟨hhand.trans hok.1, (hsweep k hk).1 x hok.2.1, ?_, hok.2.2.2⟩
    exact (hfirst k x hk (by rw [hs]; exact id) hok.2.1).trans hok.2.2.1
  | rcClose k x ch tail =>
    rw [hs] at hok
    have hk : (s.pc u).sweeping = some k := by rw [hs]; rfl
    refine ⟨hhand.trans hok.1, (hsweep k hk).1 x hok.2.1, ?_, hok.2.2.2.1, (hsweep k hk).2.1.trans hok.2.2.2.2⟩
    exact (hfirst k x hk (by rw [hs]; exact id) hok.2.1).trans hok.2.2.1
  | rcStore k x ch =>
    rw [hs] at hok
    have hk : (s.pc u).sweeping = some k := by rw [hs]; rfl
    exact ⟨hdetached k x ch hk hok.1, (hsweep k hk).1 x hok.2⟩
  | rcSelf k x ch =>
    rw [hs] at hok
    have hk : (s.pc u).sweeping = some k := by rw [hs]; rfl
    exact ⟨hdetached k x ch hk hok.1, (hsweep k hk).1 x hok.2.1, (hsweep k hk).2.1.trans hok.2.2⟩
  | alReturn i =>
    rw [hs] at hok
    exact ⟨hhand.trans hok.1, (ha.places (.alloc u i) hu).trans hok.2⟩
  | alGet i =>
    rw [hs] at hok
    exact ⟨hhand.trans hok.1, (ha.places (.alloc u i) hu).trans hok.2⟩
  | alNext i ch =>
    rw [hs] at hok
    exact hhand.trans hok
  | alLink i ch =>
    rw [hs] at hok
    have hhead := h.alloc u (hreg (by rw [hs]; nofun)) i (by rw [hs]; exact id)
    refine ⟨hhand.trans hok.1, ?_⟩
    rw [halloc, hnext ch (by rw [hok.1]; exact List.mem_cons_self),
      ha.next (.alloc u i) hu _ (List.mem_of_mem_head? hhead)]
    exact hok.2
  | frFull k ch =>
    rw [hs] at hok
    refine ⟨hhand.trans hok.1, ?_⟩
    rw [Front, he, (hfree k (by rw [hs]; rfl)).2.1]
    exact hok.2
  | frPrev k ch =>
    rw [hs] at hok
    refine ⟨hhand.trans hok.1, ?_⟩
    rw [Front, he, (hfree k (by rw [hs]; rfl)).2.1]
    exact hok.2
  | frPut k ch =>
    rw [hs] at hok
    refine ⟨hhand.trans hok.1, ?_⟩
    rw [Front, he, (hfree k (by rw [hs]; rfl)).2.1]
    exact hok.2
  | frCache k b =>
    rw [hs] at hok
    exact ⟨hhand.trans hok.1, hsite k b (by rw [hs]; rfl) hok.2⟩
  | frFetch k b p =>
    rw [hs] at hok
    exact ⟨hhand.trans hok.1, hsite k b (by rw [hs]; rfl) hok.2.1, (ha.places (.cache u) hu).trans hok.2.2⟩
  | frUnlink k b p =>
    rw [hs] at hok
    have hhead := h.cache u (hreg (by rw [hs]; nofun))
    refine ⟨hhand.trans hok.1, hsite k b (by rw [hs]; rfl) hok.2.1, ?_, by rw [hcache]; exact hok.2.2.2⟩
    rw [hcache, ha.next (.cache u) hu _ (List.mem_of_mem_head? hhead)]
    exact hok.2.2.1
  | frSelf k b p =>
    rw [hs] at hok
    exact ⟨hhand.trans hok.1, hsite k b (by rw [hs]; rfl) hok.2⟩
  | frHead k b new =>
    rw [hs] at hok
    refine ⟨hhand.trans hok.1, hsite k b (by rw [hs]; rfl) hok.2.1, ?_⟩
    rw [hnext new (by rw [hok.1]; exact List.mem_cons_self)]
    exact hok.2.2
  | frStore k new =>
    rw [hs] at hok
    have hk := hfree k (by rw [hs]; rfl)
    refine ⟨hhand.trans hok.1, hk.1.trans hok.2.1, ?_⟩
    rw [Front, he, hk.2.1]
    exact hok.2.2
  | frLink k new ch prev =>
    rw [hs] at hok
    have hk := hfree k (by rw [hs]; rfl)
    refine ⟨hhand.trans hok.1, ?_, by rw [hk.1]; exact hok.2.2.1, by rw [hk.1]; exact hok.2.2.2.1, ?_⟩
    · rw [Front, he, hk.2.1]
      exact hok.2.1
    · rw [he, hk.2.2]
      exact hok.2.2.2.2
  | frClose k new prev =>
    rw [hs] at hok
    have hk := hfree k (by rw [hs]; rfl)
    refine ⟨hhand.trans hok.1, ?_, ?_, by rw [hk.1]; exact hok.2.2.2.1, ?_⟩
    · rw [Front, he, hk.2.1]
      exact hok.2.1
    · rw [hk.1, hnext new (by rw [hok.1]; exact List.mem_cons_self)]
      exact hok.2.2.1
    · rw [he, hk.2.2]
      exact hok.2.2.2.2
  | _ =>
    rw [hs] at hok
    exact hhand.trans hok

/-! ### What a step has to keep -/

/-- Only the places `T`, which belong to thread `t`, change. -/
structure Change (t : Tid) (s s' : State n) (L L' : Place n → List Chunk) (T : Place n → Prop) : Prop where
  mine : ∀ p, T p → ¬p.Outside s t
  lpc : ∀ u, u ≠ t → s'.lists.pc u = s.lists.pc u
  gc : ∀ u, u ≠ t → (s'.ptst u).chunk_cache = (s.ptst u).chunk_cache ∧
    (s'.ptst u).alloc = (s.ptst u).alloc
  garbage : ∀ a, s.area t ≠ some a →
    (s'.ptst a.1).garbage a.2.1 a.2.2 = (s.ptst a.1).garbage a.2.1 a.2.2 ∧
    (s'.ptst a.1).garbage_tail a.2.1 a.2.2 = (s.ptst a.1).garbage_tail a.2.1 a.2.2
  places : ∀ p, ¬T p → L' p = L p
  next : ∀ p, ¬T p → ∀ c ∈ L p, s'.lists.next c = s.lists.next c

/-- **A step that keeps the invariant.** -/
theorem Custody.turn {body' : Chunks.Lst n → List Chunk} {T : Place n → Prop} (h : Custody w s body O L)
    (hT : Timed s) (hb : Beside t s s') (hch : Change t s s' L L' T) (ht : t ∈ s.ptst_list)
    (hlists : Chunks.Books (s'.lists.withOwn O') body')
    (hserv : (s'.lists.pc t).service = (s'.pc t).service) (hsh : Shelves (O' w) L')
    (hcirc : ∀ p, T p → p.Closed → Circ s'.lists.next (L' p))
    (hcache : (L' (.cache t)).head? = some (s'.ptst t).chunk_cache)
    (halloc : ∀ i : Fin n, ¬(s'.pc t).lacks i → (L' (.alloc t i)).head? = some ((s'.ptst t).alloc i))
    (hgarbage : ∀ a, s.area t = some a → ((s'.pc t).mends ∧ s'.area t = some a) ∨ Hung s' L' a)
    (hok : Ok s' L' t) : Custody w s' body' O' L' := by
  have hplaces : ∀ p, p.Outside s t → L' p = L p := fun p hp =>
    hch.places p fun hTp => hch.mine p hTp hp
  have haside : Aside t s s' L L' := ⟨hch.lpc, hch.gc, hch.garbage, hplaces,
    fun p hp => hch.next p fun hTp => hch.mine p hTp hp⟩
  refine ⟨hlists, by rw [hb.list]; exact h.keeper, fun u hu => ?_, fun u => ?_, hsh, fun p hp => ?_,
    fun u hu => ?_, fun u hu i hi => ?_, fun a ha => ?_, fun u => ?_⟩
  · rw [hb.list] at hu
    rw [hb.pc u fun he => hu (he ▸ ht)]
    exact h.idle u hu
  · by_cases hut : u = t
    · rw [hut]
      exact hserv
    · rw [hch.lpc u hut, hb.pc u hut]
      exact h.service u
  · by_cases hTp : T p
    · exact hcirc p hTp hp
    · rw [hch.places p hTp]
      exact (h.circ p hp).congr fun c hc => (hch.next p hTp c hc).symm
  · by_cases hut : u = t
    · rw [hut]
      exact hcache
    · rw [hb.list] at hu
      rw [hplaces (.cache u) hut, (hch.gc u hut).1]
      exact h.cache u hu
  · by_cases hut : u = t
    · rw [hut] at hi ⊢
      exact halloc i hi
    · rw [hb.list] at hu
      rw [hb.pc u hut] at hi
      rw [hplaces (.alloc u i) hut, (hch.gc u hut).2]
      exact h.alloc u hu i hi
  · by_cases harea : s.area t = some a
    · exact (hgarbage a harea).resolve_left fun hm => ha ⟨t, hm⟩
    · have hnot : ¬s.Mended a := by
        intro ⟨r, hr, hra⟩
        by_cases hrt : r = t
        · exact harea (hrt ▸ hra)
        · refine ha ⟨r, ?_, (area_congr (hb.pc r hrt) (hb.epoch r hrt)).trans hra⟩
          rw [hb.pc r hrt]
          exact hr
      have hung := h.garbage a hnot
      have hpl := hplaces (.garbage a.1 a.2.1 a.2.2) harea
      have hg := hch.garbage a harea
      exact ⟨by rw [hpl, hg.1]; exact hung.head, by rw [hpl, hg.2]; exact hung.tail⟩
  · by_cases hut : u = t
    · rw [hut]
      exact hok
    · exact haside.ok hb h hT hut

/-- A thread that mends nothing finds the ring it works on in order. -/
theorem Custody.hung (h : Custody w s body O L) (hT : Timed s) (hm : ¬(s.pc t).mends)
    (ha : s.area t = some a) : Hung s L a := by
  refine h.garbage a fun ⟨r, hr, hra⟩ => ?_
  by_cases hrt : r = t
  · exact hm (hrt ▸ hr)
  · exact area_ne hT hrt hra ha

/-- The fields that lead to the rings of a thread. -/
def Ptst.pointers (gc : Ptst) : Chunk × (ℕ → Chunk) × (ℕ → ℕ → Option Chunk) × (ℕ → ℕ → Option Chunk) :=
  (gc.chunk_cache, gc.alloc, gc.garbage, gc.garbage_tail)

/-- **No ring is touched.** -/
theorem Custody.untouched {body' : Chunks.Lst n → List Chunk} (h : Custody w s body O L) (hT : Timed s)
    (hb : Beside t s s') (ht : t ∈ s.ptst_list) (hnext : ∀ p, ∀ c ∈ L p, s'.lists.next c = s.lists.next c)
    (hlpc : ∀ u, u ≠ t → s'.lists.pc u = s.lists.pc u)
    (hlists : Chunks.Books (s'.lists.withOwn O') body') (hO : O' w = O w)
    (hp : ∀ u, Ptst.pointers (s'.ptst u) = Ptst.pointers (s.ptst u))
    (hserv : (s'.lists.pc t).service = (s'.pc t).service) (hm : ¬(s.pc t).mends)
    (hlacks : ∀ i, (s.pc t).lacks i → (s'.pc t).lacks i) (hok : Ok s' L t) : Custody w s' body' O' L := by
  have hcache : ∀ u, (s'.ptst u).chunk_cache = (s.ptst u).chunk_cache := fun u => congrArg Prod.fst (hp u)
  have halloc : ∀ u, (s'.ptst u).alloc = (s.ptst u).alloc := fun u =>
    congrArg (fun x => x.2.1) (hp u)
  have hgarb : ∀ u, (s'.ptst u).garbage = (s.ptst u).garbage := fun u =>
    congrArg (fun x => x.2.2.1) (hp u)
  have htail : ∀ u, (s'.ptst u).garbage_tail = (s.ptst u).garbage_tail := fun u =>
    congrArg (fun x => x.2.2.2) (hp u)
  have hch : Change t s s' L L fun _ => False := by
    refine ⟨nofun, hlpc, fun u _ => ⟨hcache u, halloc u⟩, fun a _ => ?_, fun _ _ => rfl,
      fun p _ => hnext p⟩
    rw [hgarb, htail]
    exact ⟨rfl, rfl⟩
  refine h.turn hT hb hch ht hlists hserv (hO ▸ h.shelves) nofun ?_ (fun i hi => ?_)
    (fun a ha => Or.inr ?_) hok
  · rw [hcache]
    exact h.cache t ht
  · rw [halloc]
    exact h.alloc t ht i fun hl => hi (hlacks i hl)
  · have hung := h.hung hT hm ha
    exact ⟨by rw [hgarb]; exact hung.head, by rw [htail]; exact hung.tail⟩

/-- **No chunk is touched.** -/
theorem Custody.quiet (h : Custody w s body O L) (hT : Timed s) (hb : Beside t s s') (ht : t ∈ s.ptst_list)
    (hlists : s'.lists = s.lists) (hp : ∀ u, Ptst.pointers (s'.ptst u) = Ptst.pointers (s.ptst u))
    (hserv : (s'.pc t).service = (s.pc t).service) (hm : ¬(s.pc t).mends)
    (hlacks : ∀ i, (s.pc t).lacks i → (s'.pc t).lacks i) (hok : Ok s' L t) : Custody w s' body O L := by
  refine h.untouched hT hb ht (fun p c _ => by rw [hlists]) (fun u _ => by rw [hlists])
    (by rw [hlists]; exact h.lists) rfl hp ?_ hm hlacks hok
  rw [hlists, hserv]
  exact h.service t

theorem Custody.keeper_idle (h : Custody w s body O L) : s.lists.pc w = .idle :=
  Chunks.idle_of_service (by rw [h.service, h.idle w h.keeper]; rfl)

/-- A store to a chunk of a ring. -/
theorem Custody.store (h : Custody w s body O L) (hc : c ∈ L p) :
    Chunks.Books ((s.lists.store c d).withOwn O) body :=
  Chunks.Books.link (s := s.lists.withOwn O) h.lists (h.shelves.kept p c hc) h.keeper_idle

/-- A chunk is not stored to with another one. -/
theorem Custody.next_of_ne {x : Chunk} (h : Custody w s body O L) (hc : c ∈ L p) (hx : x ∈ L q) (hpq : q ≠ p) :
    (s.lists.store c d).next x = s.lists.next x :=
  Function.update_of_ne (fun he : x = c => hpq (h.shelves.apart q p x hx (he ▸ hc))) _ _

/-- **A store to a chunk that a thread has just taken.** -/
theorem Custody.store_hand (h : Custody w s body O L) (hT : Timed s) (hb : Beside t s s') (ht : t ∈ s.ptst_list)
    (hc : c ∈ L (.hand t)) (hlists : s'.lists = s.lists.store c d)
    (hp : ∀ u, Ptst.pointers (s'.ptst u) = Ptst.pointers (s.ptst u))
    (hserv : (s'.pc t).service = (s.pc t).service) (hlacks : ∀ i, (s.pc t).lacks i → (s'.pc t).lacks i)
    (hm : (s.pc t).mends → (s'.pc t).mends ∧ s'.area t = s.area t) (hok : Ok s' L t) :
    Custody w s' body O L := by
  have hcache : ∀ u, (s'.ptst u).chunk_cache = (s.ptst u).chunk_cache := fun u => congrArg Prod.fst (hp u)
  have halloc : ∀ u, (s'.ptst u).alloc = (s.ptst u).alloc := fun u =>
    congrArg (fun x => x.2.1) (hp u)
  have hgarb : ∀ u, (s'.ptst u).garbage = (s.ptst u).garbage := fun u =>
    congrArg (fun x => x.2.2.1) (hp u)
  have htail : ∀ u, (s'.ptst u).garbage_tail = (s.ptst u).garbage_tail := fun u =>
    congrArg (fun x => x.2.2.2) (hp u)
  have hch : Change t s s' L L fun p => p = .hand t := by
    refine ⟨fun p he hout => ?_, fun u _ => by rw [hlists]; rfl, fun u _ => ⟨hcache u, halloc u⟩,
      fun a _ => ?_, fun _ _ => rfl, fun p hp x hx => ?_⟩
    · rw [he] at hout
      exact hout rfl
    · rw [hgarb, htail]
      exact ⟨rfl, rfl⟩
    · rw [hlists]
      exact h.next_of_ne hc hx hp
  refine h.turn hT hb hch ht (by rw [hlists]; exact h.store hc) ?_ h.shelves (fun p he hp => ?_) ?_
    (fun i hi => ?_) (fun a ha => ?_) hok
  · rw [hlists, hserv]
    exact h.service t
  · rw [he] at hp
    exact hp.elim
  · rw [hcache]
    exact h.cache t ht
  · rw [halloc]
    exact h.alloc t ht i fun hl => hi (hlacks i hl)
  · by_cases hmend : (s.pc t).mends
    · exact Or.inl ⟨(hm hmend).1, (hm hmend).2.trans ha⟩
    · have hung := h.hung hT hmend ha
      exact Or.inr ⟨by rw [hgarb]; exact hung.head, by rw [htail]; exact hung.tail⟩

/-! ### Chunks that change places -/

/-- Two places exchange chunks. -/
theorem Shelves.move {own A B : List Chunk} (h : Shelves own L) (hpq : p ≠ q)
    (hperm : (A ++ B).Perm (L p ++ L q)) : Shelves own (regroup L p q A B) := by
  have hnodup : (A ++ B).Nodup := by
    rw [hperm.nodup_iff, List.nodup_append]
    exact ⟨h.nodup p, h.nodup q, fun x hx y hy he => hpq (h.apart p q x hx (he ▸ hy))⟩
  rw [List.nodup_append] at hnodup
  refine ⟨fun r x hx => ?_, fun r r' x hr hr' => regroup_apart h.apart h.nodup hpq hperm hr hr',
    forall_regroup (P := fun _ l => l.Nodup) h.nodup hnodup.1 hnodup.2.1⟩
  rcases mem_regroup hpq hperm hx with hm | ⟨-, hm | hm⟩
  · exact h.kept r x hm
  · exact h.kept p x hm
  · exact h.kept q x hm

/-- New chunks come to a place. -/
theorem Shelves.put {own l : List Chunk} (h : Shelves own L) (hnodup : l.Nodup) (hnew : ∀ c ∈ l, c ∉ own) :
    Shelves (own ++ l) (Function.update L q l) := by
  have hmem : ∀ r x, x ∈ Function.update L q l r → (r = q ∧ x ∈ l) ∨ (r ≠ q ∧ x ∈ L r) := by
    intro r x hm
    rw [Function.update_apply] at hm
    split at hm
    · next hr => exact Or.inl ⟨hr, hm⟩
    · next hr => exact Or.inr ⟨hr, hm⟩
  refine ⟨fun r x hx => ?_, fun r r' x hr hr' => ?_, fun r => ?_⟩
  · rw [List.mem_append]
    exact (hmem r x hx).symm.imp (fun hm => h.kept r x hm.2) And.right
  · rcases hmem r x hr with ⟨hrq, hx⟩ | ⟨-, hx⟩
    · rcases hmem r' x hr' with ⟨hrq', -⟩ | ⟨-, hx'⟩
      · rw [hrq, hrq']
      · exact absurd (h.kept r' x hx') (hnew x hx)
    · rcases hmem r' x hr' with ⟨-, hx'⟩ | ⟨-, hx'⟩
      · exact absurd (h.kept r x hx) (hnew x hx')
      · exact h.apart r r' x hx hx'
  · rw [Function.update_apply]
    split
    · exact hnodup
    · exact h.nodup r

/-- A place is cleared. -/
theorem Shelves.clear {own : List Chunk} (h : Shelves own L) (p : Place n) :
    Shelves (own.filter (· ∉ L p)) (Function.update L p []) := by
  have hmem : ∀ r x, x ∈ Function.update L p [] r → r ≠ p ∧ x ∈ L r := by
    intro r x hm
    rw [Function.update_apply] at hm
    split at hm
    · cases hm
    · next hr => exact ⟨hr, hm⟩
  refine ⟨fun r x hx => ?_, fun r r' x hr hr' => h.apart r r' x (hmem r x hr).2 (hmem r' x hr').2, fun r => ?_⟩
  · obtain ⟨hne, hx⟩ := hmem r x hx
    rw [List.mem_filter, decide_eq_true_eq]
    exact ⟨h.kept r x hx, fun hm => hne (h.apart r p x hx hm)⟩
  · rw [Function.update_apply]
    split
    · exact List.nodup_nil
    · exact h.nodup r

/-! ### Rings as loops find them -/

theorem around_eq {next : Chunk → Chunk} {first c : Chunk} {l : List Chunk} {m : ℕ}
    (hseg : Seg next (next c) l first) (hfirst : first ∉ l) (hlen : l.length < m) :
    around next first m c = c :: l := by
  induction l generalizing c m with
  | nil =>
    obtain ⟨m, rfl⟩ : ∃ k, m = k + 1 := ⟨m - 1, by simp only [List.length_nil] at hlen; omega⟩
    have hc : next c = first := hseg
    rw [around, if_pos hc]
  | cons a l ih =>
    obtain ⟨m, rfl⟩ : ∃ k, m = k + 1 := ⟨m - 1, by omega⟩
    obtain ⟨ha, hseg⟩ := hseg
    have hne : next c ≠ first := fun he => hfirst (by rw [← he, ha]; exact List.mem_cons_self)
    rw [around, if_neg hne, ha]
    rw [List.length_cons] at hlen
    rw [ih hseg (fun hm => hfirst (List.mem_cons_of_mem _ hm)) (by omega)]

/-- A list of different chunks is not longer than there are chunks. -/
theorem length_le_of_bound {l : List Chunk} {m : ℕ} (hnodup : l.Nodup) (hlt : ∀ c ∈ l, c < m) :
    l.length ≤ m := by
  have hsub : l ⊆ List.range m := fun c hc => List.mem_range.mpr (hlt c hc)
  have hle := (hnodup.subperm hsub).length_le
  rwa [List.length_range] at hle

theorem ring_eq {l : List Chunk} (hcirc : Circ s.lists.next (c :: l)) (hnodup : (c :: l).Nodup)
    (hlt : ∀ x ∈ c :: l, x < s.lists.brk) : s.ring c = c :: l := by
  have hlen := length_le_of_bound hnodup hlt
  exact around_eq (circ_cons.mp hcirc) (List.nodup_cons.mp hnodup).1 hlen

/-- A ring that is to be put on a list. -/
theorem linked_of_circ {next : Chunk → Chunk} {own l : List Chunk} (hcirc : Circ next (c :: l))
    (hnodup : (c :: l).Nodup) (hown : ∀ x ∈ c :: l, x ∈ own) :
    Chunks.Linked next own (next c) c (l ++ [c]) := by
  refine ⟨⟨l, rfl, circ_cons.mp hcirc⟩, ?_, fun x hx => hown x ?_⟩
  · exact (List.perm_append_singleton c l).nodup_iff.mpr hnodup
  · exact (List.perm_append_singleton c l).mem_iff.mp hx

end ConcurrentPQ.Collector

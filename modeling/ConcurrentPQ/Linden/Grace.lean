import ConcurrentPQ.Linden.AllocatorLawful

/-!
# Readers and the collector

The collector follows the scheme of epochs (`Carried.turn`), for runs in which critical sections are left
and blocks freed by threads in critical sections only.

* `Run.lag`, `Run.guarded` — what that means for runs;
* `not_recycled_under_reader` — **a block that is freed while a thread is in a critical section is not
  handed out again before the thread leaves it**;
* `held_or_stored` — **no block is lost**;
* `State.pointer`, `exists_unique_pointer` — **no chunk is lost**.
-/

namespace ConcurrentPQ.Allocator

open ConcurrentPQ.Transition ConcurrentPQ.Circle ConcurrentPQ.Epoch

variable {s s₀ s₁ : State} {t u v : Tid} {p : Block} {id : ℕ} {r : Option Block}

/-! ### Blocks that readers may still see -/

/-- **No thread is more than one epoch behind.** -/
theorem Run.lag {tr : Trace} (hrun : Run allocator tr s) (hd : ∀ x ∈ tr, BracketedEntry x) :
    Lag 3 s.epochs := by
  have hinv := hrun.invariant_of (I := fun s => (∃ L, Books s L) ∧ Lag 3 s.epochs) (fun s hs => ?_)
    (fun s t c s' ⟨⟨L, hb⟩, hlag⟩ hstep hc => ?_) hd
  · exact hinv.2
  · refine ⟨hs.books, hs.lag⟩
  · obtain ⟨L', hcarried⟩ := hb.step hstep
    exact ⟨⟨L', hcarried.books⟩, hlag.turn (hcarried.turn hc)⟩

/-- While a thread stays in a critical section, what was freed stays in a garbage ring that it guards. -/
theorem Run.guarded {tr₁ tr₂ : Trace}
    (hrun : Run allocator (tr₂ ++ ⟨s₀, v, (.gc_free p id, r), s₁⟩ :: tr₁) s)
    (hd : ∀ x ∈ tr₂ ++ ⟨s₀, v, (.gc_free p id, r), s₁⟩ :: tr₁, BracketedEntry x)
    (hin : ∀ x ∈ tr₂, x.pre.Inside u) (hs : s.Inside u) : Guarded 3 s.epochs u p := by
  induction tr₂ generalizing s with
  | nil =>
    cases hrun with
    | step hrun hstep =>
      have hv : s₀.Inside v := hd _ List.mem_cons_self
      have hlag := Run.lag hrun fun x hx => hd x (List.mem_cons_of_mem _ hx)
      obtain ⟨L, hb⟩ := Reachable.books ⟨_, hrun⟩
      obtain ⟨hp, hexec⟩ := hstep
      obtain ⟨s', L', hexec', hcarried, hgrow, hlimbo, -⟩ := hb.gc_free hp
      rw [hexec] at hexec'
      cases hexec'
      obtain ⟨e, he⟩ := Option.ne_none_iff_exists'.mp hv
      have hgarbage := hcarried.books.mem_limbo.mpr ⟨v, id, hlimbo e he⟩
      exact Guarded.of_retire hlag (Nat.le_refl 3) (hgrow.local (t := v)) he hgarbage hs
  | cons x tr₂ ih =>
    cases hrun with
    | step hrun hstep =>
      have hd' := fun x hx => hd x (List.mem_cons_of_mem _ hx)
      have hguard := ih hrun hd' (fun x hx => hin x (List.mem_cons_of_mem _ hx)) (hin _ List.mem_cons_self)
      obtain ⟨L, hb⟩ := Reachable.books ⟨_, hrun⟩
      obtain ⟨L', hcarried⟩ := hb.step hstep
      exact hguard.turn (Run.lag hrun hd') (by decide) (hcarried.turn (hd _ List.mem_cons_self)) hs

/-- **Epoch reclamation.**  When a block is freed while thread `u` is in a critical section, `gc_alloc`
returns it to no thread before `u` has left that critical section. -/
theorem not_recycled_under_reader {tr₁ tr₂ : Trace}
    (hrun : Run allocator (tr₂ ++ ⟨s₀, v, (.gc_free p id, r), s₁⟩ :: tr₁) s)
    (hd : ∀ x ∈ tr₂ ++ ⟨s₀, v, (.gc_free p id, r), s₁⟩ :: tr₁, BracketedEntry x)
    (hin : ∀ x ∈ tr₂, x.pre.Inside u) : ∀ x ∈ tr₂, ∀ i, x.ev ≠ (.gc_alloc i, some p) := by
  induction tr₂ generalizing s with
  | nil => exact fun x hx => absurd hx List.not_mem_nil
  | cons y tr₂ ih =>
    cases hrun with
    | @step _ s _ t c hrun hstep =>
      have hd' := fun x hx => hd x (List.mem_cons_of_mem _ hx)
      have hin' := fun x hx => hin x (List.mem_cons_of_mem _ hx)
      intro x hx i hev
      cases hx with
      | tail _ hx => exact ih hrun hd' hin' x hx i hev
      | head =>
        dsimp only at hev
        rw [hev] at hstep
        obtain ⟨L, hb⟩ := Reachable.books ⟨_, hrun⟩
        obtain ⟨d, hlimbo⟩ := (Run.guarded hrun hd' hin' (hin _ List.mem_cons_self)).mem_limbo
        obtain ⟨t', gc, j, g, m, k, hmem⟩ := hlimbo
        exact (hb.sound.alloc _ _ _ _ hstep.1 hstep.2).2.1 ⟨t', gc, d, j, g, m, k, hmem⟩

theorem not_recycled_under_reader_freed :
    ∃ s₀ s₁ s b b' tr, Run allocator (⟨s₁, 7, (.gc_alloc 3, some b'), s⟩ ::
        ⟨s₀, 7, (.gc_free b 3, none), s₁⟩ :: tr) s ∧ s₁.Inside 8 ∧ b' ≠ b := by
  obtain ⟨s₀, s₁, s, b, b', tr, hrun, hd, hu, -⟩ := exists_freed_run
  refine ⟨s₀, s₁, s, b, b', tr, hrun, hu, fun he => ?_⟩
  let later : Trace := [⟨s₁, 7, (.gc_alloc 3, some b'), s⟩]
  have hin : ∀ x ∈ later, x.pre.Inside 8 := by
    intro x hx
    rw [List.mem_singleton.mp hx]
    exact hu
  have hfreed : Run allocator (later ++ ⟨s₀, 7, (.gc_free b 3, none), s₁⟩ :: tr) s := hrun
  exact not_recycled_under_reader hfreed hd hin _ List.mem_cons_self 3
    (congrArg (fun p => (Call.gc_alloc 3, some p)) he)

/-! ### Blocks and chunks that are not lost -/

/-- A block that has been handed out once is accounted for ever after. -/
theorem Run.accounted {tr : Trace} (hrun : Run allocator tr s) {x : Entry State Tid (Call × Option Block)}
    (hx : x ∈ tr) (hev : x.ev = (.gc_alloc id, some p)) : Accounted s p := by
  induction hrun with
  | start _ => cases hx
  | step hrun hstep ih =>
    obtain ⟨L, hb⟩ := Reachable.books ⟨_, hrun⟩
    cases hx with
    | head =>
      dsimp only at hev
      rw [hev] at hstep
      obtain ⟨b, s', L', hexec, -, -, hheld, -⟩ := hb.gc_alloc hstep.1
      rw [hstep.2] at hexec
      cases hexec
      left
      rw [hheld]
      exact Option.some_ne_none id
    | tail _ hx =>
      obtain ⟨L', hcarried⟩ := hb.step hstep
      exact hcarried.accounts p (ih hx)

/-- **No block is lost**: what has been handed out once is held by a client, or sits in one entry of one
chunk. -/
theorem held_or_stored {tr : Trace} (hrun : Run allocator tr s)
    {x : Entry State Tid (Call × Option Block)} (hx : x ∈ tr) (hev : x.ev = (.gc_alloc id, some p)) :
    (s.held p ≠ none ∧ ∀ c k, s.heap.Live c k → s.heap.blk c k ≠ p) ∨
      (s.held p = none ∧ ∃! e : Chunk × ℕ, s.heap.Live e.1 e.2 ∧ s.heap.blk e.1 e.2 = p) := by
  obtain ⟨L, hb⟩ := Reachable.books ⟨_, hrun⟩
  have hstock := hb.shared.stock
  by_cases hheld : s.held p = none
  · right
    obtain ⟨c, k, hk, hblk⟩ := (Run.accounted hrun hx hev).resolve_left (not_not.mpr hheld)
    refine ⟨hheld, (c, k), ⟨hk, hblk⟩, fun e he => ?_⟩
    have heq := hstock.inj e.1 e.2 c k he.1 hk (he.2.trans hblk.symm)
    exact Prod.ext heq.1 heq.2
  · left
    refine ⟨hheld, fun c k hk he => hheld ?_⟩
    rw [← he]
    exact hstock.unheld c k hk

theorem held_or_stored_freed :
    ∃ s b tr, Run allocator tr s ∧ (∃ x ∈ tr, x.ev = (.gc_alloc 3, some b)) ∧
      ((s.held b ≠ none ∧ ∀ c k, s.heap.Live c k → s.heap.blk c k ≠ b) ∨
        (s.held b = none ∧ ∃! e : Chunk × ℕ, s.heap.Live e.1 e.2 ∧ s.heap.blk e.1 e.2 = b)) := by
  obtain ⟨s₀, s₁, s, b, b', tr, hrun, -, -, -, ⟨x, hx, hev⟩, -⟩ := exists_freed_run
  have hx' := List.mem_cons_of_mem ⟨s₁, 7, (.gc_alloc 3, some b'), s⟩
    (List.mem_cons_of_mem ⟨s₀, 7, (.gc_free b 3, none), s₁⟩ hx)
  exact ⟨s, b, _, hrun, ⟨x, hx', hev⟩, held_or_stored hrun hx' hev⟩

/-- The list pointers: `free_chunks` and the `alloc` entries in use of `gc_global`, and of each registered
thread its `chunk_cache`, the entries of `alloc` and those of `garbage`.  (`garbage_tail` leads into the
list of the same entry of `garbage`, see `Owns.tail`.) -/
def State.pointer (s : State) : Place → Option Chunk
  | .free => some s.global.free_chunks
  | .main i => if i < s.global.nr_sizes then some (s.global.alloc i) else none
  | .cache t => (s.ptst t).map Ptst.chunk_cache
  | .alloc t i => if i < MAX_SIZES then (s.ptst t).map fun gc => gc.alloc i else none
  | .garbage t e i => (s.ptst t).bind fun gc => gc.garbage e i
  | .empty | .filled _ => none

/-- Each pointer leads to the first chunk of its ring. -/
theorem Books.pointer {L : Place → List Chunk} (hb : Books s L) (q : Place) : s.pointer q = (L q).head? := by
  have hunborn : ∀ t, s.ptst t = none → q.owner = some t → (L q).head? = none := by
    intro t ht hq
    rw [hb.unborn t ht q hq]
    rfl
  cases q with
  | free => exact hb.shared.free.symm
  | main i =>
    rw [State.pointer]
    split
    · next hi => exact (hb.shared.main i hi).symm
    · next hi =>
      rw [hb.noMain i (Nat.not_lt.mp hi)]
      rfl
  | cache t =>
    rw [State.pointer]
    cases ht : s.ptst t with
    | none => exact (hunborn t ht rfl).symm
    | some gc => exact (hb.owns t gc ht).cache.symm
  | alloc t i =>
    rw [State.pointer]
    split
    · next hi =>
      cases ht : s.ptst t with
      | none => exact (hunborn t ht rfl).symm
      | some gc => exact ((hb.owns t gc ht).alloc i hi).symm
    · next hi =>
      rw [hb.noAlloc t i (Nat.not_lt.mp hi)]
      rfl
  | garbage t e i =>
    rw [State.pointer]
    cases ht : s.ptst t with
    | none => exact (hunborn t ht rfl).symm
    | some gc => exact ((hb.owns t gc ht).garbage e i).symm
  | empty =>
    rw [hb.empty]
    rfl
  | filled i =>
    rw [hb.filled i]
    rfl

/-- **No chunk is lost**: each chunk is in the ring of exactly one pointer. -/
theorem exists_unique_pointer (h : Reachable allocator s) {c : Chunk} (hc : c < s.heap.brk) :
    ∃! q, ∃ g, s.pointer q = some g ∧ ∃ n, s.heap.next^[n] g = c := by
  obtain ⟨L, hb⟩ := Reachable.books h
  have hrings := hb.shared.stock.rings
  obtain ⟨q, hq⟩ := hb.shared.stock.placed c hc
  obtain ⟨g, l, hl⟩ := List.exists_cons_of_ne_nil (List.ne_nil_of_mem hq)
  refine ⟨q, ⟨g, ?_, ?_⟩, fun q' hq' => ?_⟩
  · rw [hb.pointer, hl]
    rfl
  · have hcirc := hrings.circ q
    rw [hl] at hcirc hq
    exact hcirc.exists_iterate hq
  · obtain ⟨g', hg', n, rfl⟩ := hq'
    rw [hb.pointer] at hg'
    have hmem := (hrings.circ q').iterate_mem (List.mem_of_mem_head? hg') n
    exact hrings.apart q' q _ hmem hq

/-- The chunk that a freed block sits in, while another block has been handed out. -/
theorem exists_unique_pointer_freed :
    ∃ s b c k tr, Run allocator tr s ∧ (∃ x ∈ tr, x.ev = (.gc_free b 3, none)) ∧ c < s.heap.brk ∧
      s.heap.Live c k ∧ s.heap.blk c k = b ∧
      ∃! q, ∃ g, s.pointer q = some g ∧ ∃ n, s.heap.next^[n] g = c := by
  obtain ⟨s₀, s₁, s, b, b', tr, hrun, hd, hu₁, hu, -⟩ := exists_freed_run
  let later : Trace := [⟨s₁, 7, (.gc_alloc 3, some b'), s⟩]
  have hin : ∀ x ∈ later, x.pre.Inside 8 := by
    intro x hx
    rw [List.mem_singleton.mp hx]
    exact hu₁
  have hfreed : Run allocator (later ++ ⟨s₀, 7, (.gc_free b 3, none), s₁⟩ :: tr) s := hrun
  obtain ⟨L, hb⟩ := Reachable.books ⟨_, hrun⟩
  obtain ⟨d, hlimbo⟩ := (Run.guarded hfreed hd hin hu).mem_limbo
  obtain ⟨t, i, c, k, hc, hk, hblk⟩ := hb.mem_limbo.mp hlimbo
  have hbrk := hb.shared.stock.bound _ c hc
  exact ⟨s, b, c, k, _, hrun, ⟨_, List.mem_cons_of_mem _ List.mem_cons_self, rfl⟩, hbrk, hk, hblk,
    exists_unique_pointer ⟨_, hrun⟩ hbrk⟩

end ConcurrentPQ.Allocator

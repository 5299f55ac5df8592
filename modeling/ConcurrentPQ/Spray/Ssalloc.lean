import ConcurrentPQ.Lib.ByteRing
import ConcurrentPQ.Lib.Transition
import ConcurrentPQ.Spray.Program
import Mathlib.Data.Fintype.Basic

/-!
# The allocator of the SprayList wrapper

`ssalloc.c` without `SSALLOC_USE_MALLOC`, as `SprayList` uses it: every thread has two allocators, each
an arena with a bump pointer and a list of freed blocks.  `SprayList::init_thread` calls `seed_rand`,
which allocates from allocator 0, and only then `ssalloc_init`, which gives the allocators their
arenas.  Of an operation only its requests are followed, so whether a search finds the value is open.

* `Allocator`, `ssalloc_alloc`, `ssfree_alloc`, `ssalloc_init`, `ssalloc_align_alloc` — the allocator;
* `Site`, `Thread`, `Moves`, `State`, `wrapper` — its callers and any number of threads;
* `unit`, `owned`, `limit`, `home` — the size of the blocks a list gets back, the blocks a thread still has
  to free, how long a list is at most, and the list a block goes to;
* `Obtained`, `Freed`, `held`, `Sound` — blocks come from an arena or were freed, and do not overlap;
* `sound_iff` — **a run is sound exactly if no thread has come past `seed_rand`**;
* `proceed`, `move`, `step_of_move` — runs that are carried out;
* `exists_unsound` — the first allocation of all returns the null pointer.
-/

namespace ConcurrentPQ.Ssalloc

open ConcurrentPQ.Transition ConcurrentPQ.Spray

/-! ### The allocator -/

/-- `SSALLOC_SIZE`, as without any of the platform macros. -/
abbrev SSALLOC_SIZE : ℕ := 1024 * 1024 * 1024

/-- The thread-local variables of one allocator; addresses are numbers, and 0 is `NULL`. -/
structure Allocator where
  app_mem : ℕ
  alloc_next : ℕ
  free_list : UInt8 → ℕ
  free_cur : UInt8
  free_num : UInt8

/-- The static initial values. -/
def Allocator.zero : Allocator := ⟨0, 0, fun _ => 0, 0, 0⟩

/-- `ssalloc_alloc`: the block, and the allocator afterwards.  An overrun of the arena is reported and
nothing else. -/
def ssalloc_alloc (A : Allocator) (size : ℕ) : ℕ × Allocator :=
  if A.free_num > 2 then
    let spot : UInt8 := A.free_cur - A.free_num
    (A.free_list spot, { A with free_num := A.free_num - 1 })
  else
    (A.app_mem + A.alloc_next, { A with alloc_next := A.alloc_next + size })

/-- `ssfree_alloc`. -/
def ssfree_alloc (A : Allocator) (ptr : ℕ) : Allocator :=
  { A with
    free_num := A.free_num + 1
    free_list := Function.update A.free_list A.free_cur ptr
    free_cur := A.free_cur + 1 }

/-- `ssalloc_init`: each allocator gets what `memalign` returns. -/
def ssalloc_init (A : Fin 2 → Allocator) (base : Fin 2 → ℕ) : Fin 2 → Allocator :=
  fun i => { A i with app_mem := base i }

/-- `ssalloc_align_alloc`: the bump pointer moves on to the next multiple of 64. -/
def ssalloc_align_alloc (A : Allocator) : Allocator :=
  { A with alloc_next := A.alloc_next + (64 - A.alloc_next % 64) % 64 }

/-- What `sl_new_simple_node` asks for: `sizeof(sl_node_t)` is 168, and `next` is as long again. -/
def node_size : ℕ :=
  let ns := 168 + levelmax * 8
  if ns % 64 ≠ 0 then ns + (64 - ns % 64) else ns

/-! ### The callers -/

/-- Where a thread stands: `init_thread`, `sl_set_new`, `fraser_insert`, `sl_seq_add` and
`spray_delete_min`, at their calls of the allocator and in between. -/
inductive Site where
  | idle
  | seed_rand | seeds | ssalloc_init | thread_data
  | set | align | max | min
  | new | preds | succs | search | sl_delete_node | ssfree_preds | ssfree_succs
  | seq_search | node
  | spray
  deriving DecidableEq

/-- The calls of `ssalloc_alloc`: the allocator and the size. -/
def request : Site → Option (Fin 2 × ℕ)
  | .seed_rand => some (0, 3 * 8)
  | .set => some (1, 8)
  | .max | .min | .new | .node => some (1, node_size)
  | .preds | .succs => some (0, levelmax * 8)
  | _ => none

/-- The calls of `ssfree_alloc`: the allocator, and where the block was allocated. -/
def release : Site → Option (Fin 2 × Site)
  | .sl_delete_node => some (1, .new)
  | .ssfree_preds => some (0, .preds)
  | .ssfree_succs => some (0, .succs)
  | _ => none

/-- Where a thread goes on.  A search has two outcomes: `found` tells whether the value is in the list. -/
def follow (found : Bool) : Site → Site
  | .idle => .idle
  | .seed_rand => .seeds
  | .seeds => .ssalloc_init
  | .ssalloc_init => .thread_data
  | .thread_data => .idle
  | .set => .align
  | .align => .max
  | .max => .min
  | .min => .idle
  | .new => .preds
  | .preds => .succs
  | .succs => .search
  | .search => if found then .sl_delete_node else .ssfree_preds
  | .sl_delete_node => .ssfree_preds
  | .ssfree_preds => .ssfree_succs
  | .ssfree_succs => .idle
  | .seq_search => if found then .idle else .node
  | .node => .idle
  | .spray => .idle

/-- The size of the blocks that an allocator gets back. -/
def unit (a : Fin 2) : ℕ := if a = 0 then levelmax * 8 else node_size

/-- The blocks that are to be freed later in the call. -/
def owned : Site → List Site
  | .preds => [.new]
  | .succs => [.new, .preds]
  | .search | .sl_delete_node => [.new, .preds, .succs]
  | .ssfree_preds => [.preds, .succs]
  | .ssfree_succs => [.succs]
  | _ => []

/-- How many freed blocks an allocator has at most. -/
def limit (site : Site) (a : Fin 2) : ℕ :=
  if a = 0 then
    match site with
    | .succs | .ssfree_succs => 3
    | .search | .sl_delete_node | .ssfree_preds => 2
    | _ => 4
  else
    match site with
    | .preds | .succs | .search | .sl_delete_node => 2
    | _ => 3

/-- The allocator whose list a block goes to. -/
def home (v : Site) : Fin 2 := if v = .new then 1 else 0

/-- What an initialised thread may call: `sl_set_new` from the constructor, which has called
`init_thread` itself; `sl_add`, with either value of the field that `TRANSACTIONAL` reads and nothing
sets; and `spray_delete_min`. -/
inductive Op where
  | sl_set_new
  | sl_add (transactional : Bool)
  | spray_delete_min
  deriving DecidableEq

/-- Where a call begins. -/
def Op.start : Op → Site
  | .sl_set_new => .set
  | .sl_add true => .new
  | .sl_add false => .seq_search
  | .spray_delete_min => .spray

/-- A thread: `initialized`, its allocators, where it stands, and the variable that each request was
assigned to. -/
structure Thread where
  initialized : Bool
  allocators : Fin 2 → Allocator
  site : Site
  var : Site → ℕ

/-- A thread that has called nothing yet. -/
structure Thread.Fresh (th : Thread) : Prop where
  initialized : th.initialized = false
  allocators : th.allocators = fun _ => Allocator.zero
  site : th.site = .idle

/-- What a step shows: a request with the block returned, a release, the arenas of `ssalloc_init`, and
the fault of a store through a pointer to nowhere. -/
inductive Event where
  | alloc (a : Fin 2) (p size : ℕ)
  | free (a : Fin 2) (p : ℕ)
  | arenas (base : Fin 2 → ℕ)
  | fault
  | tau

/-- The steps of a thread; `mapped` tells whether the address 0 can be written to. -/
inductive Moves (mapped : Bool) (th : Thread) : Event → Thread → Prop
  | alloc (a : Fin 2) (size : ℕ) (h : request th.site = some (a, size)) :
      Moves mapped th (.alloc a (ssalloc_alloc (th.allocators a) size).1 size)
        { th with
          allocators :=
            Function.update th.allocators a (ssalloc_alloc (th.allocators a) size).2
          site := follow false th.site
          var := Function.update th.var th.site (ssalloc_alloc (th.allocators a) size).1 }
  | free (a : Fin 2) (v : Site) (h : release th.site = some (a, v)) :
      Moves mapped th (.free a (th.var v))
        { th with
          allocators :=
            Function.update th.allocators a (ssfree_alloc (th.allocators a) (th.var v))
          site := follow false th.site }
  | init_thread (h : th.site = .idle) (hinit : th.initialized = false) :
      Moves mapped th .tau { th with site := .seed_rand }
  | nb_threads (h : th.site = .idle) (hinit : th.initialized = true) : Moves mapped th .tau th
  | seeds (h : th.site = .seeds)
      (hwritable : th.var .seed_rand = 0 → mapped = true) :
      Moves mapped th .tau { th with site := .ssalloc_init }
  | fault (h : th.site = .seeds) (hnull : th.var .seed_rand = 0) (hmapped : mapped = false) :
      Moves mapped th .fault th
  | arenas (base : Fin 2 → ℕ) (h : th.site = .ssalloc_init) :
      Moves mapped th (.arenas base)
        { th with allocators := ssalloc_init th.allocators base, site := .thread_data }
  | thread_data (h : th.site = .thread_data) :
      Moves mapped th .tau { th with initialized := true, site := .idle }
  | call (op : Op) (h : th.site = .idle) (hinit : th.initialized = true) :
      Moves mapped th .tau { th with site := op.start }
  | align (h : th.site = .align) :
      Moves mapped th .tau
        { th with
          allocators :=
            Function.update th.allocators 1 (ssalloc_align_alloc (th.allocators 1))
          site := .max }
  | internal (found : Bool) (h : th.site = .search ∨ th.site = .seq_search ∨ th.site = .spray) :
      Moves mapped th .tau { th with site := follow found th.site }

/-- All threads; the arenas that `memalign` has handed out; whether a fault has ended the process. -/
structure State where
  thread : ℕ → Thread
  regions : List ℕ
  crashed : Bool

/-- Two arenas have no address in common. -/
def Apart (b c : ℕ) : Prop := b + SSALLOC_SIZE ≤ c ∨ c + SSALLOC_SIZE ≤ b

/-- What is known of `memalign(64, SSALLOC_SIZE)`: its result is aligned, not null (`ssalloc_init` asserts
it) and apart from what it returned before. -/
structure Memalign (regions : List ℕ) (base : Fin 2 → ℕ) : Prop where
  nonnull : ∀ i, base i ≠ 0
  aligned : ∀ i, base i % 64 = 0
  fresh : ∀ i, ∀ b ∈ regions, Apart (base i) b
  each : Apart (base 0) (base 1)

/-- The arenas handed out after a step. -/
def Event.regions (l : List ℕ) : Event → List ℕ
  | .arenas base => base 1 :: base 0 :: l
  | _ => l

/-- The wrapper under any number of threads. -/
def wrapper (mapped : Bool) : System State ℕ Event where
  init s := s.crashed = false ∧ s.regions = [] ∧ ∀ t, (s.thread t).Fresh
  step s t ev s' := s.crashed = false ∧ (∀ base, ev = .arenas base → Memalign s.regions base) ∧
    (ev = .fault ↔ s'.crashed = true) ∧ s'.regions = ev.regions s.regions ∧
    ∃ th, Moves mapped (s.thread t) ev th ∧ s'.thread = Function.update s.thread t th

/-! ### What the allocator is to achieve -/

abbrev Record := Entry State ℕ Event

/-- A block that was handed out: to whom, by which allocator, and the bytes it was requested for. -/
structure Block where
  who : ℕ
  allocator : Fin 2
  addr : ℕ
  size : ℕ
  deriving DecidableEq

/-- The blocks have no byte in common. -/
def Block.Disjoint (b c : Block) : Prop := b.addr + b.size ≤ c.addr ∨ c.addr + c.size ≤ b.addr

/-- The block lies in an arena that `ssalloc_init` has given to the thread for this allocator. -/
def Obtained (tr : List Record) (b : Block) : Prop :=
  ∃ x ∈ tr, x.who = b.who ∧ ∃ base, x.ev = .arenas base ∧
    base b.allocator ≤ b.addr ∧ b.addr + b.size ≤ base b.allocator + SSALLOC_SIZE

/-- The thread has freed the block before. -/
def Freed (tr : List Record) (b : Block) : Prop :=
  ∃ x ∈ tr, x.who = b.who ∧ ∃ a, x.ev = .free a b.addr

/-- The blocks that have been handed out and not been freed since. -/
def held : List Record → List Block
  | [] => []
  | x :: tr =>
    match x.ev with
    | .alloc a p size => ⟨x.who, a, p, size⟩ :: held tr
    | .free a p => (held tr).filter fun b => ¬(b.who = x.who ∧ b.allocator = a ∧ b.addr = p)
    | _ => held tr

/-- **What the allocator is to achieve**: every block returned lies in an arena of the thread or was
freed by it, and blocks held at one time do not overlap. -/
def Sound : List Record → Prop
  | [] => True
  | x :: tr => Sound tr ∧
    (∀ a p size, x.ev = .alloc a p size →
      Obtained tr ⟨x.who, a, p, size⟩ ∨ Freed tr ⟨x.who, a, p, size⟩) ∧
    (held (x :: tr)).Pairwise Block.Disjoint

/-- The step is the call of `ssalloc` in `seed_rand`. -/
def Seeding (x : Record) : Prop := (x.pre.thread x.who).site = .seed_rand

instance (x : Record) : Decidable (Seeding x) :=
  inferInstanceAs (Decidable ((x.pre.thread x.who).site = .seed_rand))

/-! ### Before the first arena -/

/-- The sites of `init_thread`. -/
def Site.initial : Site → Bool
  | .seed_rand | .seeds | .ssalloc_init | .thread_data => true
  | _ => false

/-- A thread is in `init_thread` only as long as it is not initialised, and elsewhere only afterwards. -/
def Thread.Staged (th : Thread) : Prop :=
  if th.initialized = true then th.site.initial = false else th.site = .idle ∨ th.site.initial = true

/-- The thread has not come past `seed_rand`. -/
def Thread.Early (th : Thread) : Prop :=
  th.initialized = false ∧ (th.site = .idle ∨ th.site = .seed_rand)

section Early

variable {mapped : Bool} {th th' : Thread} {ev : Event} {tr : List Record} {s s' : State} {t : ℕ}

theorem Thread.Fresh.early (h : th.Fresh) : th.Early := ⟨h.initialized, Or.inl h.site⟩

theorem Thread.Early.staged (h : th.Early) : th.Staged := by
  obtain ⟨hinit, hsite⟩ := h
  rw [Thread.Staged, if_neg (by rw [hinit]; decide)]
  cases hsite with
  | inl h => exact Or.inl h
  | inr h => exact Or.inr (by rw [h]; rfl)

theorem Thread.Staged.site_of_not (h : th.Staged) (hinit : th.initialized = false) :
    th.site = .idle ∨ th.site.initial = true := by
  rw [Thread.Staged, if_neg (by rw [hinit]; decide)] at h
  exact h

theorem Thread.Staged.site_of (h : th.Staged) (hinit : th.initialized = true) :
    th.site.initial = false := by
  rw [Thread.Staged, if_pos hinit] at h
  exact h

/-- A thread stands at a site of its stage. -/
theorem Thread.Staged.of_site
    (hnot : th.initialized = false → th.site = .idle ∨ th.site.initial = true)
    (hinit : th.initialized = true → th.site.initial = false) : th.Staged := by
  rw [Thread.Staged]
  split
  · next hi => exact hinit hi
  · next hi => exact hnot (by simpa using hi)

/-- Every step keeps a thread in the sites of its stage. -/
theorem Moves.staged (hm : Moves mapped th ev th') (h : th.Staged) : th'.Staged := by
  have hfalse := h.site_of_not
  have htrue := h.site_of
  cases hm with
  | alloc a size hr =>
    refine Thread.Staged.of_site (fun hi => ?_) fun hi => ?_
    · have := hfalse hi
      cases hs : th.site <;> simp_all [request, follow, Site.initial]
    · have := htrue hi
      cases hs : th.site <;> simp_all [request, follow, Site.initial]
  | free a v hr =>
    refine Thread.Staged.of_site (fun hi => ?_) fun hi => ?_
    · have := hfalse hi
      cases hs : th.site <;> simp_all [release, Site.initial]
    · have := htrue hi
      cases hs : th.site <;> simp_all [release, follow, Site.initial]
  | init_thread hs hi =>
    exact Thread.Staged.of_site (fun _ => Or.inr rfl) fun hi' => by rw [hi] at hi'; cases hi'
  | nb_threads hs hi => exact h
  | seeds hs hw =>
    exact Thread.Staged.of_site (fun _ => Or.inr rfl) fun hi => by
      have := htrue hi
      rw [hs] at this
      cases this
  | fault hs hnull hmapped => exact h
  | arenas base hs =>
    exact Thread.Staged.of_site (fun _ => Or.inr rfl) fun hi => by
      have := htrue hi
      rw [hs] at this
      cases this
  | thread_data hs =>
    rw [Thread.Staged, if_pos rfl]
    rfl
  | call op hs hi =>
    refine Thread.Staged.of_site (fun hi' => by rw [hi] at hi'; cases hi') fun _ => ?_
    cases op with
    | sl_set_new => rfl
    | sl_add transactional => cases transactional <;> rfl
    | spray_delete_min => rfl
  | align hs =>
    refine Thread.Staged.of_site (fun hi => ?_) fun _ => rfl
    have := hfalse hi
    rw [hs] at this
    simp [Site.initial] at this
  | internal found hs =>
    refine Thread.Staged.of_site (fun hi => ?_) fun hi => ?_
    · have := hfalse hi
      rcases hs with hs | hs | hs <;> simp [hs, Site.initial] at this
    · rcases hs with hs | hs | hs <;> cases found <;> simp [hs, follow, Site.initial]

/-- Who is still early was early before, and has shown nothing. -/
theorem Moves.early (hm : Moves mapped th ev th') (hst : th.Staged) (h : th'.Early) :
    th.Early ∧ ev = .tau := by
  have hfalse := hst.site_of_not
  obtain ⟨hi, hs'⟩ := h
  cases hm with
  | alloc a size hr =>
    have := hfalse hi
    cases hs : th.site <;> simp_all [request, follow, Site.initial]
  | free a v hr =>
    have := hfalse hi
    cases hs : th.site <;> simp_all [release, Site.initial]
  | init_thread hs _ => exact ⟨⟨hi, Or.inl hs⟩, rfl⟩
  | nb_threads hs _ => exact ⟨⟨hi, hs'⟩, rfl⟩
  | seeds hs hw => simp at hs'
  | fault hs hnull hmapped => simp [hs] at hs'
  | arenas base hs => simp at hs'
  | thread_data hs => cases hi
  | call op hs hi' =>
    rw [hi'] at hi
    cases hi
  | align hs => simp at hs'
  | internal found hs =>
    have := hfalse hi
    rcases hs with hs | hs | hs <;> simp [hs, Site.initial] at this

/-- A thread that is still early has shown nothing. -/
structure Dawn (tr : List Record) (s : State) : Prop where
  staged : ∀ t, (s.thread t).Staged
  silent : ∀ t, (s.thread t).Early → ∀ x ∈ tr, x.who = t → x.ev = .tau

theorem Dawn.of_run (hrun : Run (wrapper mapped) tr s) : Dawn tr s := by
  induction hrun with
  | start hi => exact ⟨fun t => (hi.2.2 t).early.staged, fun t _ x hx => by cases hx⟩
  | @step tr s s' t ev _ hstep ih =>
    obtain ⟨_, _, _, _, th, hm, hth⟩ := hstep
    refine ⟨fun u => ?_, fun u hu x hx hxu => ?_⟩
    · rw [hth, Function.update_apply]
      split
      · exact hm.staged (ih.staged t)
      · exact ih.staged u
    · rw [hth, Function.update_apply] at hu
      split at hu
      · next heq =>
        obtain ⟨hearly, htau⟩ := hm.early (ih.staged t) hu
        cases hx with
        | head => exact htau
        | tail _ hx => exact ih.silent t hearly x hx (hxu.trans heq)
      · next hne =>
        cases hx with
        | head => exact absurd hxu.symm hne
        | tail _ hx => exact ih.silent u hu x hx hxu

/-- The allocation in `seed_rand` gets a block from nowhere: no arena of the thread, and none of the
blocks it has freed. -/
theorem Dawn.unsound (hd : Dawn tr s) (hm : Moves mapped (s.thread t) ev th')
    (hsite : (s.thread t).site = .seed_rand) :
    ∃ a p size, ev = .alloc a p size ∧ ¬Obtained tr ⟨t, a, p, size⟩ ∧ ¬Freed tr ⟨t, a, p, size⟩ := by
  have hinit : (s.thread t).initialized = false := by
    rw [← Bool.not_eq_true]
    intro hi
    have hinitial := (hd.staged t).site_of hi
    rw [hsite] at hinitial
    cases hinitial
  have hsilent := hd.silent t ⟨hinit, Or.inr hsite⟩
  cases hm with
  | alloc a size hr =>
    refine ⟨a, _, size, rfl, ?_, ?_⟩
    · rintro ⟨x, hx, hxt, base, hev, _⟩
      rw [hsilent x hx hxt] at hev
      cases hev
    · rintro ⟨x, hx, hxt, b, hev⟩
      rw [hsilent x hx hxt] at hev
      cases hev
  | free a v hr =>
    rw [hsite] at hr
    cases hr
  | internal found hs => simp [hsite] at hs
  | _ => simp_all

/-- As long as no thread has come past `seed_rand`, nothing has been shown. -/
theorem Moves.early_of (hm : Moves mapped th ev th') (h : th.Early) (hseed : th.site ≠ .seed_rand) :
    th'.Early ∧ ev = .tau := by
  obtain ⟨hi, hs | hs⟩ := h
  · cases hm with
    | init_thread _ _ => exact ⟨⟨hi, Or.inr rfl⟩, rfl⟩
    | alloc a size hr =>
      rw [hs] at hr
      cases hr
    | free a v hr =>
      rw [hs] at hr
      cases hr
    | internal found hs' => simp [hs] at hs'
    | _ => simp_all
  · exact absurd hs hseed

/-- Without a step past `seed_rand` all threads stay early, and nothing is shown. -/
theorem early_of_run (hrun : Run (wrapper mapped) tr s) (hseed : ∀ x ∈ tr, ¬Seeding x) :
    (∀ t, (s.thread t).Early) ∧ ∀ x ∈ tr, x.ev = .tau := by
  induction hrun with
  | start hi => exact ⟨fun t => (hi.2.2 t).early, fun x hx => by cases hx⟩
  | @step tr s s' t ev _ hstep ih =>
    obtain ⟨_, _, _, _, th, hm, hth⟩ := hstep
    obtain ⟨hearly, htau⟩ := ih fun x hx => hseed x (List.mem_cons_of_mem _ hx)
    obtain ⟨hth', hev⟩ := hm.early_of (hearly t) (hseed _ List.mem_cons_self)
    refine ⟨fun u => ?_, fun x hx => ?_⟩
    · rw [hth, Function.update_apply]
      split
      · exact hth'
      · exact hearly u
    · cases hx with
      | head => exact hev
      | tail _ hx => exact htau x hx

end Early

/-! ### Where the allocator is sound -/

theorem held_of_silent {tr : List Record} (h : ∀ x ∈ tr, x.ev = .tau) : held tr = [] := by
  induction tr with
  | nil => rfl
  | cons x tr ih =>
    rw [held, h x List.mem_cons_self]
    exact ih fun y hy => h y (List.mem_cons_of_mem _ hy)

theorem Sound.of_silent {tr : List Record} (h : ∀ x ∈ tr, x.ev = .tau) : Sound tr := by
  induction tr with
  | nil => trivial
  | cons x tr ih =>
    refine ⟨ih fun y hy => h y (List.mem_cons_of_mem _ hy), fun a p size hev => ?_, ?_⟩
    · rw [h x List.mem_cons_self] at hev
      cases hev
    · rw [held_of_silent h]
      exact List.Pairwise.nil

/-- **A run is sound exactly if no thread has come past `seed_rand`**, the first thing that
`init_thread` does. -/
theorem sound_iff (mapped : Bool) (tr : List Record) (s : State) (hrun : Run (wrapper mapped) tr s) :
    Sound tr ↔ ∀ x ∈ tr, ¬Seeding x := by
  refine ⟨fun hsound => ?_, fun h => Sound.of_silent (early_of_run hrun h).2⟩
  induction hrun with
  | start _ => intro x hx; cases hx
  | @step tr s s' t ev hr hstep ih =>
    obtain ⟨_, _, _, _, th, hm, hth⟩ := hstep
    intro x hx
    cases hx with
    | head =>
      intro hseed
      obtain ⟨a, p, size, hev, hobtained, hfreed⟩ := (Dawn.of_run hr).unsound hm hseed
      cases hsound.2.1 a p size hev with
      | inl h => exact hobtained h
      | inr h => exact hfreed h
    | tail _ hx => exact ih hsound.1 x hx

/-! ### Runs that are carried out -/

instance (b c : ℕ) : Decidable (Apart b c) := inferInstanceAs (Decidable (_ ∨ _))

instance (l : List ℕ) (base : Fin 2 → ℕ) : Decidable (Memalign l base) :=
  decidable_of_iff ((∀ i, base i ≠ 0) ∧ (∀ i, base i % 64 = 0) ∧ (∀ i, ∀ b ∈ l, Apart (base i) b) ∧
      Apart (base 0) (base 1))
    ⟨fun ⟨h₀, h₁, h₂, h₃⟩ => ⟨h₀, h₁, h₂, h₃⟩, fun h => ⟨h.nonnull, h.aligned, h.fresh, h.each⟩⟩

deriving instance DecidableEq for Event

/-- What a thread does next if the address 0 can be written to: `base` are the arenas it is to get, `op`
is what it calls where it is idle, and `found` the outcome of its search. -/
def proceed (base : Fin 2 → ℕ) (op : Op) (found : Bool) (th : Thread) : Event × Thread :=
  match request th.site, release th.site with
  | some (a, size), _ =>
      (.alloc a (ssalloc_alloc (th.allocators a) size).1 size,
        { th with
          allocators := Function.update th.allocators a (ssalloc_alloc (th.allocators a) size).2
          site := follow false th.site
          var := Function.update th.var th.site (ssalloc_alloc (th.allocators a) size).1 })
  | none, some (a, v) =>
      (.free a (th.var v),
        { th with
          allocators := Function.update th.allocators a (ssfree_alloc (th.allocators a) (th.var v))
          site := follow false th.site })
  | none, none =>
    match th.site with
    | .idle =>
        (.tau, if th.initialized then { th with site := op.start } else { th with site := .seed_rand })
    | .seeds => (.tau, { th with site := .ssalloc_init })
    | .ssalloc_init =>
        (.arenas base, { th with allocators := ssalloc_init th.allocators base, site := .thread_data })
    | .thread_data => (.tau, { th with initialized := true, site := .idle })
    | .align =>
        (.tau, { th with
          allocators := Function.update th.allocators 1 (ssalloc_align_alloc (th.allocators 1))
          site := .max })
    | site => (.tau, { th with site := follow found site })

theorem proceed_moves (base : Fin 2 → ℕ) (op : Op) (found : Bool) (th : Thread) :
    Moves true th (proceed base op found th).1 (proceed base op found th).2 := by
  unfold proceed
  split
  · next hr => exact .alloc _ _ hr
  · next hr => exact .free _ _ hr
  · next hreq hrel =>
    split
    · next hs =>
      dsimp only
      split
      · next hi => exact .call op hs hi
      · next hi => exact .init_thread hs (by simpa using hi)
    · next hs => exact .seeds hs fun _ => rfl
    · next hs => exact .arenas base hs
    · next hs => exact .thread_data hs
    · next hs => exact .align hs
    · next h₀ h₁ h₂ h₃ h₄ =>
      refine .internal found ?_
      cases hs : th.site <;> simp_all [request, release]

/-- A move of thread `who`. -/
structure Move where
  who : ℕ
  op : Op
  found : Bool

/-- Each thread has two arenas of its own. -/
def arena (t : ℕ) (a : Fin 2) : ℕ := SSALLOC_SIZE * (2 * t + a + 1)

/-- `memalign` may return the arenas of the event. -/
def Event.granted (l : List ℕ) : Event → Prop
  | .arenas base => Memalign l base
  | .fault => False
  | _ => True

instance (l : List ℕ) : DecidablePred (Event.granted l)
  | .arenas _ => inferInstanceAs (Decidable (Memalign _ _))
  | .fault => .isFalse id
  | .alloc _ _ _ | .free _ _ | .tau => .isTrue trivial

/-- Carry out a move, if it is possible. -/
def move (s : State) (x : Move) : Option (ℕ × Event × State) :=
  let r := proceed (arena x.who) x.op x.found (s.thread x.who)
  if s.crashed = false ∧ r.1.granted s.regions then
    some (x.who, r.1, ⟨Function.update s.thread x.who r.2, r.1.regions s.regions, false⟩)
  else none

theorem step_of_move {s s' : State} {m : Move} {t : ℕ} {ev : Event} (h : move s m = some (t, ev, s')) :
    (wrapper true).step s t ev s' := by
  rw [move] at h
  split at h
  · rename_i hc
    obtain ⟨rfl, rfl, rfl⟩ := h
    refine ⟨hc.1, fun base heq => ?_, ?_, rfl, _, proceed_moves (arena m.who) m.op m.found _, rfl⟩
    · have hgranted := hc.2
      rw [heq] at hgranted
      exact hgranted
    · refine iff_of_false (fun heq => ?_) Bool.false_ne_true
      have hgranted := hc.2
      rw [heq] at hgranted
      exact hgranted
  · cases h

/-! ### Two threads that are initialised -/

/-- The state in which a process starts. -/
def start : State := ⟨fun _ => ⟨false, fun _ => .zero, .idle, fun _ => 0⟩, [], false⟩

theorem start_init {mapped : Bool} : (wrapper mapped).init start :=
  ⟨rfl, rfl, fun _ => ⟨rfl, rfl, rfl⟩⟩

/-- The state after a step of thread `t`. -/
def State.put (s : State) (t : ℕ) (th : Thread) : State :=
  { s with thread := Function.update s.thread t th }

/-- What `init_thread` and the allocation in `seed_rand` make of a thread. -/
def calling : Thread := ⟨false, fun _ => .zero, .seed_rand, fun _ => 0⟩

def seeded : Thread :=
  { calling with
    allocators := Function.update calling.allocators 0 (ssalloc_alloc .zero 24).2
    site := .seeds
    var := Function.update calling.var .seed_rand (ssalloc_alloc .zero 24).1 }

/-- Two threads enter `init_thread` and return from `ssalloc`, before either stores a seed. -/
def seeding : List Record :=
  [⟨((start.put 0 calling).put 1 calling).put 0 seeded, 1, .alloc 0 0 24,
      (((start.put 0 calling).put 1 calling).put 0 seeded).put 1 seeded⟩,
    ⟨(start.put 0 calling).put 1 calling, 0, .alloc 0 0 24,
      ((start.put 0 calling).put 1 calling).put 0 seeded⟩,
    ⟨start.put 0 calling, 1, .tau, (start.put 0 calling).put 1 calling⟩,
    ⟨start, 0, .tau, start.put 0 calling⟩]

theorem seeding_run :
    Run (wrapper false) seeding
      ((((start.put 0 calling).put 1 calling).put 0 seeded).put 1 seeded) := by
  have hcall : ∀ s : State, ∀ t, s.crashed = false → s.thread t = start.thread t →
      (wrapper false).step s t .tau (s.put t calling) := by
    intro s t hs ht
    refine ⟨hs, fun _ h => (by cases h), ?_, rfl, calling, ?_, rfl⟩
    · simp [State.put, hs]
    · rw [ht]
      exact Moves.init_thread rfl rfl
  have hseed : ∀ s : State, ∀ t, s.crashed = false → s.thread t = calling →
      (wrapper false).step s t (.alloc 0 0 24) (s.put t seeded) := by
    intro s t hs ht
    refine ⟨hs, fun _ h => (by cases h), ?_, rfl, seeded, ?_, rfl⟩
    · simp [State.put, hs]
    · rw [ht]
      exact Moves.alloc 0 24 rfl
  refine Run.step (Run.step (Run.step (Run.step (Run.start start_init) ?_) ?_) ?_) ?_
  · exact hcall _ _ rfl rfl
  · exact hcall _ _ rfl rfl
  · exact hseed _ _ rfl rfl
  · exact hseed _ _ rfl rfl

/-- **The first allocation of all returns the null pointer**: it is in no arena, and the blocks of two
threads are the same. -/
theorem exists_unsound :
    ∃ tr s, Run (wrapper false) tr s ∧ ¬Sound tr ∧
      held tr = [⟨1, 0, 0, 24⟩, ⟨0, 0, 0, 24⟩] ∧ ¬(held tr).Pairwise Block.Disjoint := by
  have hheld : held seeding = [⟨1, 0, 0, 24⟩, ⟨0, 0, 0, 24⟩] := rfl
  have hoverlap : ¬(held seeding).Pairwise Block.Disjoint := by
    rw [hheld]
    simp [Block.Disjoint]
  exact ⟨seeding, _, seeding_run, fun hsound => hoverlap hsound.2.2, hheld, hoverlap⟩

theorem sound_iff_seeding : Sound seeding ↔ ∀ x ∈ seeding, ¬Seeding x :=
  sound_iff false seeding _ seeding_run

end ConcurrentPQ.Ssalloc

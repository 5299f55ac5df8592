import ConcurrentPQ.Linden.SharedLists

/-!
# The calls of a thread keep the stock

* `Owns`, `Working` — the rings of a thread, and what holds when one of its calls begins and returns;
* `chunk_from_cache_spec`, `refill_spec`, `gc_alloc_spec`, `make_room_spec`, `gc_free_spec`;
* `reclaim_list_spec` — what a reclaiming thread does to the rings of another one.
-/

namespace ConcurrentPQ.Allocator

open ConcurrentPQ.Segment ConcurrentPQ.Circle

variable {t : Tid} {h h' : Heap} {g g' : Global} {gc gc' : Ptst} {L L' L'' : Place → List Chunk}
  {held : Block → Option ℕ} {id : ℕ}

/-- The rings of thread `t` are those that its `gc_st` points to. -/
structure Owns (t : Tid) (gc : Ptst) (L : Place → List Chunk) : Prop where
  cache : (L (.cache t)).head? = some gc.chunk_cache
  alloc : ∀ i, i < MAX_SIZES → (L (.alloc t i)).head? = some (gc.alloc i)
  garbage : ∀ e i, (L (.garbage t e i)).head? = gc.garbage e i
  tail : ∀ e i, (L (.garbage t e i)).getLast? = gc.garbage_tail e i

/-- The heap as a call of thread `t` finds and leaves it. -/
structure Working (t : Tid) (h : Heap) (g : Global) (gc : Ptst) (L : Place → List Chunk)
    (held : Block → Option ℕ) : Prop where
  shared : Shared h g L held
  owns : Owns t gc L
  empty : L .empty = []
  filled : ∀ i, L (.filled i) = []
  sizes : g.nr_sizes ≤ MAX_SIZES

/-- The thread whose place it is. -/
def Place.owner : Place → Option Tid
  | .cache t | .alloc t _ | .garbage t _ _ => some t
  | .free | .main _ | .empty | .filled _ => none

/-- A call of thread `t` has nothing to do with the place, if there are `n` size classes. -/
def Place.Outside (n : ℕ) (t : Tid) : Place → Prop
  | .free | .empty | .filled _ => False
  | .main i => n ≤ i
  | .cache u | .garbage u _ _ => u ≠ t
  | .alloc u i => u ≠ t ∨ MAX_SIZES ≤ i

theorem Place.outside_of_owner {n : ℕ} {u : Tid} {p : Place} (hp : p.owner = some u) (hu : u ≠ t) :
    p.Outside n t := by
  cases p with
  | cache v =>
    cases hp
    exact hu
  | alloc v i =>
    cases hp
    exact Or.inl hu
  | garbage v e i =>
    cases hp
    exact hu
  | free => cases hp
  | main i => cases hp
  | empty => cases hp
  | filled i => cases hp

/-- Among others, the rings of the other threads are the same. -/
def Apart (n : ℕ) (t : Tid) (L L' : Place → List Chunk) : Prop := ∀ p, p.Outside n t → L' p = L p

theorem Apart.refl {n : ℕ} : Apart n t L L := fun _ _ => rfl

theorem Apart.trans {n : ℕ} (h₁ : Apart n t L L') (h₂ : Apart n t L' L'') : Apart n t L L'' :=
  fun p hp => (h₂ p hp).trans (h₁ p hp)

theorem Same.apart {n : ℕ} {ps : List Place} (hs : Same ps L L') (hps : ∀ p ∈ ps, ¬p.Outside n t) :
    Apart n t L L' := fun p hp => hs p fun hm => hps p hm hp

/-! ### Chunks from the cache -/

/-- `chunk_from_cache` has returned the empty chunk `c`. -/
structure GotCached (t : Tid) (g : Global) (h h' : Heap) (L L' : Place → List Chunk)
    (held : Block → Option ℕ) (c cache : Chunk) : Prop where
  shared : Shared h' g L' held
  cache : (L' (.cache t)).head? = some cache
  chunk : L' .empty = [c]
  zero : h'.i c = some 0
  others : Same [.free, .cache t, .empty] L L'
  keeps : ∀ d, d ∉ L (.cache t) → h'.i d = h.i d
  blk : h'.blk = h.blk

/-- **`chunk_from_cache`** returns an empty chunk. -/
theorem chunk_from_cache_spec (hs : Shared h g L held)
    (hcache : (L (.cache t)).head? = some gc.chunk_cache) (hempty : L .empty = []) :
    ∃ c cache h' L', chunk_from_cache g.free_chunks h gc =
        some (c, h', { gc with chunk_cache := cache }) ∧
      GotCached t g h h' L L' held c cache := by
  obtain ⟨l, hl⟩ := List.head?_eq_some_iff.mp hcache
  have hcirc := hs.stock.rings.circ (.cache t)
  have hnodup := hs.stock.rings.nodup (.cache t)
  have hfits := hs.stock.fits (.cache t)
  rw [hl] at hcirc hnodup hfits
  cases l with
  | nil =>
    rw [circ_singleton] at hcirc
    obtain ⟨rh, h₁, L₁, hrun, hgot⟩ := hs.stock.get_empty_chunks hs.free hempty (n := 100) (by decide)
    have hcache₁ : L₁ (.cache t) = [gc.chunk_cache] := by
      rw [hgot.others _ (by simp), hl]
    have hne : Place.cache t ≠ .empty := by simp
    have hfe := hgot.stock.fits .empty
    have hfc := hgot.stock.fits (.cache t)
    have hswap := hgot.stock.relink hne (List.perm_append_comm) (hgot.stock.rings.circ .empty)
      (hgot.stock.rings.circ (.cache t)) (fun _ _ _ => rfl) ⟨hfe.first, hfe.rest, hfe.cls⟩
      ⟨hfc.first, hfc.rest, hfc.cls⟩
    have hempty' : regroup L₁ (.cache t) .empty (L₁ .empty) (L₁ (.cache t)) .empty =
        [gc.chunk_cache] := regroup_right.trans hcache₁
    have hclear := hswap.clear hempty' (fun n hn => by cases hn; rfl)
    refine ⟨gc.chunk_cache, rh, _, _, ?_, ⟨hclear, ?_, fun i hi => ?_, hs.size⟩, ?_, hempty', setI_self,
      ?_, fun d hd => ?_, ?_⟩
    · rw [chunk_from_cache]
      dsimp only
      rw [hcirc, if_pos rfl, hrun]
      rfl
    · rw [regroup_of_ne (by simp) (by simp)]
      exact hgot.free
    · rw [regroup_of_ne (by simp) (by simp), hgot.others _ (by simp)]
      exact hs.main i hi
    · rw [regroup_left hne]
      exact hgot.ring
    · exact (hgot.others.mono (by simp)).trans (same_regroup.mono (by simp))
    · rw [hl, List.mem_singleton] at hd
      rw [setI_of_ne hd]
      show h₁.i d = h.i d
      rw [hgot.same]
    · show h₁.blk = h.blk
      rw [hgot.same]
  | cons c x =>
    obtain ⟨hnext, -⟩ := circ_cons.mp hcirc
    have hc : gc.chunk_cache ≠ c := fun he => (List.nodup_cons.mp hnodup).1 (he ▸ List.mem_cons_self)
    have hne : Place.cache t ≠ .empty := by simp
    have hfc : Fits h (.cache t) [c] := hfits.subset rfl (by simp)
    have hcut := hs.stock.cut (a := gc.chunk_cache) (b := c) (y := []) (x := x) hne hempty
      (by rw [hl]; rfl) (List.IsRotated.refl (gc.chunk_cache :: x)) (List.IsRotated.refl [c])
      (hfits.subset rfl (by simp)) ⟨hfc.first, hfc.rest, hfc.cls⟩
    have hclear := hcut.clear regroup_right (fun n hn => by cases hn; rfl)
    refine ⟨c, gc.chunk_cache, _, _, ?_, ⟨hclear, ?_, fun i hi => ?_, hs.size⟩, ?_, regroup_right,
      setI_self, same_regroup.mono (by simp), fun d hd => ?_, rfl⟩
    · rw [chunk_from_cache]
      dsimp only
      rw [hnext, if_neg hc, exchange, hnext]
      rfl
    · rw [regroup_of_ne (by simp) (by simp)]
      exact hs.free
    · rw [regroup_of_ne (by simp) (by simp)]
      exact hs.main i hi
    · rw [regroup_left hne]
      rfl
    · rw [hl] at hd
      exact setI_of_ne fun he => hd (he ▸ List.mem_cons_of_mem _ List.mem_cons_self)

theorem GotCached.entries {c cache : Chunk} (hs : Shared h g L held)
    (hgot : GotCached t g h h' L L' held c cache) : Entries h h' := by
  intro d k hk
  have hd : d ∉ L (.cache t) := fun hd =>
    hs.stock.not_live_of_mem hd rfl (fun _ ho => ho) k hk
  obtain ⟨n, hn, hkn⟩ := hk
  exact ⟨⟨n, (hgot.keeps d hd).trans hn, hkn⟩, congrFun (congrFun hgot.blk d) k⟩

/-! ### `gc_alloc` -/

/-- `refill` has seen to it that the allocation chunk holds a block. -/
structure Refilled (t : Tid) (id : ℕ) (g g' : Global) (h h' : Heap) (gc gc' : Ptst)
    (L L' : Place → List Chunk) (held : Block → Option ℕ) : Prop where
  working : Working t h' g' gc' L' held
  same : g' = { g with alloc_size := g'.alloc_size }
  block : ∃ k, h'.i (gc'.alloc id) = some (k + 1)
  others : Same [.free, .main id, .filled id, .alloc t id] L L'
  entries : Entries h h'
  clock : gc'.clock = gc.clock

/-- The rings of a thread that has another allocation chunk. -/
theorem Owns.setAlloc {c : Chunk} {chunks : ℕ → ℕ} (ho : Owns t gc L)
    (hothers : Same [.free, .main id, .filled id, .alloc t id] L L')
    (hc : (L' (.alloc t id)).head? = some c) :
    Owns t { gc with alloc := Function.update gc.alloc id c, alloc_chunks := chunks } L' := by
  refine ⟨?_, fun i hi => ?_, fun e i => ?_, fun e i => ?_⟩
  · rw [hothers _ (by simp)]
    exact ho.cache
  · show _ = some (Function.update gc.alloc id c i)
    by_cases he : i = id
    · rw [he, Function.update_self]
      exact hc
    · rw [Function.update_of_ne he, hothers _ (by simp [he])]
      exact ho.alloc i hi
  · rw [hothers _ (by simp)]
    exact ho.garbage e i
  · rw [hothers _ (by simp)]
    exact ho.tail e i

/-- A filled chunk goes to the allocation ring of the thread. -/
theorem Working.refilled {c : Chunk} {l : List Chunk} (hw : Working t h g gc L held) (chunks : ℕ → ℕ)
    (hs : Shared h' g' L' held) (hsame : g' = { g with alloc_size := g'.alloc_size })
    (hfilled : L' (.filled id) = []) (halloc : L' (.alloc t id) = c :: l)
    (hfull : h'.i c = some BLKS_PER_CHUNK)
    (hothers : Same [.free, .main id, .filled id, .alloc t id] L L')
    (hentries : Entries h h') :
    Refilled t id g g' h h' gc { gc with
      alloc := Function.update gc.alloc id c, alloc_chunks := chunks } L L' held := by
  refine ⟨⟨hs, hw.owns.setAlloc hothers (by rw [halloc]; rfl), ?_, fun i => ?_, ?_⟩, hsame, ?_, hothers,
    hentries, rfl⟩
  · rw [hothers _ (by simp)]
    exact hw.empty
  · by_cases he : i = id
    · rw [he]
      exact hfilled
    · rw [hothers _ (by simp [he])]
      exact hw.filled i
  · rw [hsame]
    exact hw.sizes
  · refine ⟨99, ?_⟩
    show h'.i (Function.update gc.alloc id c id) = _
    rw [Function.update_self]
    exact hfull

/-- **The first half of `gc_alloc`.** -/
theorem refill_spec (hw : Working t h g gc L held) (hid : id < g.nr_sizes) :
    ∃ h' g' gc' L', refill id h g gc = some (h', g', gc') ∧
      Refilled t id g g' h h' gc gc' L L' held := by
  have hmax : id < MAX_SIZES := Nat.lt_of_lt_of_le hid hw.sizes
  obtain ⟨l, hl⟩ := List.head?_eq_some_iff.mp (hw.owns.alloc id hmax)
  have hfits := hw.shared.stock.fits (.alloc t id)
  rw [hl] at hfits
  obtain ⟨n, hn⟩ : ∃ n, h.i (gc.alloc id) = some n := hfits.first _ rfl
  have hrest : ∀ c ∈ l, h.i c = some 0 := hfits.rest
  by_cases hzero : n = 0
  · rw [hzero] at hn
    by_cases hchunks : gc.alloc_chunks id = 100
    · -- the ring of used-up chunks goes to the free list
      obtain ⟨x, hx⟩ := List.head?_eq_some_iff.mp hw.shared.free
      have hne : Place.free ≠ .alloc t id := by simp
      have hall : ∀ c ∈ gc.alloc id :: l, ∀ n ∈ h.i c, n = 0 := by
        intro c hc n hcn
        cases hc with
        | head =>
          rw [hn] at hcn
          cases hcn
          rfl
        | tail _ hc =>
          rw [hrest c hc] at hcn
          cases hcn
          rfl
      have hadd := hw.shared.stock.add_chunks_to_list hne hx hl rfl (Fits.of_empty rfl hall hall)
      have hsame₁ : Same [.free, .alloc t id] L (regroup L .free (.alloc t id)
          (g.free_chunks :: (l ++ gc.alloc id :: x)) []) := same_regroup
      have hs₁ : Shared (add_chunks_to_list (gc.alloc id) g.free_chunks h) g _ held :=
        ⟨hadd, by rw [regroup_left hne]; rfl,
          fun i hi => by rw [hsame₁ _ (by simp)]; exact hw.shared.main i hi, hw.shared.size⟩
      obtain ⟨c, h₂, g₂, L₂, hrun, hgot⟩ := hs₁.get_alloc_chunk hid
        (by rw [hsame₁ _ (by simp)]; exact hw.empty) (by rw [hsame₁ _ (by simp)]; exact hw.filled id)
      have halloc₂ : L₂ (.alloc t id) = [] := by
        rw [hgot.others _ (by simp)]
        exact regroup_right
      have hp : Place.filled id ≠ .alloc t id := by simp
      have hfc := hgot.shared.stock.fits (.filled id)
      rw [hgot.chunk] at hfc
      have hfull : h₂.i c = some BLKS_PER_CHUNK := hfc.first c rfl
      have hmove := hgot.shared.stock.move hp halloc₂ (by
        rw [hgot.chunk]
        exact ⟨fun d hd => ⟨_, hfc.first d hd⟩, fun d hd => absurd hd List.not_mem_nil, hfc.cls⟩)
      have hsame₃ : Same [.free, .main id, .filled id, .alloc t id] L
          (regroup L₂ (.filled id) (.alloc t id) [] (L₂ (.filled id))) :=
        ((hsame₁.mono (by simp)).trans (hgot.others.mono (by simp))).trans (same_regroup.mono (by simp))
      refine ⟨h₂, g₂, _, _, ?_, hw.refilled (Function.update gc.alloc_chunks id 0) ⟨hmove, ?_,
        fun i hi => ?_, hgot.shared.size⟩ hgot.same (regroup_left hp) (regroup_right.trans hgot.chunk)
        hfull hsame₃ (hs₁.stock.entries hgot.keeps)⟩
      · rw [refill, if_pos hn, if_pos hchunks, hrun]
        rfl
      · rw [regroup_of_ne (by simp) (by simp)]
        exact hgot.shared.free
      · rw [regroup_of_ne (by simp) (by simp)]
        exact hgot.shared.main i hi
    · -- the new chunk goes in front of the used-up ones
      obtain ⟨c, h₁, g₁, L₁, hrun, hgot⟩ := hw.shared.get_alloc_chunk hid hw.empty (hw.filled id)
      have hne : Place.alloc t id ≠ .filled id := by simp
      have halloc₁ : L₁ (.alloc t id) = gc.alloc id :: l := by
        rw [hgot.others _ (by simp)]
        exact hl
      have hfc := hgot.shared.stock.fits (.filled id)
      have hfa := hgot.shared.stock.fits (.alloc t id)
      have hcc := hgot.shared.stock.rings.circ (.filled id)
      rw [hgot.chunk] at hfc hcc
      rw [halloc₁] at hfa
      have hfull : h₁.i c = some BLKS_PER_CHUNK := hfc.first c rfl
      have hkept : ∀ d ∈ gc.alloc id :: l, h₁.i d = some 0 := by
        intro d hd
        rw [(hgot.keeps (.alloc t id) (by simp) d (hl ▸ hd)).1]
        cases hd with
        | head => exact hn
        | tail _ hd => exact hrest d hd
      have hfits' : Fits h₁ (.alloc t id) (c :: l ++ [gc.alloc id]) := by
        refine ⟨fun d hd => ?_, fun d hd => hkept d ?_, fun d hd => ?_⟩
        · cases hd
          exact ⟨_, hfull⟩
        · rw [List.cons_append, List.tail_cons, List.mem_append, List.mem_singleton] at hd
          exact List.mem_cons.mpr hd.symm
        · rw [List.cons_append, List.mem_cons, List.mem_append, List.mem_singleton] at hd
          rcases hd with rfl | hd
          · exact hfc.cls d List.mem_cons_self
          · exact hfa.cls d (List.mem_cons.mpr hd.symm)
      have hjoin := hgot.shared.stock.join (a := gc.alloc id) (b := c) (x := l) (y := []) hne
        (by rw [halloc₁]) (by rw [hgot.chunk])
        (List.isRotated_append : c :: l ++ [gc.alloc id] ~r [gc.alloc id] ++ c :: l) hfits'
      have hsame₂ : Same [.free, .main id, .filled id, .alloc t id] L
          (regroup L₁ (.alloc t id) (.filled id) (c :: l ++ [gc.alloc id]) []) :=
        (hgot.others.mono (by simp)).trans (same_regroup.mono (by simp))
      refine ⟨_, g₁, _, _, ?_, hw.refilled
        (Function.update gc.alloc_chunks id (gc.alloc_chunks id + 1)) ⟨hjoin, ?_,
        fun i hi => ?_, hgot.shared.size⟩ hgot.same regroup_right (regroup_left hne)
        hfull hsame₂ (hw.shared.stock.entries hgot.keeps)⟩
      · rw [refill, if_pos hn, if_neg hchunks, hrun, exchange_comm, exchange, circ_singleton.mp hcc]
        rfl
      · rw [regroup_of_ne (by simp) (by simp)]
        exact hgot.shared.free
      · rw [regroup_of_ne (by simp) (by simp)]
        exact hgot.shared.main i hi
  · refine ⟨h, g, gc, L, ?_, hw, rfl, ⟨n - 1, ?_⟩, Same.refl, Entries.refl, rfl⟩
    · rw [refill, hn, if_neg fun he => hzero (Option.some.inj he)]
    · rw [hn, Nat.sub_add_cancel (Nat.pos_of_ne_zero hzero)]

/-- `gc_alloc` has returned the block `b`. -/
structure Allocated (t : Tid) (id : ℕ) (g g' : Global) (h h' : Heap) (gc gc' : Ptst)
    (L L' : Place → List Chunk) (held : Block → Option ℕ) (b : Block) : Prop where
  working : Working t h' g' gc' L' (Function.update held b (some id))
  same : g' = { g with alloc_size := g'.alloc_size }
  others : Same [.free, .main id, .filled id, .alloc t id] L L'
  unheld : held b = none
  garbage : ∀ u e i, ∀ c ∈ L (.garbage u e i), ∀ k, h.Live c k → h.blk c k ≠ b
  entries : ∀ c k, h.Live c k → h.blk c k ≠ b → h'.Live c k ∧ h'.blk c k = h.blk c k
  clock : gc'.clock = gc.clock

/-- **`gc_alloc`** returns a block that was nobody's. -/
theorem gc_alloc_spec (hw : Working t h g gc L held) (hid : id < g.nr_sizes) :
    ∃ b h' g' gc' L', gc_alloc id h g gc = some (b, h', g', gc') ∧
      Allocated t id g g' h h' gc gc' L L' held b := by
  obtain ⟨h₁, g₁, gc₁, L₁, hrun, hr⟩ := refill_spec hw hid
  obtain ⟨k, hk⟩ := hr.block
  have hmax : id < MAX_SIZES := Nat.lt_of_lt_of_le hid hw.sizes
  obtain ⟨l, hl⟩ := List.head?_eq_some_iff.mp (hr.working.owns.alloc id hmax)
  have hs := hr.working.shared
  have hlive : h₁.Live (gc₁.alloc id) k := ⟨k + 1, hk, Nat.lt_succ_self k⟩
  have hpop := hs.stock.pop hl hk ⟨k, rfl⟩ (show _ = some id from rfl)
  refine ⟨h₁.blk (gc₁.alloc id) k, h₁.setI (gc₁.alloc id) k, g₁, gc₁, L₁, ?_,
    ⟨⟨hpop, hs.free, hs.main, hs.size⟩, hr.working.owns, hr.working.empty, hr.working.filled,
      hr.working.sizes⟩, hr.same, hr.others, hs.stock.unheld _ k hlive, fun u e i c hc j hj he => ?_,
    fun c j hj hne => ?_, hr.clock⟩
  · rw [gc_alloc, hrun, Option.bind_eq_bind, Option.bind_some]
    dsimp only
    rw [hk]
  · -- the chunks of a garbage ring are not touched, and the block is in another chunk
    have hkept := hr.entries c j hj
    have hcl := (hs.stock.inj c j (gc₁.alloc id) k hkept.1 hlive (hkept.2.trans he)).1
    have hc₁ : c ∈ L₁ (.garbage u e i) := by
      rw [hr.others _ (by simp)]
      exact hc
    have hca : c ∈ L₁ (.alloc t id) := by
      rw [hl, hcl]
      exact List.mem_cons_self
    cases hs.stock.rings.apart _ _ c hc₁ hca
  · have hkept := hr.entries c j hj
    refine ⟨?_, hkept.2⟩
    by_cases hc : c = gc₁.alloc id
    · obtain ⟨n, hn, hjn⟩ := hkept.1
      rw [hc, hk] at hn
      cases hn
      refine ⟨k, by rw [hc, setI_self], Nat.lt_of_le_of_ne (Nat.le_of_lt_succ hjn) fun he => hne ?_⟩
      rw [← hkept.2, hc, he]
    · obtain ⟨n, hn, hjn⟩ := hkept.1
      exact ⟨n, (setI_of_ne hc).trans hn, hjn⟩

/-! ### `gc_free` -/

/-- `make_room` has seen to it that there is a garbage chunk with room, `c`. -/
structure Roomy (t : Tid) (id : ℕ) (g : Global) (h h' : Heap) (gc gc' : Ptst)
    (L L' : Place → List Chunk) (held : Block → Option ℕ) (c : Chunk) : Prop where
  working : Working t h' g gc' L' held
  clock : gc'.clock = gc.clock
  first : gc'.garbage gc.epoch id = some c
  room : ∃ k, k < BLKS_PER_CHUNK ∧ h'.i c = some k
  others : Same [.free, .cache t, .empty, .garbage t gc.epoch id] L L'
  entries : Entries h h'
  grows : L (.garbage t gc.epoch id) ⊆ L' (.garbage t gc.epoch id)

/-- The rings of a thread after `chunk_from_cache` and a change of one garbage ring. -/
theorem Owns.setGarbage {c : Chunk} {e : ℕ} (ho : Owns t gc L) (cache tl : Chunk)
    (hothers : Same [.free, .cache t, .empty, .garbage t e id] L L')
    (hcache : (L' (.cache t)).head? = some cache) (hc : (L' (.garbage t e id)).head? = some c)
    (htl : (L' (.garbage t e id)).getLast? = some tl)
    (hgc : gc' = { gc with chunk_cache := cache, garbage := gc'.garbage, garbage_tail := gc'.garbage_tail })
    (hg : ∀ e' i', gc'.garbage e' i' = if e' = e ∧ i' = id then some c else gc.garbage e' i')
    (ht : ∀ e' i', gc'.garbage_tail e' i' =
      if e' = e ∧ i' = id then some tl else gc.garbage_tail e' i') : Owns t gc' L' := by
  refine ⟨?_, fun i hi => ?_, fun e' i' => ?_, fun e' i' => ?_⟩
  · rw [hgc]
    exact hcache
  · rw [hgc, hothers _ (by simp)]
    exact ho.alloc i hi
  · rw [hg]
    split
    · next he =>
      rw [he.1, he.2]
      exact hc
    · next he =>
      rw [hothers _ (by simpa using fun h₁ h₂ => he ⟨h₁, h₂⟩)]
      exact ho.garbage e' i'
  · rw [ht]
    split
    · next he =>
      rw [he.1, he.2]
      exact htl
    · next he =>
      rw [hothers _ (by simpa using fun h₁ h₂ => he ⟨h₁, h₂⟩)]
      exact ho.tail e' i'

/-- **The first half of `gc_free`.** -/
theorem make_room_spec (hw : Working t h g gc L held) (id : ℕ) :
    ∃ c h' gc' L', make_room id h g gc = some (c, h', gc') ∧
      Roomy t id g h h' gc gc' L L' held c := by
  have hhead := hw.owns.garbage gc.epoch id
  have htail := hw.owns.tail gc.epoch id
  cases hg : gc.garbage gc.epoch id with
  | none =>
    rw [hg, List.head?_eq_none_iff] at hhead
    obtain ⟨c, cache, h₁, L₁, hrun, hgot⟩ := chunk_from_cache_spec hw.shared hw.owns.cache hw.empty
    have hgarbage₁ : L₁ (.garbage t gc.epoch id) = [] := by
      rw [hgot.others _ (by simp)]
      exact hhead
    have hp : Place.empty ≠ .garbage t gc.epoch id := by simp
    have hfc := hgot.shared.stock.fits .empty
    rw [hgot.chunk] at hfc
    have hfits : Fits h₁ (.garbage t gc.epoch id) [c] :=
      ⟨fun d hd => by cases hd; exact ⟨0, hgot.zero⟩, fun d hd => absurd hd List.not_mem_nil,
        fun d hd k hk => absurd hk (not_live (hfc.all rfl hd) k)⟩
    have hmove := hgot.shared.stock.move hp hgarbage₁ (by rw [hgot.chunk]; exact hfits)
    have hnew : regroup L₁ .empty (.garbage t gc.epoch id) [] (L₁ .empty) (.garbage t gc.epoch id) =
        [c] := regroup_right.trans hgot.chunk
    have hothers : Same [.free, .cache t, .empty, .garbage t gc.epoch id] L
        (regroup L₁ .empty (.garbage t gc.epoch id) [] (L₁ .empty)) :=
      (hgot.others.mono (by simp)).trans (same_regroup.mono (by simp))
    refine ⟨c, h₁, (({ gc with chunk_cache := cache } : Ptst).setGarbage gc.epoch id c).setTail
      gc.epoch id c, _, ?_, ⟨⟨⟨hmove, ?_, fun i hi => ?_, hw.shared.size⟩, ?_, regroup_left hp,
      fun i => ?_, hw.sizes⟩, rfl, ?_, ⟨0, by decide, hgot.zero⟩, hothers,
      hgot.entries hw.shared, by rw [hhead]; exact List.nil_subset _⟩⟩
    · rw [make_room, hg]
      show (chunk_from_cache g.free_chunks h gc).bind _ = _
      rw [hrun]
      rfl
    · rw [regroup_of_ne (by simp) (by simp)]
      exact hgot.shared.free
    · rw [regroup_of_ne (by simp) (by simp)]
      exact hgot.shared.main i hi
    · refine hw.owns.setGarbage cache c hothers ?_ (by rw [hnew]; rfl) (by rw [hnew]; rfl) rfl
        (fun e' i' => setGarbage_garbage) fun e' i' => setTail_tail
      rw [regroup_of_ne (by simp) (by simp)]
      exact hgot.cache
    · rw [hothers _ (by simp)]
      exact hw.filled i
    · exact setGarbage_garbage.trans (if_pos ⟨rfl, rfl⟩)
  | some ch =>
    rw [hg] at hhead
    obtain ⟨l, hl⟩ := List.head?_eq_some_iff.mp hhead
    have hfits := hw.shared.stock.fits (.garbage t gc.epoch id)
    rw [hl] at hfits
    obtain ⟨n, hn⟩ : ∃ n, h.i ch = some n := hfits.first ch rfl
    by_cases hfull : n = BLKS_PER_CHUNK
    · -- a new chunk goes in front, between the last and the first
      rw [hfull] at hn
      obtain ⟨w, prev, hlast⟩ : ∃ w prev, ch :: l = w ++ [prev] :=
        ⟨_, _, (List.dropLast_append_getLast (List.cons_ne_nil ch l)).symm⟩
      rw [hl, hlast, List.getLast?_concat] at htail
      obtain ⟨new, cache, h₁, L₁, hrun, hgot⟩ :=
        chunk_from_cache_spec hw.shared hw.owns.cache hw.empty
      have hp : Place.garbage t gc.epoch id ≠ .empty := by simp
      have hgarbage₁ : L₁ (.garbage t gc.epoch id) = ch :: l := by
        rw [hgot.others _ (by simp)]
        exact hl
      have hfc := hgot.shared.stock.fits .empty
      have hfg := hgot.shared.stock.fits (.garbage t gc.epoch id)
      have hce := hgot.shared.stock.rings.circ .empty
      have hcg := hgot.shared.stock.rings.circ (.garbage t gc.epoch id)
      rw [hgot.chunk] at hfc hce
      rw [hgarbage₁] at hfg
      rw [hgarbage₁, hlast] at hcg
      have hnext : h₁.next prev = ch := by
        have hseg : Seg h₁.next (h₁.next prev) w prev := circ_cons.mp (circ_append_comm.mp hcg)
        cases w with
        | nil =>
          rw [List.nil_append] at hlast
          rw [(List.cons.inj hlast).1]
          exact hseg
        | cons a w =>
          rw [List.cons_append] at hlast
          rw [(List.cons.inj hlast).1]
          exact hseg.1
      have hkept : ∀ d ∈ ch :: l, h₁.i d = some BLKS_PER_CHUNK := by
        intro d hd
        rw [hgot.keeps d fun hm => ?_]
        · cases hd with
          | head => exact hn
          | tail _ hd => exact hfits.rest d hd
        · cases hw.shared.stock.rings.apart _ _ d hm (hl ▸ hd)
      have hfits' : Fits h₁ (.garbage t gc.epoch id) (new :: w ++ [prev]) := by
        rw [List.cons_append, ← hlast]
        refine ⟨fun d hd => ?_, hkept, fun d hd k hk => ?_⟩
        · cases hd
          exact ⟨0, hgot.zero⟩
        · cases hd with
          | head => exact absurd hk (not_live (hfc.first new rfl) k)
          | tail _ hd => exact hfg.cls d hd k hk
      have hjoin := hgot.shared.stock.join (a := prev) (b := new) (x := w) (y := []) hp
        (by rw [hgarbage₁, hlast]; exact List.isRotated_append) (by rw [hgot.chunk])
        (List.isRotated_append : new :: w ++ [prev] ~r [prev] ++ new :: w) hfits'
      have hothers : Same [.free, .cache t, .empty, .garbage t gc.epoch id] L
          (regroup L₁ (.garbage t gc.epoch id) .empty (new :: w ++ [prev]) []) :=
        (hgot.others.mono (by simp)).trans (same_regroup.mono (by simp))
      refine ⟨new, _, ({ gc with chunk_cache := cache } : Ptst).setGarbage gc.epoch id new, _, ?_,
        ⟨⟨⟨hjoin, ?_, fun i hi => ?_, hw.shared.size⟩, ?_, regroup_right, fun i => ?_, hw.sizes⟩, rfl, ?_,
          ⟨0, by decide, hgot.zero⟩, hothers,
          (hgot.entries hw.shared).trans (Entries.of_eq rfl rfl), ?_⟩⟩
      · rw [make_room, hg]
        dsimp only
        rw [if_pos hn, ← htail]
        show (chunk_from_cache g.free_chunks h gc).bind _ = _
        rw [hrun, exchange_comm, exchange, circ_singleton.mp hce, hnext]
        rfl
      · rw [regroup_of_ne (by simp) (by simp)]
        exact hgot.shared.free
      · rw [regroup_of_ne (by simp) (by simp)]
        exact hgot.shared.main i hi
      · refine hw.owns.setGarbage cache prev hothers ?_ ?_ ?_ rfl
          (fun e' i' => setGarbage_garbage) fun e' i' => ?_
        · rw [regroup_of_ne (by simp) (by simp)]
          exact hgot.cache
        · rw [regroup_left hp]
          rfl
        · rw [regroup_left hp, List.getLast?_concat]
        · show gc.garbage_tail e' i' = _
          split
          · next he => rw [he.1, he.2, ← htail]
          · rfl
      · rw [hothers _ (by simp)]
        exact hw.filled i
      · exact setGarbage_garbage.trans (if_pos ⟨rfl, rfl⟩)
      · rw [regroup_left hp, hl, hlast, List.cons_append]
        exact List.subset_cons_self _ _
    · have hlt : n < BLKS_PER_CHUNK :=
        Nat.lt_of_le_of_ne (hw.shared.stock.small ch n hn) hfull
      refine ⟨ch, h, gc, L, ?_, hw, rfl, hg, ⟨n, hlt, hn⟩, Same.refl, Entries.refl, List.Subset.refl _⟩
      rw [make_room, hg]
      dsimp only
      rw [if_neg]
      rw [hn]
      exact fun he => hfull (Option.some.inj he)

/-- `gc_free` has put the block `p` into a garbage chunk. -/
structure Freed (t : Tid) (id : ℕ) (g : Global) (h h' : Heap) (gc gc' : Ptst)
    (L L' : Place → List Chunk) (held : Block → Option ℕ) (p : Block) : Prop where
  working : Working t h' g gc' L' (Function.update held p none)
  others : Same [.free, .cache t, .empty, .garbage t gc.epoch id] L L'
  entries : Entries h h'
  grows : L (.garbage t gc.epoch id) ⊆ L' (.garbage t gc.epoch id)
  garbage : ∃ c k, c ∈ L' (.garbage t gc.epoch id) ∧ h'.Live c k ∧ h'.blk c k = p
  clock : gc'.clock = gc.clock

/-- **`gc_free`** returns. -/
theorem gc_free_spec {p : Block} (hw : Working t h g gc L held) (hp : held p = some id) :
    ∃ h' gc' L', gc_free p id h g gc = some (h', gc') ∧ Freed t id g h h' gc gc' L L' held p := by
  obtain ⟨c, h₁, gc₁, L₁, hrun, hr⟩ := make_room_spec hw id
  obtain ⟨k, hk, hi⟩ := hr.room
  have hhead := hr.working.owns.garbage gc.epoch id
  rw [hr.first] at hhead
  obtain ⟨l, hl⟩ := List.head?_eq_some_iff.mp hhead
  have hs := hr.working.shared
  have hpush := hs.stock.push hl hi hk ⟨k + 1, rfl⟩ rfl hp
  have hentries : Entries h₁ ((h₁.setBlk c k p).setI c (k + 1)) := by
    intro d j ⟨n, hn, hj⟩
    by_cases hd : d = c
    · rw [hd, hi] at hn
      cases hn
      rw [hd]
      refine ⟨⟨k + 1, setI_self, Nat.lt_succ_of_lt hj⟩, ?_⟩
      exact (congrFun (Function.update_self c _ h₁.blk) j).trans
        (Function.update_of_ne (Nat.ne_of_lt hj) _ _)
    · exact ⟨⟨n, (setI_of_ne hd).trans hn, hj⟩, congrFun (Function.update_of_ne hd _ h₁.blk) j⟩
  refine ⟨_, gc₁, L₁, ?_, ⟨⟨hpush, hs.free, hs.main, hs.size⟩, hr.working.owns, hr.working.empty,
    hr.working.filled, hr.working.sizes⟩, hr.others, hr.entries.trans hentries, hr.grows,
    ⟨c, k, by rw [hl]; exact List.mem_cons_self, ⟨k + 1, setI_self, Nat.lt_succ_self k⟩, ?_⟩,
    hr.clock⟩
  · rw [gc_free, hrun, Option.bind_eq_bind, Option.bind_some]
    dsimp only
    rw [hi]
    exact if_pos hk
  · exact (congrFun (Function.update_self c _ h₁.blk) k).trans (Function.update_self _ _ _)

/-! ### A garbage list in `gc_reclaim` -/

/-- In the first `n` size classes, garbage chunks go to the main list of their class only, and no chunk
leaves a main list. -/
def Recycles (n : ℕ) (L L' : Place → List Chunk) : Prop :=
  ∀ i, i < n → (∀ c ∈ L (.main i), c ∈ L' (.main i)) ∧
    ∀ u e, ∀ c ∈ L (.garbage u e i), c ∈ L' (.garbage u e i) ∨ c ∈ L' (.main i)

theorem Recycles.refl {n : ℕ} : Recycles n L L :=
  fun _ _ => ⟨fun _ hc => hc, fun _ _ _ hc => Or.inl hc⟩

theorem Recycles.trans {n : ℕ} (h₁ : Recycles n L L') (h₂ : Recycles n L' L'') : Recycles n L L'' := by
  intro i hi
  refine ⟨fun c hc => (h₂ i hi).1 c ((h₁ i hi).1 c hc), fun u e c hc => ?_⟩
  rcases (h₁ i hi).2 u e c hc with hc | hc
  · exact (h₂ i hi).2 u e c hc
  · exact Or.inr ((h₂ i hi).1 c hc)

/-- **All garbage chunks but the first** move to the main list. -/
theorem reclaim_list_spec {e i : ℕ} (hw : Working t h g gc L held) (hi : i < g.nr_sizes) :
    ∃ h' gc' L', reclaim_list e g (h, gc) i = some (h', gc') ∧ Working t h' g gc' L' held ∧
      gc' = { gc with garbage_tail := gc'.garbage_tail } ∧
      Same [.main i, .garbage t e i, .filled i] L L' ∧ Entries h h' ∧
      (L' (.garbage t e i)).length ≤ 1 ∧ Recycles g.nr_sizes L L' := by
  have hhead := hw.owns.garbage e i
  have htail := hw.owns.tail e i
  cases hg : gc.garbage e i with
  | none =>
    rw [hg, List.head?_eq_none_iff] at hhead
    refine ⟨h, gc, L, ?_, hw, rfl, Same.refl, Entries.refl, by rw [hhead]; exact Nat.zero_le 1,
      Recycles.refl⟩
    rw [reclaim_list]
    dsimp only
    rw [hg]
  | some first =>
    rw [hg] at hhead
    obtain ⟨l, hl⟩ := List.head?_eq_some_iff.mp hhead
    have hcirc := hw.shared.stock.rings.circ (.garbage t e i)
    have hnodup := hw.shared.stock.rings.nodup (.garbage t e i)
    have hfits := hw.shared.stock.fits (.garbage t e i)
    rw [hl] at hcirc hnodup hfits
    rw [hl] at htail
    cases l with
    | nil =>
      refine ⟨h, gc, L, ?_, hw, rfl, Same.refl, Entries.refl, by rw [hl]; exact Nat.le_refl 1,
        Recycles.refl⟩
      rw [reclaim_list]
      dsimp only
      rw [hg]
      exact if_pos (circ_singleton.mp hcirc)
    | cons ch l =>
      obtain ⟨hnext, -⟩ := circ_cons.mp hcirc
      have hne : ch ≠ first := fun he => (List.nodup_cons.mp hnodup).1 (he ▸ List.mem_cons_self)
      obtain ⟨y, tail, hlast⟩ : ∃ y tail, ch :: l = y ++ [tail] :=
        ⟨_, _, (List.dropLast_append_getLast (List.cons_ne_nil ch l)).symm⟩
      rw [hlast, ← List.cons_append, List.getLast?_concat] at htail
      have hback : h.next tail = first := by
        have hc := hcirc
        rw [hlast, circ_cons_append_cons] at hc
        exact hc.2
      have hp : Place.garbage t e i ≠ .filled i := by simp
      have hq : Place.main i ≠ .filled i := by simp
      have hall : Fits h (.filled i) (ch :: l) :=
        Fits.of_all rfl hfits.rest fun d hd => hfits.cls d (List.mem_cons_of_mem _ hd)
      have hfirst : Fits h (.garbage t e i) [first] :=
        ⟨fun d hd => by cases hd; exact hfits.first first rfl, fun d hd => absurd hd List.not_mem_nil,
          fun d hd => hfits.cls d (by rw [List.mem_singleton.mp hd]; exact List.mem_cons_self)⟩
      have hcut := hw.shared.stock.cut (a := first) (b := tail) (y := y) (x := []) hp (hw.filled i)
        (by rw [hl, hlast]) (List.IsRotated.refl [first])
        (by rw [hlast]; exact List.isRotated_append) hfirst hall
      obtain ⟨x, hx⟩ := List.head?_eq_some_iff.mp (hw.shared.main i hi)
      have hmain : regroup L (.garbage t e i) (.filled i) [first] (ch :: l) (.main i) =
          g.alloc i :: x := by
        rw [regroup_of_ne (by simp) (by simp), hx]
      have hadd := hcut.add_chunks_to_list hq hmain regroup_right rfl
        ⟨hall.first, hall.rest, hall.cls⟩
      have hsame₁ : Same [.garbage t e i, .filled i] L
          (regroup L (.garbage t e i) (.filled i) [first] (ch :: l)) := same_regroup
      have hsame₂ : Same [.main i, .filled i] (regroup L (.garbage t e i) (.filled i) [first] (ch :: l))
          (regroup (regroup L (.garbage t e i) (.filled i) [first] (ch :: l)) (.main i) (.filled i)
            (g.alloc i :: (l ++ ch :: x)) []) := same_regroup
      have hothers : Same [.main i, .garbage t e i, .filled i] L
          (regroup (regroup L (.garbage t e i) (.filled i) [first] (ch :: l)) (.main i) (.filled i)
            (g.alloc i :: (l ++ ch :: x)) []) :=
        (hsame₁.mono (by simp)).trans (hsame₂.mono (by simp))
      have hgarbage : ∀ e' i', regroup (regroup L (.garbage t e i) (.filled i) [first] (ch :: l))
          (.main i) (.filled i) (g.alloc i :: (l ++ ch :: x)) [] (.garbage t e' i') =
            if e' = e ∧ i' = i then [first] else L (.garbage t e' i') := by
        intro e' i'
        rw [regroup_of_ne (by simp) (by simp)]
        split
        · next he => rw [he.1, he.2, regroup_left hp]
        · next he => rw [regroup_of_ne (by simpa using fun h₁ h₂ => he ⟨h₁, h₂⟩) (by simp)]
      refine ⟨_, gc.setTail e i first, _, ?_, ⟨⟨hadd, ?_, fun j hj => ?_, hw.shared.size⟩,
        ⟨?_, fun j hj => ?_, fun e' i' => ?_, fun e' i' => ?_⟩, ?_, fun j => ?_, hw.sizes⟩, rfl, hothers,
        Entries.of_eq rfl rfl, by rw [hgarbage, if_pos ⟨rfl, rfl⟩]; exact Nat.le_refl 1, fun j _ => ⟨fun c hc => ?_,
          fun u d c hc => ?_⟩⟩
      · rw [reclaim_list]
        dsimp only
        rw [hg]
        dsimp only
        rw [hnext, if_neg hne, ← htail, exchange_comm, exchange, hback, hnext]
        rfl
      · rw [hothers _ (by simp)]
        exact hw.shared.free
      · by_cases he : j = i
        · rw [he, regroup_left hq]
          rfl
        · rw [hothers _ (by simpa using he)]
          exact hw.shared.main j hj
      · rw [hothers _ (by simp)]
        exact hw.owns.cache
      · rw [hothers _ (by simp)]
        exact hw.owns.alloc j hj
      · rw [hgarbage]
        split
        · next he =>
          rw [he.1, he.2]
          exact hg.symm
        · exact hw.owns.garbage e' i'
      · rw [hgarbage, setTail_tail]
        split
        · rfl
        · exact hw.owns.tail e' i'
      · rw [hothers _ (by simp)]
        exact hw.empty
      · by_cases he : j = i
        · rw [he]
          exact regroup_right
        · rw [hothers _ (by simpa using he)]
          exact hw.filled j
      · by_cases he : j = i
        · rw [he, hx] at hc
          rw [he, regroup_left hq]
          cases hc with
          | head => exact List.mem_cons_self
          | tail _ hc =>
            exact List.mem_cons_of_mem _ (List.mem_append_right _ (List.mem_cons_of_mem _ hc))
        · rw [hothers _ (by simpa using he)]
          exact hc
      · by_cases he : Place.garbage u d j = .garbage t e i
        · cases he
          rw [hl] at hc
          rw [hgarbage, if_pos ⟨rfl, rfl⟩, regroup_left hq]
          cases hc with
          | head => exact Or.inl List.mem_cons_self
          | tail _ hc =>
            right
            refine List.mem_cons_of_mem _ (List.mem_append.mpr ?_)
            rcases List.mem_cons.mp hc with rfl | hc
            · exact Or.inr List.mem_cons_self
            · exact Or.inl hc
        · rw [hothers _ (by simpa using he)]
          exact Or.inl hc

end ConcurrentPQ.Allocator

import ConcurrentPQ.Linden.Gc
import Mathlib.Data.List.Perm.Basic
import Mathlib.Data.List.Rotate

/-!
# The collector hands out nodes that are not in use

Every block belongs to one allocator, and it is in one place: in a chunk of the main list, in the
thread's allocation chunk, in a garbage list, or in use.

* `stock`, `inUse`, `Inv` — where the blocks of an allocator are, and the invariant;
* `Inv.move` — an operation that moves blocks, and adds fresh ones;
* `Inv.alloc`, `Inv.free`, `Inv.reclaim`, `Inv.enter` — what the operations keep;
* `collector_lawful` — **the collector is lawful.**
-/

namespace ConcurrentPQ.Gc

open ConcurrentPQ.Linden

/-- The blocks of allocator `i` that can be handed out, now or after some epochs. -/
def stock (s : Global × Ptst) (i : ℕ) : List NodeId :=
  (s.1.alloc i).flatten ++ (s.2.alloc i ++ ((s.2.garbage 0 i).flatten ++
    ((s.2.garbage 1 i).flatten ++ (s.2.garbage 2 i).flatten)))

/-- The blocks of allocator `i` in use. -/
def inUse (U : List (NodeId × ℕ)) (i : ℕ) : List NodeId := (U.filter fun x => x.2 = i).map Prod.fst

/-- **Every block is in one place.**  There are `N` allocators, and `cls` tells the one of a block. -/
structure Inv (N : ℕ) (s : Global × Ptst) (U : List (NodeId × ℕ)) (cls : NodeId → ℕ) : Prop where
  brk : firstNode ≤ s.1.brk
  nodup : ∀ i, (stock s i ++ inUse U i).Nodup
  blocks : ∀ i, ∀ n ∈ stock s i ++ inUse U i, cls n = i ∧ firstNode ≤ n ∧ n < s.1.brk
  full : ∀ i, ∀ ch ∈ s.1.alloc i, ch.length = BLKS_PER_CHUNK
  garbage : ∀ e i, ∀ ch ∈ (s.2.garbage e i).tail, ch.length = BLKS_PER_CHUNK
  size : ∀ i, i < N → ALLOC_CHUNKS_PER_LIST ≤ s.1.alloc_size i
  epoch : s.2.epoch < NR_EPOCHS
  current : s.1.current < NR_EPOCHS
  inreclaim : s.1.inreclaim = 0
  nr : s.1.nr_sizes = N

section Blocks

variable {s s' : Global × Ptst} {g g' : Global} {t t' : Ptst} {U U' : List (NodeId × ℕ)}
  {cls : NodeId → ℕ} {N i j e n c : ℕ}

@[simp] theorem inUse_cons_same : inUse ((n, i) :: U) i = n :: inUse U i := by
  simp [inUse]

theorem inUse_cons_ne (h : c ≠ i) : inUse ((n, c) :: U) i = inUse U i := by
  simp [inUse, h]

theorem inUse_perm (h : U.Perm U') (i : ℕ) : (inUse U i).Perm (inUse U' i) :=
  (h.filter _).map _

theorem mem_inUse : n ∈ inUse U i ↔ (n, i) ∈ U := by
  simp [inUse]

/-- Blocks of one allocator move, and some are fresh; those of the others stay. -/
theorem Inv.move (h : Inv N s U cls) (s' : Global × Ptst) (U' : List (NodeId × ℕ)) (c : ℕ)
    {fresh : List NodeId} (hbrk : s.1.brk ≤ s'.1.brk)
    (hc : (stock s' c ++ inUse U' c).Perm (stock s c ++ inUse U c ++ fresh)) (hnd : fresh.Nodup)
    (hfresh : ∀ n ∈ fresh, s.1.brk ≤ n ∧ n < s'.1.brk)
    (hother : ∀ i, i ≠ c → (stock s' i ++ inUse U' i).Perm (stock s i ++ inUse U i)) :
    (∀ i, (stock s' i ++ inUse U' i).Nodup) ∧
    ∀ i, ∀ n ∈ stock s' i ++ inUse U' i,
      (if n < s.1.brk then cls n else c) = i ∧ firstNode ≤ n ∧ n < s'.1.brk := by
  have hold : ∀ i, ∀ n ∈ stock s i ++ inUse U i,
      (if n < s.1.brk then cls n else c) = i ∧ firstNode ≤ n ∧ n < s'.1.brk := by
    intro i n hn
    obtain ⟨h1, h2, h3⟩ := h.blocks i n hn
    rw [if_pos h3]
    exact ⟨h1, h2, h3.trans_le hbrk⟩
  refine ⟨fun i => ?_, fun i n hn => ?_⟩
  · by_cases hi : i = c
    · subst hi
      rw [hc.nodup_iff, List.nodup_append]
      refine ⟨h.nodup i, hnd, fun a ha b hb hab => ?_⟩
      exact absurd (h.blocks i a ha).2.2 (not_lt.mpr (hab ▸ (hfresh b hb).1))
    · rw [(hother i hi).nodup_iff]
      exact h.nodup i
  · by_cases hi : i = c
    · subst hi
      rcases List.mem_append.mp (hc.mem_iff.mp hn) with hn | hn
      · exact hold i n hn
      · obtain ⟨hge, hlt⟩ := hfresh n hn
        rw [if_neg (not_lt.mpr hge)]
        exact ⟨rfl, h.brk.trans hge, hlt⟩
    · exact hold i n ((hother i hi).mem_iff.mp hn)

/-! ### Chunks -/

theorem get_filled_chunks_flatten (m : ℕ) (g : Global) :
    (get_filled_chunks m g).1.flatten.Perm (List.range' g.brk (m * BLKS_PER_CHUNK)) := by
  induction m with
  | zero => simp [get_filled_chunks]
  | succ m ih =>
    have hsplit : (get_filled_chunks (m + 1) g).1 = (get_filled_chunks m g).1 ++
        [(List.range' (g.brk + m * BLKS_PER_CHUNK) BLKS_PER_CHUNK).reverse] := by
      simp [get_filled_chunks, List.range_succ]
    have hrange : List.range' g.brk ((m + 1) * BLKS_PER_CHUNK) =
        List.range' g.brk (m * BLKS_PER_CHUNK) ++
          List.range' (g.brk + m * BLKS_PER_CHUNK) BLKS_PER_CHUNK := by
      rw [List.range'_append_1, Nat.succ_mul]
    rw [hsplit, hrange, List.flatten_append, List.flatten_singleton]
    exact ih.append (List.reverse_perm _)

theorem get_filled_chunks_full {m : ℕ} {ch : Chunk} (h : ch ∈ (get_filled_chunks m g).1) :
    ch.length = BLKS_PER_CHUNK := by
  obtain ⟨j, -, rfl⟩ := List.mem_map.mp h
  simp

theorem add_chunks_perm (ch list : List Chunk) : (add_chunks_to_list ch list).Perm (ch ++ list) :=
  (List.rotate_perm ch 1).append_right list

/-- What `get_alloc_chunk` does to the main lists. -/
structure Popped (i : ℕ) (g : Global) (ch : Chunk) (g' : Global) (fresh : List NodeId) : Prop where
  perm : (ch ++ (g'.alloc i).flatten).Perm ((g.alloc i).flatten ++ fresh)
  nodup : fresh.Nodup
  fresh : ∀ n ∈ fresh, g.brk ≤ n ∧ n < g'.brk
  brk : g.brk ≤ g'.brk
  other : ∀ j, j ≠ i → g'.alloc j = g.alloc j
  chunk : ch.length = BLKS_PER_CHUNK
  full : ∀ c ∈ g'.alloc i, c.length = BLKS_PER_CHUNK
  size : ∀ j, g.alloc_size j ≤ g'.alloc_size j
  same : g'.current = g.current ∧ g'.inreclaim = g.inreclaim ∧ g'.nr_sizes = g.nr_sizes

theorem get_alloc_chunk_popped (hfull : ∀ ch ∈ g.alloc i, ch.length = BLKS_PER_CHUNK)
    (hsize : ALLOC_CHUNKS_PER_LIST ≤ g.alloc_size i) :
    ∃ fresh, Popped i g (get_alloc_chunk i g).1 (get_alloc_chunk i g).2 fresh := by
  unfold get_alloc_chunk
  split
  · rename_i p list hl
    refine ⟨[], ?_, List.nodup_nil, fun n hn => absurd hn List.not_mem_nil, le_rfl, fun j hj => ?_,
      hfull p (hl ▸ List.mem_cons_self), ?_, fun _ => le_rfl, ⟨rfl, rfl, rfl⟩⟩
    · dsimp only
      rw [Function.update_self, hl, List.append_nil, List.flatten_cons]
    · exact Function.update_of_ne hj ..
    · dsimp only
      rw [Function.update_self]
      exact fun c hc => hfull c (hl ▸ List.mem_cons_of_mem _ hc)
  · rename_i hl
    dsimp only
    have hflat := get_filled_chunks_flatten (g.alloc_size i) g
    have hperm := add_chunks_perm (get_filled_chunks (g.alloc_size i) g).1 []
    rw [List.append_nil] at hperm
    have hchunks : ∀ ch ∈ add_chunks_to_list (get_filled_chunks (g.alloc_size i) g).1 [],
        ch.length = BLKS_PER_CHUNK := fun ch hch =>
      get_filled_chunks_full (hperm.mem_iff.mp hch)
    split
    · rename_i p list hadd
      refine ⟨List.range' g.brk (g.alloc_size i * BLKS_PER_CHUNK), ?_, List.nodup_range',
        fun n hn => ?_, Nat.le_add_right .., fun j hj => Function.update_of_ne hj .., ?_, ?_,
        fun j => ?_, ⟨rfl, rfl, rfl⟩⟩
      · dsimp only
        rw [Function.update_self, hl, List.flatten_nil, List.nil_append, ← List.flatten_cons,
          ← hadd]
        exact hperm.flatten.trans hflat
      · rw [List.mem_range'_1] at hn
        exact hn
      · exact hchunks p (hadd ▸ List.mem_cons_self)
      · dsimp only
        rw [Function.update_self]
        exact fun c hc => hchunks c (hadd ▸ List.mem_cons_of_mem _ hc)
      · dsimp only
        by_cases hj : j = i
        · rw [hj, Function.update_self]
          omega
        · rw [Function.update_of_ne hj]
          exact le_rfl
    · rename_i hadd
      rw [hadd] at hperm
      have hlen := hperm.length_eq
      simp only [List.length_nil, get_filled_chunks, List.length_map, List.length_range] at hlen
      rw [← hlen] at hsize
      exact absurd hsize (by decide)

/-! ### The operations -/

@[simp] theorem setGarbage_garbage {e' : ℕ} {list : List Chunk} :
    (t.setGarbage e i list).garbage e' j = if e' = e ∧ j = i then list else t.garbage e' j := by
  unfold Ptst.setGarbage
  by_cases he : e' = e
  · subst he
    by_cases hj : j = i
    · subst hj
      simp
    · simp [hj]
  · simp [he]

/-- The blocks of a garbage list, and those elsewhere. -/
theorem stock_setGarbage (he : e < NR_EPOCHS) (list : List Chunk) :
    (stock (g, t.setGarbage e i list) i).Perm
      (list.flatten ++ stock (g, t.setGarbage e i []) i) := by
  have hcases : e = 0 ∨ e = 1 ∨ e = 2 := by
    have : e < 3 := he
    omega
  have halloc : ∀ l, (t.setGarbage e i l).alloc = t.alloc := fun _ => rfl
  rw [List.perm_iff_count]
  intro a
  rcases hcases with rfl | rfl | rfl
  all_goals
    simp [stock, halloc]
    omega

theorem setGarbage_self : t.setGarbage e i (t.garbage e i) = t := by
  unfold Ptst.setGarbage
  rw [Function.update_eq_self, Function.update_eq_self]

theorem stock_setGarbage_ne (hj : j ≠ i) (list : List Chunk) :
    stock (g, t.setGarbage e i list) j = stock (g, t) j := by
  have halloc : (t.setGarbage e i list).alloc = t.alloc := rfl
  simp [stock, halloc, hj]

/-- `gc_free` adds a block to the garbage list of the thread's epoch. -/
theorem gc_free_eq (n i : ℕ) (t : Ptst) : ∃ list, gc_free n i t = t.setGarbage t.epoch i list ∧
    list.flatten = n :: (t.garbage t.epoch i).flatten ∧
    ((∀ ch ∈ (t.garbage t.epoch i).tail, ch.length = BLKS_PER_CHUNK) →
      ∀ ch ∈ list.tail, ch.length = BLKS_PER_CHUNK) := by
  unfold gc_free
  split
  · rename_i hl
    exact ⟨_, rfl, by rw [hl]; rfl, fun _ ch hch => absurd hch List.not_mem_nil⟩
  · rename_i ch rest hl
    rw [hl]
    split
    · rename_i hfull
      refine ⟨_, rfl, rfl, fun htail c hc => ?_⟩
      rcases List.mem_cons.mp hc with rfl | hc
      · exact hfull
      · exact htail c hc
    · exact ⟨_, rfl, rfl, fun htail => htail⟩

/-- **`gc_free`** takes back a block in use. -/
theorem Inv.free (h : Inv N (g, t) U cls) (hn : (n, c) ∈ U) :
    Inv N (g, gc_free n c t) (U.erase (n, c)) cls := by
  obtain ⟨list, heq, hflat, hfull⟩ := gc_free_eq n c t
  have huse := inUse_perm (List.perm_cons_erase hn)
  have hperm : ∀ i, (stock (g, gc_free n c t) i ++ inUse (U.erase (n, c)) i).Perm
      (stock (g, t) i ++ inUse U i) := by
    intro i
    rw [heq]
    by_cases hi : i = c
    · subst hi
      have h1 := stock_setGarbage (g := g) (t := t) (i := i) h.epoch list
      have h2 := stock_setGarbage (g := g) (t := t) (i := i) h.epoch (t.garbage t.epoch i)
      rw [setGarbage_self] at h2
      have h3 := huse i
      rw [inUse_cons_same] at h3
      rw [hflat] at h1
      calc stock (g, t.setGarbage t.epoch i list) i ++ inUse (U.erase (n, i)) i
          |>.Perm (n :: stock (g, t) i ++ inUse (U.erase (n, i)) i) :=
            (h1.trans (List.Perm.cons n h2.symm)).append_right _
        _ |>.Perm (stock (g, t) i ++ n :: inUse (U.erase (n, i)) i) := List.perm_middle.symm
        _ |>.Perm (stock (g, t) i ++ inUse U i) := h3.symm.append_left _
    · rw [stock_setGarbage_ne hi]
      have h3 := huse i
      rw [inUse_cons_ne (Ne.symm hi)] at h3
      exact h3.symm.append_left _
  refine ⟨h.brk, fun i => (hperm i).nodup_iff.mpr (h.nodup i),
    fun i n hn => h.blocks i n ((hperm i).mem_iff.mp hn), h.full, fun e i => ?_, h.size, ?_,
    h.current, h.inreclaim, h.nr⟩
  · rw [heq, setGarbage_garbage]
    split
    · exact hfull (h.garbage _ c)
    · exact h.garbage e i
  · rw [heq]
    exact h.epoch

/-- **`gc_alloc`** hands out a block that is not in use. -/
theorem Inv.alloc (h : Inv N (g, t) U cls) (hc : c < N) :
    ∃ cls', Inv N (gc_alloc c g t).2 (((gc_alloc c g t).1, c) :: U) cls' := by
  unfold gc_alloc
  split
  · rename_i b blk hl
    have hperm : ∀ i, (stock (g, { t with alloc := Function.update t.alloc c blk }) i ++
        inUse ((b, c) :: U) i).Perm (stock (g, t) i ++ inUse U i) := by
      intro i
      by_cases hi : i = c
      · subst hi
        rw [inUse_cons_same, List.perm_iff_count]
        intro a
        simp only [stock, Function.update_self, hl, List.count_append, List.count_cons]
        omega
      · rw [inUse_cons_ne (Ne.symm hi)]
        simp only [stock, Function.update_of_ne hi]
        exact List.Perm.refl _
    exact ⟨cls, h.brk, fun i => (hperm i).nodup_iff.mpr (h.nodup i),
      fun i n hn => h.blocks i n ((hperm i).mem_iff.mp hn), h.full, h.garbage, h.size, h.epoch,
      h.current, h.inreclaim, h.nr⟩
  · rename_i hl
    obtain ⟨fresh, hp⟩ := get_alloc_chunk_popped (h.full c) (h.size c hc)
    obtain ⟨b, blk, hch⟩ : ∃ b blk, (get_alloc_chunk c g).1 = b :: blk := by
      have hlen := hp.chunk
      cases hch : (get_alloc_chunk c g).1 with
      | nil =>
        rw [hch] at hlen
        cases hlen
      | cons b blk => exact ⟨b, blk, rfl⟩
    dsimp only
    rw [hch, List.headD_cons, List.tail_cons]
    have hperm := hp.perm
    rw [hch] at hperm
    have hc' : (stock ((get_alloc_chunk c g).2, { t with
          alloc := Function.update t.alloc c blk
          alloc_chunks := Function.update t.alloc_chunks c
            (if t.alloc_chunks c = 100 then 0 else t.alloc_chunks c + 1) }) c ++
        inUse ((b, c) :: U) c).Perm (stock (g, t) c ++ inUse U c ++ fresh) := by
      rw [inUse_cons_same, List.perm_iff_count]
      intro a
      have hcount := List.perm_iff_count.mp hperm a
      simp only [stock, Function.update_self, hl, List.count_append, List.count_cons,
        List.count_nil] at hcount ⊢
      omega
    obtain ⟨hnd, hblocks⟩ := h.move _ ((b, c) :: U) c hp.brk hc' hp.nodup hp.fresh fun i hi => by
      rw [inUse_cons_ne (Ne.symm hi)]
      simp only [stock, Function.update_of_ne hi, hp.other i hi]
      exact List.Perm.refl _
    refine ⟨_, h.brk.trans hp.brk, hnd, hblocks, fun i => ?_, h.garbage,
      fun i hi => (h.size i hi).trans (hp.size i), h.epoch, ?_, ?_, hp.same.2.2.trans h.nr⟩
    · by_cases hi : i = c
      · subst hi
        exact hp.full
      · dsimp only
        rw [hp.other i hi]
        exact h.full i
    · dsimp only
      rw [hp.same.1]
      exact h.current
    · dsimp only
      rw [hp.same.2.1]
      exact h.inreclaim

/-! ### Epochs -/

theorem Inv.reclaim_list (h : Inv N s U cls) (he : e < NR_EPOCHS) (i : ℕ) :
    Inv N (reclaim_list e i s) U cls := by
  obtain ⟨g, t⟩ := s
  unfold Gc.reclaim_list
  split
  · rename_i t₀ ch rest hl
    dsimp only at hl
    have hadd := (add_chunks_perm (ch :: rest) (g.alloc i)).flatten
    have hperm : ∀ j, (stock ({ g with
          alloc := Function.update g.alloc i (add_chunks_to_list (ch :: rest) (g.alloc i)) },
        t.setGarbage e i [t₀]) j).Perm (stock (g, t) j) := by
      intro j
      by_cases hj : j = i
      · subst hj
        have h1 := stock_setGarbage (g := g) (t := t) (i := j) he [t₀]
        have h2 := stock_setGarbage (g := g) (t := t) (i := j) he (t.garbage e j)
        rw [setGarbage_self, hl] at h2
        rw [List.perm_iff_count] at h1 h2 hadd ⊢
        intro a
        have h1 := h1 a
        have h2 := h2 a
        have h3 := hadd a
        simp only [stock, Function.update_self, List.flatten_cons, List.flatten_nil,
          List.append_nil, List.flatten_append, List.count_append] at h1 h2 h3 ⊢
        omega
      · rw [← stock_setGarbage_ne (g := g) (t := t) (e := e) hj [t₀]]
        simp only [stock, Function.update_of_ne hj]
        exact List.Perm.refl _
    have hper : ∀ j, (stock ({ g with
          alloc := Function.update g.alloc i (add_chunks_to_list (ch :: rest) (g.alloc i)) },
        t.setGarbage e i [t₀]) j ++ inUse U j).Perm (stock (g, t) j ++ inUse U j) :=
      fun j => (hperm j).append_right _
    refine ⟨h.brk, fun j => (hper j).nodup_iff.mpr (h.nodup j),
      fun j n hn => h.blocks j n ((hper j).mem_iff.mp hn), fun j c hc => ?_, fun e' j => ?_, h.size,
      h.epoch, h.current, h.inreclaim, h.nr⟩
    · dsimp only at hc
      by_cases hj : j = i
      · subst hj
        rw [Function.update_self, (add_chunks_perm _ _).mem_iff, List.mem_append] at hc
        rcases hc with hc | hc
        · have hg := h.garbage e j
          dsimp only at hg
          rw [hl] at hg
          exact hg c hc
        · exact h.full j c hc
      · rw [Function.update_of_ne hj] at hc
        exact h.full j c hc
    · dsimp only
      rw [setGarbage_garbage]
      split
      · exact fun c hc => absurd hc List.not_mem_nil
      · exact h.garbage e' j
  · exact h

/-- **`gc_reclaim`** moves blocks only. -/
theorem Inv.reclaim (h : Inv N s U cls) : Inv N (gc_reclaim s) U cls := by
  have hfold : ∀ (e : ℕ), e < NR_EPOCHS → ∀ (l : List ℕ) (s : Global × Ptst), Inv N s U cls →
      Inv N (l.foldl (fun s i => Gc.reclaim_list e i s) s) U cls := by
    intro e he l
    induction l with
    | nil => exact fun s hs => hs
    | cons i l ih => exact fun s hs => ih _ (hs.reclaim_list he i)
  unfold gc_reclaim
  split
  · exact h
  · dsimp only
    split
    · exact h
    · have hlt : ∀ a, a % NR_EPOCHS < NR_EPOCHS := fun a => Nat.mod_lt _ (by decide)
      have h' := hfold _ (hlt (s.1.current + 1)) (List.range s.1.nr_sizes) s h
      exact ⟨h'.brk, h'.nodup, h'.blocks, h'.full, h'.garbage, h'.size, h'.epoch, hlt _,
        h'.inreclaim, h'.nr⟩

/-- The invariant does not depend on the counters of the thread. -/
theorem Inv.congr (h : Inv N (g, t) U cls) (ha : t'.alloc = t.alloc) (hg : t'.garbage = t.garbage)
    (he : t'.epoch < NR_EPOCHS) : Inv N (g, t') U cls := by
  have hs : ∀ i, stock (g, t') i = stock (g, t) i := fun i => by simp only [stock, ha, hg]
  exact ⟨h.brk, fun i => hs i ▸ h.nodup i, fun i => hs i ▸ h.blocks i, h.full,
    by dsimp only; rw [hg]; exact h.garbage, h.size, he, h.current, h.inreclaim, h.nr⟩

theorem reclaim_list_count (e i : ℕ) (s : Global × Ptst) :
    (Gc.reclaim_list e i s).2.count = s.2.count := by
  unfold Gc.reclaim_list
  split <;> rfl

theorem foldl_reclaim_count (e : ℕ) (l : List ℕ) (s : Global × Ptst) :
    (l.foldl (fun s i => Gc.reclaim_list e i s) s).2.count = s.2.count := by
  induction l generalizing s with
  | nil => rfl
  | cons i l ih => exact (ih _).trans (reclaim_list_count e i s)

theorem gc_reclaim_count (s : Global × Ptst) : (gc_reclaim s).2.count = s.2.count := by
  unfold gc_reclaim
  split
  · rfl
  · dsimp only
    split
    · rfl
    · exact foldl_reclaim_count _ _ s

/-- **`gc_enter`** enters, after reclaiming garbage if it is due. -/
theorem Inv.enter (h : Inv N s U cls) (hcount : s.2.count = 1) :
    Inv N (gc_enter s) U cls ∧ (gc_enter s).2.count = 2 := by
  induction hn : s.2.entries_since_reclaim using Nat.strongRecOn generalizing s with
  | _ n ih =>
    rw [gc_enter, if_pos hcount]
    dsimp only
    split
    · exact ⟨h.congr rfl rfl h.current, congrArg (· + 1) hcount⟩
    · split
      · rename_i h100
        have h' : Inv N (s.1, { s.2 with count := s.2.count, entries_since_reclaim := 0 }) U cls :=
          h.congr rfl rfl h.epoch
        refine ih 0 (by rw [← hn, h100]; exact Nat.succ_pos 99) h'.reclaim ?_ ?_
        · rw [gc_reclaim_count]
          exact hcount
        · rw [gc_reclaim_entries]
      · exact ⟨h.congr rfl rfl h.epoch, congrArg (· + 1) hcount⟩

/-- The thread's first allocation chunks. -/
theorem Inv.init_alloc (h : Inv N (g, t) [] cls) (hi : i < N) (ht : t.alloc i = []) :
    ∃ cls', Inv N (Gc.init_alloc i (g, t)) [] cls' := by
  obtain ⟨fresh, hp⟩ := get_alloc_chunk_popped (h.full i) (h.size i hi)
  have hc : (stock (Gc.init_alloc i (g, t)) i ++ inUse [] i).Perm
      (stock (g, t) i ++ inUse [] i ++ fresh) := by
    rw [List.perm_iff_count]
    intro a
    have hcount := List.perm_iff_count.mp hp.perm a
    simp only [stock, Gc.init_alloc, Function.update_self, ht, List.count_append, List.count_nil]
      at hcount ⊢
    omega
  obtain ⟨hnd, hblocks⟩ := h.move _ [] i hp.brk hc hp.nodup hp.fresh fun j hj => by
    simp only [stock, Gc.init_alloc, Function.update_of_ne hj, hp.other j hj]
    exact List.Perm.refl _
  refine ⟨_, h.brk.trans hp.brk, hnd, hblocks, fun j => ?_, h.garbage,
    fun j hj => (h.size j hj).trans (hp.size j), h.epoch, hp.same.1 ▸ h.current,
    hp.same.2.1.trans h.inreclaim, hp.same.2.2.trans h.nr⟩
  by_cases hj : j = i
  · subst hj
    exact hp.full
  · have hfull := h.full j
    rw [← hp.other j hj] at hfull
    exact hfull

/-- **`gc_init`** fits a new thread out. -/
theorem Inv.init (h : Inv N (g, ⟨1, 0, 0, fun _ _ => [], fun _ => [], fun _ => 0⟩) [] cls) :
    ∃ cls', Inv N (gc_init g) [] cls' ∧ (gc_init g).2.count = 1 := by
  have hfold : ∀ (l : List ℕ) (s : Global × Ptst) (cls : NodeId → ℕ), l.Nodup →
      (∀ i ∈ l, i < N ∧ s.2.alloc i = []) → Inv N s [] cls → s.2.count = 1 →
      ∃ cls', Inv N (l.foldl (fun s i => Gc.init_alloc i s) s) [] cls' ∧
        (l.foldl (fun s i => Gc.init_alloc i s) s).2.count = 1 := by
    intro l
    induction l with
    | nil => exact fun s cls _ _ hs hc => ⟨cls, hs, hc⟩
    | cons i l ih =>
      intro s cls hl hall hs hc
      obtain ⟨hil, hl⟩ := List.nodup_cons.mp hl
      obtain ⟨hi, hai⟩ := hall i List.mem_cons_self
      obtain ⟨cls', hs'⟩ := hs.init_alloc hi hai
      refine ih _ cls' hl (fun j hj => ?_) hs' hc
      obtain ⟨hjN, hja⟩ := hall j (List.mem_cons_of_mem _ hj)
      refine ⟨hjN, ?_⟩
      rw [← hja]
      exact Function.update_of_ne (fun he : j = i => hil (he ▸ hj)) ..
  unfold gc_init
  exact hfold _ _ cls List.nodup_range (fun i hi => ⟨h.nr ▸ List.mem_range.mp hi, rfl⟩) h rfl

end Blocks

/-! ### The collector -/

/-- The collector between two calls (`b = false`) or inside of a critical section. -/
def Valid (b : Bool) (s : State) (U : List (NodeId × ℕ)) : Prop :=
  match s.ptst with
  | none => b = false ∧ U = [] ∧
      ∃ cls, Inv NUM_LEVELS (s.global, ⟨1, 0, 0, fun _ _ => [], fun _ => [], fun _ => 0⟩) [] cls
  | some t => t.count = (if b then 2 else 1) ∧ ∃ cls, Inv NUM_LEVELS (s.global, t) U cls

/-- **The collector is lawful**: it hands out nodes that are not in use. -/
theorem collector_lawful : Lawful collector Valid where
  enter := by
    rintro ⟨g, _ | t⟩ U h
    · obtain ⟨-, rfl, cls, hinv⟩ := h
      obtain ⟨cls', hinit, hcount⟩ := hinv.init
      have henter := hinit.enter hcount
      exact ⟨henter.2, cls', henter.1⟩
    · obtain ⟨hcount, cls, hinv⟩ := h
      have henter := hinv.enter hcount
      exact ⟨henter.2, cls, henter.1⟩
  exit := by
    rintro ⟨g, _ | t⟩ U h
    · exact absurd h.1 (by decide)
    · obtain ⟨hcount, cls, hinv⟩ := h
      refine ⟨congrArg (· - 1) hcount, cls, hinv.congr rfl rfl hinv.epoch⟩
  alloc := by
    rintro ⟨g, _ | t⟩ U c h hc
    · exact absurd h.1 (by decide)
    · obtain ⟨hcount, cls, hinv⟩ := h
      obtain ⟨cls', hinv'⟩ := hinv.alloc hc
      have hmem : (gc_alloc c g t).1 ∈
          stock (gc_alloc c g t).2 c ++ inUse (((gc_alloc c g t).1, c) :: U) c := by
        rw [inUse_cons_same]
        simp
      have hb := hinv'.blocks c _ hmem
      refine ⟨hb.2.1, fun c' hu => ?_, ?_, cls', hinv'⟩
      · by_cases hcc : c' = c
        · subst hcc
          have hnd := hinv'.nodup c'
          rw [inUse_cons_same, List.nodup_append, List.nodup_cons] at hnd
          exact hnd.2.1.1 (mem_inUse.mpr hu)
        · have hb' := hinv'.blocks c' (gc_alloc c g t).1 (List.mem_append_right _ (by
            rw [inUse_cons_ne (Ne.symm hcc)]
            exact mem_inUse.mpr hu))
          exact hcc (hb'.1.symm.trans hb.1)
      · change (gc_alloc c g t).2.2.count = _
        rw [← hcount]
        unfold gc_alloc
        split <;> rfl
  free := by
    rintro ⟨g, _ | t⟩ U n c h hn
    · exact absurd h.1 (by decide)
    · obtain ⟨hcount, cls, hinv⟩ := h
      refine ⟨?_, cls, hinv.free hn⟩
      obtain ⟨list, heq, -⟩ := gc_free_eq n c t
      rw [heq]
      exact hcount

/-- **`gc_add_allocator`** adds the blocks of all its chunks but the first. -/
theorem Inv.add_allocator {N : ℕ} {g : Global} {t : Ptst} {cls : NodeId → ℕ}
    (h : Inv N (g, t) [] cls) (hempty : ∀ i, N ≤ i → stock (g, t) i = []) :
    (∃ cls', Inv (N + 1) (gc_add_allocator g, t) [] cls') ∧
      ∀ i, N + 1 ≤ i → stock (gc_add_allocator g, t) i = [] := by
  obtain ⟨c, chunks, hch⟩ : ∃ c chunks,
      (get_filled_chunks ALLOC_CHUNKS_PER_LIST g).1 = c :: chunks := by
    cases hch : (get_filled_chunks ALLOC_CHUNKS_PER_LIST g).1 with
    | nil => exact absurd (congrArg List.length hch) (by simp [get_filled_chunks])
    | cons c chunks => exact ⟨c, chunks, rfl⟩
  have hflat := get_filled_chunks_flatten ALLOC_CHUNKS_PER_LIST g
  rw [hch, List.flatten_cons] at hflat
  have hfresh : ∀ n ∈ chunks.flatten,
      g.brk ≤ n ∧ n < g.brk + ALLOC_CHUNKS_PER_LIST * BLKS_PER_CHUNK := fun n hn =>
    List.mem_range'_1.mp (hflat.subset (List.mem_append_right c hn))
  have hnd : chunks.flatten.Nodup :=
    (List.nodup_append.mp (hflat.nodup_iff.mpr List.nodup_range')).2.1
  have halloc : (gc_add_allocator g).alloc = Function.update g.alloc N chunks := by
    have htail : chunks = (get_filled_chunks ALLOC_CHUNKS_PER_LIST g).1.tail := by rw [hch]; rfl
    rw [htail, ← h.nr]
    rfl
  have hother : ∀ i, i ≠ N → stock (gc_add_allocator g, t) i = stock (g, t) i := fun i hi => by
    simp only [stock, halloc, Function.update_of_ne hi]
  have hself : stock (gc_add_allocator g, t) N = chunks.flatten := by
    have hN := hempty N le_rfl
    rw [stock, List.append_eq_nil_iff] at hN
    rw [stock, halloc, Function.update_self, hN.2, List.append_nil]
  refine ⟨?_, fun i hi => ?_⟩
  · have hperm : (stock (gc_add_allocator g, t) N ++ inUse [] N).Perm
        (stock (g, t) N ++ inUse [] N ++ chunks.flatten) := by
      rw [hself, hempty N le_rfl]
      exact List.perm_append_comm
    obtain ⟨hnodup, hblocks⟩ := h.move (gc_add_allocator g, t) [] N (Nat.le_add_right ..) hperm
      hnd hfresh fun i hi => by rw [hother i hi]
    refine ⟨_, h.brk.trans (Nat.le_add_right ..), hnodup, hblocks, fun i => ?_, h.garbage,
      fun i hi => ?_, h.epoch, h.current, h.inreclaim, congrArg (· + 1) h.nr⟩
    · rw [halloc]
      by_cases hi : i = N
      · rw [hi, Function.update_self]
        exact fun ch hmem => get_filled_chunks_full (hch ▸ List.mem_cons_of_mem c hmem)
      · rw [Function.update_of_ne hi]
        exact h.full i
    · have hsize : (gc_add_allocator g).alloc_size =
          Function.update g.alloc_size N ALLOC_CHUNKS_PER_LIST := by
        rw [← h.nr]
        rfl
      rw [hsize]
      by_cases hiN : i = N
      · rw [hiN, Function.update_self]
      · rw [Function.update_of_ne hiN]
        exact h.size i (by omega)
  · rw [hother i (by omega)]
    exact hempty i (by omega)

/-- The collector `pq_init` leaves behind. -/
theorem pq_init_valid : Valid false pq_init_gc [] := by
  have hall : ∀ N, (∃ cls, Inv N (gc_add_allocator^[N] ⟨0, 0, 0, fun _ => [], fun _ => 0, firstNode⟩,
        ⟨1, 0, 0, fun _ _ => [], fun _ => [], fun _ => 0⟩) [] cls) ∧
      ∀ i, N ≤ i → stock (gc_add_allocator^[N] ⟨0, 0, 0, fun _ => [], fun _ => 0, firstNode⟩,
        ⟨1, 0, 0, fun _ _ => [], fun _ => [], fun _ => 0⟩) i = [] := by
    intro N
    induction N with
    | zero =>
      refine ⟨⟨fun _ => 0, le_rfl, fun _ => List.nodup_nil, fun _ n hn => absurd hn List.not_mem_nil,
        fun _ ch hch => absurd hch List.not_mem_nil, fun _ _ ch hch => absurd hch List.not_mem_nil,
        fun i hi => absurd hi (Nat.not_lt_zero i), by decide, by decide, rfl, rfl⟩, fun _ _ => rfl⟩
    | succ N ih =>
      obtain ⟨⟨cls, hinv⟩, hempty⟩ := ih
      rw [Function.iterate_succ_apply']
      exact hinv.add_allocator hempty
  exact ⟨rfl, rfl, (hall NUM_LEVELS).1⟩

end ConcurrentPQ.Gc

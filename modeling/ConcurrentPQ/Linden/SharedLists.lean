import ConcurrentPQ.Linden.Stock

/-!
# The shared lists keep the stock

One lemma for each function on the shared lists, which says that it returns and where the chunks are then.

* `Same` — the places a function leaves alone;
* `Got`, `Stock.get_empty_chunks`, `Stock.get_filled_chunks` — rings of empty and of filled chunks;
* `Shared`, `Shared.get_alloc_chunk` — the lists of `gc_global`, and a chunk of one of them.
-/

namespace ConcurrentPQ.Allocator

open ConcurrentPQ.Segment ConcurrentPQ.Circle

variable {h h' : Heap} {g : Global} {L L' L'' : Place → List Chunk} {held : Block → Option ℕ}
  {p q : Place} {ps : List Place} {head ch rt : Chunk} {x y l : List Chunk} {n i : ℕ}

/-- Only the rings of the places `ps` may be others. -/
def Same (ps : List Place) (L L' : Place → List Chunk) : Prop := ∀ r, r ∉ ps → L' r = L r

theorem Same.refl : Same ps L L := fun _ _ => rfl

theorem Same.trans (h₁ : Same ps L L') (h₂ : Same ps L' L'') : Same ps L L'' :=
  fun r hr => (h₂ r hr).trans (h₁ r hr)

theorem Same.mono {ps' : List Place} (h : Same ps L L') (hsub : ps ⊆ ps') : Same ps' L L' :=
  fun r hr => h r fun hm => hr (hsub hm)

theorem same_regroup {lp lq : List Chunk} : Same [p, q] L (regroup L p q lp lq) := fun r hr => by
  rw [List.mem_cons, List.mem_singleton, not_or] at hr
  exact regroup_of_ne hr.1 hr.2

/-- The chunks that were not free have the entries they had. -/
def Keeps (L : Place → List Chunk) (h h' : Heap) : Prop :=
  ∀ p, p ≠ .free → ∀ c ∈ L p, h'.i c = h.i c ∧ h'.blk c = h.blk c

/-- No entry is lost. -/
def Entries (h h' : Heap) : Prop :=
  ∀ c k, h.Live c k → h'.Live c k ∧ h'.blk c k = h.blk c k

theorem Entries.refl : Entries h h := fun _ _ hk => ⟨hk, rfl⟩

theorem Entries.trans {h'' : Heap} (h₁ : Entries h h') (h₂ : Entries h' h'') : Entries h h'' :=
  fun c k hk => ⟨(h₂ c k (h₁ c k hk).1).1, (h₂ c k (h₁ c k hk).1).2.trans (h₁ c k hk).2⟩

theorem Entries.of_eq (hi : h'.i = h.i) (hblk : h'.blk = h.blk) : Entries h h' := by
  intro c k ⟨n, hn, hk⟩
  exact ⟨⟨n, (congrFun hi c).trans hn, hk⟩, congrFun (congrFun hblk c) k⟩

/-- A chunk with an entry is in a ring. -/
theorem Stock.place_of_live {c : Chunk} {k : ℕ} (hs : Stock h L held) (hk : h.Live c k) :
    ∃ p, c ∈ L p := by
  refine hs.placed c (Nat.not_le.mp fun hle => ?_)
  obtain ⟨n, hn, -⟩ := hk
  rw [hs.fresh c hle] at hn
  cases hn

/-- The chunks of a place for empty chunks have no entries. -/
theorem Stock.not_live_of_mem {c : Chunk} (hs : Stock h L held) (hc : c ∈ L p)
    (hp : p.first = p.rest) (hempty : ∀ o, p.rest o → ∀ n ∈ o, n = 0) (k : ℕ) : ¬h.Live c k :=
  not_live (hempty _ ((hs.fits p).all hp hc)) k

theorem Stock.entries (hs : Stock h L held) (hk : Keeps L h h') : Entries h h' := by
  intro c k hlive
  obtain ⟨p, hp⟩ := hs.place_of_live hlive
  have hpf : p ≠ .free := by
    intro he
    rw [he] at hp
    exact hs.not_live_of_mem hp rfl (fun _ ho => ho) k hlive
  obtain ⟨hi, hblk⟩ := hk p hpf c hp
  obtain ⟨n, hn, hkn⟩ := hlive
  exact ⟨⟨n, hi.trans hn, hkn⟩, congrFun hblk k⟩

/-- A ring is put on a list. -/
theorem Stock.add_chunks_to_list (hs : Stock h L held) (hpq : p ≠ q) (hp : L p = head :: x)
    (hq : L q = ch :: y) (hfirst : p.first = p.rest) (hfits : Fits h p (ch :: y)) :
    Stock (add_chunks_to_list ch head h) (regroup L p q (head :: (y ++ ch :: x)) []) held := by
  have hall : Fits h p (head :: (y ++ ch :: x)) := by
    have hfp := hs.fits p
    rw [hp] at hfp
    refine (hfp.append hfirst hfits).subset hfirst fun c hc => ?_
    simp only [List.mem_cons, List.mem_append] at hc ⊢
    tauto
  have hjoin := hs.join hpq (by rw [hp]) (by rw [hq]) (List.IsRotated.refl _) hall
  rw [exchange_comm] at hjoin
  exact hjoin

/-! ### Rings of empty chunks -/

/-- The walk ends at the `n`-th chunk behind `rt`, if there is one. -/
theorem walk_eq (hseg : Seg h.next (h.next rt) l head) (hhead : head ∉ l) :
    walk head h n rt = (rt :: l)[n]? := by
  induction n generalizing rt l with
  | zero => rfl
  | succ n ih =>
    rw [walk]
    cases l with
    | nil => exact if_pos hseg
    | cons a l =>
      obtain ⟨ha, hseg⟩ := hseg
      have hne : h.next rt ≠ head := fun he => hhead (ha.symm.trans he ▸ List.mem_cons_self)
      rw [if_neg hne, ha]
      exact ih hseg fun hm => hhead (List.mem_cons_of_mem _ hm)

/-- `get_empty_chunks` has returned a ring of `n` chunks, to which `rh` points. -/
structure Got (head : Chunk) (n : ℕ) (h h' : Heap) (L L' : Place → List Chunk)
    (held : Block → Option ℕ) (rh : Chunk) : Prop where
  stock : Stock h' L' held
  same : h' = { h with next := h'.next, brk := h'.brk }
  ring : (L' .empty).head? = some rh
  length : (L' .empty).length = n
  free : (L' .free).head? = some head
  others : Same [.free, .empty] L L'

/-- The list is long enough. -/
theorem Stock.get_empty (hs : Stock h L held) (hfree : L .free = head :: l) (hempty : L .empty = [])
    (hn : 0 < n) (hlen : n ≤ l.length) (retries : ℕ) :
    ∃ rh h' L', get_empty_chunks head n (retries + 1) h = some (rh, h') ∧
      Got head n h h' L L' held rh := by
  have hlt : n - 1 < l.length := by omega
  obtain ⟨y, rt, x, hl, hy⟩ : ∃ y rt x, l = y ++ rt :: x ∧ y.length = n - 1 :=
    ⟨l.take (n - 1), l[n - 1], l.drop (n - 1 + 1), by simp, by simp; omega⟩
  have hcirc := hs.rings.circ .free
  have hnodup := hs.rings.nodup .free
  rw [hfree] at hcirc hnodup
  have hseg : Seg h.next (h.next head) l head := circ_cons.mp hcirc
  have hwalk : walk head h n head = some rt := by
    rw [walk_eq hseg (List.nodup_cons.mp hnodup).1]
    obtain ⟨m, rfl⟩ : ∃ m, n = m + 1 := ⟨n - 1, by omega⟩
    rw [List.getElem?_cons_succ, hl, List.getElem?_append_right (by omega)]
    simp [hy]
  have hfits := hs.fits .free
  rw [hfree] at hfits
  have hsub : ∀ l', l' ⊆ head :: l → Fits h .empty l' := fun l' hl' => by
    have := hfits.subset rfl hl'
    exact ⟨this.first, this.rest, this.cls⟩
  have hcut := hs.cut (p := .free) (q := .empty) (a := head) (b := rt) (y := y) (x := x)
    (fun he => by cases he) hempty (by rw [hfree, hl]) (List.IsRotated.refl (head :: x))
    (List.isRotated_append : y ++ [rt] ~r [rt] ++ y)
    (hfits.subset rfl fun c hc => by
      rw [hl]
      simp only [List.mem_cons, List.mem_append] at hc ⊢
      tauto)
    (hsub _ fun c hc => by
      rw [hl]
      simp only [List.mem_cons, List.mem_append] at hc ⊢
      tauto)
  refine ⟨h.next head, _, _, ?_, hcut, rfl, ?_, ?_, ?_, same_regroup⟩
  · rw [get_empty_chunks, hwalk]
    rfl
  · rw [regroup_right]
    rw [hl] at hseg
    cases y with
    | nil =>
      obtain ⟨he, -⟩ := hseg
      rw [he]
      rfl
    | cons a y =>
      obtain ⟨he, -⟩ := hseg
      rw [he]
      rfl
  · rw [regroup_right, List.length_append, List.length_singleton, hy]
    omega
  · rw [regroup_left (fun he => by cases he)]
    rfl

/-- Each walk that comes to the end of the list adds chunks to it. -/
theorem Stock.get_empty_retry {retries : ℕ} (hs : Stock h L held) (hfree : L .free = head :: l)
    (hempty : L .empty = []) (hn : 0 < n) (hlen : n ≤ l.length + retries * 1000) :
    ∃ rh h' L', get_empty_chunks head n (retries + 1) h = some (rh, h') ∧
      Got head n h h' L L' held rh := by
  induction retries generalizing h L l with
  | zero => exact hs.get_empty hfree hempty hn (by omega) 0
  | succ retries ih =>
    by_cases hlong : n ≤ l.length
    · exact hs.get_empty hfree hempty hn hlong (retries + 1)
    · have hcirc := hs.rings.circ .free
      have hnodup := hs.rings.nodup .free
      rw [hfree] at hcirc hnodup
      have hwalk : walk head h n head = none := by
        rw [walk_eq (circ_cons.mp hcirc) (List.nodup_cons.mp hnodup).1, List.getElem?_eq_none]
        exact Nat.not_le.mp hlong
      have hmore := hs.alloc_more_chunks hempty
      have hne : Place.free ≠ .empty := fun he => by cases he
      have hfits := (hmore.fits .empty)
      rw [Function.update_self] at hfits
      have hring : Function.update L .empty (List.range' h.brk CHUNKS_PER_ALLOC) .empty =
          h.brk :: List.range' (h.brk + 1) 999 := Function.update_self _ _ _
      have hadd := hmore.add_chunks_to_list hne ((Function.update_of_ne hne _ _).trans hfree) hring rfl
        ⟨hfits.first, hfits.rest, hfits.cls⟩
      obtain ⟨rh, h', L', hrun, hgot⟩ := ih hadd (regroup_left hne) regroup_right (by
        simp only [List.length_append, List.length_cons, List.length_range']
        rw [Nat.add_mul] at hlen
        omega)
      refine ⟨rh, h', L', ?_, hgot.stock, ?_, hgot.ring, hgot.length, hgot.free, ?_⟩
      · rw [get_empty_chunks, hwalk]
        exact hrun
      · rw [hgot.same]
        rfl
      · refine Same.trans (fun r hr => ?_) hgot.others
        rw [List.mem_cons, List.mem_singleton, not_or] at hr
        rw [regroup_of_ne hr.1 hr.2, Function.update_of_ne hr.2]

/-- **`get_empty_chunks`** returns a ring. -/
theorem Stock.get_empty_chunks (hs : Stock h L held) (hfree : (L .free).head? = some head)
    (hempty : L .empty = []) (hn : 0 < n) :
    ∃ rh h' L', get_empty_chunks head n (n + 1) h = some (rh, h') ∧ Got head n h h' L L' held rh := by
  obtain ⟨l, hl⟩ := List.head?_eq_some_iff.mp hfree
  exact hs.get_empty_retry hl hempty hn (by omega)

/-! ### Rings of filled chunks -/

/-- `get_filled_chunks` has returned a ring of chunks with blocks for `i`, to which `p` points. -/
structure GotFilled (head : Chunk) (i : ℕ) (h h' : Heap) (L L' : Place → List Chunk)
    (held : Block → Option ℕ) (p : Chunk) : Prop where
  stock : Stock h' L' held
  ring : (L' (.filled i)).head? = some p
  free : (L' .free).head? = some head
  others : Same [.free, .filled i] L L'
  keeps : Keeps L h h'

/-- **`get_filled_chunks`** returns a ring. -/
theorem Stock.get_filled_chunks {sz : ℕ} (hs : Stock h L held) (hfree : (L .free).head? = some head)
    (hempty : L .empty = []) (hfilled : L (.filled i) = []) (hn : 0 < n) (hsz : 0 < sz) :
    ∃ c h' L', get_filled_chunks head n sz i h = some (c, h') ∧ GotFilled head i h h' L L' held c := by
  have halloc := hs.aligned_alloc (n * BLKS_PER_CHUNK * sz) i
  obtain ⟨c, h₁, L₁, hrun, hgot⟩ := halloc.get_empty_chunks hfree hempty hn
  obtain ⟨l, hl⟩ := List.head?_eq_some_iff.mp hgot.ring
  have hlen : (c :: l).length = n := by rw [← hl, hgot.length]
  have hfilled₁ : L₁ (.filled i) = [] := by
    rw [hgot.others _ (by simp), hfilled]
  have hcirc := hgot.stock.rings.circ .empty
  have hnodup := hgot.stock.rings.nodup .empty
  rw [hl] at hcirc hnodup
  obtain ⟨h', hfill, hf⟩ := fill_chunks_spec (h := h₁) hsz h.node
    (show Seg h₁.next c (c :: l) c from hcirc c rfl) (List.nodup_cons.mp hnodup).1 hnodup
  have hsize : n * BLKS_PER_CHUNK * sz = (c :: l).length * (BLKS_PER_CHUNK * sz) := by
    rw [hlen, Nat.mul_assoc]
  have hnode : h₁.node = h.node + (c :: l).length * (BLKS_PER_CHUNK * sz) := by
    rw [hgot.same, ← hsize]
    rfl
  have hi : h₁.i = h.i := by
    rw [hgot.same]
    rfl
  have hblk : h₁.blk = h.blk := by
    rw [hgot.same]
    rfl
  have hstock := hgot.stock.filled hl hfilled₁ hf (fun d k hk => ?_) (fun b j hb => (hs.held b j hb).1)
    (Nat.le_of_eq hnode.symm) fun b hb hb' => ?_
  · refine ⟨c, h', _, ?_, hstock, ?_, ?_, ?_, ?_⟩
    · rw [Allocator.get_filled_chunks, hrun]
      show (fill_chunks sz c n c h.node h₁).bind _ = _
      rw [← hlen, hfill]
      rfl
    · rw [regroup_right]
      rfl
    · rw [regroup_of_ne (by simp) (by simp)]
      exact hgot.free
    · intro r hr
      rw [List.mem_cons, List.mem_singleton, not_or] at hr
      by_cases he : r = .empty
      · rw [he, regroup_left (by simp), hempty]
      · rw [regroup_of_ne he hr.2]
        exact hgot.others r (by simp [hr.1, he])
    · intro p hp d hd
      have hpe : p ≠ .empty := by
        rintro rfl
        rw [hempty] at hd
        cases hd
      have hd₁ : d ∈ L₁ p := by
        rw [hgot.others p (by simp [hp, hpe])]
        exact hd
      have hdl : d ∉ c :: l := fun hm => hpe (hgot.stock.rings.apart p .empty d hd₁ (hl ▸ hm))
      rw [(hf.out d hdl).1, (hf.out d hdl).2, hi, hblk]
      exact ⟨rfl, rfl⟩
  · rw [hblk]
    obtain ⟨m, hm, hk⟩ := hk
    rw [hi] at hm
    exact hs.below d k ⟨m, hm, hk⟩
  · have hcls : h₁.cls = (h.aligned_alloc (n * BLKS_PER_CHUNK * sz) i).cls := by rw [hgot.same]
    rw [hcls, Heap.aligned_alloc]
    dsimp only
    rw [hsize]
    exact if_pos ⟨hb, hb'⟩

/-! ### A chunk of a list -/

/-- The heap with the lists of `gc_global`. -/
structure Shared (h : Heap) (g : Global) (L : Place → List Chunk) (held : Block → Option ℕ) : Prop where
  stock : Stock h L held
  free : (L .free).head? = some g.free_chunks
  main : ∀ i, i < g.nr_sizes → (L (.main i)).head? = some (g.alloc i)
  size : ∀ i, i < g.nr_sizes → 0 < g.blk_sizes i ∧ 0 < g.alloc_size i

/-- `get_alloc_chunk` has returned the filled chunk `c`. -/
structure GotAlloc (i : ℕ) (g g' : Global) (h h' : Heap) (L L' : Place → List Chunk)
    (held : Block → Option ℕ) (c : Chunk) : Prop where
  shared : Shared h' g' L' held
  same : g' = { g with alloc_size := g'.alloc_size }
  chunk : L' (.filled i) = [c]
  others : Same [.free, .main i, .filled i] L L'
  keeps : Keeps L h h'

/-- The list is not empty. -/
theorem Shared.take_alloc {c : Chunk} (hs : Shared h g L held)
    (hmain : L (.main i) = g.alloc i :: c :: x) (hfilled : L (.filled i) = []) (n : ℕ) :
    ∃ h' L', get_alloc_chunk i (n + 1) h g = some (c, h', g) ∧ GotAlloc i g g h h' L L' held c := by
  have hcirc := hs.stock.rings.circ (.main i)
  have hnodup := hs.stock.rings.nodup (.main i)
  have hfits := hs.stock.fits (.main i)
  rw [hmain] at hcirc hnodup hfits
  obtain ⟨hnext, -⟩ := circ_cons.mp hcirc
  have hne : c ≠ g.alloc i := fun he => (List.nodup_cons.mp hnodup).1 (he ▸ List.mem_cons_self)
  have hfull : h.i c = some BLKS_PER_CHUNK := hfits.rest c List.mem_cons_self
  have hp : Place.main i ≠ .filled i := by simp
  have hfc : Fits h (.main i) [c] := hfits.subset rfl (by simp)
  have hcut := hs.stock.cut (a := g.alloc i) (b := c) (y := []) (x := x) hp hfilled (by rw [hmain]; rfl)
    (List.IsRotated.refl (g.alloc i :: x)) (List.IsRotated.refl [c])
    (hfits.subset rfl (by simp)) ⟨hfc.first, hfc.rest, hfc.cls⟩
  refine ⟨_, _, ?_, ⟨hcut, ?_, fun j hj => ?_, hs.size⟩, rfl, regroup_right, ?_,
    fun _ _ _ _ => ⟨rfl, rfl⟩⟩
  · rw [Allocator.get_alloc_chunk]
    dsimp only
    rw [hnext, if_neg hne]
    refine (if_pos hfull).trans ?_
    rw [exchange, hnext]
    rfl
  · rw [regroup_of_ne (by simp) (by simp)]
    exact hs.free
  · by_cases he : j = i
    · rw [he, regroup_left hp]
      rfl
    · rw [regroup_of_ne (by simpa using he) (by simp)]
      exact hs.main j hj
  · exact same_regroup.mono (by simp)

/-- **`get_alloc_chunk`** returns a filled chunk: its assertion holds. -/
theorem Shared.get_alloc_chunk (hs : Shared h g L held) (hi : i < g.nr_sizes) (hempty : L .empty = [])
    (hfilled : L (.filled i) = []) :
    ∃ c h' g' L', get_alloc_chunk i 2 h g = some (c, h', g') ∧ GotAlloc i g g' h h' L L' held c := by
  obtain ⟨l, hmain⟩ := List.head?_eq_some_iff.mp (hs.main i hi)
  cases l with
  | cons c x =>
    obtain ⟨h', L', hrun, hgot⟩ := hs.take_alloc hmain hfilled 1
    exact ⟨c, h', g, L', hrun, hgot⟩
  | nil =>
    have hcirc := hs.stock.rings.circ (.main i)
    rw [hmain, circ_singleton] at hcirc
    obtain ⟨nh, h₁, L₁, hfill, hgot⟩ := hs.stock.get_filled_chunks hs.free hempty hfilled
      (hs.size i hi).2 (hs.size i hi).1
    obtain ⟨y, hy⟩ := List.head?_eq_some_iff.mp hgot.ring
    have hne : Place.main i ≠ .filled i := by simp
    have hmain₁ : L₁ (.main i) = [g.alloc i] := by
      rw [hgot.others _ (by simp), hmain]
    have hfits := hgot.stock.fits (.filled i)
    rw [hy] at hfits
    have hadd := hgot.stock.add_chunks_to_list hne hmain₁ hy rfl ⟨hfits.first, hfits.rest, hfits.cls⟩
    have hothers : Same [.free, .main i, .filled i] L
        (regroup L₁ (.main i) (.filled i) (g.alloc i :: (y ++ [nh])) []) :=
      (hgot.others.mono (by simp)).trans (same_regroup.mono (by simp))
    have hshared : Shared (add_chunks_to_list nh (g.alloc i) h₁)
        { g with alloc_size := Function.update g.alloc_size i (g.alloc_size i + g.alloc_size i / 8) }
        (regroup L₁ (.main i) (.filled i) (g.alloc i :: (y ++ [nh])) []) held := by
      refine ⟨hadd, ?_, fun j hj => ?_, fun j hj => ⟨(hs.size j hj).1, ?_⟩⟩
      · rw [regroup_of_ne (by simp) (by simp)]
        exact hgot.free
      · by_cases he : j = i
        · rw [he, regroup_left hne]
          rfl
        · rw [hothers _ (by simpa using he)]
          exact hs.main j hj
      · show 0 < Function.update g.alloc_size i _ j
        rw [Function.update_apply]
        split
        · exact Nat.lt_add_right _ (hs.size i hi).2
        · exact (hs.size j hj).2
    obtain ⟨c, x, hcx⟩ : ∃ c x, y ++ [nh] = c :: x := by
      cases y with
      | nil => exact ⟨nh, [], rfl⟩
      | cons c y => exact ⟨c, y ++ [nh], rfl⟩
    obtain ⟨h', L', hrun, hgot'⟩ := hshared.take_alloc ((regroup_left hne).trans (by rw [hcx]))
      regroup_right 0
    refine ⟨c, h', _, L', ?_, hgot'.shared, ?_, hgot'.chunk, hothers.trans hgot'.others, ?_⟩
    · rw [Allocator.get_alloc_chunk]
      dsimp only
      rw [if_pos hcirc, hfill]
      exact hrun
    · rw [hgot'.same]
    · intro p hp d hd
      have hd' : d ∈ regroup L₁ (.main i) (.filled i) (g.alloc i :: (y ++ [nh])) [] p := by
        by_cases hm : p = .main i
        · rw [hm, hmain, List.mem_singleton] at hd
          rw [hm, regroup_left hne, hd]
          exact List.mem_cons_self
        · have hpf : p ≠ .filled i := by
            rintro rfl
            rw [hfilled] at hd
            cases hd
          rw [regroup_of_ne hm hpf, hgot.others p (by simp [hp, hpf])]
          exact hd
      have hfirst := hgot.keeps p hp d hd
      have hlast := hgot'.keeps p hp d hd'
      exact ⟨hlast.1.trans hfirst.1, hlast.2.trans hfirst.2⟩

end ConcurrentPQ.Allocator

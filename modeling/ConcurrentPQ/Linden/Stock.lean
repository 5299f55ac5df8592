import ConcurrentPQ.Linden.Allocator

/-!
# Where chunks and blocks are

Each chunk is in a ring of one place, and each block is in one entry of one chunk or held.

* `Place`, `Fits` — the places of chunks, and what a place asks of its ring;
* `Stock` — the invariant of the heap;
* `Stock.relink`, `Stock.add_chunks_to_list`, `Stock.cut` — chunks that change places;
* `Stock.alloc_more_chunks`, `Stock.filled` — new chunks and new blocks;
* `Stock.pop`, `Stock.push` — a block is given to a client and comes back.
-/

namespace ConcurrentPQ.Allocator

open ConcurrentPQ.Segment ConcurrentPQ.Circle

/-- The places of a chunk: the shared lists, the rings of a thread, and a ring in the hands of the running
function, empty or just filled. -/
inductive Place where
  | free
  | main (i : ℕ)
  | cache (t : Tid)
  | alloc (t : Tid) (i : ℕ)
  | garbage (t : Tid) (e i : ℕ)
  | empty
  | filled (i : ℕ)
  deriving DecidableEq

/-- The size class of the blocks of a place. -/
def Place.cls : Place → Option ℕ
  | .main i | .alloc _ i | .garbage _ _ i | .filled i => some i
  | .free | .cache _ | .empty => none

/-- The field `i` of a chunk that is not the first of its ring. -/
def Place.rest : Place → Option ℕ → Prop
  | .free, o | .cache _, o | .empty, o => ∀ n ∈ o, n = 0
  | .alloc _ _, o => o = some 0
  | .main _, o | .garbage _ _ _, o | .filled _, o => o = some BLKS_PER_CHUNK

/-- The field `i` of the first chunk of a ring. -/
def Place.first : Place → Option ℕ → Prop
  | .alloc _ _, o | .garbage _ _ _, o => ∃ n, o = some n
  | p, o => p.rest o

/-- A ring that may stand in a place. -/
structure Fits (h : Heap) (p : Place) (l : List Chunk) : Prop where
  first : ∀ c ∈ l.head?, p.first (h.i c)
  rest : ∀ c ∈ l.tail, p.rest (h.i c)
  cls : ∀ c ∈ l, ∀ k, h.Live c k → h.cls (h.blk c k) = p.cls

/-- The invariant of the heap; `L` are the rings and `held` the blocks of the clients. -/
structure Stock (h : Heap) (L : Place → List Chunk) (held : Block → Option ℕ) : Prop where
  rings : Rings h.next L
  bound : ∀ p, ∀ c ∈ L p, c < h.brk
  placed : ∀ c, c < h.brk → ∃ p, c ∈ L p
  fits : ∀ p, Fits h p (L p)
  small : ∀ c n, h.i c = some n → n ≤ BLKS_PER_CHUNK
  fresh : ∀ c, h.brk ≤ c → h.i c = none
  inj : ∀ c k d j, h.Live c k → h.Live d j → h.blk c k = h.blk d j → c = d ∧ k = j
  unheld : ∀ c k, h.Live c k → held (h.blk c k) = none
  below : ∀ c k, h.Live c k → h.blk c k < h.node
  held : ∀ b i, held b = some i → b < h.node ∧ h.cls b = some i

section Fits

variable {h : Heap} {p q : Place} {l : List Chunk} {c : Chunk}

theorem Fits.nil : Fits h p [] where
  first _ hc := by cases hc
  rest _ hc := by cases hc
  cls _ hc := by cases hc

/-- All chunks of a place where the first is no exception. -/
theorem Fits.all (hf : Fits h p l) (hp : p.first = p.rest) (hc : c ∈ l) : p.rest (h.i c) := by
  cases l with
  | nil => cases hc
  | cons a l =>
    cases hc with
    | head => exact hp ▸ hf.first c rfl
    | tail _ hc => exact hf.rest c hc

theorem Fits.of_all (hp : p.first = p.rest) (hrest : ∀ c ∈ l, p.rest (h.i c))
    (hcls : ∀ c ∈ l, ∀ k, h.Live c k → h.cls (h.blk c k) = p.cls) : Fits h p l := by
  refine ⟨fun c hc => ?_, fun c hc => hrest c (List.mem_of_mem_tail hc), hcls⟩
  rw [hp]
  exact hrest c (List.mem_of_mem_head? hc)

/-- A chunk without entries has no blocks. -/
theorem not_live (hc : ∀ n ∈ h.i c, n = 0) (k : ℕ) : ¬h.Live c k := by
  intro ⟨n, hn, hk⟩
  rw [hc n hn] at hk
  exact Nat.not_lt_zero k hk

theorem Fits.append {l' : List Chunk} (hp : p.first = p.rest) (hf : Fits h p l) (hf' : Fits h p l') :
    Fits h p (l ++ l') := by
  refine Fits.of_all hp (fun c hc => ?_) fun c hc => ?_
  · cases List.mem_append.mp hc with
    | inl hc => exact hf.all hp hc
    | inr hc => exact hf'.all hp hc
  · cases List.mem_append.mp hc with
    | inl hc => exact hf.cls c hc
    | inr hc => exact hf'.cls c hc

theorem Fits.subset {l' : List Chunk} (hp : p.first = p.rest) (hf : Fits h p l) (hsub : l' ⊆ l) :
    Fits h p l' :=
  Fits.of_all hp (fun _ hc => hf.all hp (hsub hc)) fun c hc => hf.cls c (hsub hc)

/-- A ring of empty chunks fits wherever empty chunks are wanted. -/
theorem Fits.of_empty (hp : p.first = p.rest) (hrest : ∀ c ∈ l, p.rest (h.i c))
    (hempty : ∀ c ∈ l, ∀ n ∈ h.i c, n = 0) : Fits h p l :=
  Fits.of_all hp hrest fun c hc k hk => absurd hk (not_live (hempty c hc) k)

end Fits

/-! ### Chunks that change places -/

section Relink

variable {h : Heap} {L : Place → List Chunk} {held : Block → Option ℕ} {p q : Place}
  {lp lq x y : List Chunk} {a b : Chunk}

/-- **Two rings change**: the chunks of both are still the same, and they suit their places. -/
theorem Stock.relink {next' : Chunk → Chunk} (hs : Stock h L held) (hpq : p ≠ q)
    (hperm : (lp ++ lq).Perm (L p ++ L q)) (hcp : Circ next' lp) (hcq : Circ next' lq)
    (hnext : ∀ c, c ∉ L p → c ∉ L q → h.next c = next' c) (hfp : Fits h p lp) (hfq : Fits h q lq) :
    Stock { h with next := next' } (regroup L p q lp lq) held := by
  refine ⟨hs.rings.change hpq hperm hcp hcq hnext, fun r c hc => ?_, fun c hc => ?_, fun r => ?_,
    hs.small, hs.fresh, hs.inj, hs.unheld, hs.below, hs.held⟩
  · rcases mem_regroup hpq hperm hc with hm | ⟨-, hm | hm⟩
    · exact hs.bound r c hm
    · exact hs.bound p c hm
    · exact hs.bound q c hm
  · obtain ⟨r, hr⟩ := hs.placed c hc
    exact exists_mem_regroup hpq hperm hr
  · have hr := forall_regroup (P := Fits h) hs.fits hfp hfq r
    exact ⟨hr.first, hr.rest, hr.cls⟩

/-- A ring moves to a place where there was none. -/
theorem Stock.move (hs : Stock h L held) (hpq : p ≠ q) (hq : L q = []) (hfits : Fits h q (L p)) :
    Stock h (regroup L p q [] (L p)) held := by
  refine hs.relink hpq ?_ circ_nil (hs.rings.circ p) (fun _ _ _ => rfl) Fits.nil hfits
  rw [hq, List.append_nil]
  exact List.Perm.refl _

/-- **Two rings become one.** -/
theorem Stock.join (hs : Stock h L held) (hpq : p ≠ q) (hp : L p ~r a :: x) (hq : L q ~r b :: y)
    (hlp : lp ~r a :: (y ++ b :: x)) (hfits : Fits h p lp) :
    Stock { h with next := exchange h.next a b } (regroup L p q lp []) held := by
  have hperm : (lp ++ []).Perm (L p ++ L q) := by
    rw [List.append_nil]
    exact (hlp.perm.trans perm_exchange).trans (hp.perm.append hq.perm).symm
  have hnodup : (a :: (y ++ b :: x)).Nodup := by
    rw [perm_exchange.nodup_iff, List.nodup_append, ← hp.perm.nodup_iff, ← hq.perm.nodup_iff]
    refine ⟨hs.rings.nodup p, hs.rings.nodup q, fun c hc d hd he => hpq ?_⟩
    exact hs.rings.apart p q c (hp.perm.mem_iff.mpr hc) (hq.perm.mem_iff.mpr (he ▸ hd))
  refine hs.relink hpq hperm ?_ circ_nil (fun c hcp hcq => ?_) hfits Fits.nil
  · rw [circ_of_isRotated hlp, circ_exchange hnodup, ← circ_of_isRotated hp, ← circ_of_isRotated hq]
    exact ⟨hs.rings.circ p, hs.rings.circ q⟩
  · refine (exchange_of_ne (fun he => hcp ?_) (fun he => hcq ?_)).symm
    · rw [he]
      exact hp.perm.mem_iff.mpr List.mem_cons_self
    · rw [he]
      exact hq.perm.mem_iff.mpr List.mem_cons_self

/-- **A ring is cut in two.** -/
theorem Stock.cut (hs : Stock h L held) (hpq : p ≠ q) (hq : L q = [])
    (hp : L p ~r a :: (y ++ b :: x)) (hlp : lp ~r a :: x) (hlq : lq ~r b :: y) (hfp : Fits h p lp)
    (hfq : Fits h q lq) :
    Stock { h with next := exchange h.next a b } (regroup L p q lp lq) held := by
  have hperm : (lp ++ lq).Perm (L p ++ L q) := by
    rw [hq, List.append_nil]
    exact (hlp.perm.append hlq.perm).trans (perm_exchange.symm.trans hp.perm.symm)
  have hnodup : (a :: (y ++ b :: x)).Nodup := by
    rw [← hp.perm.nodup_iff]
    exact hs.rings.nodup p
  have hcirc := (circ_of_isRotated hp).mp (hs.rings.circ p)
  have hcut := hcirc.cut hnodup
  refine hs.relink hpq hperm ((circ_of_isRotated hlp).mpr hcut.1)
    ((circ_of_isRotated hlq).mpr hcut.2) (fun c hcp _ => ?_) hfp hfq
  refine (exchange_of_ne (fun he => hcp ?_) (fun he => hcp ?_)).symm
  · rw [he]
    exact hp.perm.mem_iff.mpr List.mem_cons_self
  · rw [he]
    exact hp.perm.mem_iff.mpr (List.mem_cons_of_mem _ (List.mem_append_right _ List.mem_cons_self))

end Relink

/-! ### New chunks and new blocks -/

section New

variable {h h' : Heap} {L : Place → List Chunk} {held : Block → Option ℕ}

/-- **New chunks.** -/
theorem Stock.alloc_more_chunks (hs : Stock h L held) (hq : L .empty = []) :
    Stock (alloc_more_chunks h).2
      (Function.update L .empty (List.range' h.brk CHUNKS_PER_ALLOC)) held := by
  have hnew : ∀ r, ∀ c ∈ L r, c ∉ List.range' h.brk CHUNKS_PER_ALLOC := fun r c hc hm =>
    absurd (hs.bound r c hc) (Nat.not_lt.mpr (List.mem_range'_1.mp hm).1)
  have hrings : Rings (ringFrom h.next h.brk CHUNKS_PER_ALLOC)
      (Function.update L .empty (List.range' h.brk CHUNKS_PER_ALLOC)) :=
    hs.rings.extend hq circ_ringFrom List.nodup_range' hnew fun c hc => (ringFrom_of_notMem hc).symm
  refine ⟨hrings, fun r c hc => ?_, fun c hc => ?_, fun r => ?_, hs.small, fun c hc => ?_, hs.inj,
    hs.unheld, hs.below, hs.held⟩
  · rw [Function.update_apply] at hc
    split at hc
    · exact (List.mem_range'_1.mp hc).2
    · exact Nat.lt_add_right _ (hs.bound r c hc)
  · by_cases hold : c < h.brk
    · obtain ⟨r, hr⟩ := hs.placed c hold
      refine ⟨r, ?_⟩
      rw [Function.update_of_ne]
      · exact hr
      · intro he
        rw [he, hq] at hr
        cases hr
    · refine ⟨.empty, ?_⟩
      rw [Function.update_self]
      exact List.mem_range'_1.mpr ⟨Nat.not_lt.mp hold, hc⟩
  · rw [Function.update_apply]
    split
    · next hr =>
      have hempty : ∀ c ∈ List.range' h.brk CHUNKS_PER_ALLOC, ∀ n ∈ h.i c, n = 0 := by
        intro c hc n hn
        rw [hs.fresh c (List.mem_range'_1.mp hc).1] at hn
        cases hn
      rw [hr]
      exact Fits.of_empty rfl hempty hempty
    · exact ⟨(hs.fits r).first, (hs.fits r).rest, (hs.fits r).cls⟩
  · exact hs.fresh c (Nat.le_of_add_right_le hc)

/-- **New memory.** -/
theorem Stock.aligned_alloc (hs : Stock h L held) (n i : ℕ) :
    Stock (h.aligned_alloc n i) L held := by
  have hcls : ∀ b, b < h.node → (h.aligned_alloc n i).cls b = h.cls b := fun b hb =>
    if_neg fun hin => absurd hin.1 (Nat.not_le.mpr hb)
  refine ⟨hs.rings, hs.bound, hs.placed, fun p => ?_, hs.small, hs.fresh, hs.inj, hs.unheld,
    fun c k hk => ?_, fun b j hb => ?_⟩
  · refine ⟨(hs.fits p).first, (hs.fits p).rest, fun c hc k hk => ?_⟩
    exact (hcls _ (hs.below c k hk)).trans ((hs.fits p).cls c hc k hk)
  · exact Nat.lt_add_right _ (hs.below c k hk)
  · exact ⟨Nat.lt_add_right _ (hs.held b j hb).1, (hcls b (hs.held b j hb).1).trans (hs.held b j hb).2⟩

/-- The chunks of `l` have got the blocks from `node` on, and the rest of the heap is as before. -/
structure Filled (node sz : ℕ) (l : List Chunk) (h h' : Heap) : Prop where
  same : h' = { h with i := h'.i, blk := h'.blk }
  out : ∀ c, c ∉ l → h'.i c = h.i c ∧ h'.blk c = h.blk c
  full : ∀ c ∈ l, h'.i c = some BLKS_PER_CHUNK
  range : ∀ c ∈ l, ∀ k, k < BLKS_PER_CHUNK →
    node ≤ h'.blk c k ∧ h'.blk c k < node + l.length * (BLKS_PER_CHUNK * sz)
  inj : ∀ c ∈ l, ∀ d ∈ l, ∀ k j, k < BLKS_PER_CHUNK → j < BLKS_PER_CHUNK →
    h'.blk c k = h'.blk d j → c = d ∧ k = j

/-- The blocks of one chunk. -/
theorem fill_blk {sz : ℕ} {p : Chunk} {node : Block} {k : ℕ} (hk : k < BLKS_PER_CHUNK) :
    (h.fill sz p node).blk p k = node + k * sz := by
  rw [Heap.fill]
  dsimp only
  rw [Function.update_self, if_pos hk]

theorem fill_range {sz : ℕ} (hsz : 0 < sz) (h : Heap) (p : Chunk) (node : Block) {k : ℕ}
    (hk : k < BLKS_PER_CHUNK) :
    node ≤ (h.fill sz p node).blk p k ∧
      (h.fill sz p node).blk p k < node + BLKS_PER_CHUNK * sz := by
  rw [fill_blk hk]
  exact ⟨Nat.le_add_right _ _, Nat.add_lt_add_left (Nat.mul_lt_mul_of_pos_right hk hsz) _⟩

/-- **The loop of `get_filled_chunks`** returns after one pass over the ring. -/
theorem fill_chunks_spec {sz : ℕ} (hsz : 0 < sz) {first p : Chunk} {l : List Chunk} (node : Block)
    (hseg : Seg h.next p (p :: l) first) (hfirst : first ∉ l) (hnodup : (p :: l).Nodup) :
    ∃ h', fill_chunks sz first (p :: l).length p node h = some h' ∧ Filled node sz (p :: l) h h' := by
  induction l generalizing p node h with
  | nil =>
    have hlast : (h.fill sz p node).next p = first := hseg.2
    refine ⟨h.fill sz p node, ?_, rfl, fun c hc => ?_, fun c hc => ?_, fun c hc k hk => ?_,
      fun c hc d hd k j hk hj he => ?_⟩
    · rw [List.length_singleton, fill_chunks]
      exact if_pos hlast
    · have hne : c ≠ p := fun he => hc (he ▸ List.mem_cons_self)
      exact ⟨Function.update_of_ne hne _ _, Function.update_of_ne hne _ _⟩
    · rw [List.mem_singleton.mp hc]
      exact Function.update_self _ _ _
    · rw [List.mem_singleton.mp hc, List.length_singleton, Nat.one_mul]
      exact fill_range hsz h p node hk
    · rw [List.mem_singleton.mp hc, List.mem_singleton.mp hd, fill_blk hk, fill_blk hj] at he
      refine ⟨(List.mem_singleton.mp hc).trans (List.mem_singleton.mp hd).symm, ?_⟩
      exact Nat.eq_of_mul_eq_mul_right hsz (Nat.add_left_cancel he)
  | cons q l ih =>
    have hnext : (h.fill sz p node).next p = q := hseg.2.1
    have hseg' : Seg (h.fill sz p node).next q (q :: l) first := ⟨rfl, hseg.2.2⟩
    have hp : p ∉ q :: l := (List.nodup_cons.mp hnodup).1
    obtain ⟨h', hrun, hf⟩ := ih (h := h.fill sz p node) (node + BLKS_PER_CHUNK * sz) hseg'
      (fun hm => hfirst (List.mem_cons_of_mem _ hm)) (List.nodup_cons.mp hnodup).2
    have hpi : h'.i p = some BLKS_PER_CHUNK := (hf.out p hp).1.trans (Function.update_self _ _ _)
    have hpb : h'.blk p = (h.fill sz p node).blk p := (hf.out p hp).2
    have hlen : ∀ n : ℕ, (n + 1) * (BLKS_PER_CHUNK * sz) = BLKS_PER_CHUNK * sz + n * (BLKS_PER_CHUNK * sz) :=
      fun n => by rw [Nat.add_mul, Nat.one_mul, Nat.add_comm]
    have hsep : ∀ d ∈ q :: l, ∀ k j, k < BLKS_PER_CHUNK → j < BLKS_PER_CHUNK →
        h'.blk p k ≠ h'.blk d j := by
      intro d hd k j hk hj he
      have hle := (hf.range d hd j hj).1
      rw [← he, hpb] at hle
      exact absurd (fill_range hsz h p node hk).2 (Nat.not_lt.mpr hle)
    refine ⟨h', ?_, ?_, fun c hc => ?_, fun c hc => ?_, fun c hc k hk => ?_,
      fun c hc d hd k j hk hj he => ?_⟩
    · rw [List.length_cons, fill_chunks]
      have hne : ¬(h.fill sz p node).next p = first := by
        rw [hnext]
        exact fun he => hfirst (he ▸ List.mem_cons_self)
      rw [if_neg hne, hnext]
      exact hrun
    · rw [hf.same]
      rfl
    · have hcp : c ≠ p := fun he => hc (he ▸ List.mem_cons_self)
      have hcl := hf.out c fun hm => hc (List.mem_cons_of_mem _ hm)
      exact ⟨hcl.1.trans (Function.update_of_ne hcp _ _), hcl.2.trans (Function.update_of_ne hcp _ _)⟩
    · cases hc with
      | head => exact hpi
      | tail _ hc => exact hf.full c hc
    · rw [List.length_cons, hlen, ← Nat.add_assoc]
      cases hc with
      | head =>
        rw [hpb]
        have hr := fill_range hsz h p node hk
        exact ⟨hr.1, Nat.lt_add_right _ hr.2⟩
      | tail _ hc =>
        have hr := hf.range c hc k hk
        exact ⟨Nat.le_trans (Nat.le_add_right _ _) hr.1, hr.2⟩
    · cases hc with
      | head =>
        cases hd with
        | head =>
          rw [hpb, fill_blk hk, fill_blk hj] at he
          exact ⟨rfl, Nat.eq_of_mul_eq_mul_right hsz (Nat.add_left_cancel he)⟩
        | tail _ hd => exact absurd he (hsep d hd k j hk hj)
      | tail _ hc =>
        cases hd with
        | head => exact absurd he.symm (hsep c hc j k hj hk)
        | tail _ hd => exact hf.inj c hc d hd k j hk hj he

/-- **Chunks that have been filled** are those of a ring of their size class. -/
theorem Stock.filled {id node sz : ℕ} {l : List Chunk} (hs : Stock h L held) (hl : L .empty = l)
    (hq : L (.filled id) = []) (hf : Filled node sz l h h')
    (hlive : ∀ c k, h.Live c k → h.blk c k < node) (hheld : ∀ b i, held b = some i → b < node)
    (hroom : node + l.length * (BLKS_PER_CHUNK * sz) ≤ h.node)
    (hcls : ∀ b, node ≤ b → b < node + l.length * (BLKS_PER_CHUNK * sz) → h.cls b = some id) :
    Stock h' (regroup L .empty (.filled id) [] l) held := by
  have hnext : h'.next = h.next := by rw [hf.same]
  have hbrk : h'.brk = h.brk := by rw [hf.same]
  have hnode : h'.node = h.node := by rw [hf.same]
  have hclass : h'.cls = h.cls := by rw [hf.same]
  have hne : Place.empty ≠ .filled id := fun he => by cases he
  have hperm : ([] ++ l).Perm (L .empty ++ L (.filled id)) := by
    rw [hl, hq, List.append_nil, List.nil_append]
  have hcases : ∀ c k, h'.Live c k →
      (c ∈ l ∧ k < BLKS_PER_CHUNK) ∨ (c ∉ l ∧ h.Live c k ∧ h'.blk c k = h.blk c k) := by
    intro c k ⟨n, hn, hk⟩
    by_cases hc : c ∈ l
    · rw [hf.full c hc] at hn
      cases hn
      exact Or.inl ⟨hc, hk⟩
    · rw [(hf.out c hc).1] at hn
      exact Or.inr ⟨hc, ⟨n, hn, hk⟩, by rw [(hf.out c hc).2]⟩
  refine ⟨?_, fun r c hc => ?_, fun c hc => ?_, fun r => ?_, fun c n hn => ?_, fun c hc => ?_,
    fun c k d j hk hj he => ?_, fun c k hk => ?_, fun c k hk => ?_, fun b i hb => ?_⟩
  · rw [hnext]
    exact hs.rings.change hne hperm circ_nil (hl ▸ hs.rings.circ .empty) fun _ _ _ => rfl
  · rw [hbrk]
    rcases mem_regroup hne hperm hc with hm | ⟨-, hm | hm⟩
    · exact hs.bound r c hm
    · exact hs.bound .empty c hm
    · exact hs.bound (.filled id) c hm
  · rw [hbrk] at hc
    obtain ⟨r, hr⟩ := hs.placed c hc
    exact exists_mem_regroup hne hperm hr
  · by_cases hrq : r = .filled id
    · rw [hrq, regroup_right]
      refine Fits.of_all rfl (fun c hc => hf.full c hc) fun c hc k hk => ?_
      rcases hcases c k hk with ⟨-, hk'⟩ | ⟨hc', -⟩
      · rw [hclass]
        exact hcls _ (hf.range c hc k hk').1 (hf.range c hc k hk').2
      · exact absurd hc hc'
    · by_cases hrp : r = .empty
      · rw [hrp, regroup_left hne]
        exact Fits.nil
      · rw [regroup_of_ne hrp hrq]
        have hout : ∀ c ∈ L r, c ∉ l := fun c hc hm =>
          hrp (hs.rings.apart r .empty c hc (hl ▸ hm))
        refine ⟨fun c hc => ?_, fun c hc => ?_, fun c hc k hk => ?_⟩
        · rw [(hf.out c (hout c (List.mem_of_mem_head? hc))).1]
          exact (hs.fits r).first c hc
        · rw [(hf.out c (hout c (List.mem_of_mem_tail hc))).1]
          exact (hs.fits r).rest c hc
        · rcases hcases c k hk with ⟨hm, -⟩ | ⟨-, hk', hb⟩
          · exact absurd hm (hout c hc)
          · rw [hclass, hb]
            exact (hs.fits r).cls c hc k hk'
  · by_cases hc : c ∈ l
    · rw [hf.full c hc] at hn
      cases hn
      exact Nat.le_refl _
    · rw [(hf.out c hc).1] at hn
      exact hs.small c n hn
  · rw [hbrk] at hc
    have hm : c ∉ l := fun hm => absurd (hs.bound .empty c (hl ▸ hm)) (Nat.not_lt.mpr hc)
    rw [(hf.out c hm).1]
    exact hs.fresh c hc
  · rcases hcases c k hk with ⟨hc, hk'⟩ | ⟨-, hk', hb⟩
    · rcases hcases d j hj with ⟨hd, hj'⟩ | ⟨-, hj', hb'⟩
      · exact hf.inj c hc d hd k j hk' hj' he
      · have hlt := hlive d j hj'
        rw [← hb', ← he] at hlt
        exact absurd (hf.range c hc k hk').1 (Nat.not_le.mpr hlt)
    · rcases hcases d j hj with ⟨hd, hj'⟩ | ⟨-, hj', hb'⟩
      · have hlt := hlive c k hk'
        rw [← hb, he] at hlt
        exact absurd (hf.range d hd j hj').1 (Nat.not_le.mpr hlt)
      · exact hs.inj c k d j hk' hj' (hb.symm.trans (he.trans hb'))
  · rcases hcases c k hk with ⟨hc, hk'⟩ | ⟨-, hk', hb⟩
    · cases hh : held (h'.blk c k) with
      | none => rfl
      | some i => exact absurd (hf.range c hc k hk').1 (Nat.not_le.mpr (hheld _ i hh))
    · rw [hb]
      exact hs.unheld c k hk'
  · rw [hnode]
    rcases hcases c k hk with ⟨hc, hk'⟩ | ⟨-, hk', hb⟩
    · exact Nat.lt_of_lt_of_le (hf.range c hc k hk').2 hroom
    · rw [hb]
      exact hs.below c k hk'
  · rw [hnode, hclass]
    exact hs.held b i hb

end New

/-! ### Entries -/

section Entries

variable {h : Heap} {L : Place → List Chunk} {held : Block → Option ℕ} {p : Place} {c : Chunk}
  {l : List Chunk} {k id : ℕ} {b : Block}

theorem live_setI {n d j : ℕ} (hj : (h.setI c n).Live d j) :
    (d = c ∧ j < n) ∨ (d ≠ c ∧ h.Live d j) := by
  obtain ⟨m, hm, hlt⟩ := hj
  rw [Heap.setI] at hm
  dsimp only at hm
  rw [Function.update_apply] at hm
  split at hm
  · next hd =>
    cases hm
    exact Or.inl ⟨hd, hlt⟩
  · next hd => exact Or.inr ⟨hd, m, hm, hlt⟩

theorem setI_of_ne {n : ℕ} {d : Chunk} (hd : d ≠ c) : (h.setI c n).i d = h.i d :=
  Function.update_of_ne hd _ _

theorem setI_self {n : ℕ} : (h.setI c n).i c = some n := Function.update_self _ _ _

theorem Stock.first_notMem (hs : Stock h L held) (hc : L p = c :: l) : c ∉ l := by
  have hnodup := hs.rings.nodup p
  rw [hc] at hnodup
  exact (List.nodup_cons.mp hnodup).1

/-- What the other rings ask is not affected by a change of the first chunk of one. -/
theorem Stock.fits_of_first {h' : Heap} (hs : Stock h L held) (hc : L p = c :: l)
    (hi : ∀ d, d ≠ c → h'.i d = h.i d) (hblk : ∀ d, d ≠ c → h'.blk d = h.blk d) (hcls : h'.cls = h.cls)
    (hfirst : p.first (h'.i c)) (hlive : ∀ j, h'.Live c j → h.cls (h'.blk c j) = p.cls) (r : Place) :
    Fits h' r (L r) := by
  have hsame : ∀ d, d ≠ c → ∀ j, h'.Live d j → h.Live d j := by
    intro d hd j ⟨n, hn, hj⟩
    rw [hi d hd] at hn
    exact ⟨n, hn, hj⟩
  have hmem : c ∈ L p := by
    rw [hc]
    exact List.mem_cons_self
  have hrest : ∀ d ∈ (L r).tail, d ≠ c := by
    intro d hd he
    rw [he] at hd
    have hr : r = p := hs.rings.apart r p c (List.mem_of_mem_tail hd) hmem
    rw [hr, hc] at hd
    exact hs.first_notMem hc hd
  refine ⟨fun d hd => ?_, fun d hd => ?_, fun d hd j hj => ?_⟩
  · by_cases he : d = c
    · rw [he] at hd ⊢
      rw [hs.rings.apart r p c (List.mem_of_mem_head? hd) hmem]
      exact hfirst
    · rw [hi d he]
      exact (hs.fits r).first d hd
  · rw [hi d (hrest d hd)]
    exact (hs.fits r).rest d hd
  · rw [hcls]
    by_cases he : d = c
    · rw [he] at hd hj ⊢
      rw [hs.rings.apart r p c hd hmem]
      exact hlive j hj
    · rw [hblk d he]
      exact (hs.fits r).cls d hd j (hsame d he j hj)

/-- Entries are taken from the first chunk of a ring. -/
theorem Stock.setI {n : ℕ} {held' : Block → Option ℕ} (hs : Stock h L held) (hc : L p = c :: l)
    (hfirst : p.first (some n)) (hless : ∀ j, j < n → h.Live c j)
    (hunheld : ∀ d j, (h.setI c n).Live d j → held' (h.blk d j) = none)
    (hheld : ∀ b i, held' b = some i → b < h.node ∧ h.cls b = some i) :
    Stock (h.setI c n) L held' := by
  have hmem : c ∈ L p := by
    rw [hc]
    exact List.mem_cons_self
  have hlive : ∀ d j, (h.setI c n).Live d j → h.Live d j := by
    intro d j hj
    cases live_setI hj with
    | inl hd => exact hd.1 ▸ hless j hd.2
    | inr hd => exact hd.2
  refine ⟨hs.rings, hs.bound, hs.placed, fun r => ?_, fun d m hm => ?_, fun d hd => ?_, fun d j d' j' hj hj' he => ?_,
    hunheld, fun d j hj => hs.below d j (hlive d j hj), hheld⟩
  · refine hs.fits_of_first hc (fun d hd => setI_of_ne hd) (fun _ _ => rfl) rfl ?_ (fun j hj => ?_) r
    · rw [setI_self]
      exact hfirst
    · exact (hs.fits p).cls c hmem j (hlive c j hj)
  · cases m with
    | zero => exact Nat.zero_le _
    | succ m =>
      obtain ⟨m', hm', hlt⟩ := hlive d m ⟨m + 1, hm, Nat.lt_succ_self m⟩
      exact Nat.le_trans hlt (hs.small d m' hm')
  · rw [setI_of_ne]
    · exact hs.fresh d hd
    · exact fun he => absurd (hs.bound p c hmem) (Nat.not_lt.mpr (he ▸ hd))
  · exact hs.inj d j d' j' (hlive d j hj) (hlive d' j' hj') he

/-- **A block is given to a client.** -/
theorem Stock.pop (hs : Stock h L held) (hc : L p = c :: l) (hi : h.i c = some (k + 1))
    (hfirst : p.first (some k)) (hp : p.cls = some id) :
    Stock (h.setI c k) L (Function.update held (h.blk c k) (some id)) := by
  have hmem : c ∈ L p := by
    rw [hc]
    exact List.mem_cons_self
  have hlast : h.Live c k := ⟨k + 1, hi, Nat.lt_succ_self k⟩
  refine hs.setI hc hfirst (fun j hj => ⟨k + 1, hi, Nat.lt_succ_of_lt hj⟩) (fun d j hj => ?_)
    fun b i hb => ?_
  · have hj' : h.Live d j ∧ (d, j) ≠ (c, k) := by
      cases live_setI hj with
      | inl hd =>
        refine ⟨⟨k + 1, hd.1 ▸ hi, Nat.lt_succ_of_lt hd.2⟩, fun he => ?_⟩
        rw [(Prod.mk.inj he).2] at hd
        exact Nat.lt_irrefl k hd.2
      | inr hd => exact ⟨hd.2, fun he => hd.1 (Prod.mk.inj he).1⟩
    rw [Function.update_of_ne]
    · exact hs.unheld d j hj'.1
    · intro he
      have := hs.inj d j c k hj'.1 hlast he
      exact hj'.2 (Prod.ext this.1 this.2)
  · rw [Function.update_apply] at hb
    split at hb
    · next he =>
      cases hb
      rw [he]
      exact ⟨hs.below c k hlast, ((hs.fits p).cls c hmem k hlast).trans hp⟩
    · exact hs.held b i hb

/-- A chunk is emptied. -/
theorem Stock.clear (hs : Stock h L held) (hc : L p = c :: l) (hfirst : p.first (some 0)) :
    Stock (h.setI c 0) L held := by
  refine hs.setI hc hfirst (fun j hj => absurd hj (Nat.not_lt_zero j)) (fun d j hj => ?_) hs.held
  cases live_setI hj with
  | inl hd => exact absurd hd.2 (Nat.not_lt_zero j)
  | inr hd => exact hs.unheld d j hd.2

/-- **A block comes back.** -/
theorem Stock.push (hs : Stock h L held) (hc : L p = c :: l) (hi : h.i c = some k)
    (hk : k < BLKS_PER_CHUNK) (hfirst : p.first (some (k + 1))) (hp : p.cls = some id)
    (hb : held b = some id) :
    Stock ((h.setBlk c k b).setI c (k + 1)) L (Function.update held b none) := by
  have hmem : c ∈ L p := by
    rw [hc]
    exact List.mem_cons_self
  have hout : ∀ d, d ≠ c → ((h.setBlk c k b).setI c (k + 1)).blk d = h.blk d := fun d hd =>
    Function.update_of_ne hd _ _
  have hold : ∀ j, j ≠ k → ((h.setBlk c k b).setI c (k + 1)).blk c j = h.blk c j := fun j hj =>
    (congrFun (Function.update_self c _ h.blk) j).trans (Function.update_of_ne hj _ _)
  have hnew : ((h.setBlk c k b).setI c (k + 1)).blk c k = b :=
    (congrFun (Function.update_self c _ h.blk) k).trans (Function.update_self _ _ _)
  -- the entries are the old ones and the new one
  have hcases : ∀ d j, ((h.setBlk c k b).setI c (k + 1)).Live d j →
      (d = c ∧ j = k) ∨ (h.Live d j ∧ ((h.setBlk c k b).setI c (k + 1)).blk d j = h.blk d j) := by
    intro d j hj
    rcases live_setI hj with ⟨rfl, hlt⟩ | ⟨hd, hj⟩
    · by_cases he : j = k
      · exact Or.inl ⟨rfl, he⟩
      · exact Or.inr ⟨⟨k, hi, Nat.lt_of_le_of_ne (Nat.le_of_lt_succ hlt) he⟩, hold j he⟩
    · exact Or.inr ⟨hj, congrFun (hout d hd) j⟩
  have hfree : ∀ d j, h.Live d j → h.blk d j ≠ b := by
    intro d j hj he
    have := hs.unheld d j hj
    rw [he, hb] at this
    cases this
  refine ⟨hs.rings, hs.bound, hs.placed, fun r => ?_, fun d m hm => ?_, fun d hd => ?_, fun d j d' j' hj hj' he => ?_,
    fun d j hj => ?_, fun d j hj => ?_, fun b' i hb' => ?_⟩
  · have hi' : ∀ d, d ≠ c → ((h.setBlk c k b).setI c (k + 1)).i d = h.i d := fun d hd =>
      setI_of_ne hd
    refine hs.fits_of_first hc hi' hout rfl ?_ (fun j hj => ?_) r
    · rw [setI_self]
      exact hfirst
    · rcases hcases c j hj with ⟨-, rfl⟩ | ⟨hj', he⟩
      · rw [hnew, hp]
        exact (hs.held b id hb).2
      · rw [he]
        exact (hs.fits p).cls c hmem j hj'
  · by_cases hd : d = c
    · rw [hd, setI_self] at hm
      cases hm
      exact hk
    · rw [setI_of_ne hd] at hm
      exact hs.small d m hm
  · rw [setI_of_ne]
    · exact hs.fresh d hd
    · exact fun he => absurd (hs.bound p c hmem) (Nat.not_lt.mpr (he ▸ hd))
  · rcases hcases d j hj with ⟨rfl, rfl⟩ | ⟨hl, hbj⟩
    · rcases hcases d' j' hj' with ⟨rfl, rfl⟩ | ⟨hl', hbj'⟩
      · exact ⟨rfl, rfl⟩
      · rw [hnew, hbj'] at he
        exact absurd he.symm (hfree d' j' hl')
    · rcases hcases d' j' hj' with ⟨rfl, rfl⟩ | ⟨hl', hbj'⟩
      · rw [hnew, hbj] at he
        exact absurd he (hfree d j hl)
      · rw [hbj, hbj'] at he
        exact hs.inj d j d' j' hl hl' he
  · rcases hcases d j hj with ⟨rfl, rfl⟩ | ⟨hj, hbj⟩
    · rw [hnew]
      exact Function.update_self _ _ _
    · rw [hbj, Function.update_of_ne (hfree d j hj)]
      exact hs.unheld d j hj
  · rcases hcases d j hj with ⟨rfl, rfl⟩ | ⟨hj, hbj⟩
    · rw [hnew]
      exact (hs.held b id hb).1
    · rw [hbj]
      exact hs.below d j hj
  · rw [Function.update_apply] at hb'
    split at hb'
    · cases hb'
    · exact hs.held b' i hb'

end Entries

end ConcurrentPQ.Allocator

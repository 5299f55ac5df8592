import ConcurrentPQ.Linden.AllocatorCalls

/-!
# No block is handed out twice

* `Books` — the invariant between the calls;
* `gc_reclaim_spec`, `gc_enter_spec`, `gc_init_spec`, `critical_enter_spec` — the remaining calls;
* `pq_init_spec` — the allocators of `pq_init`;
* `Books.exec` — the step lemma;
* `sound_of_reachable` — **the allocator is sound after any sequence of calls**.
-/

namespace ConcurrentPQ.Allocator

open ConcurrentPQ.Transition ConcurrentPQ.Segment ConcurrentPQ.Circle ConcurrentPQ.Epoch

/-! ### Loops that return -/

/-- A loop over a range returns if each pass does. -/
theorem foldlM_range' {β : Type*} {f : β → ℕ → Option β} {P : ℕ → β → Prop} {m n : ℕ}
    (hstep : ∀ k b, m ≤ k → k < m + n → P k b → ∃ b', f b k = some b' ∧ P (k + 1) b') {b : β}
    (hb : P m b) : ∃ b', (List.range' m n).foldlM f b = some b' ∧ P (m + n) b' := by
  induction n generalizing m b with
  | zero => exact ⟨b, rfl, hb⟩
  | succ n ih =>
    obtain ⟨b₁, hb₁, hp₁⟩ := hstep m b (Nat.le_refl m) (by omega) hb
    obtain ⟨b', hb', hp'⟩ := ih (m := m + 1)
      (fun k b hk hk' => hstep k b (Nat.le_of_succ_le hk) (by omega)) hp₁
    refine ⟨b', ?_, by rwa [Nat.add_right_comm, Nat.add_assoc] at hp'⟩
    rw [List.range'_succ, List.foldlM_cons, hb₁]
    exact hb'

/-- A loop over a list keeps what each pass keeps; the property may be about the elements done. -/
theorem foldlM_list {α β : Type*} {f : β → α → Option β} {P : List α → β → Prop} {l done : List α}
    (hstep : ∀ done b, ∀ a ∈ l, P done b → ∃ b', f b a = some b' ∧ P (a :: done) b') {b : β}
    (hb : P done b) : ∃ b', l.foldlM f b = some b' ∧ P (l.reverse ++ done) b' := by
  induction l generalizing b done with
  | nil => exact ⟨b, rfl, hb⟩
  | cons a l ih =>
    obtain ⟨b₁, hb₁, hp₁⟩ := hstep done b a List.mem_cons_self hb
    obtain ⟨b', hb', hp'⟩ := ih (fun done b c hc => hstep done b c (List.mem_cons_of_mem _ hc)) hp₁
    refine ⟨b', ?_, ?_⟩
    · rw [List.foldlM_cons, hb₁]
      exact hb'
    · rw [List.reverse_cons, List.append_assoc]
      exact hp'

/-! ### The invariant -/

/-- The invariant between the calls. -/
structure Books (s : State) (L : Place → List Chunk) : Prop where
  shared : Shared s.heap s.global L s.held
  owns : ∀ t gc, s.ptst t = some gc → Owns t gc L
  unborn : ∀ t, s.ptst t = none → ∀ p, p.owner = some t → L p = []
  empty : L .empty = []
  filled : ∀ i, L (.filled i) = []
  sizes : s.global.nr_sizes ≤ MAX_SIZES
  noMain : ∀ i, s.global.nr_sizes ≤ i → L (.main i) = []
  noAlloc : ∀ t i, MAX_SIZES ≤ i → L (.alloc t i) = []
  listed : ∀ t, t ∈ s.ptst_list ↔ s.ptst t ≠ none
  quiet : s.global.inreclaim = 0

section Books

variable {s s' : State} {L L' : Place → List Chunk} {t : Tid} {gc gc' : Ptst} {h' : Heap} {g' : Global}
  {held' : Block → Option ℕ} {id : ℕ}

theorem Books.working (hb : Books s L) (ht : s.ptst t = some gc) :
    Working t s.heap s.global gc L s.held :=
  ⟨hb.shared, hb.owns t gc ht, hb.empty, hb.filled, hb.sizes⟩

/-- A call of a thread is finished. -/
theorem Books.of_working (hb : Books s L) (list : List Tid) (hw : Working t h' g' gc' L' held')
    (ha : Apart s.global.nr_sizes t L L') (hlist : ∀ u, u ∈ list ↔ u = t ∨ u ∈ s.ptst_list)
    (hg : g' = { s.global with alloc_size := g'.alloc_size }) :
    Books ⟨h', g', list, Function.update s.ptst t (some gc'), held'⟩ L' := by
  refine ⟨hw.shared, fun u gc hu => ?_, fun u hu p hp => ?_, hw.empty, hw.filled, hw.sizes,
    fun i hi => ?_, fun u i hi => ?_, fun u => ?_, ?_⟩
  · dsimp only at hu
    rw [Function.update_apply] at hu
    split at hu
    · next he =>
      cases hu
      rw [he]
      exact hw.owns
    · next he =>
      have ho := hb.owns u gc hu
      refine ⟨?_, fun i hi => ?_, fun e i => ?_, fun e i => ?_⟩
      · rw [ha (.cache u) he]
        exact ho.cache
      · rw [ha (.alloc u i) (Or.inl he)]
        exact ho.alloc i hi
      · rw [ha (.garbage u e i) he]
        exact ho.garbage e i
      · rw [ha (.garbage u e i) he]
        exact ho.tail e i
  · dsimp only at hu
    rw [Function.update_apply] at hu
    split at hu
    · cases hu
    · next he =>
      rw [ha p (Place.outside_of_owner hp he)]
      exact hb.unborn u hu p hp
  · rw [ha (.main i) (by rw [hg] at hi; exact hi)]
    exact hb.noMain i (by rw [hg] at hi; exact hi)
  · rw [ha (.alloc u i) (Or.inr hi)]
    exact hb.noAlloc u i hi
  · dsimp only
    rw [hlist, Function.update_apply, hb.listed]
    by_cases he : u = t
    · simp [he]
    · simp [he]
  · rw [hg]
    exact hb.quiet

/-- A thread that is listed already. -/
theorem Books.same_list (hb : Books s L) (ht : s.ptst t ≠ none) (u : Tid) :
    u ∈ s.ptst_list ↔ u = t ∨ u ∈ s.ptst_list := by
  refine ⟨Or.inr, fun hu => hu.elim (fun he => ?_) id⟩
  rw [he]
  exact (hb.listed t).mpr ht

/-- Only `count`, `epoch` and `entries_since_reclaim` of a thread change. -/
theorem Books.setPtst (hb : Books s L) (ht : s.ptst t = some gc) (ho : Owns t gc' L) :
    Books (s.setPtst t gc') L := by
  have hw := hb.working ht
  exact hb.of_working _ ⟨hw.shared, ho, hw.empty, hw.filled, hw.sizes⟩ Apart.refl
    (hb.same_list (by rw [ht]; exact Option.some_ne_none gc)) rfl

end Books

/-! ### The epochs -/

section Epochs

variable {s s' : State} {L L' : Place → List Chunk} {t : Tid} {gc gc' : Ptst} {b : Block} {e : ℕ}

theorem Books.mem_limbo (hb : Books s L) :
    b ∈ s.epochs.limbo e ↔
      ∃ t i c k, c ∈ L (.garbage t e i) ∧ s.heap.Live c k ∧ s.heap.blk c k = b := by
  constructor
  · intro ⟨t, gc, i, g, m, k, ht, hg, hk, hblk⟩
    have hhead := (hb.owns t gc ht).garbage e i
    rw [hg] at hhead
    have hmem := (hb.shared.stock.rings.circ _).iterate_mem (List.mem_of_mem_head? hhead) m
    exact ⟨t, i, _, k, hmem, hk, hblk⟩
  · intro ⟨t, i, c, k, hc, hk, hblk⟩
    cases ht : s.ptst t with
    | none =>
      rw [hb.unborn t ht _ rfl] at hc
      cases hc
    | some gc =>
      obtain ⟨g, l, hl⟩ := List.exists_cons_of_ne_nil (List.ne_nil_of_mem hc)
      have hhead := (hb.owns t gc ht).garbage e i
      have hcirc := hb.shared.stock.rings.circ (.garbage t e i)
      rw [hl] at hhead hcirc hc
      obtain ⟨m, rfl⟩ := hcirc.exists_iterate hc
      exact ⟨t, gc, i, g, m, k, ht, hhead.symm, hk, hblk⟩

/-- The blocks in the garbage ring of thread `t` for epoch `e` and size class `i`. -/
def State.garbage (s : State) (L : Place → List Chunk) (t : Tid) (e i : ℕ) : Set Block :=
  {b | ∃ c k, c ∈ L (.garbage t e i) ∧ s.heap.Live c k ∧ s.heap.blk c k = b}

/-- Nothing leaves the limbo of an epoch if its rings keep their chunks and these their entries. -/
theorem Books.limbo_subset (hb : Books s L) (hb' : Books s' L')
    (hkeep : ∀ t i c k, c ∈ L (.garbage t e i) → s.heap.Live c k →
      c ∈ L' (.garbage t e i) ∧ s'.heap.Live c k ∧ s'.heap.blk c k = s.heap.blk c k) :
    s.epochs.limbo e ⊆ s'.epochs.limbo e := by
  intro b hm
  obtain ⟨t, i, c, k, hc, hk, hblk⟩ := hb.mem_limbo.mp hm
  obtain ⟨hc', hk', hblk'⟩ := hkeep t i c k hc hk
  exact hb'.mem_limbo.mpr ⟨t, i, c, k, hc', hk', hblk'.trans hblk⟩

theorem reading_of_clock (h : gc'.clock = gc.clock) : gc'.reading = gc.reading := by
  obtain ⟨hcount, hrest⟩ := Prod.mk.inj h
  rw [Ptst.reading, Ptst.reading, hcount, (Prod.mk.inj hrest).1]

theorem calm_update {h : Heap} {g : Global} {list : List Tid} {held : Block → Option ℕ} (hs : s.Calm)
    (hgc : gc.entries_since_reclaim ≤ 100) :
    (State.mk h g list (Function.update s.ptst t (some gc)) held).Calm := by
  intro u gc' hu
  dsimp only at hu
  rw [Function.update_apply] at hu
  split at hu
  · cases hu
    exact hgc
  · exact hs u gc' hu

theorem reading_of (ht : s.ptst t = some gc) : s.epochs.reading t = gc.reading := by
  rw [State.epochs]
  dsimp only
  rw [ht]
  rfl

theorem reading_update {h : Heap} {g : Global} {list : List Tid} {held : Block → Option ℕ} {u : Tid} :
    (State.mk h g list (Function.update s.ptst t (some gc)) held).epochs.reading u =
      if u = t then gc.reading else s.epochs.reading u := by
  rw [State.epochs]
  dsimp only
  rw [Function.update_apply]
  split
  · rfl
  · rfl

/-- Only `count`, `epoch` and `entries_since_reclaim` of a thread change. -/
theorem Books.setPtst_local (hb : Books s L) (ht : s.ptst t = some gc) (ho : Owns t gc' L)
    (hown : gc'.reading = gc.reading ∨ gc'.reading = none ∨
      (gc.reading = none ∧ gc'.reading = some s.global.current)) :
    Local t s.epochs (s.setPtst t gc').epochs := by
  refine ⟨rfl, fun u hu => ?_, ?_, fun e => ?_⟩
  · rw [State.setPtst, reading_update, if_neg hu]
  · rw [State.setPtst, reading_update, if_pos rfl, reading_of ht]
    exact hown
  · exact hb.limbo_subset (hb.setPtst ht ho) fun t i c k hc hk => ⟨hc, hk, rfl⟩

end Epochs

/-! ### `gc_reclaim` -/

section Reclaim

variable {s s' s'' : State} {L L' L'' : Place → List Chunk} {t : Tid} {gc : Ptst} {e : ℕ}
  {ts ts' : List Tid}

/-- The garbage of epoch `e` of the threads `ts` has been reclaimed: what they see of it is other tails
of their garbage lists. -/
structure Reclaimed (e : ℕ) (ts : List Tid) (s s' : State) (L L' : Place → List Chunk) : Prop where
  books : Books s' L'
  ptst : ∀ u gc, s.ptst u = some gc →
    ∃ gc', s'.ptst u = some gc' ∧ gc' = { gc with garbage_tail := gc'.garbage_tail }
  unborn : ∀ u, s.ptst u = none → s'.ptst u = none
  same : s' = { s with heap := s'.heap, ptst := s'.ptst }
  entries : Entries s.heap s'.heap
  spares : ∀ u d i, d ≠ e → L' (.garbage u d i) = L (.garbage u d i)
  short : ∀ u ∈ ts, ∀ i, i < s.global.nr_sizes → (L' (.garbage u e i)).length ≤ 1
  recycles : Recycles s.global.nr_sizes L L'

theorem Reclaimed.refl (hb : Books s L) : Reclaimed e [] s s L L :=
  ⟨hb, fun _ gc hu => ⟨gc, hu, rfl⟩, fun _ hu => hu, rfl, Entries.refl, fun _ _ _ _ => rfl,
    fun _ hu => absurd hu List.not_mem_nil, Recycles.refl⟩

/-- The garbage lists of one thread. -/
theorem reclaim_thread_spec (hb : Books s L) (ht : s.ptst t ≠ none) :
    ∃ s' L', reclaim_thread e s t = some s' ∧ Reclaimed e [t] s s' L L' ∧
      ∀ u i, u ≠ t → L' (.garbage u e i) = L (.garbage u e i) := by
  obtain ⟨gc, hgc⟩ := Option.ne_none_iff_exists'.mp ht
  have hloop := foldlM_range' (f := reclaim_list e s.global) (m := 0) (n := s.global.nr_sizes)
    (P := fun n x => ∃ L', Working t x.1 s.global x.2 L' s.held ∧
      x.2 = { gc with garbage_tail := x.2.garbage_tail } ∧
      (∀ p, (∀ i, i < s.global.nr_sizes → p ≠ .main i ∧ p ≠ .filled i ∧ p ≠ .garbage t e i) →
        L' p = L p) ∧
      Entries s.heap x.1 ∧ Recycles s.global.nr_sizes L L' ∧
      ∀ i, i < n → (L' (.garbage t e i)).length ≤ 1) (b := (s.heap, gc)) ?_
    ⟨L, hb.working hgc, rfl, fun _ _ => rfl, Entries.refl, Recycles.refl,
      fun i hi => absurd hi (Nat.not_lt_zero i)⟩
  · obtain ⟨⟨h', gc'⟩, hrun, L', hw, hsame, hothers, hentries, hrecycles, hshort⟩ := hloop
    have ha : Apart s.global.nr_sizes t L L' := fun p hp => hothers p fun i hi => by
      refine ⟨fun he => ?_, fun he => ?_, fun he => ?_⟩
      · rw [he] at hp
        exact absurd hi (Nat.not_lt.mpr hp)
      · rw [he] at hp
        exact hp
      · rw [he] at hp
        exact hp rfl
    refine ⟨_, L', ?_, ⟨hb.of_working _ hw ha (hb.same_list ht) rfl, fun u gc₁ hu => ?_,
      fun u hu => ?_, rfl, hentries, fun u d i hd => hothers _ fun j _ => ?_, fun u hu i hi => ?_,
      hrecycles⟩, fun u i hu => ha (.garbage u e i) hu⟩
    · rw [reclaim_thread, hgc, Option.bind_eq_bind, Option.bind_some, List.range_eq_range', hrun]
      rfl
    · dsimp only
      rw [Function.update_apply]
      split
      · next he =>
        rw [he, hgc] at hu
        cases hu
        exact ⟨gc', rfl, hsame⟩
      · exact ⟨gc₁, hu, rfl⟩
    · dsimp only
      rw [Function.update_of_ne]
      · exact hu
      · intro he
        rw [he, hgc] at hu
        cases hu
    · simp [hd]
    · rw [List.mem_singleton.mp hu]
      exact hshort i (by rw [Nat.zero_add]; exact hi)
  · intro i ⟨h₁, gc₁⟩ _ hi ⟨L₁, hw, hsame, hothers, hentries, hrecycles, hshort⟩
    obtain ⟨h₂, gc₂, L₂, hrun, hw₂, hsame₂, hothers₂, hentries₂, hshort₂, hrecycles₂⟩ :=
      reclaim_list_spec (e := e) hw (by rwa [Nat.zero_add] at hi)
    refine ⟨(h₂, gc₂), hrun, L₂, hw₂, ?_, fun p hp => ?_, hentries.trans hentries₂,
      hrecycles.trans hrecycles₂, fun j hj => ?_⟩
    · dsimp only at hsame ⊢
      rw [hsame₂, hsame]
    · rw [hothers₂ p (by simp [hp i (by rwa [Nat.zero_add] at hi)]), hothers p hp]
    · by_cases he : j = i
      · rw [he]
        exact hshort₂
      · rw [hothers₂ _ (by simp [he])]
        exact hshort j (Nat.lt_of_le_of_ne (Nat.le_of_lt_succ hj) he)

theorem Reclaimed.trans (h₁ : Reclaimed e ts s s' L L') (h₂ : Reclaimed e [t] s' s'' L' L'')
    (hothers : ∀ u i, u ≠ t → L'' (.garbage u e i) = L' (.garbage u e i)) :
    Reclaimed e (t :: ts) s s'' L L'' := by
  refine ⟨h₂.books, fun u gc hu => ?_, fun u hu => h₂.unborn u (h₁.unborn u hu), ?_,
    h₁.entries.trans h₂.entries, fun u d i hd => (h₂.spares u d i hd).trans (h₁.spares u d i hd),
    fun u hu i hi => ?_, h₁.recycles.trans (by rw [h₁.same] at h₂; exact h₂.recycles)⟩
  · obtain ⟨gc₁, hgc₁, he₁⟩ := h₁.ptst u gc hu
    obtain ⟨gc₂, hgc₂, he₂⟩ := h₂.ptst u gc₁ hgc₁
    refine ⟨gc₂, hgc₂, ?_⟩
    rw [he₂, he₁]
  · rw [h₂.same, h₁.same]
  · by_cases hut : u = t
    · rw [hut]
      exact h₂.short t List.mem_cons_self i (by rw [h₁.same]; exact hi)
    · rw [hothers u i hut]
      exact h₁.short u (List.mem_of_ne_of_mem hut hu) i hi

/-- **A pass over the threads**: no thread is behind, and the epoch advances. -/
structure Passed (s s' : State) (L L' : Place → List Chunk) : Prop where
  level : s.ptst_list.any s.behind = false
  current : s'.global.current = (s.global.current + 1) % NR_EPOCHS
  sizes : s'.global.nr_sizes = s.global.nr_sizes
  held : s'.held = s.held
  list : s'.ptst_list = s.ptst_list
  books : Books s' L'
  ptst : ∀ u gc, s.ptst u = some gc →
    ∃ gc', s'.ptst u = some gc' ∧ gc' = { gc with garbage_tail := gc'.garbage_tail }
  unborn : ∀ u, s.ptst u = none → s'.ptst u = none
  entries : Entries s.heap s'.heap
  spares : ∀ u d i, d ≠ (s.global.current + 1) % NR_EPOCHS → L' (.garbage u d i) = L (.garbage u d i)
  short : ∀ u i, i < s.global.nr_sizes →
    (L' (.garbage u ((s.global.current + 1) % NR_EPOCHS) i)).length ≤ 1
  recycles : Recycles s.global.nr_sizes L L'

/-- **`gc_reclaim`** returns: it gives up because a thread is behind, or it passes. -/
theorem gc_reclaim_spec (hb : Books s L) :
    (s.ptst_list.any s.behind = true ∧ gc_reclaim s = some s) ∨
      ∃ s' L', gc_reclaim s = some s' ∧ Passed s s' L L' := by
  rw [gc_reclaim, if_neg (fun hne => hne hb.quiet)]
  cases hbehind : s.ptst_list.any s.behind with
  | true => exact Or.inl ⟨rfl, rfl⟩
  | false =>
    right
    obtain ⟨s', hrun, L', hr⟩ := foldlM_list (f := reclaim_thread ((s.global.current + 1) % NR_EPOCHS))
      (l := s.ptst_list) (P := fun ts x => ∃ L', Reclaimed ((s.global.current + 1) % NR_EPOCHS) ts s x L L')
      (b := s) (fun ts s₁ u hu ⟨L₁, hr⟩ => by
        have hborn : s₁.ptst u ≠ none := by
          obtain ⟨gc, hgc⟩ := Option.ne_none_iff_exists'.mp ((hb.listed u).mp hu)
          obtain ⟨gc', hgc', -⟩ := hr.ptst u gc hgc
          exact Option.ne_none_iff_exists'.mpr ⟨gc', hgc'⟩
        obtain ⟨s₂, L₂, hrun, hr₂, hothers⟩ := reclaim_thread_spec hr.books hborn
        exact ⟨s₂, hrun, L₂, hr.trans hr₂ hothers⟩) ⟨L, Reclaimed.refl hb⟩
    rw [List.append_nil] at hr
    have hb' := hr.books
    have hglobal : s'.global = s.global := by rw [hr.same]
    refine ⟨{ s' with
      global := { s'.global with current := (s.global.current + 1) % NR_EPOCHS } }, L', ?_,
      ⟨hbehind, rfl, ?_, ?_, ?_, ⟨⟨hb'.shared.stock, hb'.shared.free, hb'.shared.main, hb'.shared.size⟩,
        hb'.owns, hb'.unborn, hb'.empty, hb'.filled, hb'.sizes, hb'.noMain, hb'.noAlloc, hb'.listed,
        hb'.quiet⟩, hr.ptst,
        hr.unborn, hr.entries, hr.spares, fun u i hi => ?_, hr.recycles⟩⟩
    · rw [if_neg (by simp)]
      dsimp only
      rw [hrun]
      rfl
    · rw [hr.same]
    · rw [hr.same]
    · rw [hr.same]
    · by_cases hu : u ∈ s.ptst_list
      · exact hr.short u (List.mem_reverse.mpr hu) i hi
      · have hborn : s.ptst u = none := not_not.mp fun hne => hu ((hb.listed u).mpr hne)
        rw [hb'.unborn u (hr.unborn u hborn) _ rfl]
        exact Nat.zero_le 1

theorem Passed.calm (hp : Passed s s' L L') (hs : s.Calm) : s'.Calm := by
  intro u gc hu
  cases hold : s.ptst u with
  | none =>
    rw [hp.unborn u hold] at hu
    cases hu
  | some gc₀ =>
    obtain ⟨gc', hgc', he⟩ := hp.ptst u gc₀ hold
    rw [hu] at hgc'
    cases hgc'
    rw [he]
    exact hs u gc₀ hold

/-- **A pass is an advance of the epoch.** -/
theorem Passed.advance (hp : Passed s s' L L') (hb : Books s L) : Advance 3 s.epochs s'.epochs := by
  have hreading : s'.epochs.reading = s.epochs.reading := by
    funext u
    cases hu : s.ptst u with
    | none =>
      rw [State.epochs, State.epochs]
      dsimp only
      rw [hu, hp.unborn u hu]
    | some gc =>
      obtain ⟨gc', hgc', he⟩ := hp.ptst u gc hu
      rw [reading_of hu, reading_of hgc', he]
      rfl
  refine ⟨fun u d hd => ?_, hp.current, hreading, fun d hd => ?_⟩
  · cases hu : s.ptst u with
    | none =>
      rw [State.epochs] at hd
      dsimp only at hd
      rw [hu] at hd
      cases hd
    | some gc =>
      have hlist := (hb.listed u).mpr (by rw [hu]; exact Option.some_ne_none gc)
      have hbehind := List.any_eq_false.mp hp.level u hlist
      rw [reading_of hu, Ptst.reading] at hd
      rw [State.behind, hu] at hbehind
      by_cases hcount : 1 < gc.count
      · rw [if_pos hcount] at hd
        cases hd
        simp only [hcount, true_and, decide_eq_true_eq, not_not] at hbehind
        exact hbehind
      · rw [if_neg hcount] at hd
        cases hd
  · refine hb.limbo_subset hp.books fun u i c k hc hk => ?_
    rw [hp.spares u d i hd]
    exact ⟨hc, hp.entries c k hk⟩

/-! ### `gc_enter` -/

/-- `gc_enter` has returned. -/
structure Entered (t : Tid) (s s' : State) (L : Place → List Chunk) : Prop where
  books : Books s' L
  ptst : s'.ptst t ≠ none
  sizes : s'.global.nr_sizes = s.global.nr_sizes
  held : s'.held = s.held
  entries : Entries s.heap s'.heap
  turn : Turn 3 t s.epochs s'.epochs
  fresh : (∀ gc, s.ptst t = some gc → gc.count = 1) → s'.Inside t
  unborn : ∀ u, u ≠ t → s.ptst u = none → s'.ptst u = none
  calm : s.Calm → s'.Calm

theorem Books.entered {gc' : Ptst} (hb : Books s L) (ht : s.ptst t = some gc) (ho : Owns t gc' L)
    (hown : gc'.reading = gc.reading ∨ gc'.reading = none ∨
      (gc.reading = none ∧ gc'.reading = some s.global.current))
    (hnew : gc.count = 1 → gc'.reading = some gc'.epoch)
    (hcalm : gc.entries_since_reclaim ≤ 100 → gc'.entries_since_reclaim ≤ 100) :
    Entered t s (s.setPtst t gc') L ∧ Local t s.epochs (s.setPtst t gc').epochs := by
  have hlocal := hb.setPtst_local ht ho hown
  refine ⟨⟨hb.setPtst ht ho, fun he => ?_, rfl, rfl, Entries.refl, hlocal.turn, fun hout => ?_,
    fun u hu hborn => (Function.update_of_ne hu _ _).trans hborn,
    fun hs => calm_update hs (hcalm (hs t gc ht))⟩, hlocal⟩
  · rw [State.setPtst] at he
    dsimp only at he
    rw [Function.update_self] at he
    cases he
  · rw [State.Inside, State.setPtst, reading_update, if_pos rfl, hnew (hout gc ht)]
    exact Option.some_ne_none _

theorem entries_succ {n : UInt32} (hle : n ≤ 100) (hne : n ≠ 100) : n + 1 ≤ 100 := by
  rw [UInt32.le_iff_toNat_le] at hle ⊢
  have hnat : n.toNat ≠ 100 := fun he => hne (UInt32.toNat_inj.mp he)
  rw [UInt32.toNat_add]
  simp only [UInt32.reduceToNat] at hle ⊢
  omega

/-- A thread that is not in a critical section enters one. -/
theorem reading_enter (gc' : Ptst) (hgc : gc.count = 1) (hcount : gc'.count = gc.count + 1) :
    gc.reading = none ∧ gc'.reading = some gc'.epoch := by
  rw [Ptst.reading, Ptst.reading, hcount, hgc]
  exact ⟨if_neg (by decide), if_pos (by decide)⟩

/-- A thread that has entered a critical section enters another one inside it. -/
theorem reading_nested (gc' : Ptst) (hgc : gc.count ≠ 1) (hcount : gc'.count = gc.count + 1)
    (hepoch : gc'.epoch = gc.epoch) : gc'.reading = gc.reading ∨ gc'.reading = none := by
  rw [Ptst.reading, Ptst.reading, hcount, hepoch]
  by_cases hwrap : 1 < gc.count + 1
  · left
    have hin : 1 < gc.count := by
      rw [UInt32.lt_iff_toNat_lt] at hwrap ⊢
      have hne : gc.count.toNat ≠ 1 := fun he => hgc (UInt32.toNat_inj.mp he)
      rw [UInt32.toNat_add] at hwrap
      have hlt := gc.count.toNat_lt
      simp only [UInt32.reduceToNat] at hwrap ⊢
      omega
    rw [if_pos hwrap, if_pos hin]
  · exact Or.inr (if_neg hwrap)

/-- An attempt that is the last, as no reclamation is due. -/
theorem gc_enter_last (hb : Books s L) (ht : s.ptst t = some gc)
    (hlast : ¬(gc.count = 1 ∧ gc.epoch = s.global.current ∧ gc.entries_since_reclaim = 100)) (n : ℕ) :
    ∃ s', gc_enter t (n + 1) s = some s' ∧ Entered t s s' L ∧ Local t s.epochs s'.epochs := by
  have ho := hb.owns t gc ht
  rw [gc_enter, ht, Option.bind_eq_bind, Option.bind_some]
  dsimp only
  by_cases hcnt : gc.count = 1
  · rw [if_pos hcnt]
    by_cases hepoch : gc.epoch = s.global.current
    · rw [if_neg (not_not.mpr hepoch), if_neg fun he => hlast ⟨hcnt, hepoch, he⟩]
      have hin := reading_enter { gc with
        count := gc.count + 1, entries_since_reclaim := gc.entries_since_reclaim + 1 } hcnt rfl
      exact ⟨_, rfl, hb.entered ht ⟨ho.cache, ho.alloc, ho.garbage, ho.tail⟩
        (Or.inr (Or.inr ⟨hin.1, hepoch ▸ hin.2⟩)) (fun _ => hin.2)
        fun hle => entries_succ hle fun he => hlast ⟨hcnt, hepoch, he⟩⟩
    · rw [if_pos hepoch]
      have hin := reading_enter { gc with
        count := gc.count + 1, epoch := s.global.current, entries_since_reclaim := 0 } hcnt rfl
      exact ⟨_, rfl, hb.entered ht ⟨ho.cache, ho.alloc, ho.garbage, ho.tail⟩
        (Or.inr (Or.inr hin)) (fun _ => hin.2) fun _ => UInt32.zero_le⟩
  · rw [if_neg hcnt]
    have hown := reading_nested { gc with count := gc.count + 1 } hcnt rfl rfl
    exact ⟨_, rfl, hb.entered ht ⟨ho.cache, ho.alloc, ho.garbage, ho.tail⟩ (hown.imp_right Or.inl)
      (fun he => absurd he hcnt) id⟩

/-- **`gc_enter`** returns: it reclaims once at most. -/
theorem gc_enter_spec (hb : Books s L) (ht : s.ptst t = some gc) :
    ∃ s' L', gc_enter t 2 s = some s' ∧ Entered t s s' L' := by
  by_cases hdue : gc.count = 1 ∧ gc.epoch = s.global.current ∧ gc.entries_since_reclaim = 100
  · obtain ⟨hcnt, hepoch, hlast⟩ := hdue
    have ho : Owns t { gc with entries_since_reclaim := 0 } L := by
      have ho := hb.owns t gc ht
      exact ⟨ho.cache, ho.alloc, ho.garbage, ho.tail⟩
    have hb₀ := hb.setPtst ht ho
    have hgrow : Grow s.epochs (s.setPtst t { gc with entries_since_reclaim := 0 }).epochs := by
      have hl := hb.setPtst_local ht ho (Or.inl rfl)
      refine ⟨rfl, funext fun u => ?_, hl.limbo⟩
      rw [State.setPtst, reading_update]
      split
      · next hu => rw [hu, reading_of ht]; rfl
      · rfl
    have hgc₀ : (s.setPtst t { gc with entries_since_reclaim := 0 }).ptst t =
        some { gc with entries_since_reclaim := 0 } := Function.update_self _ _ _
    have hstart : ∀ s₁, gc_reclaim (s.setPtst t { gc with entries_since_reclaim := 0 }) = some s₁ →
        gc_enter t 2 s = gc_enter t 1 s₁ := by
      intro s₁ hrun
      rw [gc_enter, ht, Option.bind_eq_bind, Option.bind_some]
      dsimp only
      rw [if_pos hcnt, if_neg (not_not.mpr hepoch), if_pos hlast, hrun]
      rfl
    rcases gc_reclaim_spec hb₀ with ⟨-, hrun⟩ | ⟨s₁, L₁, hrun, hp⟩
    · obtain ⟨s', hrun', he, -⟩ := gc_enter_last hb₀ hgc₀
        (fun h => absurd (show (0 : UInt32) = 100 from h.2.2) (by decide)) 0
      refine ⟨s', L, (hstart _ hrun).trans hrun', he.books, he.ptst, he.sizes, he.held, he.entries,
        hgrow.then_turn he.turn, fun _ => he.fresh fun gc' hgc' => ?_, fun u hu hborn =>
          he.unborn u hu ((Function.update_of_ne hu _ _).trans hborn), fun hs =>
            he.calm (calm_update hs UInt32.zero_le)⟩
      rw [hgc₀] at hgc'
      cases hgc'
      exact hcnt
    · obtain ⟨gc₁, hgc₁, hsame⟩ := hp.ptst t _ hgc₀
      have hzero : gc₁.entries_since_reclaim = 0 := by rw [hsame]
      obtain ⟨s', hrun', he, hl⟩ := gc_enter_last hp.books hgc₁
        (fun h => absurd h.2.2 (by rw [hzero]; decide)) 0
      refine ⟨s', L₁, (hstart _ hrun).trans hrun', he.books, he.ptst, he.sizes.trans hp.sizes,
        he.held.trans hp.held, hp.entries.trans he.entries,
        ⟨s₁.epochs, Or.inr (hgrow.then_advance (hp.advance hb₀)), hl⟩, fun _ => he.fresh fun gc' hgc' => ?_,
        fun u hu hborn => he.unborn u hu (hp.unborn u ((Function.update_of_ne hu _ _).trans hborn)),
        fun hs => he.calm (hp.calm (calm_update hs UInt32.zero_le))⟩
      rw [hgc₁] at hgc'
      cases hgc'
      rw [hsame]
      exact hcnt
  · obtain ⟨s', hrun, he, -⟩ := gc_enter_last hb ht hdue 1
    exact ⟨s', L, hrun, he⟩

end Reclaim

/-! ### A new thread -/

section Init

variable {s : State} {L L₀ L₁ L₂ : Place → List Chunk} {held : Block → Option ℕ} {t : Tid} {k : ℕ}
  {h h' h₀ : Heap} {g g' g₀ : Global} {gc : Ptst}

/-- A thread with allocation rings for the first `k` sizes. -/
structure Rising (t : Tid) (k : ℕ) (h₀ : Heap) (g₀ : Global) (L₀ : Place → List Chunk)
    (held : Block → Option ℕ) (h : Heap) (g : Global) (gc : Ptst) (L : Place → List Chunk) : Prop where
  shared : Shared h g L held
  cache : (L (.cache t)).head? = some gc.chunk_cache
  done : ∀ i, i < k → (L (.alloc t i)).head? = some (gc.alloc i)
  todo : ∀ i, k ≤ i → L (.alloc t i) = []
  garbage : ∀ e i, L (.garbage t e i) = [] ∧ gc.garbage e i = none ∧ gc.garbage_tail e i = none
  empty : L .empty = []
  filled : ∀ i, L (.filled i) = []
  same : g = { g₀ with alloc_size := g.alloc_size }
  apart : Apart g₀.nr_sizes t L₀ L
  count : gc.count = 1
  entries : Entries h₀ h
  calm : gc.entries_since_reclaim = 0

/-- The ring for the next size. -/
theorem Rising.next (hr : Rising t k h₀ g₀ L₀ held h g gc L₁) (cache c : Chunk) (hs : Shared h' g' L₂ held)
    (hg : g' = { g with alloc_size := g'.alloc_size }) (hcache : (L₂ (.cache t)).head? = some cache)
    (hc : (L₂ (.alloc t k)).head? = some c)
    (hothers : Same [.free, .main k, .cache t, .alloc t k] L₁ L₂)
    (hapart : Apart g₀.nr_sizes t L₁ L₂) (hentries : Entries h h') :
    Rising t (k + 1) h₀ g₀ L₀ held h' g'
      { gc with chunk_cache := cache, alloc := Function.update gc.alloc k c } L₂ := by
  refine ⟨hs, hcache, fun i hi => ?_, fun i hi => ?_, fun e i => ?_, ?_, fun i => ?_, ?_, ?_, hr.count,
    hr.entries.trans hentries, hr.calm⟩
  · show _ = some (Function.update gc.alloc k c i)
    rw [Function.update_apply]
    split
    · next he =>
      rw [he]
      exact hc
    · next he =>
      rw [hothers _ (by simp [he])]
      exact hr.done i (Nat.lt_of_le_of_ne (Nat.le_of_lt_succ hi) he)
  · rw [hothers _ (by simpa using Nat.ne_of_gt hi)]
    exact hr.todo i (Nat.le_of_succ_le hi)
  · rw [hothers _ (by simp)]
    exact hr.garbage e i
  · rw [hothers _ (by simp)]
    exact hr.empty
  · rw [hothers _ (by simp)]
    exact hr.filled i
  · rw [hg, hr.same]
  · exact hr.apart.trans hapart

theorem init_alloc_spec (hr : Rising t k h₀ g₀ L₀ held h g gc L₁) (hk : k < g₀.nr_sizes)
    (hmax : g₀.nr_sizes ≤ MAX_SIZES) :
    ∃ h' g' gc' L₂, init_alloc (h, g, gc) k = some (h', g', gc') ∧
      Rising t (k + 1) h₀ g₀ L₀ held h' g' gc' L₂ := by
  have hkg : k < g.nr_sizes := by
    rw [hr.same]
    exact hk
  obtain ⟨c, h₁, g₁, L₂, hrun, hgot⟩ := hr.shared.get_alloc_chunk hkg hr.empty (hr.filled k)
  have hp : Place.filled k ≠ .alloc t k := by simp
  have halloc : L₂ (.alloc t k) = [] := by
    rw [hgot.others _ (by simp)]
    exact hr.todo k (Nat.le_refl k)
  have hfc := hgot.shared.stock.fits (.filled k)
  rw [hgot.chunk] at hfc
  have hmove := hgot.shared.stock.move hp halloc (by
    rw [hgot.chunk]
    exact ⟨fun d hd => ⟨_, hfc.first d hd⟩, fun d hd => absurd hd List.not_mem_nil, hfc.cls⟩)
  have hothers : Same [.free, .main k, .cache t, .alloc t k] L₁
      (regroup L₂ (.filled k) (.alloc t k) [] (L₂ (.filled k))) := by
    intro r hr'
    simp only [List.mem_cons, List.not_mem_nil, or_false, not_or] at hr'
    by_cases he : r = .filled k
    · rw [he, regroup_left hp, hr.filled k]
    · rw [regroup_of_ne he hr'.2.2.2, hgot.others r (by simp [hr', he])]
  refine ⟨h₁, g₁, _, _, ?_, hr.next gc.chunk_cache c ⟨hmove, ?_, fun i hi => ?_,
    hgot.shared.size⟩ hgot.same ?_ ?_ hothers
    (hothers.apart (by simp [Place.Outside, hk, Nat.lt_of_lt_of_le hk hmax])) (hr.shared.stock.entries hgot.keeps)⟩
  · rw [init_alloc, hrun]
    rfl
  · rw [regroup_of_ne (by simp) (by simp)]
    exact hgot.shared.free
  · rw [regroup_of_ne (by simp) (by simp)]
    exact hgot.shared.main i hi
  · rw [regroup_of_ne (by simp) (by simp), hgot.others _ (by simp)]
    exact hr.cache
  · rw [regroup_right, hgot.chunk]
    rfl

theorem init_unused_spec (hr : Rising t k h₀ g₀ L₀ held h g gc L₁) (hk : k < MAX_SIZES) :
    ∃ h' gc' L₂, init_unused g.free_chunks (h, gc) k = some (h', gc') ∧
      Rising t (k + 1) h₀ g₀ L₀ held h' g gc' L₂ := by
  obtain ⟨c, cache, h₁, L₂, hrun, hgot⟩ := chunk_from_cache_spec hr.shared hr.cache hr.empty
  have hp : Place.empty ≠ .alloc t k := by simp
  have halloc : L₂ (.alloc t k) = [] := by
    rw [hgot.others _ (by simp)]
    exact hr.todo k (Nat.le_refl k)
  have hfc := hgot.shared.stock.fits .empty
  rw [hgot.chunk] at hfc
  have hmove := hgot.shared.stock.move hp halloc (by
    rw [hgot.chunk]
    exact ⟨fun d hd => by cases hd; exact ⟨0, hgot.zero⟩, fun d hd => absurd hd List.not_mem_nil,
      fun d hd j hj => absurd hj (not_live (hfc.all rfl hd) j)⟩)
  have hothers : Same [.free, .cache t, .alloc t k] L₁
      (regroup L₂ .empty (.alloc t k) [] (L₂ .empty)) := by
    intro r hr'
    simp only [List.mem_cons, List.not_mem_nil, or_false, not_or] at hr'
    by_cases he : r = .empty
    · rw [he, regroup_left hp, hr.empty]
    · rw [regroup_of_ne he hr'.2.2, hgot.others r (by simp [hr', he])]
  refine ⟨h₁, _, _, ?_, hr.next cache c ⟨hmove, ?_, fun i hi => ?_,
    hr.shared.size⟩ rfl ?_ ?_ (hothers.mono (by simp))
    (hothers.apart (by simp [Place.Outside, hk])) (hgot.entries hr.shared)⟩
  · rw [init_unused, hrun]
    rfl
  · rw [regroup_of_ne (by simp) (by simp)]
    exact hgot.shared.free
  · rw [regroup_of_ne (by simp) (by simp)]
    exact hgot.shared.main i hi
  · rw [regroup_of_ne (by simp) (by simp)]
    exact hgot.cache
  · rw [regroup_right, hgot.chunk]
    rfl

/-- **`gc_init`** returns. -/
theorem gc_init_spec (hb : Books s L) (ht : s.ptst t = none) :
    ∃ h' g' gc' L', gc_init s.heap s.global = some (h', g', gc') ∧
      Working t h' g' gc' L' s.held ∧ Apart s.global.nr_sizes t L L' ∧
        g' = { s.global with alloc_size := g'.alloc_size } ∧ gc'.count = 1 ∧ Entries s.heap h' ∧
        gc'.entries_since_reclaim = 0 := by
  have hborn := hb.unborn t ht
  obtain ⟨rh, h₁, L₁, hrun, hgot⟩ :=
    hb.shared.stock.get_empty_chunks hb.shared.free hb.empty (n := 100) (by decide)
  have hp : Place.empty ≠ .cache t := by simp
  have hfc := hgot.stock.fits .empty
  have hmove := hgot.stock.move (q := .cache t) hp (by rw [hgot.others _ (by simp), hborn _ rfl])
    ⟨hfc.first, hfc.rest, hfc.cls⟩
  have hothers : Same [.free, .empty, .cache t] L (regroup L₁ .empty (.cache t) [] (L₁ .empty)) :=
    (hgot.others.mono (by simp)).trans (same_regroup.mono (by simp))
  have hstart : Rising t 0 s.heap s.global L s.held h₁ s.global
      ⟨1, 0, 0, fun _ _ => none, fun _ _ => none, rh, fun _ => 0, fun _ => 0⟩
      (regroup L₁ .empty (.cache t) [] (L₁ .empty)) := by
    refine ⟨⟨hmove, ?_, fun i hi => ?_, hb.shared.size⟩, ?_, fun i hi => absurd hi (Nat.not_lt_zero i),
      fun i _ => ?_, fun e i => ⟨?_, rfl, rfl⟩, regroup_left hp, fun i => ?_, rfl,
      hothers.apart (by simp [Place.Outside]), rfl, ?_, rfl⟩
    · rw [regroup_of_ne (by simp) (by simp)]
      exact hgot.free
    · rw [hothers _ (by simp)]
      exact hb.shared.main i hi
    · rw [regroup_right]
      exact hgot.ring
    · rw [hothers _ (by simp)]
      exact hborn _ rfl
    · rw [hothers _ (by simp)]
      exact hborn _ rfl
    · rw [hothers _ (by simp)]
      exact hb.filled i
    · rw [hgot.same]
      exact Entries.of_eq rfl rfl
  obtain ⟨⟨h₂, g₂, gc₂⟩, hrun₂, L₂, hr₂⟩ := foldlM_range' (f := init_alloc) (m := 0)
    (n := s.global.nr_sizes) (P := fun k x => ∃ L', Rising t k s.heap s.global L s.held x.1 x.2.1 x.2.2 L')
    (b := (h₁, s.global,
      ⟨1, 0, 0, fun _ _ => none, fun _ _ => none, rh, fun _ => 0, fun _ => 0⟩))
    (fun k x _ hk ⟨L', hr⟩ => by
      obtain ⟨h', g', gc', L₂, hrun, hr'⟩ := init_alloc_spec hr (by omega) hb.sizes
      exact ⟨(h', g', gc'), hrun, L₂, hr'⟩) ⟨_, hstart⟩
  rw [Nat.zero_add] at hr₂
  have hsame : g₂ = { s.global with alloc_size := g₂.alloc_size } := hr₂.same
  have hnr : g₂.nr_sizes = s.global.nr_sizes := by rw [hsame]
  obtain ⟨⟨h₃, gc₃⟩, hrun₃, L₃, hr₃⟩ := foldlM_range' (f := init_unused g₂.free_chunks)
    (m := g₂.nr_sizes) (n := MAX_SIZES - g₂.nr_sizes)
    (P := fun k x => ∃ L', Rising t k s.heap s.global L s.held x.1 g₂ x.2 L') (b := (h₂, gc₂))
    (fun k x _ hk ⟨L', hr⟩ => by
      obtain ⟨h', gc', L₂, hrun, hr'⟩ := init_unused_spec hr (by omega)
      exact ⟨(h', gc'), hrun, L₂, hr'⟩) ⟨L₂, hnr ▸ hr₂⟩
  have hmax : g₂.nr_sizes + (MAX_SIZES - g₂.nr_sizes) = MAX_SIZES := by
    have := hb.sizes
    omega
  rw [hmax] at hr₃
  refine ⟨h₃, g₂, gc₃, L₃, ?_, ⟨hr₃.shared, ⟨hr₃.cache, hr₃.done, fun e i => ?_, fun e i => ?_⟩,
    hr₃.empty, hr₃.filled, ?_⟩, hr₃.apart, hsame, hr₃.count, hr₃.entries, hr₃.calm⟩
  · rw [gc_init, hrun]
    show ((List.range s.global.nr_sizes).foldlM init_alloc _).bind _ = _
    rw [List.range_eq_range', hrun₂]
    show ((List.range' g₂.nr_sizes (MAX_SIZES - g₂.nr_sizes)).foldlM
      (init_unused g₂.free_chunks) (h₂, gc₂)).bind _ = _
    rw [hrun₃]
    rfl
  · rw [(hr₃.garbage e i).1, (hr₃.garbage e i).2.1]
    rfl
  · rw [(hr₃.garbage e i).1, (hr₃.garbage e i).2.2]
    rfl
  · rw [hnr]
    exact hb.sizes

/-- **`critical_enter`** returns. -/
theorem critical_enter_spec (hb : Books s L) (t : Tid) :
    ∃ s' L', critical_enter t s = some s' ∧ Entered t s s' L' := by
  rw [critical_enter]
  cases ht : s.ptst t with
  | some gc => exact gc_enter_spec hb ht
  | none =>
    obtain ⟨h', g', gc', L', hrun, hw, ha, hsame, hcount, hentries, hzero⟩ := gc_init_spec hb ht
    have hb' := hb.of_working (t :: s.ptst_list) hw ha (fun u => List.mem_cons) hsame
    have hgrow : Grow s.epochs (State.mk h' g' (t :: s.ptst_list)
        (Function.update s.ptst t (some gc')) s.held).epochs := by
      refine ⟨?_, funext fun u => ?_, fun e => hb.limbo_subset hb' fun u i c k hc hk => ?_⟩
      · show g'.current = s.global.current
        rw [hsame]
      · rw [reading_update]
        split
        · next hu =>
          rw [hu, State.epochs]
          dsimp only
          rw [ht, Ptst.reading, hcount]
          exact if_neg (by decide)
        · rfl
      · by_cases hu : u = t
        · rw [hu, hb.unborn t ht _ rfl] at hc
          cases hc
        · rw [ha (.garbage u e i) hu]
          exact ⟨hc, hentries c k hk⟩
    obtain ⟨s', L'', hrun', he⟩ := gc_enter_spec hb' (Function.update_self _ _ _)
    refine ⟨s', L'', ?_, he.books, he.ptst, ?_, he.held, hentries.trans he.entries,
      hgrow.then_turn he.turn, fun _ => he.fresh fun gc hgc => ?_, fun u hu hborn =>
        he.unborn u hu ((Function.update_of_ne hu _ _).trans hborn), fun hs =>
          he.calm (calm_update hs ?_)⟩
    · rw [hrun]
      exact hrun'
    · rw [he.sizes]
      show g'.nr_sizes = s.global.nr_sizes
      rw [hsame]
    · dsimp only at hgc
      rw [Function.update_self] at hgc
      cases hgc
      exact hcount
    · rw [hzero]
      exact UInt32.zero_le

end Init

/-! ### The allocators of `pq_init` -/

section Founding

variable {h : Heap} {g : Global} {L : Place → List Chunk}

/-- The collector before any thread has entered it. -/
structure Founding (h : Heap) (g : Global) (L : Place → List Chunk) : Prop where
  shared : Shared h g L fun _ => none
  rest : ∀ p, p ≠ .free → (∀ i, i < g.nr_sizes → p ≠ .main i) → L p = []
  quiet : g.inreclaim = 0
  current : g.current = 0

theorem init_gc_subsystem_spec (next : Chunk → Chunk) (blk : Chunk → ℕ → Block) (node : Block) :
    ∃ L, Founding (init_gc_subsystem next blk node).1 (init_gc_subsystem next blk node).2 L := by
  have hstock : Stock ⟨next, fun _ => none, blk, 0, node, fun _ => none⟩ (fun _ => []) fun _ => none := by
    have hlive : ∀ c k, ¬(⟨next, fun _ => none, blk, 0, node, fun _ => none⟩ : Heap).Live c k :=
      fun c k ⟨n, hn, _⟩ => by cases hn
    refine ⟨⟨fun _ => circ_nil, fun _ => List.nodup_nil, fun _ _ _ h => absurd h List.not_mem_nil⟩,
      fun _ _ h => absurd h List.not_mem_nil, fun c hc => absurd hc (Nat.not_lt_zero c),
      fun _ => Fits.nil, fun c n hn => ?_, fun _ _ => rfl,
      fun c k d j hk => absurd hk (hlive c k), fun c k hk => absurd hk (hlive c k),
      fun c k hk => absurd hk (hlive c k), fun b i hb => ?_⟩
    · cases hn
    · cases hb
  have hmore := hstock.alloc_more_chunks rfl
  have hp : Place.empty ≠ .free := by simp
  have hfits := hmore.fits .empty
  have hmove := hmore.move hp (Function.update_of_ne hp.symm _ _) ⟨hfits.first, hfits.rest, hfits.cls⟩
  refine ⟨_, ⟨hmove, ?_, fun i hi => absurd hi (Nat.not_lt_zero i),
    fun i hi => absurd hi (Nat.not_lt_zero i)⟩, fun p hpf _ => ?_, rfl, rfl⟩
  · rw [regroup_right, Function.update_self]
    rfl
  · by_cases he : p = .empty
    · rw [he, regroup_left hp]
    · rw [regroup_of_ne he hpf, Function.update_of_ne he]

theorem gc_add_allocator_spec {sz : ℕ} (hf : Founding h g L) (hsz : 0 < sz) :
    ∃ h' g' L', gc_add_allocator (h, g) sz = some (h', g') ∧ Founding h' g' L' ∧
      g'.nr_sizes = g.nr_sizes + 1 := by
  obtain ⟨c, h', L', hrun, hgot⟩ := hf.shared.stock.get_filled_chunks (n := ALLOC_CHUNKS_PER_LIST)
    hf.shared.free (hf.rest _ (by simp) (by simp)) (hf.rest (.filled g.nr_sizes) (by simp) (by simp))
    (by decide) hsz
  have hnew : L (.main g.nr_sizes) = [] :=
    hf.rest _ (by simp) fun i hi he => Nat.ne_of_gt hi (Place.main.inj he)
  have hp : Place.filled g.nr_sizes ≠ .main g.nr_sizes := by simp
  have hfc := hgot.stock.fits (.filled g.nr_sizes)
  have hmove := hgot.stock.move (q := .main g.nr_sizes) hp
    (by rw [hgot.others _ (by simp), hnew]) ⟨hfc.first, hfc.rest, hfc.cls⟩
  refine ⟨h', { g with
    nr_sizes := g.nr_sizes + 1
    blk_sizes := Function.update g.blk_sizes g.nr_sizes sz
    alloc_size := Function.update g.alloc_size g.nr_sizes ALLOC_CHUNKS_PER_LIST
    alloc := Function.update g.alloc g.nr_sizes c }, _, ?_,
    ⟨⟨hmove, ?_, fun i hi => ?_, fun i hi => ?_⟩, fun p hpf hpm => ?_, hf.quiet,
      hf.current⟩, rfl⟩
  · rw [gc_add_allocator, hrun]
    rfl
  · rw [regroup_of_ne (by simp) (by simp)]
    exact hgot.free
  · show _ = some (Function.update g.alloc g.nr_sizes c i)
    by_cases he : i = g.nr_sizes
    · rw [he, regroup_right, Function.update_self]
      exact hgot.ring
    · rw [regroup_of_ne (by simp) (by simpa using he), Function.update_of_ne he,
        hgot.others _ (by simp)]
      exact hf.shared.main i (Nat.lt_of_le_of_ne (Nat.le_of_lt_succ hi) he)
  · show 0 < Function.update g.blk_sizes g.nr_sizes sz i ∧
      0 < Function.update g.alloc_size g.nr_sizes ALLOC_CHUNKS_PER_LIST i
    by_cases he : i = g.nr_sizes
    · rw [he, Function.update_self, Function.update_self]
      exact ⟨hsz, by decide⟩
    · rw [Function.update_of_ne he, Function.update_of_ne he]
      exact hf.shared.size i (Nat.lt_of_le_of_ne (Nat.le_of_lt_succ hi) he)
  · have hne : p ≠ .main g.nr_sizes := hpm g.nr_sizes (Nat.lt_succ_self _)
    by_cases he : p = .filled g.nr_sizes
    · rw [he, regroup_left hp]
    · rw [regroup_of_ne he hne, hgot.others p (by simp [hpf, he])]
      exact hf.rest p hpf fun i hi => hpm i (Nat.lt_succ_of_lt hi)

/-- **The allocators of `pq_init`**: the calls of `gc_add_allocator` return. -/
theorem pq_init_spec {sizes : List ℕ} (hf : Founding h g L) (hsizes : ∀ sz ∈ sizes, 0 < sz) :
    ∃ h' g' L', sizes.foldlM gc_add_allocator (h, g) = some (h', g') ∧ Founding h' g' L' ∧
      g'.nr_sizes = g.nr_sizes + sizes.length := by
  induction sizes generalizing h g L with
  | nil => exact ⟨h, g, L, rfl, hf, rfl⟩
  | cons sz sizes ih =>
    obtain ⟨h₁, g₁, L₁, hrun, hf₁, hn₁⟩ := gc_add_allocator_spec hf (hsizes sz List.mem_cons_self)
    obtain ⟨h', g', L', hrun', hf', hn'⟩ := ih hf₁ fun x hx => hsizes x (List.mem_cons_of_mem _ hx)
    refine ⟨h', g', L', ?_, hf', ?_⟩
    · rw [List.foldlM_cons, hrun]
      exact hrun'
    · rw [hn', hn₁, List.length_cons, Nat.add_assoc, Nat.add_comm 1]

theorem node_sizes_pos : ∀ sz ∈ node_sizes, 0 < sz := by
  intro sz hsz
  obtain ⟨i, -, rfl⟩ := List.mem_map.mp hsz
  exact Nat.add_pos_left (by decide) _

theorem pq_init_founding (next : Chunk → Chunk) (blk : Chunk → ℕ → Block) (node : Block) :
    ∃ h g L, node_sizes.foldlM gc_add_allocator (init_gc_subsystem next blk node) = some (h, g) ∧
      Founding h g L ∧ g.nr_sizes = NUM_LEVELS := by
  obtain ⟨L₀, hf₀⟩ := init_gc_subsystem_spec next blk node
  obtain ⟨h, g, L, hrun, hf, hn⟩ := pq_init_spec hf₀ node_sizes_pos
  exact ⟨h, g, L, hrun, hf, hn⟩

/-- **The initial state.** -/
theorem Initial.books {s : State} (hs : Initial s) : ∃ L, Books s L := by
  obtain ⟨next, blk, node, h, g, hrun, rfl⟩ := hs
  obtain ⟨h', g', L, hrun', hf, hn⟩ := pq_init_founding next blk node
  rw [hrun] at hrun'
  cases hrun'
  refine ⟨L, hf.shared, fun t gc ht => (by cases ht), fun t _ p hp => ?_, ?_, fun i => ?_,
    Nat.le_of_eq hn, fun i hi => ?_, fun t i _ => ?_, fun t => by simp, hf.quiet⟩
  · refine hf.rest p (fun he => ?_) fun i _ he => ?_
    · rw [he] at hp
      cases hp
    · rw [he] at hp
      cases hp
  · exact hf.rest _ (by simp) (by simp)
  · exact hf.rest _ (by simp) (by simp)
  · exact hf.rest _ (by simp) fun j hj he => absurd hj (Nat.not_lt.mpr (Place.main.inj he ▸ hi))
  · exact hf.rest _ (by simp) (by simp)

theorem Initial.lag {s : State} (hs : Initial s) : Lag 3 s.epochs := by
  obtain ⟨next, blk, node, h, g, hrun, rfl⟩ := hs
  obtain ⟨h', g', L, hrun', hf, -⟩ := pq_init_founding next blk node
  rw [hrun] at hrun'
  cases hrun'
  refine ⟨?_, fun t e he => by cases he⟩
  rw [State.epochs]
  dsimp only
  rw [hf.current]
  decide

theorem exists_initial : ∃ s, Initial s ∧ s.global.nr_sizes = NUM_LEVELS := by
  obtain ⟨h, g, L, hrun, -, hn⟩ := pq_init_founding (fun _ => 0) (fun _ _ => 0) 0
  exact ⟨⟨h, g, [], fun _ => none, fun _ => none⟩, ⟨_, _, _, h, g, hrun, rfl⟩, hn⟩

end Founding

/-! ### The calls -/

section Calls

variable {s s' : State} {L L' : Place → List Chunk} {t : Tid} {id : ℕ} {gc gc' : Ptst} {p : Block}

/-- A call has been carried out. -/
structure Carried (t : Tid) (c : Call) (s s' : State) (L : Place → List Chunk) : Prop where
  books : Books s' L
  sizes : s'.global.nr_sizes = s.global.nr_sizes
  accounts : ∀ b, Accounted s b → Accounted s' b
  turn : Bracketed s t c → Turn 3 t s.epochs s'.epochs
  calm : s.Calm → s'.Calm

/-- All blocks are accounted for if the entries are, but for blocks that are held now. -/
theorem accounts_of (hheld : ∀ b, s.held b ≠ none → Accounted s' b)
    (hentries : ∀ c k, s.heap.Live c k → s'.held (s.heap.blk c k) = none →
      s'.heap.Live c k ∧ s'.heap.blk c k = s.heap.blk c k) (b : Block) (hb : Accounted s b) :
    Accounted s' b := by
  cases hb with
  | inl hb => exact hheld b hb
  | inr hb =>
    obtain ⟨c, k, hk, rfl⟩ := hb
    by_cases hnew : s'.held (s.heap.blk c k) = none
    · exact Or.inr ⟨c, k, hentries c k hk hnew⟩
    · exact Or.inl hnew

/-- `critical_enter` in a state of the invariant. -/
theorem Books.critical_enter (hb : Books s L) (t : Tid) :
    ∃ s' L', exec s t .critical_enter = some (none, s') ∧ Carried t .critical_enter s s' L' ∧
      ((∀ gc, s.ptst t = some gc → gc.count = 1) → s'.Inside t) ∧
      ∀ u, u ≠ t → s.ptst u = none → s'.ptst u = none := by
  obtain ⟨s', L', hrun, he⟩ := critical_enter_spec hb t
  refine ⟨s', L', ?_, ⟨he.books, he.sizes, accounts_of (fun b hheld => Or.inl ?_) fun c k hk _ =>
    he.entries c k hk, fun _ => he.turn, he.calm⟩, he.fresh, he.unborn⟩
  · rw [exec, hrun]
    rfl
  · rw [he.held]
    exact hheld

/-- `critical_exit` in a state of the invariant. -/
theorem Books.critical_exit (hb : Books s L) (hp : Permitted s t .critical_exit) :
    ∃ s', exec s t .critical_exit = some (none, s') ∧ Carried t .critical_exit s s' L := by
  obtain ⟨gc, hgc⟩ := Option.ne_none_iff_exists'.mp hp
  have ho := hb.owns t gc hgc
  have ho' : Owns t (gc_exit gc) L := ⟨ho.cache, ho.alloc, ho.garbage, ho.tail⟩
  refine ⟨_, ?_, hb.setPtst hgc ho', rfl, fun _ hheld => hheld, fun hin =>
    (hb.setPtst_local hgc ho' ?_).turn, fun hs => calm_update hs (hs t gc hgc)⟩
  · rw [exec, hgc]
    rfl
  · -- the thread is still inside an outer critical section or inside none
    have hin : gc.reading ≠ none := by
      rw [← reading_of hgc]
      exact hin
    rw [Ptst.reading, ite_ne_right_iff] at hin
    rw [Ptst.reading, Ptst.reading, if_pos hin.1]
    by_cases hout : 1 < (gc_exit gc).count
    · exact Or.inl (if_pos hout)
    · exact Or.inr (Or.inl (if_neg hout))

/-- A call that changes the garbage rings of its thread only by adding to them. -/
theorem Books.grow_of_working {h' : Heap} {g' : Global} {held' : Block → Option ℕ} (hb : Books s L)
    (hgc : s.ptst t = some gc) (hb' : Books ⟨h', g', s.ptst_list, Function.update s.ptst t (some gc'), held'⟩ L')
    (hcurrent : g'.current = s.global.current) (hclock : gc'.clock = gc.clock)
    (hkeep : ∀ u e i c k, c ∈ L (.garbage u e i) → s.heap.Live c k →
      c ∈ L' (.garbage u e i) ∧ h'.Live c k ∧ h'.blk c k = s.heap.blk c k) :
    Grow s.epochs (State.mk h' g' s.ptst_list (Function.update s.ptst t (some gc')) held').epochs := by
  refine ⟨hcurrent, funext fun u => ?_, fun e => hb.limbo_subset hb' fun u i c k hc hk =>
    hkeep u e i c k hc hk⟩
  rw [reading_update]
  split
  · next hu => rw [hu, reading_of_clock hclock, reading_of hgc]
  · rfl

/-- A call that leaves the counters of its thread alone. -/
theorem calm_of_clock {h' : Heap} {g' : Global} {held' : Block → Option ℕ} {list : List Tid}
    (hgc : s.ptst t = some gc) (hclock : gc'.clock = gc.clock) (hs : s.Calm) :
    (State.mk h' g' list (Function.update s.ptst t (some gc')) held').Calm := by
  refine calm_update hs ?_
  rw [(Prod.mk.inj (Prod.mk.inj hclock).2).2]
  exact hs t gc hgc

theorem garbage_subset {u : Tid} {e i : ℕ}
    (hkeep : ∀ c k, c ∈ L (.garbage u e i) → s.heap.Live c k →
      c ∈ L' (.garbage u e i) ∧ s'.heap.Live c k ∧ s'.heap.blk c k = s.heap.blk c k) :
    s.garbage L u e i ⊆ s'.garbage L' u e i := by
  intro b ⟨c, k, hc, hk, hblk⟩
  obtain ⟨hc', hk', hblk'⟩ := hkeep c k hc hk
  exact ⟨c, k, hc', hk', hblk'.trans hblk⟩

/-- `gc_alloc` in a state of the invariant. -/
theorem Books.gc_alloc (hb : Books s L) (hp : Permitted s t (.gc_alloc id)) :
    ∃ b s' L', exec s t (.gc_alloc id) = some (some b, s') ∧ Carried t (.gc_alloc id) s s' L' ∧
      Grow s.epochs s'.epochs ∧ s'.held b = some id ∧ s.held b = none ∧ ¬InGarbage s b ∧
      s'.heap.cls b = some id ∧ ∀ u e i, s.garbage L u e i ⊆ s'.garbage L' u e i := by
  obtain ⟨gc, hgc⟩ := Option.ne_none_iff_exists'.mp hp.1
  obtain ⟨b, h', g', gc', L', hrun, ha⟩ := gc_alloc_spec (hb.working hgc) hp.2
  have hmax : id < MAX_SIZES := Nat.lt_of_lt_of_le hp.2 hb.sizes
  have hb' := hb.of_working s.ptst_list ha.working
    (ha.others.apart (by simp [Place.Outside, hp.2, hmax])) (hb.same_list hp.1) ha.same
  have hgarbage : ∀ u e i, L' (.garbage u e i) = L (.garbage u e i) := fun u e i => ha.others _ (by simp)
  have hkeep : ∀ u e i c k, c ∈ L (.garbage u e i) → s.heap.Live c k →
      c ∈ L' (.garbage u e i) ∧ h'.Live c k ∧ h'.blk c k = s.heap.blk c k := by
    intro u e i c k hc hk
    rw [hgarbage]
    exact ⟨hc, ha.entries c k hk (ha.garbage u e i c hc k hk)⟩
  have hgrow := hb.grow_of_working hgc hb' (by rw [ha.same]) ha.clock hkeep
  refine ⟨b, _, L', ?_, ⟨hb', ?_, accounts_of (fun b' hheld => Or.inl ?_) fun c k hk hnew => ?_,
    fun _ => hgrow.local.turn, calm_of_clock hgc ha.clock⟩, hgrow, Function.update_self _ _ _, ha.unheld, ?_,
    (ha.working.shared.stock.held b id (Function.update_self _ _ _)).2, fun u e i => garbage_subset (hkeep u e i)⟩
  · rw [exec, hgc, Option.bind_eq_bind, Option.bind_some, hrun]
    rfl
  · dsimp only
    rw [ha.same]
  · dsimp only
    rw [Function.update_apply]
    split
    · exact Option.some_ne_none id
    · exact hheld
  · refine ha.entries c k hk fun he => ?_
    dsimp only at hnew
    rw [he, Function.update_self] at hnew
    cases hnew
  · intro ⟨u, gcu, e, i, g, m, k, hin⟩
    obtain ⟨u, i, c, k, hc, hk, hblk⟩ := hb.mem_limbo.mp ⟨u, gcu, i, g, m, k, hin⟩
    exact ha.garbage u e i c hc k hk hblk

/-- `gc_free` in a state of the invariant. -/
theorem Books.gc_free (hb : Books s L) (hp : Permitted s t (.gc_free p id)) :
    ∃ s' L', exec s t (.gc_free p id) = some (none, s') ∧ Carried t (.gc_free p id) s s' L' ∧
      Grow s.epochs s'.epochs ∧ (∀ e, s.epochs.reading t = some e → p ∈ s'.garbage L' t e id) ∧
      ∀ u e i, s.garbage L u e i ⊆ s'.garbage L' u e i := by
  obtain ⟨gc, hgc⟩ := Option.ne_none_iff_exists'.mp hp.1
  obtain ⟨h', gc', L', hrun, hf⟩ := gc_free_spec (hb.working hgc) hp.2
  have hb' := hb.of_working s.ptst_list hf.working
    (hf.others.apart (by simp [Place.Outside])) (hb.same_list hp.1) rfl
  obtain ⟨c, k, hc, hk, hblk⟩ := hf.garbage
  have hkeep : ∀ u e i d j, d ∈ L (.garbage u e i) → s.heap.Live d j →
      d ∈ L' (.garbage u e i) ∧ h'.Live d j ∧ h'.blk d j = s.heap.blk d j := by
    intro u e i d j hd hj
    refine ⟨?_, hf.entries d j hj⟩
    by_cases hown : Place.garbage u e i = .garbage t gc.epoch id
    · rw [hown] at hd ⊢
      exact hf.grows hd
    · rw [hf.others _ (by simpa using hown)]
      exact hd
  have hgrow := hb.grow_of_working hgc hb' rfl hf.clock hkeep
  refine ⟨_, L', ?_, ⟨hb', rfl, accounts_of (fun b hheld => ?_) fun d j hj _ => hf.entries d j hj,
    fun _ => hgrow.local.turn, calm_of_clock hgc hf.clock⟩, hgrow, fun e he => ?_,
    fun u e i => garbage_subset (hkeep u e i)⟩
  · rw [exec, hgc, Option.bind_eq_bind, Option.bind_some, hrun]
    rfl
  · by_cases hbp : b = p
    · rw [hbp]
      exact Or.inr ⟨c, k, hk, hblk⟩
    · left
      dsimp only
      rw [Function.update_of_ne hbp]
      exact hheld
  · rw [reading_of hgc, Ptst.reading, Option.ite_none_right_eq_some] at he
    obtain ⟨-, he⟩ := he
    rw [Option.some.injEq] at he
    exact ⟨c, k, he ▸ hc, hk, hblk⟩

/-- **The step lemma**: a call that may be made is carried out and keeps the invariant. -/
theorem Books.exec (hb : Books s L) {c : Call} (hp : Permitted s t c) :
    ∃ r s' L', exec s t c = some (r, s') ∧ Carried t c s s' L' := by
  cases c with
  | critical_enter =>
    obtain ⟨s', L', hrun, hc, -⟩ := hb.critical_enter t
    exact ⟨none, s', L', hrun, hc⟩
  | critical_exit =>
    obtain ⟨s', hrun, hc⟩ := hb.critical_exit hp
    exact ⟨none, s', L, hrun, hc⟩
  | gc_alloc id =>
    obtain ⟨b, s', L', hrun, hc, -⟩ := hb.gc_alloc hp
    exact ⟨some b, s', L', hrun, hc⟩
  | gc_free p id =>
    obtain ⟨s', L', hrun, hc, -⟩ := hb.gc_free hp
    exact ⟨none, s', L', hrun, hc⟩

theorem Books.sound (hb : Books s L) : Sound s := by
  refine ⟨hb.shared.stock.small, fun t c hp => ?_, fun t id b s' hp hrun => ?_⟩
  · obtain ⟨r, s', -, hrun, -⟩ := hb.exec hp
    exact ⟨r, s', hrun⟩
  · obtain ⟨b', s₁, -, hrun', -, -, -, hheld, hgarbage, hcls, -⟩ := hb.gc_alloc hp
    rw [hrun] at hrun'
    cases hrun'
    exact ⟨hheld, hgarbage, hcls⟩

/-- A step of a run is a call that has been carried out. -/
theorem Books.step (hb : Books s L) {c : Call × Option Block} (hstep : allocator.step s t c s') :
    ∃ L', Carried t c.1 s s' L' := by
  obtain ⟨hp, hexec⟩ := hstep
  obtain ⟨r, s₁, L', hrun, hc⟩ := hb.exec hp
  rw [hexec] at hrun
  cases hrun
  exact ⟨L', hc⟩

/-- **The invariant holds between the calls.** -/
theorem Reachable.books (h : Reachable allocator s) : ∃ L, Books s L := by
  obtain ⟨tr, hrun⟩ := h
  refine hrun.invariant (I := fun s => ∃ L, Books s L) (fun s hs => Initial.books hs) ?_
  intro s t c s' ⟨L, hb⟩ hstep
  obtain ⟨L', hc⟩ := hb.step hstep
  exact ⟨L', hc.books⟩

end Calls

/-! ### Runs in which blocks are freed -/

/-- The calls of a run. -/
abbrev Trace := List (Entry State Tid (Call × Option Block))

/-- A call of a run that is made where it may be made. -/
abbrev BracketedEntry (x : Entry State Tid (Call × Option Block)) : Prop := Bracketed x.pre x.who x.ev.1

section Runs

variable {s : State} {L : Place → List Chunk} {t : Tid} {id e : ℕ}

theorem permitted_of_inside (hin : s.Inside t) (hid : id < s.global.nr_sizes) :
    Permitted s t (.gc_alloc id) := by
  refine ⟨fun hnone => hin ?_, hid⟩
  show (s.ptst t).bind Ptst.reading = none
  rw [hnone]
  rfl

/-- A thread in a critical section gets a block and frees it. -/
theorem Books.alloc_free (hb : Books s L) (he : s.epochs.reading t = some e) (hid : id < s.global.nr_sizes) :
    ∃ b s₁ s₂ L', allocator.step s t (.gc_alloc id, some b) s₁ ∧
      allocator.step s₁ t (.gc_free b id, none) s₂ ∧ Books s₂ L' ∧
      s₁.epochs.reading = s.epochs.reading ∧ s₂.epochs.reading = s.epochs.reading ∧
      s₂.global.nr_sizes = s.global.nr_sizes ∧ ¬InGarbage s b ∧ b ∈ s₂.garbage L' t e id ∧
      ∀ u d i, s.garbage L u d i ⊆ s₂.garbage L' u d i := by
  have hin : s.Inside t := fun hnone => by
    rw [he] at hnone
    cases hnone
  have hp := permitted_of_inside hin hid
  obtain ⟨b, s₁, L₁, hrun₁, hc₁, hgrow₁, hheld, -, hnew, -, hkeep₁⟩ := hb.gc_alloc hp
  have hin₁ : s₁.Inside t := by
    rw [State.Inside, hgrow₁.reading]
    exact hin
  have hp₁ : Permitted s₁ t (.gc_free b id) := ⟨(permitted_of_inside hin₁ (hc₁.sizes ▸ hid)).1, hheld⟩
  obtain ⟨s₂, L₂, hrun₂, hc₂, hgrow₂, hfreed, hkeep₂⟩ := hc₁.books.gc_free hp₁
  exact ⟨b, s₁, s₂, L₂, ⟨hp, hrun₁⟩, ⟨hp₁, hrun₂⟩, hc₂.books, hgrow₁.reading,
    hgrow₂.reading.trans hgrow₁.reading, hc₂.sizes.trans hc₁.sizes, hnew,
    hfreed e (by rw [hgrow₁.reading]; exact he), fun u d i => (hkeep₁ u d i).trans (hkeep₂ u d i)⟩

/-- A thread that `critical_enter` registers is in a critical section. -/
theorem Books.register (hb : Books s L) (ht : s.ptst t = none) :
    ∃ s' L' e, allocator.step s t (.critical_enter, none) s' ∧ Books s' L' ∧
      s'.epochs.reading t = some e ∧ s'.global.nr_sizes = s.global.nr_sizes ∧
      Turn 3 t s.epochs s'.epochs ∧ ∀ u, u ≠ t → s.ptst u = none → s'.ptst u = none := by
  obtain ⟨s', L', hrun, hc, hin, hout⟩ := hb.critical_enter t
  obtain ⟨e, he⟩ := Option.ne_none_iff_exists'.mp (hin fun gc hgc => by
    rw [ht] at hgc
    cases hgc)
  exact ⟨s', L', e, ⟨trivial, hrun⟩, hc.books, he, hc.sizes, hc.turn trivial, hout⟩

theorem Initial.born (hs : Initial s) (t : Tid) : s.ptst t = none := by
  obtain ⟨next, blk, node, h, g, hrun, rfl⟩ := hs
  rfl

/-- Threads 8 and 7 enter, and 7 gets a block, frees it and gets another one. -/
theorem exists_freed_run :
    ∃ s₀ s₁ s b b' tr, Run allocator (⟨s₁, 7, (.gc_alloc 3, some b'), s⟩ ::
        ⟨s₀, 7, (.gc_free b 3, none), s₁⟩ :: tr) s ∧
      (∀ x ∈ (⟨s₁, 7, (.gc_alloc 3, some b'), s⟩ ::
        ⟨s₀, 7, (.gc_free b 3, none), s₁⟩ :: tr : Trace), BracketedEntry x) ∧ s₁.Inside 8 ∧ s.Inside 8 ∧
      (∃ x ∈ tr, x.ev = (.gc_alloc 3, some b)) ∧ Permitted s 7 (.gc_alloc 3) := by
  obtain ⟨z₀, hz₀, hn⟩ := exists_initial
  obtain ⟨L₀, hb₀⟩ := hz₀.books
  obtain ⟨z₁, L₁, d, hstep₁, hb₁, hd, hn₁, -, hout₁⟩ := hb₀.register (hz₀.born 8)
  obtain ⟨z₂, L₂, e, hstep₂, hb₂, he, hn₂, hturn, -⟩ := hb₁.register (hout₁ 7 (by decide) (hz₀.born 7))
  have hid : 3 < z₂.global.nr_sizes := by
    rw [hn₂, hn₁, hn]
    decide
  obtain ⟨b, z₃, z₄, L₄, hstep₃, hstep₄, hb₄, hread₃, hread₄, hn₄, -⟩ := hb₂.alloc_free he hid
  have hseven : ∀ z : State, z.epochs.reading = z₂.epochs.reading → z.Inside 7 := by
    intro z hz
    rw [State.Inside, hz, he]
    exact Option.some_ne_none e
  have height : ∀ z : State, z.epochs.reading = z₂.epochs.reading → z.Inside 8 := by
    intro z hz
    rw [State.Inside, hz, hturn.others (by decide), hd]
    exact Option.some_ne_none d
  have hp₄ := permitted_of_inside (hseven z₄ hread₄) (hn₄ ▸ hid)
  obtain ⟨b', z₅, L₅, hrun₅, hc₅, hgrow₅, -⟩ := hb₄.gc_alloc hp₄
  have hread₅ : z₅.epochs.reading = z₂.epochs.reading := hgrow₅.reading.trans hread₄
  have hstep₅ : allocator.step z₄ 7 (.gc_alloc 3, some b') z₅ := ⟨hp₄, hrun₅⟩
  have hrun := (((Run.start hz₀).step hstep₁).step hstep₂).step hstep₃ |>.step hstep₄
  refine ⟨z₃, z₄, z₅, b, b', _, hrun.step hstep₅, ?_, height z₄ hread₄, height z₅ hread₅,
    ⟨⟨z₂, 7, (.gc_alloc 3, some b), z₃⟩, List.mem_cons_self, rfl⟩,
    permitted_of_inside (hseven z₅ hread₅) ?_⟩
  · simp only [List.forall_mem_cons, BracketedEntry, Bracketed, true_and]
    exact ⟨hseven z₃ hread₃, fun x hx => absurd hx List.not_mem_nil⟩
  · rw [hc₅.sizes, hn₄]
    exact hid

end Runs

/-- **No block is handed out twice**, after any sequence of calls by any number of threads: each chunk has
between none and `BLKS_PER_CHUNK` entries, each call that may be made is carried out, with the assertion in
`get_alloc_chunk`, and `gc_alloc` returns a block of its size class that is neither held nor garbage. -/
theorem sound_of_reachable {s : State} (h : Reachable allocator s) : Sound s := by
  obtain ⟨L, hb⟩ := Reachable.books h
  exact hb.sound

/-- Another block may be got after one has been freed. -/
theorem sound_of_reachable_freed :
    ∃ s b tr, Run allocator tr s ∧ (∃ x ∈ tr, x.ev = (.gc_free b 3, none)) ∧
      Permitted s 7 (.gc_alloc 3) ∧ Sound s := by
  obtain ⟨s₀, s₁, s, b, b', tr, hrun, -, -, -, -, hp⟩ := exists_freed_run
  exact ⟨s, b, _, hrun, ⟨_, List.mem_cons_of_mem _ List.mem_cons_self, rfl⟩, hp, sound_of_reachable ⟨_, hrun⟩⟩

end ConcurrentPQ.Allocator

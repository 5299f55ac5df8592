import ConcurrentPQ.Lib.KeySet
import ConcurrentPQ.Spray.SeqInsert

/-!
# Deletions by the only thread

* `Marking`, `Marking.finish` — `mark_node_ptrs` marks every pointer of a deleted node;
* `Taken` — a live node has been deleted, and all else stayed;
* `Seq.naive` — `naive_delete_min` ends and takes the least key, or meets the tail;
* `Seq.spray_walk` — `spray_delete_min` ends and takes some key, or none.
-/

namespace ConcurrentPQ.Spray

open ConcurrentPQ.Segment

section Mark

variable {m m' m₀ : Mem} {brk : NodeId} {P : Set NodeId} {y : NodeId} {k : ℕ} {seed : ℕ}
  {Q : Config → Prop}

/-- A live node has been deleted, and all else stayed. -/
structure Taken (P : Set NodeId) (m m' : Mem) (y : NodeId) : Prop where
  live : Live m P y
  deleted : (m' y).deleted ≠ 0
  data : ∀ n, (m' n).val = (m n).val ∧ (m' n).toplevel = (m n).toplevel
  other : ∀ n, n ≠ y → (m' n).deleted = (m n).deleted

/-- The pointers of `y` on the levels from `k` on are marked; between two calls memory would have its
shape but for the others. -/
structure Marking (m : Mem) (brk : NodeId) (P : Set NodeId) (y : NodeId) (k : ℕ) : Prop where
  shape : Shape m brk P
  ordered : ∀ n i, Source m P n i → n ≠ head → Precedes m n (succ m i n)
  marks : ∀ n, Inner P n → n ≠ y → ∀ i, i < (m n).toplevel →
    (Marked m i n ↔ (m n).deleted ≠ 0)
  doomed : Doomed m P y
  self : ∀ i, i < (m y).toplevel → (Marked m i y ↔ k ≤ i)

theorem Marking.seq (h : Marking m brk P y 0) : Seq m brk P where
  shape := h.shape
  ordered := h.ordered
  marks n hn i hi := by
    by_cases he : n = y
    · subst he
      exact ⟨fun _ => h.doomed.deleted, fun _ => (h.self i hi).mpr (Nat.zero_le i)⟩
    · exact h.marks n hn he i hi

/-- Marking the pointer on the next level. -/
theorem Marking.mark (h : Marking m brk P y (k + 1)) (hk : k < (m y).toplevel) :
    Marking (setNext m y k (set_mark ((m y).next k))) brk P y k := by
  have hsrc : Source m P y k := ⟨h.doomed.inner.mem, h.doomed.inner.ne_tail, hk⟩
  have hsucc : ∀ n i, succ (setNext m y k (set_mark ((m y).next k))) i n = succ m i n := by
    intro n i
    by_cases he : n = y ∧ i = k
    · obtain ⟨rfl, rfl⟩ := he
      rw [succ_setNext_same]
      rfl
    · exact succ_setNext_ne he
  constructor
  case shape => exact h.shape.mark hsrc h.doomed.deleted h.doomed.inner.ne_head
  case ordered =>
    intro n i hn hh
    rw [source_setNext] at hn
    rw [hsucc]
    exact (h.ordered n i hn hh).congr (setNext_val ..) (setNext_val ..)
  case marks =>
    intro n hn hne i hi
    rw [setNext_toplevel] at hi
    rw [setNext_deleted, ← h.marks n hn hne i hi]
    unfold Marked
    rw [setNext_of_ne _ _ _ _ _ _ fun he => hne he.1]
  case doomed => exact ⟨h.doomed.inner, by rw [setNext_deleted]; exact h.doomed.deleted⟩
  case self =>
    intro i hi
    rw [setNext_toplevel] at hi
    unfold Marked
    rw [setNext_next]
    split
    · rename_i he
      rw [he.2]
      exact ⟨fun _ => le_rfl, fun _ => rfl⟩
    · rename_i he
      have hne : i ≠ k := fun e => he ⟨rfl, e⟩
      have := h.self i hi
      unfold Marked at this
      rw [this]
      omega

/-- **`mark_node_ptrs` ends** with every pointer of the node marked. -/
theorem Marking.finish {site : MarkSite} (h : Marking m brk P y (m y).toplevel)
    (hQ : ∀ m', Seq m' brk P → Tended P m m' →
      Eventually Next Q ⟨⟨m', brk⟩, seed, marked y site⟩) :
    Eventually Next Q ⟨⟨m, brk⟩, seed, .mkTop site y⟩ := by
  -- the loop over the levels
  have key : ∀ k m', Marking m' brk P y (k + 1) → k < (m' y).toplevel → Tended P m m' →
      Eventually Next Q ⟨⟨m', brk⟩, seed, .mkNext site y k⟩ := by
    intro k
    induction k with
    | zero =>
      intro m' hm hk ht
      have hnull := hm.shape.ne_null hm.doomed.inner.mem
      have hun : ¬Marked m' 0 y := fun hmk => absurd ((hm.self 0 hk).mp hmk) (by omega)
      refine Eventually.access rfl (fun _ => access_loadNext rfl hnull hk) ?_
      rw [if_neg (is_marked_iff.not.mpr hun)]
      refine Eventually.access rfl (fun _ => access_cas_hit rfl hnull hk rfl) ?_
      exact hQ _ (hm.mark hk).seq (ht.trans (.setNext hm.doomed.inner.mem))
    | succ k ih =>
      intro m' hm hk ht
      have hnull := hm.shape.ne_null hm.doomed.inner.mem
      have hun : ¬Marked m' (k + 1) y := fun hmk => absurd ((hm.self _ hk).mp hmk) (by omega)
      refine Eventually.access rfl (fun _ => access_loadNext rfl hnull hk) ?_
      rw [if_neg (is_marked_iff.not.mpr hun)]
      refine Eventually.access rfl (fun _ => access_cas_hit rfl hnull hk rfl) ?_
      refine ih _ (hm.mark hk) ?_ (ht.trans (.setNext hm.doomed.inner.mem))
      rw [setNext_toplevel]
      exact lt_of_le_of_lt (Nat.le_succ k) hk
  have hmem := h.doomed.inner.mem
  have htop := (h.shape.top y hmem).1
  refine Eventually.access rfl (fun _ => access_loadToplevel rfl (h.shape.ne_null hmem)) ?_
  rw [if_neg (Nat.one_le_iff_ne_zero.mp htop)]
  refine key _ m ?_ (Nat.sub_one_lt_of_lt htop) .refl
  rw [Nat.sub_add_cancel htop]
  exact h

/-- The fetch-and-increment that deletes a live node. -/
theorem Seq.increment (h : Seq m brk P) (hy : Live m P y) :
    Marking (modify m y fun x => { x with deleted := x.deleted + 1 }) brk P y
      (modify m y (fun x => { x with deleted := x.deleted + 1 }) y).toplevel ∧
    Taken P m (modify m y fun x => { x with deleted := x.deleted + 1 }) y := by
  set m' := modify m y fun x => { x with deleted := x.deleted + 1 } with hm'
  have hself : m' y = { m y with deleted := (m y).deleted + 1 } := modify_same ..
  have hne : ∀ n, n ≠ y → m' n = m n := fun n hn => modify_ne _ _ _ _ hn
  have hdata : ∀ n, (m' n).val = (m n).val ∧ (m' n).toplevel = (m n).toplevel ∧
      (m' n).next = (m n).next := by
    intro n
    by_cases he : n = y
    · rw [he, hself]
      exact ⟨rfl, rfl, rfl⟩
    · rw [hne n he]
      exact ⟨rfl, rfl, rfl⟩
  have hsame : Same m m' P := .increment
  have hin : Inner P y := ⟨hy.mem, hy.ne_head, hy.ne_tail⟩
  have hmark : ∀ i n, Marked m' i n ↔ Marked m i n := fun i n => by
    unfold Marked
    rw [(hdata n).2.2]
  refine ⟨⟨h.shape.same hsame le_rfl, fun n i hn hh => ?_, fun n hn hny i hi => ?_,
    .increment hin, fun i hi => ?_⟩, hy, ?_, fun n => ⟨(hdata n).1, (hdata n).2.1⟩,
    fun n hn => by rw [hne n hn]⟩
  · rw [hsame.succ hn.mem]
    exact (h.ordered n i ⟨hn.mem, hn.ne_tail, by rw [← (hdata n).2.1]; exact hn.lt⟩ hh).congr
      (hdata n).1 (hdata _).1
  · rw [hmark, hne n hny]
    exact h.marks n hn i (by rw [← (hdata n).2.1]; exact hi)
  · rw [hmark]
    have hiff := h.marks y hin i (by rw [← (hdata y).2.1]; exact hi)
    exact ⟨fun hm => absurd hy.deleted (hiff.mp hm), fun hle => absurd hi (not_lt.mpr hle)⟩
  · rw [hself]
    exact Nat.succ_ne_zero _

theorem Taken.tended (h : Taken P m m' y) {m'' : Mem} (ht : Tended P m' m'') : Taken P m m'' y where
  live := h.live
  deleted := by rw [(ht.data y).2.2]; exact h.deleted
  data n := ⟨(ht.data n).1.trans (h.data n).1, (ht.data n).2.1.trans (h.data n).2⟩
  other n hn := (ht.data n).2.2.trans (h.other n hn)

/-- The key of the node taken is live no more. -/
theorem Taken.liveKeys {brk' : NodeId} (h : Taken P m m' y) (hs : Shape m brk P)
    (hs' : Shape m' brk' P) : liveKeys m' = liveKeys m \ {(m y).val} := by
  ext k
  rw [hs'.mem_liveKeys, Set.mem_sdiff, hs.mem_liveKeys]
  constructor
  · rintro ⟨n, hn, rfl⟩
    have hne : n ≠ y := fun he => h.deleted (he ▸ hn.deleted)
    have hn' : Live m P n :=
      ⟨hn.mem, hn.ne_head, hn.ne_tail, (h.other n hne).symm.trans hn.deleted⟩
    refine ⟨⟨n, hn', ((h.data n).1).symm⟩, fun he => hne ?_⟩
    exact hn'.inj hs h.live ((h.data n).1.symm.trans he)
  · rintro ⟨⟨n, hn, rfl⟩, hk⟩
    have hne : n ≠ y := by
      rintro rfl
      exact hk rfl
    exact ⟨n, ⟨hn.mem, hn.ne_head, hn.ne_tail, (h.other n hne).trans hn.deleted⟩, (h.data n).1⟩

end Mark

/-! ### naive_delete_min -/

section Naive

variable {m : Mem} {brk : NodeId} {P : Set NodeId} {y : NodeId} {seed : ℕ} {Q : Config → Prop}

/-- An access whose outcome depends on a read through a marked pointer. -/
theorem Eventually.access_any {c : Config} (hb : c.pc.busy = true)
    (h : ∀ any, Eventually Next Q (Spray.access any c)) : Eventually Next Q c := by
  refine .later ⟨_, hb, true, rfl⟩ ?_
  rintro t ⟨-, any, rfl⟩
  exact h any

/-- `naive_delete_min` takes the node it has chosen, if that is live. -/
theorem Seq.naive_take (h : Seq m brk P) (hy : Live m P y)
    (hQ : ∀ m', Seq m' brk P → Taken P m m' y →
      Eventually Next Q ⟨⟨m', brk⟩, seed, .ret (.deleted true (some (m y).val))⟩) :
    Eventually Next Q ⟨⟨m, brk⟩, seed, .nvInc y⟩ := by
  have hs := h.shape
  have hnull := hs.ne_null hy.mem
  refine Eventually.access rfl (fun _ => access_fetchInc rfl hnull) ?_
  rw [if_neg (not_not.mpr hy.deleted)]
  obtain ⟨hmk, htk⟩ := h.increment hy
  set m₁ := modify m y fun x => { x with deleted := x.deleted + 1 }
  have h0 : 0 < (m₁ y).toplevel := (hmk.shape.top y hy.mem).1
  refine Eventually.access rfl (fun _ => access_loadNext rfl hnull h0) ?_
  rw [if_pos fun he => hy.ne_tail ((hmk.shape.next_eq_null hy.mem h0).mp he)]
  refine Eventually.access rfl (fun _ => access_loadVal rfl hnull) ?_
  refine hmk.finish fun m₂ hseq₂ ht₂ => ?_
  have htk₂ := htk.tended ht₂
  have h0₂ := hseq₂.shape.source_zero hy.mem hy.ne_tail
  refine Eventually.access rfl (fun _ => access_loadNext rfl hnull h0₂.lt) ?_
  -- the read through the marked pointer decides whether a search cleans up
  refine Eventually.access_any rfl fun any => ?_
  have hnext := hseq₂.shape.ne_null (hseq₂.shape.links y 0 h0₂).mem
  obtain ⟨b, hb⟩ := access_peekDeleted any ⟨m₂, brk⟩ seed
    (.nvTest y (m₁ y).val ((m₂ y).next 0)) rfl hnext
  rw [hb, (htk.data y).1]
  cases b with
  | true => exact hQ m₂ hseq₂ htk₂
  | false =>
    refine Eventually.access rfl (fun _ => access_loadVal rfl hnull) ?_
    refine hseq₂.search (f := .begin _ 0 NULL) (hseq₂.shape.val_le hy.mem hy.ne_head)
      fun m₃ f hseq₃ ht₃ _ _ => ?_
    exact hQ m₃ hseq₃ (htk₂.tended ht₃)

/-- **`naive_delete_min` ends.**  It takes the least key, or goes on to increment the tail. -/
theorem Seq.naive (h : Seq m brk P)
    (htake : ∀ y m', IsLeast (liveKeys m) (m y).val → Seq m' brk P → Taken P m m' y →
      Eventually Next Q ⟨⟨m', brk⟩, seed, .ret (.deleted true (some (m y).val))⟩)
    (hempty : liveKeys m = ∅ → Eventually Next Q ⟨⟨m, brk⟩, seed, .nvInc tail⟩) :
    Eventually Next Q ⟨⟨m, brk⟩, seed, .nvNext head⟩ := by
  have hs := h.shape
  obtain ⟨C, hC⟩ := hs.chain
  -- the loop along the chain: everything it has passed is deleted
  have key : ∀ l₂ l₁ x, C = l₁ ++ x :: l₂ →
      (∀ n ∈ l₁ ++ [x], n = head ∨ (m n).deleted ≠ 0) →
      Eventually Next Q ⟨⟨m, brk⟩, seed, .nvNext x⟩ := by
    intro l₂
    induction l₂ with
    | nil =>
      intro l₁ x hl hdead
      obtain ⟨hxP, hxt⟩ := hC.2.1 x (by rw [hl]; simp)
      have hsrc := hs.source_zero hxP hxt
      have hseg := hC.1
      rw [hl] at hseg
      have hnext : succ m 0 x = tail := (seg_append_cons.mp hseg).2
      have h0 := hs.top tail hs.tail_mem
      refine Eventually.access rfl (fun _ => access_loadNext rfl (hs.ne_null hxP) hsrc.lt) ?_
      rw [show ((m x).next 0).ptr = tail from hnext]
      refine Eventually.access rfl (fun _ => access_loadNext rfl (by decide) h0.1) ?_
      rw [if_neg (not_not.mpr (hs.tail_next 0 h0.1))]
      refine hempty (Set.eq_empty_iff_forall_notMem.mpr fun k hk => ?_)
      obtain ⟨n, hn, -⟩ := hs.mem_liveKeys.mp hk
      have hnC := hC.2.2 n hn.mem hn.ne_tail (hn.unmarked hs)
      rw [hl] at hnC
      exact (hdead n hnC).elim hn.ne_head fun hd => hd hn.deleted
    | cons y l₂ ih =>
      intro l₁ x hl hdead
      obtain ⟨hxP, hxt⟩ := hC.2.1 x (by rw [hl]; simp)
      obtain ⟨hyP, hyt⟩ := hC.2.1 y (by rw [hl]; simp)
      have hsrc := hs.source_zero hxP hxt
      have hseg := hC.1
      rw [hl] at hseg
      have hnext : succ m 0 x = y := (seg_append_cons.mp hseg).2.1
      have hyh : y ≠ head := hnext ▸ (hs.links x 0 hsrc).ne_head
      have hy0 := hs.source_zero hyP hyt
      have hnull := hs.ne_null hyP
      have hl' : C = (l₁ ++ [x]) ++ y :: l₂ := by rw [hl]; simp
      refine Eventually.access rfl (fun _ => access_loadNext rfl (hs.ne_null hxP) hsrc.lt) ?_
      rw [show ((m x).next 0).ptr = y from hnext]
      refine Eventually.access rfl (fun _ => access_loadNext rfl hnull hy0.lt) ?_
      rw [if_pos fun he => hyt ((hs.next_eq_null hyP hy0.lt).mp he)]
      refine Eventually.access rfl (fun _ => access_loadDeleted rfl hnull) ?_
      by_cases hd : (m y).deleted = 0
      · -- the first node that is not deleted has the least key
        rw [if_neg (not_not.mpr hd)]
        have hlive : Live m P y := ⟨hyP, hyh, hyt, hd⟩
        refine h.naive_take hlive fun m' => htake y m' ⟨hs.mem_liveKeys.mpr ⟨y, hlive, rfl⟩, ?_⟩
        intro k hk
        obtain ⟨n, hn, rfl⟩ := hs.mem_liveKeys.mp hk
        have hnC := hC.2.2 n hn.mem hn.ne_tail (hn.unmarked hs)
        rw [hl'] at hnC
        rcases List.mem_append.mp hnC with h₁ | h₂
        · exact ((hdead n h₁).elim hn.ne_head fun hd => hd hn.deleted).elim
        · rcases List.mem_cons.mp h₂ with rfl | h₂
          · exact le_rfl
          · refine (hs.lt_of_before hC ?_ hyh).le
            rw [hl']
            exact (before_cons h₂).mono (List.sublist_append_right _ _)
      · rw [if_pos hd]
        refine ih (l₁ ++ [x]) y hl' fun n hn => ?_
        rcases List.mem_append.mp hn with hn | hn
        · exact hdead n hn
        · rw [List.mem_singleton.mp hn]
          exact Or.inr hd
  obtain ⟨l, hl, -⟩ := hC.eq_cons
  exact key l [] head hl fun n hn => Or.inl (by simpa using hn)

/-- On an empty list `naive_delete_min` increments the tail and returns 1, with nothing written. -/
theorem Seq.naive_tail (h : Seq m brk P) (hd : (m tail).deleted = 0)
    (hQ : Eventually Next Q ⟨⟨modify m tail fun x => { x with deleted := x.deleted + 1 }, brk⟩, seed,
      .ret (.deleted true none)⟩) :
    Eventually Next Q ⟨⟨m, brk⟩, seed, .nvInc tail⟩ := by
  have htop := (h.shape.top tail h.shape.tail_mem).1
  refine Eventually.access rfl (fun _ => access_fetchInc rfl (by decide)) ?_
  rw [if_neg (not_not.mpr hd)]
  dsimp only
  have hself : modify m tail (fun x => { x with deleted := x.deleted + 1 }) tail =
      { m tail with deleted := (m tail).deleted + 1 } := modify_same ..
  refine Eventually.access rfl (fun _ => access_loadNext rfl (by decide) ?_) ?_ <;> dsimp only
  · rw [hself]
    exact htop
  · rw [if_neg]
    · exact hQ
    · rw [hself]
      exact not_not.mpr (h.shape.tail_next 0 htop)

/-- If the tail has been incremented before, it goes on behind the tail and reads through a null
pointer. -/
theorem Seq.naive_crash (h : Seq m brk P) (hd : (m tail).deleted ≠ 0)
    (hQ : Eventually Next Q ⟨⟨modify m tail fun x => { x with deleted := x.deleted + 1 }, brk⟩, seed,
      .crashed⟩) :
    Eventually Next Q ⟨⟨m, brk⟩, seed, .nvInc tail⟩ := by
  have htop := (h.shape.top tail h.shape.tail_mem).1
  refine Eventually.access rfl (fun _ => access_fetchInc rfl (by decide)) ?_
  rw [if_pos hd]
  dsimp only
  have hself : modify m tail (fun x => { x with deleted := x.deleted + 1 }) tail =
      { m tail with deleted := (m tail).deleted + 1 } := modify_same ..
  refine Eventually.access rfl (fun _ => access_loadNext rfl (by decide) ?_) ?_ <;> dsimp only
  · rw [hself]
    exact htop
  · rw [hself, show ({ m tail with deleted := (m tail).deleted + 1 } : Node).next 0 = ref NULL from
      h.shape.tail_next 0 htop]
    exact Eventually.access rfl (fun _ => access_null rfl) hQ

end Naive

/-! ### spray_delete_min -/

section Walk

variable {m : Mem} {brk : NodeId} {P : Set NodeId} {y : NodeId} {seed : ℕ} {Q : Config → Prop}

/-- A read of an entry of `next` that does not exist. -/
theorem access_wild {any : Bool} {s : Shared} {pc : Pc} {n : NodeId} {i : ℕ} {c : Ref → Pc}
    (hc : code pc = .loadNext n i c) (hn : n ≠ NULL) (hi : ¬i < (s.mem n).toplevel) :
    access any ⟨s, seed, pc⟩ = ⟨s, seed, .wild⟩ := by
  simp [access, hc, Instr.target, Instr.inRange, hn, hi]

/-- The spray takes the node it stands on, if that is live. -/
theorem Seq.spray_take (h : Seq m brk P) (hy : Live m P y)
    (hQ : ∀ m', Seq m' brk P → Taken P m m' y →
      Eventually Next Q ⟨⟨m', brk⟩, seed, .ret (.deleted true (some (m y).val))⟩) :
    Eventually Next Q ⟨⟨m, brk⟩, seed, .spInc y⟩ := by
  have hnull := h.shape.ne_null hy.mem
  refine Eventually.access rfl (fun _ => access_fetchInc rfl hnull) ?_
  rw [if_neg (not_not.mpr hy.deleted)]
  obtain ⟨hmk, htk⟩ := h.increment hy
  refine Eventually.access rfl (fun _ => access_loadVal rfl hnull) ?_
  rw [(htk.data y).1]
  exact hmk.finish fun m₂ hseq₂ ht₂ => hQ m₂ hseq₂ (htk.tended ht₂)

/-- The end of the spray: it looks for a node that is not deleted. -/
theorem Seq.spray_skip {cur : NodeId} (h : Seq m brk P) (hcur : cur ∈ P) (hh : cur ≠ head)
    (htake : ∀ y m', Live m P y → Seq m' brk P → Taken P m m' y →
      Eventually Next Q ⟨⟨m', brk⟩, seed, .ret (.deleted true (some (m y).val))⟩)
    (hnone : Eventually Next Q ⟨⟨m, brk⟩, seed, .ret (.deleted false none)⟩) :
    Eventually Next Q ⟨⟨m, brk⟩, seed, .spSkip cur⟩ := by
  have hs := h.shape
  refine Eventually.loop (I := fun cur : NodeId => cur ∈ P ∧ cur ≠ head)
    (fun cur => (⟨⟨m, brk⟩, seed, .spSkip cur⟩ : Config)) (distance m brk) ?_ (a := cur) ⟨hcur, hh⟩
  rintro cur ⟨hcur, hh⟩
  have hnull := hs.ne_null hcur
  have h0 := (hs.top cur hcur).1
  have htail : Eventually Next Q ⟨⟨m, brk⟩, seed, .spTail cur⟩ := by
    refine Eventually.access rfl (fun _ => access_loadNext rfl hnull h0) ?_
    by_cases ht : cur = tail
    · rw [if_pos ((hs.next_eq_null hcur h0).mpr ht)]
      exact hnone
    · rw [if_neg fun he => ht ((hs.next_eq_null hcur h0).mp he)]
      refine Eventually.access rfl (fun _ => access_loadDeleted rfl hnull) ?_
      by_cases hd : (m cur).deleted = 0
      · rw [if_pos hd]
        have hlive : Live m P cur := ⟨hcur, hh, ht, hd⟩
        exact h.spray_take hlive fun m' => htake cur m' hlive
      · rw [if_neg hd]
        exact hnone
  refine Eventually.access rfl (fun _ => access_loadDeleted rfl hnull) ?_
  by_cases hd : (m cur).deleted = 0
  · rw [if_neg (not_not.mpr hd)]
    exact htail.mono fun _ => Or.inl
  · rw [if_pos hd]
    refine Eventually.access rfl (fun _ => access_loadNext rfl hnull h0) ?_
    by_cases ht : cur = tail
    · rw [if_neg (not_not.mpr ((hs.next_eq_null hcur h0).mpr ht))]
      exact htail.mono fun _ => Or.inl
    · rw [if_pos fun he => ht ((hs.next_eq_null hcur h0).mp he)]
      refine Eventually.access rfl (fun _ => access_loadNext rfl hnull h0) ?_
      have hsrc := hs.source_zero hcur ht
      have hnext := hs.links cur 0 hsrc
      exact .now (Or.inr ⟨succ m 0 cur, ⟨hnext.mem, hnext.ne_head⟩, rfl, h.distance_lt hsrc⟩)

/-- A level the spray starts from exists, unless it starts too high. -/
def Walk.good (m : Mem) (w : Walk) : Prop :=
  levelmax ≤ SCANHEIGHT w.n ∨ w.i < (m w.cur).toplevel

/-- One level of the spray: it moves right, and comes to the end of the level. -/
theorem Seq.spray_right {w : Walk} (h : Seq m brk P) (hcur : w.cur ∈ P) (hw : w.good m)
    (hwild : levelmax ≤ SCANHEIGHT w.n → Eventually Next Q ⟨⟨m, brk⟩, seed, .wild⟩)
    (hend : ∀ w', w'.n = w.n → w'.i = w.i → w'.cur ∈ P → w'.good m →
      Eventually Next Q ⟨⟨m, brk⟩, seed, .spEnd w'⟩) :
    Eventually Next Q ⟨⟨m, brk⟩, seed, spStep w⟩ := by
  have hs := h.shape
  refine Eventually.loop (I := fun v : Walk => v.n = w.n ∧ v.i = w.i ∧ v.cur ∈ P ∧ v.good m)
    (fun v => (⟨⟨m, brk⟩, seed, spStep v⟩ : Config)) (fun v => distance m brk v.cur) ?_ (a := w)
    ⟨rfl, rfl, hcur, hw⟩
  rintro v ⟨hn, hi, hcur, hv⟩
  have hdone : Eventually Next Q ⟨⟨m, brk⟩, seed, .spEnd v⟩ := hend v hn hi hcur hv
  unfold spStep
  split
  · have hnull := hs.ne_null hcur
    by_cases hlt : v.i < (m v.cur).toplevel
    · refine Eventually.access rfl (fun _ => access_loadNext rfl hnull hlt) ?_
      by_cases ht : v.cur = tail
      · rw [if_neg (not_not.mpr ((hs.next_eq_null hcur hlt).mpr ht))]
        exact hdone.mono fun _ => Or.inl
      · rw [if_pos fun he => ht ((hs.next_eq_null hcur hlt).mp he)]
        have hsrc : Source m P v.cur v.i := ⟨hcur, ht, hlt⟩
        have hnext := hs.links v.cur v.i hsrc
        refine Eventually.access rfl (fun _ => access_loadNext rfl hnull hlt) ?_
        refine Eventually.access rfl (fun _ => access_loadDeleted rfl (hs.ne_null hnext.mem)) ?_
        refine .now (Or.inr ⟨_, ⟨?_, ?_, ?_, ?_⟩, rfl, ?_⟩) <;> split
        all_goals first | exact hn | exact hi | exact hnext.mem | exact Or.inr hnext.lt |
          exact h.distance_lt hsrc
    · refine Eventually.access rfl (fun _ => access_wild rfl hnull hlt) ?_
      exact (hwild (by rw [← hn]; exact hv.resolve_right hlt)).mono fun _ => Or.inl
  · exact hdone.mono fun _ => Or.inl

/-- The draw at the start of a level. -/
theorem Eventually.draw {s : Shared} {w : Walk}
    (h : ∀ d l seed, Eventually Next Q ⟨s, seed, spStep { w with dummy := d, scanlen := l }⟩) :
    Eventually Next Q ⟨s, seed, .spDraw w⟩ :=
  Eventually.access rfl (fun _ => access_draw rfl) (h _ _ _)

/-- **The spray ends.**  It takes a live node or none. -/
theorem Seq.spray_walk {w : Walk} (h : Seq m brk P) (hcur : w.cur ∈ P) (hw : w.good m)
    (hwild : levelmax ≤ SCANHEIGHT w.n → ∀ seed, Eventually Next Q ⟨⟨m, brk⟩, seed, .wild⟩)
    (htake : ∀ y m' seed, Live m P y → Seq m' brk P → Taken P m m' y →
      Eventually Next Q ⟨⟨m', brk⟩, seed, .ret (.deleted true (some (m y).val))⟩)
    (hnone : ∀ seed, Eventually Next Q ⟨⟨m, brk⟩, seed, .ret (.deleted false none)⟩) :
    Eventually Next Q ⟨⟨m, brk⟩, seed, .spDraw w⟩ := by
  have hs := h.shape
  induction hi : w.i generalizing w seed with
  | zero =>
    refine Eventually.draw fun d l seed => ?_
    refine h.spray_right hcur hw (fun hn => hwild hn _) fun w' hn hi' hcur' hw' => ?_
    refine Eventually.access rfl
      (fun _ => access_loadNext rfl (hs.ne_null hcur') (hs.top _ hcur').1) ?_
    split
    · exact hnone _
    · rw [if_pos (hi'.trans hi)]
      split
      · exact hnone _
      · rename_i hh
        exact h.spray_skip hcur' hh (fun y m' => htake y m' _) (hnone _)
  | succ i ih =>
    refine Eventually.draw fun d l seed => ?_
    refine h.spray_right hcur hw (fun hn => hwild hn _) fun w' hn hi' hcur' hw' => ?_
    refine Eventually.access rfl
      (fun _ => access_loadNext rfl (hs.ne_null hcur') (hs.top _ hcur').1) ?_
    have hi'' : w'.i = i + 1 := hi'.trans hi
    split
    · exact hnone _
    · rw [if_neg (by omega)]
      refine ih (w := { w' with i := w'.i - 1 }) hcur' (hw'.imp_right fun hlt => ?_)
        (fun hge => hwild (by rw [← hn]; exact hge)) ?_
      · exact lt_of_le_of_lt (Nat.sub_le _ _) hlt
      · show w'.i - 1 = i
        omega

end Walk

end ConcurrentPQ.Spray

import ConcurrentPQ.Spray.Sequential

/-!
# Insertions by the only thread

* `Shape.live_behind`, `Seq.mem_iff` — a search finds the live node with its key, if there is one;
* `Seq.private`, `Seq.publish`, `Seq.link` — the writes of an insertion keep the shape of memory;
* `Linking` — the upper levels of a new node are being linked in;
* `Seq.insert` — **`fraser_insert` ends**, adds its key if it was not live, and returns whether it did.
-/

namespace ConcurrentPQ.Spray

open ConcurrentPQ.Segment

section Facts

variable {m m' : Mem} {brk brk' : NodeId} {P : Set NodeId} {n x y left new : NodeId} {i j : ℕ}
  {f : Frame}

/-- Behind the head the chain is sorted. -/
theorem Shape.lt_of_before (hs : Shape m brk P) {C : List NodeId} (hC : Chain m P C)
    (h : Before C x y) (hx : x ≠ head) : (m x).val < (m y).val := by
  obtain ⟨l, rfl, hl⟩ := hC.eq_cons
  have hh := hs.links head 0 (hs.head_source (by decide))
  have hsort := (hs.sorted_of_seg hl
    (fun n hn => hC.2.1 n (List.mem_cons_of_mem _ hn)) hh.ne_head).2
  cases h with
  | cons _ h => exact List.pairwise_iff_forall_sublist.mp hsort h
  | cons_cons _ _ => exact absurd rfl hx

/-- Nothing stands before the head. -/
theorem Shape.not_before_head (hs : Shape m brk P) {C : List NodeId} (hC : Chain m P C) :
    ¬Before C x head := by
  intro h
  have hnd := hs.chain_nodup hC
  obtain ⟨l, rfl, -⟩ := hC.eq_cons
  cases h with
  | cons _ h => exact (List.nodup_cons.mp hnd).1 (Before.right_mem h)
  | cons_cons _ h => exact (List.nodup_cons.mp hnd).1 (List.singleton_sublist.mp h)

/-- A live key that is not greater than that behind a node, and greater than its own, is that of the
next node. -/
theorem Shape.live_behind (hs : Shape m brk P) {k : ℕ} (hl : Source m P left 0)
    (hun : ¬Marked m 0 left) (hlt : left ≠ head → (m left).val < k)
    (hle : k ≤ (m (succ m 0 left)).val) (hk : k ∈ liveKeys m) :
    Live m P (succ m 0 left) ∧ (m (succ m 0 left)).val = k := by
  obtain ⟨x, hx, rfl⟩ := hs.mem_liveKeys.mp hk
  obtain ⟨C, hC⟩ := hs.chain
  have hxC := hC.2.2 x hx.mem hx.ne_tail (hx.unmarked hs)
  obtain ⟨l₁, l₂, rfl⟩ := List.append_of_mem (hC.2.2 left hl.mem hl.ne_tail hun)
  have hnext := hs.links left 0 hl
  rcases List.mem_append.mp hxC with h₁ | h₂
  · have hb : Before (l₁ ++ left :: l₂) x left := before_append h₁ List.mem_cons_self
    have hxl := hs.lt_of_before hC hb hx.ne_head
    have hh : left ≠ head := by
      rintro rfl
      exact hs.not_before_head hC hb
    exact absurd (hlt hh) (not_lt.mpr hxl.le)
  · rcases List.mem_cons.mp h₂ with rfl | h₂
    · exact absurd (hlt hx.ne_head) (lt_irrefl _)
    · -- the node lies behind `left`, and what lies further behind is greater
      have hseg := (seg_append_cons.mp hC.1).2
      cases l₂ with
      | nil => cases h₂
      | cons y l₂ =>
        obtain ⟨rfl, hseg⟩ := hseg
        rcases List.mem_cons.mp h₂ with rfl | h₂
        · exact ⟨hx, rfl⟩
        · have hb : Before (l₁ ++ left :: succ m 0 left :: l₂) (succ m 0 left) x := by
            refine (before_cons h₂).mono ?_
            exact (List.sublist_cons_self _ _).trans (List.sublist_append_right _ _)
          exact absurd (hs.lt_of_before hC hb hnext.ne_head) (not_lt.mpr hle)

/-- A node of the list that carries no mark is the head, the tail, or live. -/
theorem Seq.live_of_unmarked (h : Seq m brk P) (hn : Target m P n i) (hun : ¬Marked m i n)
    (ht : n ≠ tail) : Live m P n := by
  refine ⟨hn.mem, hn.ne_head, ht, ?_⟩
  by_contra hd
  exact hun ((h.marks n ⟨hn.mem, hn.ne_head, ht⟩ i hn.lt).mpr hd)

/-- What a search finds on level 0 tells whether the key is live. -/
theorem Seq.mem_iff (h : Seq m brk P) (hp : Position m P f 0) (hv : f.val < INT_MAX) :
    f.val ∈ liveKeys m ↔ (m (f.succs 0)).val = f.val := by
  constructor
  · intro hk
    by_contra hne
    have hun : ¬Marked m 0 (f.preds 0) := by
      unfold Marked
      rw [hp.next]
      nofun
    have hsucc : succ m 0 (f.preds 0) = f.succs 0 := by rw [succ, hp.next]
    have hlive := h.shape.live_behind hp.pred.1 hun hp.pred.2 (by rw [hsucc]; exact hp.le) hk
    rw [hsucc] at hlive
    exact hne hlive.2
  · intro he
    have ht : f.succs 0 ≠ tail := by
      intro ht
      rw [ht, h.shape.tail_val] at he
      omega
    exact h.shape.mem_liveKeys.mpr ⟨_, h.live_of_unmarked hp.succ hp.unmarked ht, he⟩

/-- If the key is not live, no recorded successor holds it. -/
theorem Seq.succ_ne (h : Seq m brk P) (hp : Position m P f i) (hv : f.val < INT_MAX)
    (hk : f.val ∉ liveKeys m) : (m (f.succs i)).val ≠ f.val := by
  intro he
  by_cases ht : f.succs i = tail
  · rw [ht, h.shape.tail_val] at he
    omega
  · exact hk (h.shape.mem_liveKeys.mpr ⟨_, h.live_of_unmarked hp.succ hp.unmarked ht, he⟩)

/-! ### Writes -/

/-- A node that is not linked in is written. -/
theorem Seq.private (h : Seq m brk P) (hb : brk ≤ brk') (hn : new ∉ P)
    (hm : ∀ x, x ≠ new → m' x = m x) : Seq m' brk' P := by
  have heq : ∀ x ∈ P, m' x = m x := fun x hx => hm x fun he => hn (he ▸ hx)
  have hsame : Same m m' P := .private hn hm
  have hsrc : ∀ {n i}, Source m' P n i → Source m P n i := fun hx =>
    ⟨hx.mem, hx.ne_tail, by rw [← heq _ hx.mem]; exact hx.lt⟩
  refine ⟨h.shape.same hsame hb, fun n i hx hh => ?_, fun n hx i hi => ?_⟩
  · have hnext := (h.shape.links n i (hsrc hx)).mem
    rw [hsame.succ hx.mem]
    exact (h.ordered n i (hsrc hx) hh).congr (by rw [heq n hx.mem]) (by rw [heq _ hnext])
  · unfold Marked
    rw [heq n hx.mem] at hi ⊢
    exact h.marks n hx i hi

/-- The live keys do not depend on the nodes that are not linked in. -/
theorem Shape.liveKeys_eq (hs : Shape m brk P) (hs' : Shape m' brk' P)
    (h : ∀ n ∈ P, (m' n).val = (m n).val ∧ ((m' n).deleted = 0 ↔ (m n).deleted = 0)) :
    liveKeys m' = liveKeys m := by
  ext k
  rw [hs.mem_liveKeys, hs'.mem_liveKeys]
  refine exists_congr fun n => ?_
  constructor
  · rintro ⟨hn, hk⟩
    exact ⟨⟨hn.mem, hn.ne_head, hn.ne_tail, (h n hn.mem).2.mp hn.deleted⟩,
      (h n hn.mem).1.symm.trans hk⟩
  · rintro ⟨hn, hk⟩
    exact ⟨⟨hn.mem, hn.ne_head, hn.ne_tail, (h n hn.mem).2.mpr hn.deleted⟩,
      (h n hn.mem).1.trans hk⟩

/-- A new node is linked in on level 0. -/
theorem Seq.publish {s : ℕ → NodeId} (h : Seq m brk P) (hr : Ready m brk P new s)
    (hn : Source m P left 0) (hnext : (m left).next 0 = ref (s 0))
    (hl : left ≠ head → (m left).val < (m new).val) (hv₀ : (m new).val < (m (s 0)).val)
    (hv : ∀ i, i < (m new).toplevel → Precedes m new (s i)) (hd : (m new).deleted = 0) :
    Seq (setNext m left 0 (ref new)) brk (insert new P) := by
  have hne : new ≠ left := fun he => hr.notMem (he ▸ hn.mem)
  have hmem : ∀ {x}, x ∈ insert new P → x = new ∨ x ∈ P := fun hx => Set.mem_insert_iff.mp hx
  refine ⟨(h.shape.publish hr hn hnext hl hv₀).1, fun x i hx hh => ?_,
    fun x hx i hi => ?_⟩
  · have hlt := hx.lt
    rw [setNext_toplevel] at hlt
    rcases hmem hx.mem with rfl | hxP
    · rw [succ_setNext_ne fun he => hne he.1, succ, (hr.next i hlt).1]
      exact (hv i hlt).congr (setNext_val ..) (setNext_val ..)
    · by_cases he : x = left ∧ i = 0
      · obtain ⟨rfl, rfl⟩ := he
        rw [succ_setNext_same]
        exact Or.inl (by rw [setNext_val, setNext_val]; exact hl hh)
      · rw [succ_setNext_ne he]
        exact (h.ordered x i ⟨hxP, hx.ne_tail, hlt⟩ hh).congr (setNext_val ..) (setNext_val ..)
  · rw [setNext_toplevel] at hi
    rw [setNext_deleted]
    unfold Marked
    rw [setNext_next]
    rcases hmem hx.mem with rfl | hxP
    · rw [if_neg fun he => hne he.1, (hr.next i hi).1]
      exact ⟨fun he => absurd he Bool.false_ne_true, fun hd' => absurd hd hd'⟩
    · rw [← h.marks x ⟨hxP, hx.ne_head, hx.ne_tail⟩ i hi]
      split
      · rename_i he
        obtain ⟨rfl, rfl⟩ := he
        unfold Marked
        rw [hnext]
      · exact Iff.rfl

/-- A node that is linked in on level 0 is linked in on another level. -/
theorem Seq.link (h : Seq m brk P) (hi : 0 < i) (hl : Source m P left i) (hun : ¬Marked m i left)
    (ht : Target m P new i) (hv : left ≠ head → (m left).val < (m new).val) :
    Seq (setNext m left i (ref new)) brk P where
  shape := h.shape.write hl ht (fun hm => by cases hm) fun he => absurd he (Nat.ne_of_gt hi)
  ordered x j hx hh := by
    rw [source_setNext] at hx
    by_cases he : x = left ∧ j = i
    · obtain ⟨rfl, rfl⟩ := he
      rw [succ_setNext_same]
      exact Or.inl (by rw [setNext_val, setNext_val]; exact hv hh)
    · rw [succ_setNext_ne he]
      exact (h.ordered x j hx hh).congr (setNext_val ..) (setNext_val ..)
  marks x hx j hj := by
    rw [setNext_toplevel] at hj
    rw [setNext_deleted, ← h.marks x hx j hj]
    unfold Marked
    rw [setNext_next]
    split
    · rename_i he
      obtain ⟨rfl, rfl⟩ := he
      exact ⟨fun hm => (by cases hm), fun hm => absurd hm hun⟩
    · exact Iff.rfl

end Facts

/-! ### fraser_insert -/

section Insert

variable {m m₀ : Mem} {brk : NodeId} {P : Set NodeId} {seed : ℕ} {Q : Config → Prop} {f : Frame}
  {i : ℕ}

/-- The list has a new node with key `v`, and is otherwise the same. -/
structure Inserted (m₀ m : Mem) (P : Set NodeId) (new : NodeId) (v : ℕ) : Prop where
  notMem : new ∉ P
  val : (m new).val = v
  deleted : (m new).deleted = 0
  data : ∀ n ∈ P, (m n).val = (m₀ n).val ∧ (m n).toplevel = (m₀ n).toplevel ∧
    (m n).deleted = (m₀ n).deleted

theorem Inserted.liveKeys {brk' : NodeId} {new : NodeId} {v : ℕ} (h : Inserted m₀ m P new v)
    (hs₀ : Shape m₀ brk P) (hs : Shape m brk' (insert new P)) :
    liveKeys m = insert v (liveKeys m₀) := by
  have hne : ∀ {x}, x ∈ P → new ≠ x := fun hx he => h.notMem (he ▸ hx)
  ext k
  rw [Set.mem_insert_iff, hs.mem_liveKeys, hs₀.mem_liveKeys]
  constructor
  · rintro ⟨n, hn, rfl⟩
    rcases Set.mem_insert_iff.mp hn.mem with rfl | hnP
    · exact Or.inl h.val
    · obtain ⟨hv, -, hd⟩ := h.data n hnP
      exact Or.inr ⟨n, ⟨hnP, hn.ne_head, hn.ne_tail, hd.symm.trans hn.deleted⟩, hv.symm⟩
  · rintro (rfl | ⟨n, hn, rfl⟩)
    · exact ⟨new, ⟨Set.mem_insert _ _, hne hs₀.head_mem, hne hs₀.tail_mem, h.deleted⟩, h.val⟩
    · obtain ⟨hv, -, hd⟩ := h.data n hn.mem
      exact ⟨n, ⟨Set.mem_insert_of_mem _ hn.mem, hn.ne_head, hn.ne_tail, hd.trans hn.deleted⟩, hv⟩

/-- The upper levels of the new node are being linked in. -/
structure Linking (m₀ m : Mem) (brk : NodeId) (P : Set NodeId) (f : Frame) (i : ℕ) : Prop where
  seq : Seq m brk (insert f.new P)
  inserted : Inserted m₀ m P f.new f.val
  linked : Linked m (insert f.new P) f
  pos : 1 ≤ i
  next : ∀ j, j < f.lvl → (m f.new).next j = ref (f.succs j)
  succ : ∀ j, j < f.lvl → f.succs j ∈ P
  preds : ∀ j, i ≤ j → j < f.lvl → LeftOk m P f (f.preds j) j ∧
    (m (f.preds j)).next j = ref (f.succs j)

/-- Linking the new node in on level `i`. -/
theorem Linking.link (h : Linking m₀ m brk P f i) (hi : i < f.lvl) :
    Linking m₀ (setNext m (f.preds i) i (ref f.new)) brk P f (i + 1) := by
  obtain ⟨hl, hnext⟩ := h.preds i le_rfl hi
  have hlP := hl.1.mem
  have hne : f.new ≠ f.preds i := fun he => h.inserted.notMem (he ▸ hlP)
  have hnode : setNext m (f.preds i) i (ref f.new) f.new = m f.new :=
    setNext_node_ne _ _ _ _ _ hne
  have hun : ¬Marked m i (f.preds i) := by
    unfold Marked
    rw [hnext]
    nofun
  have hsrc : Source m (insert f.new P) (f.preds i) i :=
    ⟨Set.mem_insert_of_mem _ hlP, hl.1.ne_tail, hl.1.lt⟩
  have hseq : Seq (setNext m (f.preds i) i (ref f.new)) brk (insert f.new P) := by
    refine h.seq.link (by have := h.pos; omega) hsrc hun
      ⟨h.linked.mem, h.linked.ne_head, by rw [h.linked.top]; exact hi⟩ fun hh => ?_
    rw [h.inserted.val]
    exact hl.2 hh
  have hdata : ∀ n, (setNext m (f.preds i) i (ref f.new) n).val = (m n).val ∧
      (setNext m (f.preds i) i (ref f.new) n).toplevel = (m n).toplevel ∧
      (setNext m (f.preds i) i (ref f.new) n).deleted = (m n).deleted :=
    fun n => ⟨setNext_val .., setNext_toplevel .., setNext_deleted ..⟩
  constructor
  case seq => exact hseq
  case inserted =>
    refine ⟨h.inserted.notMem, by rw [hnode]; exact h.inserted.val,
      by rw [hnode]; exact h.inserted.deleted, fun n hn => ?_⟩
    rw [(hdata n).1, (hdata n).2.1, (hdata n).2.2]
    exact h.inserted.data n hn
  case linked =>
    exact ⟨h.linked.val_lt, h.linked.mem, h.linked.ne_head, h.linked.ne_tail, h.linked.lvl,
      by rw [hnode]; exact h.linked.top⟩
  case pos => exact Nat.le_succ_of_le h.pos
  case next =>
    intro j hj
    rw [hnode]
    exact h.next j hj
  case succ => exact h.succ
  case preds =>
    intro j hj hlt
    obtain ⟨hp, hn⟩ := h.preds j (by omega) hlt
    refine ⟨⟨source_setNext.mpr hp.1, fun hh => by rw [(hdata _).1]; exact hp.2 hh⟩, ?_⟩
    rw [setNext_of_ne _ _ _ _ _ _ fun he => absurd he.2 (by omega)]
    exact hn

/-- The loop over the upper levels. -/
theorem Linking.finish (h : Linking m₀ m brk P f i)
    (hne : ∀ j, j < f.lvl → (m₀ (f.succs j)).val ≠ f.val)
    (hQ : ∀ m', Seq m' brk (insert f.new P) → Inserted m₀ m' P f.new f.val →
      Eventually Next Q ⟨⟨m', brk⟩, seed, .ret (.inserted true)⟩) :
    Eventually Next Q ⟨⟨m, brk⟩, seed, .upTest f i⟩ := by
  induction hk : f.lvl - i generalizing m i with
  | zero =>
    have hnew := h.seq.shape.ne_null h.linked.mem
    refine Eventually.access rfl (fun _ => access_loadToplevel rfl hnew) ?_
    rw [h.linked.top, if_neg (by omega)]
    exact hQ m h.seq h.inserted
  | succ k ih =>
    have hs := h.seq.shape
    have hnew := hs.ne_null h.linked.mem
    have hi : i < f.lvl := by omega
    have hit : i < (m f.new).toplevel := by rw [h.linked.top]; exact hi
    obtain ⟨hl, hnext⟩ := h.preds i le_rfl hi
    refine Eventually.access rfl (fun _ => access_loadToplevel rfl hnew) ?_
    rw [h.linked.top, if_pos hi]
    refine Eventually.access rfl (fun _ => access_loadNext rfl hnew hit) ?_
    rw [h.next i hi, if_neg (by simp [is_marked]), if_neg (by simp)]
    have hsucc := Set.mem_insert_of_mem f.new (h.succ i hi)
    refine Eventually.access rfl (fun _ => access_loadVal rfl (hs.ne_null hsucc)) ?_
    have hval : (m (f.succs i)).val ≠ f.val := by
      rw [(h.inserted.data _ (h.succ i hi)).1]
      exact hne i hi
    rw [if_neg hval]
    have hlP := Set.mem_insert_of_mem f.new hl.1.mem
    refine Eventually.access rfl
      (fun _ => access_cas_hit rfl (hs.ne_null hlP) hl.1.lt hnext) ?_
    exact ih (h.link hi) (by omega)

/-- Linking in a prepared node on level 0. -/
theorem Seq.linking (h : Seq m brk P) (hn : New m brk P f)
    (hp : ∀ j, j < f.lvl → LeftOk m P f (f.preds j) j ∧
      (m (f.preds j)).next j = ref (f.succs j) ∧ Target m P (f.succs j) j)
    (hnext : ∀ j, j < f.lvl → (m f.new).next j = ref (f.succs j))
    (hlt : f.val < (m (f.succs 0)).val) (hprec : ∀ j, j < f.lvl → Precedes m f.new (f.succs j)) :
    Linking m (setNext m (f.preds 0) 0 (ref f.new)) brk P f 1 := by
  have hne : ∀ {x}, x ∈ P → f.new ≠ x := fun hx he => hn.claimed.notMem (he ▸ hx)
  obtain ⟨hl, hnext₀, -⟩ := hp 0 hn.claimed.lvl.1
  have hready : Ready m brk P f.new f.succs := by
    refine ⟨hn.claimed.notMem, hn.claimed.ne_null, hn.claimed.lt, ?_, ?_, fun j hj => ?_⟩
    · rw [hn.top]
      exact hn.claimed.lvl
    · rw [hn.val]
      exact hn.claimed.val_lt
    · rw [hn.top] at hj
      exact ⟨hnext j hj, (hp j hj).2.2⟩
  have hnode : setNext m (f.preds 0) 0 (ref f.new) f.new = m f.new :=
    setNext_node_ne _ _ _ _ _ (hne hl.1.mem)
  have hseq : Seq (setNext m (f.preds 0) 0 (ref f.new)) brk (insert f.new P) := by
    refine h.publish hready hl.1 hnext₀ (fun hh => ?_) (by rw [hn.val]; exact hlt)
      (fun j hj => hprec j (by rwa [hn.top] at hj)) hn.deleted
    rw [hn.val]
    exact hl.2 hh
  constructor
  case seq => exact hseq
  case inserted =>
    exact ⟨hn.claimed.notMem, by rw [hnode]; exact hn.val, by rw [hnode]; exact hn.deleted,
      fun n _ => ⟨setNext_val .., setNext_toplevel .., setNext_deleted ..⟩⟩
  case linked =>
    exact ⟨hn.claimed.val_lt, Set.mem_insert _ _, hne h.shape.head_mem, hne h.shape.tail_mem,
      hn.claimed.lvl.2, by rw [hnode]; exact hn.top⟩
  case pos => exact le_rfl
  case next =>
    intro j hj
    rw [hnode]
    exact hnext j hj
  case succ => exact fun j hj => (hp j hj).2.2.mem
  case preds =>
    intro j hj hlt
    obtain ⟨hpj, hnj, -⟩ := hp j hlt
    refine ⟨⟨source_setNext.mpr hpj.1, fun hh => by rw [setNext_val]; exact hpj.2 hh⟩, ?_⟩
    rw [setNext_of_ne _ _ _ _ _ _ fun he => absurd he.2 (by omega)]
    exact hnj

/-- The new node is prepared and about to be linked in on level 0. -/
theorem Seq.link_in (h : Seq m brk P) (hn : New m brk P f) (hp : ∀ j, j < levelmax → Position m P f j)
    (hnext : ∀ j, j < f.lvl → (m f.new).next j = ref (f.succs j)) (hk : f.val ∉ liveKeys m)
    (hQ : ∀ m', Seq m' brk (insert f.new P) → Inserted m m' P f.new f.val →
      Eventually Next Q ⟨⟨m', brk⟩, seed, .ret (.inserted true)⟩) :
    Eventually Next Q ⟨⟨m, brk⟩, seed, .insCas f⟩ := by
  have hlvl : ∀ {j}, j < f.lvl → j < levelmax := fun hj => lt_of_lt_of_le hj hn.claimed.lvl.2
  have h0 := hp 0 (by decide)
  have hval : ∀ j, j < f.lvl → (m (f.succs j)).val ≠ f.val := fun j hj =>
    h.succ_ne (hp j (hlvl hj)) hn.claimed.val_lt hk
  have hlt : ∀ j, j < f.lvl → f.val < (m (f.succs j)).val := fun j hj =>
    lt_of_le_of_ne (hp j (hlvl hj)).le (hval j hj).symm
  have hlink := h.linking hn (fun j hj => ⟨(hp j (hlvl hj)).pred, (hp j (hlvl hj)).next,
    (hp j (hlvl hj)).succ⟩) hnext (hlt 0 hn.claimed.lvl.1)
    fun j hj => Or.inl (by rw [hn.val]; exact hlt j hj)
  exact Eventually.access rfl
    (fun _ => access_cas_hit rfl (h.shape.ne_null h0.pred.1.mem) h0.pred.1.lt h0.next)
    (hlink.finish hval hQ)

/-- A position does not depend on nodes that are not linked in. -/
theorem Position.private {m' : Mem} {j : ℕ} (h : Position m P f j) (hm : ∀ x ∈ P, m' x = m x) :
    Position m' P f j := by
  have hl := hm _ h.pred.1.mem
  have hr := hm _ h.succ.mem
  refine ⟨⟨⟨h.pred.1.mem, h.pred.1.ne_tail, by rw [hl]; exact h.pred.1.lt⟩, fun hh => ?_⟩, ?_,
    ⟨h.succ.mem, h.succ.ne_head, by rw [hr]; exact h.succ.lt⟩, by rw [hr]; exact h.le, ?_⟩
  · rw [hl]
    exact h.pred.2 hh
  · rw [hl]
    exact h.next
  · unfold Marked
    rw [hr]
    exact h.unmarked

/-- The loop that stores the successors in the new node. -/
theorem Seq.prepare (h : Seq m brk P) (hn : New m brk P f)
    (hp : ∀ j, j < levelmax → Position m P f j)
    (hnext : ∀ j, j < i → (m f.new).next j = ref (f.succs j)) (hi : i ≤ f.lvl)
    (hk : f.val ∉ liveKeys m)
    (hQ : ∀ m₁ m', (∀ x, x ≠ f.new → m₁ x = m x) → Seq m' brk (insert f.new P) →
      Inserted m₁ m' P f.new f.val →
      Eventually Next Q ⟨⟨m', brk⟩, seed, .ret (.inserted true)⟩) :
    Eventually Next Q ⟨⟨m, brk⟩, seed, .insTest f i⟩ := by
  induction hk' : f.lvl - i generalizing m i with
  | zero =>
    refine Eventually.access rfl (fun _ => access_loadToplevel rfl hn.claimed.ne_null) ?_
    rw [hn.top, if_neg (by omega)]
    exact h.link_in hn hp (fun j hj => hnext j (by omega)) hk fun m' => hQ m m' fun _ _ => rfl
  | succ k ih =>
    have hlt : i < f.lvl := by omega
    refine Eventually.access rfl (fun _ => access_loadToplevel rfl hn.claimed.ne_null) ?_
    rw [hn.top, if_pos hlt]
    refine Eventually.access rfl
      (fun _ => access_storeNext rfl hn.claimed.ne_null (by rw [hn.top]; exact hlt)) ?_
    have hpriv : ∀ x, x ≠ f.new → setNext m f.new i (ref (f.succs i)) x = m x :=
      fun x hx => setNext_node_ne _ _ _ _ _ hx
    have hP : ∀ x ∈ P, setNext m f.new i (ref (f.succs i)) x = m x :=
      fun x hx => hpriv x fun he => hn.claimed.notMem (he ▸ hx)
    have hseq := h.private le_rfl hn.claimed.notMem hpriv
    have hkeys : liveKeys (setNext m f.new i (ref (f.succs i))) = liveKeys m :=
      h.shape.liveKeys_eq hseq.shape fun n hnP => by simp
    refine ih (i := i + 1) hseq ⟨hn.claimed, ?_, ?_, ?_⟩ (fun j hj => (hp j hj).private hP) ?_ hlt
      (by rw [hkeys]; exact hk) (fun m₁ m' hm₁ => hQ m₁ m' fun x hx => ?_) (by omega)
    · rw [setNext_val]; exact hn.val
    · rw [setNext_toplevel]; exact hn.top
    · rw [setNext_deleted]; exact hn.deleted
    · intro j hj
      rw [setNext_next]
      split
      · rename_i he
        rw [he.2]
      · rename_i he
        exact hnext j (by
          have : j ≠ i := fun h => he ⟨rfl, h⟩
          omega)
    · rw [hm₁ x hx, hpriv x hx]

/-- What `fraser_insert` does behind its search. -/
theorem Seq.after_search {lvl : ℕ} {v : ℕ} (h : Seq m brk P) (hn : New m brk P f)
    (hp : ∀ j, j < levelmax → Position m P f j) (hf : f.val = v ∧ f.lvl = lvl)
    (hnew : v ∉ liveKeys m → ∀ m₁ m', (∀ x, x ≠ f.new → m₁ x = m x) →
      Seq m' brk (insert f.new P) → Inserted m₁ m' P f.new v →
      Eventually Next Q ⟨⟨m', brk⟩, seed, .ret (.inserted true)⟩)
    (hold : v ∈ liveKeys m → Eventually Next Q ⟨⟨m, brk⟩, seed, .ret (.inserted false)⟩) :
    Eventually Next Q ⟨⟨m, brk⟩, seed, .insDup f⟩ := by
  obtain ⟨rfl, rfl⟩ := hf
  have h0 := hp 0 (by decide)
  have hsucc := h.shape.ne_null h0.succ.mem
  have hiff := h.mem_iff h0 hn.claimed.val_lt
  refine Eventually.access rfl (fun _ => access_loadVal rfl hsucc) ?_
  by_cases hv : (m (f.succs 0)).val = f.val
  · -- the node found is live, so the key is not inserted
    have ht : f.succs 0 ≠ tail := by
      intro ht
      have := hn.claimed.val_lt
      rw [ht, h.shape.tail_val] at hv
      omega
    have hlive := h.live_of_unmarked h0.succ h0.unmarked ht
    rw [if_pos hv]
    refine Eventually.access rfl (fun _ => access_loadDeleted rfl hsucc) ?_
    rw [if_neg (not_not.mpr hlive.deleted)]
    exact Eventually.access rfl (fun _ => access_freeNode rfl hn.claimed.ne_null)
      (hold (hiff.mpr hv))
  · rw [if_neg hv]
    have hk : f.val ∉ liveKeys m := fun hk => hv (hiff.mp hk)
    exact h.prepare hn hp (fun j hj => absurd hj (Nat.not_lt_zero j)) (Nat.zero_le _) hk (hnew hk)

/-- Memory behind `sl_new_simple_node`. -/
def sl_new_simple_node (m : Mem) (n : NodeId) (v lvl : ℕ) : Mem :=
  modify (modify (modify m n fun x => { x with val := v }) n fun x => { x with toplevel := lvl }) n
    fun x => { x with deleted := 0 }

theorem sl_new_simple_node_ne {n x : NodeId} {v lvl : ℕ} (h : x ≠ n) :
    sl_new_simple_node m n v lvl x = m x := by
  rw [sl_new_simple_node, modify_ne _ _ _ _ h, modify_ne _ _ _ _ h, modify_ne _ _ _ _ h]

theorem sl_new_simple_node_same {n : NodeId} {v lvl : ℕ} :
    sl_new_simple_node m n v lvl n = { m n with val := v, toplevel := lvl, deleted := 0 } := by
  rw [sl_new_simple_node, modify_same, modify_same, modify_same]

/-- Allocating a node is not noticed. -/
theorem Seq.allocate (h : Seq m brk P) (v lvl : ℕ) :
    Seq (sl_new_simple_node m brk v lvl) (brk + 1) P ∧
      ∀ x ∈ P, sl_new_simple_node m brk v lvl x = m x := by
  have hno : brk ∉ P := fun hm => lt_irrefl _ (h.shape.lt_brk _ hm)
  exact ⟨h.private (Nat.le_succ _) hno fun x hx => sl_new_simple_node_ne hx,
    fun x hx => sl_new_simple_node_ne fun he => hno (he ▸ hx)⟩

theorem Inserted.congr {m₁ m' : Mem} {new : NodeId} {v : ℕ} (h : Inserted m₁ m' P new v)
    (hm : ∀ x ∈ P, (m₁ x).val = (m x).val ∧ (m₁ x).toplevel = (m x).toplevel ∧
      (m₁ x).deleted = (m x).deleted) : Inserted m m' P new v := by
  refine ⟨h.notMem, h.val, h.deleted, fun n hn => ?_⟩
  obtain ⟨h₁, h₂, h₃⟩ := h.data n hn
  obtain ⟨e₁, e₂, e₃⟩ := hm n hn
  exact ⟨h₁.trans e₁, h₂.trans e₂, h₃.trans e₃⟩

/-- A node the allocator hands out is not null, and the stores to it go through. -/
theorem Eventually.new_node {v lvl : ℕ} (hb : brk ≠ NULL)
    (hQ : Eventually Next Q ⟨⟨sl_new_simple_node m brk v lvl, brk + 1⟩, seed,
      Spray.search (.begin v lvl brk) .insert⟩) :
    Eventually Next Q ⟨⟨m, brk⟩, seed, .insAlloc v lvl⟩ := by
  refine Eventually.access rfl (fun _ => access_alloc rfl) ?_
  refine Eventually.access rfl (fun _ => access_storeVal rfl hb) ?_
  refine Eventually.access rfl (fun _ => access_storeToplevel rfl hb) ?_
  exact Eventually.access rfl (fun _ => access_storeDeleted rfl hb) hQ

theorem Seq.brk_ne_null (h : Seq m brk P) : brk ≠ NULL := fun he =>
  absurd (he ▸ h.shape.brk_ge) (by decide)

/-- **`fraser_insert` ends.**  It adds its key if it was not live, and returns whether it did. -/
theorem Seq.insert {v lvl : ℕ} (h : Seq m brk P) (hv : v < INT_MAX) (hl : 1 ≤ lvl ∧ lvl ≤ levelmax)
    (hnew : v ∉ liveKeys m → ∀ m', Seq m' (brk + 1) (insert brk P) → Inserted m m' P brk v →
      Eventually Next Q ⟨⟨m', brk + 1⟩, seed, .ret (.inserted true)⟩)
    (hold : v ∈ liveKeys m → ∀ m', Seq m' (brk + 1) P →
      (∀ n ∈ P, (m' n).val = (m n).val ∧ (m' n).deleted = (m n).deleted) →
      Eventually Next Q ⟨⟨m', brk + 1⟩, seed, .ret (.inserted false)⟩) :
    Eventually Next Q ⟨⟨m, brk⟩, seed, .insAlloc v lvl⟩ := by
  have hno : brk ∉ P := fun hm => lt_irrefl _ (h.shape.lt_brk _ hm)
  obtain ⟨hseq, hP⟩ := h.allocate v lvl
  refine Eventually.new_node h.brk_ne_null ?_
  set m₁ := sl_new_simple_node m brk v lvl
  have hnode : m₁ brk = { m brk with val := v, toplevel := lvl, deleted := 0 } :=
    sl_new_simple_node_same
  have hkeys : liveKeys m₁ = liveKeys m := h.shape.liveKeys_eq hseq.shape fun n hn => by
    rw [hP n hn]
    exact ⟨rfl, Iff.rfl⟩
  refine hseq.search (f := .begin v lvl brk) hv.le fun m₂ f hseq₂ ht hsame hp => ?_
  have hfn : f.new = brk := hsame.2.2
  have hfv : f.val = v := hsame.1
  have hfl : f.lvl = lvl := hsame.2.1
  have hm₂ : m₂ brk = m₁ brk := ht.frame brk hno
  have hkeys₂ : liveKeys m₂ = liveKeys m := by
    rw [← hkeys]
    exact hseq.shape.liveKeys_eq hseq₂.shape fun n _ =>
      ⟨(ht.data n).1, by rw [(ht.data n).2.2]⟩
  have hn : New m₂ (brk + 1) P f := by
    refine ⟨⟨by rw [hfv]; exact hv, by rw [hfl]; exact hl, by rw [hfn]; exact hno,
      by rw [hfn]; exact h.shape.brk_ge, by rw [hfn]; exact Nat.lt_succ_self _⟩, ?_, ?_, ?_⟩ <;>
      rw [hfn, hm₂, hnode]
    · exact hfv.symm
    · exact hfl.symm
  refine hseq₂.after_search hn hp ⟨hfv, hfl⟩ (fun hk m₃ m' hm₃ hs' hins => ?_) fun hk => ?_
  · rw [hfn] at hs' hins hm₃
    refine hnew (by rwa [← hkeys₂]) m' hs' (hins.congr fun n hnP => ?_)
    have hne : n ≠ brk := fun he => hno (he ▸ hnP)
    rw [hm₃ n hne, (ht.data n).1, (ht.data n).2.1, (ht.data n).2.2, hP n hnP]
    exact ⟨rfl, rfl, rfl⟩
  · refine hold (by rwa [← hkeys₂]) m₂ hseq₂ fun n hnP => ?_
    rw [(ht.data n).1, (ht.data n).2.2, hP n hnP]
    exact ⟨rfl, rfl⟩

end Insert

end ConcurrentPQ.Spray

import ConcurrentPQ.Linden.Shape

/-!
# What the writes of the Linden queue do to the list

Every access that changes memory is one of a few effects.  For each of them this file shows that the
memory invariant is kept, for the list as it stands after the write, and that the write is a change
the other threads may rely on (`Evolve`).

* `Shape.private` — writes to a node that is not spliced in;
* `Shape.setUpper` — writes to `next[i]` with `i ≥ 1`, on a node or on the head;
* `Shape.finish` — the `inserting` flag is cleared;
* `Shape.publish` — the level-0 CAS of `insert`, at the last deleted node or at a live one;
* `Shape.delete` — the fetch-and-or of `deletemin`;
* `Shape.swing` — the head's level-0 pointer moves forward over deleted nodes.
-/

namespace ConcurrentPQ.Linden

open ConcurrentPQ.Segment

/-! ### Reading back a write -/

section ReadBack

variable (m : Mem) (n x : NodeId) (i j : ℕ) (r : Ref)

theorem setNext_next : (setNext m n i r x).next j = if x = n ∧ j = i then r else (m x).next j := by
  unfold setNext
  by_cases hx : x = n
  · subst hx
    by_cases hj : j = i
    · subst hj; simp
    · simp [hj]
  · simp [hx]

@[simp] theorem setNext_k : (setNext m n i r x).k = (m x).k := by
  unfold setNext
  by_cases hx : x = n
  · subst hx; simp
  · simp [hx]

@[simp] theorem setNext_v : (setNext m n i r x).v = (m x).v := by
  unfold setNext
  by_cases hx : x = n
  · subst hx; simp
  · simp [hx]

@[simp] theorem setNext_level : (setNext m n i r x).level = (m x).level := by
  unfold setNext
  by_cases hx : x = n
  · subst hx; simp
  · simp [hx]

@[simp] theorem setNext_inserting : (setNext m n i r x).inserting = (m x).inserting := by
  unfold setNext
  by_cases hx : x = n
  · subst hx; simp
  · simp [hx]

@[simp] theorem setNext_same : (setNext m n i r n).next i = r := by
  rw [setNext_next, if_pos ⟨rfl, rfl⟩]

theorem setNext_level_ne (h : j ≠ i) : (setNext m n i r x).next j = (m x).next j := by
  rw [setNext_next, if_neg fun e => h e.2]

theorem setNext_node_ne (h : x ≠ n) : setNext m n i r x = m x := by
  unfold setNext
  rw [Function.update_of_ne h]

theorem setNext_self : setNext m n i ((m n).next i) = m := by
  unfold setNext
  rw [Function.update_eq_self, Function.update_eq_self]

theorem modify_same (g : Node → Node) : modify m n g n = g (m n) := by
  simp [modify]

theorem modify_ne (g : Node → Node) (h : x ≠ n) : modify m n g x = m x := by
  simp [modify, h]

end ReadBack

variable {m m' : Mem} {brk : NodeId} {G : Ghost}

/-! ### Writes that leave the level-0 list alone -/

/-- A change of memory that keeps every `next[0]` of the list, keys, values and levels, clears at
most some `inserting` flags, and lets upper levels point where they may. -/
structure SameList (m m' : Mem) (G : Ghost) : Prop where
  zero : ∀ n ∈ G.all, (m' n).next 0 = (m n).next 0
  data : ∀ n ∈ G.all, (m' n).k = (m n).k ∧ (m' n).v = (m n).v ∧ (m' n).level = (m n).level
  finished : ∀ n ∈ G.all, (m n).inserting = false → (m' n).inserting = false
  upper : ∀ n ∈ G.order, ∀ i, 0 < i → (m' n).next i = (m n).next i ∨
    ∃ s, (m' n).next i = ref s ∧ s ≠ NULL ∧ Target m G s i

namespace SameList

theorem nonnull (e : SameList m m' G) {n : NodeId} (hn : n ∈ G.order) {i : ℕ}
    (h : ((m n).next i).ptr ≠ NULL) : ((m' n).next i).ptr ≠ NULL := by
  rcases Nat.eq_zero_or_pos i with rfl | hi
  · rw [e.zero n (G.order_mem_all hn)]; exact h
  · rcases e.upper n hn i hi with he | ⟨s, he, hs, -⟩
    · rw [he]; exact h
    · rw [he]; exact hs

theorem source (e : SameList m m' G) {n : NodeId} {i : ℕ} (h : Source m G n i) :
    Source m' G n i where
  mem := h.mem
  lt := by rw [(e.data n (G.order_mem_all h.mem)).2.2]; exact h.lt
  nonnull j hj := e.nonnull h.mem (h.nonnull j hj)

theorem target (e : SameList m m' G) {n : NodeId} {i : ℕ} (h : Target m G n i) :
    Target m' G n i :=
  h.imp id fun h => ⟨h.1, e.source h.2⟩

theorem succ0_eq (e : SameList m m' G) {n : NodeId} (hn : n ∈ G.order) :
    succ0 m' n = succ0 m n := by
  rw [succ0, e.zero n (G.order_mem_all hn), succ0]

end SameList

theorem Shape.sameList (h : Shape m brk G) (e : SameList m m' G) : Shape m' brk G := by
  have hord : ∀ {n}, n ∈ G.order → n ∈ G.all := fun hn => G.order_mem_all hn
  have hlive : ∀ {n}, n ∈ G.live → n ∈ G.order := fun hn => G.mem_order.mpr (Or.inr (Or.inr hn))
  have hdead : ∀ {n}, n ∈ G.dead → n ∈ G.order := fun hn => G.mem_order.mpr (Or.inl hn)
  have hbound := G.gone_subset G.bound_mem
  have htail : tail ∈ G.all := G.mem_all.mpr (Or.inr rfl)
  constructor
  case nodup => exact h.nodup
  case null_notMem => exact h.null_notMem
  case lt_brk => exact h.lt_brk
  case brk_ge => exact h.brk_ge
  case dead_shape =>
    rcases h.dead_shape with hd | ⟨D, a, hd, hseg, hh⟩
    · exact Or.inl hd
    · refine Or.inr ⟨D, a, hd, hseg.congr fun x hx => (e.succ0_eq (hdead ?_)).symm, ?_⟩
      · exact hd ▸ List.mem_cons_of_mem _ hx
      · rw [e.succ0_eq h.head_mem]; exact hh
  case live_seg =>
    rw [e.succ0_eq hbound]
    exact h.live_seg.congr fun x hx => (e.succ0_eq (hlive hx)).symm
  case dead_mark => intro n hn; rw [e.zero n (hord (hdead hn))]; exact h.dead_mark n hn
  case bound_mark => rw [e.zero _ (hord hbound)]; exact h.bound_mark
  case live_mark => intro n hn; rw [e.zero n (hord (hlive hn))]; exact h.live_mark n hn
  case sorted =>
    refine h.sorted.imp_of_mem fun {a b} ha hb hab => ?_
    rw [(e.data a (hord (hlive ha))).1, (e.data b (hord (hlive hb))).1]
    exact hab
  case keys =>
    intro n hn hne
    rw [(e.data n (hord hn)).1, (e.data n (hord hn)).2.1]
    exact h.keys n hn hne
  case tail_k => rw [(e.data tail htail).1]; exact h.tail_k
  case tail_mark => rw [e.zero tail htail]; exact h.tail_mark
  case head_inserting => exact e.finished head (hord h.head_mem) h.head_inserting
  case head_source => exact fun i hi => e.source (h.head_source i hi)
  case level_pos => intro n hn; rw [(e.data n (hord hn)).2.2]; exact h.level_pos n hn
  case links =>
    intro n hn i hi
    rw [(e.data n (hord hn)).2.2] at hi
    have hold := (h.links n hn i hi).imp id e.target
    rcases Nat.eq_zero_or_pos i with rfl | h0
    · rw [e.zero n (hord hn)]; exact hold
    · rcases e.upper n hn i h0 with he | ⟨s, he, -, ht⟩
      · rw [he]; exact hold
      · rw [he]; exact Or.inr (e.target ht)
  case upper_mark =>
    intro n hn i h0 hi
    rw [(e.data n (hord hn)).2.2] at hi
    rcases e.upper n hn i h0 with he | ⟨s, he, -⟩
    · rw [he]; exact h.upper_mark n hn i h0 hi
    · rw [he]
  case passed =>
    intro n hne hb
    rw [e.succ0_eq h.head_mem] at hb
    exact e.finished n (hord (G.gone_subset hb.left_mem)) (h.passed n hne hb)

/-- Such a change is one the other threads may rely on, if it clears only the flag of the thread's
own node, touches no node outside the list but that one, and moves no head pointer back. -/
theorem Evolve.sameList (h : Shape m brk G) (e : SameList m m' G) {w : NodeId} (hw : w ≠ tail)
    (hins : ∀ n ∈ G.order, n ≠ w → (m' n).inserting = (m n).inserting)
    (hout : ∀ o, o ∉ G.order → o ≠ w → m' o = m o)
    (hfloor : ((m head).next 0).mark = true → ∀ i, i < NUM_LEVELS →
      Le G.all (headPtr m i) (headPtr m' i) ∨ Le G.all (headPtr m 0) (headPtr m' i)) :
    Evolve w m G m' G where
  order := List.Sublist.refl _
  gone := List.prefix_refl _
  data n hn := e.data n (G.order_mem_all hn)
  inserting := hins
  finished n hn := e.finished n (G.order_mem_all hn)
  nonnull _ hn _ := e.nonnull hn
  marked n hn _ _ := e.zero n (G.order_mem_all hn)
  head_marked := by rw [e.zero head (G.order_mem_all h.head_mem)]; exact id
  not_tail n hn := by rw [e.succ0_eq hn]; exact id
  no_return p hp _ _ := by rw [e.zero p (G.order_mem_all hp)]; exact id
  floor := hfloor
  fresh o ho hne := ⟨hout o ho hne, ho⟩
  ne_tail := hw

theorem Evolve.refl (h : Shape m brk G) {w : NodeId} (hw : w ≠ tail) : Evolve w m G m G :=
  .sameList h ⟨fun _ _ => rfl, fun _ _ => ⟨rfl, rfl, rfl⟩, fun _ _ => id,
    fun _ _ _ _ => Or.inl rfl⟩ hw (fun _ _ _ => rfl) (fun _ _ _ => rfl)
    fun _ _ _ => Or.inl (Or.inl rfl)

theorem Shape.mono_brk (h : Shape m brk G) : Shape m (brk + 1) G :=
  { h with
    lt_brk := fun n hn => Nat.lt_succ_of_lt (h.lt_brk n hn)
    brk_ge := Nat.le_succ_of_le h.brk_ge }

/-- Writes to a node that is not spliced in. -/
theorem Shape.private (h : Shape m brk G) {w : NodeId} (hw : w ∉ G.order) (hne : w ≠ tail)
    (hm : ∀ n, n ≠ w → m' n = m n) : Shape m' brk G ∧ Evolve w m G m' G := by
  have hall : ∀ n ∈ G.all, m' n = m n := by
    intro n hn
    refine hm n ?_
    rintro rfl
    exact (G.mem_all.mp hn).elim hw hne
  have e : SameList m m' G := by
    constructor
    case zero => intro n hn; rw [hall n hn]
    case data => intro n hn; rw [hall n hn]; exact ⟨rfl, rfl, rfl⟩
    case finished => intro n hn; rw [hall n hn]; exact id
    case upper => intro n hn i _; rw [hall n (G.order_mem_all hn)]; exact Or.inl rfl
  refine ⟨h.sameList e, .sameList h e hne ?_ (fun o _ => hm o) ?_⟩
  · intro n hn _
    rw [hall n (G.order_mem_all hn)]
  · intro _ i _
    rw [headPtr, headPtr, hall head (G.order_mem_all h.head_mem)]
    exact Or.inl (Or.inl rfl)

/-- A write to `next[i]`, `i ≥ 1`, of a node that is spliced in.  A pointer of the head may only
move to a node that does not come before the old one, or not before the head's level-0 pointer. -/
theorem Shape.setUpper (h : Shape m brk G) {w p s : NodeId} {i : ℕ} (hw : w ≠ tail)
    (hp : p ∈ G.order) (hi : 0 < i) (ht : Target m G s i)
    (hfloor : p = head → ((m head).next 0).mark = true →
      Le G.all (headPtr m i) s ∨ Le G.all (headPtr m 0) s) :
    Shape (setNext m p i (ref s)) brk G ∧ Evolve w m G (setNext m p i (ref s)) G := by
  have e : SameList m (setNext m p i (ref s)) G := by
    constructor
    case zero => exact fun n _ => setNext_level_ne m p n i 0 (ref s) (by omega)
    case data => exact fun n _ => ⟨setNext_k .., setNext_v .., setNext_level ..⟩
    case finished => intro n _; rw [setNext_inserting]; exact id
    case upper =>
      intro n _ j _
      rw [setNext_next]
      split
      · rename_i he
        exact Or.inr ⟨s, rfl, h.target_ne_null ht, he.2 ▸ ht⟩
      · exact Or.inl rfl
  refine ⟨h.sameList e, .sameList h e hw ?_ ?_ ?_⟩
  · exact fun n _ _ => setNext_inserting ..
  · exact fun o ho _ => setNext_node_ne m p o i _ fun he => ho (he ▸ hp)
  · intro hm j _
    have hj : headPtr (setNext m p i (ref s)) j =
        if head = p ∧ j = i then s else headPtr m j := by
      rw [headPtr, setNext_next]
      split <;> rfl
    rw [hj]
    split
    · rename_i he
      rw [he.2]
      exact hfloor he.1.symm hm
    · exact Or.inl (Or.inl rfl)

/-- The end of an insertion: the flag of its own node is cleared. -/
theorem Shape.finish (h : Shape m brk G) {w : NodeId} (hw : w ∈ G.order) :
    Shape (modify m w fun x => { x with inserting := false }) brk G ∧
      Evolve w m G (modify m w fun x => { x with inserting := false }) G := by
  set m' := modify m w fun x => { x with inserting := false } with hm'
  have hne : ∀ n, n ≠ w → m' n = m n := fun n hn => modify_ne m w n _ hn
  have hw' : m' w = { m w with inserting := false } := modify_same m w _
  have e : SameList m m' G := by
    constructor
    all_goals intro n hn
    all_goals rcases eq_or_ne n w with rfl | hnw
    case zero.inl => rw [hw']
    case zero.inr => rw [hne n hnw]
    case data.inl => rw [hw']; exact ⟨rfl, rfl, rfl⟩
    case data.inr => rw [hne n hnw]; exact ⟨rfl, rfl, rfl⟩
    case finished.inl => intro _; rw [hw']
    case finished.inr => rw [hne n hnw]; exact id
    case upper.inl => intro i _; rw [hw']; exact Or.inl rfl
    case upper.inr => intro i _; rw [hne n hnw]; exact Or.inl rfl
  refine ⟨h.sameList e, .sameList h e (h.ne_tail hw) ?_ (fun o _ => hne o) ?_⟩
  · intro n _ hn
    rw [hne n hn]
  · intro _ i _
    refine Or.inl (Or.inl ?_)
    rcases eq_or_ne head w with hh | hh
    · subst hh; rw [headPtr, headPtr, hw']
    · rw [headPtr, headPtr, hne head hh]

/-! ### Writes to the level-0 list -/

theorem Source.setNext {n p s : NodeId} {i j : ℕ} {r : Ref} (h : Source m G n i)
    (hr : r.ptr = s) (hs : s ≠ NULL) : Source (setNext m p j r) G n i := by
  refine ⟨h.mem, by rw [setNext_level]; exact h.lt, fun k hk => ?_⟩
  rw [setNext_next]
  split
  · rw [hr]; exact hs
  · exact h.nonnull k hk

theorem succ0_setNext (p n : NodeId) (r : Ref) :
    succ0 (setNext m p 0 r) n = if n = p then r.ptr else succ0 m n := by
  rw [succ0, setNext_next]
  by_cases hn : n = p
  · simp [hn]
  · simp [hn, succ0]

theorem setNext_zero_ne {p n : NodeId} (r : Ref) (h : n ≠ p) :
    (setNext m p 0 r n).next 0 = (m n).next 0 := by
  rw [setNext_node_ne m p n 0 r h]

/-- What `alloc_node` and `insert` have prepared before the level-0 CAS. -/
structure Fresh (m : Mem) (brk : NodeId) (G : Ghost) (w : NodeId) : Prop where
  notMem : w ∉ G.order
  ge : firstNode ≤ w
  lt : w < brk
  level : 1 ≤ (m w).level ∧ (m w).level ≤ NUM_LEVELS
  key : SENTINEL_KEYMIN < (m w).k ∧ (m w).k < pkey SENTINEL_KEYMAX ∧ (m w).v = (m w).k
  clear : ∀ i, 0 < i → i < (m w).level → (m w).next i = ref NULL

namespace Fresh

variable {w : NodeId}

theorem ne_tail (h : Fresh m brk G w) : w ≠ tail := Nat.ne_of_gt h.ge

theorem ne_head (h : Fresh m brk G w) : w ≠ head := Nat.ne_of_gt (lt_of_lt_of_le (by decide) h.ge)

theorem ne_null (h : Fresh m brk G w) : w ≠ NULL := Nat.ne_of_gt (lt_of_lt_of_le (by decide) h.ge)

end Fresh

/-- `G'` is `G` with `w` linked in behind `p`, which is the last deleted node or a live one. -/
structure Spliced (G : Ghost) (p w : NodeId) (G' : Ghost) : Prop where
  dead : G'.dead = G.dead
  bound : G'.bound = G.bound
  live : ∃ l₁ l₂, G.bound :: G.live = l₁ ++ p :: l₂ ∧ G.bound :: G'.live = l₁ ++ p :: w :: l₂

namespace Spliced

variable {G' : Ghost} {p w : NodeId}

theorem exists_of_mem (hp : p ∈ G.bound :: G.live) (w : NodeId) : ∃ G', Spliced G p w G' := by
  obtain ⟨l₁, l₂, hl⟩ := List.append_of_mem hp
  cases l₁ with
  | nil =>
    obtain ⟨hb, hl⟩ := List.cons.inj hl
    exact ⟨⟨G.dead, G.bound, w :: l₂⟩, rfl, rfl, [], l₂, by simp [hb, hl], by simp [hb]⟩
  | cons b l₁ =>
    obtain ⟨hb, hl⟩ := List.cons.inj hl
    exact ⟨⟨G.dead, G.bound, l₁ ++ p :: w :: l₂⟩, rfl, rfl, b :: l₁, l₂, by simp [hb, hl],
      by simp [hb]⟩

theorem gone (e : Spliced G p w G') : G'.gone = G.gone := by
  rw [Ghost.gone, Ghost.gone, e.dead, e.bound]

theorem live_mem (e : Spliced G p w G') {n : NodeId} : n ∈ G'.live ↔ n = w ∨ n ∈ G.live := by
  obtain ⟨l₁, l₂, h, h'⟩ := e.live
  cases l₁ with
  | nil =>
    rw [(List.cons.inj h).2, (List.cons.inj h').2]
    simp
  | cons b l₁ =>
    have hl : G.live = l₁ ++ p :: l₂ := (List.cons.inj h).2
    have hl' : G'.live = l₁ ++ p :: w :: l₂ := (List.cons.inj h').2
    rw [hl, hl']
    simp only [List.mem_append, List.mem_cons]
    tauto

theorem order_mem (e : Spliced G p w G') {n : NodeId} : n ∈ G'.order ↔ n = w ∨ n ∈ G.order := by
  rw [G'.mem_order, G.mem_order, e.dead, e.bound, e.live_mem]
  tauto

theorem order_sublist (e : Spliced G p w G') : G.order.Sublist G'.order := by
  obtain ⟨l₁, l₂, h, h'⟩ := e.live
  rw [Ghost.order, Ghost.order, e.dead, e.bound, h, h']
  refine (List.Sublist.refl _).append ((List.Sublist.refl _).append ?_)
  exact (List.sublist_cons_self w l₂).cons_cons p

theorem all_nodup (e : Spliced G p w G') (h : G.all.Nodup) (hw : w ∉ G.all) : G'.all.Nodup := by
  obtain ⟨l₁, l₂, hl, hl'⟩ := e.live
  have hall : G.all = (G.dead ++ l₁ ++ [p]) ++ (l₂ ++ [tail]) := by
    rw [Ghost.all, Ghost.order, hl]; simp
  have hall' : G'.all = (G.dead ++ l₁ ++ [p]) ++ w :: (l₂ ++ [tail]) := by
    rw [Ghost.all, Ghost.order, e.dead, e.bound, hl']; simp
  rw [hall', List.nodup_middle, List.nodup_cons, ← hall]
  exact ⟨hw, h⟩

end Spliced

/-- **The level-0 CAS of `insert` succeeds.**  The new node is linked in where its key belongs: its
predecessor is the last deleted node or has a smaller key, its successor has a greater one. -/
theorem Shape.publish (h : Shape m brk G) {p w s : NodeId} (hp : p ∈ G.order)
    (hps : (m p).next 0 = ref s) (hw : Fresh m brk G w) (hws : (m w).next 0 = ref s)
    (hpk : p ∈ G.gone ∨ (m p).k < (m w).k) (hsk : (m w).k < (m s).k) :
    ∃ G', Spliced G p w G' ∧ Shape (setNext m p 0 (ref w)) brk G' ∧
      Evolve w m G (setNext m p 0 (ref w)) G' := by
  have hpu : p = G.bound ∨ p ∈ G.live := h.bound_or_live hp (by rw [hps])
  obtain ⟨G', e⟩ := Spliced.exists_of_mem (List.mem_cons.mpr hpu) w
  have hwt : w ≠ tail := hw.ne_tail
  have hwn : w ≠ NULL := hw.ne_null
  have hwh : w ≠ head := hw.ne_head
  have hwp : w ≠ p := fun he => hw.notMem (he ▸ hp)
  have hwall : w ∉ G.all := fun hm => (G.mem_all.mp hm).elim hw.notMem hwt
  have hsucc : succ0 m p = s := by rw [succ0, hps]
  have hpdead : p ∉ G.dead := by
    intro hd
    have := h.dead_mark p hd
    rw [hps] at this
    cases this
  have hhead : G.dead ≠ [] → head ≠ p := by
    rintro hd rfl
    rcases h.dead_shape with ⟨hn, -⟩ | ⟨D, a, hD, -⟩
    · exact hd hn
    · exact hpdead (hD ▸ List.mem_cons_self)
  have hnext : ∀ {n}, n ≠ p → (setNext m p 0 (ref w) n).next 0 = (m n).next 0 := fun hn =>
    setNext_zero_ne _ hn
  have hsrc : ∀ {n i}, Source m G n i → Source (setNext m p 0 (ref w)) G' n i := by
    intro n i hn
    have := hn.setNext (p := p) (j := 0) (r := ref w) rfl hwn
    exact ⟨e.order_mem.mpr (Or.inr this.mem), this.lt, this.nonnull⟩
  have htgt : ∀ {n i}, Target m G n i → Target (setNext m p 0 (ref w)) G' n i := fun hn =>
    hn.imp id fun hn => ⟨hn.1, hsrc hn.2⟩
  have hs : Target m G s 0 := hsucc ▸ h.load_target (h.source_zero hp)
  have hwsrc : Source (setNext m p 0 (ref w)) G' w 0 := by
    refine ⟨e.order_mem.mpr (Or.inl rfl), by rw [setNext_level]; exact hw.level.1, ?_⟩
    intro j hj
    obtain rfl : j = 0 := by omega
    rw [hnext hwp, hws]
    exact h.target_ne_null hs
  obtain ⟨l₁, l₂, hl, hl'⟩ := e.live
  have hseg : Seg (succ0 m) G.bound (l₁ ++ p :: l₂) tail := by
    rw [← hl]; exact ⟨rfl, h.live_seg⟩
  have hord : G.order = G.dead ++ (l₁ ++ p :: l₂) := by rw [Ghost.order, hl]
  have hpl : p ∉ l₁ ++ l₂ := by
    have := (List.nodup_append.mp (hord ▸ h.order_nodup)).2.1
    exact (List.nodup_cons.mp (List.nodup_middle.mp this)).1
  have hseg' : Seg (succ0 (setNext m p 0 (ref w))) G.bound (l₁ ++ p :: w :: l₂) tail := by
    refine hseg.splice (n := w) ?_ ?_ ?_
    · rw [succ0_setNext, if_pos rfl]
    · rw [succ0_setNext, if_neg hwp, succ0, hws, hsucc]
    · intro x hx
      rw [succ0_setNext, if_neg]
      rintro rfl
      exact hpl hx
  refine ⟨G', e, ?_, ?_⟩
  · constructor
    case nodup => exact e.all_nodup h.nodup hwall
    case null_notMem =>
      intro hm
      exact (e.order_mem.mp hm).elim hwn.symm h.null_notMem
    case lt_brk =>
      intro n hn
      rcases e.order_mem.mp hn with rfl | hn
      · exact hw.lt
      · exact h.lt_brk n hn
    case brk_ge => exact h.brk_ge
    case dead_shape =>
      rw [e.dead, e.bound]
      rcases h.dead_shape with hd | ⟨D, a, hd, hsg, hh⟩
      · exact Or.inl hd
      · refine Or.inr ⟨D, a, hd, hsg.congr fun x hx => ?_, ?_⟩
        · rw [succ0_setNext, if_neg]
          rintro rfl
          exact hpdead (hd ▸ List.mem_cons_of_mem _ hx)
        · rw [succ0_setNext, if_neg (hhead (by rw [hd]; exact List.cons_ne_nil _ _))]
          exact hh
    case live_seg =>
      rw [e.bound]
      rw [← hl'] at hseg'
      exact hseg'.2
    case dead_mark =>
      intro n hn
      rw [e.dead] at hn
      rw [hnext fun he => hpdead (he ▸ hn)]
      exact h.dead_mark n hn
    case bound_mark =>
      rw [e.bound]
      rcases eq_or_ne G.bound p with he | he
      · rw [he, setNext_same]
      · rw [hnext he]; exact h.bound_mark
    case live_mark =>
      intro n hn
      rcases eq_or_ne n p with rfl | he
      · rw [setNext_same]
      · rw [hnext he]
        rcases e.live_mem.mp hn with rfl | hn
        · rw [hws]
        · exact h.live_mark n hn
    case sorted =>
      simp only [setNext_k]
      -- the nodes behind `w` start with `s`, those before it end with `p`
      have hafter : ∀ x ∈ l₂, (m w).k < (m x).k := by
        have h2 := (seg_append_cons.mp hseg).2
        rw [hsucc] at h2
        have hsub : (p :: l₂).Sublist (G.bound :: G.live) := hl ▸ List.sublist_append_right _ _
        have hsort : l₂.Pairwise fun a b => (m a).k < (m b).k := by
          refine h.sorted.sublist ?_
          simpa using hsub.tail
        cases l₂ with
        | nil => intro x hx; cases hx
        | cons y l₂ =>
          obtain ⟨rfl, -⟩ := h2
          intro x hx
          rcases List.mem_cons.mp hx with rfl | hx
          · exact hsk
          · exact hsk.trans ((List.pairwise_cons.mp hsort).1 x hx)
      cases l₁ with
      | nil =>
        rw [(List.cons.inj hl').2]
        have : G.live = l₂ := (List.cons.inj hl).2
        exact List.pairwise_cons.mpr ⟨hafter, this ▸ h.sorted⟩
      | cons b l₁ =>
        have hlive : G.live = l₁ ++ p :: l₂ := (List.cons.inj hl).2
        have hlive' : G'.live = l₁ ++ p :: w :: l₂ := (List.cons.inj hl').2
        have hpk : (m p).k < (m w).k := by
          refine hpk.resolve_left fun hg => h.gone_notMem_live hg ?_
          rw [hlive]
          exact List.mem_append_right _ List.mem_cons_self
        have hsort := h.sorted
        rw [hlive, List.pairwise_append, List.pairwise_cons] at hsort
        obtain ⟨h1, ⟨h2, h3⟩, h4⟩ := hsort
        rw [hlive', List.pairwise_append, List.pairwise_cons, List.pairwise_cons]
        refine ⟨h1, ⟨?_, hafter, h3⟩, ?_⟩
        · intro x hx
          rcases List.mem_cons.mp hx with rfl | hx
          · exact hpk
          · exact h2 x hx
        · intro x hx y hy
          rcases List.mem_cons.mp hy with rfl | hy
          · exact h4 x hx y List.mem_cons_self
          · rcases List.mem_cons.mp hy with rfl | hy
            · exact (h4 x hx p List.mem_cons_self).trans hpk
            · exact h4 x hx y (List.mem_cons_of_mem _ hy)
    case keys =>
      intro n hn hne
      simp only [setNext_k, setNext_v]
      rcases e.order_mem.mp hn with rfl | hn
      · exact hw.key
      · exact h.keys n hn hne
    case tail_k => rw [setNext_k]; exact h.tail_k
    case tail_mark => rw [hnext (h.ne_tail hp).symm]; exact h.tail_mark
    case head_inserting => rw [setNext_inserting]; exact h.head_inserting
    case head_source => exact fun i hi => hsrc (h.head_source i hi)
    case level_pos =>
      intro n hn
      rw [setNext_level]
      rcases e.order_mem.mp hn with rfl | hn
      · exact hw.level
      · exact h.level_pos n hn
    case links =>
      intro n hn i hi
      rw [setNext_level] at hi
      rw [setNext_next]
      split
      · rename_i he
        exact Or.inr (Or.inr ⟨hwh, he.2 ▸ hwsrc⟩)
      · rcases e.order_mem.mp hn with rfl | hn
        · rcases Nat.eq_zero_or_pos i with rfl | h0
          · rw [hws]; exact Or.inr (htgt hs)
          · rw [hw.clear i h0 hi]; exact Or.inl rfl
        · exact (h.links n hn i hi).imp id htgt
    case upper_mark =>
      intro n hn i h0 hi
      rw [setNext_level] at hi
      rw [setNext_level_ne _ _ _ _ _ _ (by omega)]
      rcases e.order_mem.mp hn with rfl | hn
      · rw [hw.clear i h0 hi]
      · exact h.upper_mark n hn i h0 hi
    case passed =>
      intro n hne hb
      rw [e.gone] at hb
      rw [setNext_inserting]
      rcases h.dead_shape with ⟨hd, hbd⟩ | ⟨D, a, hd, -⟩
      · have : n = head := by simpa [Ghost.gone, hd, hbd] using hb.left_mem
        exact absurd this hne
      · rw [succ0_setNext, if_neg (hhead (by rw [hd]; exact List.cons_ne_nil _ _))] at hb
        exact h.passed n hne hb
  · constructor
    case order => exact e.order_sublist
    case gone => exact e.gone ▸ List.prefix_refl _
    case data => exact fun n _ => ⟨setNext_k .., setNext_v .., setNext_level ..⟩
    case inserting => exact fun n _ _ => setNext_inserting ..
    case finished => intro n _; rw [setNext_inserting]; exact id
    case nonnull =>
      intro n _ i hi
      rw [setNext_next]
      split
      · exact hwn
      · exact hi
    case marked =>
      intro n _ _ hm
      refine hnext ?_
      rintro rfl
      rw [hps] at hm
      cases hm
    case head_marked =>
      intro hm
      rw [hnext]
      · exact hm
      · rintro rfl
        rw [hps] at hm
        cases hm
    case not_tail =>
      intro n _ hn
      rw [succ0_setNext]
      split
      · exact hwt
      · exact hn
    case no_return =>
      intro q _ n hn hq
      rcases eq_or_ne q p with rfl | he
      · rw [setNext_same]
        intro hr
        exact hwall ((Ref.mk.inj hr).1 ▸ hn)
      · rw [hnext he]; exact hq
    case floor =>
      intro hm i _
      refine Or.inl (Or.inl ?_)
      rw [headPtr, headPtr, setNext_node_ne]
      rintro rfl
      rw [hps] at hm
      cases hm
    case fresh =>
      intro o ho hne
      refine ⟨setNext_node_ne _ _ _ _ _ fun he => ho (he ▸ hp), fun hm => ?_⟩
      exact (e.order_mem.mp hm).elim hne ho
    case ne_tail => exact hwt

/-- **The fetch-and-or of `deletemin` on an unmarked word.**  It deletes the first live node. -/
theorem Shape.delete (h : Shape m brk G) {x w : NodeId} (hx : x ∈ G.gone)
    (hm : ((m x).next 0).mark = false) (ht : succ0 m x ≠ tail) (hw : w ≠ tail) :
    ∃ V, G.live = succ0 m x :: V ∧
      Shape (setNext m x 0 ⟨succ0 m x, true⟩) brk ⟨G.dead ++ [G.bound], succ0 m x, V⟩ ∧
      Evolve w m G (setNext m x 0 ⟨succ0 m x, true⟩) ⟨G.dead ++ [G.bound], succ0 m x, V⟩ := by
  obtain rfl : x = G.bound := h.eq_bound hx hm
  set n := succ0 m G.bound with hn
  set m' := setNext m G.bound 0 ⟨n, true⟩ with hm'
  have hseg := h.live_seg
  rw [← hn] at hseg
  obtain ⟨V, hV⟩ : ∃ V, G.live = n :: V := by
    cases hl : G.live with
    | nil => rw [hl] at hseg; exact absurd hseg ht
    | cons y V => rw [hl] at hseg; exact ⟨V, by rw [hseg.1]⟩
  rw [hV] at hseg
  set G' : Ghost := ⟨G.dead ++ [G.bound], n, V⟩ with hG'
  have hord : G'.order = G.order := by simp [Ghost.order, hG', hV]
  have hall : G'.all = G.all := by rw [Ghost.all, hord, Ghost.all]
  have hgone : G'.gone = G.gone ++ [n] := rfl
  have hsucc : ∀ y, succ0 m' y = succ0 m y := by
    intro y
    rw [hm', succ0_setNext]
    split
    · rename_i he; rw [he]
    · rfl
  have hnext : ∀ {y}, y ≠ G.bound → (m' y).next 0 = (m y).next 0 := fun hy => setNext_zero_ne _ hy
  have hnn : n ≠ NULL := by
    refine h.ne_null (G.mem_order.mpr (Or.inr (Or.inr ?_)))
    rw [hV]; exact List.mem_cons_self
  have hbl : G.bound ∉ G.live := h.gone_notMem_live G.bound_mem
  have hsrc : ∀ {y i}, Source m G y i → Source m' G' y i := by
    intro y i hy
    have := hy.setNext (p := G.bound) (j := 0) (r := ⟨n, true⟩) rfl hnn
    exact ⟨hord ▸ this.mem, this.lt, this.nonnull⟩
  have htgt : ∀ {y i}, Target m G y i → Target m' G' y i := fun hy =>
    hy.imp id fun hy => ⟨hy.1, hsrc hy.2⟩
  have hbo := G.gone_subset G.bound_mem
  refine ⟨V, hV, ?_, ?_⟩
  · constructor
    case nodup => rw [hall]; exact h.nodup
    case null_notMem => rw [hord]; exact h.null_notMem
    case lt_brk => rw [hord]; exact h.lt_brk
    case brk_ge => exact h.brk_ge
    case dead_shape =>
      refine Or.inr ?_
      rcases h.dead_shape with ⟨hd, hb⟩ | ⟨D, a, hd, hsg, hh⟩
      · refine ⟨[], n, by simp [hd, hb], rfl, ?_⟩
        rw [hsucc, ← hb]
        exact List.mem_cons_self
      · refine ⟨D ++ [G.bound], a, by simp [hd], ?_, ?_⟩
        · exact (seg_concat.mpr ⟨hsg, hn.symm⟩).congr fun y _ => (hsucc y).symm
        · rw [hsucc]; exact List.mem_append_left _ hh
    case live_seg =>
      show Seg (succ0 m') (succ0 m' n) V tail
      rw [hsucc]
      exact hseg.2.congr fun y _ => (hsucc y).symm
    case dead_mark =>
      intro y hy
      rcases eq_or_ne y G.bound with rfl | hne
      · rw [hm', setNext_same]
      · rw [hnext hne]
        refine h.dead_mark y ((List.mem_append.mp hy).resolve_right ?_)
        simpa using hne
    case bound_mark =>
      show ((m' n).next 0).mark = false
      have hnl : n ∈ G.live := by rw [hV]; exact List.mem_cons_self
      rw [hnext fun he => hbl (he ▸ hnl)]
      exact h.live_mark n hnl
    case live_mark =>
      intro y hy
      have hyl : y ∈ G.live := by rw [hV]; exact List.mem_cons_of_mem _ hy
      rw [hnext fun he => hbl (he ▸ hyl)]
      exact h.live_mark y hyl
    case sorted =>
      have hs := h.sorted
      rw [hV] at hs
      simpa [hm'] using (List.pairwise_cons.mp hs).2
    case keys => rw [hord]; simpa [hm'] using h.keys
    case tail_k => rw [hm', setNext_k]; exact h.tail_k
    case tail_mark => rw [hnext (h.ne_tail hbo).symm]; exact h.tail_mark
    case head_inserting => rw [hm', setNext_inserting]; exact h.head_inserting
    case head_source => exact fun i hi => hsrc (h.head_source i hi)
    case level_pos => rw [hord]; simpa [hm'] using h.level_pos
    case links =>
      intro y hy i hi
      rw [hord] at hy
      rw [hm', setNext_level] at hi
      rw [hm', setNext_next]
      split
      · rename_i he
        refine Or.inr (htgt ?_)
        rw [he.2, hn]
        exact h.load_target (h.source_zero hbo)
      · exact (h.links y hy i hi).imp id htgt
    case upper_mark =>
      intro y hy i h0 hi
      rw [hord] at hy
      rw [hm', setNext_level] at hi
      rw [hm', setNext_level_ne _ _ _ _ _ _ (by omega)]
      exact h.upper_mark y hy i h0 hi
    case passed =>
      intro y hne hb
      rw [hsucc, hgone] at hb
      rw [hm', setNext_inserting]
      rcases h.dead_shape with ⟨hd, hbd⟩ | ⟨D, a, hd, -, hh⟩
      · -- nothing was deleted: only the head stands before the new deleted node
        exfalso
        have hg : G.gone = [head] := by simp [Ghost.gone, hd, hbd]
        have hs : succ0 m head = n := by rw [hn, hbd]
        rw [hs, hg] at hb
        have hnd : ([head] ++ [n]).Nodup := by
          have := h.order_nodup
          rw [G.order_eq, hg, hV] at this
          exact this.sublist (by simp)
        rcases List.mem_append.mp hb.left_mem with hy | hy
        · exact hne (by simpa using hy)
        · obtain rfl : y = n := by simpa using hy
          exact Before.irrefl hnd hb
      · have hg : succ0 m head ∈ G.gone := by
          rw [Ghost.gone, hd, List.cons_append]
          exact List.mem_cons_of_mem _ hh
        refine h.passed y hne (hb.mem_of_prefix ?_ hg)
        have := h.order_nodup
        rw [G.order_eq, hV] at this
        exact this.sublist (by simp)
  · constructor
    case order => rw [hord]
    case gone => rw [hgone]; exact List.prefix_append _ _
    case data => exact fun y _ => ⟨setNext_k .., setNext_v .., setNext_level ..⟩
    case inserting => exact fun y _ _ => setNext_inserting ..
    case finished => intro y _; rw [hm', setNext_inserting]; exact id
    case nonnull =>
      intro y _ i hi
      rw [hm', setNext_next]
      split
      · exact hnn
      · exact hi
    case marked =>
      intro y _ _ hy
      refine hnext ?_
      rintro rfl
      rw [h.bound_mark] at hy
      cases hy
    case head_marked =>
      intro hh
      rcases eq_or_ne head G.bound with he | he
      · rw [he, hm', setNext_same]
      · rw [hnext he]; exact hh
    case not_tail => intro y _; rw [hsucc]; exact id
    case no_return =>
      intro q _ y _ hq
      rcases eq_or_ne q G.bound with rfl | he
      · rw [hm', setNext_same]
        intro hr
        cases (Ref.mk.inj hr).2
      · rw [hnext he]; exact hq
    case floor =>
      intro _ i _
      refine Or.inl (Or.inl ?_)
      rw [headPtr, headPtr, hm', setNext_next]
      split
      · rename_i he; rw [he.2, hn, ← he.1]; rfl
      · rfl
    case fresh =>
      intro o ho _
      exact ⟨setNext_node_ne _ _ _ _ _ fun he => ho (he ▸ hbo), hord ▸ ho⟩
    case ne_tail => exact hw

/-- **The head's level-0 pointer is swung** to a deleted node that is not behind it, over nodes that
are all completely inserted. -/
theorem Shape.swing (h : Shape m brk G) {x w : NodeId} (hx : G.Dead x)
    (hle : Le G.all (succ0 m head) x)
    (hdone : ∀ n, n ≠ head → Before G.all n x → (m n).inserting = false) (hw : w ≠ tail) :
    Shape (setNext m head 0 ⟨x, true⟩) brk G ∧ Evolve w m G (setNext m head 0 ⟨x, true⟩) G := by
  set m' := setNext m head 0 ⟨x, true⟩ with hm'
  have hmark := h.head_mark_of_dead hx
  obtain ⟨D, a, hd, hsg, hh⟩ : ∃ D a, G.dead = head :: D ∧ Seg (succ0 m) a D G.bound ∧
      succ0 m head ∈ D ++ [G.bound] := by
    refine h.dead_shape.resolve_left fun ⟨hd, hb⟩ => ?_
    exact hx.2 (by simpa [Ghost.gone, hd, hb] using hx.1)
  have hnd := h.order_nodup
  have hhd : head ∉ D ++ G.bound :: G.live := by
    rw [Ghost.order, hd, List.cons_append, List.nodup_cons] at hnd
    exact hnd.1
  have hxn : x ≠ NULL := h.ne_null (G.gone_subset hx.1)
  have hsucc : ∀ {y}, y ≠ head → succ0 m' y = succ0 m y := fun hy => by
    rw [hm', succ0_setNext, if_neg hy]
  have hnext : ∀ {y}, y ≠ head → (m' y).next 0 = (m y).next 0 := fun hy => setNext_zero_ne _ hy
  have hbne : G.bound ≠ head := by
    rintro he
    exact hhd (he ▸ List.mem_append_right _ List.mem_cons_self)
  have hlive : ∀ {y}, y ∈ G.live → y ≠ head := by
    rintro y hy rfl
    exact h.head_notMem_live hy
  have hsrc : ∀ {y i}, Source m G y i → Source m' G y i := fun hy => hy.setNext rfl hxn
  have htgt : ∀ {y i}, Target m G y i → Target m' G y i := fun hy =>
    hy.imp id fun hy => ⟨hy.1, hsrc hy.2⟩
  constructor
  · constructor
    case nodup => exact h.nodup
    case null_notMem => exact h.null_notMem
    case lt_brk => exact h.lt_brk
    case brk_ge => exact h.brk_ge
    case dead_shape =>
      refine Or.inr ⟨D, a, hd, hsg.congr fun y hy => (hsucc ?_).symm, ?_⟩
      · rintro rfl
        exact hhd (List.mem_append_left _ hy)
      · rw [hm', succ0_setNext, if_pos rfl]
        have hxg := hx.1
        rw [Ghost.gone, hd, List.cons_append] at hxg
        exact (List.mem_cons.mp hxg).resolve_left hx.2
    case live_seg =>
      rw [hsucc hbne]
      exact h.live_seg.congr fun y hy => (hsucc (hlive hy)).symm
    case dead_mark =>
      intro y hy
      rcases eq_or_ne y head with rfl | hne
      · rw [hm', setNext_same]
      · rw [hnext hne]; exact h.dead_mark y hy
    case bound_mark => rw [hnext hbne]; exact h.bound_mark
    case live_mark => intro y hy; rw [hnext (hlive hy)]; exact h.live_mark y hy
    case sorted => simpa [hm'] using h.sorted
    case keys => simpa [hm'] using h.keys
    case tail_k => rw [hm', setNext_k]; exact h.tail_k
    case tail_mark => rw [hnext (by decide)]; exact h.tail_mark
    case head_inserting => rw [hm', setNext_inserting]; exact h.head_inserting
    case head_source => exact fun i hi => hsrc (h.head_source i hi)
    case level_pos => simpa [hm'] using h.level_pos
    case links =>
      intro y hy i hi
      rw [hm', setNext_level] at hi
      rw [hm', setNext_next]
      split
      · rename_i he
        refine Or.inr (htgt (Or.inr ⟨hx.2, he.2 ▸ h.source_zero (G.gone_subset hx.1)⟩))
      · exact (h.links y hy i hi).imp id htgt
    case upper_mark =>
      intro y hy i h0 hi
      rw [hm', setNext_level] at hi
      rw [hm', setNext_level_ne _ _ _ _ _ _ (by omega)]
      exact h.upper_mark y hy i h0 hi
    case passed =>
      intro y hne hb
      rw [hm', succ0_setNext, if_pos rfl] at hb
      rw [hm', setNext_inserting]
      refine hdone y hne (hb.mono ?_)
      rw [Ghost.all, G.order_eq, List.append_assoc]
      exact List.sublist_append_left _ _
  · constructor
    case order => exact List.Sublist.refl _
    case gone => exact List.prefix_refl _
    case data => exact fun y _ => ⟨setNext_k .., setNext_v .., setNext_level ..⟩
    case inserting => exact fun y _ _ => setNext_inserting ..
    case finished => intro y _; rw [hm', setNext_inserting]; exact id
    case nonnull =>
      intro y _ i hi
      rw [hm', setNext_next]
      split
      · exact hxn
      · exact hi
    case marked => exact fun y _ hne _ => hnext hne
    case head_marked => intro _; rw [hm', setNext_same]
    case not_tail =>
      intro y _ hy
      rw [hm', succ0_setNext]
      split
      · exact h.ne_tail (G.gone_subset hx.1)
      · exact hy
    case no_return =>
      intro q _ y _ hq
      rcases eq_or_ne q head with rfl | he
      · rw [hm', setNext_same]
        intro hr
        cases (Ref.mk.inj hr).2
      · rw [hnext he]; exact hq
    case floor =>
      intro _ i _
      have hi : headPtr m' i = if i = 0 then x else headPtr m i := by
        rw [headPtr, hm', setNext_next]
        by_cases h0 : i = 0 <;> simp [h0, headPtr]
      rw [hi]
      split
      · rename_i h0; rw [h0]; exact Or.inl hle
      · exact Or.inl (Or.inl rfl)
    case fresh =>
      exact fun o ho _ => ⟨setNext_node_ne _ _ _ _ _ fun he => ho (he ▸ h.head_mem), ho⟩
    case ne_tail => exact hw

end ConcurrentPQ.Linden

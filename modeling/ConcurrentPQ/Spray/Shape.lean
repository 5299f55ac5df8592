import ConcurrentPQ.Lib.Segment
import ConcurrentPQ.Spray.Program
import Mathlib.Data.Set.Insert

/-!
# The shape of a SprayList

`P` is the set of nodes ever linked in on level 0, the sentinels included.  A node of `P` keeps its
value and its levels; a marked pointer is frozen; only nodes with a marked pointer leave the level-0
chain.

* `Source`, `Target`, `Shape` — where `next[i]` may be read, what it may hold, and the invariant of
  memory;
* `Evolve` — what every thread may rely on while the others run;
* `Shape.write`, `Shape.mark`, `Shape.unlink`, `Shape.publish`, `Same.increment`, `Same.private` —
  every write to memory keeps the invariant.
-/

namespace ConcurrentPQ.Spray

open ConcurrentPQ.Segment

/-- The address in `next[i]`. -/
def succ (m : Mem) (i : ℕ) (n : NodeId) : NodeId := ((m n).next i).ptr

/-- `next[i]` of node `n` is marked. -/
def Marked (m : Mem) (i : ℕ) (n : NodeId) : Prop := ((m n).next i).mark = true

/-- `next[i]` of node `n` may be followed. -/
structure Source (m : Mem) (P : Set NodeId) (n : NodeId) (i : ℕ) : Prop where
  mem : n ∈ P
  ne_tail : n ≠ tail
  lt : i < (m n).toplevel

/-- A pointer on level `i` may lead to node `n`. -/
structure Target (m : Mem) (P : Set NodeId) (n : NodeId) (i : ℕ) : Prop where
  mem : n ∈ P
  ne_head : n ≠ head
  lt : i < (m n).toplevel

/-- The nodes of the level-0 chain, the head first, without the tail. -/
def Chain (m : Mem) (P : Set NodeId) (C : List NodeId) : Prop :=
  Seg (succ m 0) head C tail ∧ (∀ n ∈ C, n ∈ P ∧ n ≠ tail) ∧
    ∀ n ∈ P, n ≠ tail → ¬Marked m 0 n → n ∈ C

/-- **The memory invariant.** -/
structure Shape (m : Mem) (brk : NodeId) (P : Set NodeId) : Prop where
  head_mem : head ∈ P
  tail_mem : tail ∈ P
  null_notMem : NULL ∉ P
  lt_brk : ∀ n ∈ P, n < brk
  brk_ge : firstNode ≤ brk
  head_top : (m head).toplevel = levelmax
  top : ∀ n ∈ P, 1 ≤ (m n).toplevel ∧ (m n).toplevel ≤ levelmax
  tail_val : (m tail).val = INT_MAX
  tail_next : ∀ i, i < (m tail).toplevel → (m tail).next i = ref NULL
  val_lt : ∀ n ∈ P, n ≠ head → n ≠ tail → (m n).val < INT_MAX
  links : ∀ n i, Source m P n i → Target m P (succ m i n) i
  sorted : ∀ n ∈ P, n ≠ head → n ≠ tail → (m n).val < (m (succ m 0 n)).val
  marked : ∀ n i, Source m P n i → Marked m i n → (m n).deleted ≠ 0 ∧ n ≠ head
  chain : ∃ C, Chain m P C

/-- What the threads may rely on: nodes linked in stay what they are, deleted ones stay deleted, and
marked pointers are frozen. -/
structure Evolve (m : Mem) (P : Set NodeId) (m' : Mem) (P' : Set NodeId) : Prop where
  sub : P ⊆ P'
  data : ∀ n ∈ P, (m' n).val = (m n).val ∧ (m' n).toplevel = (m n).toplevel
  deleted : ∀ n ∈ P, (m n).deleted ≠ 0 → (m' n).deleted ≠ 0
  frozen : ∀ n ∈ P, ∀ i, Marked m i n → (m' n).next i = (m n).next i

/-! ### Reading back a write -/

section ReadBack

variable (m : Mem) (n x : NodeId) (i j : ℕ) (w : Ref)

theorem setNext_next : (setNext m n i w x).next j = if x = n ∧ j = i then w else (m x).next j := by
  unfold setNext
  by_cases hx : x = n
  · subst hx
    by_cases hj : j = i
    · subst hj; simp
    · simp [hj]
  · simp [hx]

@[simp] theorem setNext_val : (setNext m n i w x).val = (m x).val := by
  unfold setNext
  by_cases hx : x = n
  · subst hx; simp
  · simp [hx]

@[simp] theorem setNext_toplevel : (setNext m n i w x).toplevel = (m x).toplevel := by
  unfold setNext
  by_cases hx : x = n
  · subst hx; simp
  · simp [hx]

@[simp] theorem setNext_deleted : (setNext m n i w x).deleted = (m x).deleted := by
  unfold setNext
  by_cases hx : x = n
  · subst hx; simp
  · simp [hx]

@[simp] theorem setNext_same : (setNext m n i w n).next i = w := by
  rw [setNext_next, if_pos ⟨rfl, rfl⟩]

theorem setNext_of_ne (h : ¬(x = n ∧ j = i)) : (setNext m n i w x).next j = (m x).next j := by
  rw [setNext_next, if_neg h]

theorem setNext_node_ne (h : x ≠ n) : setNext m n i w x = m x := by
  unfold setNext
  rw [Function.update_of_ne h]

theorem modify_same (g : Node → Node) : modify m n g n = g (m n) := by
  simp [modify]

theorem modify_ne (g : Node → Node) (h : x ≠ n) : modify m n g x = m x := by
  simp [modify, h]

end ReadBack

section Facts

variable {m m' m'' : Mem} {brk : NodeId} {P P' P'' : Set NodeId} {n x a b : NodeId} {i j : ℕ}

theorem Evolve.refl : Evolve m P m P :=
  ⟨Set.Subset.rfl, fun _ _ => ⟨rfl, rfl⟩, fun _ _ h => h, fun _ _ _ _ => rfl⟩

theorem Evolve.source (ev : Evolve m P m' P') (h : Source m P n i) : Source m' P' n i :=
  ⟨ev.sub h.mem, h.ne_tail, by rw [(ev.data n h.mem).2]; exact h.lt⟩

theorem Evolve.target (ev : Evolve m P m' P') (h : Target m P n i) : Target m' P' n i :=
  ⟨ev.sub h.mem, h.ne_head, by rw [(ev.data n h.mem).2]; exact h.lt⟩

theorem Evolve.val (ev : Evolve m P m' P') (h : n ∈ P) : (m' n).val = (m n).val :=
  (ev.data n h).1

theorem Evolve.marked (ev : Evolve m P m' P') (h : n ∈ P) (hm : Marked m i n) :
    Marked m' i n := by
  unfold Marked
  rw [ev.frozen n h i hm]
  exact hm

theorem Source.below (h : Source m P n i) (hj : j ≤ i) : Source m P n j :=
  ⟨h.mem, h.ne_tail, lt_of_le_of_lt hj h.lt⟩

theorem Target.source (h : Target m P n i) (ht : n ≠ tail) : Source m P n i := ⟨h.mem, ht, h.lt⟩

theorem Shape.source_zero (hs : Shape m brk P) (h : n ∈ P) (ht : n ≠ tail) : Source m P n 0 :=
  ⟨h, ht, (hs.top n h).1⟩

theorem Shape.head_source (hs : Shape m brk P) (hi : i < levelmax) : Source m P head i :=
  ⟨hs.head_mem, by decide, by rw [hs.head_top]; exact hi⟩

theorem Shape.ne_null (hs : Shape m brk P) (h : n ∈ P) : n ≠ NULL :=
  fun e => hs.null_notMem (e ▸ h)

/-- A node whose `next[i]` is marked is not the tail. -/
theorem Shape.marked_ne_tail (hs : Shape m brk P) (hi : i < (m n).toplevel) (hm : Marked m i n) :
    n ≠ tail := by
  rintro rfl
  unfold Marked at hm
  rw [hs.tail_next i hi] at hm
  cases hm

theorem Shape.head_unmarked (hs : Shape m brk P) (hi : i < levelmax) : ¬Marked m i head :=
  fun hm => (hs.marked head i (hs.head_source hi) hm).2 rfl

/-- Only the tail has a null pointer. -/
theorem Shape.next_eq_null (hs : Shape m brk P) (h : n ∈ P) (hi : i < (m n).toplevel) :
    (m n).next i = ref NULL ↔ n = tail := by
  constructor
  · intro he
    by_contra ht
    have htgt := hs.links n i ⟨h, ht, hi⟩
    rw [succ, he] at htgt
    exact hs.null_notMem htgt.mem
  · rintro rfl
    exact hs.tail_next i hi

/-- No value exceeds that of the tail. -/
theorem Shape.val_le (hs : Shape m brk P) (h : n ∈ P) (hh : n ≠ head) : (m n).val ≤ INT_MAX := by
  by_cases ht : n = tail
  · rw [ht, hs.tail_val]
  · exact (hs.val_lt n h hh ht).le

/-! ### Runs of marked nodes -/

/-- Following `next[i]` from `a` passes only nodes with a marked `next[i]`, until it reaches `b`. -/
def Passes (m : Mem) (P : Set NodeId) (i : ℕ) (a b : NodeId) : Prop :=
  ∃ l, Seg (succ m i) a l b ∧ ∀ n ∈ l, Source m P n i ∧ Marked m i n

theorem Passes.refl : Passes m P i a a := ⟨[], rfl, by simp⟩

theorem Passes.step (h : Passes m P i a b) (hb : Source m P b i) (hm : Marked m i b) :
    Passes m P i a (succ m i b) := by
  obtain ⟨l, hl, hall⟩ := h
  refine ⟨l ++ [b], seg_concat.mpr ⟨hl, rfl⟩, fun n hn => ?_⟩
  rcases List.mem_append.mp hn with hn | hn
  · exact hall n hn
  · rw [List.mem_singleton.mp hn]
    exact ⟨hb, hm⟩

theorem Evolve.passes (ev : Evolve m P m' P') (h : Passes m P i a b) : Passes m' P' i a b := by
  obtain ⟨l, hl, hall⟩ := h
  refine ⟨l, hl.congr fun n hn => ?_, fun n hn => ?_⟩
  · unfold succ
    rw [ev.frozen n (hall n hn).1.mem i (hall n hn).2]
  · exact ⟨ev.source (hall n hn).1, ev.marked (hall n hn).1.mem (hall n hn).2⟩

/-- Passing marked nodes keeps to nodes of the level. -/
theorem Passes.target (hs : Shape m brk P) (h : Passes m P i a b) (ha : Target m P a i) :
    Target m P b i := by
  obtain ⟨l, hl, hall⟩ := h
  induction l generalizing a with
  | nil => exact hl ▸ ha
  | cons x l ih =>
    obtain ⟨rfl, hl⟩ := hl
    have hx := (hall a List.mem_cons_self).1
    exact ih (hs.links a i hx) hl fun n hn => hall n (List.mem_cons_of_mem _ hn)

end Facts

/-! ### Writes to the nodes of the list -/

section Writes

variable {m m' : Mem} {brk : NodeId} {P : Set NodeId} {n a b left right new : NodeId} {i j : ℕ}
  {w : Ref}

theorem succ_setNext_ne (h : ¬(a = n ∧ j = i)) : succ (setNext m n i w) j a = succ m j a := by
  unfold succ
  rw [setNext_of_ne _ _ _ _ _ _ h]

theorem succ_setNext_same : succ (setNext m n i w) i n = w.ptr := by
  unfold succ
  rw [setNext_same]

theorem source_setNext : Source (setNext m n i w) P a j ↔ Source m P a j := by
  constructor
  · intro h
    exact ⟨h.mem, h.ne_tail, by simpa using h.lt⟩
  · intro h
    exact ⟨h.mem, h.ne_tail, by simpa using h.lt⟩

theorem Target.setNext (h : Target m P a j) : Target (setNext m n i w) P a j :=
  ⟨h.mem, h.ne_head, by simpa using h.lt⟩

theorem Evolve.setNext (hun : ¬Marked m i n) : Evolve m P (setNext m n i w) P where
  sub := Set.Subset.rfl
  data x _ := ⟨setNext_val .., setNext_toplevel ..⟩
  deleted x _ hx := by simpa using hx
  frozen x _ j hj := setNext_of_ne _ _ _ _ _ _ fun he => hun (he.1 ▸ he.2 ▸ hj)

/-- A pointer that is not marked is overwritten.  On level 0 the chain that results has to be
given. -/
theorem Shape.write (hs : Shape m brk P) (hn : Source m P n i) (ht : Target m P w.ptr i)
    (hw : w.mark = true → (m n).deleted ≠ 0 ∧ n ≠ head)
    (h0 : i = 0 → (n ≠ head → (m n).val < (m w.ptr).val) ∧ ∃ C, Chain (setNext m n i w) P C) :
    Shape (setNext m n i w) brk P where
  head_mem := hs.head_mem
  tail_mem := hs.tail_mem
  null_notMem := hs.null_notMem
  lt_brk := hs.lt_brk
  brk_ge := hs.brk_ge
  head_top := by simpa using hs.head_top
  top x hx := by simpa using hs.top x hx
  tail_val := by simpa using hs.tail_val
  tail_next j hj := by
    rw [setNext_of_ne _ _ _ _ _ _ fun he => hn.ne_tail he.1.symm]
    exact hs.tail_next j (by simpa using hj)
  val_lt x hx hh htl := by simpa using hs.val_lt x hx hh htl
  links x j hx := by
    rw [source_setNext] at hx
    by_cases he : x = n ∧ j = i
    · obtain ⟨rfl, rfl⟩ := he
      rw [succ_setNext_same]
      exact ht.setNext
    · rw [succ_setNext_ne he]
      exact (hs.links x j hx).setNext
  sorted x hx hh htl := by
    rw [setNext_val, setNext_val]
    by_cases he : x = n ∧ 0 = i
    · obtain ⟨rfl, rfl⟩ := he
      rw [succ_setNext_same]
      exact (h0 rfl).1 hh
    · rw [succ_setNext_ne he]
      exact hs.sorted x hx hh htl
  marked x j hx hm := by
    rw [source_setNext] at hx
    rw [setNext_deleted]
    by_cases he : x = n ∧ j = i
    · obtain ⟨rfl, rfl⟩ := he
      unfold Marked at hm
      rw [setNext_same] at hm
      exact hw hm
    · unfold Marked at hm
      rw [setNext_of_ne _ _ _ _ _ _ he] at hm
      exact hs.marked x j hx hm
  chain := by
    by_cases hi : i = 0
    · exact (h0 hi).2
    · obtain ⟨C, hC, hsub, hmem⟩ := hs.chain
      have hne : ∀ x, ¬(x = n ∧ 0 = i) := fun x he => hi he.2.symm
      refine ⟨C, hC.congr fun x _ => (succ_setNext_ne (hne x)).symm, hsub, fun x hx ht hm => ?_⟩
      refine hmem x hx ht fun hm' => hm ?_
      unfold Marked
      rw [setNext_of_ne _ _ _ _ _ _ (hne x)]
      exact hm'

/-- `mark_node_ptrs` marks a pointer of a deleted node. -/
theorem Shape.mark (hs : Shape m brk P) (hn : Source m P n i) (hd : (m n).deleted ≠ 0)
    (hh : n ≠ head) : Shape (setNext m n i (set_mark ((m n).next i))) brk P := by
  refine hs.write hn (hs.links n i hn) (fun _ => ⟨hd, hh⟩) fun hi => ?_
  subst hi
  obtain ⟨C, hC, hsub, hmem⟩ := hs.chain
  refine ⟨fun hne => hs.sorted n hn.mem hne hn.ne_tail, C, ?_, hsub, fun x hx ht hm => ?_⟩
  · refine hC.congr fun x _ => ?_
    by_cases hx : x = n
    · rw [hx, succ_setNext_same]
      rfl
    · exact (succ_setNext_ne fun he => hx he.1).symm
  · refine hmem x hx ht fun hm' => hm ?_
    by_cases hx : x = n
    · unfold Marked
      rw [hx, setNext_same]
      rfl
    · unfold Marked
      rw [setNext_of_ne _ _ _ _ _ _ fun he => hx he.1]
      exact hm'

/-- The run of marked nodes behind a node of the chain is a part of the chain. -/
theorem Passes.split {l : List NodeId} (hp : Passes m P i a b)
    (hl : Seg (succ m i) a l tail) :
    ∃ l₁ l₂, l = l₁ ++ l₂ ∧ Seg (succ m i) a l₁ b ∧ Seg (succ m i) b l₂ tail ∧
      ∀ n ∈ l₁, Marked m i n := by
  obtain ⟨r, hr, hall⟩ := hp
  induction r generalizing a l with
  | nil =>
    obtain rfl : a = b := hr
    exact ⟨[], l, rfl, rfl, hl, by simp⟩
  | cons x r ih =>
    obtain ⟨rfl, hr⟩ := hr
    have ha := hall a List.mem_cons_self
    cases l with
    | nil => exact absurd hl ha.1.ne_tail
    | cons y l =>
      obtain ⟨rfl, hl⟩ := hl
      obtain ⟨l₁, l₂, rfl, h₁, h₂, h₃⟩ := ih hl hr
        fun n hn => hall n (List.mem_cons_of_mem _ hn)
      refine ⟨a :: l₁, l₂, rfl, ⟨rfl, h₁⟩, h₂, fun n hn => ?_⟩
      rcases List.mem_cons.mp hn with rfl | hn
      · exact ha.2
      · exact h₃ n hn

/-- Behind the head the values of the chain increase. -/
theorem Shape.sorted_of_seg (hs : Shape m brk P) {l : List NodeId} (hl : Seg (succ m 0) a l tail)
    (hP : ∀ n ∈ l, n ∈ P ∧ n ≠ tail) (ha : a ≠ head) :
    (∀ n ∈ l, n ≠ head ∧ (m a).val ≤ (m n).val) ∧
      l.Pairwise fun x y => (m x).val < (m y).val := by
  induction l generalizing a with
  | nil => exact ⟨by simp, List.Pairwise.nil⟩
  | cons x l ih =>
    obtain ⟨rfl, hl⟩ := hl
    obtain ⟨haP, hat⟩ := hP a List.mem_cons_self
    have hnext := hs.links a 0 (hs.source_zero haP hat)
    have hlt := hs.sorted a haP ha hat
    obtain ⟨h₁, h₂⟩ := ih hl (fun n hn => hP n (List.mem_cons_of_mem _ hn)) hnext.ne_head
    refine ⟨fun n hn => ?_, List.pairwise_cons.mpr ⟨fun n hn => ?_, h₂⟩⟩
    · rcases List.mem_cons.mp hn with rfl | hn
      · exact ⟨ha, le_rfl⟩
      · exact ⟨(h₁ n hn).1, hlt.le.trans (h₁ n hn).2⟩
    · exact lt_of_lt_of_le hlt (h₁ n hn).2

/-- The chain starts with the head. -/
theorem Chain.eq_cons {C : List NodeId} (hC : Chain m P C) :
    ∃ l, C = head :: l ∧ Seg (succ m 0) (succ m 0 head) l tail := by
  obtain ⟨hseg, -⟩ := hC
  cases C with
  | nil => cases hseg
  | cons x l =>
    obtain ⟨rfl, hl⟩ := hseg
    exact ⟨l, rfl, hl⟩

theorem Shape.chain_nodup (hs : Shape m brk P) {C : List NodeId} (hC : Chain m P C) : C.Nodup := by
  obtain ⟨l, rfl, hl⟩ := hC.eq_cons
  have hh := hs.links head 0 (hs.head_source (by decide))
  obtain ⟨h₁, h₂⟩ := hs.sorted_of_seg hl
    (fun n hn => hC.2.1 n (List.mem_cons_of_mem _ hn)) hh.ne_head
  refine List.nodup_cons.mpr ⟨fun hm => (h₁ head hm).1 rfl, h₂.imp fun hlt he => ?_⟩
  rw [he] at hlt
  exact lt_irrefl _ hlt

/-- A search cuts a run of marked nodes out. -/
theorem Shape.unlink (hs : Shape m brk P) (hn : Source m P left i) (hun : ¬Marked m i left)
    (hp : Passes m P i (succ m i left) right) (ht : Target m P right i)
    (hv : left ≠ head → (m left).val < (m right).val) :
    Shape (setNext m left i (ref right)) brk P := by
  refine hs.write hn ht (fun hm => by cases hm) fun hi => ⟨hv, ?_⟩
  subst hi
  obtain ⟨C, hC, hsub, hmem⟩ := hs.chain
  have hnodup := hs.chain_nodup ⟨hC, hsub, hmem⟩
  obtain ⟨l₁, l₂, rfl⟩ := List.append_of_mem (hmem left hn.mem hn.ne_tail hun)
  obtain ⟨-, h₂⟩ := seg_append_cons.mp hC
  obtain ⟨run, rest, rfl, hrun, -, hmark⟩ := hp.split h₂
  have hleft : left ∉ l₁ ++ rest := by
    have hsub : List.Sublist (l₁ ++ left :: rest) (l₁ ++ left :: (run ++ rest)) :=
      (((List.sublist_append_right run rest).cons_cons left).append_left l₁)
    exact (List.nodup_middle.mp (hsub.nodup hnodup)).notMem
  have hne : ∀ x, x ≠ left → succ m 0 x = succ (setNext m left 0 (ref right)) 0 x :=
    fun x hx => (succ_setNext_ne fun he => hx he.1).symm
  refine ⟨l₁ ++ left :: rest, hC.unlink hrun succ_setNext_same fun x hx => ?_, fun x hx => ?_,
    fun x hx ht hm => ?_⟩
  · exact hne x fun he => hleft (he ▸ hx)
  · refine hsub x ?_
    simp only [List.mem_append, List.mem_cons] at hx ⊢
    tauto
  · by_cases hxl : x = left
    · rw [hxl]
      simp
    · have hm' : ¬Marked m 0 x := fun hm' => hm (by
        unfold Marked
        rw [setNext_node_ne _ _ _ _ _ hxl]
        exact hm')
      have := hmem x hx ht hm'
      have hrun : x ∉ run := fun hr => hm' (hmark x hr)
      simp only [List.mem_append, List.mem_cons] at this ⊢
      tauto

/-- A node that is not linked in and has been prepared for it. -/
structure Ready (m : Mem) (brk : NodeId) (P : Set NodeId) (new : NodeId) (s : ℕ → NodeId) : Prop where
  notMem : new ∉ P
  ne_null : new ≠ NULL
  lt : new < brk
  top : 1 ≤ (m new).toplevel ∧ (m new).toplevel ≤ levelmax
  val_lt : (m new).val < INT_MAX
  next : ∀ i, i < (m new).toplevel → (m new).next i = ref (s i) ∧ Target m P (s i) i

/-- The level-0 CAS of an insertion links a node in. -/
theorem Shape.publish {s : ℕ → NodeId} (hs : Shape m brk P) (hr : Ready m brk P new s)
    (hn : Source m P left 0) (hnext : (m left).next 0 = ref (s 0))
    (hl : left ≠ head → (m left).val < (m new).val) (hv : (m new).val < (m (s 0)).val) :
    Shape (setNext m left 0 (ref new)) brk (insert new P) ∧
      Evolve m P (setNext m left 0 (ref new)) (insert new P) := by
  set m' := setNext m left 0 (ref new) with hm'
  have hne : ∀ {x}, x ∈ P → x ≠ new := fun hx he => hr.notMem (he ▸ hx)
  have hleft : new ≠ left := (hne hn.mem).symm
  have hun : ¬Marked m 0 left := by
    unfold Marked
    rw [hnext]
    simp
  have hnew : m' new = m new := setNext_node_ne _ _ _ _ _ hleft
  have ev : Evolve m P m' (insert new P) := by
    have h := Evolve.setNext (P := P) (w := ref new) hun
    exact ⟨Set.subset_insert new P, h.data, h.deleted, h.frozen⟩
  have hsucc : ∀ {j}, j < (m new).toplevel → succ m' j new = s j := fun hj => by
    rw [succ, hnew, (hr.next _ hj).1]
  have hmem : ∀ {x}, x ∈ insert new P → x = new ∨ x ∈ P := fun hx => Set.mem_insert_iff.mp hx
  have hheadne : new ≠ head := (hne hs.head_mem).symm
  have htailne : new ≠ tail := (hne hs.tail_mem).symm
  refine ⟨?_, ev⟩
  constructor
  case head_mem => exact ev.sub hs.head_mem
  case tail_mem => exact ev.sub hs.tail_mem
  case null_notMem =>
    intro h
    rcases hmem h with he | h
    · exact hr.ne_null he.symm
    · exact hs.null_notMem h
  case lt_brk =>
    intro x hx
    rcases hmem hx with rfl | hx
    · exact hr.lt
    · exact hs.lt_brk x hx
  case brk_ge => exact hs.brk_ge
  case head_top => simpa [hm'] using hs.head_top
  case top =>
    intro x hx
    rw [hm', setNext_toplevel]
    rcases hmem hx with rfl | hx
    · exact hr.top
    · exact hs.top x hx
  case tail_val => simpa [hm'] using hs.tail_val
  case tail_next =>
    intro j hj
    rw [hm', setNext_of_ne _ _ _ _ _ _ fun he => hn.ne_tail he.1.symm]
    exact hs.tail_next j (by simpa [hm'] using hj)
  case val_lt =>
    intro x hx hh ht
    rw [hm', setNext_val]
    rcases hmem hx with rfl | hx
    · exact hr.val_lt
    · exact hs.val_lt x hx hh ht
  case links =>
    intro x j hx
    have hlt : j < (m x).toplevel := by simpa [hm'] using hx.lt
    rcases hmem hx.mem with rfl | hxP
    · rw [hsucc hlt]
      exact ev.target (hr.next j hlt).2
    · by_cases he : x = left ∧ j = 0
      · obtain ⟨rfl, rfl⟩ := he
        rw [hm', succ_setNext_same]
        exact ⟨Set.mem_insert _ _, hheadne, by rw [setNext_toplevel]; exact hr.top.1⟩
      · rw [hm', succ_setNext_ne he]
        exact ev.target (hs.links x j ⟨hxP, hx.ne_tail, hlt⟩)
  case sorted =>
    intro x hx hh ht
    rw [hm', setNext_val, setNext_val]
    rcases hmem hx with rfl | hxP
    · rw [← hm', hsucc hr.top.1]
      exact hv
    · by_cases he : x = left ∧ 0 = 0
      · obtain ⟨rfl, -⟩ := he
        rw [succ_setNext_same]
        exact hl hh
      · rw [succ_setNext_ne he]
        exact hs.sorted x hxP hh ht
  case marked =>
    intro x j hx hm
    have hlt : j < (m x).toplevel := by simpa [hm'] using hx.lt
    rcases hmem hx.mem with rfl | hxP
    · unfold Marked at hm
      rw [hnew, (hr.next j hlt).1] at hm
      cases hm
    · rw [hm', setNext_deleted]
      have hne : ¬(x = left ∧ j = 0) := by
        rintro ⟨rfl, rfl⟩
        unfold Marked at hm
        rw [hm', setNext_same] at hm
        cases hm
      unfold Marked at hm
      rw [hm', setNext_of_ne _ _ _ _ _ _ hne] at hm
      exact hs.marked x j ⟨hxP, hx.ne_tail, hlt⟩ hm
  case chain =>
    obtain ⟨C, hC, hsub, hall⟩ := hs.chain
    have hnodup := hs.chain_nodup ⟨hC, hsub, hall⟩
    obtain ⟨l₁, l₂, rfl⟩ := List.append_of_mem (hall left hn.mem hn.ne_tail hun)
    have hleftC : left ∉ l₁ ++ l₂ := (List.nodup_middle.mp hnodup).notMem
    refine ⟨l₁ ++ left :: new :: l₂, hC.splice (by rw [hm', succ_setNext_same]) ?_ fun x hx => ?_,
      fun x hx => ?_, fun x hx ht hm => ?_⟩
    · rw [hsucc hr.top.1, succ, hnext]
    · have hxl : x ≠ left := fun he => hleftC (he ▸ hx)
      exact (succ_setNext_ne fun he => hxl he.1).symm
    · by_cases hxn : x = new
      · rw [hxn]
        exact ⟨Set.mem_insert _ _, htailne⟩
      · have hx' : x ∈ l₁ ++ left :: l₂ := by
          simp only [List.mem_append, List.mem_cons] at hx ⊢
          tauto
        exact ⟨ev.sub (hsub x hx').1, (hsub x hx').2⟩
    · rcases hmem hx with rfl | hxP
      · simp
      · have hx' : x ∈ l₁ ++ left :: l₂ := by
          by_cases hxl : x = left
          · rw [hxl]
            simp
          · refine hall x hxP ht fun hm₀ => hm ?_
            unfold Marked
            rw [hm', setNext_node_ne _ _ _ _ _ hxl]
            exact hm₀
        simp only [List.mem_append, List.mem_cons] at hx' ⊢
        tauto

/-- Changes that no pointer, value or level of the list notices, and that leave deleted nodes
deleted. -/
structure Same (m m' : Mem) (P : Set NodeId) : Prop where
  data : ∀ n ∈ P, (m' n).val = (m n).val ∧ (m' n).toplevel = (m n).toplevel
  next : ∀ n ∈ P, (m' n).next = (m n).next
  deleted : ∀ n ∈ P, (m n).deleted ≠ 0 → (m' n).deleted ≠ 0

theorem Same.evolve (e : Same m m' P) : Evolve m P m' P :=
  ⟨Set.Subset.rfl, e.data, e.deleted, fun n hn _ _ => by rw [e.next n hn]⟩

theorem Same.succ (e : Same m m' P) (hn : n ∈ P) : succ m' i n = succ m i n := by
  unfold Spray.succ
  rw [e.next n hn]

theorem Shape.same {brk' : NodeId} (hs : Shape m brk P) (e : Same m m' P) (hb : brk ≤ brk') :
    Shape m' brk' P := by
  have hsrc : ∀ {n i}, Source m' P n i → Source m P n i := fun h =>
    ⟨h.mem, h.ne_tail, by rw [← (e.data _ h.mem).2]; exact h.lt⟩
  have hmark : ∀ {n i}, n ∈ P → (Marked m' i n ↔ Marked m i n) := fun hn => by
    unfold Marked
    rw [e.next _ hn]
  constructor
  case head_mem => exact hs.head_mem
  case tail_mem => exact hs.tail_mem
  case null_notMem => exact hs.null_notMem
  case lt_brk => exact fun n hn => lt_of_lt_of_le (hs.lt_brk n hn) hb
  case brk_ge => exact hs.brk_ge.trans hb
  case head_top => rw [(e.data _ hs.head_mem).2, hs.head_top]
  case top => intro n hn; rw [(e.data n hn).2]; exact hs.top n hn
  case tail_val => rw [(e.data _ hs.tail_mem).1, hs.tail_val]
  case tail_next =>
    rw [e.next _ hs.tail_mem, (e.data _ hs.tail_mem).2]
    exact hs.tail_next
  case val_lt => intro n hn; rw [(e.data n hn).1]; exact hs.val_lt n hn
  case links =>
    intro n i hn
    rw [e.succ hn.mem]
    exact e.evolve.target (hs.links n i (hsrc hn))
  case sorted =>
    intro n hn hh ht
    rw [e.succ hn, (e.data n hn).1, (e.data _ (hs.links n 0 (hs.source_zero hn ht)).mem).1]
    exact hs.sorted n hn hh ht
  case marked =>
    intro n i hn hm
    obtain ⟨hd, hh⟩ := hs.marked n i (hsrc hn) ((hmark hn.mem).mp hm)
    exact ⟨e.deleted n hn.mem hd, hh⟩
  case chain =>
    obtain ⟨C, hC, hsub, hall⟩ := hs.chain
    refine ⟨C, hC.congr fun x hx => (e.succ (hsub x hx).1).symm, hsub, fun n hn ht hm => ?_⟩
    exact hall n hn ht fun hm' => hm ((hmark hn).mpr hm')

/-- `deleted` is incremented. -/
theorem Same.increment : Same m (modify m n fun x => { x with deleted := x.deleted + 1 }) P := by
  have h : ∀ x, modify m n (fun x => { x with deleted := x.deleted + 1 }) x = m x ∨
      modify m n (fun x => { x with deleted := x.deleted + 1 }) x =
        { m x with deleted := (m x).deleted + 1 } := by
    intro x
    by_cases hx : x = n
    · rw [hx, modify_same]
      exact Or.inr rfl
    · rw [modify_ne _ _ _ _ hx]
      exact Or.inl rfl
  refine ⟨fun x _ => ?_, fun x _ => ?_, fun x _ hd => ?_⟩
  · rcases h x with h | h <;> rw [h] <;> exact ⟨rfl, rfl⟩
  · rcases h x with h | h <;> rw [h]
  · rcases h x with h | h <;> rw [h]
    · exact hd
    · exact Nat.succ_ne_zero _

/-- A node that is not linked in is written. -/
theorem Same.private (hn : new ∉ P) (h : ∀ x, x ≠ new → m' x = m x) : Same m m' P := by
  have heq : ∀ x ∈ P, m' x = m x := fun x hx => h x fun he => hn (he ▸ hx)
  refine ⟨fun x hx => ?_, fun x hx => ?_, fun x hx => ?_⟩ <;> rw [heq x hx]
  · exact ⟨rfl, rfl⟩
  · exact id

end Writes

/-! ### The live set -/

/-- The nodes reached from the head along level 0, marks stripped. -/
inductive OnChain (m : Mem) : NodeId → Prop
  | head : OnChain m head
  | next {n : NodeId} : OnChain m n → succ m 0 n ≠ NULL → OnChain m (succ m 0 n)

/-- The keys of the nodes on the level-0 chain that are neither sentinels nor deleted. -/
def liveKeys (m : Mem) : Set ℕ :=
  {k | ∃ n, OnChain m n ∧ n ≠ head ∧ n ≠ tail ∧ (m n).deleted = 0 ∧ (m n).val = k}

/-- A node of the list that is no sentinel and not deleted. -/
structure Live (m : Mem) (P : Set NodeId) (n : NodeId) : Prop where
  mem : n ∈ P
  ne_head : n ≠ head
  ne_tail : n ≠ tail
  deleted : (m n).deleted = 0

section Live

variable {m : Mem} {brk : NodeId} {P : Set NodeId} {n a b : NodeId} {k : ℕ}

theorem Shape.mem_of_onChain (hs : Shape m brk P) (hn : OnChain m n) : n ∈ P := by
  induction hn with
  | head => exact hs.head_mem
  | @next x _ hne ih =>
    have ht : x ≠ tail := by
      rintro rfl
      refine hne ?_
      rw [succ, hs.tail_next 0 (hs.top _ hs.tail_mem).1]
    exact (hs.links x 0 (hs.source_zero ih ht)).mem

theorem onChain_of_seg (hs : Shape m brk P) {l : List NodeId} (hl : Seg (succ m 0) a l b)
    (hP : ∀ x ∈ l, x ∈ P ∧ x ≠ tail) (ha : OnChain m a) : ∀ x ∈ l ++ [b], OnChain m x := by
  induction l generalizing a with
  | nil =>
    intro x hx
    obtain rfl : x = b := by simpa using hx
    exact hl ▸ ha
  | cons y l ih =>
    obtain ⟨rfl, hl⟩ := hl
    obtain ⟨haP, hat⟩ := hP a List.mem_cons_self
    have hnext := hs.links a 0 (hs.source_zero haP hat)
    intro x hx
    rw [List.cons_append, List.mem_cons] at hx
    rcases hx with rfl | hx
    · exact ha
    · exact ih hl (fun x hx => hP x (List.mem_cons_of_mem _ hx))
        (ha.next (hs.ne_null hnext.mem)) x hx

theorem Live.unmarked (hs : Shape m brk P) (hn : Live m P n) : ¬Marked m 0 n := fun hm =>
  (hs.marked n 0 (hs.source_zero hn.mem hn.ne_tail) hm).1 hn.deleted

/-- A node that is not deleted is on the chain. -/
theorem Live.onChain (hs : Shape m brk P) (hn : Live m P n) : OnChain m n := by
  obtain ⟨C, hC, hsub, hall⟩ := hs.chain
  have hmem := hall n hn.mem hn.ne_tail (hn.unmarked hs)
  exact onChain_of_seg hs hC hsub .head n (List.mem_append_left _ hmem)

theorem Shape.mem_liveKeys (hs : Shape m brk P) :
    k ∈ liveKeys m ↔ ∃ n, Live m P n ∧ (m n).val = k := by
  constructor
  · rintro ⟨n, hn, hh, ht, hd, hk⟩
    exact ⟨n, ⟨hs.mem_of_onChain hn, hh, ht, hd⟩, hk⟩
  · rintro ⟨n, hn, hk⟩
    exact ⟨n, hn.onChain hs, hn.ne_head, hn.ne_tail, hn.deleted, hk⟩

/-- Live nodes with the same value are the same node. -/
theorem Live.inj (hs : Shape m brk P) (ha : Live m P a) (hb : Live m P b)
    (hab : (m a).val = (m b).val) : a = b := by
  obtain ⟨C, hC⟩ := hs.chain
  have haC := hC.2.2 a ha.mem ha.ne_tail (ha.unmarked hs)
  have hbC := hC.2.2 b hb.mem hb.ne_tail (hb.unmarked hs)
  obtain ⟨l, rfl, hl⟩ := hC.eq_cons
  have hhead := hs.links head 0 (hs.head_source (by decide))
  have hsort := (hs.sorted_of_seg hl
    (fun x hx => hC.2.1 x (List.mem_cons_of_mem _ hx)) hhead.ne_head).2
  have haL := (List.mem_cons.mp haC).resolve_left ha.ne_head
  have hbL := (List.mem_cons.mp hbC).resolve_left hb.ne_head
  have hlt : ∀ {x y}, Before l x y → (m x).val < (m y).val := fun h =>
    List.pairwise_iff_forall_sublist.mp hsort h
  rcases before_total haL hbL with he | h | h
  · exact he
  · exact absurd hab (hlt h).ne
  · exact absurd hab.symm (hlt h).ne

end Live

end ConcurrentPQ.Spray

import ConcurrentPQ.Lib.Segment
import ConcurrentPQ.Linden.Program

/-!
# The shape of a Linden queue

All nodes ever spliced in on level 0 form one list, `Ghost.all`: the head and the nodes whose
`next[0]` is marked (`dead`), the last deleted node, which carries no mark of its own (`bound`, the
head itself while nothing has been deleted), the live nodes (`live`), and the tail.  `Shape` says how
memory realises that list.

* `Ghost`, `Source`, `Target`, `Shape` — the list, where `next[i]` may be read and what it may hold,
  and the invariant of memory;
* `Shape.succ0_cases`, `Shape.dead_of_mark`, `Shape.eq_bound` — what a load of `next[0]` tells;
* `Evolve` — what every thread may rely on while the others run: the list only grows, the order and
  the marks stay, head pointers do not fall back.
-/

namespace ConcurrentPQ.Linden

open ConcurrentPQ.Segment

/-- The nodes spliced in on level 0, in level-0 order. -/
structure Ghost where
  dead : List NodeId
  bound : NodeId
  live : List NodeId

namespace Ghost

/-- The head and the deleted nodes. -/
def gone (G : Ghost) : List NodeId := G.dead ++ [G.bound]

/-- Every node ever spliced in, the head first. -/
def order (G : Ghost) : List NodeId := G.dead ++ G.bound :: G.live

/-- The whole level-0 order, the tail last. -/
def all (G : Ghost) : List NodeId := G.order ++ [tail]

/-- A deleted node. -/
def Dead (G : Ghost) (n : NodeId) : Prop := n ∈ G.gone ∧ n ≠ head

theorem order_eq (G : Ghost) : G.order = G.gone ++ G.live := by
  simp [order, gone]

theorem gone_subset (G : Ghost) {n : NodeId} (h : n ∈ G.gone) : n ∈ G.order := by
  rw [order_eq]
  exact List.mem_append_left _ h

theorem mem_all (G : Ghost) {n : NodeId} : n ∈ G.all ↔ n ∈ G.order ∨ n = tail := by
  simp [all]

theorem order_mem_all (G : Ghost) {n : NodeId} (h : n ∈ G.order) : n ∈ G.all :=
  G.mem_all.mpr (Or.inl h)

theorem bound_mem (G : Ghost) : G.bound ∈ G.gone := by simp [gone]

theorem mem_order (G : Ghost) {n : NodeId} :
    n ∈ G.order ↔ n ∈ G.dead ∨ n = G.bound ∨ n ∈ G.live := by
  simp [order]

end Ghost

/-- The address in `next[0]`. -/
def succ0 (m : Mem) (n : NodeId) : NodeId := ((m n).next 0).ptr

/-- The address in `next[i]` of the head. -/
def headPtr (m : Mem) (i : ℕ) : NodeId := ((m head).next i).ptr

/-- `n` is spliced in and its `next[0]`, …, `next[i]` exist and are not null. -/
structure Source (m : Mem) (G : Ghost) (n : NodeId) (i : ℕ) : Prop where
  mem : n ∈ G.order
  lt : i < (m n).level
  nonnull : ∀ j, j ≤ i → ((m n).next j).ptr ≠ NULL

/-- What a pointer on level `i` may hold: the tail, or a node that can be read on level `i`. -/
def Target (m : Mem) (G : Ghost) (n : NodeId) (i : ℕ) : Prop :=
  n = tail ∨ (n ≠ head ∧ Source m G n i)

/-- **The memory invariant.** -/
structure Shape (m : Mem) (brk : NodeId) (G : Ghost) : Prop where
  nodup : G.all.Nodup
  null_notMem : NULL ∉ G.order
  lt_brk : ∀ n ∈ G.order, n < brk
  brk_ge : firstNode ≤ brk
  dead_shape : (G.dead = [] ∧ G.bound = head) ∨
    ∃ D a, G.dead = head :: D ∧ Seg (succ0 m) a D G.bound ∧ succ0 m head ∈ D ++ [G.bound]
  live_seg : Seg (succ0 m) (succ0 m G.bound) G.live tail
  dead_mark : ∀ n ∈ G.dead, ((m n).next 0).mark = true
  bound_mark : ((m G.bound).next 0).mark = false
  live_mark : ∀ n ∈ G.live, ((m n).next 0).mark = false
  sorted : G.live.Pairwise fun a b => (m a).k < (m b).k
  keys : ∀ n ∈ G.order, n ≠ head →
    SENTINEL_KEYMIN < (m n).k ∧ (m n).k < pkey SENTINEL_KEYMAX ∧ (m n).v = (m n).k
  tail_k : (m tail).k = pkey SENTINEL_KEYMAX
  tail_mark : ((m tail).next 0).mark = false
  head_inserting : (m head).inserting = false
  head_source : ∀ i, i < NUM_LEVELS → Source m G head i
  level_pos : ∀ n ∈ G.order, 1 ≤ (m n).level ∧ (m n).level ≤ NUM_LEVELS
  links : ∀ n ∈ G.order, ∀ i, i < (m n).level →
    ((m n).next i).ptr = NULL ∨ Target m G ((m n).next i).ptr i
  upper_mark : ∀ n ∈ G.order, ∀ i, 0 < i → i < (m n).level → ((m n).next i).mark = false
  passed : ∀ n, n ≠ head → Before G.gone n (succ0 m head) → (m n).inserting = false

namespace Shape

variable {m : Mem} {brk : NodeId} {G : Ghost}

theorem order_nodup (h : Shape m brk G) : G.order.Nodup :=
  (List.nodup_append.mp h.nodup).1

theorem tail_notMem (h : Shape m brk G) : tail ∉ G.order := fun ht =>
  (List.nodup_append.mp h.nodup).2.2 tail ht tail List.mem_cons_self rfl

theorem head_mem_gone (h : Shape m brk G) : head ∈ G.gone := by
  rcases h.dead_shape with ⟨hd, hb⟩ | ⟨D, a, hd, -⟩
  · simp [Ghost.gone, hd, hb]
  · simp [Ghost.gone, hd]

theorem head_mem (h : Shape m brk G) : head ∈ G.order := G.gone_subset h.head_mem_gone

theorem ne_tail (h : Shape m brk G) {n : NodeId} (hn : n ∈ G.order) : n ≠ tail :=
  fun e => h.tail_notMem (e ▸ hn)

theorem ne_null (h : Shape m brk G) {n : NodeId} (hn : n ∈ G.order) : n ≠ NULL :=
  fun e => h.null_notMem (e ▸ hn)

/-- The head stands before every other node. -/
theorem head_before (h : Shape m brk G) {n : NodeId} (hn : n ∈ G.all) (hne : n ≠ head) :
    Before G.all head n := by
  have hall : ∃ l, G.all = head :: l := by
    rcases h.dead_shape with ⟨hd, hb⟩ | ⟨D, a, hd, -⟩
    · exact ⟨_, by simp [Ghost.all, Ghost.order, hd, hb]; rfl⟩
    · exact ⟨_, by simp [Ghost.all, Ghost.order, hd]; rfl⟩
  obtain ⟨l, hl⟩ := hall
  rw [hl] at hn ⊢
  exact before_cons ((List.mem_cons.mp hn).resolve_left hne)

theorem not_before_head (h : Shape m brk G) {n : NodeId} : ¬Before G.all n head := by
  intro hb
  rcases eq_or_ne n head with rfl | hne
  · exact Before.irrefl h.nodup hb
  · exact hb.asymm h.nodup (h.head_before hb.left_mem hne)

/-- Nothing has been deleted as long as the head carries no mark. -/
theorem dead_nil (h : Shape m brk G) (hm : ((m head).next 0).mark = false) :
    G.dead = [] ∧ G.bound = head := by
  rcases h.dead_shape with hd | ⟨D, a, hd, -⟩
  · exact hd
  · have := h.dead_mark head (by rw [hd]; exact List.mem_cons_self)
    rw [hm] at this
    cases this

theorem head_mark_of_dead (h : Shape m brk G) {n : NodeId} (hn : G.Dead n) :
    ((m head).next 0).mark = true := by
  by_contra hm
  obtain ⟨hd, hb⟩ := h.dead_nil (by simpa using hm)
  obtain ⟨hg, hne⟩ := hn
  simp [Ghost.gone, hd, hb] at hg
  exact hne hg

/-- A node with a marked `next[0]` is the head or a deleted node other than the last one. -/
theorem mem_dead_of_mark (h : Shape m brk G) {n : NodeId} (hn : n ∈ G.order)
    (hm : ((m n).next 0).mark = true) : n ∈ G.dead := by
  rcases G.mem_order.mp hn with hn | rfl | hn
  · exact hn
  · rw [h.bound_mark] at hm; cases hm
  · rw [h.live_mark n hn] at hm; cases hm

/-- A deleted node (or the head) without a mark of its own is the last deleted one. -/
theorem eq_bound (h : Shape m brk G) {n : NodeId} (hn : n ∈ G.gone)
    (hm : ((m n).next 0).mark = false) : n = G.bound := by
  rcases List.mem_append.mp hn with hn | hn
  · rw [h.dead_mark n hn] at hm; cases hm
  · simpa using hn

theorem bound_or_live (h : Shape m brk G) {n : NodeId} (hn : n ∈ G.order)
    (hm : ((m n).next 0).mark = false) : n = G.bound ∨ n ∈ G.live := by
  rcases G.mem_order.mp hn with hn | hn
  · rw [h.dead_mark n hn] at hm; cases hm
  · exact hn

theorem head_notMem_live (h : Shape m brk G) : head ∉ G.live := by
  intro hl
  have hd := h.order_nodup
  rw [G.order_eq] at hd
  exact (List.nodup_append.mp hd).2.2 head h.head_mem_gone head hl rfl

theorem gone_notMem_live (h : Shape m brk G) {n : NodeId} (hn : n ∈ G.gone) : n ∉ G.live := by
  intro hl
  have hd := h.order_nodup
  rw [G.order_eq] at hd
  exact (List.nodup_append.mp hd).2.2 n hn n hl rfl

/-- The successor of a marked node is a deleted node. -/
theorem dead_of_mark (h : Shape m brk G) {n : NodeId} (hn : n ∈ G.order)
    (hm : ((m n).next 0).mark = true) : G.Dead (succ0 m n) := by
  have hd := h.mem_dead_of_mark hn hm
  rcases h.dead_shape with ⟨he, -⟩ | ⟨D, a, he, hseg, hh⟩
  · rw [he] at hd; cases hd
  have hnd := h.order_nodup
  rw [G.order_eq, Ghost.gone, he] at hnd
  have hin : succ0 m n ∈ D ++ [G.bound] := by
    rcases eq_or_ne n head with rfl | hne
    · exact hh
    · rw [he] at hd
      have hD := (List.mem_cons.mp hd).resolve_left hne
      rcases hseg.next_mem hD with h1 | h1
      · exact List.mem_append_left _ h1
      · rw [h1]; exact List.mem_append_right _ List.mem_cons_self
  refine ⟨?_, ?_⟩
  · rw [Ghost.gone, he, List.cons_append]
    exact List.mem_cons_of_mem _ hin
  · rintro e
    rw [e] at hin
    rw [List.cons_append, List.cons_append, List.nodup_cons] at hnd
    exact hnd.1 (List.mem_append_left _ hin)

/-- The successor of the last deleted node or of a live node is live, or the tail. -/
theorem succ0_live (h : Shape m brk G) {n : NodeId} (hn : n = G.bound ∨ n ∈ G.live) :
    succ0 m n ∈ G.live ∨ succ0 m n = tail := by
  rcases hn with rfl | hn
  · have := h.live_seg
    cases hl : G.live with
    | nil => rw [hl] at this; exact Or.inr this
    | cons x l => rw [hl] at this; exact Or.inl (this.1 ▸ List.mem_cons_self)
  · exact h.live_seg.next_mem hn

/-- `next[0]` of a node of the list holds another node of the list other than the head, or the
tail. -/
theorem succ0_cases (h : Shape m brk G) {n : NodeId} (hn : n ∈ G.order) :
    (succ0 m n ∈ G.order ∧ succ0 m n ≠ head) ∨ succ0 m n = tail := by
  cases hm : ((m n).next 0).mark with
  | true =>
    have := h.dead_of_mark hn hm
    exact Or.inl ⟨G.gone_subset this.1, this.2⟩
  | false =>
    refine (h.succ0_live (h.bound_or_live hn hm)).imp (fun hl => ⟨?_, ?_⟩) id
    · exact G.mem_order.mpr (Or.inr (Or.inr hl))
    · rintro e
      exact h.head_notMem_live (e ▸ hl)

theorem succ0_mem_all (h : Shape m brk G) {n : NodeId} (hn : n ∈ G.order) :
    succ0 m n ∈ G.all :=
  G.mem_all.mpr ((h.succ0_cases hn).imp And.left id)

/-- A node other than the head comes right before its successor. -/
theorem before_succ0 (h : Shape m brk G) {n : NodeId} (hn : n ∈ G.order) (hne : n ≠ head) :
    Before G.all n (succ0 m n) := by
  rcases G.mem_order.mp hn with hd | hl
  · rcases h.dead_shape with ⟨he, -⟩ | ⟨D, a, he, hseg, -⟩
    · rw [he] at hd; cases hd
    · rw [he] at hd
      have hD := (List.mem_cons.mp hd).resolve_left hne
      refine (hseg.before_next hD).mono ?_
      simp [Ghost.all, Ghost.order, he]
  · have hseg : Seg (succ0 m) G.bound (G.bound :: G.live) tail := ⟨rfl, h.live_seg⟩
    refine (hseg.before_next (List.mem_cons.mpr hl)).mono ?_
    rw [Ghost.all, Ghost.order, List.append_assoc]
    exact List.sublist_append_right _ _

/-- Nothing stands between a node other than the head and its successor. -/
theorem le_of_before_succ0 (h : Shape m brk G) {n x : NodeId} (hn : n ∈ G.order)
    (hne : n ≠ head) (hx : Before G.all x (succ0 m n)) : Le G.all x n := by
  -- split the list behind `n`; the successor of `n` heads the second half
  have hsplit : ∃ l₁ l₂, G.all = l₁ ++ n :: succ0 m n :: l₂ := by
    rcases G.mem_order.mp hn with hd | hl
    · rcases h.dead_shape with ⟨he, -⟩ | ⟨D, a, he, hseg, -⟩
      · rw [he] at hd; cases hd
      · rw [he] at hd
        have hD := (List.mem_cons.mp hd).resolve_left hne
        obtain ⟨l₁, l₂, rfl⟩ := List.append_of_mem hD
        have h2 := (seg_append_cons.mp hseg).2
        cases l₂ with
        | nil => exact ⟨head :: l₁, G.live ++ [tail], by simp [Ghost.all, Ghost.order, he, ← h2.symm]⟩
        | cons y l₂ =>
          refine ⟨head :: l₁, l₂ ++ G.bound :: G.live ++ [tail], ?_⟩
          simp [Ghost.all, Ghost.order, he, h2.1]
    · have hseg : Seg (succ0 m) G.bound (G.bound :: G.live) tail := ⟨rfl, h.live_seg⟩
      obtain ⟨l₁, l₂, hl₁⟩ := List.append_of_mem (List.mem_cons.mpr hl)
      rw [hl₁] at hseg
      have h2 := (seg_append_cons.mp hseg).2
      cases l₂ with
      | nil =>
        refine ⟨G.dead ++ l₁, [], ?_⟩
        simp [Ghost.all, Ghost.order, hl₁, ← h2.symm]
      | cons y l₂ =>
        refine ⟨G.dead ++ l₁, l₂ ++ [tail], ?_⟩
        simp [Ghost.all, Ghost.order, hl₁, h2.1]
  obtain ⟨l₁, l₂, hall⟩ := hsplit
  have hnd := h.nodup
  rw [hall] at hx hnd ⊢
  rcases List.mem_append.mp hx.left_mem with h1 | h1
  · exact Or.inr (before_append h1 List.mem_cons_self)
  · rcases List.mem_cons.mp h1 with rfl | h1
    · exact Or.inl rfl
    · -- `x` is the successor itself or stands behind it
      exfalso
      rcases List.mem_cons.mp h1 with rfl | h2
      · exact Before.irrefl hnd hx
      · refine hx.asymm hnd ?_
        have : Before (succ0 m n :: l₂) (succ0 m n) x := before_cons h2
        refine this.mono ?_
        exact (List.sublist_cons_self _ _).trans (List.sublist_append_right _ _)

/-- A deleted node stands before or at every node without a mark of its own. -/
theorem gone_le_unmarked (h : Shape m brk G) {w n : NodeId} (hw : w ∈ G.gone) (hn : n ∈ G.all)
    (hm : ((m n).next 0).mark = false) : Le G.all w n := by
  have hb : n = G.bound ∨ n ∈ G.live ++ [tail] := by
    rcases G.mem_all.mp hn with hn | rfl
    · exact (h.bound_or_live hn hm).imp id (fun hl => List.mem_append_left _ hl)
    · exact Or.inr (List.mem_append_right _ List.mem_cons_self)
  have hall : G.all = G.dead ++ G.bound :: (G.live ++ [tail]) := by
    simp [Ghost.all, Ghost.order]
  rw [hall]
  rcases List.mem_append.mp hw with hw | hw
  · refine Or.inr (before_append hw ?_)
    rcases hb with rfl | hb
    · exact List.mem_cons_self
    · exact List.mem_cons_of_mem _ hb
  · obtain rfl : w = G.bound := by simpa using hw
    rcases hb with rfl | hb
    · exact Or.inl rfl
    · exact Or.inr ((before_cons hb).mono (List.sublist_append_right _ _))

/-- A marked node stands before every node without a mark. -/
theorem marked_before_unmarked (h : Shape m brk G) {a n : NodeId} (ha : a ∈ G.order)
    (hma : ((m a).next 0).mark = true) (hn : n ∈ G.all) (hmn : ((m n).next 0).mark = false) :
    Before G.all a n := by
  have hg : a ∈ G.gone := List.mem_append_left _ (h.mem_dead_of_mark ha hma)
  rcases h.gone_le_unmarked hg hn hmn with rfl | hb
  · rw [hma] at hmn; cases hmn
  · exact hb

/-- What stands before a deleted node is deleted, or the head. -/
theorem before_gone (h : Shape m brk G) {x y : NodeId} (hb : Before G.all x y) (hy : y ∈ G.gone) :
    Before G.gone x y := by
  have hall : G.all = G.gone ++ (G.live ++ [tail]) := by
    rw [Ghost.all, G.order_eq, List.append_assoc]
  have hnd := h.nodup
  rw [hall] at hb hnd
  exact hb.mem_of_prefix hnd hy

/-- Nodes the head's level-0 pointer has passed are completely inserted. -/
theorem inserting_of_passed (h : Shape m brk G) (hm : ((m head).next 0).mark = true) {n : NodeId}
    (hne : n ≠ head) (hb : Before G.all n (succ0 m head)) : (m n).inserting = false :=
  h.passed n hne (h.before_gone hb (h.dead_of_mark h.head_mem hm).1)

theorem target_mem_all (_h : Shape m brk G) {n : NodeId} {i : ℕ} (ht : Target m G n i) :
    n ∈ G.all := by
  rcases ht with rfl | ⟨-, hs⟩
  · exact G.mem_all.mpr (Or.inr rfl)
  · exact G.order_mem_all hs.mem

theorem target_ne_null (h : Shape m brk G) {n : NodeId} {i : ℕ} (ht : Target m G n i) :
    n ≠ NULL := by
  rcases ht with rfl | ⟨-, hs⟩
  · decide
  · exact h.ne_null hs.mem

theorem target_ne_head (_h : Shape m brk G) {n : NodeId} {i : ℕ} (ht : Target m G n i) :
    n ≠ head := by
  rcases ht with rfl | ⟨hne, -⟩
  · decide
  · exact hne

/-- What a load of `next[i]` returns where it may be read. -/
theorem load_target (h : Shape m brk G) {n : NodeId} {i : ℕ} (hs : Source m G n i) :
    Target m G ((m n).next i).ptr i :=
  (h.links n hs.mem i hs.lt).resolve_left (hs.nonnull i le_rfl)

/-- `next[0]` of a node of the list can always be read. -/
theorem source_zero (h : Shape m brk G) {n : NodeId} (hn : n ∈ G.order) : Source m G n 0 where
  mem := hn
  lt := (h.level_pos n hn).1
  nonnull := by
    intro j hj
    obtain rfl : j = 0 := by omega
    rcases h.succ0_cases hn with ⟨hs, -⟩ | hs
    · exact h.ne_null hs
    · show succ0 m n ≠ NULL
      rw [hs]; decide

theorem head_next_mem (h : Shape m brk G) {i : ℕ} (hi : i < NUM_LEVELS) : headPtr m i ∈ G.all :=
  h.target_mem_all (h.load_target (h.head_source i hi))

end Shape

theorem Source.down {m : Mem} {G : Ghost} {n : NodeId} {i j : ℕ} (h : Source m G n i)
    (hj : j ≤ i) : Source m G n j :=
  ⟨h.mem, by have := h.lt; omega, fun k hk => h.nonnull k (by omega)⟩

theorem Target.down {m : Mem} {G : Ghost} {n : NodeId} {i j : ℕ} (h : Target m G n i)
    (hj : j ≤ i) : Target m G n j :=
  h.imp id fun h => ⟨h.1, h.2.down hj⟩

/-! ### What a thread may rely on while the others run -/

/-- The changes another thread's step can make; `w` is the node that thread inserts. -/
structure Evolve (w : NodeId) (m : Mem) (G : Ghost) (m' : Mem) (G' : Ghost) : Prop where
  order : G.order.Sublist G'.order
  gone : G.gone <+: G'.gone
  data : ∀ n ∈ G.order, (m' n).k = (m n).k ∧ (m' n).v = (m n).v ∧ (m' n).level = (m n).level
  inserting : ∀ n ∈ G.order, n ≠ w → (m' n).inserting = (m n).inserting
  finished : ∀ n ∈ G.order, (m n).inserting = false → (m' n).inserting = false
  nonnull : ∀ n ∈ G.order, ∀ i, ((m n).next i).ptr ≠ NULL → ((m' n).next i).ptr ≠ NULL
  marked : ∀ n ∈ G.order, n ≠ head → ((m n).next 0).mark = true → (m' n).next 0 = (m n).next 0
  head_marked : ((m head).next 0).mark = true → ((m' head).next 0).mark = true
  not_tail : ∀ n ∈ G.order, succ0 m n ≠ tail → succ0 m' n ≠ tail
  no_return : ∀ p ∈ G.order, ∀ n, n ∈ G.all → (m p).next 0 ≠ ref n → (m' p).next 0 ≠ ref n
  floor : ((m head).next 0).mark = true → ∀ i, i < NUM_LEVELS →
    Le G'.all (headPtr m i) (headPtr m' i) ∨ Le G'.all (headPtr m 0) (headPtr m' i)
  fresh : ∀ o, o ∉ G.order → o ≠ w → m' o = m o ∧ o ∉ G'.order
  ne_tail : w ≠ tail

namespace Evolve

variable {w : NodeId} {m m' : Mem} {G G' : Ghost} {brk brk' : NodeId}

theorem all (e : Evolve w m G m' G') : G.all.Sublist G'.all :=
  e.order.append (List.Sublist.refl _)

theorem mem (e : Evolve w m G m' G') {n : NodeId} (h : n ∈ G.order) : n ∈ G'.order :=
  e.order.subset h

theorem mem_all (e : Evolve w m G m' G') {n : NodeId} (h : n ∈ G.all) : n ∈ G'.all :=
  e.all.subset h

theorem mem_gone (e : Evolve w m G m' G') {n : NodeId} (h : n ∈ G.gone) : n ∈ G'.gone :=
  e.gone.subset h

theorem dead (e : Evolve w m G m' G') {n : NodeId} (h : G.Dead n) : G'.Dead n :=
  ⟨e.mem_gone h.1, h.2⟩

theorem source (e : Evolve w m G m' G') {n : NodeId} {i : ℕ} (h : Source m G n i) :
    Source m' G' n i where
  mem := e.mem h.mem
  lt := by rw [(e.data n h.mem).2.2]; exact h.lt
  nonnull j hj := e.nonnull n h.mem j (h.nonnull j hj)

theorem target (e : Evolve w m G m' G') {n : NodeId} {i : ℕ} (h : Target m G n i) :
    Target m' G' n i :=
  h.imp id fun h => ⟨h.1, e.source h.2⟩

theorem tail_eq (e : Evolve w m G m' G') (hs : Shape m brk G) : m' tail = m tail :=
  (e.fresh tail hs.tail_notMem e.ne_tail.symm).1

theorem key_eq (e : Evolve w m G m' G') (hs : Shape m brk G) {n : NodeId} (h : n ∈ G.all) :
    (m' n).k = (m n).k := by
  rcases G.mem_all.mp h with h | rfl
  · exact (e.data n h).1
  · rw [e.tail_eq hs]

/-- New nodes are spliced in behind the deleted ones. -/
theorem before_gone (e : Evolve w m G m' G') (hs : Shape m' brk' G') {x y : NodeId}
    (hy : y ∈ G.gone) (h : Before G'.all x y) : Before G.all x y := by
  obtain ⟨l, hl⟩ := e.gone
  have hb := hs.before_gone h (e.mem_gone hy)
  have hnd : (G.gone ++ l).Nodup := by
    rw [hl]
    exact (List.nodup_append.mp (G'.order_eq ▸ hs.order_nodup)).1
  rw [← hl] at hb
  refine (hb.mem_of_prefix hnd hy).mono ?_
  rw [Ghost.all, G.order_eq, List.append_assoc]
  exact List.sublist_append_left _ _

/-- A bound below the head pointers stays a bound. -/
theorem le_headPtr (e : Evolve w m G m' G') (hs : Shape m' brk' G') {x : NodeId} {i : ℕ}
    (hm : ((m head).next 0).mark = true) (hi : i < NUM_LEVELS) (h0 : Le G.all x (headPtr m 0))
    (h : Le G.all x (headPtr m i)) : Le G'.all x (headPtr m' i) := by
  rcases e.floor hm i hi with hf | hf
  · exact (h.mono e.all).trans hs.nodup hf
  · exact (h0.mono e.all).trans hs.nodup hf

theorem before_headPtr (e : Evolve w m G m' G') (hs : Shape m' brk' G') {x : NodeId} {i : ℕ}
    (hm : ((m head).next 0).mark = true) (hi : i < NUM_LEVELS)
    (h0 : Before G.all x (headPtr m 0)) (h : Before G.all x (headPtr m i)) :
    Before G'.all x (headPtr m' i) := by
  rcases e.floor hm i hi with hf | hf
  · exact (h.mono e.all).trans_le hs.nodup hf
  · exact (h0.mono e.all).trans_le hs.nodup hf

end Evolve

end ConcurrentPQ.Linden

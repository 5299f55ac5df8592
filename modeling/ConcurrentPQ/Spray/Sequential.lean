import ConcurrentPQ.Lib.Eventually
import ConcurrentPQ.Spray.Step

/-!
# A SprayList used by one thread

Between the calls of a single thread the list is tidier than under concurrency: every level is
ordered, and a node has all its pointers marked if it is deleted and none otherwise.  From there
`fraser_search` comes to its end without a retry.

* `Next` — one access of the only thread;
* `Seq`, `distance` — the shape of memory between two calls, and how far a node is from the tail;
* `Tended` — what a search leaves alone;
* `Position`, `Seq.search` — what `fraser_search` records, and that it ends.
-/

namespace ConcurrentPQ.Spray

open ConcurrentPQ.Segment

/-- One access of the only thread. -/
def Next (c c' : Config) : Prop := c.pc.busy = true ∧ ∃ any, c' = access any c

/-- An access whose outcome is known. -/
theorem Eventually.access {Q : Config → Prop} {c c' : Config} (hb : c.pc.busy = true)
    (h : ∀ any, access any c = c') (hQ : Eventually Next Q c') : Eventually Next Q c := by
  refine .next ⟨hb, true, (h true).symm⟩ ?_ hQ
  rintro t ⟨-, any, rfl⟩
  exact h any

/-- The order of the nodes on a level: by value, and the younger of two nodes with the same value
first. -/
def Precedes (m : Mem) (n n' : NodeId) : Prop :=
  (m n).val < (m n').val ∨ ((m n).val = (m n').val ∧ n' < n)

/-- **The shape of memory between two calls of the only thread.** -/
structure Seq (m : Mem) (brk : NodeId) (P : Set NodeId) : Prop where
  shape : Shape m brk P
  ordered : ∀ n i, Source m P n i → n ≠ head → Precedes m n (succ m i n)
  marks : ∀ n, Inner P n → ∀ i, i < (m n).toplevel → (Marked m i n ↔ (m n).deleted ≠ 0)

/-- Values, levels and deletions stay, and the nodes that are not linked in are left alone. -/
structure Tended (P : Set NodeId) (m m' : Mem) : Prop where
  data : ∀ n, (m' n).val = (m n).val ∧ (m' n).toplevel = (m n).toplevel ∧
    (m' n).deleted = (m n).deleted
  frame : ∀ n, n ∉ P → m' n = m n

/-- Level `j` of the two lists holds neighbours around the key. -/
structure Position (m : Mem) (P : Set NodeId) (f : Frame) (j : ℕ) : Prop where
  pred : LeftOk m P f (f.preds j) j
  next : (m (f.preds j)).next j = ref (f.succs j)
  succ : Target m P (f.succs j) j
  le : f.val ≤ (m (f.succs j)).val
  unmarked : ¬Marked m j (f.succs j)

section Facts

variable {m m' m'' : Mem} {brk : NodeId} {P : Set NodeId} {n left right : NodeId} {i j : ℕ}
  {f : Frame}

theorem Precedes.congr {n' : NodeId} (h : Precedes m n n') (hn : (m' n).val = (m n).val)
    (hn' : (m' n').val = (m n').val) : Precedes m' n n' := by
  unfold Precedes
  rw [hn, hn']
  exact h

/-- How far a node is from the tail. -/
def distance (m : Mem) (brk : NodeId) (n : NodeId) : ℕ :=
  if n = head then (INT_MAX + 1) * brk else (INT_MAX - (m n).val) * brk + n

/-- Every pointer leads closer to the tail. -/
theorem Seq.distance_lt (h : Seq m brk P) (hn : Source m P n i) :
    distance m brk (succ m i n) < distance m brk n := by
  have hnext := h.shape.links n i hn
  have hle := h.shape.val_le hnext.mem hnext.ne_head
  have hlt := h.shape.lt_brk _ hnext.mem
  unfold distance
  rw [if_neg hnext.ne_head]
  have hfar : ∀ {c : ℕ}, INT_MAX - (m (succ m i n)).val < c →
      (INT_MAX - (m (succ m i n)).val) * brk + succ m i n < c * brk := by
    intro c hc
    calc (INT_MAX - (m (succ m i n)).val) * brk + succ m i n
        < (INT_MAX - (m (succ m i n)).val) * brk + brk := Nat.add_lt_add_left hlt _
      _ = (INT_MAX - (m (succ m i n)).val + 1) * brk := (Nat.succ_mul _ _).symm
      _ ≤ c * brk := Nat.mul_le_mul_right _ hc
  split
  · exact hfar (by omega)
  · rename_i hh
    rcases h.ordered n i hn hh with hv | ⟨hv, hid⟩
    · exact lt_of_lt_of_le (hfar (by omega)) (Nat.le_add_right _ _)
    · rw [hv]
      exact Nat.add_lt_add_left hid _

theorem is_marked_iff : is_marked ((m n).next i) = true ↔ Marked m i n := Iff.rfl

theorem Tended.refl : Tended P m m := ⟨fun _ => ⟨rfl, rfl, rfl⟩, fun _ _ => rfl⟩

theorem Tended.trans (h : Tended P m m') (h' : Tended P m' m'') : Tended P m m'' where
  data n := ⟨(h'.data n).1.trans (h.data n).1, (h'.data n).2.1.trans (h.data n).2.1,
    (h'.data n).2.2.trans (h.data n).2.2⟩
  frame n hn := (h'.frame n hn).trans (h.frame n hn)

theorem Tended.setNext {w : Ref} (hn : n ∈ P) : Tended P m (setNext m n i w) where
  data _ := ⟨setNext_val .., setNext_toplevel .., setNext_deleted ..⟩
  frame _ hx := setNext_node_ne _ _ _ _ _ fun he => hx (he ▸ hn)

/-- The head carries no mark, a node that is not deleted carries none. -/
theorem Seq.unmarked (h : Seq m brk P) (hn : Source m P n i)
    (hd : n = head ∨ (m n).deleted = 0) : ¬Marked m i n := by
  by_cases hh : n = head
  · rw [hh]
    exact h.shape.head_unmarked (by rw [← h.shape.head_top, ← hh]; exact hn.lt)
  · exact fun hm => (h.marks n ⟨hn.mem, hh, hn.ne_tail⟩ i hn.lt).mp hm (hd.resolve_left hh)

/-- A mark on one level is a mark on all. -/
theorem Seq.unmarked_level (h : Seq m brk P) (hn : Source m P n i) (hj : j < (m n).toplevel)
    (hm : ¬Marked m i n) : ¬Marked m j n := by
  by_cases hh : n = head
  · exact h.unmarked ⟨hn.mem, hn.ne_tail, hj⟩ (Or.inl hh)
  · have hin : Inner P n := ⟨hn.mem, hh, hn.ne_tail⟩
    exact fun hm' => hm ((h.marks n hin i hn.lt).mpr ((h.marks n hin j hj).mp hm'))

/-- A pointer that is not marked is the address of the successor. -/
theorem next_of_unmarked (h : ¬Marked m i n) : (m n).next i = ref (succ m i n) := by
  unfold Marked at h
  unfold succ ref
  rcases hw : (m n).next i with ⟨p, b⟩
  rw [hw] at h
  cases b with
  | true => exact absurd rfl h
  | false => rfl

/-- A search cuts a run of marked nodes out. -/
theorem Seq.unlink (h : Seq m brk P) (hl : Source m P left i) (hun : ¬Marked m i left)
    (hp : Passes m P i (succ m i left) right) (ht : Target m P right i)
    (hv : left ≠ head → (m left).val < (m right).val) :
    Seq (setNext m left i (ref right)) brk P where
  shape := h.shape.unlink hl hun hp ht hv
  ordered n j hn hh := by
    rw [source_setNext] at hn
    by_cases he : n = left ∧ j = i
    · obtain ⟨rfl, rfl⟩ := he
      rw [succ_setNext_same]
      exact Or.inl (by rw [setNext_val, setNext_val]; exact hv hh)
    · rw [succ_setNext_ne he]
      exact (h.ordered n j hn hh).congr (setNext_val ..) (setNext_val ..)
  marks n hn j hj := by
    rw [setNext_toplevel] at hj
    rw [setNext_deleted, ← h.marks n hn j hj]
    unfold Marked
    rw [setNext_next]
    split
    · rename_i he
      obtain ⟨rfl, rfl⟩ := he
      exact ⟨fun hm => (by cases hm), fun hm => absurd hm hun⟩
    · exact Iff.rfl

/-- What is recorded on a level stays true while lower levels are searched. -/
theorem Position.setNext {w : Ref} (h : Position m P f j) (hji : j ≠ i) :
    Position (setNext m n i w) P f j where
  pred := ⟨source_setNext.mpr h.pred.1, fun hne => by rw [setNext_val]; exact h.pred.2 hne⟩
  next := by rw [setNext_of_ne _ _ _ _ _ _ fun he => hji he.2]; exact h.next
  succ := h.succ.setNext
  le := by rw [setNext_val]; exact h.le
  unmarked := by
    unfold Marked
    rw [setNext_of_ne _ _ _ _ _ _ fun he => hji he.2]
    exact h.unmarked

/-- Recording another level. -/
theorem Position.record (h : Position m P f j) (hji : j ≠ i) (l r : NodeId) :
    Position m P (f.record i l r) j := by
  have hp : (f.record i l r).preds j = f.preds j := Function.update_of_ne hji ..
  have hs : (f.record i l r).succs j = f.succs j := Function.update_of_ne hji ..
  constructor
  · rw [hp]; exact h.pred
  · rw [hp, hs]; exact h.next
  · rw [hs]; exact h.succ
  · rw [hs]; exact h.le
  · rw [hs]; exact h.unmarked

theorem Position.new (hl : LeftOk m P f left i) (hn : (m left).next i = ref right)
    (ht : Target m P right i) (hv : f.val ≤ (m right).val) (hun : ¬Marked m i right) :
    Position m P (f.record i left right) i := by
  have hp : (f.record i left right).preds i = left := Function.update_self ..
  have hs : (f.record i left right).succs i = right := Function.update_self ..
  constructor
  · rw [hp]; exact hl
  · rw [hp, hs]; exact hn
  · rw [hs]; exact ht
  · rw [hs]; exact hv
  · rw [hs]; exact hun

end Facts

/-! ### fraser_search -/

section Search

variable {m m₀ : Mem} {brk : NodeId} {P : Set NodeId} {seed : ℕ} {Q : Config → Prop}

/-- The frames of a search differ in their lists only. -/
def SameCall (f f' : Frame) : Prop := f'.val = f.val ∧ f'.lvl = f.lvl ∧ f'.new = f.new

/-- What a search that stands on `left` at level `i` knows. -/
structure Searching (m₀ : Mem) (brk : NodeId) (P : Set NodeId) (f₀ : Frame) (m : Mem) (f : Frame)
    (left : NodeId) (i : ℕ) : Prop where
  seq : Seq m brk P
  tended : Tended P m₀ m
  same : SameCall f₀ f
  lt : i < levelmax
  stands : LeftOk m P f left i
  unmarked : ¬Marked m i left
  done : ∀ j, i < j → j < levelmax → Position m P f j

/-- One level of a search. -/
theorem Searching.level {f₀ f : Frame} {site : Site} {left : NodeId} {i : ℕ}
    (h : Searching m₀ brk P f₀ m f left i) (hv : f.val ≤ INT_MAX)
    (hQ : ∀ m' l r, Searching m₀ brk P f₀ m' f l i → (m' l).next i = ref r → Target m' P r i →
      f.val ≤ (m' r).val → ¬Marked m' i r →
      Eventually Next Q ⟨⟨m', brk⟩, seed, seDown f site l r i⟩) :
    Eventually Next Q ⟨⟨m, brk⟩, seed, .seLeft f site left i⟩ := by
  have hs := h.seq.shape
  have hl := h.stands.1
  refine Eventually.access rfl (fun _ => access_loadNext rfl (hs.ne_null hl.mem) hl.lt) ?_
  rw [if_neg (is_marked_iff.not.mpr h.unmarked)]
  -- the loop that moves right; its variables are `left` and `right`
  refine Eventually.loop
    (I := fun a : NodeId × NodeId => Searching m₀ brk P f₀ m f a.1 i ∧ Target m P a.2 i ∧
      Passes m P i (succ m i a.1) a.2)
    (fun a => (⟨⟨m, brk⟩, seed, .seNext f site a.1 (succ m i a.1) a.2 i⟩ : Config))
    (fun a => distance m brk a.2) ?_ (a := (left, succ m i left))
    ⟨h, hs.links left i hl, .refl⟩
  rintro ⟨l, r⟩ ⟨hsr, hr, hp⟩
  dsimp only at hsr hr hp ⊢
  have hlm := hsr.stands.1
  refine Eventually.access rfl (fun _ => access_loadNext rfl (hs.ne_null hr.mem) hr.lt) ?_
  by_cases hmark : Marked m i r
  · -- a marked node is skipped
    rw [if_pos (is_marked_iff.mpr hmark)]
    have hsrc := hr.source (hs.marked_ne_tail hr.lt hmark)
    have hnext := hs.links r i hsrc
    exact .now (Or.inr ⟨(l, succ m i r), ⟨hsr, hnext, hp.step hsrc hmark⟩, rfl,
      h.seq.distance_lt hsrc⟩)
  · rw [if_neg (is_marked_iff.not.mpr hmark)]
    refine Eventually.access rfl (fun _ => access_loadVal rfl (hs.ne_null hr.mem)) ?_
    by_cases hle : f.val ≤ (m r).val
    · rw [if_pos hle]
      have hword := next_of_unmarked hsr.unmarked
      by_cases hadj : succ m i l = r
      · rw [if_neg (not_not.mpr hadj)]
        exact (hQ m l r hsr (by rw [hword, hadj]) hr hle hmark).mono fun _ => Or.inl
      · -- the marked nodes in between are cut out
        rw [if_pos hadj]
        refine Eventually.access rfl
          (fun _ => access_cas_hit rfl (hs.ne_null hlm.mem) hlm.lt hword) ?_
        have hlt : l ≠ head → (m l).val < (m r).val := fun hne =>
          lt_of_lt_of_le (hsr.stands.2 hne) hle
        have hun := hsr.unmarked
        have hsr' : Searching m₀ brk P f₀ (setNext m l i (ref r)) f l i := by
          refine ⟨h.seq.unlink hlm hun hp hr hlt, h.tended.trans (.setNext hlm.mem), h.same, h.lt,
            ⟨source_setNext.mpr hlm, fun hne => ?_⟩, ?_, fun j h₁ h₂ => ?_⟩
          · rw [setNext_val]
            exact hsr.stands.2 hne
          · unfold Marked
            rw [setNext_same]
            nofun
          · exact (hsr.done j h₁ h₂).setNext (by omega)
        refine (hQ _ l r hsr' (setNext_same ..) hr.setNext (by rwa [setNext_val]) ?_).mono
          fun _ => Or.inl
        unfold Marked
        rw [setNext_of_ne]
        · exact hmark
        · rintro ⟨rfl, -⟩
          by_cases hh : r = head
          · exact hr.ne_head hh
          · exact lt_irrefl _ (hlt hh)
    · -- the search moves right
      rw [if_neg hle]
      have hlt : (m r).val < f.val := not_le.mp hle
      have ht : r ≠ tail := by
        rintro rfl
        rw [hs.tail_val] at hlt
        omega
      have hsrc := hr.source ht
      have hnext := hs.links r i hsrc
      exact .now (Or.inr ⟨(r, succ m i r),
        ⟨⟨h.seq, h.tended, h.same, h.lt, ⟨hsrc, fun _ => hlt⟩, hmark, hsr.done⟩, hnext, .refl⟩, rfl,
        h.seq.distance_lt hsrc⟩)

/-- **`fraser_search` ends**, and records neighbours around the key on every level. -/
theorem Seq.search {f : Frame} {site : Site} (h : Seq m brk P) (hv : f.val ≤ INT_MAX)
    (hQ : ∀ m' f', Seq m' brk P → Tended P m m' → SameCall f f' →
      (∀ j, j < levelmax → Position m' P f' j) →
      Eventually Next Q ⟨⟨m', brk⟩, seed, searched f' site⟩) :
    Eventually Next Q ⟨⟨m, brk⟩, seed, search f site⟩ := by
  -- the loop over the levels
  have key : ∀ i m' f' left, Searching m brk P f m' f' left i →
      Eventually Next Q ⟨⟨m', brk⟩, seed, .seLeft f' site left i⟩ := by
    intro i
    induction i with
    | zero =>
      intro m' f' left hsr
      refine hsr.level (by rw [hsr.same.1]; exact hv) fun m'' l r hsr' hn ht hle hun => ?_
      refine hQ m'' (f'.record 0 l r) hsr'.seq hsr'.tended hsr'.same fun j hj => ?_
      by_cases hj0 : j = 0
      · subst hj0
        exact .new hsr'.stands hn ht hle hun
      · exact (hsr'.done j (by omega) hj).record hj0 l r
    | succ i ih =>
      intro m' f' left hsr
      refine hsr.level (by rw [hsr.same.1]; exact hv) fun m'' l r hsr' hn ht hle hun => ?_
      have hdown : seDown f' site l r (i + 1) = .seLeft (f'.record (i + 1) l r) site l i := rfl
      rw [hdown]
      have hsrc := hsr'.stands.1.below (Nat.le_succ i)
      refine ih m'' _ l ⟨hsr'.seq, hsr'.tended, hsr'.same, by have := hsr'.lt; omega,
        ⟨hsrc, hsr'.stands.2⟩, hsr'.seq.unmarked_level hsr'.stands.1 hsrc.lt hsr'.unmarked,
        fun j h₁ h₂ => ?_⟩
      by_cases hj : j = i + 1
      · subst hj
        exact .new hsr'.stands hn ht hle hun
      · exact (hsr'.done j (by omega) h₂).record hj l r
  have hhead := h.shape.head_source (i := levelmax - 1) (by decide)
  refine key (levelmax - 1) m f head ⟨h, .refl, ⟨rfl, rfl, rfl⟩, by decide,
    ⟨hhead, fun hne => absurd rfl hne⟩, h.unmarked hhead (Or.inl rfl), fun j h₁ h₂ => ?_⟩
  exact absurd h₁ (by omega)

end Search

end ConcurrentPQ.Spray

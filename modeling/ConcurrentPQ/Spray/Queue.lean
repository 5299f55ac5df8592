import ConcurrentPQ.Spray.Invariant
import ConcurrentPQ.Spray.SeqAdd
import ConcurrentPQ.Spray.SeqDelete

/-!
# Whole histories of one thread

`History` are the calls the only thread has completed.  Between them memory keeps its shape,
whatever keys were inserted, on whichever of the two paths, and whatever the spray did.

* `Eventually.search_crash`, `Seq.insert_max` — keys from `INT_MAX` on;
* `Seq.delete_min` — `spray_delete_min` with its two algorithms;
* `Seq.call`, `History.seq` — **every call that returns keeps the shape of memory**.
-/

namespace ConcurrentPQ.Spray

open Relation

section Sentinel

variable {m m' : Mem} {brk : NodeId} {P : Set NodeId} {seed : ℕ} {Q : Config → Prop}

/-- A search for a key no node can hold back runs past the tail: the key is above that of the tail,
or the pointer of the tail is marked. -/
theorem Eventually.search_crash {f : Frame} {site : Site} (h : Seq m brk P) (hf : INT_MAX ≤ f.val)
    (hm : ∀ n ∈ P, n ≠ tail → m' n = m n)
    (htail : levelmax - 1 < (m tail).toplevel → levelmax - 1 < (m' tail).toplevel ∧
      succ m' (levelmax - 1) tail = NULL ∧
      (Marked m' (levelmax - 1) tail ∨ (m' tail).val < f.val))
    (hQ : Eventually Next Q ⟨⟨m', brk⟩, seed, .crashed⟩) :
    Eventually Next Q ⟨⟨m', brk⟩, seed, search f site⟩ := by
  have hs := h.shape
  have hhead := hs.head_source (i := levelmax - 1) (by decide)
  have heq : m' head = m head := hm head hs.head_mem (by decide)
  have hsame : ∀ {n}, n ∈ P → n ≠ tail →
      (Marked m' (levelmax - 1) n ↔ Marked m (levelmax - 1) n) ∧
      ((m' n).next (levelmax - 1)).ptr = succ m (levelmax - 1) n := fun hn ht => by
    unfold Marked succ
    rw [hm _ hn ht]
    exact ⟨Iff.rfl, rfl⟩
  refine Eventually.access rfl
    (fun _ => access_loadNext rfl (by decide) (by dsimp only; rw [heq]; exact hhead.lt)) ?_
  obtain ⟨hmark, hnext⟩ := hsame hs.head_mem hhead.ne_tail
  rw [if_neg (is_marked_iff.not.mpr (hmark.not.mpr (h.unmarked hhead (Or.inl rfl)))), hnext]
  -- the loop that moves right never stops before the tail
  refine Eventually.loop
    (I := fun a : NodeId × NodeId × NodeId => Target m P a.2.2 (levelmax - 1))
    (fun a => (⟨⟨m', brk⟩, seed, .seNext f site a.1 a.2.1 a.2.2 (levelmax - 1)⟩ : Config))
    (fun a => distance m brk a.2.2) ?_
    (a := (head, succ m (levelmax - 1) head, succ m (levelmax - 1) head))
    (hs.links head _ hhead)
  rintro ⟨l, ln, r⟩ hr
  dsimp only at hr ⊢
  have hrn := hs.ne_null hr.mem
  by_cases ht : r = tail
  · subst ht
    obtain ⟨htop, hnull, hstop⟩ := htail hr.lt
    refine Eventually.access rfl (fun _ => access_loadNext rfl hrn htop) ?_
    rw [show ((m' tail).next (levelmax - 1)).ptr = NULL from hnull]
    by_cases hmk : Marked m' (levelmax - 1) tail
    · rw [if_pos (is_marked_iff.mpr hmk)]
      exact Eventually.access rfl (fun _ => access_null rfl) (hQ.mono fun _ => Or.inl)
    · rw [if_neg (is_marked_iff.not.mpr hmk)]
      refine Eventually.access rfl (fun _ => access_loadVal rfl hrn) ?_
      rw [if_neg (not_le.mpr (hstop.resolve_left hmk))]
      exact Eventually.access rfl (fun _ => access_null rfl) (hQ.mono fun _ => Or.inl)
  · have hsrc := hr.source ht
    have hnext := hs.links r _ hsrc
    have hrm := hm r hr.mem ht
    obtain ⟨hmark, hword⟩ := hsame hr.mem ht
    refine Eventually.access rfl
      (fun _ => access_loadNext rfl hrn (by dsimp only; rw [hrm]; exact hr.lt)) ?_
    by_cases hmk : Marked m' (levelmax - 1) r
    · rw [if_pos (is_marked_iff.mpr hmk), hword]
      exact .now (Or.inr ⟨(l, ln, succ m (levelmax - 1) r), hnext, rfl, h.distance_lt hsrc⟩)
    · rw [if_neg (is_marked_iff.not.mpr hmk), hword]
      refine Eventually.access rfl (fun _ => access_loadVal rfl hrn) ?_
      have hv : (m' r).val < INT_MAX := by
        rw [hrm]
        exact hs.val_lt r hr.mem hr.ne_head ht
      rw [if_neg (not_le.mpr (lt_of_lt_of_le hv hf))]
      exact .now (Or.inr ⟨(r, succ m (levelmax - 1) r, succ m (levelmax - 1) r), hnext, rfl,
        h.distance_lt hsrc⟩)

/-- `mark_node_ptrs` on the tail marks its null pointers. -/
theorem Eventually.mark_tail {f : Frame} (htop : 1 ≤ (m tail).toplevel)
    (hnull : ∀ i, i < (m tail).toplevel → (m tail).next i = ref NULL)
    (hQ : ∀ m', (∀ n, n ≠ tail → m' n = m n) → (m' tail).toplevel = (m tail).toplevel →
      (∀ i, i < (m tail).toplevel → (m' tail).next i = set_mark (ref NULL)) →
      Eventually Next Q ⟨⟨m', brk⟩, seed, search f .insert⟩) :
    Eventually Next Q ⟨⟨m, brk⟩, seed, .mkTop (.duplicate f) tail⟩ := by
  -- the loop over the levels
  have key : ∀ k m', k < (m tail).toplevel → (∀ n, n ≠ tail → m' n = m n) →
      (m' tail).toplevel = (m tail).toplevel →
      (∀ i, i < (m tail).toplevel →
        (m' tail).next i = if k < i then set_mark (ref NULL) else ref NULL) →
      Eventually Next Q ⟨⟨m', brk⟩, seed, .mkNext (.duplicate f) tail k⟩ := by
    intro k
    induction k with
    | zero =>
      intro m' hk hm ht hn
      have hword : (m' tail).next 0 = ref NULL := hn 0 hk
      refine Eventually.access rfl
        (fun _ => access_loadNext rfl (by decide) (by rw [ht]; exact hk)) ?_
      rw [hword, if_neg (by decide)]
      refine Eventually.access rfl
        (fun _ => access_cas_hit rfl (by decide) (by rw [ht]; exact hk) hword) ?_
      refine hQ _ (fun n hne => ?_) (by rw [setNext_toplevel, ht]) fun i hi => ?_
      · exact (setNext_node_ne _ _ _ _ _ hne).trans (hm n hne)
      · rw [setNext_next]
        split
        · rfl
        · rename_i hi0
          rw [hn i hi, if_pos (Nat.pos_of_ne_zero fun he => hi0 ⟨rfl, he⟩)]
    | succ k ih =>
      intro m' hk hm ht hn
      have hword : (m' tail).next (k + 1) = ref NULL := by rw [hn _ hk, if_neg (lt_irrefl _)]
      refine Eventually.access rfl
        (fun _ => access_loadNext rfl (by decide) (by rw [ht]; exact hk)) ?_
      rw [hword, if_neg (by decide)]
      refine Eventually.access rfl
        (fun _ => access_cas_hit rfl (by decide) (by rw [ht]; exact hk) hword) ?_
      refine ih _ (by omega) (fun n hne => ?_) (by rw [setNext_toplevel, ht]) fun i hi => ?_
      · exact (setNext_node_ne _ _ _ _ _ hne).trans (hm n hne)
      · rw [setNext_next]
        split
        · rename_i he
          rw [if_pos (by omega)]
        · rename_i he
          have hne : i ≠ k + 1 := fun h => he ⟨rfl, h⟩
          rw [hn i hi]
          exact if_congr (by omega) rfl rfl
  refine Eventually.access rfl (fun _ => access_loadToplevel rfl (by decide)) ?_
  rw [if_neg (Nat.one_le_iff_ne_zero.mp htop)]
  refine key _ m (Nat.sub_one_lt_of_lt htop) (fun _ _ => rfl) rfl fun i hi => ?_
  rw [hnull i hi, if_neg (by dsimp only; omega)]

/-- `fraser_insert` of a key above `INT_MAX` reads through a null pointer. -/
theorem Seq.insert_above {v lvl : ℕ} (h : Seq m brk P) (hv : INT_MAX < v)
    (hQ : ∀ m', Eventually Next Q ⟨⟨m', brk + 1⟩, seed, .crashed⟩) :
    Eventually Next Q ⟨⟨m, brk⟩, seed, .insAlloc v lvl⟩ := by
  refine Eventually.new_node h.brk_ne_null ?_
  have hseq := (h.allocate v lvl).1
  refine Eventually.search_crash hseq hv.le (fun _ _ _ => rfl) (fun ht => ⟨ht, ?_, Or.inr ?_⟩) (hQ _)
  · rw [succ, hseq.shape.tail_next _ ht]
  · rw [hseq.shape.tail_val]
    exact hv

/-- `fraser_insert` of `INT_MAX` takes the tail for a node with its key: it inserts nothing, or marks
the tail and reads through a null pointer. -/
theorem Seq.insert_max {lvl : ℕ} (h : Seq m brk P)
    (hret : (m tail).deleted = 0 → ∀ m', Seq m' (brk + 1) P →
      Eventually Next Q ⟨⟨m', brk + 1⟩, seed, .ret (.inserted false)⟩)
    (hcrash : (m tail).deleted ≠ 0 → ∀ m', Eventually Next Q ⟨⟨m', brk + 1⟩, seed, .crashed⟩) :
    Eventually Next Q ⟨⟨m, brk⟩, seed, .insAlloc INT_MAX lvl⟩ := by
  refine Eventually.new_node h.brk_ne_null ?_
  obtain ⟨hseq, hP⟩ := h.allocate INT_MAX lvl
  refine hseq.search (f := .begin INT_MAX lvl brk) le_rfl fun m₂ f hseq₂ ht hsame hp => ?_
  have hs₂ := hseq₂.shape
  have h0 := hp 0 (by decide)
  have hfv : f.val = INT_MAX := hsame.1
  have htail : f.succs 0 = tail := by
    by_contra hne
    have hlt := hs₂.val_lt _ h0.succ.mem h0.succ.ne_head hne
    have hle := h0.le
    omega
  have htm := hs₂.tail_mem
  have hd : (m₂ tail).deleted = (m tail).deleted := by
    rw [(ht.data tail).2.2, hP tail h.shape.tail_mem]
  refine Eventually.access rfl
    (fun _ => access_loadVal rfl (by rw [htail]; exact hs₂.ne_null htm)) ?_
  rw [htail, hs₂.tail_val, if_pos hfv.symm]
  refine Eventually.access rfl
    (fun _ => access_loadDeleted rfl (by rw [htail]; exact hs₂.ne_null htm)) ?_
  rw [htail]
  by_cases hd0 : (m tail).deleted = 0
  · rw [if_neg (not_not.mpr (hd.trans hd0))]
    refine Eventually.access rfl (fun _ => access_freeNode rfl ?_) (hret hd0 m₂ hseq₂)
    rw [hsame.2.2]
    exact h.brk_ne_null
  · rw [if_pos (hd ▸ hd0)]
    refine Eventually.mark_tail (hs₂.top tail htm).1 hs₂.tail_next fun m₃ hm₃ htop hnext => ?_
    refine Eventually.search_crash hseq₂ hfv.ge (fun n _ hne => hm₃ n hne) (fun hlt => ?_)
      (hcrash hd0 m₃)
    refine ⟨by rw [htop]; exact hlt, ?_, Or.inl ?_⟩
    · rw [succ, hnext _ hlt]
      rfl
    · unfold Marked
      rw [hnext _ hlt]
      rfl

end Sentinel

/-! ### delete_min -/

section DeleteMin

variable {m : Mem} {brk : NodeId} {P : Set NodeId} {seed : ℕ} {Q : Config → Prop}

/-- `spray_delete_min` with `nb_threads = n` goes the way of `naive_delete_min`. -/
def Naive (n seed : ℕ) : Prop := n = 1 ∨ nextSeed seed % n = 0

instance (n seed : ℕ) : Decidable (Naive n seed) := inferInstanceAs (Decidable (_ ∨ _))

/-- Incrementing `deleted` of the tail is not noticed. -/
theorem Seq.tail_increment (h : Seq m brk P) :
    Seq (modify m tail fun x => { x with deleted := x.deleted + 1 }) brk P := by
  have hsame : Same m (modify m tail fun x => { x with deleted := x.deleted + 1 }) P := .increment
  have hsrc : ∀ {n i}, Source (modify m tail fun x => { x with deleted := x.deleted + 1 }) P n i →
      Source m P n i := fun hx => ⟨hx.mem, hx.ne_tail, by rw [← (hsame.data _ hx.mem).2]; exact hx.lt⟩
  refine ⟨h.shape.same hsame le_rfl, fun n i hn hh => ?_, fun n hn i hi => ?_⟩
  · have hnext := (h.shape.links n i (hsrc hn)).mem
    rw [hsame.succ hn.mem]
    exact (h.ordered n i (hsrc hn) hh).congr (hsame.data n hn.mem).1 (hsame.data _ hnext).1
  · unfold Marked
    rw [modify_ne _ _ _ _ hn.ne_tail] at hi ⊢
    exact h.marks n hn i hi

/-- **`spray_delete_min` ends.**  On the way of `naive_delete_min` it takes the least key, or goes on
to increment the tail; on its own it takes some live key or none. -/
theorem Seq.delete_min {n : ℕ} (h : Seq m brk P)
    (hleast : Naive n seed → ∀ y m', IsLeast (liveKeys m) (m y).val → Seq m' brk P →
      Taken P m m' y →
      Eventually Next Q ⟨⟨m', brk⟩, nextSeed seed, .ret (.deleted true (some (m y).val))⟩)
    (hempty : Naive n seed → liveKeys m = ∅ →
      Eventually Next Q ⟨⟨m, brk⟩, nextSeed seed, .nvInc tail⟩)
    (hwild : ¬Naive n seed → levelmax ≤ SCANHEIGHT n → ∀ seed',
      Eventually Next Q ⟨⟨m, brk⟩, seed', .wild⟩)
    (htake : ¬Naive n seed → ∀ y m' seed', Live m P y → Seq m' brk P → Taken P m m' y →
      Eventually Next Q ⟨⟨m', brk⟩, seed', .ret (.deleted true (some (m y).val))⟩)
    (hnone : ¬Naive n seed → ∀ seed',
      Eventually Next Q ⟨⟨m, brk⟩, seed', .ret (.deleted false none)⟩) :
    Eventually Next Q ⟨⟨m, brk⟩, seed, .spSeed n⟩ := by
  refine Eventually.access rfl (fun _ => access_draw rfl) ?_
  by_cases hn : Naive n seed
  · rw [if_pos (show n = 1 ∨ nextSeed seed % n = 0 from hn)]
    exact h.naive (hleast hn) (hempty hn)
  · rw [if_neg (show ¬(n = 1 ∨ nextSeed seed % n = 0) from hn)]
    have hgood : (⟨n, head, SCANHEIGHT n, 0, 0⟩ : Walk).good m := by
      rcases le_or_gt levelmax (SCANHEIGHT n) with hle | hlt
      · exact Or.inl hle
      · exact Or.inr (by dsimp only; rw [h.shape.head_top]; exact hlt)
    exact h.spray_walk h.shape.head_mem hgood (hwild hn) (htake hn) (hnone hn)

end DeleteMin

/-! ### Histories -/

/-- The operations of a `SprayList`: insertions on either path, with a level `get_rand_level` can
draw, and `delete_min` with the thread count of `init_thread`. -/
def Client : Op → Prop
  | .fraser_insert _ lvl | .sl_seq_add _ lvl => 1 ≤ lvl ∧ lvl ≤ levelmax
  | .spray_delete_min n => 1 ≤ n
  | _ => False

/-- A call returned, or its thread stopped within; after a return memory has its shape. -/
structure Settled (c : Config) : Prop where
  idle : c.pc.busy = false
  seq : ∀ a, c.pc = .ret a → ∃ P, Seq c.sh.mem c.sh.brk P

/-- The calls the only thread has completed, the latest first.  Each was allowed by what had been
called, by the state of memory and by the seed. -/
inductive History (allowed : List (Op × Answer) → Shared → ℕ → Op → Prop) :
    List (Op × Answer) → Shared → ℕ → Prop
  | nil {s : Shared} (seed : ℕ) : Fresh s → History allowed [] s seed
  | call {h : List (Op × Answer)} {s s' : Shared} {seed seed' : ℕ} {op : Op} {a : Answer} :
      History allowed h s seed → allowed h s seed op →
      ReflTransGen Next ⟨s, seed, start op⟩ ⟨s', seed', .ret a⟩ →
      History allowed ((op, a) :: h) s' seed'

section Histories

variable {m : Mem} {brk : NodeId} {P : Set NodeId} {seed : ℕ}

/-- Nothing happens behind the end of a call. -/
theorem Settled.final {c c' : Config} (h : c.pc.busy = false) : ¬Next c c' := fun hn => by
  rw [hn.1] at h
  cases h

theorem Seq.initial {s : Shared} (h : Fresh s) : Seq s.mem s.brk {head, tail} where
  shape := .initial h
  ordered n i hn hh := by
    rcases hn.mem with rfl | hm
    · exact absurd rfl hh
    · exact absurd hm hn.ne_tail
  marks n hn := by
    rcases hn.mem with rfl | hm
    · exact absurd rfl hn.ne_head
    · exact absurd hm hn.ne_tail

theorem Settled.ret {s : Shared} {a : Answer} (h : Seq s.mem s.brk P) : Settled ⟨s, seed, .ret a⟩ :=
  ⟨rfl, fun _ _ => ⟨P, h⟩⟩

theorem Settled.crashed {s : Shared} : Settled ⟨s, seed, .crashed⟩ := ⟨rfl, nofun⟩

theorem Settled.wild {s : Shared} : Settled ⟨s, seed, .wild⟩ := ⟨rfl, nofun⟩

/-- **Every call comes to an end**, and if it returns, memory has its shape again. -/
theorem Seq.call {op : Op} (h : Seq m brk P) (ho : Client op) :
    Eventually Next Settled ⟨⟨m, brk⟩, seed, start op⟩ := by
  cases op with
  | fraser_remove val rs => exact ho.elim
  | naive_delete_min => exact ho.elim
  | fraser_insert v lvl =>
    rcases lt_trichotomy v INT_MAX with hv | rfl | hv
    · exact h.insert hv ho (fun _ m' hs _ => .now (.ret hs)) fun _ m' hs _ => .now (.ret hs)
    · exact h.insert_max (fun _ m' hs => .now (.ret hs)) fun _ m' => .now .crashed
    · exact h.insert_above hv fun m' => .now .crashed
  | sl_seq_add v lvl =>
    rcases le_or_gt v INT_MAX with hv | hv
    · exact h.seq_add hv ho (fun _ => .now .wild) (fun _ _ _ _ m' hs _ => .now (.ret hs))
        fun _ _ => .now (.ret h)
    · exact h.walk_crash hv (.now .wild) (.now .crashed)
  | spray_delete_min n =>
    refine h.delete_min (fun _ y m' _ hs _ => .now (.ret hs)) (fun _ _ => ?_)
      (fun _ _ _ => .now .wild) (fun _ y m' _ _ hs _ => .now (.ret hs)) fun _ _ => .now (.ret h)
    by_cases hd : (m tail).deleted = 0
    · exact h.naive_tail hd (.now (.ret h.tail_increment))
    · exact h.naive_crash hd (.now .crashed)

/-- **Between two calls memory has its shape.** -/
theorem History.seq {allowed : List (Op × Answer) → Shared → ℕ → Op → Prop}
    {h : List (Op × Answer)} {s : Shared} (hh : History allowed h s seed)
    (hall : ∀ h s seed op, allowed h s seed op → Client op) : ∃ P, Seq s.mem s.brk P := by
  induction hh with
  | nil _ hf => exact ⟨_, .initial hf⟩
  | call _ ha hrun ih =>
    obtain ⟨P, hP⟩ := ih
    have hset := (hP.call (hall _ _ _ _ ha)).of_final (fun t u ht => Settled.final ht.idle) hrun
      fun u => Settled.final rfl
    exact hset.seq _ rfl

end Histories

end ConcurrentPQ.Spray

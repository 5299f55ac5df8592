import ConcurrentPQ.Spray.SeqInsert

/-!
# The insertion without synchronisation

`sl_seq_add` reads every pointer as it is.  Where no deleted node stands on its way it finds
neighbours around its key, and links the new node in level by level.

* `Visits`, `Clean`, `Stale` — the way to a key, and what may be wrong with it;
* `Seq.walk` — the walk ends, or reads through a marked pointer;
* `fill` — the new node as it will be: its upper pointers are written when it is linked in already;
* `Seq.seq_add` — **`sl_seq_add` ends**, and what it returns.
-/

namespace ConcurrentPQ.Spray

open ConcurrentPQ.Segment

/-- The places `sl_seq_add` comes to from node `n₀` at level `i₀` on its way to key `v`, marks
stripped. -/
inductive Visits (m : Mem) (v : ℕ) (n₀ : NodeId) (i₀ : ℕ) : NodeId → ℕ → Prop
  | here : Visits m v n₀ i₀ n₀ i₀
  | right {n : NodeId} {i : ℕ} : Visits m v n₀ i₀ n i → (m (succ m i n)).val < v →
      Visits m v n₀ i₀ (succ m i n) i
  | down {n : NodeId} {i : ℕ} : Visits m v n₀ i₀ n (i + 1) → v ≤ (m (succ m (i + 1) n)).val →
      Visits m v n₀ i₀ n i

/-- No pointer on the rest of the way to key `v` is marked. -/
def CleanFrom (m : Mem) (v : ℕ) (n₀ : NodeId) (i₀ : ℕ) : Prop :=
  ∀ n i, Visits m v n₀ i₀ n i → ¬Marked m i n

/-- No pointer on the way to key `v` is marked. -/
def Clean (m : Mem) (v : ℕ) : Prop := CleanFrom m v head (levelmax - 1)

/-- The way to key `v` ends before a deleted node with that key. -/
def Stale (m : Mem) (v : ℕ) : Prop :=
  ∃ n, Visits m v head (levelmax - 1) n 0 ∧ (m (succ m 0 n)).val = v ∧
    (m (succ m 0 n)).deleted ≠ 0

/-- The locals of `sl_seq_add` as those of `fraser_insert`. -/
def SeqFrame.frame (f : SeqFrame) : Frame :=
  ⟨f.val, f.lvl, f.new, f.preds, fun j => (f.succs j).ptr⟩

/-- Level `j` of the two lists holds neighbours around the key. -/
structure Placed (m : Mem) (P : Set NodeId) (f : SeqFrame) (j : ℕ) : Prop where
  pred : LeftOk m P f.frame (f.preds j) j
  next : (m (f.preds j)).next j = f.succs j
  word : f.succs j = ref (f.succs j).ptr
  succ : Target m P (f.succs j).ptr j
  le : f.val ≤ (m (f.succs j).ptr).val

section Way

variable {m : Mem} {v : ℕ} {n n' : NodeId} {i i' : ℕ}

theorem visits_right (h : (m (succ m i n)).val < v) :
    Visits m v n i n' i' ↔ (n' = n ∧ i' = i) ∨ Visits m v (succ m i n) i n' i' := by
  constructor
  · intro hv
    induction hv with
    | here => exact Or.inl ⟨rfl, rfl⟩
    | right _ hlt ih =>
      rcases ih with ⟨rfl, rfl⟩ | ih
      · exact Or.inr .here
      · exact Or.inr (ih.right hlt)
    | down _ hle ih =>
      rcases ih with ⟨rfl, rfl⟩ | ih
      · exact absurd h (not_lt.mpr hle)
      · exact Or.inr (ih.down hle)
  · rintro (⟨rfl, rfl⟩ | hv)
    · exact .here
    · induction hv with
      | here => exact .right .here h
      | right _ hlt ih => exact ih.right hlt
      | down _ hle ih => exact ih.down hle

theorem visits_down (h : v ≤ (m (succ m (i + 1) n)).val) :
    Visits m v n (i + 1) n' i' ↔ (n' = n ∧ i' = i + 1) ∨ Visits m v n i n' i' := by
  constructor
  · intro hv
    generalize hk : i + 1 = k at hv
    induction hv with
    | here => exact Or.inl ⟨rfl, rfl⟩
    | right _ hlt ih =>
      rcases ih with ⟨rfl, rfl⟩ | ih
      · subst hk
        exact absurd hlt (not_lt.mpr h)
      · exact Or.inr (ih.right hlt)
    | down _ hle ih =>
      rcases ih with ⟨rfl, he⟩ | ih
      · obtain rfl := Nat.succ.inj (he.trans hk.symm)
        exact Or.inr .here
      · exact Or.inr (ih.down hle)
  · rintro (⟨rfl, rfl⟩ | hv)
    · exact .here
    · induction hv with
      | here => exact .down .here h
      | right _ hlt ih => exact ih.right hlt
      | down _ hle ih => exact ih.down hle

theorem visits_end (h : v ≤ (m (succ m 0 n)).val) :
    Visits m v n 0 n' i' ↔ n' = n ∧ i' = 0 := by
  constructor
  · intro hv
    generalize hk : 0 = k at hv
    induction hv with
    | here => exact ⟨rfl, rfl⟩
    | right _ hlt ih =>
      obtain ⟨rfl, rfl⟩ := ih
      subst hk
      exact absurd hlt (not_lt.mpr h)
    | down _ _ ih => exact absurd (hk.trans ih.2.symm) (by omega)
  · rintro ⟨rfl, rfl⟩
    exact .here

/-- The way is the only one. -/
theorem Visits.total {n₀ : NodeId} {i₀ : ℕ} (h : Visits m v n₀ i₀ n i)
    (h' : Visits m v n₀ i₀ n' i') : Visits m v n i n' i' ∨ Visits m v n' i' n i := by
  induction h with
  | here => exact Or.inl h'
  | right _ hlt ih =>
    rcases ih with ih | ih
    · rcases (visits_right hlt).mp ih with ⟨rfl, rfl⟩ | ih
      · exact Or.inr (.right .here hlt)
      · exact Or.inl ih
    · exact Or.inr (ih.right hlt)
  | down _ hle ih =>
    rcases ih with ih | ih
    · rcases (visits_down hle).mp ih with ⟨rfl, rfl⟩ | ih
      · exact Or.inr (.down .here hle)
      · exact Or.inl ih
    · exact Or.inr (ih.down hle)

/-- The way has one end. -/
theorem Visits.end_unique {n₀ : NodeId} {i₀ : ℕ} (h : Visits m v n₀ i₀ n 0)
    (h' : Visits m v n₀ i₀ n' 0) (hn : v ≤ (m (succ m 0 n)).val)
    (hn' : v ≤ (m (succ m 0 n')).val) : n' = n := by
  rcases h.total h' with h | h
  · exact ((visits_end hn).mp h).1
  · exact ((visits_end hn').mp h).1.symm

theorem cleanFrom_right (h : (m (succ m i n)).val < v) :
    CleanFrom m v n i ↔ ¬Marked m i n ∧ CleanFrom m v (succ m i n) i := by
  unfold CleanFrom
  simp only [visits_right h]
  constructor
  · exact fun hc => ⟨hc n i (Or.inl ⟨rfl, rfl⟩), fun x j hx => hc x j (Or.inr hx)⟩
  · rintro ⟨hun, hc⟩ x j (⟨rfl, rfl⟩ | hx)
    · exact hun
    · exact hc x j hx

theorem cleanFrom_down (h : v ≤ (m (succ m (i + 1) n)).val) :
    CleanFrom m v n (i + 1) ↔ ¬Marked m (i + 1) n ∧ CleanFrom m v n i := by
  unfold CleanFrom
  simp only [visits_down h]
  constructor
  · exact fun hc => ⟨hc n _ (Or.inl ⟨rfl, rfl⟩), fun x j hx => hc x j (Or.inr hx)⟩
  · rintro ⟨hun, hc⟩ x j (⟨rfl, rfl⟩ | hx)
    · exact hun
    · exact hc x j hx

theorem cleanFrom_end (h : v ≤ (m (succ m 0 n)).val) : CleanFrom m v n 0 ↔ ¬Marked m 0 n := by
  unfold CleanFrom
  simp only [visits_end h]
  constructor
  · exact fun hc => hc n 0 ⟨rfl, rfl⟩
  · rintro hun x j ⟨rfl, rfl⟩
    exact hun

end Way

section Walk

variable {m : Mem} {brk : NodeId} {P : Set NodeId} {seed : ℕ} {Q : Config → Prop}

theorem SeqFrame.record_preds (f : SeqFrame) (i : ℕ) (n : NodeId) (w : Ref) :
    (f.record i n w).preds i = n :=
  Function.update_self ..

theorem Placed.record {f : SeqFrame} {i j : ℕ} (h : Placed m P f j) (hji : j ≠ i) (n : NodeId)
    (w : Ref) : Placed m P (f.record i n w) j := by
  have hp : (f.record i n w).preds j = f.preds j := Function.update_of_ne hji ..
  have hs : (f.record i n w).succs j = f.succs j := Function.update_of_ne hji ..
  constructor
  · rw [hp]; exact h.pred
  · rw [hp, hs]; exact h.next
  · rw [hs]; exact h.word
  · rw [hs]; exact h.succ
  · rw [hs]; exact h.le

theorem Placed.new {f : SeqFrame} {i : ℕ} {n : NodeId} (hs : Shape m brk P)
    (hn : LeftOk m P f.frame n i) (hun : ¬Marked m i n) (hv : f.val ≤ (m (Spray.succ m i n)).val) :
    Placed m P (f.record i n ((m n).next i)) i := by
  have hp := f.record_preds i n ((m n).next i)
  have hw : (f.record i n ((m n).next i)).succs i = (m n).next i := Function.update_self ..
  constructor
  · rw [hp]; exact hn
  · rw [hp, hw]
  · rw [hw]; exact next_of_unmarked hun
  · rw [hw]; exact hs.links n i hn.1
  · rw [hw]; exact hv

/-- A read through a marked pointer. -/
theorem access_marked {any : Bool} {s : Shared} {pc : Pc} (hp : (code pc).target.mark = true) :
    access any ⟨s, seed, pc⟩ = ⟨s, seed, .wild⟩ := by
  simp [access, hp]

/-- What the walk knows when it stands on node `n` at level `i`. -/
structure Walking (m : Mem) (P : Set NodeId) (v lvl : ℕ) (f : SeqFrame) (n : NodeId) (i : ℕ) :
    Prop where
  val : f.val = v
  lvl : f.lvl = lvl
  lt : i < levelmax
  stands : LeftOk m P f.frame n i
  visits : Visits m v head (levelmax - 1) n i
  clean : CleanFrom m v n i ↔ Clean m v
  done : ∀ j, i < j → j < levelmax → Placed m P f j

/-- One level of the walk. -/
theorem Seq.walk_level {v lvl : ℕ} {f : SeqFrame} {n : NodeId} {i : ℕ} (h : Seq m brk P)
    (hw : Walking m P v lvl f n i) (hv : v ≤ INT_MAX)
    (hwild : ¬Clean m v → Eventually Next Q ⟨⟨m, brk⟩, seed, .wild⟩)
    (hQ : ∀ n, Walking m P v lvl f n i → ¬Marked m i n → v ≤ (m (succ m i n)).val →
      Eventually Next Q ⟨⟨m, brk⟩, seed, .sqSucc f n i⟩) :
    Eventually Next Q ⟨⟨m, brk⟩, seed, .sqNext f n i⟩ := by
  have hs := h.shape
  refine Eventually.loop (I := fun n : NodeId => Walking m P v lvl f n i)
    (fun n => (⟨⟨m, brk⟩, seed, .sqNext f n i⟩ : Config)) (distance m brk) ?_ hw
  intro n hn
  have hsrc := hn.stands.1
  refine Eventually.access rfl (fun _ => access_loadNext rfl (hs.ne_null hsrc.mem) hsrc.lt) ?_
  by_cases hm : Marked m i n
  · -- `next->val` is read through the marked pointer
    have hno : ¬Clean m v := fun hc => hn.clean.mpr hc n i .here hm
    exact Eventually.access rfl (fun _ => access_marked hm) ((hwild hno).mono fun _ => Or.inl)
  · have hnext := hs.links n i hsrc
    rw [next_of_unmarked hm]
    refine Eventually.access rfl (fun _ => access_loadVal rfl (hs.ne_null hnext.mem)) ?_
    rw [hn.val]
    by_cases hlt : (m (succ m i n)).val < v
    · rw [if_pos hlt]
      have ht : succ m i n ≠ tail := by
        intro ht
        rw [ht, hs.tail_val] at hlt
        omega
      have hclean : CleanFrom m v (succ m i n) i ↔ Clean m v := by
        rw [← hn.clean, cleanFrom_right hlt, and_iff_right hm]
      refine .now (Or.inr ⟨succ m i n, ⟨hn.val, hn.lvl, hn.lt, ⟨hnext.source ht, fun _ => ?_⟩,
        hn.visits.right hlt, hclean, hn.done⟩, rfl, h.distance_lt hsrc⟩)
      rwa [show f.frame.val = v from hn.val]
    · rw [if_neg hlt]
      exact (hQ n hn hm (not_lt.mp hlt)).mono fun _ => Or.inl

/-- **The walk of `sl_seq_add` ends** before the key, or reads through a marked pointer. -/
theorem Seq.walk {v lvl : ℕ} (h : Seq m brk P) (hv : v ≤ INT_MAX)
    (hwild : ¬Clean m v → Eventually Next Q ⟨⟨m, brk⟩, seed, .wild⟩)
    (hQ : Clean m v → ∀ f n, f.val = v → f.lvl = lvl → (∀ j, j < levelmax → Placed m P f j) →
      f.preds 0 = n → Visits m v head (levelmax - 1) n 0 →
      Eventually Next Q ⟨⟨m, brk⟩, seed, .sqLast f n⟩) :
    Eventually Next Q ⟨⟨m, brk⟩, seed, .sqTop v lvl⟩ := by
  have hs := h.shape
  have hnew : ∀ {f : SeqFrame} {n : NodeId} {i : ℕ}, Walking m P v lvl f n i → ¬Marked m i n →
      v ≤ (m (succ m i n)).val → Placed m P (f.record i n ((m n).next i)) i :=
    fun hw hun hle => .new hs hw.stands hun (by rw [hw.val]; exact hle)
  -- the loop over the levels
  have key : ∀ i f n, Walking m P v lvl f n i →
      Eventually Next Q ⟨⟨m, brk⟩, seed, .sqNext f n i⟩ := by
    intro i
    induction i with
    | zero =>
      intro f n hw
      refine h.walk_level hw hv hwild fun n hw hun hle => ?_
      have hsrc := hw.stands.1
      refine Eventually.access rfl (fun _ => access_loadNext rfl (hs.ne_null hsrc.mem) hsrc.lt) ?_
      rw [if_pos rfl]
      refine hQ (hw.clean.mp ((cleanFrom_end hle).mpr hun)) _ n hw.val hw.lvl (fun j hj => ?_)
        (SeqFrame.record_preds ..) hw.visits
      by_cases hj0 : j = 0
      · subst hj0
        exact hnew hw hun hle
      · exact (hw.done j (by omega) hj).record hj0 n _
    | succ i ih =>
      intro f n hw
      refine h.walk_level hw hv hwild fun n hw hun hle => ?_
      have hsrc := hw.stands.1
      refine Eventually.access rfl (fun _ => access_loadNext rfl (hs.ne_null hsrc.mem) hsrc.lt) ?_
      rw [if_neg (Nat.succ_ne_zero i)]
      have hclean : CleanFrom m v n i ↔ Clean m v := by
        rw [← hw.clean, cleanFrom_down hle, and_iff_right hun]
      refine ih _ n ⟨hw.val, hw.lvl, by have := hw.lt; omega,
        ⟨hsrc.below (Nat.le_succ i), hw.stands.2⟩, hw.visits.down hle, hclean, fun j h₁ h₂ => ?_⟩
      by_cases hj : j = i + 1
      · subst hj
        exact hnew hw hun hle
      · exact (hw.done j (by omega) h₂).record hj n _
  refine Eventually.access rfl (fun _ => access_loadToplevel rfl (by decide)) ?_
  rw [show (m head).toplevel = levelmax from hs.head_top]
  have hhead := hs.head_source (i := levelmax - 1) (by decide)
  exact key _ _ head ⟨rfl, rfl, by decide, ⟨hhead, fun hne => absurd rfl hne⟩, .here, Iff.rfl,
    fun j h₁ h₂ => absurd h₁ (by omega)⟩

/-- A key above that of the tail leads the walk behind the tail. -/
theorem Seq.walk_crash {v lvl : ℕ} (h : Seq m brk P) (hv : INT_MAX < v)
    (hwild : Eventually Next Q ⟨⟨m, brk⟩, seed, .wild⟩)
    (hnull : Eventually Next Q ⟨⟨m, brk⟩, seed, .crashed⟩) :
    Eventually Next Q ⟨⟨m, brk⟩, seed, .sqTop v lvl⟩ := by
  have hs := h.shape
  refine Eventually.access rfl (fun _ => access_loadToplevel rfl (by decide)) ?_
  rw [show (m head).toplevel = levelmax from hs.head_top]
  set f : SeqFrame := ⟨v, lvl, NULL, fun _ => NULL, fun _ => ref NULL⟩
  refine Eventually.loop
    (I := fun n : NodeId => n ∈ P ∧ levelmax - 1 < (m n).toplevel)
    (fun n => (⟨⟨m, brk⟩, seed, .sqNext f n (levelmax - 1)⟩ : Config)) (distance m brk) ?_
    (a := head) ⟨hs.head_mem, by rw [hs.head_top]; decide⟩
  rintro n ⟨hnP, hlt⟩
  refine Eventually.access rfl (fun _ => access_loadNext rfl (hs.ne_null hnP) hlt) ?_
  by_cases ht : n = tail
  · subst ht
    rw [show (m tail).next (levelmax - 1) = ref NULL from hs.tail_next _ hlt]
    exact Eventually.access rfl (fun _ => access_null rfl) (hnull.mono fun _ => Or.inl)
  · have hsrc : Source m P n (levelmax - 1) := ⟨hnP, ht, hlt⟩
    by_cases hm : Marked m (levelmax - 1) n
    · exact Eventually.access rfl (fun _ => access_marked hm) (hwild.mono fun _ => Or.inl)
    · have hnext := hs.links n _ hsrc
      rw [next_of_unmarked hm]
      refine Eventually.access rfl (fun _ => access_loadVal rfl (hs.ne_null hnext.mem)) ?_
      have hle := hs.val_le hnext.mem hnext.ne_head
      rw [if_pos (show (m (succ m (levelmax - 1) n)).val < v by omega)]
      exact .now (Or.inr ⟨_, ⟨hnext.mem, hnext.lt⟩, rfl, h.distance_lt hsrc⟩)

end Walk

/-! ### Linking in -/

/-- The new node as it will be when all its pointers are written. -/
def fill (m : Mem) (f : Frame) : Mem :=
  modify m f.new fun x =>
    { x with next := fun j => if j < f.lvl then ref (f.succs j) else x.next j }

section Link

variable {m m₀ : Mem} {brk : NodeId} {P : Set NodeId} {f : Frame} {n : NodeId} {i : ℕ} {w : Ref}
  {seed : ℕ} {Q : Config → Prop}

theorem fill_new : fill m f f.new =
    { m f.new with next := fun j => if j < f.lvl then ref (f.succs j) else (m f.new).next j } :=
  modify_same ..

theorem fill_ne (h : n ≠ f.new) : fill m f n = m n := modify_ne _ _ _ _ h

theorem fill_toplevel : (fill m f n).toplevel = (m n).toplevel := by
  by_cases h : n = f.new
  · rw [h, fill_new]
  · rw [fill_ne h]

/-- Storing a pointer of the new node is not noticed. -/
theorem fill_store (hi : i < f.lvl) : fill (setNext m f.new i w) f = fill m f := by
  funext x
  by_cases h : x = f.new
  · subst h
    rw [fill_new, fill_new]
    have hnode : setNext m f.new i w f.new =
        { m f.new with next := Function.update (m f.new).next i w } := Function.update_self ..
    rw [hnode]
    refine congrArg (fun g => { m f.new with next := g }) (funext fun j => ?_)
    dsimp only
    split
    · rfl
    · exact Function.update_of_ne (by omega) ..
  · rw [fill_ne h, fill_ne h, setNext_node_ne _ _ _ _ _ h]

/-- Writes to other nodes. -/
theorem fill_setNext (hn : n ≠ f.new) :
    fill (setNext m n i w) f = setNext (fill m f) n i w := by
  funext x
  by_cases h : x = f.new
  · subst h
    rw [setNext_node_ne _ _ _ _ _ hn.symm, fill_new, fill_new,
      setNext_node_ne _ _ _ _ _ hn.symm]
  · rw [fill_ne h]
    unfold setNext
    by_cases hx : x = n
    · subst hx
      rw [Function.update_self, Function.update_self, fill_ne h]
    · rw [Function.update_of_ne hx, Function.update_of_ne hx, fill_ne h]

/-- All pointers are written. -/
theorem fill_eq (h : ∀ j, j < f.lvl → (m f.new).next j = ref (f.succs j)) : fill m f = m := by
  funext x
  by_cases hx : x = f.new
  · subst hx
    rw [fill_new]
    have hnext : (fun j => if j < f.lvl then ref (f.succs j) else (m f.new).next j) =
        (m f.new).next := by
      funext j
      split
      · exact (h j ‹_›).symm
      · rfl
    rw [hnext]
  · exact fill_ne hx

/-- One round of the loop: the new node gets its pointer, and its predecessor the new node. -/
theorem Eventually.sq_round {g : SeqFrame} (hi : i < g.lvl) (hnew : g.new ≠ NULL)
    (htop : (m g.new).toplevel = g.lvl) (hpred : g.preds i ≠ NULL) (hne : g.preds i ≠ g.new)
    (hlt : i < (m (g.preds i)).toplevel)
    (hQ : ∀ m', fill m' g.frame = setNext (fill m g.frame) (g.preds i) i (ref g.new) →
      (∀ j, (m' g.new).next j = if j = i then g.succs i else (m g.new).next j) →
      (m' g.new).toplevel = g.lvl →
      Eventually Next Q ⟨⟨m', brk⟩, seed, sqTest g (i + 1)⟩) :
    Eventually Next Q ⟨⟨m, brk⟩, seed, sqTest g i⟩ := by
  rw [sqTest, if_pos hi]
  refine Eventually.access rfl (fun _ => access_storeNext rfl hnew (by rw [htop]; exact hi)) ?_
  refine Eventually.access rfl
    (fun _ => access_storeNext rfl hpred (by rw [setNext_toplevel]; exact hlt)) ?_
  refine hQ _ ?_ (fun j => ?_) ?_
  · rw [fill_setNext (f := g.frame) hne]
    exact congrArg (setNext · (g.preds i) i (ref g.new)) (fill_store (f := g.frame) hi)
  · rw [setNext_node_ne _ _ _ _ _ hne.symm, setNext_next]
    simp
  · rw [setNext_toplevel, setNext_toplevel]
    exact htop

/-- The loop over the upper levels. -/
theorem Linking.seq_finish {g : SeqFrame} (h : Linking m₀ (fill m g.frame) brk P g.frame i)
    (hword : ∀ j, j < g.lvl → g.succs j = ref (g.succs j).ptr)
    (hst : ∀ j, j < i → (m g.new).next j = g.succs j)
    (hQ : ∀ m', Seq m' brk (insert g.new P) → Inserted m₀ m' P g.new g.val →
      Eventually Next Q ⟨⟨m', brk⟩, seed, .ret (.inserted true)⟩) :
    Eventually Next Q ⟨⟨m, brk⟩, seed, sqTest g i⟩ := by
  induction hk : g.lvl - i generalizing m i with
  | zero =>
    have hfill : fill m g.frame = m := fill_eq fun j hj => by
      have hj' : j < g.lvl := hj
      exact (hst j (by omega)).trans (hword j hj')
    rw [hfill] at h
    rw [sqTest, if_neg (by omega)]
    exact hQ m h.seq h.inserted
  | succ k ih =>
    have hi : i < g.lvl := by omega
    obtain ⟨hl, -⟩ := h.preds i le_rfl hi
    have hs := h.seq.shape
    have hnew := hs.ne_null h.linked.mem
    have hne : g.preds i ≠ g.new := fun he =>
      h.inserted.notMem (show g.new ∈ P from he ▸ hl.1.mem)
    refine Eventually.sq_round hi hnew (fill_toplevel.symm.trans h.linked.top)
      (hs.ne_null (Set.mem_insert_of_mem _ hl.1.mem)) hne
      (by rw [← fill_toplevel (f := g.frame)]; exact hl.1.lt) fun m' hm' hnext _ => ?_
    refine ih (i := i + 1) (hm' ▸ h.link hi) (fun j hj => ?_) (by omega)
    rw [hnext]
    split
    · rename_i he
      rw [he]
    · exact hst j (by omega)

/-- The new node is allocated and linked in. -/
theorem Seq.link_new {v lvl : ℕ} {f : SeqFrame} (h : Seq m brk P) (hfv : f.val = v)
    (hl : 1 ≤ lvl ∧ lvl ≤ levelmax) (hfl : f.lvl = lvl) (hlt : v < (m (f.succs 0).ptr).val)
    (hp : ∀ j, j < levelmax → Placed m P f j)
    (hQ : ∀ m', Seq m' (brk + 1) (Insert.insert brk P) → Inserted m m' P brk v →
      Eventually Next Q ⟨⟨m', brk + 1⟩, seed, .ret (.inserted true)⟩) :
    Eventually Next Q ⟨⟨m, brk⟩, seed, .sqAlloc f⟩ := by
  have hs := h.shape
  have hno : brk ∉ P := fun hm => lt_irrefl _ (hs.lt_brk _ hm)
  have hge := hs.brk_ge
  have hnull : brk ≠ NULL := fun he => absurd (he ▸ hge) (by decide)
  have hlvl : ∀ {j}, j < lvl → j < levelmax := fun hj => lt_of_lt_of_le hj hl.2
  have hle : ∀ {x}, Target m P x 0 → (m x).val ≤ INT_MAX := fun hx => hs.val_le hx.mem hx.ne_head
  -- the new node is initialised
  refine Eventually.access rfl (fun _ => access_alloc rfl) ?_
  refine Eventually.access rfl (fun _ => access_storeVal rfl hnull) ?_
  refine Eventually.access rfl (fun _ => access_storeToplevel rfl hnull) ?_
  refine Eventually.access rfl (fun _ => access_storeDeleted rfl hnull) ?_
  obtain ⟨hseq, hP⟩ := h.allocate v lvl
  subst hfv hfl
  set g : SeqFrame := { f with new := brk }
  change Eventually Next Q ⟨⟨sl_new_simple_node m brk f.val f.lvl, brk + 1⟩, seed, sqTest g 0⟩
  set m₁ := sl_new_simple_node m brk f.val f.lvl
  have hnode : m₁ brk = { m brk with val := f.val, toplevel := f.lvl, deleted := 0 } :=
    sl_new_simple_node_same
  -- and its pointers will be those recorded
  have hpriv : ∀ x, x ≠ brk → fill m₁ g.frame x = m₁ x := fun x hx => fill_ne hx
  have hfP : ∀ x ∈ P, fill m₁ g.frame x = m x := fun x hx =>
    (hpriv x fun he => hno (he ▸ hx)).trans (hP x hx)
  have hfill : fill m₁ g.frame brk = { m₁ brk with
      next := fun j => if j < f.lvl then ref (f.succs j).ptr else (m₁ brk).next j } := fill_new
  have hseq' := hseq.private le_rfl hno hpriv
  have hlt' : f.val < INT_MAX := lt_of_lt_of_le hlt (hle (hp 0 (by decide)).succ)
  have hn : New (fill m₁ g.frame) (brk + 1) P g.frame := by
    refine ⟨⟨hlt', hl, hno, hge, Nat.lt_succ_self _⟩, ?_, ?_, ?_⟩ <;>
      rw [show g.frame.new = brk from rfl, hfill, hnode]
    · rfl
    · rfl
  have hpos : ∀ j, j < f.lvl → LeftOk (fill m₁ g.frame) P g.frame (f.preds j) j ∧
      (fill m₁ g.frame (f.preds j)).next j = ref (f.succs j).ptr ∧
      Target (fill m₁ g.frame) P (f.succs j).ptr j := by
    intro j hj
    have hpj := hp j (hlvl hj)
    have hlP := hfP _ hpj.pred.1.mem
    refine ⟨⟨⟨hpj.pred.1.mem, hpj.pred.1.ne_tail, by rw [hlP]; exact hpj.pred.1.lt⟩,
      fun hh => by rw [hlP]; exact hpj.pred.2 hh⟩, by rw [hlP, hpj.next]; exact hpj.word,
      ⟨hpj.succ.mem, hpj.succ.ne_head, by rw [hfP _ hpj.succ.mem]; exact hpj.succ.lt⟩⟩
  have h0 := hp 0 (by decide)
  have hlink := hseq'.linking hn hpos (fun j hj => ?_) ?_ fun j hj => ?_
  · refine Eventually.sq_round hl.1 hnull ?_ (hs.ne_null h0.pred.1.mem)
      (fun he => hno (show g.new ∈ P from he ▸ h0.pred.1.mem)) ?_ fun m' hm' hnext _ => ?_
    · rw [hnode]
    · rw [hP _ h0.pred.1.mem]
      exact h0.pred.1.lt
    · have hl' : Linking (fill m₁ g.frame) (fill m' g.frame) (brk + 1) P g.frame 1 := hm' ▸ hlink
      refine hl'.seq_finish (fun j hj => (hp j (hlvl hj)).word) (fun j hj => ?_) fun m'' hs' hins => ?_
      · obtain rfl : j = 0 := by omega
        rw [hnext, if_pos rfl]
      · exact hQ m'' hs' (hins.congr fun n hnP => by rw [hfP n hnP]; exact ⟨rfl, rfl, rfl⟩)
  · rw [show g.frame.new = brk from rfl, hfill]
    exact if_pos hj
  · rw [show g.frame.succs 0 = (f.succs 0).ptr from rfl, hfP _ h0.succ.mem]
    exact hlt
  · -- the new node is the youngest
    have hpj := hp j (hlvl hj)
    unfold Precedes
    rw [show g.frame.new = brk from rfl, show g.frame.succs j = (f.succs j).ptr from rfl,
      hfP _ hpj.succ.mem, hfill, hnode]
    rcases hpj.le.lt_or_eq with hlt | he
    · exact Or.inl hlt
    · exact Or.inr ⟨he, hs.lt_brk _ hpj.succ.mem⟩

/-- **`sl_seq_add` ends** if no pointer on its way is marked. -/
theorem Seq.seq_add {v lvl : ℕ} (h : Seq m brk P) (hv : v ≤ INT_MAX)
    (hl : 1 ≤ lvl ∧ lvl ≤ levelmax)
    (hwild : ¬Clean m v → Eventually Next Q ⟨⟨m, brk⟩, seed, .wild⟩)
    (hnew : Clean m v → v < INT_MAX → v ∉ liveKeys m → ¬Stale m v →
      ∀ m', Seq m' (brk + 1) (Insert.insert brk P) → Inserted m m' P brk v →
      Eventually Next Q ⟨⟨m', brk + 1⟩, seed, .ret (.inserted true)⟩)
    (hold : Clean m v → v ∈ liveKeys m ∨ Stale m v ∨ v = INT_MAX →
      Eventually Next Q ⟨⟨m, brk⟩, seed, .ret (.inserted false)⟩) :
    Eventually Next Q ⟨⟨m, brk⟩, seed, .sqTop v lvl⟩ := by
  have hs := h.shape
  refine h.walk hv hwild fun hc f n hfv hfl hp hn hvis => ?_
  subst hn
  have h0 := hp 0 (by decide)
  have hsrc := h0.pred.1
  have hsucc : succ m 0 (f.preds 0) = (f.succs 0).ptr := by rw [succ, h0.next]
  refine Eventually.access rfl (fun _ => access_loadNext rfl (hs.ne_null hsrc.mem) hsrc.lt) ?_
  rw [show (m (f.preds 0)).next 0 = ref (f.succs 0).ptr from h0.next.trans h0.word]
  refine Eventually.access rfl (fun _ => access_loadVal rfl (hs.ne_null h0.succ.mem)) ?_
  rw [hfv]
  by_cases hval : (m (f.succs 0).ptr).val = v
  · rw [if_neg (not_not.mpr hval)]
    refine hold hc ?_
    by_cases ht : (f.succs 0).ptr = tail
    · rw [ht, hs.tail_val] at hval
      exact Or.inr (Or.inr hval.symm)
    · by_cases hd : (m (f.succs 0).ptr).deleted = 0
      · exact Or.inl (hs.mem_liveKeys.mpr ⟨_, ⟨h0.succ.mem, h0.succ.ne_head, ht, hd⟩, hval⟩)
      · exact Or.inr (Or.inl ⟨_, hvis, by rw [hsucc]; exact hval, by rw [hsucc]; exact hd⟩)
  · rw [if_pos hval]
    have hlt : v < (m (f.succs 0).ptr).val := lt_of_le_of_ne (hfv ▸ h0.le) (Ne.symm hval)
    have hlt' : v < INT_MAX := lt_of_lt_of_le hlt (hs.val_le h0.succ.mem h0.succ.ne_head)
    have hk : v ∉ liveKeys m := by
      intro hk
      have hun : ¬Marked m 0 (f.preds 0) := by
        unfold Marked
        rw [h0.next, h0.word]
        exact Bool.false_ne_true
      have hle := h0.le
      have hlive := hs.live_behind hsrc hun (fun hh => ?_) (by rw [hsucc, ← hfv]; exact hle) hk
      · exact hval (hsucc ▸ hlive.2)
      · rw [← hfv]
        exact h0.pred.2 hh
    have hstale : ¬Stale m v := by
      rintro ⟨n, hn, hv, -⟩
      obtain rfl := hvis.end_unique hn (by rw [hsucc]; exact hlt.le) hv.ge
      exact hval (hsucc ▸ hv)
    refine h.link_new hfv hl hfl hlt hp fun m' hs' hins => ?_
    exact hnew hc hlt' hk hstale m' hs' hins

end Link

end ConcurrentPQ.Spray

import ConcurrentPQ.Spray.Shape

/-!
# The levels of a SprayList

A node is linked in on one level after the other, from the bottom.  `Q i` is the set of nodes that
have been linked in on level `i`, so `Q 0` is the set `P` of all nodes of the list.

* `LevelChain`, `Level` — the chain of a level, and what holds on it;
* `Level.congr`, `Level.unlink`, `Level.link` — the writes that leave the chain of a level as it is,
  that cut a run of marked nodes out, and that link a node in;
* `Levels` — all levels together; pointers are marked from the top down.
-/

namespace ConcurrentPQ.Spray

open ConcurrentPQ.Segment

/-- The chain of level `i`, the head first, without the tail. -/
def LevelChain (m : Mem) (i : ℕ) (Q : Set NodeId) (C : List NodeId) : Prop :=
  Seg (succ m i) head C tail ∧ (∀ n ∈ C, n ∈ Q ∧ n ≠ tail) ∧
    ∀ n ∈ Q, n ≠ tail → ¬Marked m i n → n ∈ C

/-- **The invariant of level `i`.** -/
structure Level (m : Mem) (i : ℕ) (Q : Set NodeId) : Prop where
  head_mem : head ∈ Q
  tail_mem : tail ∈ Q
  lt : ∀ n ∈ Q, i < (m n).toplevel
  links : ∀ n ∈ Q, n ≠ tail → succ m i n ∈ Q ∧ succ m i n ≠ head
  sorted : ∀ n ∈ Q, n ≠ head → n ≠ tail → (m n).val < (m (succ m i n)).val
  chain : ∃ C, LevelChain m i Q C

section Chains

variable {m m' : Mem} {P Q : Set NodeId} {brk n a b left right new s : NodeId} {i : ℕ}

/-- The bottom level. -/
theorem Shape.level (hs : Shape m brk P) : Level m 0 P where
  head_mem := hs.head_mem
  tail_mem := hs.tail_mem
  lt n hn := (hs.top n hn).1
  links n hn ht :=
    have htgt := hs.links n 0 (hs.source_zero hn ht)
    ⟨htgt.mem, htgt.ne_head⟩
  sorted := hs.sorted
  chain := hs.chain

/-- Behind the head the values of the chain increase. -/
theorem Level.sorted_of_seg (hl : Level m i Q) {l : List NodeId} (hseg : Seg (succ m i) a l tail)
    (hQ : ∀ n ∈ l, n ∈ Q ∧ n ≠ tail) (ha : a ≠ head) :
    (∀ n ∈ l ++ [tail], n ≠ head ∧ (m a).val ≤ (m n).val) ∧
      (l ++ [tail]).Pairwise fun x y => (m x).val < (m y).val := by
  induction l generalizing a with
  | nil =>
    obtain rfl : a = tail := hseg
    refine ⟨fun n hn => ?_, List.pairwise_singleton ..⟩
    rw [List.mem_singleton.mp hn]
    exact ⟨ha, le_rfl⟩
  | cons x l ih =>
    obtain ⟨rfl, hseg⟩ := hseg
    obtain ⟨haQ, hat⟩ := hQ a List.mem_cons_self
    have hlt := hl.sorted a haQ ha hat
    obtain ⟨h₁, h₂⟩ := ih hseg (fun n hn => hQ n (List.mem_cons_of_mem _ hn)) (hl.links a haQ hat).2
    refine ⟨fun n hn => ?_, List.pairwise_cons.mpr ⟨fun n hn => ?_, h₂⟩⟩
    · rcases List.mem_cons.mp hn with rfl | hn
      · exact ⟨ha, le_rfl⟩
      · exact ⟨(h₁ n hn).1, hlt.le.trans (h₁ n hn).2⟩
    · exact lt_of_lt_of_le hlt (h₁ n hn).2

/-- The chain starts with the head. -/
theorem LevelChain.eq_cons {C : List NodeId} (hC : LevelChain m i Q C) :
    ∃ l, C = head :: l ∧ Seg (succ m i) (succ m i head) l tail ∧ ∀ n ∈ l, n ∈ Q ∧ n ≠ tail := by
  obtain ⟨hseg, hsub, -⟩ := hC
  cases C with
  | nil => cases hseg
  | cons x l =>
    obtain ⟨rfl, hl⟩ := hseg
    exact ⟨l, rfl, hl, fun n hn => hsub n (List.mem_cons_of_mem _ hn)⟩

theorem Level.chain_nodup (hl : Level m i Q) {C : List NodeId} (hC : LevelChain m i Q C) :
    C.Nodup := by
  obtain ⟨l, rfl, hseg, hsub⟩ := hC.eq_cons
  obtain ⟨h₁, h₂⟩ := hl.sorted_of_seg hseg hsub (hl.links head hl.head_mem (by decide)).2
  refine List.nodup_cons.mpr ⟨fun hm => (h₁ head (List.mem_append_left _ hm)).1 rfl, ?_⟩
  refine (List.pairwise_append.mp h₂).1.imp fun hlt he => ?_
  rw [he] at hlt
  exact lt_irrefl _ hlt

/-! ### Writes -/

/-- A write that changes no address of the level, and no value or level of its nodes. -/
theorem Level.congr (hl : Level m i Q) (hsucc : ∀ n ∈ Q, succ m' i n = succ m i n)
    (hdata : ∀ n ∈ Q, (m' n).val = (m n).val ∧ (m' n).toplevel = (m n).toplevel)
    (hmark : ∀ n ∈ Q, Marked m i n → Marked m' i n) : Level m' i Q where
  head_mem := hl.head_mem
  tail_mem := hl.tail_mem
  lt n hn := by
    rw [(hdata n hn).2]
    exact hl.lt n hn
  links n hn ht := by
    rw [hsucc n hn]
    exact hl.links n hn ht
  sorted n hn hh ht := by
    rw [hsucc n hn, (hdata n hn).1, (hdata _ (hl.links n hn ht).1).1]
    exact hl.sorted n hn hh ht
  chain := by
    obtain ⟨C, hC, hsub, hall⟩ := hl.chain
    refine ⟨C, hC.congr fun x hx => (hsucc x (hsub x hx).1).symm, hsub, fun n hn ht hm => ?_⟩
    exact hall n hn ht fun hm' => hm (hmark n hn hm')

/-- Passing marked nodes keeps to the nodes of the level. -/
theorem Level.passes (hl : Level m i Q) (hp : Passes m P i a b) (ha : a ∈ Q) :
    Passes m Q i a b ∧ b ∈ Q := by
  obtain ⟨l, hseg, hall⟩ := hp
  induction l generalizing a with
  | nil =>
    obtain rfl : a = b := hseg
    exact ⟨.refl, ha⟩
  | cons x l ih =>
    obtain ⟨rfl, hseg⟩ := hseg
    have hx := hall a List.mem_cons_self
    have hnext := (hl.links a ha hx.1.ne_tail).1
    obtain ⟨⟨r, hr, hrall⟩, hb⟩ := ih hnext hseg fun n hn => hall n (List.mem_cons_of_mem _ hn)
    refine ⟨⟨a :: r, ⟨rfl, hr⟩, fun n hn => ?_⟩, hb⟩
    rcases List.mem_cons.mp hn with rfl | hn
    · exact ⟨⟨ha, hx.1.ne_tail, hx.1.lt⟩, hx.2⟩
    · exact hrall n hn

/-- A search cuts a run of marked nodes out. -/
theorem Level.unlink (hl : Level m i Q) (hn : left ∈ Q) (ht : left ≠ tail)
    (hun : ¬Marked m i left) (hp : Passes m Q i (succ m i left) right) (hr : right ∈ Q)
    (hrh : right ≠ head) (hv : left ≠ head → (m left).val < (m right).val) :
    Level (setNext m left i (ref right)) i Q := by
  have hne : ∀ x, x ≠ left → succ m i x = succ (setNext m left i (ref right)) i x :=
    fun x hx => (succ_setNext_ne fun he => hx he.1).symm
  constructor
  case head_mem => exact hl.head_mem
  case tail_mem => exact hl.tail_mem
  case lt =>
    intro x hx
    rw [setNext_toplevel]
    exact hl.lt x hx
  case links =>
    intro x hx hxt
    by_cases hxl : x = left
    · rw [hxl, succ_setNext_same]
      exact ⟨hr, hrh⟩
    · rw [← hne x hxl]
      exact hl.links x hx hxt
  case sorted =>
    intro x hx hh hxt
    rw [setNext_val, setNext_val]
    by_cases hxl : x = left
    · subst hxl
      rw [succ_setNext_same]
      exact hv hh
    · rw [← hne x hxl]
      exact hl.sorted x hx hh hxt
  case chain =>
    obtain ⟨C, hC, hsub, hmem⟩ := hl.chain
    have hnodup := hl.chain_nodup ⟨hC, hsub, hmem⟩
    obtain ⟨l₁, l₂, rfl⟩ := List.append_of_mem (hmem left hn ht hun)
    obtain ⟨-, h₂⟩ := seg_append_cons.mp hC
    obtain ⟨run, rest, rfl, hrun, -, hmark⟩ := hp.split h₂
    have hleft : left ∉ l₁ ++ rest := by
      have hsub : List.Sublist (l₁ ++ left :: rest) (l₁ ++ left :: (run ++ rest)) :=
        (((List.sublist_append_right run rest).cons_cons left).append_left l₁)
      exact (List.nodup_middle.mp (hsub.nodup hnodup)).notMem
    refine ⟨l₁ ++ left :: rest, hC.unlink hrun succ_setNext_same fun x hx => ?_, fun x hx => ?_,
      fun x hx ht hm => ?_⟩
    · exact hne x fun he => hleft (he ▸ hx)
    · refine hsub x ?_
      simp only [List.mem_append, List.mem_cons] at hx ⊢
      tauto
    · by_cases hxl : x = left
      · rw [hxl]
        simp
      · have hm' : ¬Marked m i x := fun hm' => hm (by
          unfold Marked
          rw [setNext_node_ne _ _ _ _ _ hxl]
          exact hm')
        have := hmem x hx ht hm'
        have hrun : x ∉ run := fun hr => hm' (hmark x hr)
        simp only [List.mem_append, List.mem_cons] at this ⊢
        tauto

/-- An insertion links its node in behind `left`. -/
theorem Level.link (hl : Level m i Q) (hn : left ∈ Q) (ht : left ≠ tail)
    (hnext : (m left).next i = ref s) (hnew : new ∉ Q) (htop : i < (m new).toplevel)
    (hs : succ m i new = s) (hlv : left ≠ head → (m left).val < (m new).val)
    (hv : (m new).val < (m s).val) : Level (setNext m left i (ref new)) i (insert new Q) := by
  have hun : ¬Marked m i left := by
    unfold Marked
    rw [hnext]
    simp
  have hsQ := hl.links left hn ht
  rw [succ, hnext] at hsQ
  have hnl : new ≠ left := fun he => hnew (he ▸ hn)
  have hne : ∀ x, x ≠ left → succ m i x = succ (setNext m left i (ref new)) i x :=
    fun x hx => (succ_setNext_ne fun he => hx he.1).symm
  have hhead : new ≠ head := fun he => hnew (he ▸ hl.head_mem)
  have htail : new ≠ tail := fun he => hnew (he ▸ hl.tail_mem)
  constructor
  case head_mem => exact Set.mem_insert_of_mem _ hl.head_mem
  case tail_mem => exact Set.mem_insert_of_mem _ hl.tail_mem
  case lt =>
    intro x hx
    rw [setNext_toplevel]
    rcases Set.mem_insert_iff.mp hx with rfl | hx
    · exact htop
    · exact hl.lt x hx
  case links =>
    intro x hx hxt
    rcases Set.mem_insert_iff.mp hx with rfl | hx
    · rw [← hne x hnl, hs]
      exact ⟨Set.mem_insert_of_mem _ hsQ.1, hsQ.2⟩
    · by_cases hxl : x = left
      · rw [hxl, succ_setNext_same]
        exact ⟨Set.mem_insert _ _, hhead⟩
      · rw [← hne x hxl]
        exact ⟨Set.mem_insert_of_mem _ (hl.links x hx hxt).1, (hl.links x hx hxt).2⟩
  case sorted =>
    intro x hx hh hxt
    rw [setNext_val, setNext_val]
    rcases Set.mem_insert_iff.mp hx with rfl | hx
    · rw [← hne x hnl, hs]
      exact hv
    · by_cases hxl : x = left
      · subst hxl
        rw [succ_setNext_same]
        exact hlv hh
      · rw [← hne x hxl]
        exact hl.sorted x hx hh hxt
  case chain =>
    obtain ⟨C, hC, hsub, hall⟩ := hl.chain
    have hnodup := hl.chain_nodup ⟨hC, hsub, hall⟩
    obtain ⟨l₁, l₂, rfl⟩ := List.append_of_mem (hall left hn ht hun)
    have hleft : left ∉ l₁ ++ l₂ := (List.nodup_middle.mp hnodup).notMem
    refine ⟨l₁ ++ left :: new :: l₂, hC.splice succ_setNext_same ?_ fun x hx => ?_,
      fun x hx => ?_, fun x hx hxt hm => ?_⟩
    · rw [← hne new hnl, hs, succ, hnext]
    · exact hne x fun he => hleft (he ▸ hx)
    · by_cases hxn : x = new
      · rw [hxn]
        exact ⟨Set.mem_insert _ _, htail⟩
      · have hx' : x ∈ l₁ ++ left :: l₂ := by
          simp only [List.mem_append, List.mem_cons] at hx ⊢
          tauto
        exact ⟨Set.mem_insert_of_mem _ (hsub x hx').1, (hsub x hx').2⟩
    · rcases Set.mem_insert_iff.mp hx with rfl | hxQ
      · simp
      · have hx' : x ∈ l₁ ++ left :: l₂ := by
          by_cases hxl : x = left
          · rw [hxl]
            simp
          · refine hall x hxQ hxt fun hm₀ => hm ?_
            unfold Marked
            rw [setNext_node_ne _ _ _ _ _ hxl]
            exact hm₀
        simp only [List.mem_append, List.mem_cons] at hx' ⊢
        tauto

end Chains

/-! ### All levels -/

/-- The pointers of a node are marked from the top down. -/
def TopDown (m : Mem) (n : NodeId) : Prop :=
  ∀ i j, i ≤ j → j < (m n).toplevel → Marked m i n → Marked m j n

/-- **The invariant of the levels.** -/
structure Levels (m : Mem) (P : Set NodeId) (Q : ℕ → Set NodeId) : Prop where
  zero : Q 0 = P
  anti : ∀ i, Q (i + 1) ⊆ Q i
  level : ∀ i, i < levelmax → Level m i (Q i)
  topdown : ∀ n ∈ P, TopDown m n

section Writes

variable {m m' : Mem} {P : Set NodeId} {Q : ℕ → Set NodeId} {n left right new s : NodeId} {i j : ℕ}
  {w : Ref}

theorem Levels.sub (hl : Levels m P Q) (h : i ≤ j) : Q j ⊆ Q i := by
  induction h with
  | refl => exact Set.Subset.rfl
  | step _ ih => exact (hl.anti _).trans ih

theorem Levels.sub_zero (hl : Levels m P Q) (i : ℕ) : Q i ⊆ P := by
  rw [← hl.zero]
  exact hl.sub (Nat.zero_le i)

/-- A write to a pointer that is no pointer of the level. -/
theorem Level.setNext {Q : Set NodeId} (hl : Level m j Q) (h : ∀ x ∈ Q, ¬(x = n ∧ j = i)) :
    Level (setNext m n i w) j Q := by
  refine hl.congr (fun x hx => succ_setNext_ne (h x hx))
    (fun x _ => ⟨setNext_val .., setNext_toplevel ..⟩) fun x hx hm => ?_
  unfold Marked
  rw [setNext_of_ne _ _ _ _ _ _ (h x hx)]
  exact hm

theorem TopDown.congr (h : TopDown m n) (htop : (m' n).toplevel = (m n).toplevel)
    (hnext : (m' n).next = (m n).next) : TopDown m' n := by
  unfold TopDown Marked
  rw [htop, hnext]
  exact h

/-- A pointer without a mark is overwritten by one without a mark. -/
theorem TopDown.setNext (h : TopDown m n) (hun : ¬Marked m i left) (hw : w.mark = false) :
    TopDown (setNext m left i w) n := by
  intro j k hjk hk hj
  rw [setNext_toplevel] at hk
  unfold Marked at hj ⊢
  have hne : ¬(n = left ∧ j = i) := by
    rintro ⟨rfl, rfl⟩
    rw [setNext_same, hw] at hj
    cases hj
  rw [setNext_of_ne _ _ _ _ _ _ hne] at hj
  have hmark := h j k hjk hk hj
  rw [setNext_of_ne]
  · exact hmark
  · rintro ⟨rfl, rfl⟩
    exact hun hmark

/-- A change that no pointer of the list notices. -/
theorem Levels.same (hl : Levels m P Q) (e : Same m m' P) : Levels m' P Q where
  zero := hl.zero
  anti := hl.anti
  level i hi := (hl.level i hi).congr (fun n hn => e.succ (hl.sub_zero i hn))
    (fun n hn => e.data n (hl.sub_zero i hn)) fun n hn hm => by
      unfold Marked
      rw [e.next n (hl.sub_zero i hn)]
      exact hm
  topdown n hn := (hl.topdown n hn).congr (e.data n hn).2 (e.next n hn)

theorem Levels.unlink (hl : Levels m P Q) (hi : i < levelmax) (hn : left ∈ Q i) (ht : left ≠ tail)
    (hun : ¬Marked m i left) (hp : Passes m (Q i) i (succ m i left) right) (hr : right ∈ Q i)
    (hrh : right ≠ head) (hv : left ≠ head → (m left).val < (m right).val) :
    Levels (Spray.setNext m left i (ref right)) P Q where
  zero := hl.zero
  anti := hl.anti
  level j hj := by
    rcases eq_or_ne j i with rfl | hji
    · exact (hl.level j hj).unlink hn ht hun hp hr hrh hv
    · exact (hl.level j hj).setNext fun x _ he => hji he.2
  topdown n hn := (hl.topdown n hn).setNext hun rfl

/-- An insertion sets a pointer of its node on a level on which the node is not linked in. -/
theorem Levels.retarget (hl : Levels m P Q) (hn : n ∉ Q i) (hun : ¬Marked m i n) (hw : w.mark = false) :
    Levels (Spray.setNext m n i w) P Q where
  zero := hl.zero
  anti := hl.anti
  level j hj := (hl.level j hj).setNext fun _ hx he => hn (he.1 ▸ he.2 ▸ hx)
  topdown x hx := (hl.topdown x hx).setNext hun hw

/-- A pointer is marked when those above it are. -/
theorem Levels.mark (hl : Levels m P Q)
    (habove : ∀ j, i < j → j < (m n).toplevel → Marked m j n) :
    Levels (Spray.setNext m n i (set_mark ((m n).next i))) P Q := by
  set m' := Spray.setNext m n i (set_mark ((m n).next i)) with hm'
  have hkeep : ∀ x j, Marked m j x → Marked m' j x := fun x j hm => by
    unfold Marked
    rw [hm', setNext_next]
    split
    · rfl
    · exact hm
  refine ⟨hl.zero, hl.anti, fun j hj => ?_, fun x hx j k hjk hk hm => ?_⟩
  · refine (hl.level j hj).congr (fun x _ => ?_) (fun x _ => ⟨setNext_val .., setNext_toplevel ..⟩)
      fun x _ => hkeep x j
    by_cases he : x = n ∧ j = i
    · obtain ⟨rfl, rfl⟩ := he
      rw [hm', succ_setNext_same]
      rfl
    · exact succ_setNext_ne he
  · rw [hm', setNext_toplevel] at hk
    by_cases he : x = n ∧ j = i
    · obtain ⟨rfl, rfl⟩ := he
      rcases hjk.eq_or_lt with rfl | hlt
      · exact hm
      · exact hkeep x k (habove k hlt hk)
    · unfold Marked at hm
      rw [hm', setNext_of_ne _ _ _ _ _ _ he] at hm
      exact hkeep x k (hl.topdown x hx j k hjk hk hm)

/-- A node is linked in on the next level. -/
theorem Levels.link (hl : Levels m P Q) (hi : i < levelmax) (hn : left ∈ Q i) (ht : left ≠ tail)
    (hnext : (m left).next i = ref s) (hnew : new ∉ Q i) (hlow : i ≠ 0 → new ∈ Q (i - 1))
    (htd : TopDown m new) (htop : i < (m new).toplevel) (hs : succ m i new = s)
    (hlv : left ≠ head → (m left).val < (m new).val) (hv : (m new).val < (m s).val) :
    Levels (Spray.setNext m left i (ref new)) (insert new P)
      (Function.update Q i (insert new (Q i))) := by
  have hun : ¬Marked m i left := by
    unfold Marked
    rw [hnext]
    simp
  constructor
  case zero =>
    rcases Nat.eq_zero_or_pos i with rfl | hpos
    · rw [Function.update_self, hl.zero]
    · have hmem : new ∈ P := hl.sub_zero _ (hlow hpos.ne')
      rw [Function.update_of_ne hpos.ne, hl.zero, Set.insert_eq_of_mem hmem]
  case anti =>
    intro j x hx
    rcases eq_or_ne (j + 1) i with hji | hji
    · rw [hji, Function.update_self] at hx
      rw [Function.update_of_ne (by omega)]
      rcases Set.mem_insert_iff.mp hx with rfl | hx
      · have hlow := hlow (by omega)
        rwa [← hji, Nat.add_sub_cancel] at hlow
      · exact hl.anti j (hji ▸ hx)
    · rw [Function.update_of_ne hji] at hx
      rcases eq_or_ne j i with rfl | hj
      · rw [Function.update_self]
        exact Set.mem_insert_of_mem _ (hl.anti j hx)
      · rw [Function.update_of_ne hj]
        exact hl.anti j hx
  case level =>
    intro j hj
    rcases eq_or_ne j i with rfl | hji
    · rw [Function.update_self]
      exact (hl.level j hj).link hn ht hnext hnew htop hs hlv hv
    · rw [Function.update_of_ne hji]
      exact (hl.level j hj).setNext fun x _ he => hji he.2
  case topdown =>
    intro x hx
    rcases Set.mem_insert_iff.mp hx with rfl | hx
    · exact htd.setNext hun rfl
    · exact (hl.topdown x hx).setNext hun rfl

end Writes

end ConcurrentPQ.Spray

import ConcurrentPQ.Spray.Marking

/-!
# The way of the naive deletions

Without insertions the bottom chain only loses nodes.  `R` is the set of nodes that were on it at some
moment when no operation was in progress; from then on no thread of `naive_delete_min` leaves `R`,
and none passes a live node, although the node it stands on may long be unlinked.

* `Trail` — between a node of `R` and its successor there is no live node;
* `Trail.initial`, `Trail.congr`, `Trail.unlink` — it holds at that moment, and writes keep it;
* `OnTrail` — where the threads stand;
* `OnTrail.access`, `OnTrail.inc_step` — an access keeps to the trail, and the node it deletes is the
  least live one.
-/

namespace ConcurrentPQ.Spray

open ConcurrentPQ.Segment

/-- **The trail.** -/
structure Trail (m : Mem) (P R : Set NodeId) : Prop where
  sub : R ⊆ P
  head_mem : head ∈ R
  tail_mem : tail ∈ R
  inj : ∀ a ∈ R, ∀ b ∈ R, a ≠ head → b ≠ head → (m a).val = (m b).val → a = b
  next : ∀ n ∈ R, n ≠ tail → succ m 0 n ∈ R
  gap : ∀ n ∈ R, n ≠ tail → ∀ x, Live m P x → (n = head ∨ (m n).val < (m x).val) →
    (m (succ m 0 n)).val ≤ (m x).val
  live : ∀ x, Live m P x → x ∈ R
  marked : ∀ n ∈ P, n ∉ R → AllMarked m n

section Trails

variable {m m' : Mem} {brk : NodeId} {P R : Set NodeId} {a b n x left right : NodeId} {i : ℕ}

theorem Live.of_evolve (ev : Evolve m P m' P) (h : Live m' P x) : Live m P x :=
  ⟨h.mem, h.ne_head, h.ne_tail, by
    by_contra hd
    exact ev.deleted x h.mem hd h.deleted⟩

/-- The nodes of the chain, when all deleted nodes are marked. -/
theorem Trail.initial (hs : Shape m brk P)
    (hmark : ∀ n, Inner P n → (m n).deleted ≠ 0 → AllMarked m n) : ∃ R, Trail m P R := by
  obtain ⟨C, hC⟩ := hs.level.chain
  obtain ⟨l, rfl, hseg, hsub⟩ := hC.eq_cons
  obtain ⟨hall, hsort⟩ := hs.level.sorted_of_seg hseg hsub (hs.level.links head hs.head_mem (by decide)).2
  have hlive : ∀ x, Live m P x → x ∈ head :: l := fun x hx =>
    hC.2.2 x hx.mem hx.ne_tail (hx.unmarked hs)
  have hmem : ∀ {n : NodeId}, n ∈ head :: l ++ [tail] → n ≠ head → n ∈ l ++ [tail] := by
    intro n hn hh
    exact (List.mem_cons.mp hn).resolve_left hh
  refine ⟨{n | n ∈ head :: l ++ [tail]}, ⟨?_, ?_, ?_, ?_, ?_, ?_, ?_, ?_⟩⟩
  · intro n hn
    rcases List.mem_append.mp hn with hn | hn
    · exact (hC.2.1 n hn).1
    · rw [List.mem_singleton.mp hn]
      exact hs.tail_mem
  · exact List.mem_cons_self
  · exact List.mem_append_right _ List.mem_cons_self
  · intro a ha b hb hah hbh hv
    have hlt : ∀ {x y}, Before (l ++ [tail]) x y → (m x).val < (m y).val := fun h =>
      List.pairwise_iff_forall_sublist.mp hsort h
    rcases before_total (hmem ha hah) (hmem hb hbh) with he | h | h
    · exact he
    · exact absurd hv (hlt h).ne
    · exact absurd hv.symm (hlt h).ne
  · intro n hn ht
    have hn' : n ∈ head :: l :=
      (List.mem_append.mp hn).resolve_right fun h => ht (List.mem_singleton.mp h)
    rcases hC.1.next_mem hn' with h | h
    · exact List.mem_append_left _ h
    · exact List.mem_append_right _ (List.mem_singleton.mpr h)
  · intro n hn ht x hx hnx
    have hn' : n ∈ head :: l :=
      (List.mem_append.mp hn).resolve_right fun h => ht (List.mem_singleton.mp h)
    have hxl := (List.mem_cons.mp (hlive x hx)).resolve_left hx.ne_head
    rcases List.mem_cons.mp hn' with rfl | hnl
    · exact (hall x (List.mem_append_left _ hxl)).2
    · -- `x` stands behind `n`
      obtain ⟨l₁, l₂, rfl⟩ := List.append_of_mem hnl
      obtain ⟨-, hrest⟩ := seg_append_cons.mp hseg
      have hnh := (hall n (List.mem_append_left _ hnl)).1
      have hlt := hnx.resolve_left hnh
      rcases List.mem_append.mp hxl with hx₁ | hx₂
      · have hbefore : Before (l₁ ++ n :: l₂ ++ [tail]) x n := by
          rw [List.append_assoc]
          exact before_append hx₁ List.mem_cons_self
        have hlt' : (m x).val < (m n).val := List.pairwise_iff_forall_sublist.mp hsort hbefore
        exact absurd hlt hlt'.not_gt
      · rcases List.mem_cons.mp hx₂ with rfl | hx₂
        · exact absurd hlt (lt_irrefl _)
        · have hsucc := hs.links n 0 (hs.source_zero (hsub n hnl).1 ht)
          exact ((hs.level.sorted_of_seg hrest (fun y hy => hsub y (List.mem_append_right _
            (List.mem_cons_of_mem _ hy))) hsucc.ne_head).1 x (List.mem_append_left _ hx₂)).2
  · exact fun x hx => List.mem_append_left _ (hlive x hx)
  · intro n hn hnR
    have hh : n ≠ head := fun he => hnR (he ▸ List.mem_cons_self)
    have ht : n ≠ tail := fun he => hnR (he ▸ List.mem_append_right _ List.mem_cons_self)
    refine hmark n ⟨hn, hh, ht⟩ fun hd => hnR ?_
    exact List.mem_append_left _ (hlive n ⟨hn, hh, ht, hd⟩)

/-- Changes that no address of the trail notices. -/
theorem Trail.congr (h : Trail m P R) (ev : Evolve m P m' P)
    (hsucc : ∀ n ∈ R, succ m' 0 n = succ m 0 n) : Trail m' P R where
  sub := h.sub
  head_mem := h.head_mem
  tail_mem := h.tail_mem
  inj a ha b hb hah hbh hv := by
    rw [ev.val (h.sub ha), ev.val (h.sub hb)] at hv
    exact h.inj a ha b hb hah hbh hv
  next n hn ht := by
    rw [hsucc n hn]
    exact h.next n hn ht
  gap n hn ht x hx hnx := by
    rw [ev.val (h.sub hn), ev.val hx.mem] at hnx
    rw [hsucc n hn, ev.val (h.sub (h.next n hn ht)), ev.val hx.mem]
    exact h.gap n hn ht x (hx.of_evolve ev) hnx
  live x hx := h.live x (hx.of_evolve ev)
  marked n hn hnR := (h.marked n hn hnR).evolve ev hn

/-- A run of marked nodes keeps to the trail and passes no live node. -/
theorem Trail.passes (h : Trail m P R) (hs : Shape m brk P) (hp : Passes m P 0 a b) (ha : a ∈ R) :
    b ∈ R ∧ ∀ x, Live m P x → (m a).val ≤ (m x).val → (m b).val ≤ (m x).val := by
  obtain ⟨l, hseg, hall⟩ := hp
  induction l generalizing a with
  | nil =>
    obtain rfl : a = b := hseg
    exact ⟨ha, fun _ _ hle => hle⟩
  | cons y l ih =>
    obtain ⟨rfl, hseg⟩ := hseg
    obtain ⟨hsrc, hm⟩ := hall a List.mem_cons_self
    obtain ⟨hd, hah⟩ := hs.marked a 0 hsrc hm
    obtain ⟨hb, hpass⟩ := ih (h.next a ha hsrc.ne_tail) hseg
      fun n hn => hall n (List.mem_cons_of_mem _ hn)
    refine ⟨hb, fun x hx hle => hpass x hx (h.gap a ha hsrc.ne_tail x hx (Or.inr ?_))⟩
    -- a marked node is not live, so the two differ
    refine lt_of_le_of_ne hle fun he => ?_
    exact hd (h.inj a ha x (h.live x hx) hah hx.ne_head he ▸ hx.deleted)

/-- A search cuts a run of marked nodes out of the bottom chain. -/
theorem Trail.unlink (h : Trail m P R) (hs : Shape m brk P) (hleft : left ∈ R) (ht : left ≠ tail)
    (hun : ¬Marked m 0 left) (hp : Passes m P 0 (succ m 0 left) right) :
    Trail (setNext m left 0 (ref right)) P R := by
  have ev : Evolve m P (setNext m left 0 (ref right)) P := .setNext hun
  obtain ⟨hright, hpass⟩ := h.passes hs hp (h.next left hleft ht)
  have hne : ∀ n, n ≠ left → succ (setNext m left 0 (ref right)) 0 n = succ m 0 n :=
    fun n hn => succ_setNext_ne fun he => hn he.1
  constructor
  case sub => exact h.sub
  case head_mem => exact h.head_mem
  case tail_mem => exact h.tail_mem
  case inj =>
    intro a ha b hb
    rw [setNext_val, setNext_val]
    exact h.inj a ha b hb
  case next =>
    intro n hn hnt
    by_cases hnl : n = left
    · rw [hnl, succ_setNext_same]
      exact hright
    · rw [hne n hnl]
      exact h.next n hn hnt
  case gap =>
    intro n hn hnt x hx hnx
    rw [setNext_val, setNext_val] at hnx
    rw [setNext_val, setNext_val]
    have hx' := hx.of_evolve ev
    by_cases hnl : n = left
    · subst hnl
      rw [succ_setNext_same]
      exact hpass x hx' (h.gap n hn hnt x hx' hnx)
    · rw [hne n hnl]
      exact h.gap n hn hnt x hx' hnx
  case live => exact fun x hx => h.live x (hx.of_evolve ev)
  case marked => exact fun n hn hnR => (h.marked n hn hnR).evolve ev hn

/-- A node one of whose pointers is not marked is on the trail. -/
theorem Trail.mem_of_unmarked (h : Trail m P R) (hn : Target m P n i) (hun : ¬Marked m i n) :
    n ∈ R := by
  by_contra hnR
  exact hun (h.marked n hn.mem hnR i hn.lt)

end Trails

/-! ### The threads -/

/-- The search that cleans up behind a deletion. -/
def Cleaning (site : Site) : Prop := ∃ v, site = .cleanup (.deleted true (some v))

/-- Where the threads of `naive_delete_min` stand. -/
def OnTrail (m : Mem) (P R : Set NodeId) : Pc → Prop
  | .idle => True
  | .nvNext n => n ∈ R ∧ ∀ x, Live m P x → n = head ∨ (m n).val < (m x).val
  | .nvEnd n | .nvDel n | .nvInc n =>
      (n ∈ R ∧ n ≠ head) ∧ ∀ x, Live m P x → (m n).val ≤ (m x).val
  | .nvTail n => n ≠ tail
  | .nvVal _ | .nvPeek _ _ | .nvTest _ _ _ | .nvKey _ _ => True
  | .mkTop site _ | .mkNext site _ _ | .mkCas site _ _ _ => ∃ v, site = .naive v
  | .seLeft _ site left _ => Cleaning site ∧ left ∈ R
  | .seNext _ site left left_next right i =>
      Cleaning site ∧ left ∈ R ∧ (i = 0 → left_next ∈ R ∧ right ∈ R)
  | .seVal _ site left left_next right right_next i =>
      Cleaning site ∧ (left ∈ R ∧ right ∈ R) ∧
        (i = 0 → left_next ∈ R ∧ (right ≠ tail → right_next ∈ R))
  | .seCas _ site left left_next _ i => Cleaning site ∧ left ∈ R ∧ (i = 0 → left_next ∈ R)
  | .ret a => ∃ v, a = .deleted true (some v)
  | _ => False

/-- The thread is in `naive_delete_min` and has not deleted a node yet. -/
def looks : Pc → Bool
  | .nvNext _ | .nvEnd _ | .nvDel _ | .nvInc _ => true
  | _ => false

/-- The value the search of a deletion will return. -/
def heldSite : Site → Option ℕ
  | .cleanup (.deleted _ v) => v
  | _ => none

/-- The value for whose node `mark_node_ptrs` runs. -/
def heldMark : MarkSite → Option ℕ
  | .naive v => some v
  | _ => none

/-- The key a thread has deleted and not returned yet. -/
def held (m : Mem) : Pc → Option ℕ
  | .nvTail n | .nvVal n => some (m n).val
  | .mkTop site _ | .mkNext site _ _ | .mkCas site _ _ _ => heldMark site
  | .nvPeek _ v | .nvTest _ v _ | .nvKey _ v => some v
  | .seLeft _ site _ _ | .seNext _ site _ _ _ _ | .seVal _ site _ _ _ _ _
  | .seCas _ site _ _ _ _ => heldSite site
  | .ret (.deleted _ v) => v
  | _ => none

section Threads

variable {m m' : Mem} {brk : NodeId} {P R : Set NodeId} {pc : Pc} {n : NodeId} {f : Frame}
  {site : Site} {left right : NodeId} {i : ℕ}

/-- **Stability.** -/
theorem OnTrail.evolve (h : OnTrail m P R pc) (ht : Trail m P R) (ev : Evolve m P m' P) :
    OnTrail m' P R pc := by
  cases pc with
  | nvNext n =>
    refine ⟨h.1, fun x hx => ?_⟩
    rw [ev.val (ht.sub h.1), ev.val hx.mem]
    exact h.2 x (hx.of_evolve ev)
  | nvEnd n | nvDel n | nvInc n =>
    refine ⟨h.1, fun x hx => ?_⟩
    rw [ev.val (ht.sub h.1.1), ev.val hx.mem]
    exact h.2 x (hx.of_evolve ev)
  | _ => exact h

theorem held_evolve (hok : Ok m brk P pc) (ev : Evolve m P m' P) : held m' pc = held m pc := by
  cases pc with
  | nvTail n => exact congrArg some (ev.val hok.1)
  | nvVal n => exact congrArg some (ev.val hok.inner.mem)
  | ret a => cases a <;> rfl
  | _ => rfl

/-- What an access that deletes nothing keeps. -/
structure Stride (m : Mem) (P R : Set NodeId) (pc : Pc) (m' : Mem) (pc' : Pc) : Prop where
  trail : Trail m' P R
  ok : OnTrail m' P R pc'
  held : held m' pc' = held m pc
  looks : looks pc' = looks pc

theorem onTrail_search (ht : Trail m P R) (hsite : Cleaning site) :
    OnTrail m P R (search f site) := ⟨hsite, ht.head_mem⟩

/-- The end of a level of a cleaning search. -/
theorem onTrail_seDown (right : NodeId) (hsite : Cleaning site) (hleft : left ∈ R) :
    OnTrail m P R (seDown f site left right i) ∧
      held m (seDown f site left right i) = heldSite site ∧
      looks (seDown f site left right i) = false := by
  unfold seDown
  split
  · obtain ⟨v, rfl⟩ := hsite
    exact ⟨⟨v, rfl⟩, rfl, rfl⟩
  · exact ⟨⟨hsite, hleft⟩, rfl, rfl⟩

end Threads

section Access

variable {any : Bool} {s : Shared} {seed : ℕ} {P R : Set NodeId} {pc pc' : Pc} {n : NodeId}
  {v : ℕ} {w : Ref}

theorem Stride.read (ht : Trail s.mem P R) (hok : OnTrail s.mem P R pc')
    (hheld : Spray.held s.mem pc' = Spray.held s.mem pc)
    (hlooks : Spray.looks pc' = Spray.looks pc) : Stride s.mem P R pc s.mem pc' :=
  ⟨ht, hok, hheld, hlooks⟩

/-- The accesses of a cleaning search. -/
theorem OnTrail.search_step (hs : Shape s.mem s.brk P) (ht : Trail s.mem P R)
    (hok : Ok s.mem s.brk P pc) (h : OnTrail s.mem P R pc)
    (hpc : (∃ f site left i, pc = .seLeft f site left i) ∨
      (∃ f site left ln r i, pc = .seNext f site left ln r i) ∨
      (∃ f site left ln r rn i, pc = .seVal f site left ln r rn i) ∨
      ∃ f site left ln r i, pc = .seCas f site left ln r i) :
    Stride s.mem P R pc (access any ⟨s, seed, pc⟩).sh.mem (access any ⟨s, seed, pc⟩).pc := by
  rcases hpc with ⟨f, site, left, i, rfl⟩ | ⟨f, site, left, ln, r, i, rfl⟩ |
    ⟨f, site, left, ln, r, rn, i, rfl⟩ | ⟨f, site, left, ln, r, i, rfl⟩
  · obtain ⟨hsite, hleft⟩ := h
    have hsrc := hok.2.left.1
    rw [access_loadNext rfl (hs.ne_null hsrc.mem) hsrc.lt]
    dsimp only
    split
    · exact .read ht (onTrail_search ht hsite) rfl rfl
    · refine .read ht ⟨hsite, hleft, fun hi => ?_⟩ rfl rfl
      subst hi
      exact ⟨ht.next left hleft hsrc.ne_tail, ht.next left hleft hsrc.ne_tail⟩
  · obtain ⟨hsite, hleft, hzero⟩ := h
    have htgt := hok.2.2.1
    rw [access_loadNext rfl (hs.ne_null htgt.mem) htgt.lt]
    dsimp only
    split
    · rename_i hm
      refine .read ht ⟨hsite, hleft, fun hi => ⟨(hzero hi).1, ?_⟩⟩ rfl rfl
      have hrt := hs.marked_ne_tail htgt.lt hm
      subst hi
      exact ht.next r (hzero rfl).2 hrt
    · rename_i hun
      have hr := ht.mem_of_unmarked htgt hun
      refine .read ht ⟨hsite, ⟨hleft, hr⟩, fun hi => ⟨(hzero hi).1, fun hrt => ?_⟩⟩ rfl rfl
      subst hi
      exact ht.next r hr hrt
  · obtain ⟨hsite, ⟨hleft, hr⟩, hzero⟩ := h
    have htgt := hok.2.2.1
    rw [access_loadVal rfl (hs.ne_null htgt.mem)]
    dsimp only
    split
    · split
      · exact .read ht ⟨hsite, hleft, fun hi => (hzero hi).1⟩ rfl rfl
      · obtain ⟨h₁, h₂, h₃⟩ := onTrail_seDown (m := s.mem) (P := P) (f := f) (i := i) r
          hsite hleft
        exact .read ht h₁ h₂ h₃
    · rename_i hlt
      have hrt : r ≠ tail := by
        rintro rfl
        rw [hs.tail_val] at hlt
        exact hlt hok.1.val_lt.le
      exact .read ht ⟨hsite, hr, fun hi => ⟨(hzero hi).2 hrt, (hzero hi).2 hrt⟩⟩ rfl rfl
  · obtain ⟨hsite, hleft, hzero⟩ := h
    obtain ⟨-, hsc, htgt, hpass, -⟩ := hok
    have hsrc := hsc.left.1
    by_cases hhit : (s.mem left).next i = ref ln
    · rw [access_cas_hit rfl (hs.ne_null hsrc.mem) hsrc.lt hhit]
      have hun : ¬Marked s.mem i left := by
        unfold Marked
        rw [hhit]
        simp
      have htrail : Trail (setNext s.mem left i (ref r)) P R := by
        rcases Nat.eq_zero_or_pos i with rfl | hpos
        · refine ht.unlink hs hleft hsrc.ne_tail hun ?_
          rw [succ, hhit]
          exact hpass
        · exact ht.congr (.setNext hun) fun n _ => succ_setNext_ne fun he => hpos.ne he.2
      obtain ⟨h₁, h₂, h₃⟩ := onTrail_seDown (m := setNext s.mem left i (ref r)) (P := P) (f := f)
        (i := i) r hsite hleft
      exact ⟨htrail, h₁, h₂, h₃⟩
    · rw [access_cas_miss rfl (hs.ne_null hsrc.mem) hsrc.lt
        fun he => hhit (Expected.word.inj he).symm]
      exact .read ht (onTrail_search ht hsite) rfl rfl

theorem onTrail_mkDown {m : Mem} {i : ℕ} :
    OnTrail m P R (mkDown (.naive v) n i) ∧ held m (mkDown (.naive v) n i) = some v ∧
      looks (mkDown (.naive v) n i) = false := by
  unfold mkDown
  split
  · exact ⟨trivial, rfl, rfl⟩
  · exact ⟨⟨v, rfl⟩, rfl, rfl⟩

/-- The accesses that mark a deleted node. -/
theorem OnTrail.mark_step (hs : Shape s.mem s.brk P) (ht : Trail s.mem P R)
    (hok : Ok s.mem s.brk P pc) (h : OnTrail s.mem P R pc)
    (hpc : (∃ site n, pc = .mkTop site n) ∨ (∃ site n i, pc = .mkNext site n i) ∨
      ∃ site n i w, pc = .mkCas site n i w) :
    Stride s.mem P R pc (access any ⟨s, seed, pc⟩).sh.mem (access any ⟨s, seed, pc⟩).pc := by
  rcases hpc with ⟨site, n, rfl⟩ | ⟨site, n, i, rfl⟩ | ⟨site, n, i, w, rfl⟩
  · obtain ⟨v, rfl⟩ := h
    rw [access_loadToplevel rfl (hs.ne_null hok.1.inner.mem)]
    dsimp only
    split
    · exact .read ht trivial rfl rfl
    · exact .read ht ⟨v, rfl⟩ rfl rfl
  · obtain ⟨v, rfl⟩ := h
    obtain ⟨⟨hd, -⟩, hi⟩ := hok
    rw [access_loadNext rfl (hs.ne_null hd.inner.mem) hi]
    dsimp only
    split
    · obtain ⟨h₁, h₂, h₃⟩ := onTrail_mkDown (P := P) (R := R) (n := n) (v := v) (m := s.mem) (i := i)
      exact .read ht h₁ h₂ h₃
    · exact .read ht ⟨v, rfl⟩ rfl rfl
  · obtain ⟨v, rfl⟩ := h
    obtain ⟨⟨hd, -⟩, hi, hw⟩ := hok
    by_cases hhit : (s.mem n).next i = w
    · rw [access_cas_hit rfl (hs.ne_null hd.inner.mem) hi hhit]
      subst hhit
      have hun : ¬Marked s.mem i n := by
        unfold Marked
        rw [hw]
        exact Bool.false_ne_true
      have htrail : Trail (setNext s.mem n i (set_mark ((s.mem n).next i))) P R := by
        refine ht.congr (.setNext hun) fun x _ => ?_
        by_cases he : x = n ∧ 0 = i
        · obtain ⟨rfl, rfl⟩ := he
          rw [succ_setNext_same]
          rfl
        · exact succ_setNext_ne he
      obtain ⟨h₁, h₂, h₃⟩ := onTrail_mkDown (P := P) (R := R) (n := n) (v := v)
        (m := setNext s.mem n i (set_mark ((s.mem n).next i))) (i := i)
      exact ⟨htrail, h₁, h₂, h₃⟩
    · rw [access_cas_miss rfl (hs.ne_null hd.inner.mem) hi fun he => hhit (Expected.word.inj he).symm]
      exact .read ht ⟨v, rfl⟩ rfl rfl

/-- The accesses of a thread that looks for a node, while there is a live one. -/
theorem OnTrail.look_step (hs : Shape s.mem s.brk P) (ht : Trail s.mem P R)
    (hok : Ok s.mem s.brk P pc) (h : OnTrail s.mem P R pc) (hlive : ∃ x, Live s.mem P x)
    (hpc : pc = .nvNext n ∨ pc = .nvEnd n ∨ pc = .nvDel n) :
    Stride s.mem P R pc (access any ⟨s, seed, pc⟩).sh.mem (access any ⟨s, seed, pc⟩).pc := by
  rcases hpc with rfl | rfl | rfl
  · obtain ⟨hn, hlt⟩ := h
    -- a live node stands behind `n`
    have hnt : n ≠ tail := by
      rintro rfl
      obtain ⟨x, hx⟩ := hlive
      have hval := hs.val_lt x hx.mem hx.ne_head hx.ne_tail
      rcases hlt x hx with he | hlt
      · exact absurd he (by decide)
      · rw [hs.tail_val] at hlt
        exact absurd hlt hval.not_gt
    rw [access_loadNext rfl (hs.ne_null hok) (hs.top n hok).1]
    refine .read ht ⟨⟨ht.next n hn hnt, (hs.links n 0 (hs.source_zero hok hnt)).ne_head⟩, ?_⟩ rfl rfl
    exact fun x hx => ht.gap n hn hnt x hx (hlt x hx)
  · obtain ⟨hmem, -⟩ := hok.resolve_left fun he => hs.null_notMem (he ▸ ht.sub h.1.1)
    rw [access_loadNext rfl (hs.ne_null hmem) (hs.top n hmem).1]
    dsimp only
    split
    · exact .read ht h rfl rfl
    · exact .read ht h rfl rfl
  · rw [access_loadDeleted rfl (hs.ne_null hok.1)]
    dsimp only
    split
    · rename_i hd
      obtain ⟨⟨hn, hh⟩, hle⟩ := h
      refine .read ht ⟨hn, fun x hx => Or.inr (lt_of_le_of_ne (hle x hx) fun he => ?_)⟩ rfl rfl
      exact hd (ht.inj n hn x (ht.live x hx) hh hx.ne_head he ▸ hx.deleted)
    · exact .read ht h rfl rfl

/-- The accesses behind the deletion, outside `mark_node_ptrs` and `fraser_search`. -/
theorem OnTrail.end_step (hs : Shape s.mem s.brk P) (ht : Trail s.mem P R)
    (hok : Ok s.mem s.brk P pc) (h : OnTrail s.mem P R pc)
    (hpc : pc = .nvTail n ∨ pc = .nvVal n ∨ pc = .nvPeek n v ∨ pc = .nvTest n v w ∨
      pc = .nvKey n v) :
    Stride s.mem P R pc (access any ⟨s, seed, pc⟩).sh.mem (access any ⟨s, seed, pc⟩).pc := by
  rcases hpc with rfl | rfl | rfl | rfl | rfl
  · have htop := (hs.top n hok.1).1
    have hne : (s.mem n).next 0 ≠ ref NULL := fun he => h ((hs.next_eq_null hok.1 htop).mp he)
    rw [access_loadNext rfl (hs.ne_null hok.1) htop]
    dsimp only
    rw [if_pos hne]
    exact .read ht trivial rfl rfl
  · rw [access_loadVal rfl (hs.ne_null hok.inner.mem)]
    exact .read ht ⟨_, rfl⟩ rfl rfl
  · have hsrc := hs.source_zero hok.1.inner.mem hok.1.inner.ne_tail
    rw [access_loadNext rfl (hs.ne_null hok.1.inner.mem) hsrc.lt]
    exact .read ht trivial rfl rfl
  · obtain ⟨b, hb⟩ := access_peekDeleted any s seed (.nvTest n v w) rfl (hs.ne_null hok.2)
    rw [hb]
    cases b with
    | true => exact .read ht ⟨v, rfl⟩ rfl rfl
    | false => exact .read ht trivial rfl rfl
  · rw [access_loadVal rfl (hs.ne_null hok.1.inner.mem)]
    exact .read ht (onTrail_search ht ⟨v, rfl⟩) rfl rfl

/-- What the access that deletes node `n` does. -/
structure Takes (m : Mem) (P R : Set NodeId) (pc : Pc) (n : NodeId) (m' : Mem) (pc' : Pc) :
    Prop where
  trail : Trail m' P R
  ok : OnTrail m' P R pc'
  held : Spray.held m' pc' = some (m n).val
  looks : Spray.looks pc = true ∧ Spray.looks pc' = false
  least : ∀ x, Live m P x → (m n).val ≤ (m x).val

/-- The fetch-and-increment deletes the least live node, or finds a deleted node. -/
theorem OnTrail.inc_step (hs : Shape s.mem s.brk P) (ht : Trail s.mem P R)
    (hok : Ok s.mem s.brk P (.nvInc n)) (h : OnTrail s.mem P R (.nvInc n))
    (hlive : ∃ x, Live s.mem P x) :
    (event s.mem (.nvInc n) = .internal ∧ Stride s.mem P R (.nvInc n)
        (access any ⟨s, seed, .nvInc n⟩).sh.mem (access any ⟨s, seed, .nvInc n⟩).pc) ∨
      event s.mem (.nvInc n) = .deleteInc n ∧ Takes s.mem P R (.nvInc n) n
        (access any ⟨s, seed, .nvInc n⟩).sh.mem (access any ⟨s, seed, .nvInc n⟩).pc := by
  obtain ⟨⟨hn, hh⟩, hle⟩ := h
  rw [access_fetchInc rfl (hs.ne_null hok.1)]
  dsimp only
  have ev : Evolve s.mem P (modify s.mem n fun x => { x with deleted := x.deleted + 1 }) P :=
    Same.increment.evolve
  have htrail := ht.congr ev fun x hx =>
    (Same.increment (m := s.mem) (n := n) (P := P)).succ (i := 0) (ht.sub hx)
  by_cases hd : (s.mem n).deleted = 0
  · have hnt : n ≠ tail := by
      rintro rfl
      obtain ⟨x, hx⟩ := hlive
      have hval := hle x hx
      rw [hs.tail_val] at hval
      exact absurd (hs.val_lt x hx.mem hx.ne_head hx.ne_tail) hval.not_gt
    right
    rw [if_neg (not_not.mpr hd)]
    refine ⟨if_pos ⟨hd, hh, hnt⟩, htrail, hnt, ?_, ⟨rfl, rfl⟩, hle⟩
    show some _ = some _
    rw [ev.val hok.1]
  · left
    rw [if_pos hd]
    refine ⟨if_neg fun hc => hd hc.1, htrail, ⟨hn, fun x hx => Or.inr ?_⟩, rfl, rfl⟩
    have hx' := hx.of_evolve ev
    rw [ev.val hok.1, ev.val hx.mem]
    refine lt_of_le_of_ne (hle x hx') fun he => ?_
    exact hd (ht.inj n hn x (ht.live x hx') hh hx'.ne_head he ▸ hx'.deleted)

/-- **One access of a thread on the trail.** -/
theorem OnTrail.access (any : Bool) (seed : ℕ) (hs : Shape s.mem s.brk P) (ht : Trail s.mem P R)
    (hok : Ok s.mem s.brk P pc) (h : OnTrail s.mem P R pc) (hbusy : pc.busy = true)
    (hlive : looks pc = true → ∃ x, Live s.mem P x) :
    (event s.mem pc = .internal ∧ Stride s.mem P R pc (Spray.access any ⟨s, seed, pc⟩).sh.mem
        (Spray.access any ⟨s, seed, pc⟩).pc) ∨
      ∃ n, event s.mem pc = .deleteInc n ∧ Takes s.mem P R pc n
        (Spray.access any ⟨s, seed, pc⟩).sh.mem (Spray.access any ⟨s, seed, pc⟩).pc := by
  cases pc with
  | nvInc n => exact (h.inc_step hs ht hok (hlive rfl)).imp_right fun h => ⟨n, h⟩
  | nvNext n | nvEnd n | nvDel n =>
    exact Or.inl ⟨rfl, h.look_step (n := n) hs ht hok (hlive rfl) (by simp)⟩
  | nvTail n | nvVal n =>
    exact Or.inl ⟨rfl, h.end_step (n := n) (v := 0) (w := ref NULL) hs ht hok (by simp)⟩
  | nvPeek n v | nvKey n v =>
    exact Or.inl ⟨rfl, h.end_step (n := n) (v := v) (w := ref NULL) hs ht hok (by simp)⟩
  | nvTest n v w => exact Or.inl ⟨rfl, h.end_step (n := n) (v := v) (w := w) hs ht hok (by simp)⟩
  | mkTop site n | mkNext site n i | mkCas site n i w =>
    exact Or.inl ⟨rfl, h.mark_step hs ht hok (by simp)⟩
  | seLeft f site left i => exact Or.inl ⟨rfl, h.search_step hs ht hok (by simp)⟩
  | seNext f site left ln r i => exact Or.inl ⟨rfl, h.search_step hs ht hok (by simp)⟩
  | seVal f site left ln r rn i => exact Or.inl ⟨rfl, h.search_step hs ht hok (by simp)⟩
  | seCas f site left ln r i => exact Or.inl ⟨rfl, h.search_step hs ht hok (by simp)⟩
  | idle | ret a => cases hbusy
  | _ => exact h.elim

end Access

end ConcurrentPQ.Spray

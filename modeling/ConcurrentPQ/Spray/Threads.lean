import ConcurrentPQ.Spray.Shape

/-!
# What the threads of a SprayList know

`Ok m brk P pc` is the assertion attached to program counter `pc`: what the thread knows about its
locals and the nodes they name.

* `Claimed`, `New`, `Linked` — the node of an insertion before and behind its level-0 CAS;
* `Scan`, `Found` — what `fraser_search` has established on the way down and when it returns;
* `Doomed` — a node the thread marks;
* `Ok.evolve` — **stability**: no step of another thread invalidates an assertion.
-/

namespace ConcurrentPQ.Spray

/-! ### Inserting threads -/

/-- The thread owns `new`, which is not linked in. -/
structure Claimed (brk : NodeId) (P : Set NodeId) (f : Frame) : Prop where
  val_lt : f.val < INT_MAX
  lvl : 1 ≤ f.lvl ∧ f.lvl ≤ levelmax
  notMem : f.new ∉ P
  ge : firstNode ≤ f.new
  lt : f.new < brk

/-- The new node is initialised and not yet linked in. -/
structure New (m : Mem) (brk : NodeId) (P : Set NodeId) (f : Frame) : Prop where
  claimed : Claimed brk P f
  val : (m f.new).val = f.val
  top : (m f.new).toplevel = f.lvl
  deleted : (m f.new).deleted = 0

/-- The new node is linked in. -/
structure Linked (m : Mem) (P : Set NodeId) (f : Frame) : Prop where
  val_lt : f.val < INT_MAX
  mem : f.new ∈ P
  ne_head : f.new ≠ head
  ne_tail : f.new ≠ tail
  lvl : f.lvl ≤ levelmax
  top : (m f.new).toplevel = f.lvl

/-- A node `fraser_search` may stand on at level `i`. -/
def LeftOk (m : Mem) (P : Set NodeId) (f : Frame) (left : NodeId) (i : ℕ) : Prop :=
  Source m P left i ∧ (left ≠ head → (m left).val < f.val)

/-- Level `j` of the two lists has been recorded. -/
structure Recorded (m : Mem) (P : Set NodeId) (f : Frame) (j : ℕ) : Prop where
  pred : LeftOk m P f (f.preds j) j
  succ : Target m P (f.succs j) j
  le : f.val ≤ (m (f.succs j)).val

/-- `fraser_search` stands on `left` at level `i`. -/
structure Scan (m : Mem) (P : Set NodeId) (f : Frame) (left : NodeId) (i : ℕ) : Prop where
  lt : i < levelmax
  left : LeftOk m P f left i
  done : ∀ j, i < j → j < levelmax → Recorded m P f j

/-- `fraser_search` has returned. -/
def Found (m : Mem) (P : Set NodeId) (f : Frame) : Prop := ∀ j, j < levelmax → Recorded m P f j

/-- What holds of the locals of the caller while `fraser_search` runs. -/
def SiteOk (m : Mem) (brk : NodeId) (P : Set NodeId) (f : Frame) : Site → Prop
  | .insert => New m brk P f
  | .upper i => Linked m P f ∧ 1 ≤ i ∧ i < f.lvl
  | .remove _ | .cleanup _ => f.val < INT_MAX

/-- The key differs from that of the recorded successor, and the new node points to the recorded
successors on the levels below `i`. -/
structure Prepared (m : Mem) (f : Frame) (i : ℕ) : Prop where
  ne : (m (f.succs 0)).val ≠ f.val
  next : ∀ j, j < i → (m f.new).next j = ref (f.succs j)

/-! ### Deleting threads -/

/-- A node that is linked in and no sentinel. -/
structure Inner (P : Set NodeId) (n : NodeId) : Prop where
  mem : n ∈ P
  ne_head : n ≠ head
  ne_tail : n ≠ tail

/-- A node whose pointers may be marked. -/
structure Doomed (m : Mem) (P : Set NodeId) (n : NodeId) : Prop where
  inner : Inner P n
  deleted : (m n).deleted ≠ 0

/-- What holds of the locals of the caller while `mark_node_ptrs` runs. -/
def MarkOk (m : Mem) (brk : NodeId) (P : Set NodeId) (n : NodeId) : MarkSite → Prop
  | .duplicate f => New m brk P f
  | .remove v => v < INT_MAX
  | .naive v | .spray v => v = (m n).val

/-- The spray stands on a node with level `i`. -/
structure WalkOk (m : Mem) (P : Set NodeId) (w : Walk) : Prop where
  mem : w.cur ∈ P
  lt : w.i < (m w.cur).toplevel

/-! ### Assertions -/

/-- The assertion attached to a program counter. -/
def Ok (m : Mem) (brk : NodeId) (P : Set NodeId) : Pc → Prop
  | .insAlloc v lvl => v < INT_MAX ∧ 1 ≤ lvl ∧ lvl ≤ levelmax
  | .insVal f => Claimed brk P f
  | .insTop f => Claimed brk P f ∧ (m f.new).val = f.val
  | .insDel f => Claimed brk P f ∧ (m f.new).val = f.val ∧ (m f.new).toplevel = f.lvl
  | .seLeft f site left i => SiteOk m brk P f site ∧ Scan m P f left i
  | .seNext f site left left_next right i =>
      SiteOk m brk P f site ∧ Scan m P f left i ∧ Target m P right i ∧
        Passes m P i left_next right
  | .seVal f site left left_next right right_next i =>
      SiteOk m brk P f site ∧ Scan m P f left i ∧ Target m P right i ∧
        Passes m P i left_next right ∧ (right ≠ tail → Target m P right_next i)
  | .seCas f site left left_next right i =>
      SiteOk m brk P f site ∧ Scan m P f left i ∧ Target m P right i ∧
        Passes m P i left_next right ∧ f.val ≤ (m right).val
  | .insDup f => New m brk P f ∧ Found m P f
  | .insDupDel f =>
      New m brk P f ∧ Found m P f ∧ f.succs 0 ≠ tail ∧ (m (f.succs 0)).val = f.val
  | .insFree f => f.new ≠ NULL
  | .insTest f i => New m brk P f ∧ Found m P f ∧ Prepared m f i
  | .insLink f i => New m brk P f ∧ Found m P f ∧ Prepared m f i ∧ i < f.lvl
  | .insCas f => New m brk P f ∧ Found m P f ∧ Prepared m f f.lvl
  | .upTest f i => Linked m P f ∧ Found m P f ∧ 1 ≤ i
  | .upNew f i | .upVal f i => Linked m P f ∧ Found m P f ∧ 1 ≤ i ∧ i < f.lvl
  | .upSet f i w => Linked m P f ∧ Found m P f ∧ (1 ≤ i ∧ i < f.lvl) ∧ w.mark = false
  | .upCas f i e => Linked m P f ∧ Found m P f ∧ (1 ≤ i ∧ i < f.lvl) ∧
      (e = .word (ref (f.succs i)) ∨ e = .array (f.succs i))
  | .mkTop site n => Doomed m P n ∧ MarkOk m brk P n site
  | .mkNext site n i => (Doomed m P n ∧ MarkOk m brk P n site) ∧ i < (m n).toplevel
  | .mkCas site n i w =>
      (Doomed m P n ∧ MarkOk m brk P n site) ∧ i < (m n).toplevel ∧ w.mark = false
  | .rmNext f => Found m P f ∧ f.val < INT_MAX
  | .rmVal f rs result => (Found m P f ∧ f.val < INT_MAX) ∧
      (rs = true → result = true → f.succs 0 ≠ tail)
  | .rmDel f | .rmInc f =>
      Inner P (f.succs 0) ∧ f.val < INT_MAX ∧ (m (f.succs 0)).val = f.val
  | .nvNext first => first ∈ P
  | .nvEnd first => first = NULL ∨ (first ∈ P ∧ first ≠ head)
  | .nvDel first | .nvInc first => first ∈ P ∧ first ≠ head
  | .nvTail first => first ∈ P ∧ first ≠ head ∧ (m first).deleted ≠ 0
  | .nvVal first => Doomed m P first
  | .nvPeek first v | .nvKey first v => Doomed m P first ∧ v = (m first).val
  | .nvTest first v w => (Doomed m P first ∧ v = (m first).val) ∧ w.ptr ∈ P
  | .spSeed n => 0 < n ∧ n < 1 <<< 14
  | .spDraw w | .spTest w | .spDel w | .spEnd w => WalkOk m P w
  | .spMove w => WalkOk m P w ∧ w.cur ≠ tail
  | .spSkip cur | .spSkipEnd cur | .spTail cur => cur ∈ P ∧ cur ≠ head
  | .spSkipMove cur | .spCheck cur | .spInc cur => Inner P cur
  | .spVal cur => Doomed m P cur
  | .idle | .crashed | .ret _ => True
  | _ => False

/-- The node a thread owns: its new node until that is linked in. -/
def own : Pc → NodeId
  | .insVal f | .insTop f | .insDel f | .seLeft f .insert _ _ | .seNext f .insert _ _ _ _
  | .seVal f .insert _ _ _ _ _ | .seCas f .insert _ _ _ _ | .insDup f | .insDupDel f
  | .insTest f _ | .insLink f _ | .insCas f | .mkTop (.duplicate f) _ | .mkNext (.duplicate f) _ _
  | .mkCas (.duplicate f) _ _ _ => f.new
  | _ => NULL

/-! ### Stability -/

section Stability

variable {m m' : Mem} {brk brk' : NodeId} {P P' : Set NodeId} {f : Frame} {n left : NodeId} {i : ℕ}

theorem Claimed.evolve (h : Claimed brk P f) (hb : brk ≤ brk') (hn : f.new ∉ P') :
    Claimed brk' P' f :=
  ⟨h.val_lt, h.lvl, hn, h.ge, lt_of_lt_of_le h.lt hb⟩

theorem New.evolve (h : New m brk P f) (hb : brk ≤ brk') (hn : f.new ∉ P')
    (hm : m' f.new = m f.new) : New m' brk' P' f :=
  ⟨h.claimed.evolve hb hn, by rw [hm]; exact h.val, by rw [hm]; exact h.top,
    by rw [hm]; exact h.deleted⟩

theorem Linked.evolve (ev : Evolve m P m' P') (h : Linked m P f) : Linked m' P' f :=
  ⟨h.val_lt, ev.sub h.mem, h.ne_head, h.ne_tail, h.lvl, by rw [(ev.data _ h.mem).2]; exact h.top⟩

theorem LeftOk.evolve (ev : Evolve m P m' P') (h : LeftOk m P f left i) : LeftOk m' P' f left i :=
  ⟨ev.source h.1, fun hne => by rw [ev.val h.1.mem]; exact h.2 hne⟩

theorem Recorded.evolve (ev : Evolve m P m' P') (h : Recorded m P f i) : Recorded m' P' f i :=
  ⟨h.pred.evolve ev, ev.target h.succ, by rw [ev.val h.succ.mem]; exact h.le⟩

theorem Scan.evolve (ev : Evolve m P m' P') (h : Scan m P f left i) : Scan m' P' f left i :=
  ⟨h.lt, h.left.evolve ev, fun j h₁ h₂ => (h.done j h₁ h₂).evolve ev⟩

theorem Found.evolve (ev : Evolve m P m' P') (h : Found m P f) : Found m' P' f :=
  fun j hj => (h j hj).evolve ev

theorem Inner.evolve (ev : Evolve m P m' P') (h : Inner P n) : Inner P' n :=
  ⟨ev.sub h.mem, h.ne_head, h.ne_tail⟩

theorem Doomed.evolve (ev : Evolve m P m' P') (h : Doomed m P n) : Doomed m' P' n :=
  ⟨h.inner.evolve ev, ev.deleted n h.inner.mem h.deleted⟩

theorem WalkOk.evolve (ev : Evolve m P m' P') {w : Walk} (h : WalkOk m P w) : WalkOk m' P' w :=
  ⟨ev.sub h.mem, by rw [(ev.data _ h.mem).2]; exact h.lt⟩

theorem SiteOk.evolve (ev : Evolve m P m' P') (hb : brk ≤ brk') {site : Site}
    (hown : site = .insert → f.new ∉ P' ∧ m' f.new = m f.new) (h : SiteOk m brk P f site) :
    SiteOk m' brk' P' f site := by
  cases site with
  | insert => exact New.evolve h hb (hown rfl).1 (hown rfl).2
  | upper i => exact ⟨h.1.evolve ev, h.2⟩
  | remove rs => exact h
  | cleanup a => exact h

theorem MarkOk.evolve (ev : Evolve m P m' P') (hb : brk ≤ brk') (hn : n ∈ P) {site : MarkSite}
    (hown : ∀ f, site = .duplicate f → f.new ∉ P' ∧ m' f.new = m f.new)
    (h : MarkOk m brk P n site) : MarkOk m' brk' P' n site := by
  cases site with
  | duplicate f => exact New.evolve h hb (hown f rfl).1 (hown f rfl).2
  | remove v => exact h
  | naive v => exact Eq.trans h (ev.val hn).symm
  | spray v => exact Eq.trans h (ev.val hn).symm

theorem Prepared.evolve (ev : Evolve m P m' P') (hf : Found m P f) (hm : m' f.new = m f.new)
    (h : Prepared m f i) : Prepared m' f i :=
  ⟨by rw [ev.val (hf 0 (by decide)).succ.mem]; exact h.ne, fun j hj => by rw [hm]; exact h.next j hj⟩

/-- **Stability.**  An assertion stands while other threads act, as long as they leave the node alone
that the thread owns. -/
theorem Ok.evolve (ev : Evolve m P m' P') (hb : brk ≤ brk') {pc : Pc}
    (hown : own pc ≠ NULL → own pc ∉ P' ∧ m' (own pc) = m (own pc)) (h : Ok m brk P pc) :
    Ok m' brk' P' pc := by
  have hnew : ∀ {f : Frame}, Claimed brk P f → f.new ≠ NULL := fun hc he => by
    have := hc.ge
    rw [he] at this
    exact absurd this (by decide)
  have hsite : ∀ {f : Frame} {site : Site}, SiteOk m brk P f site →
      (site = .insert → f.new ≠ NULL → f.new ∉ P' ∧ m' f.new = m f.new) →
      SiteOk m' brk' P' f site := by
    intro f site h ho
    refine h.evolve ev hb fun he => ho he ?_
    subst he
    exact hnew h.claimed
  have hmark : ∀ {n : NodeId} {site : MarkSite}, Doomed m P n ∧ MarkOk m brk P n site →
      (∀ f, site = .duplicate f → f.new ≠ NULL → f.new ∉ P' ∧ m' f.new = m f.new) →
      Doomed m' P' n ∧ MarkOk m' brk' P' n site := by
    intro n site h ho
    refine ⟨h.1.evolve ev, h.2.evolve ev hb h.1.inner.mem fun f he => ho f he ?_⟩
    subst he
    exact hnew h.2.claimed
  have hval : ∀ {n : NodeId}, n ∈ P → (m' n).val = (m n).val := fun hn => ev.val hn
  have htop : ∀ {n : NodeId}, n ∈ P → (m' n).toplevel = (m n).toplevel := fun hn => (ev.data _ hn).2
  cases pc with
  | idle | crashed | ret a => trivial
  | insAlloc v lvl => exact h
  | insVal f => exact Claimed.evolve h hb (hown (hnew h)).1
  | insTop f =>
    obtain ⟨h₁, h₂⟩ := hown (hnew h.1)
    exact ⟨h.1.evolve hb h₁, (congrArg Node.val h₂).trans h.2⟩
  | insDel f =>
    obtain ⟨h₁, h₂⟩ := hown (hnew h.1)
    exact ⟨h.1.evolve hb h₁, (congrArg Node.val h₂).trans h.2.1,
      (congrArg Node.toplevel h₂).trans h.2.2⟩
  | seLeft f site left i =>
    refine ⟨hsite h.1 fun he => ?_, h.2.evolve ev⟩
    subst he
    exact hown
  | seNext f site left ln r i =>
    refine ⟨hsite h.1 fun he => ?_, h.2.1.evolve ev, ev.target h.2.2.1, ev.passes h.2.2.2⟩
    subst he
    exact hown
  | seVal f site left ln r rn i =>
    refine ⟨hsite h.1 fun he => ?_, h.2.1.evolve ev, ev.target h.2.2.1, ev.passes h.2.2.2.1,
      fun ht => ev.target (h.2.2.2.2 ht)⟩
    subst he
    exact hown
  | seCas f site left ln r i =>
    refine ⟨hsite h.1 fun he => ?_, h.2.1.evolve ev, ev.target h.2.2.1, ev.passes h.2.2.2.1, ?_⟩
    · subst he
      exact hown
    · rw [hval h.2.2.1.mem]
      exact h.2.2.2.2
  | insDup f =>
    obtain ⟨h₁, h₂⟩ := hown (hnew h.1.claimed)
    exact ⟨h.1.evolve hb h₁ h₂, h.2.evolve ev⟩
  | insDupDel f =>
    obtain ⟨h₁, h₂⟩ := hown (hnew h.1.claimed)
    refine ⟨h.1.evolve hb h₁ h₂, h.2.1.evolve ev, h.2.2.1, ?_⟩
    rw [hval (h.2.1 0 (by decide)).succ.mem]
    exact h.2.2.2
  | insFree f => exact h
  | insTest f i | insCas f =>
    obtain ⟨h₁, h₂⟩ := hown (hnew h.1.claimed)
    exact ⟨h.1.evolve hb h₁ h₂, h.2.1.evolve ev, h.2.2.evolve ev h.2.1 h₂⟩
  | insLink f i =>
    obtain ⟨h₁, h₂⟩ := hown (hnew h.1.claimed)
    exact ⟨h.1.evolve hb h₁ h₂, h.2.1.evolve ev, h.2.2.1.evolve ev h.2.1 h₂, h.2.2.2⟩
  | upTest f i | upNew f i | upVal f i | upSet f i w | upCas f i e =>
    exact ⟨h.1.evolve ev, h.2.1.evolve ev, h.2.2⟩
  | mkTop site n =>
    refine hmark h fun f he => ?_
    subst he
    exact hown
  | mkNext site n i =>
    refine ⟨hmark h.1 fun f he => ?_, ?_⟩
    · subst he
      exact hown
    · rw [htop h.1.1.inner.mem]
      exact h.2
  | mkCas site n i w =>
    refine ⟨hmark h.1 fun f he => ?_, ?_, h.2.2⟩
    · subst he
      exact hown
    · rw [htop h.1.1.inner.mem]
      exact h.2.1
  | rmNext f => exact ⟨h.1.evolve ev, h.2⟩
  | rmVal f rs result => exact ⟨⟨h.1.1.evolve ev, h.1.2⟩, h.2⟩
  | rmDel f | rmInc f => exact ⟨h.1.evolve ev, h.2.1, (hval h.1.mem).trans h.2.2⟩
  | nvNext first => exact ev.sub h
  | nvEnd first => exact h.imp_right fun h => ⟨ev.sub h.1, h.2⟩
  | nvDel first | nvInc first => exact ⟨ev.sub h.1, h.2⟩
  | nvTail first => exact ⟨ev.sub h.1, h.2.1, ev.deleted _ h.1 h.2.2⟩
  | nvVal first => exact Doomed.evolve ev h
  | nvPeek first v | nvKey first v =>
    exact ⟨h.1.evolve ev, h.2.trans (hval h.1.inner.mem).symm⟩
  | nvTest first v w =>
    exact ⟨⟨h.1.1.evolve ev, h.1.2.trans (hval h.1.1.inner.mem).symm⟩, ev.sub h.2⟩
  | spSeed n => exact h
  | spDraw w | spTest w | spDel w | spEnd w => exact WalkOk.evolve ev h
  | spMove w => exact ⟨h.1.evolve ev, h.2⟩
  | spSkip cur | spSkipEnd cur | spTail cur => exact ⟨ev.sub h.1, h.2⟩
  | spSkipMove cur | spCheck cur | spInc cur => exact Inner.evolve ev h
  | spVal cur => exact Doomed.evolve ev h
  | wild => exact h
  | sqTop _ _ | sqNext _ _ _ | sqVal _ _ _ _ | sqSucc _ _ _ | sqLast _ _ | sqCmp _ _ | sqAlloc _
  | sqNew _ | sqNewTop _ | sqNewDel _ | sqStore _ _ | sqLink _ _ => exact h

end Stability

end ConcurrentPQ.Spray

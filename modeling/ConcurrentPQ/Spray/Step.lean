import ConcurrentPQ.Spray.Threads

/-!
# One access of a thread of a SprayList

Every access keeps the shape of memory and the thread's assertion, is a change the other threads may
rely on, and has the effect of its event on the nodes of the list.

* `Effect`, `Progress` — the effect of an event, and all that is kept by an access;
* `Ok.search_step`, `Ok.insert_step`, `Ok.mark_step`, `Ok.remove_step`, `Ok.naive_step`,
  `Ok.spray_step` — the accesses of the six functions;
* `Ok.access` — one access of any thread.
-/

namespace ConcurrentPQ.Spray

/-- What an event does to the nodes of the list. -/
def Effect (m : Mem) (P : Set NodeId) (m' : Mem) (P' : Set NodeId) : Event → Prop
  | .insertCas k => ∃ n, n ∉ P ∧ P' = insert n P ∧ Live m' P' n ∧ (m' n).val = k ∧
      ∀ x ∈ P, (m' x).deleted = (m x).deleted
  | .deleteInc n => P' = P ∧ Live m P n ∧ (m' n).deleted ≠ 0 ∧
      ∀ x ∈ P, x ≠ n → (m' x).deleted = (m x).deleted
  | _ => P' = P ∧ ∀ x, Inner P x → ((m' x).deleted = 0 ↔ (m x).deleted = 0)

/-- What one access keeps and does: the thread goes from `pc` to `pc'` and shows `e`. -/
structure Progress (s : Shared) (P : Set NodeId) (pc : Pc) (e : Event) (s' : Shared)
    (P' : Set NodeId) (pc' : Pc) : Prop where
  shape : Shape s'.mem s'.brk P'
  evolve : Evolve s.mem P s'.mem P'
  ok : Ok s'.mem s'.brk P' pc'
  brk : s.brk ≤ s'.brk
  frame : ∀ x, x ∉ P → x ≠ own pc → x < s.brk → s'.mem x = s.mem x
  fresh : ∀ x ∈ P', x ∈ P ∨ x = own pc
  own : own pc' = NULL ∨ own pc' = own pc ∨ (own pc' = s.brk ∧ s'.brk = s.brk + 1)
  effect : Effect s.mem P s'.mem P' e

/-- The access of a thread makes progress. -/
def Advances (s : Shared) (P : Set NodeId) (pc : Pc) : Prop :=
  ∀ any seed, ∃ P' s' seed' pc', access any ⟨s, seed, pc⟩ = ⟨s', seed', pc'⟩ ∧
    Progress s P pc (event s.mem pc) s' P' pc'

section Steps

variable {s s' : Shared} {P : Set NodeId} {pc pc' : Pc} {f : Frame} {site : Site} {n left : NodeId}
  {i : ℕ}

theorem Effect.refl : Effect s.mem P s.mem P .internal := ⟨rfl, fun _ _ => Iff.rfl⟩

/-- An access that only reads. -/
theorem Progress.read (hs : Shape s.mem s.brk P) (hok : Ok s.mem s.brk P pc')
    (how : Spray.own pc' = NULL ∨ Spray.own pc' = Spray.own pc) :
    Progress s P pc .internal s P pc' :=
  ⟨hs, .refl, hok, le_rfl, fun _ _ _ _ => rfl, fun _ hx => Or.inl hx, how.imp_right Or.inl, .refl⟩

/-- A pointer of the list is written. -/
theorem Progress.write {w : Ref} (hs : Shape (setNext s.mem n i w) s.brk P) (hn : n ∈ P)
    (hun : ¬Marked s.mem i n) (hok : Ok (setNext s.mem n i w) s.brk P pc')
    (how : Spray.own pc' = NULL ∨ Spray.own pc' = Spray.own pc) :
    Progress s P pc .internal { s with mem := setNext s.mem n i w } P pc' where
  shape := hs
  evolve := .setNext hun
  ok := hok
  brk := le_rfl
  frame x hx _ _ := setNext_node_ne _ _ _ _ _ fun he => hx (he ▸ hn)
  fresh x hx := Or.inl hx
  own := how.imp_right Or.inl
  effect := ⟨rfl, fun x _ => by rw [setNext_deleted]⟩

/-- The thread writes the node it owns. -/
theorem Progress.private {m' : Mem} (hs : Shape s.mem s.brk P) (hn : Spray.own pc ∉ P)
    (h : ∀ x, x ≠ Spray.own pc → m' x = s.mem x) (hok : Ok m' s.brk P pc')
    (how : Spray.own pc' = NULL ∨ Spray.own pc' = Spray.own pc) :
    Progress s P pc .internal { s with mem := m' } P pc' := by
  have hsame : Same s.mem m' P := .private hn h
  refine ⟨hs.same hsame le_rfl, hsame.evolve, hok, le_rfl, fun x _ hx _ => h x hx,
    fun x hx => Or.inl hx, how.imp_right Or.inl, rfl, fun x hx => ?_⟩
  show (m' x).deleted = 0 ↔ _
  rw [h x fun he => hn (he ▸ hx.mem)]

/-! ### fraser_search -/

theorem SiteOk.record {m : Mem} {brk : NodeId} (h : SiteOk m brk P f site) (i : ℕ)
    (l r : NodeId) : SiteOk m brk P (f.record i l r) site := by
  cases site with
  | insert => exact ⟨⟨h.claimed.val_lt, h.claimed.lvl, h.claimed.notMem, h.claimed.ge,
      h.claimed.lt⟩, h.val, h.top, h.deleted⟩
  | upper j => exact ⟨⟨h.1.val_lt, h.1.mem, h.1.ne_head, h.1.ne_tail, h.1.lvl, h.1.top⟩, h.2⟩
  | remove rs => exact h
  | cleanup a => exact h

theorem own_search (f : Frame) (site : Site) (left ln r rn : NodeId) (i j k : ℕ) :
    own (.seLeft f site left i) = own (search f site) ∧
      own (.seNext f site left ln r j) = own (search f site) ∧
      own (.seVal f site left ln r rn j) = own (search f site) ∧
      own (.seCas f site left ln r k) = own (search f site) := by
  cases site <;> exact ⟨rfl, rfl, rfl, rfl⟩

theorem own_seDown (f : Frame) (site : Site) (left right : NodeId) (i : ℕ) :
    own (seDown f site left right i) = own (search f site) := by
  unfold seDown
  split
  · cases site with
    | remove rs => cases rs <;> rfl
    | _ => rfl
  · cases site <;> rfl

theorem ok_search {m : Mem} {brk : NodeId} (hs : Shape m brk P) (h : SiteOk m brk P f site) :
    Ok m brk P (search f site) :=
  ⟨h, by decide, ⟨hs.head_source (by decide), fun hne => absurd rfl hne⟩, fun j h₁ h₂ => by
    have : levelmax - 1 < j := h₁
    omega⟩

/-- A level of `fraser_search` is recorded. -/
theorem ok_seDown {m : Mem} {brk : NodeId} (h : SiteOk m brk P f site) (hsc : Scan m P f left i)
    {right : NodeId} (hr : Target m P right i) (hv : f.val ≤ (m right).val) :
    Ok m brk P (seDown f site left right i) := by
  have hrec : ∀ j, i ≤ j → j < levelmax → Recorded m P (f.record i left right) j := by
    intro j hj hlt
    by_cases he : j = i
    · subst he
      constructor
      · show LeftOk m P f (Function.update f.preds j left j) j
        rw [Function.update_self]
        exact hsc.left
      · show Target m P (Function.update f.succs j right j) j
        rw [Function.update_self]
        exact hr
      · show f.val ≤ (m (Function.update f.succs j right j)).val
        rw [Function.update_self]
        exact hv
    · have hold := hsc.done j (by omega) hlt
      constructor
      · show LeftOk m P f (Function.update f.preds i left j) j
        rw [Function.update_of_ne he]
        exact hold.pred
      · show Target m P (Function.update f.succs i right j) j
        rw [Function.update_of_ne he]
        exact hold.succ
      · show f.val ≤ (m (Function.update f.succs i right j)).val
        rw [Function.update_of_ne he]
        exact hold.le
  have hsite := h.record i left right
  unfold seDown
  split
  · rename_i h0
    have hfound : Found m P (f.record i left right) := fun j hj => hrec j (by omega) hj
    cases site with
    | insert => exact ⟨hsite, hfound⟩
    | upper k => exact ⟨hsite.1, hfound, hsite.2⟩
    | remove rs =>
      cases rs with
      | true => exact ⟨hfound, hsite⟩
      | false => exact ⟨⟨hfound, hsite⟩, fun hf => by cases hf⟩
    | cleanup a => trivial
  · have hsrc := hsc.left.1.below (Nat.sub_le i 1)
    refine ⟨hsite, by have := hsc.lt; omega, ⟨hsrc, hsc.left.2⟩, fun j h₁ h₂ => ?_⟩
    exact hrec j (by omega) h₂

/-- The accesses of `fraser_search`. -/
theorem Ok.search_step (hs : Shape s.mem s.brk P) (h : Ok s.mem s.brk P pc)
    (hpc : (∃ f site left i, pc = .seLeft f site left i) ∨
      (∃ f site left ln r i, pc = .seNext f site left ln r i) ∨
      (∃ f site left ln r rn i, pc = .seVal f site left ln r rn i) ∨
      ∃ f site left ln r i, pc = .seCas f site left ln r i) : Advances s P pc := by
  intro any seed
  rcases hpc with ⟨f, site, left, i, rfl⟩ | ⟨f, site, left, ln, r, i, rfl⟩ |
    ⟨f, site, left, ln, r, rn, i, rfl⟩ | ⟨f, site, left, ln, r, i, rfl⟩
  · obtain ⟨hsite, hsc⟩ := h
    have hl := hsc.left.1
    refine ⟨P, s, seed, _, access_loadNext rfl (hs.ne_null hl.mem) hl.lt, ?_⟩
    have how := (own_search f site left 0 0 0 i 0 0).1
    split
    · exact .read hs (ok_search hs hsite) (Or.inr how.symm)
    · have hnext := hs.links left i hl
      refine .read hs ⟨hsite, hsc, hnext, .refl⟩ (Or.inr ?_)
      rw [how, (own_search f site left _ _ 0 0 i 0).2.1]
  · obtain ⟨hsite, hsc, hr, hp⟩ := h
    refine ⟨P, s, seed, _, access_loadNext rfl (hs.ne_null hr.mem) hr.lt, ?_⟩
    have how := (own_search f site left ln r 0 0 i 0).2.1
    split
    · rename_i hm
      have hsrc := hr.source (hs.marked_ne_tail hr.lt hm)
      refine .read hs ⟨hsite, hsc, hs.links r i hsrc, hp.step hsrc hm⟩ (Or.inr ?_)
      rw [how, (own_search f site left _ _ 0 0 i 0).2.1]
    · refine .read hs ⟨hsite, hsc, hr, hp, fun ht => hs.links r i (hr.source ht)⟩ (Or.inr ?_)
      rw [how, (own_search f site left _ _ _ 0 i 0).2.2.1]
  · obtain ⟨hsite, hsc, hr, hp, hrn⟩ := h
    refine ⟨P, s, seed, _, access_loadVal rfl (hs.ne_null hr.mem), ?_⟩
    have how := (own_search f site left ln r rn 0 i 0).2.2.1
    split
    · rename_i hle
      split
      · refine .read hs ⟨hsite, hsc, hr, hp, hle⟩ (Or.inr ?_)
        rw [how, (own_search f site left _ _ 0 0 0 i).2.2.2]
      · refine .read hs (ok_seDown hsite hsc hr hle) (Or.inr ?_)
        rw [how, own_seDown]
    · rename_i hlt
      have ht : r ≠ tail := by
        rintro rfl
        have hv : f.val < INT_MAX := by
          cases site with
          | insert => exact hsite.claimed.val_lt
          | upper j => exact hsite.1.val_lt
          | remove rs => exact hsite
          | cleanup a => exact hsite
        rw [hs.tail_val] at hlt
        exact hlt hv.le
      have hleft : LeftOk s.mem P f r i := ⟨hr.source ht, fun _ => not_le.mp hlt⟩
      refine .read hs ⟨hsite, ⟨hsc.lt, hleft, hsc.done⟩, hrn ht, .refl⟩ (Or.inr ?_)
      rw [how, (own_search f site r _ _ 0 0 i 0).2.1]
  · obtain ⟨hsite, hsc, hr, hp, hv⟩ := h
    have hl := hsc.left.1
    have how := (own_search f site left ln r 0 0 0 i).2.2.2
    by_cases hhit : (s.mem left).next i = ref ln
    · refine ⟨P, _, seed, _, access_cas_hit rfl (hs.ne_null hl.mem) hl.lt hhit, ?_⟩
      have hun : ¬Marked s.mem i left := by
        unfold Marked
        rw [hhit]
        simp
      have hp' : Passes s.mem P i (succ s.mem i left) r := by
        unfold succ
        rw [hhit]
        exact hp
      have hshape := hs.unlink hl hun hp' hr fun hne => lt_of_lt_of_le (hsc.left.2 hne) hv
      have ev : Evolve s.mem P (setNext s.mem left i (ref r)) P := .setNext hun
      refine .write hshape hl.mem hun ?_ (Or.inr (by rw [how]; exact own_seDown ..))
      refine ok_seDown ?_ (hsc.evolve ev) (ev.target hr) (by rw [setNext_val]; exact hv)
      refine hsite.evolve ev le_rfl fun he => ?_
      subst he
      have hno := hsite.claimed.notMem
      exact ⟨hno, setNext_node_ne _ _ _ _ _ fun he => hno (he ▸ hl.mem)⟩
    · refine ⟨P, s, seed, _, access_cas_miss rfl (hs.ne_null hl.mem) hl.lt ?_, ?_⟩
      · exact fun he => hhit (Expected.word.inj he).symm
      · exact .read hs (ok_search hs hsite) (Or.inr how.symm)

/-! ### mark_node_ptrs -/

theorem own_marked {site : MarkSite} : own (marked n site) = own (.mkTop site n) := by
  cases site <;> rfl

theorem own_mkDown {site : MarkSite} : own (mkDown site n i) = own (.mkTop site n) := by
  unfold mkDown
  split
  · exact own_marked
  · cases site <;> rfl

theorem own_mk (site : MarkSite) (n : NodeId) (i j : ℕ) (w : Ref) :
    own (.mkNext site n i) = own (.mkTop site n) ∧
      own (.mkCas site n j w) = own (.mkTop site n) := by
  cases site <;> exact ⟨rfl, rfl⟩

theorem ok_marked {m : Mem} {brk : NodeId} {site : MarkSite} (hs : Shape m brk P)
    (hd : Doomed m P n) (h : MarkOk m brk P n site) : Ok m brk P (marked n site) := by
  cases site with
  | duplicate f => exact ok_search hs h
  | remove v => exact ok_search hs h
  | naive v => exact ⟨hd, h⟩
  | spray v => trivial

theorem ok_mkDown {m : Mem} {brk : NodeId} {site : MarkSite} (hs : Shape m brk P)
    (hd : Doomed m P n) (h : MarkOk m brk P n site) (hi : i < (m n).toplevel) :
    Ok m brk P (mkDown site n i) := by
  unfold mkDown
  split
  · exact ok_marked hs hd h
  · exact ⟨⟨hd, h⟩, lt_of_le_of_lt (Nat.sub_le i 1) hi⟩

/-- The accesses of `mark_node_ptrs`. -/
theorem Ok.mark_step (hs : Shape s.mem s.brk P) (h : Ok s.mem s.brk P pc)
    (hpc : (∃ site n, pc = .mkTop site n) ∨ (∃ site n i, pc = .mkNext site n i) ∨
      ∃ site n i w, pc = .mkCas site n i w) : Advances s P pc := by
  intro any seed
  rcases hpc with ⟨site, n, rfl⟩ | ⟨site, n, i, rfl⟩ | ⟨site, n, i, w, rfl⟩
  · obtain ⟨hd, hm⟩ := h
    have htop := (hs.top n hd.inner.mem).1
    refine ⟨P, s, seed, _, access_loadToplevel rfl (hs.ne_null hd.inner.mem), ?_⟩
    rw [if_neg (by omega)]
    refine .read hs ⟨⟨hd, hm⟩, by omega⟩ (Or.inr (own_mk site n _ 0 (ref 0)).1)
  · obtain ⟨⟨hd, hm⟩, hi⟩ := h
    refine ⟨P, s, seed, _, access_loadNext rfl (hs.ne_null hd.inner.mem) hi, ?_⟩
    have how := (own_mk site n i 0 (ref 0)).1
    split
    · exact .read hs (ok_mkDown hs hd hm hi) (Or.inr (own_mkDown.trans how.symm))
    · rename_i hun
      refine .read hs ⟨⟨hd, hm⟩, hi, by simpa [is_marked] using hun⟩ (Or.inr ?_)
      rw [how, (own_mk site n 0 i _).2]
  · obtain ⟨⟨hd, hm⟩, hi, hw⟩ := h
    have hsrc : Source s.mem P n i := ⟨hd.inner.mem, hd.inner.ne_tail, hi⟩
    have how := (own_mk site n 0 i w).2
    by_cases hhit : (s.mem n).next i = w
    · refine ⟨P, _, seed, _, access_cas_hit rfl (hs.ne_null hd.inner.mem) hi hhit, ?_⟩
      have hun : ¬Marked s.mem i n := by
        unfold Marked
        rw [hhit, hw]
        simp
      have hshape := hs.mark hsrc hd.deleted hd.inner.ne_head
      rw [hhit] at hshape
      have ev : Evolve s.mem P (setNext s.mem n i (set_mark w)) P := .setNext hun
      refine .write hshape hd.inner.mem hun ?_ (Or.inr (own_mkDown.trans how.symm))
      refine ok_mkDown hshape (hd.evolve ev) ?_ (by simpa using hi)
      refine hm.evolve ev le_rfl hd.inner.mem fun f he => ?_
      subst he
      have hno := hm.claimed.notMem
      exact ⟨hno, setNext_node_ne _ _ _ _ _ fun he => hno (he ▸ hd.inner.mem)⟩
    · refine ⟨P, s, seed, _, access_cas_miss rfl (hs.ne_null hd.inner.mem) hi ?_, ?_⟩
      · exact fun he => hhit (Expected.word.inj he).symm
      · refine .read hs ⟨⟨hd, hm⟩, hi⟩ (Or.inr ?_)
        rw [how]
        exact (own_mk site n i 0 (ref 0)).1

/-! ### fraser_insert -/

theorem Claimed.ne_null {brk : NodeId} (h : Claimed brk P f) : f.new ≠ NULL := fun he => by
  have := h.ge
  rw [he] at this
  exact absurd this (by decide)

/-- The successor recorded on level 0 is not the tail when its key is below `INT_MAX`. -/
theorem Shape.ne_tail_of_val_lt (hs : Shape s.mem s.brk P) (h : (s.mem n).val < INT_MAX) :
    n ≠ tail := by
  rintro rfl
  rw [hs.tail_val] at h
  exact lt_irrefl _ h

theorem New.ready {m : Mem} {brk : NodeId} (h : New m brk P f) (hf : Found m P f)
    (hp : Prepared m f f.lvl) : Ready m brk P f.new f.succs where
  notMem := h.claimed.notMem
  ne_null := h.claimed.ne_null
  lt := h.claimed.lt
  top := by rw [h.top]; exact h.claimed.lvl
  val_lt := by rw [h.val]; exact h.claimed.val_lt
  next j hj := by
    rw [h.top] at hj
    exact ⟨hp.next j hj, (hf j (lt_of_lt_of_le hj h.claimed.lvl.2)).succ⟩

/-- Allocation of the new node. -/
theorem Ok.alloc_step {v lvl : ℕ} (hs : Shape s.mem s.brk P)
    (h : Ok s.mem s.brk P (.insAlloc v lvl)) : Advances s P (.insAlloc v lvl) := by
  intro any seed
  have hsame : Same s.mem s.mem P :=
    ⟨fun _ _ => ⟨rfl, rfl⟩, fun _ _ => rfl, fun _ _ h => h⟩
  refine ⟨P, _, seed, _, access_alloc rfl, ?_⟩
  exact {
    shape := hs.same hsame (Nat.le_succ _)
    evolve := .refl
    ok := ⟨h.1, h.2, fun hm => lt_irrefl _ (hs.lt_brk _ hm), hs.brk_ge, Nat.lt_succ_self _⟩
    brk := Nat.le_succ _
    frame := fun _ _ _ _ => rfl
    fresh := fun _ hx => Or.inl hx
    own := Or.inr (Or.inr ⟨rfl, rfl⟩)
    effect := .refl }

/-- The accesses that initialise the new node. -/
theorem Ok.new_step (hs : Shape s.mem s.brk P) (h : Ok s.mem s.brk P pc)
    (hpc : pc = .insVal f ∨ pc = .insTop f ∨ pc = .insDel f) : Advances s P pc := by
  intro any seed
  rcases hpc with rfl | rfl | rfl
  · refine ⟨P, _, seed, _, access_storeVal rfl h.ne_null, ?_⟩
    refine .private hs h.notMem (fun x hx => modify_ne _ _ _ _ hx) ⟨h, ?_⟩ (Or.inr rfl)
    rw [modify_same]
  · obtain ⟨hc, hv⟩ := h
    refine ⟨P, _, seed, _, access_storeToplevel rfl hc.ne_null, ?_⟩
    refine .private hs hc.notMem (fun x hx => modify_ne _ _ _ _ hx) ⟨hc, ?_, ?_⟩ (Or.inr rfl)
    · rw [modify_same]
      exact hv
    · rw [modify_same]
  · obtain ⟨hc, hv, ht⟩ := h
    refine ⟨P, _, seed, _, access_storeDeleted rfl hc.ne_null, ?_⟩
    have hpriv : ∀ x, x ≠ f.new → modify s.mem f.new (fun x => { x with deleted := 0 }) x =
        s.mem x := fun x hx => modify_ne _ _ _ _ hx
    refine .private hs hc.notMem hpriv ?_ (Or.inr rfl)
    refine ok_search (hs.same (.private hc.notMem hpriv) le_rfl) ⟨hc, ?_, ?_, ?_⟩
    · rw [modify_same]
      exact hv
    · rw [modify_same]
      exact ht
    · rw [modify_same]

/-- The accesses of `fraser_insert` up to the level-0 CAS. -/
theorem Ok.insert_step (hs : Shape s.mem s.brk P) (h : Ok s.mem s.brk P pc)
    (hpc : pc = .insDup f ∨ pc = .insDupDel f ∨ pc = .insFree f ∨ pc = .insTest f i ∨
      pc = .insLink f i ∨ pc = .insCas f) : Advances s P pc := by
  intro any seed
  rcases hpc with rfl | rfl | rfl | rfl | rfl | rfl
  · obtain ⟨hn, hf⟩ := h
    refine ⟨P, s, seed, _, access_loadVal rfl (hs.ne_null (hf 0 (by decide)).succ.mem), ?_⟩
    split
    · rename_i hv
      refine .read hs ⟨hn, hf, hs.ne_tail_of_val_lt ?_, hv⟩ (Or.inr rfl)
      rw [hv]
      exact hn.claimed.val_lt
    · rename_i hv
      exact .read hs ⟨hn, hf, hv, fun j hj => absurd hj (Nat.not_lt_zero j)⟩ (Or.inr rfl)
  · obtain ⟨hn, hf, ht, -⟩ := h
    have hsucc := (hf 0 (by decide)).succ
    refine ⟨P, s, seed, _, access_loadDeleted rfl (hs.ne_null hsucc.mem), ?_⟩
    split
    · rename_i hd
      exact .read hs ⟨⟨⟨hsucc.mem, hsucc.ne_head, ht⟩, hd⟩, hn⟩ (Or.inr rfl)
    · exact .read hs hn.claimed.ne_null (Or.inl rfl)
  · exact ⟨P, s, seed, _, access_freeNode rfl h, .read hs trivial (Or.inl rfl)⟩
  · obtain ⟨hn, hf, hp⟩ := h
    refine ⟨P, s, seed, _, access_loadToplevel rfl hn.claimed.ne_null, ?_⟩
    rw [hn.top]
    split
    · rename_i hi
      exact .read hs ⟨hn, hf, hp, hi⟩ (Or.inr rfl)
    · exact .read hs ⟨hn, hf, hp.ne, fun j hj => hp.next j (by omega)⟩ (Or.inr rfl)
  · obtain ⟨hn, hf, hp, hi⟩ := h
    refine ⟨P, _, seed, _, access_storeNext rfl hn.claimed.ne_null (by rw [hn.top]; exact hi), ?_⟩
    have hpriv : ∀ x, x ≠ f.new → setNext s.mem f.new i (ref (f.succs i)) x = s.mem x :=
      fun x hx => setNext_node_ne _ _ _ _ _ hx
    have ev := (Same.private hn.claimed.notMem hpriv).evolve
    refine .private hs hn.claimed.notMem hpriv ⟨⟨hn.claimed, ?_, ?_, ?_⟩, hf.evolve ev, ?_, ?_⟩
      (Or.inr rfl)
    · rw [setNext_val]; exact hn.val
    · rw [setNext_toplevel]; exact hn.top
    · rw [setNext_deleted]; exact hn.deleted
    · rw [setNext_val]; exact hp.ne
    · intro j hj
      rw [setNext_next]
      split
      · rename_i he
        rw [he.2]
      · rename_i he
        exact hp.next j (by
          have : j ≠ i := fun h => he ⟨rfl, h⟩
          omega)
  · obtain ⟨hn, hf, hp⟩ := h
    have h0 := hf 0 (by decide)
    have hl := h0.pred.1
    by_cases hhit : (s.mem (f.preds 0)).next 0 = ref (f.succs 0)
    · refine ⟨insert f.new P, _, seed, _, access_cas_hit rfl (hs.ne_null hl.mem) hl.lt hhit, ?_⟩
      have hlt : (s.mem f.new).val < (s.mem (f.succs 0)).val := by
        rw [hn.val]
        exact lt_of_le_of_ne h0.le hp.ne.symm
      obtain ⟨hshape, ev⟩ := hs.publish (hn.ready hf hp) hl hhit
        (fun hne => by rw [hn.val]; exact h0.pred.2 hne) hlt
      have hnew : f.new ≠ f.preds 0 := fun he => hn.claimed.notMem (he ▸ hl.mem)
      have hne : ∀ {x}, x ∈ P → f.new ≠ x := fun hx he => hn.claimed.notMem (he ▸ hx)
      have hlink : Linked (setNext s.mem (f.preds 0) 0 (ref f.new)) (insert f.new P) f :=
        ⟨hn.claimed.val_lt, Set.mem_insert _ _, hne hs.head_mem, hne hs.tail_mem, hn.claimed.lvl.2,
          by rw [setNext_toplevel]; exact hn.top⟩
      exact {
        shape := hshape
        evolve := ev
        ok := ⟨hlink, hf.evolve ev, le_rfl⟩
        brk := le_rfl
        frame := fun x hx _ _ => setNext_node_ne _ _ _ _ _ fun he => hx (he ▸ hl.mem)
        fresh := fun x hx => (Set.mem_insert_iff.mp hx).symm
        own := Or.inl rfl
        effect := by
          rw [event, if_pos hhit]
          refine ⟨f.new, hn.claimed.notMem, rfl, ⟨Set.mem_insert _ _, hlink.ne_head,
            hlink.ne_tail, ?_⟩, ?_, fun x _ => setNext_deleted ..⟩
          · rw [setNext_deleted]; exact hn.deleted
          · rw [setNext_val]; exact hn.val }
    · refine ⟨P, s, seed, _, access_cas_miss rfl (hs.ne_null hl.mem) hl.lt ?_, ?_⟩
      · exact fun he => hhit (Expected.word.inj he).symm
      · rw [event, if_neg hhit]
        exact .read hs (ok_search hs hn) (Or.inr rfl)

/-- The accesses of `fraser_insert` on the upper levels. -/
theorem Ok.upper_step {w : Ref} {e : Expected} (hs : Shape s.mem s.brk P)
    (h : Ok s.mem s.brk P pc) (hpc : pc = .upTest f i ∨ pc = .upNew f i ∨ pc = .upSet f i w ∨
      pc = .upVal f i ∨ pc = .upCas f i e) : Advances s P pc := by
  intro any seed
  rcases hpc with rfl | rfl | rfl | rfl | rfl
  · obtain ⟨hn, hf, hi⟩ := h
    refine ⟨P, s, seed, _, access_loadToplevel rfl (hs.ne_null hn.mem), ?_⟩
    rw [hn.top]
    split
    · rename_i hlt
      exact .read hs ⟨hn, hf, hi, hlt⟩ (Or.inl rfl)
    · exact .read hs trivial (Or.inl rfl)
  · obtain ⟨hn, hf, hi⟩ := h
    refine ⟨P, s, seed, _, access_loadNext rfl (hs.ne_null hn.mem) (by rw [hn.top]; exact hi.2), ?_⟩
    split
    · exact .read hs trivial (Or.inl rfl)
    · rename_i hun
      split
      · exact .read hs ⟨hn, hf, hi, by simpa [is_marked] using hun⟩ (Or.inl rfl)
      · exact .read hs ⟨hn, hf, hi⟩ (Or.inl rfl)
  · obtain ⟨hn, hf, hi, hw⟩ := h
    have hsrc : Source s.mem P f.new i := ⟨hn.mem, hn.ne_tail, by rw [hn.top]; exact hi.2⟩
    have hlt : i < levelmax := lt_of_lt_of_le hi.2 hn.lvl
    by_cases hhit : (s.mem f.new).next i = unset_mark w
    · refine ⟨P, _, seed, _, access_cas_hit rfl (hs.ne_null hn.mem) hsrc.lt hhit, ?_⟩
      have hun : ¬Marked s.mem i f.new := by
        unfold Marked
        rw [hhit]
        simp [unset_mark]
      have ev : Evolve s.mem P (setNext s.mem f.new i (ref (f.succs i))) P := .setNext hun
      refine .write ?_ hn.mem hun ⟨hn.evolve ev, hf.evolve ev, hi⟩ (Or.inl rfl)
      exact hs.write hsrc (hf i hlt).succ (fun hm => by cases hm) fun he => by omega
    · refine ⟨P, s, seed, _, access_cas_miss rfl (hs.ne_null hn.mem) hsrc.lt ?_, ?_⟩
      · exact fun he => hhit (Expected.word.inj he).symm
      · exact .read hs ⟨hn, hf, by omega⟩ (Or.inl rfl)
  · obtain ⟨hn, hf, hi⟩ := h
    have hlt : i < levelmax := lt_of_lt_of_le hi.2 hn.lvl
    refine ⟨P, s, seed, _, access_loadVal rfl (hs.ne_null (hf i hlt).succ.mem), ?_⟩
    split
    · exact .read hs ⟨hn, hf, hi, Or.inr rfl⟩ (Or.inl rfl)
    · exact .read hs ⟨hn, hf, hi, Or.inl rfl⟩ (Or.inl rfl)
  · obtain ⟨hn, hf, hi, he⟩ := h
    have hlt : i < levelmax := lt_of_lt_of_le hi.2 hn.lvl
    have hl := (hf i hlt).pred.1
    have hretry : Ok s.mem s.brk P (search f (.upper i)) := ok_search hs ⟨hn, hi⟩
    by_cases hhit : e = .word ((s.mem (f.preds i)).next i)
    · have hnext : (s.mem (f.preds i)).next i = ref (f.succs i) := by
        rcases he with he | he
        · exact Expected.word.inj (hhit.symm.trans he)
        · rw [he] at hhit
          cases hhit
      subst hhit
      refine ⟨P, _, seed, _, access_cas_hit rfl (hs.ne_null hl.mem) hl.lt rfl, ?_⟩
      have hun : ¬Marked s.mem i (f.preds i) := by
        unfold Marked
        rw [hnext]
        simp
      have ev : Evolve s.mem P (setNext s.mem (f.preds i) i (ref f.new)) P := .setNext hun
      refine .write ?_ hl.mem hun ⟨hn.evolve ev, hf.evolve ev, by omega⟩ (Or.inl rfl)
      exact hs.write hl ⟨hn.mem, hn.ne_head, by rw [hn.top]; exact hi.2⟩ (fun hm => by cases hm)
        fun he => by omega
    · exact ⟨P, s, seed, _, access_cas_miss rfl (hs.ne_null hl.mem) hl.lt hhit,
        .read hs hretry (Or.inl rfl)⟩

/-! ### fraser_remove -/

theorem Effect.increment {m : Mem} (hn : n ∈ P) :
    Effect m P (modify m n fun x => { x with deleted := x.deleted + 1 }) P (incEvent m n) := by
  unfold incEvent
  split
  · rename_i h
    refine ⟨rfl, ⟨hn, h.2.1, h.2.2, h.1⟩, ?_, fun x _ hx => ?_⟩
    · rw [modify_same]
      exact Nat.succ_ne_zero _
    · rw [modify_ne _ _ _ _ hx]
  · rename_i h
    refine ⟨rfl, fun x hx => ?_⟩
    by_cases he : x = n
    · subst he
      have hd : (m x).deleted ≠ 0 := fun hd => h ⟨hd, hx.ne_head, hx.ne_tail⟩
      rw [modify_same]
      exact ⟨fun h => absurd h (Nat.succ_ne_zero _), fun h => absurd h hd⟩
    · rw [modify_ne _ _ _ _ he]

/-- The fetch-and-increment of a node's `deleted`. -/
theorem Progress.increment (hs : Shape s.mem s.brk P) (hn : n ∈ P)
    (hok : Ok (modify s.mem n fun x => { x with deleted := x.deleted + 1 }) s.brk P pc')
    (how : Spray.own pc' = NULL) :
    Progress s P pc (incEvent s.mem n)
      { s with mem := modify s.mem n fun x => { x with deleted := x.deleted + 1 } } P pc' where
  shape := hs.same .increment le_rfl
  evolve := Same.increment.evolve
  ok := hok
  brk := le_rfl
  frame _ hx _ _ :=
    modify_ne s.mem n _ (fun x => { x with deleted := x.deleted + 1 }) fun he => hx (he ▸ hn)
  fresh _ hx := Or.inl hx
  own := Or.inl how
  effect := .increment hn

theorem Doomed.increment {m : Mem} (hn : Inner P n) :
    Doomed (modify m n fun x => { x with deleted := x.deleted + 1 }) P n :=
  ⟨hn, by rw [modify_same]; exact Nat.succ_ne_zero _⟩

/-- The accesses of `fraser_remove`. -/
theorem Ok.remove_step (rs result : Bool) (hs : Shape s.mem s.brk P) (h : Ok s.mem s.brk P pc)
    (hpc : pc = .rmNext f ∨ pc = .rmVal f rs result ∨ pc = .rmDel f ∨ pc = .rmInc f) :
    Advances s P pc := by
  intro any seed
  rcases hpc with rfl | rfl | rfl | rfl
  · obtain ⟨hf, hv⟩ := h
    have hsucc := (hf 0 (by decide)).succ
    refine ⟨P, s, seed, _, access_loadNext rfl (hs.ne_null hsucc.mem) hsucc.lt, ?_⟩
    refine .read hs ⟨⟨hf, hv⟩, fun _ hne => ?_⟩ (Or.inl rfl)
    exact fun ht => of_decide_eq_true hne ((hs.next_eq_null hsucc.mem hsucc.lt).mpr ht)
  · obtain ⟨⟨hf, hv⟩, hres⟩ := h
    have hsucc := (hf 0 (by decide)).succ
    refine ⟨P, s, seed, _, access_loadVal rfl (hs.ne_null hsucc.mem), ?_⟩
    split
    · rename_i hrs
      split
      · rename_i hr
        have ht := hres hrs hr
        have hlt := hs.val_lt _ hsucc.mem hsucc.ne_head ht
        exact .read hs ⟨⟨hsucc.mem, hsucc.ne_head, ht⟩, hlt, rfl⟩ (Or.inl rfl)
      · exact .read hs trivial (Or.inl rfl)
    · split
      · rename_i he
        have ht : f.succs 0 ≠ tail := hs.ne_tail_of_val_lt (by rw [he]; exact hv)
        exact .read hs ⟨⟨hsucc.mem, hsucc.ne_head, ht⟩, hv, he⟩ (Or.inl rfl)
      · exact .read hs trivial (Or.inl rfl)
  · obtain ⟨hn, hv⟩ := h
    refine ⟨P, s, seed, _, access_loadDeleted rfl (hs.ne_null hn.mem), ?_⟩
    split
    · exact .read hs trivial (Or.inl rfl)
    · exact .read hs ⟨hn, hv⟩ (Or.inl rfl)
  · obtain ⟨hn, hv⟩ := h
    refine ⟨P, _, seed, _, access_fetchInc rfl (hs.ne_null hn.mem), ?_⟩
    split
    · exact .increment hs hn.mem ⟨.increment hn, hv.1⟩ rfl
    · exact .increment hs hn.mem trivial rfl

/-! ### naive_delete_min -/

/-- The accesses of `naive_delete_min` that look for a node. -/
theorem Ok.naive_step (hs : Shape s.mem s.brk P) (h : Ok s.mem s.brk P pc)
    (hpc : pc = .nvNext n ∨ pc = .nvEnd n ∨ pc = .nvDel n ∨ pc = .nvInc n ∨ pc = .nvTail n) :
    Advances s P pc := by
  intro any seed
  rcases hpc with rfl | rfl | rfl | rfl | rfl
  · refine ⟨P, s, seed, _, access_loadNext rfl (hs.ne_null h) (hs.top _ h).1, ?_⟩
    refine .read hs ?_ (Or.inl rfl)
    by_cases ht : n = tail
    · exact Or.inl (by rw [(hs.next_eq_null h (hs.top _ h).1).mpr ht])
    · have hnext := hs.links n 0 (hs.source_zero h ht)
      exact Or.inr ⟨hnext.mem, hnext.ne_head⟩
  · by_cases hnull : n = NULL
    · subst hnull
      exact ⟨P, s, seed, _, access_null rfl, .read hs trivial (Or.inl rfl)⟩
    · obtain ⟨hm, hh⟩ := h.resolve_left hnull
      refine ⟨P, s, seed, _, access_loadNext rfl hnull (hs.top _ hm).1, ?_⟩
      split
      · exact .read hs ⟨hm, hh⟩ (Or.inl rfl)
      · exact .read hs ⟨hm, hh⟩ (Or.inl rfl)
  · refine ⟨P, s, seed, _, access_loadDeleted rfl (hs.ne_null h.1), ?_⟩
    split
    · exact .read hs h.1 (Or.inl rfl)
    · exact .read hs h (Or.inl rfl)
  · refine ⟨P, _, seed, _, access_fetchInc rfl (hs.ne_null h.1), ?_⟩
    split
    · exact .increment hs h.1 h.1 rfl
    · refine .increment hs h.1 ⟨h.1, h.2, ?_⟩ rfl
      rw [modify_same]
      exact Nat.succ_ne_zero _
  · obtain ⟨hm, hh, hd⟩ := h
    refine ⟨P, s, seed, _, access_loadNext rfl (hs.ne_null hm) (hs.top _ hm).1, ?_⟩
    split
    · rename_i hne
      have ht : n ≠ tail := fun ht => hne ((hs.next_eq_null hm (hs.top _ hm).1).mpr ht)
      exact .read hs ⟨⟨hm, hh, ht⟩, hd⟩ (Or.inl rfl)
    · exact .read hs trivial (Or.inl rfl)

/-- The accesses of `naive_delete_min` behind its fetch-and-increment. -/
theorem Ok.naive_end_step {v : ℕ} {w : Ref} (hs : Shape s.mem s.brk P)
    (h : Ok s.mem s.brk P pc)
    (hpc : pc = .nvVal n ∨ pc = .nvPeek n v ∨ pc = .nvTest n v w ∨ pc = .nvKey n v) :
    Advances s P pc := by
  intro any seed
  rcases hpc with rfl | rfl | rfl | rfl
  · exact ⟨P, s, seed, _, access_loadVal rfl (hs.ne_null h.inner.mem),
      .read hs ⟨h, rfl⟩ (Or.inl rfl)⟩
  · obtain ⟨hd, hv⟩ := h
    have hsrc := hs.source_zero hd.inner.mem hd.inner.ne_tail
    exact ⟨P, s, seed, _, access_loadNext rfl (hs.ne_null hd.inner.mem) hsrc.lt,
      .read hs ⟨⟨hd, hv⟩, (hs.links n 0 hsrc).mem⟩ (Or.inl rfl)⟩
  · obtain ⟨hd, hw⟩ := h
    obtain ⟨b, hb⟩ := access_peekDeleted any s seed (.nvTest n v w) rfl (hs.ne_null hw)
    refine ⟨P, s, seed, _, hb, ?_⟩
    cases b with
    | true => exact .read hs trivial (Or.inl rfl)
    | false => exact .read hs hd (Or.inl rfl)
  · obtain ⟨hd, hv⟩ := h
    refine ⟨P, s, seed, _, access_loadVal rfl (hs.ne_null hd.inner.mem), ?_⟩
    refine .read hs (ok_search hs ?_) (Or.inl rfl)
    exact hs.val_lt n hd.inner.mem hd.inner.ne_head hd.inner.ne_tail

/-! ### spray_delete_min -/

/-- The spray starts below `levelmax`. -/
theorem SCANHEIGHT_lt {k : ℕ} (hk : k < 1 <<< 14) : SCANHEIGHT k < levelmax := by
  have hlog : floor_log_2 k ≤ 13 := by
    simp only [floor_log_2, Nat.shiftLeft_eq, Nat.shiftRight_eq_div_pow] at hk ⊢
    split_ifs <;> simp <;> omega
  unfold SCANHEIGHT levelmax
  omega

theorem own_spStep (w : Walk) : own (spStep w) = NULL := by
  unfold spStep
  split <;> rfl

theorem ok_spStep {w : Walk} (h : WalkOk s.mem P w) : Ok s.mem s.brk P (spStep w) := by
  unfold spStep
  split <;> exact h

/-- The accesses of `spray_delete_min` on the way down. -/
theorem Ok.spray_step {k : ℕ} {w : Walk} (hs : Shape s.mem s.brk P) (h : Ok s.mem s.brk P pc)
    (hpc : pc = .spSeed k ∨ pc = .spDraw w ∨ pc = .spTest w ∨ pc = .spMove w ∨ pc = .spDel w ∨
      pc = .spEnd w) : Advances s P pc := by
  intro any seed
  rcases hpc with rfl | rfl | rfl | rfl | rfl | rfl
  · refine ⟨P, s, _, _, access_draw rfl, ?_⟩
    split
    · exact .read hs hs.head_mem (Or.inl rfl)
    · refine .read hs ⟨hs.head_mem, ?_⟩ (Or.inl rfl)
      rw [hs.head_top]
      exact SCANHEIGHT_lt h.2
  · refine ⟨P, s, _, _, access_draw rfl, ?_⟩
    generalize skipDummies _ _ _ _ = r
    exact .read hs (ok_spStep ⟨h.mem, h.lt⟩) (Or.inl (own_spStep _))
  · refine ⟨P, s, seed, _, access_loadNext rfl (hs.ne_null h.mem) h.lt, ?_⟩
    split
    · rename_i hne
      exact .read hs ⟨h, fun ht => hne ((hs.next_eq_null h.mem h.lt).mpr ht)⟩ (Or.inl rfl)
    · exact .read hs h (Or.inl rfl)
  · obtain ⟨hw, ht⟩ := h
    have hnext := hs.links w.cur w.i ⟨hw.mem, ht, hw.lt⟩
    exact ⟨P, s, seed, _, access_loadNext rfl (hs.ne_null hw.mem) hw.lt,
      .read hs ⟨hnext.mem, hnext.lt⟩ (Or.inl rfl)⟩
  · refine ⟨P, s, seed, _, access_loadDeleted rfl (hs.ne_null h.mem), ?_⟩
    refine .read hs (ok_spStep ?_) (Or.inl (own_spStep _))
    split
    · exact ⟨h.mem, h.lt⟩
    · exact h
  · refine ⟨P, s, seed, _, access_loadNext rfl (hs.ne_null h.mem) (hs.top _ h.mem).1, ?_⟩
    split
    · exact .read hs trivial (Or.inl rfl)
    · split
      · split
        · exact .read hs trivial (Or.inl rfl)
        · rename_i hh
          exact .read hs ⟨h.mem, hh⟩ (Or.inl rfl)
      · exact .read hs ⟨h.mem, lt_of_le_of_lt (Nat.sub_le _ _) h.lt⟩ (Or.inl rfl)

/-- The accesses of `spray_delete_min` on the bottom level. -/
theorem Ok.spray_end_step (hs : Shape s.mem s.brk P) (h : Ok s.mem s.brk P pc)
    (hpc : pc = .spSkip n ∨ pc = .spSkipEnd n ∨ pc = .spSkipMove n ∨ pc = .spTail n ∨
      pc = .spCheck n ∨ pc = .spInc n ∨ pc = .spVal n) : Advances s P pc := by
  intro any seed
  have hinner : ∀ {m : NodeId}, m ∈ P → m ≠ head → (s.mem m).next 0 ≠ ref NULL → Inner P m :=
    fun hm hh hne => ⟨hm, hh, fun ht => hne ((hs.next_eq_null hm (hs.top _ hm).1).mpr ht)⟩
  rcases hpc with rfl | rfl | rfl | rfl | rfl | rfl | rfl
  · refine ⟨P, s, seed, _, access_loadDeleted rfl (hs.ne_null h.1), ?_⟩
    split <;> exact .read hs h (Or.inl rfl)
  · refine ⟨P, s, seed, _, access_loadNext rfl (hs.ne_null h.1) (hs.top _ h.1).1, ?_⟩
    split
    · rename_i hne
      exact .read hs (hinner h.1 h.2 hne) (Or.inl rfl)
    · exact .read hs h (Or.inl rfl)
  · have hsrc := hs.source_zero h.mem h.ne_tail
    have hnext := hs.links n 0 hsrc
    exact ⟨P, s, seed, _, access_loadNext rfl (hs.ne_null h.mem) hsrc.lt,
      .read hs ⟨hnext.mem, hnext.ne_head⟩ (Or.inl rfl)⟩
  · refine ⟨P, s, seed, _, access_loadNext rfl (hs.ne_null h.1) (hs.top _ h.1).1, ?_⟩
    split
    · exact .read hs trivial (Or.inl rfl)
    · rename_i hne
      exact .read hs (hinner h.1 h.2 hne) (Or.inl rfl)
  · refine ⟨P, s, seed, _, access_loadDeleted rfl (hs.ne_null h.mem), ?_⟩
    split
    · exact .read hs h (Or.inl rfl)
    · exact .read hs trivial (Or.inl rfl)
  · refine ⟨P, _, seed, _, access_fetchInc rfl (hs.ne_null h.mem), ?_⟩
    split
    · exact .increment hs h.mem trivial rfl
    · exact .increment hs h.mem (.increment h) rfl
  · exact ⟨P, s, seed, _, access_loadVal rfl (hs.ne_null h.inner.mem),
      .read hs ⟨h, rfl⟩ (Or.inl rfl)⟩

/-! ### Any access -/

/-- **One access of a thread.** -/
theorem Ok.access (hs : Shape s.mem s.brk P) (h : Ok s.mem s.brk P pc) (hbusy : pc.busy = true) :
    Advances s P pc := by
  cases pc with
  | idle | crashed | wild | ret a => cases hbusy
  | insAlloc v lvl => exact h.alloc_step hs
  | insVal f | insTop f | insDel f => exact h.new_step (f := f) hs (by simp)
  | seLeft f site left i => exact h.search_step hs (by simp)
  | seNext f site left ln r i => exact h.search_step hs (by simp)
  | seVal f site left ln r rn i => exact h.search_step hs (by simp)
  | seCas f site left ln r i => exact h.search_step hs (by simp)
  | insDup f | insDupDel f | insFree f | insCas f =>
    exact h.insert_step (f := f) (i := 0) hs (by simp)
  | insTest f i | insLink f i => exact h.insert_step (f := f) (i := i) hs (by simp)
  | upTest f i | upNew f i | upVal f i =>
    exact h.upper_step (f := f) (i := i) (w := ref NULL) (e := .array NULL) hs (by simp)
  | upSet f i w => exact h.upper_step (f := f) (i := i) (w := w) (e := .array NULL) hs (by simp)
  | upCas f i e => exact h.upper_step (f := f) (i := i) (w := ref NULL) (e := e) hs (by simp)
  | mkTop site n | mkNext site n i | mkCas site n i w => exact h.mark_step hs (by simp)
  | rmNext f | rmDel f | rmInc f =>
    exact h.remove_step (f := f) true true hs (by simp)
  | rmVal f rs result => exact h.remove_step (f := f) rs result hs (by simp)
  | nvNext n | nvEnd n | nvDel n | nvInc n | nvTail n => exact h.naive_step (n := n) hs (by simp)
  | nvVal n => exact h.naive_end_step (n := n) (v := 0) (w := ref NULL) hs (by simp)
  | nvPeek n v | nvKey n v => exact h.naive_end_step (n := n) (v := v) (w := ref NULL) hs (by simp)
  | nvTest n v w => exact h.naive_end_step (n := n) (v := v) (w := w) hs (by simp)
  | spSeed k => exact h.spray_step (k := k) (w := ⟨0, 0, 0, 0, 0⟩) hs (by simp)
  | spDraw w | spTest w | spMove w | spDel w | spEnd w =>
    exact h.spray_step (k := 0) (w := w) hs (by simp)
  | spSkip n | spSkipEnd n | spSkipMove n | spTail n | spCheck n | spInc n | spVal n =>
    exact h.spray_end_step (n := n) hs (by simp)
  | sqTop _ _ | sqNext _ _ _ | sqVal _ _ _ _ | sqSucc _ _ _ | sqLast _ _ | sqCmp _ _ | sqAlloc _
  | sqNew _ | sqNewTop _ | sqNewDel _ | sqStore _ _ | sqLink _ _ => exact h.elim

end Steps

end ConcurrentPQ.Spray

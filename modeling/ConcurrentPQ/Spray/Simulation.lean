import ConcurrentPQ.Spray.Invariant

/-!
# The SprayList simulates a set

The live keys change in three ways only: the level-0 CAS of a `fraser_insert` adds its key, the
fetch-and-increment that deletes a node removes that node's key, and everything else leaves them
alone.  Every call returns what its own accesses did.

* `Stage`, `stage` — how far a call has come, as the abstract set sees it;
* `stage_step` — one access takes a call from one stage to the next, with the event it shows;
* `Answered`, `Told` — what the steps of a call so far say about its answer;
* `set_simulation` — the simulation, over every run.
-/

namespace ConcurrentPQ.Spray

open ConcurrentPQ.Transition ConcurrentPQ.Segment ConcurrentPQ.KeySet

/-! ### Stages of a call -/

/-- How far a call has come.  `adding` and `taking` have changed nothing yet; `present` has met its
key; `hunting` has chosen the key it removes; `took`, `holding` and `removed` have removed one. -/
inductive Stage where
  | away
  | adding (v : ℕ)
  | present (v : ℕ)
  | added (v : ℕ)
  | removing (val : ℕ) (remove_succ : Bool)
  | hunting (k : ℕ)
  | removed (k : ℕ)
  | taking
  | missed
  | took (n : NodeId)
  | holding (v : ℕ)
  | answer (a : Answer)

/-- The stage `fraser_search` was called in. -/
def siteStage (f : Frame) : Site → Stage
  | .insert => .adding f.val
  | .upper _ => .added f.val
  | .remove rs => .removing f.val rs
  | .cleanup a => .answer a

/-- The stage `mark_node_ptrs` was called in. -/
def markStage : MarkSite → Stage
  | .duplicate f => .adding f.val
  | .remove v => .removed v
  | .naive v | .spray v => .holding v

/-- The stage of a program counter. -/
def stage : Pc → Stage
  | .insAlloc v _ => .adding v
  | .insVal f | .insTop f | .insDel f | .insDup f | .insDupDel f | .insTest f _ | .insLink f _
  | .insCas f => .adding f.val
  | .insFree f => .present f.val
  | .upTest f _ | .upNew f _ | .upSet f _ _ | .upVal f _ | .upCas f _ _ => .added f.val
  | .seLeft f site _ _ | .seNext f site _ _ _ _ | .seVal f site _ _ _ _ _
  | .seCas f site _ _ _ _ => siteStage f site
  | .mkTop site _ | .mkNext site _ _ | .mkCas site _ _ _ => markStage site
  | .rmNext f => .removing f.val true
  | .rmVal f rs _ => .removing f.val rs
  | .rmDel f | .rmInc f => .hunting f.val
  | .nvNext _ | .nvEnd _ | .nvDel _ | .nvInc _ => .taking
  | .nvTail first => if first = tail then .missed else .took first
  | .nvVal first => .took first
  | .nvPeek _ v | .nvTest _ v _ | .nvKey _ v => .holding v
  | .spSeed _ | .spDraw _ | .spTest _ | .spMove _ | .spDel _ | .spEnd _ | .spSkip _
  | .spSkipEnd _ | .spSkipMove _ | .spTail _ | .spCheck _ | .spInc _ => .taking
  | .spVal cur => .took cur
  | .ret a => .answer a
  | _ => .away

/-- One access of a call takes it from one stage to the next. -/
inductive StageStep (m : Mem) : Stage → Event → Stage → Prop
  | stay {a : Stage} : StageStep m a .internal a
  | stop {a : Stage} : StageStep m a .internal .away
  | link {v : ℕ} : StageStep m (.adding v) (.insertCas v) (.added v)
  | duplicate {v : ℕ} : v ∈ liveKeys m → StageStep m (.adding v) .internal (.present v)
  | leave {v : ℕ} : StageStep m (.present v) .internal (.answer (.inserted false))
  | finish {v : ℕ} : StageStep m (.added v) .internal (.answer (.inserted true))
  | choose {v k : ℕ} {rs : Bool} : (rs = false → k = v) →
      StageStep m (.removing v rs) .internal (.hunting k)
  | absent {v : ℕ} {rs : Bool} :
      StageStep m (.removing v rs) .internal (.answer (.removed false))
  | lose {k : ℕ} : StageStep m (.hunting k) .internal (.answer (.removed false))
  | remove {n : NodeId} : StageStep m (.hunting (m n).val) (.deleteInc n) (.removed (m n).val)
  | clean {k : ℕ} : StageStep m (.removed k) .internal (.answer (.removed true))
  | fail : StageStep m .taking .internal (.answer (.deleted false none))
  | miss : StageStep m .taking .internal .missed
  | empty : StageStep m .missed .internal (.answer (.deleted true none))
  | take {n : NodeId} : n ≠ tail → StageStep m .taking (.deleteInc n) (.took n)
  | hold {n : NodeId} : StageStep m (.took n) .internal (.holding (m n).val)
  | give {v : ℕ} : StageStep m (.holding v) .internal (.answer (.deleted true (some v)))

section StageStep

variable {m : Mem} {brk : NodeId} {P : Set NodeId} {f : Frame} {any : Bool} {s : Shared}
  {seed : ℕ} {pc : Pc}

theorem stage_seDown (site : Site) (left right : NodeId) (i : ℕ) :
    stage (seDown f site left right i) = siteStage f site := by
  unfold seDown
  split
  · cases site with
    | remove rs => cases rs <;> rfl
    | _ => rfl
  · cases site <;> rfl

theorem stage_marked (site : MarkSite) (n : NodeId) (m : Mem) :
    StageStep m (markStage site) .internal (stage (marked n site)) := by
  cases site with
  | duplicate f => exact .stay
  | remove v => exact .clean
  | naive v => exact .stay
  | spray v => exact .give

theorem stage_mkDown (site : MarkSite) (n : NodeId) (i : ℕ) (m : Mem) :
    StageStep m (markStage site) .internal (stage (mkDown site n i)) := by
  unfold mkDown
  split
  · exact stage_marked site n m
  · exact .stay

theorem stage_spStep (w : Walk) : stage (spStep w) = .taking := by
  unfold spStep
  split <;> rfl

theorem incEvent_of_ne {n : NodeId} (h : (m n).deleted ≠ 0) : incEvent m n = .internal :=
  if_neg fun hd => h hd.1

theorem incEvent_inner {n : NodeId} (hn : Inner P n) (h : (m n).deleted = 0) :
    incEvent m n = .deleteInc n := if_pos ⟨h, hn.ne_head, hn.ne_tail⟩

variable (any s seed pc) in
/-- An access either is carried out or stops the thread. -/
theorem access_pc : (access any ⟨s, seed, pc⟩).pc = (exec any s seed (code pc)).2.2 ∨
    (access any ⟨s, seed, pc⟩).pc = .crashed ∨ (access any ⟨s, seed, pc⟩).pc = .wild := by
  unfold access
  dsimp only
  split
  · exact Or.inr (Or.inr rfl)
  · split
    · exact Or.inr (Or.inl rfl)
    · split
      · exact Or.inr (Or.inr rfl)
      · exact Or.inl rfl

/-- An access that is carried out, as the abstract set sees it. -/
theorem stage_exec (hs : Shape s.mem s.brk P) (h : Ok s.mem s.brk P pc) (hbusy : pc.busy = true) :
    StageStep s.mem (stage pc) (event s.mem pc) (stage (exec any s seed (code pc)).2.2) := by
  cases pc with
  | idle | crashed | wild | ret a => cases hbusy
  | insAlloc v lvl => exact .stay
  | insVal f | insTop f | insDel f => exact .stay
  | seLeft f site left i =>
    dsimp only [code, exec]
    split <;> exact .stay
  | seNext f site left ln r i =>
    dsimp only [code, exec]
    split <;> exact .stay
  | seVal f site left ln r rn i =>
    dsimp only [code, exec]
    split
    · split
      · exact .stay
      · rw [stage_seDown]
        exact .stay
    · exact .stay
  | seCas f site left ln r i =>
    have : stage (exec any s seed (code (.seCas f site left ln r i))).2.2 =
        siteStage f site := by
      dsimp only [code, exec]
      split
      · exact stage_seDown ..
      · rfl
    rw [this]
    exact .stay
  | insDup f =>
    dsimp only [code, exec]
    split <;> exact .stay
  | insDupDel f =>
    obtain ⟨hn, hf, ht, hv⟩ := h
    have hsucc := (hf 0 (by decide)).succ
    dsimp only [code, exec]
    split
    · exact .stay
    · rename_i hd
      refine .duplicate (hs.mem_liveKeys.mpr ⟨f.succs 0, ⟨hsucc.mem, hsucc.ne_head, ht, ?_⟩, hv⟩)
      exact not_not.mp hd
  | insFree f => exact .leave
  | insTest f i =>
    dsimp only [code, exec]
    split <;> exact .stay
  | insLink f i => exact .stay
  | insCas f =>
    have hmatch : (Expected.word (ref (f.succs 0))).matches ((s.mem (f.preds 0)).next 0) =
        decide ((s.mem (f.preds 0)).next 0 = ref (f.succs 0)) := rfl
    dsimp only [code, exec, event]
    by_cases hhit : (s.mem (f.preds 0)).next 0 = ref (f.succs 0)
    · rw [if_pos hhit, if_pos (hmatch.trans (decide_eq_true hhit))]
      exact .link
    · rw [if_neg hhit, if_neg fun hm => hhit (of_decide_eq_true (hmatch.symm.trans hm))]
      exact .stay
  | upTest f i =>
    dsimp only [code, exec]
    split
    · exact .stay
    · exact .finish
  | upNew f i =>
    dsimp only [code, exec]
    split
    · exact .finish
    · split <;> exact .stay
  | upSet f i w =>
    dsimp only [code, exec]
    split <;> exact .stay
  | upVal f i =>
    dsimp only [code, exec]
    split <;> exact .stay
  | upCas f i e =>
    dsimp only [code, exec]
    split <;> exact .stay
  | mkTop site n =>
    dsimp only [code, exec]
    split
    · exact stage_marked site n _
    · exact .stay
  | mkNext site n i =>
    dsimp only [code, exec]
    split
    · exact stage_mkDown site n i _
    · exact .stay
  | mkCas site n i w =>
    dsimp only [code, exec]
    split
    · exact stage_mkDown site n i _
    · exact .stay
  | rmNext f => exact .stay
  | rmVal f rs result =>
    dsimp only [code, exec]
    split
    · rename_i hrs
      split
      · refine .choose fun hf => ?_
        rw [hf] at hrs
        cases hrs
      · exact .absent
    · split
      · exact .choose fun _ => rfl
      · exact .absent
  | rmDel f =>
    dsimp only [code, exec]
    split
    · exact .lose
    · exact .stay
  | rmInc f =>
    obtain ⟨hn, -, hv⟩ := h
    dsimp only [code, exec, event]
    split
    · rename_i hd
      rw [incEvent_inner hn hd]
      show StageStep s.mem (.hunting f.val) _ (.removed f.val)
      rw [← hv]
      exact .remove
    · rename_i hd
      rw [incEvent_of_ne hd]
      exact .lose
  | nvNext n => exact .stay
  | nvEnd n =>
    dsimp only [code, exec]
    split <;> exact .stay
  | nvDel n =>
    dsimp only [code, exec]
    split <;> exact .stay
  | nvInc n =>
    dsimp only [code, exec, event]
    split
    · rename_i hd
      rw [incEvent_of_ne hd]
      exact .stay
    · rename_i hd
      by_cases ht : n = tail
      · subst ht
        have : incEvent s.mem tail = .internal := if_neg fun hc => hc.2.2 rfl
        rw [this]
        exact .miss
      · rw [incEvent_inner ⟨h.1, h.2, ht⟩ (not_not.mp hd)]
        have : stage (.nvTail n) = .took n := if_neg ht
        rw [this]
        exact .take ht
  | nvTail n =>
    have hnull := hs.next_eq_null h.1 (hs.top _ h.1).1
    dsimp only [code, exec, stage]
    by_cases ht : n = tail
    · rw [if_pos ht, if_neg (not_not.mpr (hnull.mpr ht))]
      exact .empty
    · rw [if_neg ht, if_pos fun he => ht (hnull.mp he)]
      exact .stay
  | nvVal n => exact .hold
  | nvPeek n v => exact .stay
  | nvTest n v w =>
    dsimp only [code, exec]
    generalize (if w.mark = true then any else decide ((s.mem w.ptr).deleted ≠ 0)) = b
    cases b with
    | true => exact .give
    | false => exact .stay
  | nvKey n v => exact .give
  | spSeed n =>
    dsimp only [code, exec]
    split <;> exact .stay
  | spDraw w =>
    dsimp only [code, exec]
    rw [stage_spStep]
    exact .stay
  | spTest w =>
    dsimp only [code, exec]
    split <;> exact .stay
  | spMove w => exact .stay
  | spDel w =>
    dsimp only [code, exec]
    rw [stage_spStep]
    exact .stay
  | spEnd w =>
    dsimp only [code, exec]
    split
    · exact .fail
    · split
      · split
        · exact .fail
        · exact .stay
      · exact .stay
  | spSkip cur =>
    dsimp only [code, exec]
    split <;> exact .stay
  | spSkipEnd cur =>
    dsimp only [code, exec]
    split <;> exact .stay
  | spSkipMove cur => exact .stay
  | spTail cur =>
    dsimp only [code, exec]
    split
    · exact .fail
    · exact .stay
  | spCheck cur =>
    dsimp only [code, exec]
    split
    · exact .stay
    · exact .fail
  | spInc cur =>
    dsimp only [code, exec, event]
    split
    · rename_i hd
      rw [incEvent_of_ne hd]
      exact .fail
    · rename_i hd
      rw [incEvent_inner h (not_not.mp hd)]
      exact .take h.ne_tail
  | spVal cur =>
    exact .hold
  | sqTop _ _ | sqNext _ _ _ | sqVal _ _ _ _ | sqSucc _ _ _ | sqLast _ _ | sqCmp _ _ | sqAlloc _
  | sqNew _ | sqNewTop _ | sqNewDel _ | sqStore _ _ | sqLink _ _ => exact h.elim

/-- An access that runs into a null pointer changes nothing. -/
theorem event_of_crash (hs : Shape s.mem s.brk P) (h : Ok s.mem s.brk P pc)
    (hc : (access any ⟨s, seed, pc⟩).pc = .crashed) : event s.mem pc = .internal := by
  cases pc with
  | insCas f =>
    have hl := (h.2.1 0 (by decide)).pred.1
    by_cases hhit : (s.mem (f.preds 0)).next 0 = ref (f.succs 0)
    · rw [access_cas_hit rfl (hs.ne_null hl.mem) hl.lt hhit] at hc
      cases hc
    · exact if_neg hhit
  | rmInc f =>
    rw [access_fetchInc rfl (hs.ne_null h.1.mem)] at hc
    dsimp only at hc
    split at hc <;> cases hc
  | nvInc n =>
    rw [access_fetchInc rfl (hs.ne_null h.1)] at hc
    dsimp only at hc
    split at hc <;> cases hc
  | spInc n =>
    rw [access_fetchInc rfl (hs.ne_null h.mem)] at hc
    dsimp only at hc
    split at hc <;> cases hc
  | _ => rfl

variable (any seed) in
/-- **One access of a call**, as the abstract set sees it. -/
theorem stage_step (hs : Shape s.mem s.brk P) (h : Ok s.mem s.brk P pc) (hbusy : pc.busy = true) :
    StageStep s.mem (stage pc) (event s.mem pc) (stage (access any ⟨s, seed, pc⟩).pc) := by
  rcases access_pc any s seed pc with hc | hc | hc
  · rw [hc]
    exact stage_exec hs h hbusy
  · rw [event_of_crash hs h hc, hc]
    exact .stop
  · obtain ⟨P', s', seed', pc', hacc, hp⟩ := h.access hs hbusy any seed
    rw [hacc] at hc
    have hok := hp.ok
    rw [show pc' = .wild from hc] at hok
    exact hok.elim

end StageStep

/-! ### What a call did -/

/-- A call begins. -/
def Event.isCall : Event → Bool
  | .call _ => true
  | _ => false

/-- The changes thread `t` makes in a part of a run, the latest first. -/
def changes (t : Tid) (h : List (Entry State Tid Event)) : List (Change ℕ) :=
  h.filterMap fun x =>
    if x.who = t then
      match x.ev with
      | .insertCas _ | .deleteInc _ => some (change x)
      | _ => none
    else none

/-- Thread `t` called `op` in this part of a run. -/
def Asked (t : Tid) (h : List (Entry State Tid Event)) (op : Op) : Prop :=
  ∃ x ∈ h, x.who = t ∧ x.ev = .call op

/-- Thread `t` called one of the `delete_min` functions in this part of a run. -/
def AskedMin (t : Tid) (h : List (Entry State Tid Event)) : Prop :=
  ∃ op, Asked t h op ∧ (op = .naive_delete_min ∨ ∃ n, op = .spray_delete_min n)

/-- The answer a call gives, against the steps it made.  A `fraser_insert` returns 1 exactly when it
added its key, and 0 only if its key was live at some time during the call.  A `fraser_remove` returns
1 exactly when it removed a key: the one it was asked for, unless it removes a successor.  A
`delete_min` hands out a key exactly when it removed that key. -/
def Answered (t : Tid) (h : List (Entry State Tid Event)) : Answer → Prop
  | .inserted true => ∃ v lvl, Asked t h (.fraser_insert v lvl) ∧ changes t h = [.add v]
  | .inserted false => ∃ v lvl, Asked t h (.fraser_insert v lvl) ∧ changes t h = [] ∧
      ∃ x ∈ h, v ∈ liveKeys x.pre.sh.mem
  | .removed true => ∃ v rs k, Asked t h (.fraser_remove v rs) ∧ changes t h = [.remove k] ∧
      (rs = false → k = v)
  | .removed false => ∃ v rs, Asked t h (.fraser_remove v rs) ∧ changes t h = []
  | .deleted result (some v) => AskedMin t h ∧ changes t h = [.remove v] ∧ result = true
  | .deleted _ none => AskedMin t h ∧ changes t h = []

/-- What the steps of the current call of thread `t` say about its stage. -/
def Told (m : Mem) (t : Tid) (h : List (Entry State Tid Event)) : Stage → Prop
  | .away => True
  | .adding v => ∃ lvl, Asked t h (.fraser_insert v lvl) ∧ changes t h = []
  | .present v => Answered t h (.inserted false) ∧ ∃ lvl, Asked t h (.fraser_insert v lvl)
  | .added v => ∃ lvl, Asked t h (.fraser_insert v lvl) ∧ changes t h = [.add v]
  | .removing v rs => Asked t h (.fraser_remove v rs) ∧ changes t h = []
  | .hunting k => ∃ v rs, Asked t h (.fraser_remove v rs) ∧ changes t h = [] ∧ (rs = false → k = v)
  | .removed k => ∃ v rs, Asked t h (.fraser_remove v rs) ∧ changes t h = [.remove k] ∧
      (rs = false → k = v)
  | .taking | .missed => AskedMin t h ∧ changes t h = []
  | .took n => AskedMin t h ∧ changes t h = [.remove (m n).val]
  | .holding v => AskedMin t h ∧ changes t h = [.remove v]
  | .answer a => Answered t h a

section Told

variable {m m' : Mem} {t : Tid} {h : List (Entry State Tid Event)} {x : Entry State Tid Event}

theorem Asked.cons {op : Op} (ha : Asked t h op) : Asked t (x :: h) op :=
  let ⟨y, hy, hq⟩ := ha
  ⟨y, List.mem_cons_of_mem _ hy, hq⟩

theorem AskedMin.cons (ha : AskedMin t h) : AskedMin t (x :: h) :=
  let ⟨op, ho, hq⟩ := ha
  ⟨op, ho.cons, hq⟩

theorem changes_cons_of_ne (hx : x.who ≠ t) : changes t (x :: h) = changes t h := by
  rw [changes, List.filterMap_cons_none, changes]
  rw [if_neg hx]

theorem changes_cons_internal (hx : x.ev = .internal) : changes t (x :: h) = changes t h := by
  rw [changes, List.filterMap_cons_none, changes]
  simp [hx]

theorem changes_cons_insertCas {k : ℕ} (hw : x.who = t) (hx : x.ev = .insertCas k) :
    changes t (x :: h) = .add k :: changes t h := by
  rw [changes, List.filterMap_cons_some (b := .add k), changes]
  simp [hw, hx, change, Event.change]

theorem changes_cons_deleteInc {n : NodeId} (hw : x.who = t) (hx : x.ev = .deleteInc n) :
    changes t (x :: h) = .remove (x.pre.sh.mem n).val :: changes t h := by
  rw [changes, List.filterMap_cons_some (b := .remove (x.pre.sh.mem n).val), changes]
  simp [hw, hx, change, Event.change]

theorem Answered.congr (hc : changes t (x :: h) = changes t h) {a : Answer}
    (ha : Answered t h a) : Answered t (x :: h) a := by
  cases a with
  | inserted b =>
    cases b with
    | true =>
      obtain ⟨v, lvl, hk, hr⟩ := ha
      exact ⟨v, lvl, hk.cons, hc.trans hr⟩
    | false =>
      obtain ⟨v, lvl, hk, hr, y, hy, hv⟩ := ha
      exact ⟨v, lvl, hk.cons, hc.trans hr, y, List.mem_cons_of_mem _ hy, hv⟩
  | removed b =>
    cases b with
    | true =>
      obtain ⟨v, rs, k, hk, hr, he⟩ := ha
      exact ⟨v, rs, k, hk.cons, hc.trans hr, he⟩
    | false =>
      obtain ⟨v, rs, hk, hr⟩ := ha
      exact ⟨v, rs, hk.cons, hc.trans hr⟩
  | deleted b v =>
    cases v with
    | some v => exact ⟨ha.1.cons, hc.trans ha.2.1, ha.2.2⟩
    | none => exact ⟨ha.1.cons, hc.trans ha.2⟩

/-- A step that changes nothing on behalf of `t` keeps what is told. -/
theorem Told.congr (hc : changes t (x :: h) = changes t h) {a : Stage}
    (hv : ∀ n, a = .took n → (m' n).val = (m n).val) (ha : Told m t h a) : Told m' t (x :: h) a := by
  cases a with
  | away => trivial
  | adding v | added v =>
    obtain ⟨lvl, hk, hr⟩ := ha
    exact ⟨lvl, hk.cons, hc.trans hr⟩
  | present v =>
    obtain ⟨hr, lvl, hk⟩ := ha
    exact ⟨hr.congr hc, lvl, hk.cons⟩
  | removing v rs => exact ⟨ha.1.cons, hc.trans ha.2⟩
  | hunting k | removed k =>
    obtain ⟨v, rs, hk, hr, he⟩ := ha
    exact ⟨v, rs, hk.cons, hc.trans hr, he⟩
  | taking | missed | holding v => exact ⟨ha.1.cons, hc.trans ha.2⟩
  | took n => exact ⟨ha.1.cons, by rw [hv n rfl, hc]; exact ha.2⟩
  | answer a => exact Answered.congr hc ha

/-- The thread's own access. -/
theorem Told.step {a b : Stage} (hw : x.who = t) (hmem : x.pre.sh.mem = m)
    (hv : ∀ n, b = .took n → (m' n).val = (m n).val) (hst : StageStep m a x.ev b)
    (ha : Told m t h a) : Told m' t (x :: h) b := by
  generalize he : x.ev = e at hst
  have quiet : e = .internal → changes t (x :: h) = changes t h := fun hq =>
    changes_cons_internal (he.trans hq)
  cases hst with
  | stay => exact Told.congr (quiet rfl) hv ha
  | stop => trivial
  | link =>
    obtain ⟨lvl, hk, hr⟩ := ha
    exact ⟨lvl, hk.cons, by rw [changes_cons_insertCas hw he, hr]⟩
  | @duplicate v hlive =>
    obtain ⟨lvl, hk, hr⟩ := ha
    refine ⟨⟨v, lvl, hk.cons, (quiet rfl).trans hr, x, List.mem_cons_self, ?_⟩, lvl, hk.cons⟩
    rw [hmem]
    exact hlive
  | leave => exact Answered.congr (quiet rfl) ha.1
  | finish =>
    obtain ⟨lvl, hk, hr⟩ := ha
    exact ⟨_, lvl, hk.cons, (quiet rfl).trans hr⟩
  | choose hrs => exact ⟨_, _, ha.1.cons, (quiet rfl).trans ha.2, hrs⟩
  | absent => exact ⟨_, _, ha.1.cons, (quiet rfl).trans ha.2⟩
  | lose =>
    obtain ⟨v, rs, hk, hr, -⟩ := ha
    exact ⟨v, rs, hk.cons, (quiet rfl).trans hr⟩
  | remove =>
    obtain ⟨v, rs, hk, hr, hrs⟩ := ha
    exact ⟨v, rs, hk.cons, by rw [changes_cons_deleteInc hw he, hr, hmem], hrs⟩
  | clean =>
    obtain ⟨v, rs, hk, hr, hrs⟩ := ha
    exact ⟨v, rs, _, hk.cons, (quiet rfl).trans hr, hrs⟩
  | fail | miss | empty => exact ⟨ha.1.cons, (quiet rfl).trans ha.2⟩
  | @take n _ =>
    refine ⟨ha.1.cons, ?_⟩
    rw [changes_cons_deleteInc hw he, ha.2, hmem, hv n rfl]
  | hold => exact ⟨ha.1.cons, (quiet rfl).trans ha.2⟩
  | give => exact ⟨ha.1.cons, (quiet rfl).trans ha.2, rfl⟩

end Told

/-! ### Runs -/

section Runs

variable {s s' : State} {t : Tid} {e : Event} {tr : List (Entry State Tid Event)}

/-- The nodes a thread has taken are in the list. -/
theorem Ok.took_mem {m : Mem} {brk : NodeId} {P : Set NodeId} {pc : Pc} (h : Ok m brk P pc)
    {n : NodeId} (hn : stage pc = .took n) : n ∈ P := by
  cases pc with
  | nvTail first =>
    dsimp only [stage] at hn
    split at hn
    · cases hn
    · obtain rfl : first = n := Stage.took.inj hn
      exact h.1
  | nvVal first =>
    obtain rfl : first = n := Stage.took.inj hn
    exact h.inner.mem
  | spVal cur =>
    obtain rfl : cur = n := Stage.took.inj hn
    exact h.inner.mem
  | seLeft f site left i | seNext f site left ln r i | seVal f site left ln r rn i
  | seCas f site left ln r i => cases site <;> cases hn
  | mkTop site n | mkNext site n i | mkCas site n i w => cases site <;> cases hn
  | _ => cases hn

/-- What every reached state knows about the calls in progress. -/
def Calls (tr : List (Entry State Tid Event)) (s : State) : Prop :=
  ∃ P, Inv P s ∧ ∀ t, Told s.sh.mem t (since Event.isCall t tr) (stage (s.thr t))

theorem isCall_event (m : Mem) (pc : Pc) : (event m pc).isCall = false := by
  unfold event
  split
  · split <;> rfl
  all_goals first | rfl | (unfold incEvent; split <;> rfl)

/-- An access shows no return. -/
theorem event_ne_ret (m : Mem) (pc : Pc) (a : Answer) : event m pc ≠ .ret a := by
  intro h
  unfold event at h
  split at h
  · split at h <;> cases h
  all_goals first | cases h | (unfold incEvent at h; split at h <;> cases h)

/-- **The step lemma for calls.** -/
theorem Calls.step (h : Calls tr s) (hstep : Step s t e s') :
    Calls (⟨s, t, e, s'⟩ :: tr) s' := by
  obtain ⟨P, hinv, htold⟩ := h
  obtain ⟨P', hinv', heff⟩ := hinv.step hstep
  refine ⟨P', hinv', fun u => ?_⟩
  have hval : ∀ {n}, n ∈ P → (s'.sh.mem n).val = (s.sh.mem n).val := fun hn =>
    heff.evolve.val hn
  rcases eq_or_ne u t with rfl | hu
  · cases hstep with
    | call hidle hop =>
      rename_i op
      have hcall : u = u ∧ (Event.call op).isCall = true := ⟨rfl, rfl⟩
      rw [since_cons_of_call hcall]
      dsimp only
      rw [Function.update_self]
      have hask : ∀ s', Asked u [⟨s, u, .call op, s'⟩] op := fun _ =>
        ⟨_, List.mem_cons_self, rfl, rfl⟩
      cases op with
      | fraser_insert v lvl => exact ⟨lvl, hask _, by simp [changes]⟩
      | fraser_remove v rs => exact ⟨hask _, by simp [changes]⟩
      | naive_delete_min => exact ⟨⟨_, hask _, Or.inl rfl⟩, by simp [changes]⟩
      | spray_delete_min n => exact ⟨⟨_, hask _, Or.inr ⟨n, rfl⟩⟩, by simp [changes]⟩
      | sl_seq_add v lvl => exact hop.elim
    | access any hbusy =>
      have hcall : ¬(u = u ∧ (event s.sh.mem (s.thr u)).isCall = true) := by
        rw [isCall_event]
        simp
      rw [since_cons_of_not hcall]
      have hok := hinv.ok u
      have hst := stage_step any (s.seed u) hinv.shape hok hbusy
      have hthr : (advance any s u).thr u = (access any ⟨s.sh, s.seed u, s.thr u⟩).pc :=
        Function.update_self ..
      rw [hthr]
      refine Told.step (m := s.sh.mem) rfl rfl (fun n hn => ?_) hst (htold u)
      have hmem : n ∈ P := by
        generalize hb : stage (access any ⟨s.sh, s.seed u, s.thr u⟩).pc = b at hst hn
        generalize ha : stage (s.thr u) = a at hst
        generalize hev : event s.sh.mem (s.thr u) = ev at hst
        have hef := heff.effect
        rw [hev] at hef
        subst hn
        cases hst with
        | stay => exact hok.took_mem ha
        | take _ => exact hef.2.1.mem
      exact hval hmem
    | ret hret =>
      rw [since_cons_of_not (by simp [Event.isCall])]
      dsimp only
      rw [Function.update_self]
      trivial
  · have hne : ¬(t = u ∧ e.isCall = true) := fun hc => hu hc.1.symm
    rw [since_cons_of_not hne, heff.frame u hu]
    exact Told.congr (changes_cons_of_ne (Ne.symm hu))
      (fun n hn => hval ((hinv.ok u).took_mem hn)) (htold u)

theorem Calls.of_run (hrun : Run sprayList tr s) : Calls tr s :=
  hrun.history (fun _ h => ⟨_, .initial h, fun t => by rw [h.2 t]; trivial⟩)
    fun _ _ _ _ _ _ h hstep => h.step hstep

/-- **The SprayList simulates a set.**  Along every run, each step is a step of a set on the live
keys, and every call returns what its steps did. -/
theorem set_simulation {tr : List (Entry State Tid Event)} {s : State}
    (hrun : Run sprayList tr s) :
    (∀ x ∈ tr, SetStep (liveKeys x.pre.sh.mem) (change x) (liveKeys x.post.sh.mem)) ∧
    ∀ x tr' a, x :: tr' <:+ tr → x.ev = .ret a →
      Answered x.who (since Event.isCall x.who tr') a := by
  refine ⟨hrun.forall_entry fun tr s t e s' hr hst => ?_, ?_⟩
  · obtain ⟨P, h⟩ := Inv.of_run hr
    exact h.setStep hst
  · refine hrun.history (I := fun tr _ => ∀ x tr' a, x :: tr' <:+ tr → x.ev = .ret a →
      Answered x.who (since Event.isCall x.who tr') a) ?_ ?_
    · intro _ _ x tr' a hsuf
      exact absurd (List.suffix_nil.mp hsuf) (List.cons_ne_nil _ _)
    · intro tr s t e s' hr ih hst x tr' a hsuf ha
      rcases List.suffix_cons_iff.mp hsuf with heq | hsuf
      · obtain ⟨rfl, rfl⟩ := List.cons.inj heq
        obtain ⟨P, -, htold⟩ := Calls.of_run hr
        have htold := htold t
        have hpc : s.thr t = .ret a := by
          cases hst with
          | call hidle hop => cases ha
          | access any hbusy => exact absurd ha (event_ne_ret _ _ _)
          | ret hret => rw [hret, Event.ret.inj ha]
        rw [hpc] at htold
        exact htold
      · exact ih x tr' a hsuf ha

/-! ### A run -/

/-- A move of a schedule: a thread makes a call, or takes its next step.  A read through a marked
pointer answers `true`. -/
inductive Move where
  | call (t : Tid) (op : Op)
  | run (t : Tid)

instance : DecidablePred Admissible
  | .fraser_insert v lvl => inferInstanceAs (Decidable (v < INT_MAX ∧ 1 ≤ lvl ∧ lvl ≤ levelmax))
  | .fraser_remove v _ => inferInstanceAs (Decidable (v < INT_MAX))
  | .naive_delete_min => inferInstanceAs (Decidable True)
  | .spray_delete_min n => inferInstanceAs (Decidable (0 < n ∧ n < 1 <<< 14))
  | .sl_seq_add _ _ => inferInstanceAs (Decidable False)

/-- Carry out a move, if it is possible. -/
def move (s : State) : Move → Option (Tid × Event × State)
  | .call t op =>
    match s.thr t with
    | .idle =>
      if Admissible op then
        some (t, .call op, { s with thr := Function.update s.thr t (start op) })
      else none
    | _ => none
  | .run t =>
    match s.thr t with
    | .ret a => some (t, .ret a, { s with thr := Function.update s.thr t .idle })
    | pc => if pc.busy = true then some (t, event s.sh.mem pc, advance true s t) else none

theorem step_of_move {a : Move} (h : move s a = some (t, e, s')) : Step s t e s' := by
  cases a with
  | call u op =>
    rw [move] at h
    split at h
    · split at h
      · obtain ⟨rfl, rfl, rfl⟩ := h
        exact .call ‹_› ‹_›
      · cases h
    · cases h
  | run u =>
    rw [move] at h
    split at h
    · obtain ⟨rfl, rfl, rfl⟩ := h
      exact .ret ‹_›
    · split at h
      · obtain ⟨rfl, rfl, rfl⟩ := h
        exact .access true ‹_›
      · cases h

/-- A new list. -/
def fresh : Shared where
  mem n := if n = head then ⟨0, levelmax, 0, fun _ => ref tail⟩
    else ⟨INT_MAX, levelmax, 0, fun _ => ref NULL⟩
  brk := firstNode

theorem fresh_fresh : Fresh fresh where
  head_top := rfl
  tail_top := rfl
  tail_val := rfl
  head_deleted := rfl
  tail_deleted := rfl
  head_next _ _ := rfl
  tail_next _ _ := rfl
  brk := le_rfl

/-- A thread takes a number of steps, after a call. -/
def turn (t : Tid) (op : Op) (n : ℕ) : List Move := .call t op :: List.replicate n (.run t)

/-- What holds of the outcome of a schedule from a new list holds at the end of some run. -/
theorem exists_run_of_schedule (as : List Move)
    (p : List (Entry State Tid Event) × State → Bool)
    (h : (execute move as ([], ⟨fresh, fun _ => 1, fun _ => .idle⟩)).any p = true) :
    ∃ tr s, Run sprayList tr s ∧ p (tr, s) = true := by
  rw [Option.any_eq_true] at h
  obtain ⟨⟨tr, s⟩, hc, hp⟩ := h
  exact ⟨tr, s, .execute (fun _ _ _ _ _ => step_of_move) (.start ⟨fresh_fresh, fun _ => rfl⟩) hc, hp⟩

/-- One thread inserts a key, another takes it. -/
theorem set_simulation_one : ∃ tr s, Run sprayList tr s ∧
    (∃ x ∈ tr, x.ev = .ret (.deleted true (some 5))) ∧
    (∀ x ∈ tr, SetStep (liveKeys x.pre.sh.mem) (change x) (liveKeys x.post.sh.mem)) ∧
    ∀ x tr' a, x :: tr' <:+ tr → x.ev = .ret a →
      Answered x.who (since Event.isCall x.who tr') a := by
  obtain ⟨tr, s, hrun, hc⟩ := exists_run_of_schedule
    (turn 0 (.fraser_insert 5 2) 62 ++ turn 1 .naive_delete_min 14)
    (fun c => c.1.any fun x => decide (x.ev = .ret (.deleted true (some 5)))) (by decide +kernel)
  simp only [List.any_eq_true, decide_eq_true_eq] at hc
  exact ⟨tr, s, hrun, hc, set_simulation hrun⟩

end Runs

end ConcurrentPQ.Spray

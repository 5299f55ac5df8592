import ConcurrentPQ.Lib.KeySet
import ConcurrentPQ.Linden.Invariant

/-!
# The Linden queue simulates a priority queue over sets

The live set changes in three ways only: an `insert`'s level-0 CAS adds its key, the fetch-and-or of
a `deletemin` removes the least key, and everything else leaves it alone.  Every call returns what
its own accesses did.

* `Stage`, `stage` — how far a call has come, as the abstract queue sees it;
* `stage_step` — one access takes a call from one stage to the next, with the event it shows;
* `Answered`, `Told` — what the steps of a call so far say about its answer;
* `set_queue_simulation` — the simulation, over every run.
-/

namespace ConcurrentPQ.Linden

open ConcurrentPQ.Transition ConcurrentPQ.Segment ConcurrentPQ.KeySet

/-! ### Stages of a call -/

/-- How far a call has come. -/
inductive Stage where
  | away
  | adding (k lvl : ℕ)
  | present (k lvl : ℕ)
  | added (k lvl : ℕ)
  | taking
  | took (n : NodeId)
  | holding (v : ℕ)
  | answer (v : Option ℕ)

/-- The stage `locate_preds` was called in. -/
def siteStage (f : Frame) : Site → Stage
  | .retry => .adding f.k f.lvl
  | .upper _ => .added f.k f.lvl

/-- The stage of a program counter. -/
def stage : Pc → Stage
  | .idle | .crashed => .away
  | .insAlloc k _ lvl => .adding k lvl
  | .insLevel f | .insInserting f | .insClear f | .insKey f | .insVal f
  | .dupKey f | .dupMark f | .dupPtr f | .link0 f | .cas0 f => .adding f.k f.lvl
  | .locNext f site _ _ | .locKey f site _ _ _ _ | .locMark f site _ _ _ _ => siteStage f site
  | .dupClear f | .dupFree f => .present f.k f.lvl
  | .upLevel f _ | .upNew f _ | .upSucc f _ | .upStore f _ | .upCas f _ | .finish f =>
      .added f.k f.lvl
  | .delObs | .delLoad _ | .delInserting _ | .delFao _ => .taking
  | .delVal d => .took d.x
  | .delCheck d | .delSwing d | .rsHead d _ _ | .rsCur d _ _ _ | .rsTest d _ _ _ _
  | .rsWalk d _ _ _ _ | .rsStep d _ _ _ | .rsCas d _ _ _ _ | .rcLoad d _ | .rcFree d _ _ =>
      .holding d.v
  | .ret v => .answer v

/-- An event at which no call makes progress. -/
def Event.Quiet : Event → Prop
  | .internal | .freed _ => True
  | _ => False

/-- One access of a call takes it from one stage to the next. -/
inductive StageStep (m : Mem) : Stage → Event → Stage → Prop
  | stay {a : Stage} {e : Event} : e.Quiet → StageStep m a e a
  | link {k lvl : ℕ} : StageStep m (.adding k lvl) (.insertCas k) (.added k lvl)
  | duplicate {k lvl : ℕ} : StageStep m (.adding k lvl) (.giveUp k) (.present k lvl)
  | leave {k lvl : ℕ} : StageStep m (.present k lvl) .internal (.answer none)
  | finish {k lvl : ℕ} : StageStep m (.added k lvl) .internal (.answer none)
  | empty : liveKeys m = ∅ → StageStep m .taking .internal (.answer (some 0))
  | take {n : NodeId} : StageStep m .taking (.deleteFao n) (.took n)
  | hold {n : NodeId} : 0 < (m n).k → StageStep m (.took n) .internal (.holding (m n).k)
  | give {n : NodeId} : 0 < (m n).k → StageStep m (.took n) .internal (.answer (some (m n).k))
  | done {v : ℕ} {e : Event} : e.Quiet → StageStep m (.holding v) e (.answer (some v))
  | ret {v : Option ℕ} : StageStep m (.answer v) (.ret v) .away

section StageStep

variable {m : Mem} {brk : NodeId} {G : Ghost} {f : Frame} {d : DelFrame}

@[simp] theorem stage_locate (site : Site) : stage (locate f site) = siteStage f site := by
  cases site <;> rfl

@[simp] theorem stage_locBody (site : Site) (i : ℕ) (x_next : NodeId) (b : Bool) :
    stage (locBody f site i x_next b) = siteStage f site := by
  unfold locBody
  split <;> cases site <;> rfl

theorem stage_located (site : Site) : stage (located f site) = siteStage f site := by
  cases site with
  | retry => rfl
  | upper i => rw [located]; split <;> rfl

@[simp] theorem stage_locDown (site : Site) (x : NodeId) (i : ℕ) (x_next : NodeId) :
    stage (locDown f site x i x_next) = siteStage f site := by
  unfold locDown
  split
  · rw [stage_located]; cases site <;> rfl
  · cases site <;> rfl

theorem stage_delLoop (hs : Shape m brk G) {nxt : Ref} (hm : nxt.mark = true)
    (hf : Follows m G d nxt) : stage (delLoop d nxt) = .taking := by
  unfold delLoop
  rw [if_pos ⟨hs.ne_null (G.gone_subset (hf hm).1.1), hm⟩]
  rfl

theorem stage_delSkip (hs : Shape m brk G) (hf : Follows m G d d.nxt) :
    stage (delSkip d) = .taking := by
  unfold delSkip
  split
  · rename_i hm; exact stage_delLoop hs hm hf
  · rfl

theorem stage_rcTest (cur : NodeId) :
    stage (rcTest d cur) = .holding d.v ∨ stage (rcTest d cur) = .answer (some d.v) := by
  unfold rcTest
  split
  · exact Or.inl rfl
  · exact Or.inr rfl

theorem stage_rsDown (i : ℕ) (pred : Ref) :
    stage (rsDown d i pred) = .holding d.v ∨ stage (rsDown d i pred) = .answer (some d.v) := by
  unfold rsDown
  split
  · exact Or.inl rfl
  · exact stage_rcTest _

theorem StageStep.of_holding {e : Event} (he : e.Quiet) {v : ℕ} {a : Stage}
    (ha : a = .holding v ∨ a = .answer (some v)) : StageStep m (.holding v) e a := by
  rcases ha with rfl | rfl
  · exact .stay he
  · exact .done he

/-- A traversal that meets the tail has found no live node. -/
theorem Shape.live_nil (hs : Shape m brk G) {x : NodeId} (hx : x ∈ G.gone)
    (ht : succ0 m x = tail) : G.live = [] := by
  have hm : ((m x).next 0).mark = false := by
    by_contra hm
    have hd := hs.dead_of_mark (G.gone_subset hx) (by simpa using hm)
    rw [ht] at hd
    exact hs.tail_notMem (G.gone_subset hd.1)
  have hseg := hs.live_seg
  rw [← hs.eq_bound hx hm, ht] at hseg
  cases hl : G.live with
  | nil => rfl
  | cons y l =>
    rw [hl] at hseg
    refine absurd (G.mem_order.mpr (Or.inr (Or.inr ?_))) hs.tail_notMem
    rw [hl, hseg.1]
    exact List.mem_cons_self

theorem Shape.liveKeys_empty (hs : Shape m brk G) (hl : G.live = []) : liveKeys m = ∅ := by
  ext k
  rw [hs.mem_liveKeys, hl]
  simp

end StageStep

/-- **One access of a call**, as the abstract queue sees it. -/
theorem stage_step (max_offset : ℤ) {s : Shared} {G : Ghost} {pc : Pc}
    (hs : Shape s.mem s.brk G) (h : Ok s.mem s.brk G pc) (hbusy : pc.busy = true) :
    StageStep s.mem (stage pc) (event s.mem pc) (stage (exec s (code max_offset pc)).2) := by
  have quiet : Event.Quiet .internal := trivial
  cases pc with
  | idle => cases hbusy
  | crashed => cases hbusy
  | insAlloc k v lvl => exact .stay quiet
  | insLevel f | insInserting f | insClear f | insKey f => exact .stay quiet
  | insVal f => exact .stay quiet
  | locNext f site x i => exact .stay quiet
  | locKey f site x i x_next b =>
    have : stage (exec s (code max_offset (.locKey f site x i x_next b))).2 =
        siteStage f site := by
      dsimp only [code, exec]
      split
      · rw [stage_locBody]
      · rfl
    rw [this]
    exact .stay quiet
  | locMark f site x i x_next b =>
    have : stage (exec s (code max_offset (.locMark f site x i x_next b))).2 =
        siteStage f site := by
      dsimp only [code, exec]
      split
      · rw [stage_locBody]
      · rw [stage_locDown]
    rw [this]
    exact .stay quiet
  | dupKey f =>
    dsimp only [code, exec]
    split <;> exact .stay quiet
  | dupMark f =>
    dsimp only [code, exec]
    split <;> exact .stay quiet
  | dupPtr f =>
    dsimp only [code, exec, event]
    split
    · exact .duplicate
    · exact .stay quiet
  | dupClear f => exact .stay quiet
  | dupFree f => exact .leave
  | link0 f => exact .stay quiet
  | cas0 f =>
    dsimp only [code, exec, event]
    split
    · exact .link
    · exact .stay quiet
  | upLevel f i =>
    dsimp only [code, exec]
    split <;> exact .stay quiet
  | upNew f i =>
    dsimp only [code, exec]
    split <;> exact .stay quiet
  | upSucc f i =>
    dsimp only [code, exec]
    split <;> exact .stay quiet
  | upStore f i => exact .stay quiet
  | upCas f i =>
    dsimp only [code, exec]
    split <;> exact .stay quiet
  | finish f => exact .finish
  | delObs => exact .stay quiet
  | delLoad d =>
    have hf := Walk.follows hs h
    dsimp only [code, exec]
    split
    · rename_i ht
      exact .empty (hs.liveKeys_empty (hs.live_nil h.gone ht))
    · split
      · exact .stay quiet
      · rw [stage_delSkip hs (m := s.mem) hf]
        exact .stay quiet
  | delInserting d =>
    dsimp only [code, exec]
    have : ∀ d', d'.nxt = d.nxt → d'.x = d.x → d'.obs_head = d.obs_head →
        stage (delSkip d') = .taking := by
      intro d' h1 h2 h3
      refine stage_delSkip hs (m := s.mem) ?_
      intro hm
      rw [h1] at hm ⊢
      rw [h2, h3]
      exact h.2.2.2 hm
    rw [this _ (by split <;> rfl) (by split <;> rfl) (by split <;> rfl)]
    exact .stay quiet
  | delFao d =>
    dsimp only [code, exec, event]
    split
    · rename_i hm
      rw [stage_delLoop hs hm (h.1.follows hs)]
      exact .stay quiet
    · rename_i hm
      rw [delLoop, if_neg fun hc => hm hc.2]
      exact .take
  | delVal d =>
    have hord := G.gone_subset h.1.gone
    obtain ⟨hpos, -, hv⟩ := hs.keys d.x hord h.2
    dsimp only [code, exec]
    rw [hv]
    split
    · exact .give hpos
    · exact .hold hpos
  | delCheck d =>
    dsimp only [code, exec]
    split
    · exact .done quiet
    · exact .stay quiet
  | delSwing d =>
    dsimp only [code, exec]
    split
    · exact .stay quiet
    · exact .done quiet
  | rsHead d i pred => exact .stay quiet
  | rsCur d i pred hd => exact .stay quiet
  | rsTest d i pred hd cur =>
    dsimp only [code, exec]
    split
    · exact .stay quiet
    · exact .of_holding quiet (stage_rsDown ..)
  | rsWalk d i pred hd cur =>
    dsimp only [code, exec]
    split <;> exact .stay quiet
  | rsStep d i pred hd => exact .stay quiet
  | rsCas d i pred hd cur =>
    dsimp only [code, exec]
    split
    · exact .of_holding quiet (stage_rsDown ..)
    · exact .stay quiet
  | rcLoad d cur => exact .stay quiet
  | rcFree d cur nxt => exact .of_holding (show Event.Quiet (.freed cur) from trivial) (stage_rcTest _)
  | ret v => exact .ret

/-! ### The steps of a call and its answer -/

/-- An event that begins a call. -/
def Event.isCall : Event → Bool
  | .call _ => true
  | _ => false

/-- What a step does to the live set. -/
def change (x : Entry State Tid Event) : Change ℕ :=
  match x.ev with
  | .insertCas k => .add k
  | .deleteFao n => .remove (x.pre.sh.mem n).k
  | _ => .keep

/-- The changes thread `t` makes in a part of a run, the latest first. -/
def changes (t : Tid) (h : List (Entry State Tid Event)) : List (Change ℕ) :=
  h.filterMap fun x =>
    if x.who = t then
      match x.ev with
      | .insertCas _ | .deleteFao _ => some (change x)
      | _ => none
    else none

/-- Thread `t` called `op` in this part of a run. -/
def Asked (t : Tid) (h : List (Entry State Tid Event)) (op : Op) : Prop :=
  ∃ x ∈ h, x.who = t ∧ x.ev = .call op

/-- Some state in this part of a run has a live set with property `P`. -/
def Passes (h : List (Entry State Tid Event)) (P : Set ℕ → Prop) : Prop :=
  ∃ x ∈ h, P (liveKeys x.pre.sh.mem)

/-- The answer a call gives, against the steps it made: an `insert` adds its key once, or adds
nothing and its key was live at some time during the call; a `deletemin` that returns a key removed
that key and nothing else, and one that returns 0 removed nothing and the live set was empty at some
time during the call. -/
def Answered (t : Tid) (h : List (Entry State Tid Event)) : Option ℕ → Prop
  | none => ∃ k lvl, Asked t h (.insert k lvl) ∧
      (changes t h = [.add k] ∨ (changes t h = [] ∧ Passes h fun L => k ∈ L))
  | some v => Asked t h .delete_min ∧
      ((v ≠ 0 ∧ changes t h = [.remove v]) ∨ (v = 0 ∧ changes t h = [] ∧ Passes h fun L => L = ∅))

/-- What the steps of the current call of thread `t` say about its stage. -/
def Told (m : Mem) (t : Tid) (h : List (Entry State Tid Event)) : Stage → Prop
  | .away => True
  | .adding k lvl => Asked t h (.insert k lvl) ∧ changes t h = []
  | .present k lvl => Asked t h (.insert k lvl) ∧ changes t h = [] ∧ Passes h fun L => k ∈ L
  | .added k lvl => Asked t h (.insert k lvl) ∧ changes t h = [.add k]
  | .taking => Asked t h .delete_min ∧ changes t h = []
  | .took n => Asked t h .delete_min ∧ changes t h = [.remove (m n).k]
  | .holding v => Asked t h .delete_min ∧ v ≠ 0 ∧ changes t h = [.remove v]
  | .answer v => Answered t h v

section Told

variable {m m' : Mem} {t : Tid} {h : List (Entry State Tid Event)} {x : Entry State Tid Event}

theorem Asked.cons {op : Op} (ha : Asked t h op) : Asked t (x :: h) op :=
  let ⟨y, hy, hq⟩ := ha
  ⟨y, List.mem_cons_of_mem _ hy, hq⟩

theorem Passes.cons {P : Set ℕ → Prop} (ha : Passes h P) : Passes (x :: h) P :=
  let ⟨y, hy, hq⟩ := ha
  ⟨y, List.mem_cons_of_mem _ hy, hq⟩

theorem Passes.now {P : Set ℕ → Prop} (hp : P (liveKeys x.pre.sh.mem)) : Passes (x :: h) P :=
  ⟨x, List.mem_cons_self, hp⟩

theorem changes_cons_of_ne (hx : x.who ≠ t) : changes t (x :: h) = changes t h := by
  rw [changes, List.filterMap_cons_none, changes]
  rw [if_neg hx]

theorem changes_cons_quiet (hx : x.ev.Quiet) : changes t (x :: h) = changes t h := by
  have : x.ev = .internal ∨ ∃ n, x.ev = .freed n := by
    cases he : x.ev <;> rw [he] at hx <;> simp_all [Event.Quiet]
  rw [changes, List.filterMap_cons_none, changes]
  rcases this with he | ⟨n, he⟩ <;> simp [he]

theorem changes_cons_giveUp {k : ℕ} (hx : x.ev = .giveUp k) :
    changes t (x :: h) = changes t h := by
  rw [changes, List.filterMap_cons_none, changes]
  simp [hx]

theorem changes_cons_insertCas {k : ℕ} (hw : x.who = t) (hx : x.ev = .insertCas k) :
    changes t (x :: h) = .add k :: changes t h := by
  rw [changes, List.filterMap_cons_some (b := .add k), changes]
  simp [hw, hx, change]

theorem changes_cons_deleteFao {n : NodeId} (hw : x.who = t) (hx : x.ev = .deleteFao n) :
    changes t (x :: h) = .remove (x.pre.sh.mem n).k :: changes t h := by
  rw [changes, List.filterMap_cons_some (b := .remove (x.pre.sh.mem n).k), changes]
  simp [hw, hx, change]

theorem Answered.congr (hc : changes t (x :: h) = changes t h) {v : Option ℕ}
    (ha : Answered t h v) : Answered t (x :: h) v := by
  cases v with
  | none =>
    obtain ⟨k, lvl, hk, hr⟩ := ha
    refine ⟨k, lvl, hk.cons, ?_⟩
    rw [hc]
    exact hr.imp id fun hr => ⟨hr.1, hr.2.cons⟩
  | some v =>
    obtain ⟨hk, hr⟩ := ha
    refine ⟨hk.cons, ?_⟩
    rw [hc]
    exact hr.imp id fun hr => ⟨hr.1, hr.2.1, hr.2.2.cons⟩

/-- A step that changes nothing on behalf of `t` keeps what is told. -/
theorem Told.congr (hc : changes t (x :: h) = changes t h) {a : Stage}
    (hk : ∀ n, a = .took n → (m' n).k = (m n).k) (ha : Told m t h a) : Told m' t (x :: h) a := by
  cases a with
  | away => trivial
  | adding k lvl => exact ⟨ha.1.cons, hc.trans ha.2⟩
  | present k lvl => exact ⟨ha.1.cons, hc.trans ha.2.1, ha.2.2.cons⟩
  | added k lvl => exact ⟨ha.1.cons, hc.trans ha.2⟩
  | taking => exact ⟨ha.1.cons, hc.trans ha.2⟩
  | took n => exact ⟨ha.1.cons, by rw [hk n rfl, hc]; exact ha.2⟩
  | holding v => exact ⟨ha.1.cons, ha.2.1, hc.trans ha.2.2⟩
  | answer v => exact Answered.congr hc ha

/-- The thread's own access. -/
theorem Told.step {a b : Stage} (hw : x.who = t) (hmem : x.pre.sh.mem = m)
    (hk : ∀ n, b = .took n → (m' n).k = (m n).k)
    (hlive : ∀ k, x.ev = .giveUp k → k ∈ liveKeys m)
    (hst : StageStep m a x.ev b) (ha : Told m t h a) : Told m' t (x :: h) b := by
  generalize he : x.ev = e at hst hlive
  have quiet : e.Quiet → changes t (x :: h) = changes t h := fun hq =>
    changes_cons_quiet (he ▸ hq)
  cases hst with
  | stay hq => exact Told.congr (quiet hq) hk ha
  | link =>
    refine ⟨ha.1.cons, ?_⟩
    rw [changes_cons_insertCas hw he, ha.2]
  | @duplicate k lvl =>
    exact ⟨ha.1.cons, (changes_cons_giveUp he).trans ha.2,
      .now (by rw [hmem]; exact hlive k rfl)⟩
  | leave => exact ⟨_, _, ha.1.cons, Or.inr ⟨(quiet trivial).trans ha.2.1, ha.2.2.cons⟩⟩
  | finish => exact ⟨_, _, ha.1.cons, Or.inl ((quiet trivial).trans ha.2)⟩
  | empty hempty =>
    exact ⟨ha.1.cons, Or.inr ⟨rfl, (quiet trivial).trans ha.2,
      .now (by rw [hmem]; exact hempty)⟩⟩
  | @take n =>
    refine ⟨ha.1.cons, ?_⟩
    rw [changes_cons_deleteFao hw he, ha.2, hmem, hk n rfl]
  | hold hpos => exact ⟨ha.1.cons, hpos.ne', (quiet trivial).trans ha.2⟩
  | give hpos => exact ⟨ha.1.cons, Or.inl ⟨hpos.ne', (quiet trivial).trans ha.2⟩⟩
  | done hq => exact ⟨ha.1.cons, Or.inl ⟨ha.2.1, (quiet hq).trans ha.2.2⟩⟩
  | ret => trivial

end Told

variable {max_offset : ℤ} {s s' : State} {t : Tid} {e : Event}
  {tr : List (Entry State Tid Event)}

/-- The nodes a thread has taken are in the list. -/
theorem Ok.took_mem {m : Mem} {brk : NodeId} {G : Ghost} {pc : Pc} (h : Ok m brk G pc)
    {n : NodeId} (hn : stage pc = .took n) : n ∈ G.all := by
  cases pc with
  | delVal d =>
    obtain rfl : d.x = n := Stage.took.inj hn
    exact G.order_mem_all (G.gone_subset h.1.gone)
  | locNext f site x i => cases site <;> cases hn
  | locKey f site x i x_next b => cases site <;> cases hn
  | locMark f site x i x_next b => cases site <;> cases hn
  | _ => cases hn

/-- What every reached state knows about the calls in progress. -/
def Calls (tr : List (Entry State Tid Event)) (s : State) : Prop :=
  ∃ G, Inv G s ∧ ∀ t, Told s.sh.mem t (since Event.isCall t tr) (stage (s.thr t))

theorem isCall_event (m : Mem) (pc : Pc) : (event m pc).isCall = false := by
  cases pc <;> first | rfl | (dsimp only [event]; split <;> rfl)

/-- Only the return of a call shows a return. -/
theorem event_eq_ret {m : Mem} {pc : Pc} {v : Option ℕ} (h : event m pc = .ret v) :
    pc = .ret v := by
  cases pc with
  | ret w => rw [Event.ret.inj h]
  | cas0 f | dupPtr f | delFao d => dsimp only [event] at h; split at h <;> cases h
  | _ => cases h

theorem stage_start (op : Op) : stage (start op) =
    match op with | .insert v lvl => .adding v lvl | .delete_min => .taking := by
  cases op <;> rfl

/-- **The step lemma for calls.** -/
theorem Calls.step (h : Calls tr s) (hstep : Step max_offset s t e s') :
    Calls (⟨s, t, e, s'⟩ :: tr) s' := by
  obtain ⟨G, hinv, htold⟩ := h
  obtain ⟨G', hinv', heff⟩ := hinv.step hstep
  refine ⟨G', hinv', fun u => ?_⟩
  have hkey : ∀ {n}, n ∈ G.all → (s'.sh.mem n).k = (s.sh.mem n).k := fun hn =>
    heff.evolve.key_eq hinv.shape hn
  rcases eq_or_ne u t with rfl | hu
  · cases hstep with
    | call hidle hop =>
      rename_i op
      have hcall : u = u ∧ (Event.call op).isCall = true := ⟨rfl, rfl⟩
      rw [since_cons_of_call hcall]
      dsimp only
      rw [Function.update_self, stage_start]
      have hask : ∀ s', Asked u [⟨s, u, .call op, s'⟩] op := fun _ =>
        ⟨_, List.mem_cons_self, rfl, rfl⟩
      cases op <;> exact ⟨hask _, by simp [changes]⟩
    | access hbusy =>
      have hcall : ¬(u = u ∧ (event s.sh.mem (s.thr u)).isCall = true) := by
        rw [isCall_event]
        simp
      rw [since_cons_of_not hcall]
      have hok := hinv.ok u
      obtain ⟨htarget, -⟩ := Ok.step max_offset hinv.shape hok hbusy
      have hst := stage_step max_offset hinv.shape hok hbusy
      have hthr : (advance max_offset s u).thr u =
          (exec s.sh (code max_offset (s.thr u))).2 := by
        rw [advance, if_neg htarget]
        exact Function.update_self ..
      rw [hthr]
      refine Told.step (m := s.sh.mem) rfl rfl (fun n hn => ?_) (fun k hk => ?_) hst (htold u)
      · -- the node taken was the first live node
        have hmem : n ∈ G.all := by
          generalize hb : stage (exec s.sh (code max_offset (s.thr u))).2 = b at hst hn
          generalize ha : stage (s.thr u) = a at hst
          generalize hev : event s.sh.mem (s.thr u) = ev at hst
          have hlive := heff.live
          rw [hev] at hlive
          subst hn
          cases hst with
          | stay _ => exact hok.took_mem ha
          | take =>
            refine G.order_mem_all (G.mem_order.mpr (Or.inr (Or.inr ?_)))
            rw [show G.live = n :: G'.live from hlive.1]
            exact List.mem_cons_self
        exact hkey hmem
      · have hlive := heff.live
        rw [show event s.sh.mem (s.thr u) = .giveUp k from hk] at hlive
        exact hinv.shape.mem_liveKeys.mpr hlive.2
  · have hne : ¬(t = u ∧ e.isCall = true) := fun hc => hu hc.1.symm
    rw [since_cons_of_not hne, heff.frame u hu]
    exact Told.congr (changes_cons_of_ne (Ne.symm hu))
      (fun n hn => hkey ((hinv.ok u).took_mem hn)) (htold u)

theorem Calls.of_run (hrun : Run (lindenQueue max_offset) tr s) : Calls tr s :=
  hrun.history (fun _ h => ⟨_, .initial h, fun t => by rw [h.1.idle t]; trivial⟩)
    fun _ _ _ _ _ _ h hstep => h.step hstep

/-- One step is a step of the abstract priority queue. -/
theorem minStep_of_step {G : Ghost} (h : Inv G s) (hstep : Step max_offset s t e s') :
    MinStep (liveKeys s.sh.mem) (change ⟨s, t, e, s'⟩) (liveKeys s'.sh.mem) := by
  obtain ⟨G', h', heff⟩ := h.step hstep
  have hs := h.shape
  have hs' := h'.shape
  have hkey : ∀ {n}, n ∈ G.live → (s'.sh.mem n).k = (s.sh.mem n).k := fun hn =>
    heff.evolve.key_eq hs (G.order_mem_all (G.mem_order.mpr (Or.inr (Or.inr hn))))
  have hsame : G' = G → liveKeys s'.sh.mem = liveKeys s.sh.mem := by
    rintro rfl
    ext k
    rw [hs.mem_liveKeys, hs'.mem_liveKeys]
    refine exists_congr fun n => and_congr_right fun hn => ?_
    rw [hkey hn]
  have hlive := heff.live
  cases e with
  | insertCas k =>
    obtain ⟨⟨p, hspl⟩, hn, hk⟩ := hlive
    set n := own (s.thr t)
    have hnl : n ∈ G'.live := hspl.live_mem.mpr (Or.inl rfl)
    refine ⟨fun hkl => ?_, ?_⟩
    · -- a live node with the same key would be the new node
      obtain ⟨x, hx, hxk⟩ := hs.mem_liveKeys.mp hkl
      have hxk' : (s'.sh.mem x).k = (s'.sh.mem n).k := by rw [hkey hx, hxk, hk]
      have := hs'.live_inj (hspl.live_mem.mpr (Or.inr hx)) hnl hxk'
      exact hn (this ▸ G.mem_order.mpr (Or.inr (Or.inr hx)))
    · ext j
      rw [hs'.mem_liveKeys, Set.mem_insert_iff, hs.mem_liveKeys]
      constructor
      · rintro ⟨x, hx, hxj⟩
        rcases hspl.live_mem.mp hx with rfl | hx
        · exact Or.inl (hxj.symm.trans hk)
        · exact Or.inr ⟨x, hx, by rw [← hkey hx]; exact hxj⟩
      · rintro (rfl | ⟨x, hx, hxj⟩)
        · exact ⟨n, hnl, hk⟩
        · exact ⟨x, hspl.live_mem.mpr (Or.inr hx), by rw [hkey hx]; exact hxj⟩
  | deleteFao n =>
    have hl : G.live = n :: G'.live := hlive.1
    have hsub : ∀ {x}, x ∈ G'.live → x ∈ G.live := fun hx => by
      rw [hl]; exact List.mem_cons_of_mem _ hx
    have hnl : n ∈ G.live := by rw [hl]; exact List.mem_cons_self
    have hsort : ∀ x ∈ G'.live, (s.sh.mem n).k < (s.sh.mem x).k := by
      have := hs.sorted
      rw [hl] at this
      exact (List.pairwise_cons.mp this).1
    refine ⟨⟨hs.mem_liveKeys.mpr ⟨n, hnl, rfl⟩, fun j hj => ?_⟩, ?_⟩
    · obtain ⟨x, hx, rfl⟩ := hs.mem_liveKeys.mp hj
      rw [hl] at hx
      rcases List.mem_cons.mp hx with rfl | hx
      · exact le_rfl
      · exact (hsort x hx).le
    · ext j
      rw [hs'.mem_liveKeys, Set.mem_sdiff, hs.mem_liveKeys]
      constructor
      · rintro ⟨x, hx, rfl⟩
        rw [hkey (hsub hx)]
        exact ⟨⟨x, hsub hx, rfl⟩, (hsort x hx).ne'⟩
      · rintro ⟨⟨x, hx, rfl⟩, hne⟩
        rw [hl] at hx
        rcases List.mem_cons.mp hx with rfl | hx
        · exact absurd rfl hne
        · exact ⟨x, hx, hkey (hsub hx)⟩
  | giveUp k => exact hsame hlive.1
  | call _ | freed _ | ret _ | internal => exact hsame hlive

/-- **The Linden queue simulates a priority queue over sets.**  Along every run, each step is a step
of the abstract queue on the live set, and every call returns what its steps did. -/
theorem set_queue_simulation (max_offset : ℤ) {tr : List (Entry State Tid Event)} {s : State}
    (hrun : Run (lindenQueue max_offset) tr s) :
    (∀ x ∈ tr, MinStep (liveKeys x.pre.sh.mem) (change x) (liveKeys x.post.sh.mem)) ∧
    ∀ x tr' v, x :: tr' <:+ tr → x.ev = .ret v →
      Answered x.who (since Event.isCall x.who tr') v := by
  refine ⟨hrun.forall_entry fun tr s t e s' hr hst => ?_, ?_⟩
  · obtain ⟨G, h⟩ := Inv.of_run hr
    exact minStep_of_step h hst
  · refine hrun.history (I := fun tr _ => ∀ x tr' v, x :: tr' <:+ tr → x.ev = .ret v →
      Answered x.who (since Event.isCall x.who tr') v) ?_ ?_
    · intro _ _ x tr' v hsuf
      exact absurd (List.suffix_nil.mp hsuf) (List.cons_ne_nil _ _)
    · intro tr s t e s' hr ih hst x tr' v hsuf hv
      rcases List.suffix_cons_iff.mp hsuf with heq | hsuf
      · obtain ⟨rfl, rfl⟩ := List.cons.inj heq
        obtain ⟨G, -, htold⟩ := Calls.of_run hr
        have htold := htold t
        have hpc : s.thr t = .ret v := by
          cases hst with
          | call hidle hop => cases hv
          | access hbusy => exact event_eq_ret hv
        rw [hpc] at htold
        exact htold
      · exact ih x tr' v hsuf hv

/-- One key is inserted and removed again. -/
theorem set_queue_simulation_one : ∃ tr s, Run (lindenQueue 0) tr s ∧
    (∃ x ∈ tr, x.ev = .ret (some 5)) ∧
    (∀ x ∈ tr, MinStep (liveKeys x.pre.sh.mem) (change x) (liveKeys x.post.sh.mem)) ∧
    ∀ x tr' v, x :: tr' <:+ tr → x.ev = .ret v →
      Answered x.who (since Event.isCall x.who tr') v := by
  obtain ⟨tr, s, hrun, hc⟩ := exists_run_of_schedule 0
    (turn 0 (some (.insert 5 2)) 113 ++ turn 0 (some .delete_min) 7)
    (fun c => c.1.any fun x => decide (x.ev = .ret (some 5))) (by decide +kernel)
  simp only [List.any_eq_true, decide_eq_true_eq] at hc
  exact ⟨tr, s, hrun, hc, set_queue_simulation 0 hrun⟩

end ConcurrentPQ.Linden

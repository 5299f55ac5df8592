import ConcurrentPQ.Linden.Collector

/-!
# The clock of the collector

What the steps of the collector do to the epochs.  A thread announces its epoch with a store to
`gc->epoch`, some time after it has read `gc_global.current`; `gc_reclaim` lets the threads of `ptst_list`
pass one after the other.

* `Pc.passes`, `State.clock` — the epochs as `Lib.Announce` has them;
* `Beat`, `Step.beat` — what a step does to the clock;
* `Timed`, `Timed.step` — one thread reclaims at a time, and no thread is later than that;
* `Timed.tick` — **each step is a tick of the clock**.
-/

namespace ConcurrentPQ.Collector

open ConcurrentPQ.Transition ConcurrentPQ.Announce
open ConcurrentPQ.Allocator (Chunk Block Ptst BLKS_PER_CHUNK NR_EPOCHS)

variable {n : ℕ} {s s' : State n} {t u v : Tid} {pc q : Pc n} {c e sz : ℕ} {M M' : ℕ → Set Block}

/-! ### Program counters -/

/-- The arguments of the `gc_free` a thread is in. -/
def Pc.freeing : Pc n → Option (Freeing n)
  | .frGarbage k | .frFull k _ | .frPrev k _ | .frCache k _ | .frFetch k _ _ | .frUnlink k _ _
  | .frSelf k _ _ | .frHead k _ _ | .frStore k _ | .frLink k _ _ _ | .frClose k _ _ | .frPut k _ => some k
  | _ => none

/-- The garbage list that `gc_reclaim` is at. -/
def Pc.sweeping : Pc n → Option (Sweeping n)
  | .rcGarbage k | .rcNext k _ | .rcTail k _ _ | .rcClose k _ _ _ | .rcStore k _ _ | .rcSelf k _ _
  | .rcAdd k => some k
  | _ => none

/-- The thread has set `inreclaim`. -/
def Pc.reclaims : Pc n → Prop
  | .rcFirst | .rcCurrent _ | .rcCount .. | .rcEpoch .. | .rcAdvance _ | .rcOut => True
  | pc => pc.sweeping ≠ none

/-- `curr_epoch` of `gc_reclaim`. -/
def Pc.curr_epoch : Pc n → Option ℕ
  | .rcCount c _ _ _ | .rcEpoch c _ _ _ | .rcAdvance c => some c
  | pc => pc.sweeping.map Sweeping.curr_epoch

/-- The threads that `gc_reclaim` has found to be outside or to have announced the current epoch. -/
def Pc.passes : Pc n → Tid → Prop
  | .rcCount _ _ v rest, u | .rcEpoch _ _ v rest, u => u ≠ v ∧ u ∉ rest
  | .rcAdvance _, _ => True
  | pc, _ => pc.sweeping ≠ none

/-- The thread is between its look at the epoch and its announcement. -/
def Pc.entering : Pc n → Prop
  | .enCurrent | .enStore _ => True
  | _ => False

/-- Only a thread that counts as a reader comes here. -/
def Pc.counted : Pc n → Prop
  | .enCurrent | .enStore _ | .enLeave | .exCount => True
  | pc => pc.freeing ≠ none

theorem Pc.passes_reclaims (h : pc.passes u) : pc.reclaims := by
  cases pc <;> first | exact h | trivial

theorem Pc.curr_reclaims (h : pc.curr_epoch = some c) : pc.reclaims := by
  cases pc <;> first | trivial | exact nofun

theorem sweep_sweeping {l : List (Tid × Fin n)} : (sweep c l).passes u := by
  cases l with
  | nil => trivial
  | cons a l => exact nofun

theorem curr_sweep {l : List (Tid × Fin n)} : (sweep c l).curr_epoch = some c := by
  cases l <;> rfl

theorem passes_scan {f l : List Tid} : (scan (n := n) c f l).passes u ↔ u ∉ l := by
  cases l with
  | nil => exact ⟨fun _ => List.not_mem_nil, fun _ => sweep_sweeping⟩
  | cons v l => rw [List.mem_cons, not_or]; rfl

theorem sweep_entering {l : List (Tid × Fin n)} : ¬(sweep c l).entering := by
  cases l <;> exact id

theorem scan_entering {f l : List Tid} : ¬(scan (n := n) c f l).entering := by
  cases l with
  | nil => exact sweep_entering
  | cons v l => exact id

theorem sweep_counted {l : List (Tid × Fin n)} : ¬(sweep c l).counted := by
  cases l <;> exact fun h => h rfl

theorem scan_counted {f l : List Tid} : ¬(scan (n := n) c f l).counted := by
  cases l with
  | nil => exact sweep_counted
  | cons v l => exact fun h => h rfl

theorem curr_scan {f l : List Tid} : (scan (n := n) c f l).curr_epoch = some c := by
  cases l with
  | nil => exact curr_sweep
  | cons v l => rfl

theorem scan_ne_first {f l l' : List Tid} : scan (n := n) c f l ≠ .rcCurrent l' := by
  intro he
  have hcurr := curr_scan (n := n) (c := c) (f := f) (l := l)
  rw [he] at hcurr
  cases hcurr

/-! ### The clock -/

/-- The epochs; `M` is what has been retired. -/
def State.clock (s : State n) (M : ℕ → Set Block) : Clock Tid ℕ Block where
  current := s.current
  announced t := (s.ptst t).epoch
  stage := s.stage
  passed := {u | ∃ r, (s.pc r).passes u}
  limbo := M

theorem stage_out (h : ¬1 < (s.ptst t).count) : s.stage t = .out := if_neg h

theorem stage_inside (h : 1 < (s.ptst t).count) (hpc : ¬(s.pc t).entering) : s.stage t = .inside := by
  rw [State.stage, if_pos h]
  cases he : s.pc t with
  | enCurrent => rw [he] at hpc; exact absurd trivial hpc
  | enStore e => rw [he] at hpc; exact absurd trivial hpc
  | _ => rfl

theorem inside_iff : s.Inside t ↔ s.stage t = .inside := by
  rw [State.Inside, State.stage]
  by_cases h : 1 < (s.ptst t).count
  · rw [if_pos h]
    cases s.pc t <;> simp [h]
  · rw [if_neg h]
    exact ⟨fun hin => absurd hin.1 h, nofun⟩

/-- The stage of a thread depends on its count and on whether it is entering. -/
theorem stage_congr (hcount : (s'.ptst t).count = (s.ptst t).count) (hpc : s'.pc t = s.pc t) :
    s'.stage t = s.stage t := by
  rw [State.stage, State.stage, hcount, hpc]

theorem stage_plain (hcount : (s'.ptst t).count = (s.ptst t).count) (hpc : ¬(s.pc t).entering)
    (hpc' : ¬(s'.pc t).entering) : s'.stage t = s.stage t := by
  by_cases h : 1 < (s.ptst t).count
  · rw [stage_inside h hpc, stage_inside (hcount ▸ h) hpc']
  · rw [stage_out h, stage_out (hcount ▸ h)]

/-! ### What a step does to the clock -/

/-- The other threads stand where they stood, and neither their counts nor their epochs change. -/
structure Beside (t : Tid) (s s' : State n) : Prop where
  pc : ∀ u, u ≠ t → s'.pc u = s.pc u
  count : ∀ u, u ≠ t → (s'.ptst u).count = (s.ptst u).count
  epoch : ∀ u, u ≠ t → (s'.ptst u).epoch = (s.ptst u).epoch
  list : s'.ptst_list = s.ptst_list

/-- The clock stands still while a thread goes from one program counter to another. -/
structure Still (s : State n) (t : Tid) (q : Pc n) : Prop where
  entering : ¬(s.pc t).entering ∧ ¬q.entering
  passes : ∀ u, q.passes u ↔ (s.pc t).passes u
  reclaims : q.reclaims → (s.pc t).reclaims
  curr : ∀ c, q.curr_epoch = some c → (s.pc t).curr_epoch = some c
  counted : q.counted → (s.pc t).counted ∨ 1 < (s.ptst t).count
  first : ∀ l, q ≠ .rcCurrent l

/-- What a step does to the clock. -/
inductive Beat (s : State n) (t : Tid) (s' : State n) : Prop
  | rest (hq : s'.pc t = s.pc t) (hc : s'.current = s.current) (hr : s'.inreclaim = s.inreclaim)
      (hcount : (s'.ptst t).count = (s.ptst t).count) (he : (s'.ptst t).epoch = (s.ptst t).epoch)
  | still (hq : Still s t (s'.pc t)) (hc : s'.current = s.current) (hr : s'.inreclaim = s.inreclaim)
      (hcount : (s'.ptst t).count = (s.ptst t).count) (he : (s'.ptst t).epoch = (s.ptst t).epoch)
  | count (hpc : s.pc t = .enCount) (hq : s'.pc t = .enCurrent) (hc : s'.current = s.current)
      (hr : s'.inreclaim = s.inreclaim) (hone : (s.ptst t).count = 1) (hcount : (s'.ptst t).count = 2)
      (he : (s'.ptst t).epoch = (s.ptst t).epoch)
  | again (hpc : s.pc t = .enCount) (hq : s'.pc t = .idle) (hc : s'.current = s.current)
      (hr : s'.inreclaim = s.inreclaim) (hone : (s.ptst t).count ≠ 1)
      (hcount : (s'.ptst t).count = (s.ptst t).count + 1) (he : (s'.ptst t).epoch = (s.ptst t).epoch)
  | look (hpc : s.pc t = .enCurrent) (hq : s'.pc t = .enStore s.current) (hc : s'.current = s.current)
      (hr : s'.inreclaim = s.inreclaim) (hcount : (s'.ptst t).count = (s.ptst t).count)
      (he : (s'.ptst t).epoch = (s.ptst t).epoch)
  | level (hpc : s.pc t = .enCurrent) (hq : s'.pc t = .idle ∨ s'.pc t = .enLeave)
      (hc : s'.current = s.current) (hr : s'.inreclaim = s.inreclaim)
      (hcount : (s'.ptst t).count = (s.ptst t).count) (he : (s'.ptst t).epoch = (s.ptst t).epoch)
      (hcur : (s.ptst t).epoch = s.current)
  | store (e : ℕ) (hpc : s.pc t = .enStore e) (hq : s'.pc t = .idle) (hc : s'.current = s.current)
      (hr : s'.inreclaim = s.inreclaim) (hcount : (s'.ptst t).count = (s.ptst t).count)
      (he : (s'.ptst t).epoch = e)
  | leave (hpc : s.pc t = .enLeave ∨ s.pc t = .exCount) (hq : s'.pc t = .rcTest ∨ s'.pc t = .idle)
      (hc : s'.current = s.current) (hr : s'.inreclaim = s.inreclaim)
      (hcount : (s'.ptst t).count = (s.ptst t).count - 1) (he : (s'.ptst t).epoch = (s.ptst t).epoch)
  | lock (hpc : s.pc t = .rcCas) (hq : s'.pc t = .rcFirst) (hc : s'.current = s.current)
      (hfree : s.inreclaim = 0) (hr : s'.inreclaim = 1) (hcount : (s'.ptst t).count = (s.ptst t).count)
      (he : (s'.ptst t).epoch = (s.ptst t).epoch)
  | first (hpc : s.pc t = .rcFirst) (hq : s'.pc t = .rcCurrent s.ptst_list) (hc : s'.current = s.current)
      (hr : s'.inreclaim = s.inreclaim) (hcount : (s'.ptst t).count = (s.ptst t).count)
      (he : (s'.ptst t).epoch = (s.ptst t).epoch)
  | scan (l : List Tid) (hpc : s.pc t = .rcCurrent l) (hq : s'.pc t = scan s.current l l)
      (hc : s'.current = s.current) (hr : s'.inreclaim = s.inreclaim)
      (hcount : (s'.ptst t).count = (s.ptst t).count) (he : (s'.ptst t).epoch = (s.ptst t).epoch)
  | pass (c : ℕ) (f : List Tid) (v : Tid) (l : List Tid)
      (hpc : (s.pc t = .rcCount c f v l ∧ ¬1 < (s.ptst v).count) ∨
        (s.pc t = .rcEpoch c f v l ∧ (s.ptst v).epoch = c)) (hq : s'.pc t = scan c f l)
      (hc : s'.current = s.current) (hr : s'.inreclaim = s.inreclaim)
      (hcount : (s'.ptst t).count = (s.ptst t).count) (he : (s'.ptst t).epoch = (s.ptst t).epoch)
  | behind (c : ℕ) (f : List Tid) (v : Tid) (l : List Tid) (hpc : s.pc t = .rcEpoch c f v l)
      (hq : s'.pc t = .rcOut) (hc : s'.current = s.current) (hr : s'.inreclaim = s.inreclaim)
      (hcount : (s'.ptst t).count = (s.ptst t).count) (he : (s'.ptst t).epoch = (s.ptst t).epoch)
  | advance (c : ℕ) (hpc : s.pc t = .rcAdvance c) (hq : s'.pc t = .rcOut) (hc : s'.current = succ c)
      (hr : s'.inreclaim = s.inreclaim) (hcount : (s'.ptst t).count = (s.ptst t).count)
      (he : (s'.ptst t).epoch = (s.ptst t).epoch)
  | unlock (hpc : s.pc t = .rcOut) (hq : s'.pc t = .enCount) (hc : s'.current = s.current)
      (hr : s'.inreclaim = 0) (hcount : (s'.ptst t).count = (s.ptst t).count)
      (he : (s'.ptst t).epoch = (s.ptst t).epoch)

/-! ### The kinds of program counters -/

/-- No part of `gc_reclaim` behind the lock, and only for readers. -/
def Pc.calm : Pc n → Prop
  | .idle | .enCount | .rcTest | .rcCas | .alChunk _ | .alReturn _ | .alGet _ | .alMore _ | .alNext ..
  | .alLink .. | .alTake _ => True
  | _ => False

theorem calm_iff (h : pc.calm) :
    ¬pc.entering ∧ (∀ u, ¬pc.passes u) ∧ ¬pc.reclaims ∧ pc.curr_epoch = none ∧ ¬pc.counted := by
  cases pc <;> first | exact absurd h id | simp [Pc.entering, Pc.passes, Pc.reclaims, Pc.curr_epoch,
    Pc.counted, Pc.sweeping, Pc.freeing]

theorem freeing_iff {k : Freeing n} (h : pc.freeing = some k) :
    ¬pc.entering ∧ (∀ u, ¬pc.passes u) ∧ ¬pc.reclaims ∧ pc.curr_epoch = none ∧ pc.counted := by
  cases pc <;> cases h <;> simp [Pc.entering, Pc.passes, Pc.reclaims, Pc.curr_epoch, Pc.counted,
    Pc.sweeping, Pc.freeing]

theorem sweeping_iff {k : Sweeping n} (h : pc.sweeping = some k) :
    ¬pc.entering ∧ (∀ u, pc.passes u) ∧ pc.reclaims ∧ pc.curr_epoch = some k.curr_epoch ∧ ¬pc.counted := by
  cases pc <;> cases h <;> simp [Pc.entering, Pc.passes, Pc.reclaims, Pc.curr_epoch, Pc.counted,
    Pc.sweeping, Pc.freeing]

theorem Still.calm (hp : (s.pc t).calm) (hq : q.calm) : Still s t q where
  entering := ⟨(calm_iff hp).1, (calm_iff hq).1⟩
  passes u := iff_of_false ((calm_iff hq).2.1 u) ((calm_iff hp).2.1 u)
  reclaims h := absurd h (calm_iff hq).2.2.1
  curr c h := by rw [(calm_iff hq).2.2.2.1] at h; cases h
  counted h := absurd h (calm_iff hq).2.2.2.2
  first l h := by rw [h] at hq; exact hq

/-- A thread that is in `gc_free`, or between its calls and counted. -/
theorem Still.free {k : Freeing n} (hp : (s.pc t).freeing ≠ none ∨ ((s.pc t).calm ∧ 1 < (s.ptst t).count))
    (hq : q.freeing = some k) : Still s t q := by
  have hpc : ¬(s.pc t).entering ∧ (∀ u, ¬(s.pc t).passes u) ∧
      ((s.pc t).counted ∨ 1 < (s.ptst t).count) := by
    cases hp with
    | inl h =>
      obtain ⟨k', hk⟩ := Option.ne_none_iff_exists'.mp h
      exact ⟨(freeing_iff hk).1, (freeing_iff hk).2.1, Or.inl (freeing_iff hk).2.2.2.2⟩
    | inr h => exact ⟨(calm_iff h.1).1, (calm_iff h.1).2.1, Or.inr h.2⟩
  exact {
    entering := ⟨hpc.1, (freeing_iff hq).1⟩
    passes := fun u => iff_of_false ((freeing_iff hq).2.1 u) (hpc.2.1 u)
    reclaims := fun h => absurd h (freeing_iff hq).2.2.1
    curr := fun c h => by rw [(freeing_iff hq).2.2.2.1] at h; cases h
    counted := fun _ => hpc.2.2
    first := fun l h => by rw [h] at hq; cases hq }

/-- `gc_free` returns. -/
theorem Still.freed {k : Freeing n} (hp : (s.pc t).freeing = some k) (hq : q.calm) : Still s t q where
  entering := ⟨(freeing_iff hp).1, (calm_iff hq).1⟩
  passes u := iff_of_false ((calm_iff hq).2.1 u) ((freeing_iff hp).2.1 u)
  reclaims h := absurd h (calm_iff hq).2.2.1
  curr c h := by rw [(calm_iff hq).2.2.2.1] at h; cases h
  counted h := absurd h (calm_iff hq).2.2.2.2
  first l h := by rw [h] at hq; exact hq

/-- The loop of `gc_reclaim` over the garbage lists. -/
theorem Still.swept {k k' : Sweeping n} (hp : (s.pc t).sweeping = some k) (hq : q.sweeping = some k')
    (hcurr : k'.curr_epoch = k.curr_epoch) : Still s t q where
  entering := ⟨(sweeping_iff hp).1, (sweeping_iff hq).1⟩
  passes u := iff_of_true ((sweeping_iff hq).2.1 u) ((sweeping_iff hp).2.1 u)
  reclaims _ := (sweeping_iff hp).2.2.1
  curr c h := by
    rw [(sweeping_iff hq).2.2.2.1, hcurr] at h
    rw [(sweeping_iff hp).2.2.2.1]
    exact h
  counted h := absurd h (sweeping_iff hq).2.2.2.2
  first l h := by rw [h] at hq; cases hq

theorem Still.sweep {k : Sweeping n} {l : List (Tid × Fin n)} (hp : (s.pc t).sweeping = some k) :
    Still s t (sweep k.curr_epoch l) := by
  cases l with
  | cons a l => exact Still.swept hp rfl rfl
  | nil =>
    exact {
      entering := ⟨(sweeping_iff hp).1, id⟩
      passes := fun u => iff_of_true trivial ((sweeping_iff hp).2.1 u)
      reclaims := fun _ => (sweeping_iff hp).2.2.1
      curr := fun c h => (sweeping_iff hp).2.2.2.1.trans h
      counted := fun h => absurd rfl h
      first := nofun }

/-! ### Each step is a beat -/

@[simp] theorem goto_pc : (s.goto t q).pc t = q := Function.update_self _ _ _

@[simp] theorem call_pc {lpc : Chunks.Pc n} : (s.call t lpc q).pc t = q := Function.update_self _ _ _

@[simp] theorem setPtst_self {gc : Ptst} : (s.setPtst t gc).ptst t = gc := Function.update_self _ _ _

theorem own_count {gc : Ptst} : (((s.setPtst t gc).goto t q).ptst t).count = gc.count :=
  congrArg Ptst.count setPtst_self

theorem own_epoch {gc : Ptst} : (((s.setPtst t gc).goto t q).ptst t).epoch = gc.epoch :=
  congrArg Ptst.epoch setPtst_self

/-- Counts and epochs are what they were. -/
def Level (s x : State n) : Prop :=
  ∀ u, (x.ptst u).count = (s.ptst u).count ∧ (x.ptst u).epoch = (s.ptst u).epoch

theorem Level.of_eq {x : State n} (h : x.ptst = s.ptst) : Level s x := fun u => by
  rw [h]
  exact ⟨rfl, rfl⟩

theorem Level.setPtst {gc : Ptst} (hcount : gc.count = (s.ptst t).count) (he : gc.epoch = (s.ptst t).epoch) :
    Level s (s.setPtst t gc) := fun u => by
  rw [State.setPtst]
  dsimp only
  by_cases hu : u = t
  · rw [hu, Function.update_self]
    exact ⟨hcount, he⟩
  · rw [Function.update_of_ne hu]
    exact ⟨rfl, rfl⟩

/-- A thread goes elsewhere, and memory changes in other ways. -/
theorem beat_goto {x : State n} (hq : Still s t q) (hpc : x.pc = s.pc) (hl : x.ptst_list = s.ptst_list)
    (hc : x.current = s.current) (hr : x.inreclaim = s.inreclaim) (hp : Level s x) :
    Beside t s (x.goto t q) ∧ Beat s t (x.goto t q) :=
  ⟨⟨fun u hu => (Function.update_of_ne hu _ _).trans (congrFun hpc u), fun u _ => (hp u).1,
    fun u _ => (hp u).2, hl⟩, .still (by rw [goto_pc]; exact hq) hc hr (hp t).1 (hp t).2⟩

theorem beat_call {x : State n} {lpc : Chunks.Pc n} (hq : Still s t q) (hpc : x.pc = s.pc)
    (hl : x.ptst_list = s.ptst_list) (hc : x.current = s.current) (hr : x.inreclaim = s.inreclaim)
    (hp : Level s x) : Beside t s (x.call t lpc q) ∧ Beat s t (x.call t lpc q) :=
  ⟨⟨fun u hu => (Function.update_of_ne hu _ _).trans (congrFun hpc u), fun u _ => (hp u).1,
    fun u _ => (hp u).2, hl⟩, .still (by rw [call_pc]; exact hq) hc hr (hp t).1 (hp t).2⟩

/-- A thread goes elsewhere, its own count or epoch having changed. -/
theorem Beside.own {gc : Ptst} : Beside t s ((s.setPtst t gc).goto t q) := by
  refine ⟨fun u hu => Function.update_of_ne hu _ _, fun u hu => ?_, fun u hu => ?_, rfl⟩
  · exact congrArg Ptst.count (Function.update_of_ne hu _ _)
  · exact congrArg Ptst.epoch (Function.update_of_ne hu _ _)

theorem Beside.goto {x : State n} (hpc : x.pc = s.pc) (hl : x.ptst_list = s.ptst_list)
    (hp : x.ptst = s.ptst) : Beside t s (x.goto t q) :=
  ⟨fun u hu => (Function.update_of_ne hu _ _).trans (congrFun hpc u),
    fun u _ => congrArg Ptst.count (congrFun hp u), fun u _ => congrArg Ptst.epoch (congrFun hp u), hl⟩

/-- The functions that are not on the shared lists. -/
theorem code_beat {r : Option Block} (h : code s t = some (r, s')) : Beside t s s' ∧ Beat s t s' := by
  have hcalm : ∀ {p q : Pc n}, s.pc t = p → p.calm → q.calm → Still s t q := fun hp h hq =>
    Still.calm (hp ▸ h) hq
  have hfree : ∀ {p q : Pc n} {k k' : Freeing n}, s.pc t = p → p.freeing = some k →
      q.freeing = some k' → Still s t q := fun hp h hq =>
    Still.free (Or.inl fun hn => by rw [hp, h] at hn; cases hn) hq
  have hswept : ∀ {p q : Pc n} {k k' : Sweeping n}, s.pc t = p → p.sweeping = some k →
      q.sweeping = some k' → k'.curr_epoch = k.curr_epoch → Still s t q := fun hp h hq hk =>
    Still.swept (hp ▸ h) hq hk
  have hloop : ∀ {p : Pc n} {k : Sweeping n} {l : List (Tid × Fin n)}, s.pc t = p →
      p.sweeping = some k → Still s t (sweep k.curr_epoch l) := fun hp h => Still.sweep (hp ▸ h)
  rw [code] at h
  cases hpc : s.pc t with
  | idle => rw [hpc] at h; cases h
  | rcAdd k => rw [hpc] at h; cases h
  | alReturn i => rw [hpc] at h; cases h
  | alGet i => rw [hpc] at h; cases h
  | alMore i => rw [hpc] at h; cases h
  | frFetch k a p => rw [hpc] at h; cases h
  | enCount =>
    rw [hpc] at h
    dsimp only at h
    cases h
    split
    · next hone =>
      refine ⟨Beside.own, .count hpc goto_pc rfl rfl hone ?_ ?_⟩
      · exact own_count.trans (by rw [hone]; rfl)
      · exact own_epoch
    · next hone =>
      exact ⟨Beside.own, .again hpc goto_pc rfl rfl hone own_count
        own_epoch⟩
  | enCurrent =>
    rw [hpc] at h
    dsimp only at h
    split at h
    · cases h
      exact ⟨Beside.goto rfl rfl rfl, .look hpc goto_pc rfl rfl rfl rfl⟩
    · next hcur =>
      split at h
      · cases h
        exact ⟨Beside.own, .level hpc (Or.inr goto_pc) rfl rfl own_count
          own_epoch (not_not.mp hcur)⟩
      · cases h
        exact ⟨Beside.own, .level hpc (Or.inl goto_pc) rfl rfl own_count
          own_epoch (not_not.mp hcur)⟩
  | enStore e =>
    rw [hpc] at h
    cases h
    exact ⟨Beside.own, .store e hpc goto_pc rfl rfl own_count
      own_epoch⟩
  | enLeave =>
    rw [hpc] at h
    cases h
    exact ⟨Beside.own, .leave (Or.inl hpc) (Or.inl goto_pc) rfl rfl own_count
      own_epoch⟩
  | exCount =>
    rw [hpc] at h
    cases h
    exact ⟨Beside.own, .leave (Or.inr hpc) (Or.inr goto_pc) rfl rfl own_count
      own_epoch⟩
  | rcTest =>
    rw [hpc] at h
    cases h
    refine beat_goto (hcalm hpc trivial ?_) rfl rfl rfl rfl (.of_eq rfl)
    split <;> trivial
  | rcCas =>
    rw [hpc] at h
    dsimp only at h
    split at h
    · next hfree =>
      cases h
      exact ⟨Beside.goto rfl rfl rfl, .lock hpc goto_pc rfl hfree rfl rfl rfl⟩
    · cases h
      exact beat_goto (hcalm hpc trivial trivial) rfl rfl rfl rfl (.of_eq rfl)
  | rcFirst =>
    rw [hpc] at h
    cases h
    exact ⟨Beside.goto rfl rfl rfl, .first hpc goto_pc rfl rfl rfl rfl⟩
  | rcCurrent l =>
    rw [hpc] at h
    cases h
    exact ⟨Beside.goto rfl rfl rfl, .scan l hpc goto_pc rfl rfl rfl rfl⟩
  | rcCount c f v l =>
    rw [hpc] at h
    dsimp only at h
    split at h
    · cases h
      refine beat_goto ?_ rfl rfl rfl rfl (.of_eq rfl)
      exact ⟨⟨by rw [hpc]; exact id, id⟩, fun u => by rw [hpc]; rfl, fun _ => by rw [hpc]; trivial,
        fun c h => by rw [hpc]; exact h, fun h => absurd rfl h, nofun⟩
    · next hout =>
      cases h
      exact ⟨Beside.goto rfl rfl rfl, .pass c f v l (Or.inl ⟨hpc, hout⟩) goto_pc rfl rfl rfl rfl⟩
  | rcEpoch c f v l =>
    rw [hpc] at h
    dsimp only at h
    split at h
    · cases h
      exact ⟨Beside.goto rfl rfl rfl, .behind c f v l hpc goto_pc rfl rfl rfl rfl⟩
    · next hcur =>
      cases h
      exact ⟨Beside.goto rfl rfl rfl,
        .pass c f v l (Or.inr ⟨hpc, not_not.mp hcur⟩) goto_pc rfl rfl rfl rfl⟩
  | rcGarbage k =>
    rw [hpc] at h
    dsimp only at h
    split at h
    · cases h
      exact beat_goto (hloop hpc rfl) rfl rfl rfl rfl (.of_eq rfl)
    · cases h
      exact beat_goto (hswept hpc rfl rfl rfl) rfl rfl rfl rfl (.of_eq rfl)
  | rcNext k x =>
    rw [hpc] at h
    dsimp only at h
    split at h
    · cases h
      exact beat_goto (hloop hpc rfl) rfl rfl rfl rfl (.of_eq rfl)
    · cases h
      exact beat_goto (hswept hpc rfl rfl rfl) rfl rfl rfl rfl (.of_eq rfl)
  | rcTail k x ch =>
    rw [hpc] at h
    dsimp only at h
    split at h
    · cases h
    · cases h
      exact beat_goto (hswept hpc rfl rfl rfl) rfl rfl rfl rfl (.of_eq rfl)
  | rcClose k x ch tail =>
    rw [hpc] at h
    cases h
    exact beat_goto (hswept hpc rfl rfl rfl) rfl rfl rfl rfl (.of_eq rfl)
  | rcStore k x ch =>
    rw [hpc] at h
    cases h
    exact beat_goto (hswept hpc rfl rfl rfl) rfl rfl rfl rfl (.setPtst rfl rfl)
  | rcSelf k x ch =>
    rw [hpc] at h
    cases h
    exact beat_call (hswept hpc rfl rfl rfl) rfl rfl rfl rfl (.of_eq rfl)
  | rcAdvance c =>
    rw [hpc] at h
    cases h
    exact ⟨Beside.goto rfl rfl rfl, .advance c hpc goto_pc rfl rfl rfl rfl⟩
  | rcOut =>
    rw [hpc] at h
    cases h
    exact ⟨Beside.goto rfl rfl rfl, .unlock hpc goto_pc rfl rfl rfl rfl⟩
  | alChunk i =>
    rw [hpc] at h
    dsimp only at h
    split at h
    · split at h
      · cases h
        exact beat_call (hcalm hpc trivial trivial) rfl rfl rfl rfl (.setPtst rfl rfl)
      · cases h
        exact beat_call (hcalm hpc trivial trivial) rfl rfl rfl rfl (.setPtst rfl rfl)
    · cases h
      exact beat_goto (hcalm hpc trivial trivial) rfl rfl rfl rfl (.of_eq rfl)
  | alNext i ch =>
    rw [hpc] at h
    cases h
    exact beat_goto (hcalm hpc trivial trivial) rfl rfl rfl rfl (.of_eq rfl)
  | alLink i ch =>
    rw [hpc] at h
    cases h
    exact beat_goto (hcalm hpc trivial trivial) rfl rfl rfl rfl
      (Level.setPtst (s := s.store ((s.ptst t).alloc i) ch) rfl rfl)
  | alTake i =>
    rw [hpc] at h
    dsimp only at h
    split at h
    · cases h
      exact beat_goto (hcalm hpc trivial trivial) rfl rfl rfl rfl (.of_eq rfl)
    · cases h
  | frGarbage k =>
    rw [hpc] at h
    dsimp only at h
    split at h
    · cases h
      exact beat_goto (hfree hpc rfl rfl) rfl rfl rfl rfl (.of_eq rfl)
    · cases h
      exact beat_goto (hfree hpc rfl rfl) rfl rfl rfl rfl (.of_eq rfl)
  | frFull k ch =>
    rw [hpc] at h
    dsimp only at h
    split at h
    · cases h
      exact beat_goto (hfree hpc rfl rfl) rfl rfl rfl rfl (.of_eq rfl)
    · cases h
      exact beat_goto (hfree hpc rfl rfl) rfl rfl rfl rfl (.of_eq rfl)
  | frPrev k ch =>
    rw [hpc] at h
    dsimp only at h
    split at h
    · cases h
    · cases h
      exact beat_goto (hfree hpc rfl rfl) rfl rfl rfl rfl (.of_eq rfl)
  | frCache k a =>
    rw [hpc] at h
    dsimp only at h
    split at h
    · cases h
      exact beat_call (hfree hpc rfl rfl) rfl rfl rfl rfl (.of_eq rfl)
    · cases h
      exact beat_goto (hfree hpc rfl rfl) rfl rfl rfl rfl (.of_eq rfl)
  | frUnlink k a p =>
    rw [hpc] at h
    cases h
    exact beat_goto (hfree hpc rfl rfl) rfl rfl rfl rfl (.of_eq rfl)
  | frSelf k a p =>
    rw [hpc] at h
    cases h
    exact beat_goto (hfree hpc rfl rfl) rfl rfl rfl rfl (.of_eq rfl)
  | frHead k a new =>
    rw [hpc] at h
    dsimp only at h
    split at h
    · cases h
      exact beat_goto (hfree hpc rfl rfl) rfl rfl rfl rfl (.setPtst rfl rfl)
    · cases h
      exact beat_goto (hfree hpc rfl rfl) rfl rfl rfl rfl (.setPtst rfl rfl)
  | frStore k new =>
    rw [hpc] at h
    cases h
    exact beat_goto (hfree hpc rfl rfl) rfl rfl rfl rfl (.setPtst rfl rfl)
  | frLink k new ch prev =>
    rw [hpc] at h
    cases h
    exact beat_goto (hfree hpc rfl rfl) rfl rfl rfl rfl (.of_eq rfl)
  | frClose k new prev =>
    rw [hpc] at h
    cases h
    exact beat_goto (hfree hpc rfl rfl) rfl rfl rfl rfl (.of_eq rfl)
  | frPut k ch =>
    rw [hpc] at h
    dsimp only at h
    split at h
    · cases h
    · cases h
      refine beat_goto (Still.freed (k := k) ?_ trivial) rfl rfl rfl rfl (.of_eq rfl)
      rw [hpc]
      rfl

/-- A function on the shared lists has returned. -/
theorem resume_beat {x : State n} {r : Chunk} (hpc : x.pc = s.pc) (hl : x.ptst_list = s.ptst_list)
    (hc : x.current = s.current) (hr : x.inreclaim = s.inreclaim) (hp : x.ptst = s.ptst) :
    Beside t s (x.resume t r) ∧ Beat s t (x.resume t r) := by
  have hx := congrFun hpc t
  rw [State.resume]
  cases hs : s.pc t with
  | rcAdd k =>
    rw [hx, hs]
    exact beat_goto (Still.sweep (by rw [hs]; rfl)) hpc hl hc hr (.of_eq hp)
  | alReturn i =>
    rw [hx, hs]
    exact beat_call (Still.calm (by rw [hs]; trivial) trivial) hpc hl hc hr (.of_eq hp)
  | alGet i =>
    rw [hx, hs]
    refine beat_goto (Still.calm (by rw [hs]; trivial) trivial) hpc hl hc hr fun u => ?_
    rw [← hp]
    refine Level.setPtst (s := x) ?_ ?_ u
    · rfl
    · rfl
  | alMore i =>
    rw [hx, hs]
    exact beat_goto (Still.calm (by rw [hs]; trivial) trivial) hpc hl hc hr (.of_eq hp)
  | frFetch k a p =>
    rw [hx, hs]
    refine beat_goto (Still.free (Or.inl fun hn => by rw [hs] at hn; cases hn) rfl) hpc hl hc hr fun u => ?_
    rw [← hp]
    refine Level.setPtst (s := x) ?_ ?_ u
    · rfl
    · rfl
  | _ =>
    rw [hx, hs]
    refine ⟨⟨fun u _ => congrFun hpc u, fun u _ => ?_, fun u _ => ?_, hl⟩, .rest hx hc hr ?_ ?_⟩
    · rw [hp]
    · rw [hp]
    · rw [hp]
    · rw [hp]

theorem fill_eq (sz : ℕ) (s : State n) (l : List Chunk) :
    ∃ i blk node, fill sz s l = { s with i := i, blk := blk, node := node } := by
  induction l generalizing s with
  | nil => exact ⟨_, _, _, rfl⟩
  | cons p l ih =>
    obtain ⟨i, blk, node, he⟩ := ih _
    exact ⟨i, blk, node, he⟩

/-- The functions on the shared lists. -/
theorem listStep_beat (h : listStep s t sz = some s') : Beside t s s' ∧ Beat s t s' := by
  obtain ⟨lists, -, he⟩ := Option.map_eq_some_iff.mp h
  have hresume : ∀ r, Beside t s ({ s with lists := lists }.resume t r) ∧
      Beat s t ({ s with lists := lists }.resume t r) := fun r => resume_beat rfl rfl rfl rfl rfl
  have hsame : Beside t s { s with lists := lists } ∧ Beat s t { s with lists := lists } :=
    ⟨⟨fun _ _ => rfl, fun _ _ => rfl, fun _ _ => rfl, rfl⟩, .rest rfl rfl rfl rfl rfl⟩
  split at he
  · next i rh rt seen _ =>
    obtain ⟨i', blk, node, hf⟩ := fill_eq (s.blk_sizes i) { s with lists := lists }
      (State.ring { s with lists := lists } rh)
    rw [hf] at he
    rw [← he]
    exact ⟨⟨fun _ _ => rfl, fun _ _ => rfl, fun _ _ => rfl, rfl⟩, .rest rfl rfl rfl rfl rfl⟩
  · rw [← he]
    split
    · exact hresume _
    · exact hsame

/-- **What a step does to the clock.** -/
theorem Step.beat {m : Move n} {r : Option Block} (h : Step s t m r s') : Beside t s s' ∧ Beat s t s' := by
  have hidle : s.Ready t → (s.pc t).calm := fun hr => by rw [hr.2.1]; trivial
  cases h with
  | critical_enter hr => exact beat_goto (Still.calm (hidle hr) trivial) rfl rfl rfl rfl (.of_eq rfl)
  | critical_exit hr hin =>
    refine beat_goto ?_ rfl rfl rfl rfl (.of_eq rfl)
    exact {
      entering := ⟨(calm_iff (hidle hr)).1, id⟩
      passes := fun u => iff_of_false (fun h => h rfl) ((calm_iff (hidle hr)).2.1 u)
      reclaims := fun h => absurd rfl h
      curr := nofun
      counted := fun _ => Or.inr hin.1
      first := nofun }
  | gc_alloc i hr => exact beat_goto (Still.calm (hidle hr) trivial) rfl rfl rfl rfl (.of_eq rfl)
  | gc_free p i hr hin _ =>
    exact beat_goto (Still.free (k := ⟨p, i⟩) (Or.inr ⟨hidle hr, hin.1⟩) rfl) rfl rfl rfl rfl (.of_eq rfl)
  | code _ _ hcode => exact code_beat hcode
  | lists _ _ hlist => exact listStep_beat hlist

/-! ### The threads are in time -/

/-- The invariant of the clock. -/
structure Timed (s : State n) : Prop where
  inTime : ∀ t, InTime succ (s.clock fun _ => ∅) t
  curr : ∀ r c, (s.pc r).curr_epoch = some c → c = s.current
  lock : ∀ r, (s.pc r).reclaims → s.inreclaim ≠ 0
  one : ∀ r r', (s.pc r).reclaims → (s.pc r').reclaims → r = r'
  first : ∀ r l, s.pc r = .rcCurrent l → l = s.ptst_list
  counted : ∀ t, (s.pc t).counted → 1 < (s.ptst t).count
  out : ∀ t, t ∉ s.ptst_list → ¬1 < (s.ptst t).count

theorem succ_ne (e : ℕ) : succ e ≠ e := by
  show (e + 1) % 3 ≠ e
  omega

theorem succ_succ_ne (e : ℕ) : succ (succ e) ≠ e := by
  show ((e + 1) % 3 + 1) % 3 ≠ e
  omega

theorem Initial.timed (h : Initial s) : Timed s := by
  have hidle := fun t => (h.idle t).1
  have hnone : ∀ t, ¬1 < (s.ptst t).count := fun t => by
    by_cases ht : t ∈ s.ptst_list
    · rw [(h.registered t ht).count]
      decide
    · rw [(h.unregistered t ht).1]
      decide
  refine ⟨fun t => ?_, fun r c hc => ?_, fun r hr => ?_, fun r r' hr => ?_, fun r l hl => ?_,
    fun t ht => ?_, fun t _ => hnone t⟩
  · rw [InTime, State.clock]
    dsimp only
    rw [stage_out (hnone t)]
    trivial
  · rw [hidle] at hc
    cases hc
  · rw [hidle] at hr
    exact absurd rfl hr
  · rw [hidle] at hr
    exact absurd rfl hr
  · rw [hidle] at hl
    cases hl
  · rw [hidle] at ht
    exact absurd rfl ht

/-- A reader that moves. -/
theorem own_tick (hb : Beside t s s') (hc : s'.current = s.current)
    (hp : ∀ u, (s'.pc t).passes u ↔ (s.pc t).passes u)
    (hmove : Announce.Move (s.clock M) t (s'.ptst t).epoch (s'.stage t)) (hM : ∀ e, M e ⊆ M' e) :
    Tick succ t (s.clock M) (s'.clock M') := by
  refine Or.inl ⟨hc, ?_, fun u hu => ⟨hb.epoch u hu, stage_congr (hb.count u hu) (hb.pc u hu)⟩, hmove, hM⟩
  ext u
  refine exists_congr fun r => ?_
  by_cases hr : r = t
  · rw [hr]
    exact hp u
  · rw [hb.pc r hr]

/-- A thread that looks around. -/
theorem sweep_tick (hb : Beside t s s') (hc : s'.current = s.current)
    (hcount : (s'.ptst t).count = (s.ptst t).count) (he : (s'.ptst t).epoch = (s.ptst t).epoch)
    (hin : ¬(s.pc t).entering ∧ ¬(s'.pc t).entering)
    (hp : ∀ u, (s'.pc t).passes u → (s.pc t).passes u ∨ s.stage u = .out ∨ (s.ptst u).epoch = s.current)
    (hM : ∀ e, M e ⊆ M' e ∨ (e = succ s.current ∧ ∀ u, (s.pc t).passes u)) :
    Sweep succ (s.clock M) (s'.clock M') := by
  have hstage : ∀ u, s'.stage u = s.stage u := fun u => by
    by_cases hu : u = t
    · rw [hu]
      exact stage_plain hcount hin.1 hin.2
    · exact stage_congr (hb.count u hu) (hb.pc u hu)
  refine ⟨hc, funext fun u => ?_, funext hstage, fun u ⟨r, hr⟩ => ?_, fun e => ?_⟩
  · by_cases hu : u = t
    · rw [hu]
      exact he
    · exact hb.epoch u hu
  · by_cases hrt : r = t
    · rw [hrt] at hr
      exact (hp u hr).imp_left fun h => ⟨t, h⟩
    · rw [hb.pc r hrt] at hr
      exact Or.inl ⟨r, hr⟩
  · exact (hM e).imp_right fun h => ⟨h.1, fun u => ⟨t, h.2 u⟩⟩

/-- **Each step is a tick.** -/
theorem Timed.tick (h : Timed s) (hb : Beside t s s') (hbeat : Beat s t s') (hM : ∀ e, M e ⊆ M' e) :
    Tick succ t (s.clock M) (s'.clock M') := by
  have hstay : s'.current = s.current → (s'.ptst t).count = (s.ptst t).count →
      (s'.ptst t).epoch = (s.ptst t).epoch → ¬(s.pc t).entering → ¬(s'.pc t).entering →
      (∀ u, (s'.pc t).passes u ↔ (s.pc t).passes u) → Tick succ t (s.clock M) (s'.clock M') := by
    intro hc hcount he hin hin' hp
    refine own_tick hb hc hp ?_ hM
    rw [he, stage_plain hcount hin hin']
    exact .stay
  cases hbeat with
  | rest hq hc hr hcount he =>
    refine own_tick hb hc (fun u => by rw [hq]) ?_ hM
    rw [he, stage_congr hcount hq]
    exact .stay
  | still hq hc hr hcount he => exact hstay hc hcount he hq.entering.1 hq.entering.2 hq.passes
  | count hpc hq hc hr hone hcount he =>
    refine own_tick hb hc (fun u => by rw [hq, hpc]; rfl) ?_ hM
    have hstage : s'.stage t = .counted := by
      rw [State.stage, hcount, hq]
      exact if_pos (by decide)
    rw [he, hstage]
    exact .count (stage_out (by rw [hone]; decide))
  | again hpc hq hc hr hone hcount he =>
    refine own_tick hb hc (fun u => by rw [hq, hpc]; rfl) ?_ hM
    rw [he]
    by_cases hin : 1 < (s'.ptst t).count
    · have hin₀ : 1 < (s.ptst t).count := by
        rw [hcount, UInt32.lt_iff_toNat_lt] at hin
        rw [UInt32.lt_iff_toNat_lt]
        have hne : (s.ptst t).count.toNat ≠ 1 := fun h => hone (UInt32.toNat_inj.mp h)
        rw [UInt32.toNat_add] at hin
        have hone' : (1 : UInt32).toNat = 1 := rfl
        omega
      have hstage : s'.stage t = s.stage t := by
        rw [stage_inside hin (by rw [hq]; exact id), stage_inside hin₀ (by rw [hpc]; exact id)]
      rw [hstage]
      exact .stay
    · rw [stage_out hin]
      exact .leave
  | look hpc hq hc hr hcount he =>
    refine own_tick hb hc (fun u => by rw [hq, hpc]; rfl) ?_ hM
    have hin := h.counted t (by rw [hpc]; trivial)
    have hstage : s'.stage t = .looked s.current := by
      rw [State.stage, hcount, hq]
      exact if_pos hin
    rw [he, hstage]
    refine .look ?_
    show s.stage t = .counted
    rw [State.stage, hpc]
    exact if_pos hin
  | level hpc hq hc hr hcount he hcur =>
    have hplain : ¬(s'.pc t).entering ∧ ∀ u, (s'.pc t).passes u ↔ (s.pc t).passes u := by
      cases hq with
      | inl hq => rw [hq, hpc]; exact ⟨id, fun u => Iff.rfl⟩
      | inr hq => rw [hq, hpc]; exact ⟨id, fun u => Iff.rfl⟩
    refine own_tick hb hc hplain.2 ?_ hM
    have hin := h.counted t (by rw [hpc]; trivial)
    rw [he, stage_inside (hcount ▸ hin) hplain.1]
    refine .level ?_ hcur
    show s.stage t = .counted
    rw [State.stage, hpc]
    exact if_pos hin
  | store e hpc hq hc hr hcount he =>
    refine own_tick hb hc (fun u => by rw [hq, hpc]; rfl) ?_ hM
    have hin := h.counted t (by rw [hpc]; trivial)
    rw [he, stage_inside (hcount ▸ hin) (by rw [hq]; exact id)]
    refine .announce ?_
    show s.stage t = .looked e
    rw [State.stage, hpc]
    exact if_pos hin
  | leave hpc hq hc hr hcount he =>
    have hin : 1 < (s.ptst t).count := h.counted t (by cases hpc with | _ hpc => rw [hpc]; trivial)
    have hplain : ¬(s.pc t).entering ∧ ∀ u, ¬(s.pc t).passes u := by
      cases hpc with | _ hpc => rw [hpc]; exact ⟨id, fun u h => h rfl⟩
    have hplain' : ¬(s'.pc t).entering ∧ ∀ u, ¬(s'.pc t).passes u := by
      cases hq with | _ hq => rw [hq]; exact ⟨id, fun u h => h rfl⟩
    refine own_tick hb hc (fun u => iff_of_false (hplain'.2 u) (hplain.2 u)) ?_ hM
    rw [he]
    by_cases hin' : 1 < (s'.ptst t).count
    · have hstage : s'.stage t = s.stage t := by
        rw [stage_inside hin' hplain'.1, stage_inside hin hplain.1]
      rw [hstage]
      exact .stay
    · rw [stage_out hin']
      exact .leave
  | lock hpc hq hc hfree hr hcount he =>
    exact hstay hc hcount he (by rw [hpc]; exact id) (by rw [hq]; exact id) fun u => by rw [hq, hpc]; rfl
  | first hpc hq hc hr hcount he =>
    exact hstay hc hcount he (by rw [hpc]; exact id) (by rw [hq]; exact id) fun u => by rw [hq, hpc]; rfl
  | scan l hpc hq hc hr hcount he =>
    refine Or.inr (Or.inl (sweep_tick hb hc hcount he
      ⟨by rw [hpc]; exact id, by rw [hq]; exact scan_entering⟩
      (fun u hu => ?_) fun e => Or.inl (hM e)))
    rw [hq, passes_scan, h.first t l hpc] at hu
    exact Or.inr (Or.inl (stage_out (h.out u hu)))
  | pass c f v l hpc hq hc hr hcount he =>
    have hold : ¬(s.pc t).entering ∧ (∀ u, u ≠ v ∧ u ∉ l → (s.pc t).passes u) ∧
        (s.stage v = .out ∨ (s.ptst v).epoch = s.current) := by
      cases hpc with
      | inl hpc =>
        rw [hpc.1]
        exact ⟨id, fun u hu => hu, Or.inl (stage_out hpc.2)⟩
      | inr hpc =>
        have hcurr := h.curr t c (by rw [hpc.1]; rfl)
        rw [hpc.1]
        exact ⟨id, fun u hu => hu, Or.inr (hpc.2.trans hcurr)⟩
    refine Or.inr (Or.inl (sweep_tick hb hc hcount he ⟨hold.1, by rw [hq]; exact scan_entering⟩
      (fun u hu => ?_) fun e => Or.inl (hM e)))
    rw [hq, passes_scan] at hu
    by_cases huv : u = v
    · rw [huv]
      exact Or.inr hold.2.2
    · exact Or.inl (hold.2.1 u ⟨huv, hu⟩)
  | behind c f v l hpc hq hc hr hcount he =>
    exact Or.inr (Or.inl (sweep_tick hb hc hcount he ⟨by rw [hpc]; exact id, by rw [hq]; exact id⟩
      (fun u hu => by rw [hq] at hu; exact absurd rfl hu) fun e => Or.inl (hM e)))
  | advance c hpc hq hc hr hcount he =>
    have hcurr := h.curr t c (by rw [hpc]; rfl)
    have hstage : ∀ u, s'.stage u = s.stage u ∧ (s'.ptst u).epoch = (s.ptst u).epoch := fun u => by
      by_cases hu : u = t
      · rw [hu]
        exact ⟨stage_plain hcount (by rw [hpc]; exact id) (by rw [hq]; exact id), he⟩
      · exact ⟨stage_congr (hb.count u hu) (hb.pc u hu), hb.epoch u hu⟩
    refine Or.inr (Or.inr ⟨fun u => ⟨t, by rw [hpc]; trivial⟩, hc.trans (congrArg succ hcurr),
      funext fun u => (hstage u).2, funext fun u => (hstage u).1, fun u ⟨r, hr⟩ => ?_, hM⟩)
    by_cases hrt : r = t
    · rw [hrt, hq] at hr
      exact hr rfl
    · rw [hb.pc r hrt] at hr
      exact hrt (h.one r t (Pc.passes_reclaims hr) (by rw [hpc]; trivial))
  | unlock hpc hq hc hr hcount he =>
    exact hstay hc hcount he (by rw [hpc]; exact id) (by rw [hq]; exact id) fun u => by rw [hq, hpc]; rfl

/-- What has to be seen of a step. -/
theorem Timed.of (h : Timed s) (hb : Beside t s s') (hin : ∀ u, InTime succ (s'.clock fun _ => ∅) u)
    (hc : s'.current = s.current ∨ (s.pc t).reclaims)
    (hr : s'.inreclaim = s.inreclaim ∨ (s.pc t).reclaims ∨ s'.inreclaim ≠ 0)
    (hq : (s'.pc t).reclaims → ((s.pc t).reclaims ∨ s.inreclaim = 0) ∧ s'.inreclaim ≠ 0)
    (hcurr : ∀ c, (s'.pc t).curr_epoch = some c → c = s'.current)
    (hfirst : ∀ l, s'.pc t = .rcCurrent l → l = s.ptst_list)
    (hcounted : (s'.pc t).counted → 1 < (s'.ptst t).count) (ht : t ∈ s.ptst_list) : Timed s' := by
  have hsole : ∀ r, r ≠ t → (s.pc r).reclaims → ¬(s.pc t).reclaims := fun r hrt hr ht =>
    hrt (h.one r t hr ht)
  refine ⟨hin, fun r c hrc => ?_, fun r hrr => ?_, fun r r' hrr hrr' => ?_, fun r l hl => ?_,
    fun u hu => ?_, fun u hu => ?_⟩
  · by_cases hrt : r = t
    · exact hcurr c (hrt ▸ hrc)
    · rw [hb.pc r hrt] at hrc
      rw [hc.resolve_right (hsole r hrt (Pc.curr_reclaims hrc))]
      exact h.curr r c hrc
  · by_cases hrt : r = t
    · exact (hq (hrt ▸ hrr)).2
    · rw [hb.pc r hrt] at hrr
      rcases hr with hr | hr | hr
      · rw [hr]
        exact h.lock r hrr
      · exact absurd hr (hsole r hrt hrr)
      · exact hr
  · have hother : ∀ r, r ≠ t → (s'.pc r).reclaims → ¬(s'.pc t).reclaims := by
      intro r hrt hrr hrt'
      rw [hb.pc r hrt] at hrr
      cases (hq hrt').1 with
      | inl hold => exact hsole r hrt hrr hold
      | inr hfree => exact h.lock r hrr hfree
    by_cases hrt : r = t
    · by_cases hrt' : r' = t
      · rw [hrt, hrt']
      · exact absurd (hrt ▸ hrr) (hother r' hrt' hrr')
    · by_cases hrt' : r' = t
      · exact absurd (hrt' ▸ hrr') (hother r hrt hrr)
      · rw [hb.pc r hrt] at hrr
        rw [hb.pc r' hrt'] at hrr'
        exact h.one r r' hrr hrr'
  · rw [hb.list]
    by_cases hrt : r = t
    · exact hfirst l (hrt ▸ hl)
    · rw [hb.pc r hrt] at hl
      exact h.first r l hl
  · by_cases hut : u = t
    · rw [hut] at hu ⊢
      exact hcounted hu
    · rw [hb.pc u hut] at hu
      rw [hb.count u hut]
      exact h.counted u hu
  · rw [hb.list] at hu
    have hut : u ≠ t := fun he => hu (he ▸ ht)
    rw [hb.count u hut]
    exact h.out u hu

/-- **The threads stay in time.** -/
theorem Timed.step (h : Timed s) (hb : Beside t s s') (hbeat : Beat s t s') (ht : t ∈ s.ptst_list) :
    Timed s' := by
  have hin : ∀ u, InTime succ (s'.clock fun _ => ∅) u :=
    inTime_tick succ_ne h.inTime (h.tick hb hbeat fun _ => Set.Subset.refl _)
  cases hbeat with
  | rest hq hc hr hcount he =>
    refine h.of hb hin (Or.inl hc) (Or.inl hr) (fun hrr => ?_) (fun c hrc => ?_) (fun l hl => ?_)
      (fun hn => ?_) ht
    · rw [hq] at hrr
      exact ⟨Or.inl hrr, by rw [hr]; exact h.lock t hrr⟩
    · rw [hc]
      exact h.curr t c (hq ▸ hrc)
    · exact h.first t l (hq ▸ hl)
    · rw [hcount]
      exact h.counted t (hq ▸ hn)
  | still hq hc hr hcount he =>
    refine h.of hb hin (Or.inl hc) (Or.inl hr) (fun hrr => ?_) (fun c hrc => ?_)
      (fun l hl => absurd hl (hq.first l)) (fun hn => ?_) ht
    · exact ⟨Or.inl (hq.reclaims hrr), by rw [hr]; exact h.lock t (hq.reclaims hrr)⟩
    · rw [hc]
      exact h.curr t c (hq.curr c hrc)
    · rw [hcount]
      exact (hq.counted hn).elim (h.counted t) id
  | count hpc hq hc hr hone hcount he =>
    refine h.of hb hin (Or.inl hc) (Or.inl hr) ?_ ?_ ?_ (fun _ => by rw [hcount]; decide) ht
    · rw [hq]; exact fun h => absurd rfl h
    · rw [hq]; exact nofun
    · rw [hq]; exact nofun
  | again hpc hq hc hr hone hcount he =>
    refine h.of hb hin (Or.inl hc) (Or.inl hr) ?_ ?_ ?_ ?_ ht
    · rw [hq]; exact fun h => absurd rfl h
    · rw [hq]; exact nofun
    · rw [hq]; exact nofun
    · rw [hq]; exact fun h => absurd rfl h
  | look hpc hq hc hr hcount he =>
    refine h.of hb hin (Or.inl hc) (Or.inl hr) ?_ ?_ ?_ (fun _ => ?_) ht
    · rw [hq]; exact fun h => absurd rfl h
    · rw [hq]; exact nofun
    · rw [hq]; exact nofun
    · rw [hcount]
      exact h.counted t (by rw [hpc]; trivial)
  | level hpc hq hc hr hcount he hcur =>
    refine h.of hb hin (Or.inl hc) (Or.inl hr) ?_ ?_ ?_ (fun _ => ?_) ht
    · cases hq with | _ hq => rw [hq]; exact fun h => absurd rfl h
    · cases hq with | _ hq => rw [hq]; exact nofun
    · cases hq with | _ hq => rw [hq]; exact nofun
    · rw [hcount]
      exact h.counted t (by rw [hpc]; trivial)
  | store e hpc hq hc hr hcount he =>
    refine h.of hb hin (Or.inl hc) (Or.inl hr) ?_ ?_ ?_ ?_ ht
    · rw [hq]; exact fun h => absurd rfl h
    · rw [hq]; exact nofun
    · rw [hq]; exact nofun
    · rw [hq]; exact fun h => absurd rfl h
  | leave hpc hq hc hr hcount he =>
    refine h.of hb hin (Or.inl hc) (Or.inl hr) ?_ ?_ ?_ ?_ ht
    · cases hq with | _ hq => rw [hq]; exact fun h => absurd rfl h
    · cases hq with | _ hq => rw [hq]; exact nofun
    · cases hq with | _ hq => rw [hq]; exact nofun
    · cases hq with | _ hq => rw [hq]; exact fun h => absurd rfl h
  | lock hpc hq hc hfree hr hcount he =>
    have hset : s'.inreclaim ≠ 0 := by rw [hr]; exact Nat.one_ne_zero
    refine h.of hb hin (Or.inl hc) (Or.inr (Or.inr hset)) (fun _ => ⟨Or.inr hfree, hset⟩) ?_ ?_ ?_ ht
    · rw [hq]; exact nofun
    · rw [hq]; exact nofun
    · rw [hq]; exact fun h => absurd rfl h
  | first hpc hq hc hr hcount he =>
    have hold : (s.pc t).reclaims := by rw [hpc]; trivial
    refine h.of hb hin (Or.inl hc) (Or.inl hr) (fun _ => ⟨Or.inl hold, by rw [hr]; exact h.lock t hold⟩)
      ?_ ?_ ?_ ht
    · rw [hq]; exact nofun
    · rw [hq]; exact fun l hl => (Pc.rcCurrent.inj hl).symm
    · rw [hq]; exact fun h => absurd rfl h
  | scan l hpc hq hc hr hcount he =>
    have hold : (s.pc t).reclaims := by rw [hpc]; trivial
    refine h.of hb hin (Or.inl hc) (Or.inl hr) (fun _ => ⟨Or.inl hold, by rw [hr]; exact h.lock t hold⟩)
      ?_ ?_ ?_ ht
    · rw [hq, curr_scan, hc]; exact fun c hc => (Option.some.inj hc).symm
    · rw [hq]; exact fun l' hl' => absurd hl' scan_ne_first
    · rw [hq]; exact fun h => absurd h scan_counted
  | pass c f v l hpc hq hc hr hcount he =>
    have hold : (s.pc t).reclaims ∧ (s.pc t).curr_epoch = some c := by
      cases hpc with | _ hpc => rw [hpc.1]; exact ⟨trivial, rfl⟩
    refine h.of hb hin (Or.inl hc) (Or.inl hr)
      (fun _ => ⟨Or.inl hold.1, by rw [hr]; exact h.lock t hold.1⟩) ?_ ?_ ?_ ht
    · rw [hq, curr_scan, hc]
      exact fun c' hc' => Option.some.inj hc' ▸ h.curr t c hold.2
    · rw [hq]; exact fun l' hl' => absurd hl' scan_ne_first
    · rw [hq]; exact fun h => absurd h scan_counted
  | behind c f v l hpc hq hc hr hcount he =>
    have hold : (s.pc t).reclaims := by rw [hpc]; trivial
    refine h.of hb hin (Or.inl hc) (Or.inl hr) (fun _ => ⟨Or.inl hold, by rw [hr]; exact h.lock t hold⟩)
      ?_ ?_ ?_ ht
    · rw [hq]; exact nofun
    · rw [hq]; exact nofun
    · rw [hq]; exact fun h => absurd rfl h
  | advance c hpc hq hc hr hcount he =>
    have hold : (s.pc t).reclaims := by rw [hpc]; trivial
    refine h.of hb hin (Or.inr hold) (Or.inl hr) (fun _ => ⟨Or.inl hold, by rw [hr]; exact h.lock t hold⟩)
      ?_ ?_ ?_ ht
    · rw [hq]; exact nofun
    · rw [hq]; exact nofun
    · rw [hq]; exact fun h => absurd rfl h
  | unlock hpc hq hc hr hcount he =>
    have hold : (s.pc t).reclaims := by rw [hpc]; trivial
    refine h.of hb hin (Or.inl hc) (Or.inr (Or.inl hold)) ?_ ?_ ?_ ?_ ht
    · rw [hq]; exact fun h => absurd rfl h
    · rw [hq]; exact nofun
    · rw [hq]; exact nofun
    · rw [hq]; exact fun h => absurd rfl h

end ConcurrentPQ.Collector

import ConcurrentPQ.Linden.CollectorClock
import Mathlib.Tactic.IntervalCases

/-!
# Schedules for the collector

The steps of `Collector` as a function, and the state that three threads find which use blocks of one size.

* `perform`, `perform_iff` — the step function;
* `rounds_path` — a thread that goes in and out of its critical section only counts this;
* `initialState`, `initialState_initial` — the state after three threads have been registered;
* `acts`, `acts_path` — a schedule that is carried out;
* `retires`, `run_of_retires` — a schedule in which a block is freed and another one is got afterwards;
* `retires_late` — one in which a thread frees a block two epochs late and gets it back.
-/

namespace ConcurrentPQ.Collector

open ConcurrentPQ.Transition ConcurrentPQ.Segment ConcurrentPQ.Circle
open ConcurrentPQ.Allocator (Chunk Block Ptst BLKS_PER_CHUNK NR_EPOCHS)

variable {n : ℕ} {s s' : State n} {t u : Tid} {m : Move n} {r : Option Block} {gc gc' : Ptst} {q q' : Pc n}

/-! ### Runs -/

abbrev Trace (n : ℕ) := List (Entry (State n) Tid (Move n × Option Block))

/-- A removal from a shared list is current. -/
abbrev CurrentEntry (x : Entry (State n) Tid (Move n × Option Block)) : Prop :=
  Chunks.Current x.pre.lists (x.pre.lists.pc x.who)

theorem Step.inside_of_ne (hstep : Step s t m r s') (ht : t ≠ u) (hu : s.Inside u) : s'.Inside u := by
  have hb := hstep.beat.1
  rw [State.Inside, hb.count u ht.symm, hb.pc u ht.symm]
  exact hu

/-- A thread stays in its critical section while others take their steps. -/
theorem Run.inside_of_ne {tr₁ tr₂ : Trace n} {x : Entry (State n) Tid (Move n × Option Block)}
    (hrun : Run (collector n) (tr₂ ++ x :: tr₁) s) (hx : x.pre.Inside u) (hwho : x.who ≠ u)
    (hne : ∀ y ∈ tr₂, y.who ≠ u) : s.Inside u ∧ ∀ y ∈ tr₂, y.pre.Inside u := by
  induction tr₂ generalizing s with
  | nil =>
    cases hrun with
    | step hrun hstep => exact ⟨hstep.inside_of_ne hwho hx, fun y hy => absurd hy List.not_mem_nil⟩
  | cons y tr₂ ih =>
    cases hrun with
    | step hrun hstep =>
      obtain ⟨hs, hpre⟩ := ih hrun fun y hy => hne y (List.mem_cons_of_mem _ hy)
      exact ⟨hstep.inside_of_ne (hne _ List.mem_cons_self) hs, List.forall_mem_cons.mpr ⟨hs, hpre⟩⟩

/-! ### The step function -/

def Pc.isIdle : Pc n → Bool
  | .idle => true
  | _ => false

theorem isIdle_iff {pc : Pc n} : pc.isIdle = true ↔ pc = .idle := by
  cases pc <;> simp [Pc.isIdle]

def Pc.isEntering : Pc n → Bool
  | .enCurrent | .enStore _ => true
  | _ => false

theorem isEntering_iff {pc : Pc n} :
    pc.isEntering = false ↔ pc ≠ .enCurrent ∧ ∀ new_epoch, pc ≠ .enStore new_epoch := by
  cases pc <;> simp [Pc.isEntering]

instance : Decidable (s.Ready t) :=
  decidable_of_iff (t ∈ s.ptst_list ∧ (s.pc t).isIdle = true ∧ s.lists.pc t = .idle)
    (and_congr_right fun _ => and_congr_left fun _ => isIdle_iff)

instance : Decidable (s.Inside t) :=
  decidable_of_iff (1 < (s.ptst t).count ∧ (s.pc t).isEntering = false)
    (and_congr_right fun _ => isEntering_iff)

/-- The step of a thread, if it may take it. -/
def perform (s : State n) (t : Tid) : Move n → Option (Option Block × State n)
  | .critical_enter => if s.Ready t then some (none, s.goto t .enCount) else none
  | .critical_exit => if s.Ready t ∧ s.Inside t then some (none, s.goto t .exCount) else none
  | .gc_alloc alloc_id => if s.Ready t then some (none, s.goto t (.alChunk alloc_id)) else none
  | .gc_free p alloc_id =>
    if s.Ready t ∧ s.Inside t ∧ s.held p = true then
      some (none, (s.setHeld p false).goto t (.frGarbage ⟨p, alloc_id⟩))
    else none
  | .run sz =>
    if t ∈ s.ptst_list then
      if s.lists.pc t = .idle then code s t else (listStep s t sz).map fun s' => (none, s')
    else none

/-- **The function takes the steps of the system.** -/
theorem perform_iff : perform s t m = some (r, s') ↔ Step s t m r s' := by
  constructor
  · intro h
    cases m with
    | critical_enter =>
      rw [perform] at h
      split at h
      · next hr => cases h; exact .critical_enter hr
      · cases h
    | critical_exit =>
      rw [perform] at h
      split at h
      · next hr => cases h; exact .critical_exit hr.1 hr.2
      · cases h
    | gc_alloc i =>
      rw [perform] at h
      split at h
      · next hr => cases h; exact .gc_alloc i hr
      · cases h
    | gc_free p i =>
      rw [perform] at h
      split at h
      · next hr => cases h; exact .gc_free p i hr.1 hr.2.1 hr.2.2
      · cases h
    | run sz =>
      rw [perform] at h
      split at h
      · next ht =>
        split at h
        · next hidle => exact .code ht hidle h
        · next hbusy =>
          obtain ⟨x, hx, he⟩ := Option.map_eq_some_iff.mp h
          cases he
          exact .lists ht hbusy hx
      · cases h
  · intro h
    cases h with
    | critical_enter hr => exact if_pos hr
    | critical_exit hr hin => exact if_pos ⟨hr, hin⟩
    | gc_alloc i hr => exact if_pos hr
    | gc_free p i hr hin hheld => exact if_pos ⟨hr, hin, hheld⟩
    | code ht hidle hcode => exact (if_pos ht).trans ((if_pos hidle).trans hcode)
    | lists ht hbusy hlist =>
      refine (if_pos ht).trans ((if_neg hbusy).trans ?_)
      rw [hlist]
      rfl

/-! ### In and out of a critical section -/

/-- The state in which thread `t` stands at `q` with the data `gc`. -/
def State.stand (s : State n) (t : Tid) (q : Pc n) (gc : Ptst) : State n := (s.setPtst t gc).goto t q

@[simp] theorem stand_pc : (s.stand t q gc).pc t = q := goto_pc

@[simp] theorem stand_ptst : (s.stand t q gc).ptst t = gc := setPtst_self

@[simp] theorem stand_goto : (s.stand t q gc).goto t q' = s.stand t q' gc := by
  simp [State.stand, State.goto, State.setPtst]

@[simp] theorem stand_setPtst : ((s.stand t q gc).setPtst t gc').goto t q' = s.stand t q' gc' := by
  simp [State.stand, State.goto, State.setPtst]

@[simp] theorem stand_current : (s.stand t q gc).current = s.current := rfl

theorem stand_idle (hpc : s.pc t = .idle) : s.stand t .idle gc = s.setPtst t gc := by
  rw [State.stand, State.goto, ← hpc]
  exact congrArg (fun pc => { s.setPtst t gc with pc := pc }) (Function.update_eq_self t s.pc)

theorem stand_self (hpc : s.pc t = .idle) : s.stand t .idle (s.ptst t) = s := by
  rw [stand_idle hpc, State.setPtst, Function.update_eq_self]

/-- A thread that goes in and out of a critical section counts this, and nothing else has changed. -/
theorem round_path {C : Entry (State n) Tid (Move n × Option Block) → Prop}
    (hC : ∀ x : Entry (State n) Tid (Move n × Option Block), x.who = t → x.pre.lists.pc t = .idle → C x)
    (ht : t ∈ s.ptst_list) (hlists : s.lists.pc t = .idle) (hone : gc.count = 1) (hepoch : gc.epoch = s.current)
    (hentries : gc.entries_since_reclaim ≠ 100) :
    Path (collector n) C (s.stand t .idle gc)
      (s.stand t .idle { gc with entries_since_reclaim := gc.entries_since_reclaim + 1 }) := by
  have hstep : ∀ {q q' : Pc n} {gc gc' : Ptst} {m : Move n}, Step (s.stand t q gc) t m none (s.stand t q' gc') →
      Path (collector n) C (s.stand t q gc) (s.stand t q' gc') :=
    fun hs => .single (hC ⟨_, t, (_, none), _⟩ rfl hlists) hs
  have hcode : ∀ {q q' : Pc n} {gc gc' : Ptst}, code (s.stand t q gc) t = some (none, s.stand t q' gc') →
      Path (collector n) C (s.stand t q gc) (s.stand t q' gc') := by
    intro q q' gc gc' h
    have hrun : Step (s.stand t q gc) t (.run 0) none (s.stand t q' gc') := .code ht hlists h
    exact hstep hrun
  have hready : ∀ gc : Ptst, (s.stand t .idle gc).Ready t := fun _ => ⟨ht, stand_pc, hlists⟩
  -- gc_enter
  have hcall : Path (collector n) C (s.stand t .idle gc) (s.stand t .enCount gc) := by
    have h := Step.critical_enter (hready gc)
    rw [stand_goto] at h
    exact hstep h
  have hcount : Path (collector n) C (s.stand t .enCount gc)
      (s.stand t .enCurrent { gc with count := gc.count + 1 }) := by
    apply hcode
    rw [code, stand_pc, stand_ptst]
    simp only [if_pos hone, stand_setPtst]
  have hcurrent : Path (collector n) C (s.stand t .enCurrent { gc with count := gc.count + 1 })
      (s.stand t .idle { gc with
        count := gc.count + 1, entries_since_reclaim := gc.entries_since_reclaim + 1 }) := by
    apply hcode
    rw [code, stand_pc, stand_ptst]
    simp only [stand_current, hepoch, ne_eq, not_true, if_false, if_neg hentries, stand_setPtst]
  -- gc_exit
  have hleave : ∀ gc : Ptst, 1 < gc.count →
      Path (collector n) C (s.stand t .idle gc) (s.stand t .exCount gc) := by
    intro gc hin
    have hinside : (s.stand t .idle gc).Inside t := by
      rw [State.Inside, stand_pc, stand_ptst]
      exact ⟨hin, by simp, by simp⟩
    have h := Step.critical_exit (hready gc) hinside
    rw [stand_goto] at h
    exact hstep h
  have hexit : ∀ gc : Ptst, Path (collector n) C (s.stand t .exCount gc)
      (s.stand t .idle { gc with count := gc.count - 1 }) := by
    intro gc
    apply hcode
    rw [code, stand_pc, stand_ptst]
    simp only [stand_setPtst]
  have hin : 1 < gc.count + 1 := by
    rw [hone]
    decide
  have hout : gc.count + 1 - 1 = gc.count := by
    rw [hone]
    decide
  have hpath := (((hcall.trans hcount).trans hcurrent).trans (hleave _ hin)).trans (hexit _)
  simp only [hout] at hpath
  exact hpath

/-- Several times in and out. -/
theorem rounds_path {C : Entry (State n) Tid (Move n × Option Block) → Prop}
    (hC : ∀ x : Entry (State n) Tid (Move n × Option Block), x.who = t → x.pre.lists.pc t = .idle → C x)
    (ht : t ∈ s.ptst_list) (hlists : s.lists.pc t = .idle) (hone : gc.count = 1) (hepoch : gc.epoch = s.current)
    (hentries : gc.entries_since_reclaim = 0) {k : ℕ} (hk : k ≤ 100) :
    Path (collector n) C (s.stand t .idle gc)
      (s.stand t .idle { gc with entries_since_reclaim := .ofNat k }) := by
  induction k with
  | zero =>
    have hsame : { gc with entries_since_reclaim := 0 } = gc := by rw [← hentries]
    exact hsame ▸ .refl
  | succ k ih =>
    have hne : UInt32.ofNat k ≠ 100 := fun h => by
      have hk' := congrArg UInt32.toNat h
      rw [UInt32.toNat_ofNat', Nat.mod_eq_of_lt (by omega)] at hk'
      exact absurd hk' (Nat.ne_of_lt hk)
    rw [UInt32.ofNat_add]
    exact (ih (Nat.le_of_succ_le hk)).trans (round_path hC ht hlists hone hepoch hne)

/-! ### Three threads -/

/-- The `next` fields after three calls of `gc_init` for one block size.  Each thread has taken 100 empty
chunks for its cache, 31 of which have become allocation chunks that are not used, and a filled one. -/
def initialNext (c : Chunk) : Chunk :=
  if c = 0 then 311 else if c = 999 then 0
  else if c = 1 then 5 else if c = 10 then 1
  else if c < 5 then c
  else if 11 ≤ c ∧ c < 311 then
    if (c - 11) % 100 = 0 then c + 32
    else if (c - 11) % 100 < 32 then c
    else if (c - 11) % 100 = 99 then c - 99
    else c + 1
  else c + 1

/-- The state after threads 0, 1 and 2 have been registered; blocks have 8 bytes. -/
def initialState : State 1 where
  lists := { next := initialNext, brk := 1000, own := fun _ => [], pc := fun _ => .idle }
  i c := if 1 ≤ c ∧ c ≤ 10 then some BLKS_PER_CHUNK
    else if 11 ≤ c ∧ c < 311 ∧ 1 ≤ (c - 11) % 100 ∧ (c - 11) % 100 < 32 then some 0 else none
  blk c k := 4096 + (c - 1) * 800 + k * 8
  node := 12096
  blk_sizes _ := 8
  current := 0
  inreclaim := 0
  ptst_list := [2, 1, 0]
  ptst t :=
    { count := if t < 3 then 1 else 0
      epoch := 0
      entries_since_reclaim := 0
      garbage := fun _ _ => none
      garbage_tail := fun _ _ => none
      chunk_cache := 11 + 100 * t
      alloc := fun i => if i = 0 then 2 + t else 11 + 100 * t + i
      alloc_chunks := fun _ => 0 }
  pc _ := .idle
  held _ := false

def initialBody : Chunks.Lst 1 → List Chunk
  | .free => List.range' 311 689
  | .alloc _ => List.range' 5 6

def initialPlace : Place 1 → List Chunk
  | .cache t => if t < 3 then (11 + 100 * t) :: List.range' (43 + 100 * t) 68 else []
  | .alloc t _ => if t < 3 then [2 + t] else []
  | _ => []

/-- The place a chunk can only be in. -/
def initialOwner (c : Chunk) : Place 1 := if c < 11 then .alloc (c - 2) 0 else .cache ((c - 11) / 100)

theorem cache_mem {c t : ℕ} (ht : t < 3) (hc : c = 11 + 100 * t ∨ (43 + 100 * t ≤ c ∧ c < 43 + 100 * t + 68)) :
    11 ≤ c ∧ c < 311 ∧ (c - 11) / 100 = t := by omega

theorem alloc_mem {c t : ℕ} (ht : t < 3) (hc : c = 2 + t) : 1 < c ∧ c < 5 ∧ c - 2 = t := by omega

theorem initialPlace_mem {p : Place 1} {c : ℕ} (h : c ∈ initialPlace p) :
    initialOwner c = p ∧ ((1 < c ∧ c < 5) ∨ (11 ≤ c ∧ c < 311)) := by
  cases p with
  | cache t =>
    rw [initialPlace] at h
    split at h
    · next ht =>
      rw [List.mem_cons, List.mem_range'_1] at h
      have hc := cache_mem ht h
      refine ⟨?_, Or.inr ⟨hc.1, hc.2.1⟩⟩
      rw [initialOwner, if_neg (Nat.not_lt.mpr hc.1), hc.2.2]
    · cases h
  | alloc t i =>
    rw [initialPlace] at h
    split at h
    · next ht =>
      have hc := alloc_mem ht (List.mem_singleton.mp h)
      refine ⟨?_, Or.inl ⟨hc.1, hc.2.1⟩⟩
      rw [initialOwner, if_pos (Nat.lt_trans hc.2.1 (by decide)), hc.2.2, Subsingleton.elim i 0]
    · cases h
  | garbage t e i => cases h
  | hand t => cases h

theorem initialBody_mem {list : Chunks.Lst 1} {c : ℕ} (h : c ∈ initialBody list) :
    (list = .free ∧ 311 ≤ c ∧ c < 1000) ∨ (list = .alloc 0 ∧ 5 ≤ c ∧ c < 11) := by
  cases list with
  | free => exact Or.inl ⟨rfl, List.mem_range'_1.mp h⟩
  | alloc i => exact Or.inr ⟨by rw [Subsingleton.elim i 0], List.mem_range'_1.mp h⟩

theorem initialState_arranged : Arranged initialState initialBody initialPlace := by
  have hmem : ∀ t ∈ initialState.ptst_list, t < 3 := by decide
  refine ⟨by decide, fun list => ?_, ⟨fun list c hc => ?_, fun p c hc => ?_⟩, fun list list' c hc hc' => ?_,
    fun p q c hp hq => ?_, fun list p c hc hp => ?_, fun p => ?_, fun p => ?_, fun t ht => ?_, fun t ht i => ?_,
    fun _ _ _ => rfl, fun _ => rfl⟩
  · cases list with
    | free => decide +kernel
    | alloc i =>
      obtain rfl : i = 0 := Subsingleton.elim _ _
      decide +kernel
  · have hbound : ∀ c : ℕ, ((311 ≤ c ∧ c < 1000) ∨ (5 ≤ c ∧ c < 11)) → 1 < c ∧ c < 1000 := by omega
    exact hbound c ((initialBody_mem hc).imp And.right And.right)
  · have hbound : ∀ c : ℕ, ((1 < c ∧ c < 5) ∨ (11 ≤ c ∧ c < 311)) → 1 < c ∧ c < 1000 := by omega
    exact hbound c (initialPlace_mem hc).2
  · rcases initialBody_mem hc with ⟨rfl, h⟩ | ⟨rfl, h⟩
    · rcases initialBody_mem hc' with ⟨rfl, h'⟩ | ⟨rfl, h'⟩
      · rfl
      · omega
    · rcases initialBody_mem hc' with ⟨rfl, h'⟩ | ⟨rfl, h'⟩
      · omega
      · rfl
  · rw [← (initialPlace_mem hp).1, (initialPlace_mem hq).1]
  · have hbody := initialBody_mem hc
    have hplace := (initialPlace_mem hp).2
    omega
  · cases p with
    | cache t =>
      rw [initialPlace]
      split
      · rw [List.nodup_cons, List.mem_range'_1]
        refine ⟨fun hm => ?_, List.nodup_range'⟩
        exact absurd hm.1 (Nat.not_le.mpr (Nat.add_lt_add_right (by decide) _))
      · exact List.nodup_nil
    | alloc t i =>
      rw [initialPlace]
      split
      · exact List.nodup_singleton _
      · exact List.nodup_nil
    | garbage t e i => exact List.nodup_nil
    | hand t => exact List.nodup_nil
  · cases p with
    | cache t =>
      rw [initialPlace]
      split
      · rw [circ_cons]
        interval_cases t <;> decide +kernel
      · exact circ_nil
    | alloc t i =>
      rw [initialPlace]
      split
      · rw [circ_cons]
        interval_cases t <;> decide +kernel
      · exact circ_nil
    | garbage t e i => exact circ_nil
    | hand t => exact circ_nil
  · rw [initialPlace, if_pos (hmem t ht)]
    rfl
  · rw [initialPlace, if_pos (hmem t ht), Subsingleton.elim i 0]
    rfl

/-- The entries of the filled chunks. -/
theorem initialState_live {c k : ℕ} (h : initialState.Live c k) : 1 ≤ c ∧ c ≤ 10 ∧ k < 100 := by
  obtain ⟨j, hj, hk⟩ := h
  have hi : (if 1 ≤ c ∧ c ≤ 10 then some BLKS_PER_CHUNK
    else if 11 ≤ c ∧ c < 311 ∧ 1 ≤ (c - 11) % 100 ∧ (c - 11) % 100 < 32 then some 0 else none) = some j := hj
  split at hi
  · next hc =>
    cases hi
    exact ⟨hc.1, hc.2, hk⟩
  · split at hi
    · cases hi
      cases hk
    · cases hi

theorem initialBlk_inj {c d k j : ℕ} (hc : 1 ≤ c ∧ c ≤ 10 ∧ k < 100) (hd : 1 ≤ d ∧ d ≤ 10 ∧ j < 100)
    (he : 4096 + (c - 1) * 800 + k * 8 = 4096 + (d - 1) * 800 + j * 8) : c = d ∧ k = j := by omega

theorem initialBlk_lt {c k : ℕ} (hc : 1 ≤ c ∧ c ≤ 10 ∧ k < 100) :
    4096 + (c - 1) * 800 + k * 8 < 12096 := by omega

theorem initialState_initial : Initial initialState := by
  have hmem : ∀ t ∈ initialState.ptst_list, t < 3 := by decide
  refine ⟨rfl, rfl, fun _ => ⟨rfl, rfl⟩, fun _ => rfl, fun _ => (by decide : 0 < 8), fun t ht => ?_,
    fun t ht => ?_, ⟨_, _, initialState_arranged⟩, fun c k d j hc hd he => ?_, fun c k hc => ?_⟩
  · exact ⟨if_pos (hmem t ht), rfl, rfl, fun _ _ => ⟨rfl, rfl⟩, fun _ => rfl⟩
  · refine ⟨if_neg fun hlt => ht ?_, fun _ _ => ⟨rfl, rfl⟩⟩
    show t ∈ [2, 1, 0]
    interval_cases t <;> decide
  · exact initialBlk_inj (initialState_live hc) (initialState_live hd) he
  · exact initialBlk_lt (initialState_live hc)

/-! ### Schedules -/

/-- A thread takes a step, or goes a hundred times in and out of a critical section. -/
inductive Act where
  | step (t : Tid) (m : Move 1)
  | rounds (t : Tid)

def Act.who : Act → Tid
  | .step t _ => t
  | .rounds t => t

/-- A removal from a shared list has to be current. -/
def act (s : State 1) : Act → Option (State 1)
  | .step t m => if Chunks.Current s.lists (s.lists.pc t) then (perform s t m).map Prod.snd else none
  | .rounds t =>
    if s.Ready t ∧ (s.ptst t).count = 1 ∧ (s.ptst t).epoch = s.current ∧
        (s.ptst t).entries_since_reclaim = 0 then
      some (s.setPtst t { s.ptst t with entries_since_reclaim := 100 })
    else none

def acts : List Act → State 1 → Option (State 1)
  | [], s => some s
  | a :: as, s => (act s a).bind (acts as)

variable {s s' : State 1} {P : Tid → Prop} {a : Act} {as bs : List Act}

theorem act_path (h : act s a = some s') (hP : P a.who) :
    Path (collector 1) (fun x => CurrentEntry x ∧ P x.who) s s' := by
  cases a with
  | step t m =>
    rw [act] at h
    split at h
    · next hcur =>
      obtain ⟨x, hx, hs⟩ := Option.map_eq_some_iff.mp h
      subst hs
      exact .single (e := (m, x.1)) ⟨hcur, hP⟩ (perform_iff.mp hx)
    · cases h
  | rounds t =>
    rw [act] at h
    split at h
    · next hr =>
      obtain ⟨⟨ht, hpc, hlists⟩, hone, hepoch, hentries⟩ := hr
      cases h
      rw [← stand_idle hpc]
      have hC : ∀ x : Entry (State 1) Tid (Move 1 × Option Block), x.who = t → x.pre.lists.pc t = .idle →
          CurrentEntry x ∧ P x.who := by
        intro x hx hidle
        rw [CurrentEntry, hx, hidle]
        exact ⟨trivial, hP⟩
      have hpath := rounds_path hC ht hlists hone hepoch hentries (Nat.le_refl 100)
      rw [stand_self hpc] at hpath
      exact hpath
    · cases h

theorem acts_path (h : acts as s = some s') (hP : ∀ a ∈ as, P a.who) :
    Path (collector 1) (fun x => CurrentEntry x ∧ P x.who) s s' := by
  induction as generalizing s with
  | nil =>
    cases h
    exact .refl
  | cons a as ih =>
    obtain ⟨s₁, hs₁, hs'⟩ := Option.bind_eq_some_iff.mp h
    exact (act_path hs₁ (hP a List.mem_cons_self)).trans (ih hs' fun b hb => hP b (List.mem_cons_of_mem _ hb))

/-- Thread 0 is in a critical section when thread 1 frees `p`, and later a step of thread 1 returns `q`. -/
def retires (as : List Act) (p : Block) (bs : List Act) (q : Block) (late : Bool) : Bool :=
  (acts as initialState).any fun s₀ => (perform s₀ 1 (.gc_free p 0)).any fun x => (acts bs x.2).any fun s₂ =>
    (perform s₂ 1 (.run 1)).any fun y => decide (x.1 = none ∧ y.1 = some q ∧ s₀.Inside 0 ∧
      Chunks.Current s₀.lists (s₀.lists.pc 1) ∧ Chunks.Current s₂.lists (s₂.lists.pc 1) ∧
      decide ((s₀.ptst 1).epoch = succ s₀.current) = late)

/-- The run of which this is said: thread 0 stays in its critical section. -/
theorem run_of_retires {p q : Block} {late : Bool} (h : retires as p bs q late = true)
    (hne : ∀ b ∈ bs, b.who ≠ 0) :
    ∃ (tr₁ tr₂ : Trace 1) (s₀ s₁ s : State 1),
      Run (collector 1) (tr₂ ++ ⟨s₀, 1, (.gc_free p 0, none), s₁⟩ :: tr₁) s ∧
      (∀ x ∈ tr₂ ++ ⟨s₀, 1, (.gc_free p 0, none), s₁⟩ :: tr₁, CurrentEntry x) ∧
      decide ((s₀.ptst 1).epoch = succ s₀.current) = late ∧ s₀.Inside 0 ∧ (∀ x ∈ tr₂, x.pre.Inside 0) ∧
      ∃ x ∈ tr₂, x.ev.2 = some q := by
  obtain ⟨s₀, hs₀, h⟩ := (Option.any_eq_true _ _).mp h
  obtain ⟨⟨r₁, s₁⟩, hs₁, h⟩ := (Option.any_eq_true _ _).mp h
  obtain ⟨s₂, hs₂, h⟩ := (Option.any_eq_true _ _).mp h
  obtain ⟨⟨r₃, s₃⟩, hs₃, h⟩ := (Option.any_eq_true _ _).mp h
  obtain ⟨hr₁, hr₃, hin, hcur₀, hcur₂, hlate⟩ := of_decide_eq_true h
  dsimp only at hr₁ hr₃ hs₂
  rw [hr₁] at hs₁
  rw [hr₃] at hs₃
  -- up to the call of gc_free
  have hpath₁ := acts_path (P := fun _ => True) hs₀ fun _ _ => trivial
  obtain ⟨tr₁, hrun₁, hC₁⟩ := (Run.start initialState_initial).extend hpath₁
  rw [List.append_nil] at hrun₁
  have hfree := hrun₁.step (S := collector 1) (e := (.gc_free p 0, none)) (perform_iff.mp hs₁)
  -- up to the step that returns `q`
  obtain ⟨tr₂, hrun₂, hC₂⟩ := hfree.extend (acts_path (P := (· ≠ 0)) hs₂ hne)
  have hrun := hrun₂.step (S := collector 1) (e := (.run 1, some q)) (perform_iff.mp hs₃)
  have hinside := Run.inside_of_ne hrun₂ hin Nat.one_ne_zero fun x hx => (hC₂ x hx).2
  refine ⟨tr₁, _ :: tr₂, s₀, s₁, s₃, hrun, ?_, hlate, hin, List.forall_mem_cons.mpr hinside,
    _, List.mem_cons_self, rfl⟩
  have hcur : ∀ x ∈ tr₂ ++ ⟨s₀, 1, (.gc_free p 0, none), s₁⟩ :: tr₁, CurrentEntry x := by
    refine List.forall_mem_append.mpr ⟨fun x hx => (hC₂ x hx).1, ?_⟩
    exact List.forall_mem_cons.mpr ⟨hcur₀, fun x hx => (hC₁ x hx).1⟩
  exact List.forall_mem_cons.mpr ⟨hcur₂, hcur⟩

/-! ### A thread two epochs behind -/

/-- A thread calls a function and performs `k` accesses. -/
def call (t : Tid) (m : Move 1) (k : ℕ) : List Act := .step t m :: List.replicate k (.step t (.run 1))

/-- `k` blocks of the current chunk. -/
def takes (t : Tid) (k : ℕ) : List Act := (List.replicate k (call t (.gc_alloc 0) 2)).flatten

/-- Thread 1 gets 101 blocks.  While thread 2 takes the epoch from 0 to 2 and on to 0, thread 1 reads 2, and
before it has recorded this the epoch, which it recorded before, comes up again: thread 2 takes it to 1.  Then
thread 0 enters, and thread 1 frees 99 of its blocks. -/
def falling_behind : List Act :=
  call 1 .critical_enter 2 ++ takes 1 100 ++ call 1 (.gc_alloc 0) 8 ++ call 1 .critical_exit 1 ++
  .rounds 2 :: call 2 .critical_enter 18 ++ call 2 .critical_exit 1 ++
  .rounds 2 :: call 2 .critical_enter 18 ++ call 2 .critical_exit 1 ++
  .rounds 2 :: call 2 .critical_enter 13 ++ call 1 .critical_enter 2 ++ List.replicate 5 (.step 2 (.run 1)) ++
  call 2 .critical_exit 1 ++ .rounds 2 :: call 2 .critical_enter 19 ++ call 2 .critical_exit 1 ++
  .step 1 (.run 1) :: call 0 .critical_enter 3 ++
  call 1 (.gc_free 6488 0) 7 ++ (List.range 98).flatMap fun k => call 1 (.gc_free (6480 - 8 * k) 0) 3

/-- Thread 1 frees its last block and leaves, thread 2 puts the first garbage chunk of thread 1 on the
allocation list, and thread 1 gets blocks again, 99 of them from the chunk that it has. -/
def getting_again : List Act :=
  List.replicate 3 (.step 1 (.run 1)) ++ call 1 (.gc_free 8088 0) 10 ++ call 1 .critical_exit 1 ++
  .rounds 2 :: call 2 .critical_enter 28 ++ takes 1 99 ++ call 1 (.gc_alloc 0) 7

theorem retires_late : retires falling_behind 5696 getting_again 5696 true = true := by decide +kernel

end ConcurrentPQ.Collector

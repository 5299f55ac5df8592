import ConcurrentPQ.Lib.Transition
import Mathlib.Data.Fintype.Card
import Mathlib.Logic.Relation

/-!
# The start and stop signals of the benchmark

`main` and `run` of `pqbench.cpp`: the main thread creates the workers, waits until all of them have
arrived, sets `loop`, sleeps, clears `loop` and joins.  A worker arrives, spins until it reads `loop`
set, and performs operations until it reads it cleared.  One variable carries both signals, and the
barrier counts the workers that have arrived, not those that have seen the first signal.

* `Worker`, `Main`, `State`, `next`, `bench` — the program, one access at a time;
* `Inv` — arrivals are counted, and `loop` is set between the two stores;
* `Signalled`, `Unstranded` — the schedules in which no worker misses the start signal, and what they
  are to achieve;
* `Stranded` — a worker that missed the signal is never joined;
* `unstranded_iff` — **no worker is stranded exactly if each saw the signal**;
* `exists_stranded` — a run in which the only worker spins forever.
-/

namespace ConcurrentPQ.Bench

open ConcurrentPQ.Transition

/-! ### The program -/

/-- Program counters of `run`; `cnt` is the number of operations performed. -/
inductive Worker where
  | absent
  | arrive
  | spin
  | work (cnt : ℕ)
  | test (cnt : ℕ)
  | finished (measure : ℕ)
  deriving DecidableEq

/-- Program counters of `main`, from the creation of the threads on. -/
inductive Main where
  | create (i : ℕ)
  | wait
  | start
  | sleep
  | stop
  | join (i : ℕ)
  | done
  deriving DecidableEq

/-- The threads. -/
inductive Thread (nthreads : ℕ) where
  | main
  | worker (i : Fin nthreads)
  deriving DecidableEq

/-- The shared variables and where the threads stand. -/
structure State (nthreads : ℕ) where
  loop : Bool
  wait_barrier : ℕ
  main : Main
  worker : Fin nthreads → Worker

variable {nthreads : ℕ}

/-- Move a worker. -/
def State.goto (s : State nthreads) (i : Fin nthreads) (w : Worker) : State nthreads :=
  { s with worker := Function.update s.worker i w }

/-- The next access of `main`, if it is not blocked. -/
def nextMain (s : State nthreads) : Option (State nthreads) :=
  match s.main with
  | .create i =>
    if h : i < nthreads then some { s.goto ⟨i, h⟩ .arrive with main := .create (i + 1) }
    else some { s with main := .wait }
  | .wait => some { s with main := if s.wait_barrier ≠ nthreads then .wait else .start }
  | .start => some { s with loop := true, main := .sleep }
  | .sleep => some { s with main := .stop }
  | .stop => some { s with loop := false, main := .join 0 }
  | .join i =>
    if h : i < nthreads then
      match s.worker ⟨i, h⟩ with
      | .finished _ => some { s with main := .join (i + 1) }
      | _ => none
    else some { s with main := .done }
  | .done => none

/-- The next access of a worker. -/
def nextWorker (s : State nthreads) (i : Fin nthreads) : Option (State nthreads) :=
  match s.worker i with
  | .absent => none
  | .arrive => some { s.goto i .spin with wait_barrier := s.wait_barrier + 1 }
  | .spin => some (s.goto i (if s.loop = true then .work 0 else .spin))
  | .work cnt => some (s.goto i (.test (cnt + 1)))
  | .test cnt => some (s.goto i (if s.loop = true then .work cnt else .finished cnt))
  | .finished _ => none

/-- The next access of a thread. -/
def next (s : State nthreads) : Thread nthreads → Option (State nthreads)
  | .main => nextMain s
  | .worker i => nextWorker s i

/-- The benchmark with `nthreads` workers. -/
def bench (nthreads : ℕ) : System (State nthreads) (Thread nthreads) Unit where
  init s := s.loop = false ∧ s.wait_barrier = 0 ∧ s.main = .create 0 ∧ ∀ i, s.worker i = .absent
  step s t _ s' := next s t = some s'

/-! ### Where the threads stand -/

/-- The worker has been counted. -/
def Worker.arrived : Worker → Bool
  | .absent | .arrive => false
  | _ => true

/-- The worker has left its initial spin. -/
def Worker.running : Worker → Bool
  | .work _ | .test _ | .finished _ => true
  | _ => false

/-- The main thread has seen all workers arrive. -/
def Main.released : Main → Bool
  | .create _ | .wait => false
  | _ => true

/-- The main thread is between its two stores. -/
def Main.between : Main → Bool
  | .sleep | .stop => true
  | _ => false

/-- The main thread has stored `false`. -/
def Main.stopped : Main → Bool
  | .join _ | .done => true
  | _ => false

/-- The number of workers that have arrived. -/
def State.arrivals (s : State nthreads) : ℕ :=
  (Finset.univ.filter fun i => (s.worker i).arrived = true).card

/-- Worker `i` reads `loop` in its initial spin between the two stores. -/
def Signalled (tr : List (Entry (State nthreads) (Thread nthreads) Unit)) (i : Fin nthreads) :
    Prop :=
  ∃ x ∈ tr, x.who = .worker i ∧ x.pre.worker i = .spin ∧ x.pre.main.between = true

/-- The states that follow a state. -/
abbrev Follows : State nthreads → State nthreads → Prop :=
  Relation.ReflTransGen fun s s' => ∃ t, next s t = some s'

/-- Once the main thread has stored `false`, no worker is still in its initial spin, and every join
can return. -/
def Unstranded (s : State nthreads) : Prop :=
  s.main.stopped = true → (∀ i, s.worker i ≠ .spin) ∧ ∃ s', Follows s s' ∧ s'.main = .done

/-! ### The invariant -/

/-- What holds in every state of a run. -/
structure Inv (tr : List (Entry (State nthreads) (Thread nthreads) Unit)) (s : State nthreads) :
    Prop where
  barrier : s.wait_barrier = s.arrivals
  released : s.main.released = true → ∀ i, (s.worker i).arrived = true
  loop : s.loop = s.main.between
  running : ∀ i, (s.worker i).running = true ↔ Signalled tr i
  absent : ∀ k, s.main = .create k → ∀ i : Fin nthreads, k ≤ i.1 → s.worker i = .absent
  joined : ∀ k, s.main = .join k → ∀ i : Fin nthreads, i.1 < k → ∃ c, s.worker i = .finished c
  done : s.main = .done → ∀ i, ∃ c, s.worker i = .finished c

section Inv

variable {s s' : State nthreads} {t : Thread nthreads} {i j : Fin nthreads} {w : Worker}
  {tr : List (Entry (State nthreads) (Thread nthreads) Unit)}
  {x : Entry (State nthreads) (Thread nthreads) Unit}

@[simp] theorem goto_same : (s.goto i w).worker i = w := Function.update_self ..

theorem goto_of_ne (h : j ≠ i) : (s.goto i w).worker j = s.worker j := Function.update_of_ne h ..

theorem signalled_cons : Signalled (x :: tr) i ↔
    (x.who = .worker i ∧ x.pre.worker i = .spin ∧ x.pre.main.between = true) ∨ Signalled tr i := by
  simp [Signalled]

/-- A worker that stays arrived, or not arrived, leaves the count alone. -/
theorem arrivals_goto (h : w.arrived = (s.worker i).arrived) :
    (s.goto i w).arrivals = s.arrivals := by
  unfold State.arrivals
  congr 1
  ext j
  simp only [Finset.mem_filter, Finset.mem_univ, true_and]
  rcases eq_or_ne j i with rfl | hj
  · rw [goto_same, h]
  · rw [goto_of_ne hj]

/-- A worker that arrives is counted. -/
theorem arrivals_spin (h : (s.worker i).arrived = false) :
    (s.goto i .spin).arrivals = s.arrivals + 1 := by
  have hset : (Finset.univ.filter fun j => ((s.goto i .spin).worker j).arrived = true) =
      insert i (Finset.univ.filter fun j => (s.worker j).arrived = true) := by
    ext j
    simp only [Finset.mem_filter, Finset.mem_univ, true_and, Finset.mem_insert]
    rcases eq_or_ne j i with rfl | hj
    · simp [Worker.arrived]
    · simp [goto_of_ne hj, hj]
  unfold State.arrivals
  rw [hset, Finset.card_insert_of_notMem]
  simp [h]

/-- All workers have arrived when the count is complete. -/
theorem all_arrived (h : s.arrivals = nthreads) (i : Fin nthreads) :
    (s.worker i).arrived = true := by
  have hcard : (Finset.univ.filter fun i => (s.worker i).arrived = true).card =
      (Finset.univ : Finset (Fin nthreads)).card := by
    rw [Finset.card_univ, Fintype.card_fin]
    exact h
  have hall := Finset.filter_card_eq hcard
  exact hall i (Finset.mem_univ i)

/-- A step of the main thread is no signal. -/
theorem signalled_main (h : x.who = .main) : Signalled (x :: tr) i ↔ Signalled tr i := by
  rw [signalled_cons, h]
  simp

/-- The main thread moves on and leaves the workers alone. -/
theorem Inv.main_goto (h : Inv tr s) {m : Main} {b : Bool} (hb : b = m.between)
    (hr : m.released = true → ∀ i, (s.worker i).arrived = true) (hc : ∀ k, m ≠ .create k)
    (hj : ∀ k, m = .join k → ∀ i : Fin nthreads, i.1 < k → ∃ c, s.worker i = .finished c)
    (hd : m = .done → ∀ i, ∃ c, s.worker i = .finished c) :
    Inv (⟨s, .main, (), { s with main := m, loop := b }⟩ :: tr)
      { s with main := m, loop := b } where
  barrier := h.barrier
  released := hr
  loop := hb
  running i := by
    rw [signalled_main rfl]
    exact h.running i
  absent k hk := absurd hk (hc k)
  joined := hj
  done := hd

/-- The main thread creates a worker. -/
theorem Inv.create (h : Inv tr s) {k : ℕ} (hm : s.main = .create k) (hk : k < nthreads) :
    Inv (⟨s, .main, (), { s.goto ⟨k, hk⟩ .arrive with main := .create (k + 1) }⟩ :: tr)
      { s.goto ⟨k, hk⟩ .arrive with main := .create (k + 1) } := by
  have habs := h.absent k hm ⟨k, hk⟩ le_rfl
  refine ⟨?_, nofun, ?_, fun i => ?_, fun j hj i hi => ?_, nofun, nofun⟩
  · show s.wait_barrier = (s.goto ⟨k, hk⟩ .arrive).arrivals
    rw [arrivals_goto (by rw [habs]; rfl)]
    exact h.barrier
  · show s.loop = Main.between (.create (k + 1))
    rw [h.loop, hm]
    rfl
  · rw [signalled_main rfl, ← h.running i]
    dsimp only
    rcases eq_or_ne i ⟨k, hk⟩ with rfl | hi
    · rw [goto_same, habs]
      rfl
    · rw [goto_of_ne hi]
  · obtain rfl := Main.create.inj hj
    have hne : i ≠ ⟨k, hk⟩ := by
      rintro rfl
      exact absurd hi (Nat.not_succ_le_self _)
    dsimp only
    rw [goto_of_ne hne]
    exact h.absent k hm i (Nat.le_of_succ_le hi)

/-- An access of the main thread keeps the invariant. -/
theorem Inv.main_step (h : Inv tr s) (hstep : nextMain s = some s') :
    Inv (⟨s, .main, (), s'⟩ :: tr) s' := by
  have hrel := h.released
  have hloop := h.loop
  unfold nextMain at hstep
  cases hm : s.main with
  | create k =>
    rw [hm] at hstep hloop
    dsimp only at hstep
    split at hstep
    · rename_i hk
      obtain rfl := Option.some.inj hstep
      exact h.create hm hk
    · obtain rfl := Option.some.inj hstep
      exact h.main_goto hloop nofun nofun nofun nofun
  | wait =>
    rw [hm] at hstep hloop
    obtain rfl := Option.some.inj hstep
    by_cases hb : s.wait_barrier = nthreads
    · rw [if_neg (not_not.mpr hb)]
      exact h.main_goto hloop (fun _ => all_arrived (h.barrier.symm.trans hb)) nofun nofun nofun
    · rw [if_pos hb]
      exact h.main_goto hloop nofun nofun nofun nofun
  | start =>
    rw [hm] at hstep hrel
    obtain rfl := Option.some.inj hstep
    exact h.main_goto rfl (fun _ => hrel rfl) nofun nofun nofun
  | sleep =>
    rw [hm] at hstep hrel hloop
    obtain rfl := Option.some.inj hstep
    exact h.main_goto hloop (fun _ => hrel rfl) nofun nofun nofun
  | stop =>
    rw [hm] at hstep hrel
    obtain rfl := Option.some.inj hstep
    refine h.main_goto rfl (fun _ => hrel rfl) nofun (fun k hk i hi => ?_) nofun
    obtain rfl := Main.join.inj hk
    exact absurd hi (Nat.not_lt_zero _)
  | join k =>
    rw [hm] at hstep hrel hloop
    dsimp only at hstep
    split at hstep
    · rename_i hk
      split at hstep
      · rename_i c hf
        obtain rfl := Option.some.inj hstep
        refine h.main_goto hloop (fun _ => hrel rfl) nofun (fun k' hk' i hi => ?_) nofun
        obtain rfl := Main.join.inj hk'
        rcases Nat.lt_succ_iff_lt_or_eq.mp hi with hi | hi
        · exact h.joined k hm i hi
        · exact ⟨c, by rw [← hf]; congr 1; exact Fin.ext hi⟩
      · cases hstep
    · rename_i hk
      obtain rfl := Option.some.inj hstep
      exact h.main_goto hloop (fun _ => hrel rfl) nofun nofun
        fun _ i => h.joined k hm i (lt_of_lt_of_le i.2 (not_lt.mp hk))
  | done =>
    rw [hm] at hstep
    cases hstep

/-- A worker moves on. -/
theorem Inv.worker_goto (h : Inv tr s) {b : ℕ} (hne : s.worker i ≠ .absent)
    (hnf : ∀ c, s.worker i ≠ .finished c) (hb : b = (s.goto i w).arrivals)
    (ha : (s.worker i).arrived = true → w.arrived = true)
    (hr : w.running = true ↔
      (s.worker i = .spin ∧ s.main.between = true) ∨ (s.worker i).running = true) :
    Inv (⟨s, .worker i, (), { s.goto i w with wait_barrier := b }⟩ :: tr)
      { s.goto i w with wait_barrier := b } := by
  refine ⟨hb, fun hm j => ?_, h.loop, fun j => ?_, fun k hk j hj => ?_, fun k hk j hj => ?_,
    fun hd j => ?_⟩ <;> dsimp only
  · rcases eq_or_ne j i with rfl | hj
    · rw [goto_same]
      exact ha (h.released hm j)
    · rw [goto_of_ne hj]
      exact h.released hm j
  · rw [signalled_cons]
    rcases eq_or_ne j i with rfl | hj
    · rw [goto_same, hr, h.running j]
      simp
    · rw [goto_of_ne hj, h.running j]
      simp [hj.symm]
  · have habs := h.absent k hk j hj
    rw [goto_of_ne]
    · exact habs
    · rintro rfl
      exact hne habs
  · obtain ⟨c, hc⟩ := h.joined k hk j hj
    rw [goto_of_ne]
    · exact ⟨c, hc⟩
    · rintro rfl
      exact hnf c hc
  · obtain ⟨c, hc⟩ := h.done hd j
    rw [goto_of_ne]
    · exact ⟨c, hc⟩
    · rintro rfl
      exact hnf c hc

/-- An access of a worker keeps the invariant. -/
theorem Inv.worker_step (h : Inv tr s) (hstep : nextWorker s i = some s') :
    Inv (⟨s, .worker i, (), s'⟩ :: tr) s' := by
  unfold nextWorker at hstep
  cases hw : s.worker i with
  | absent =>
    rw [hw] at hstep
    cases hstep
  | arrive =>
    rw [hw] at hstep
    obtain rfl := Option.some.inj hstep
    refine h.worker_goto (by rw [hw]; nofun) (by rw [hw]; nofun) ?_ (fun _ => rfl)
      (by rw [hw]; simp [Worker.running])
    rw [arrivals_spin (by rw [hw]; rfl), h.barrier]
  | spin =>
    rw [hw] at hstep
    obtain rfl := Option.some.inj hstep
    refine h.worker_goto (b := s.wait_barrier) (by rw [hw]; nofun) (by rw [hw]; nofun) ?_ ?_ ?_
    · rw [arrivals_goto, h.barrier]
      rw [hw]
      split <;> rfl
    · intro _
      split <;> rfl
    · rw [hw, ← h.loop]
      cases s.loop <;> simp [Worker.running]
  | work c =>
    rw [hw] at hstep
    obtain rfl := Option.some.inj hstep
    refine h.worker_goto (b := s.wait_barrier) (by rw [hw]; nofun) (by rw [hw]; nofun) ?_
      (fun _ => rfl) (by rw [hw]; simp [Worker.running])
    rw [arrivals_goto (by rw [hw]; rfl), h.barrier]
  | test c =>
    rw [hw] at hstep
    obtain rfl := Option.some.inj hstep
    refine h.worker_goto (b := s.wait_barrier) (by rw [hw]; nofun) (by rw [hw]; nofun) ?_ ?_ ?_
    · rw [arrivals_goto, h.barrier]
      rw [hw]
      split <;> rfl
    · intro _
      split <;> rfl
    · rw [hw]
      cases s.loop <;> simp [Worker.running]
  | finished c =>
    rw [hw] at hstep
    cases hstep

theorem Inv.of_run (hrun : Run (bench nthreads) tr s) : Inv tr s := by
  refine hrun.history ?_ ?_
  · rintro s ⟨hl, hb, hm, hw⟩
    refine ⟨?_, ?_, ?_, fun i => ?_, fun k hk i _ => hw i, ?_, ?_⟩
    · rw [hb]
      symm
      rw [State.arrivals, Finset.card_eq_zero, Finset.filter_eq_empty_iff]
      intro i _
      rw [hw i]
      decide
    · rw [hm]
      nofun
    · rw [hl, hm]
      rfl
    · rw [hw i]
      simp [Worker.running, Signalled]
    · rw [hm]
      nofun
    · rw [hm]
      nofun
  · intro tr s t e s' _ ih hst
    cases t with
    | main => exact ih.main_step hst
    | worker i => exact ih.worker_step hst

end Inv

/-! ### After the stop signal -/

section Stop

variable {s s' : State nthreads} {i : Fin nthreads}
  {tr : List (Entry (State nthreads) (Thread nthreads) Unit)}

theorem Follows.step (t : Thread nthreads) (h : next s t = some s') : Follows s s' :=
  .single ⟨t, h⟩

/-- With `loop` cleared a worker that runs comes to its end. -/
theorem exists_finished (hl : s.loop = false) (hr : (s.worker i).running = true) :
    ∃ c, Follows s (s.goto i (.finished c)) := by
  have htest : ∀ {s : State nthreads} {c}, s.loop = false → s.worker i = .test c →
      Follows s (s.goto i (.finished c)) := by
    intro s c hl hw
    refine .step (.worker i) ?_
    simp [next, nextWorker, hw, hl]
  cases hw : s.worker i with
  | work c =>
    have hfirst : Follows s (s.goto i (.test (c + 1))) := by
      refine .step (.worker i) ?_
      simp [next, nextWorker, hw]
    refine ⟨c + 1, hfirst.trans ?_⟩
    have hsecond := htest (s := s.goto i (.test (c + 1))) hl goto_same
    have heq : (s.goto i (.test (c + 1))).goto i (.finished (c + 1)) =
        s.goto i (.finished (c + 1)) := by
      simp [State.goto]
    rw [heq] at hsecond
    exact hsecond
  | test c => exact ⟨c, htest hl hw⟩
  | finished c =>
    refine ⟨c, ?_⟩
    have heq : s.goto i (.finished c) = s := by
      rw [← hw]
      simp [State.goto]
    rw [heq]
  | absent | arrive | spin =>
    rw [hw] at hr
    cases hr

/-- With `loop` cleared all workers that run come to their end, one after the other. -/
theorem exists_all_finished (hl : s.loop = false) (hr : ∀ i, (s.worker i).running = true)
    (l : List (Fin nthreads)) :
    ∃ s', Follows s s' ∧ s'.loop = false ∧ s'.main = s.main ∧
      (∀ i, (s'.worker i).running = true) ∧ ∀ i ∈ l, ∃ c, s'.worker i = .finished c := by
  induction l with
  | nil => exact ⟨s, .refl, hl, rfl, hr, by simp⟩
  | cons i l ih =>
    obtain ⟨s', hf, hl', hm, hr', hfin⟩ := ih
    obtain ⟨c, hc⟩ := exists_finished hl' (hr' i)
    refine ⟨s'.goto i (.finished c), hf.trans hc, hl', hm, fun j => ?_, fun j hj => ?_⟩
    · rcases eq_or_ne j i with rfl | hj
      · rw [goto_same]
        rfl
      · rw [goto_of_ne hj]
        exact hr' j
    · rcases eq_or_ne j i with rfl | hne
      · exact ⟨c, goto_same⟩
      · rw [goto_of_ne hne]
        exact hfin j ((List.mem_cons.mp hj).resolve_left hne)

/-- The main thread joins workers that have come to their end. -/
theorem exists_joined {k : ℕ} (hm : s.main = .join k)
    (hfin : ∀ i, ∃ c, s.worker i = .finished c) : ∃ s', Follows s s' ∧ s'.main = .done := by
  induction h : nthreads - k generalizing s k with
  | zero =>
    refine ⟨{ s with main := .done }, .step .main ?_, rfl⟩
    have : ¬k < nthreads := by omega
    simp [next, nextMain, hm, this]
  | succ n ih =>
    have hlt : k < nthreads := by omega
    obtain ⟨c, hc⟩ := hfin ⟨k, hlt⟩
    have hstep : Follows s { s with main := .join (k + 1) } := by
      refine .step .main ?_
      simp [next, nextMain, hm, hlt, hc]
    obtain ⟨s', hf, hd⟩ := ih (s := { s with main := .join (k + 1) }) rfl hfin (by omega)
    exact ⟨s', hstep.trans hf, hd⟩

/-- A worker that still spins when `loop` is cleared for good is never joined. -/
structure Stranded (i : Fin nthreads) (s : State nthreads) : Prop where
  loop : s.loop = false
  spin : s.worker i = .spin
  main : ∃ k, s.main = .join k ∧ k ≤ i.1

theorem Stranded.step (h : Stranded i s) {t : Thread nthreads} (hstep : next s t = some s') :
    Stranded i s' := by
  obtain ⟨hl, hw, k, hm, hk⟩ := h
  have hother : ∀ {j : Fin nthreads} {w : Worker}, (j = i → w = .spin) →
      (s.goto j w).worker i = .spin := by
    intro j w hj
    rcases eq_or_ne i j with rfl | hne
    · rw [goto_same, hj rfl]
    · rw [goto_of_ne hne, hw]
  cases t with
  | main =>
    simp only [next, nextMain, hm, dif_pos (lt_of_le_of_lt hk i.2)] at hstep
    split at hstep
    · rename_i c hf
      obtain rfl := Option.some.inj hstep
      refine ⟨hl, hw, k + 1, rfl, lt_of_le_of_ne hk ?_⟩
      rintro rfl
      rw [hw] at hf
      cases hf
    · cases hstep
  | worker j =>
    simp only [next, nextWorker, hl] at hstep
    split at hstep
    · cases hstep
    · rename_i hj
      obtain rfl := Option.some.inj hstep
      exact ⟨hl, hother fun _ => rfl, k, hm, hk⟩
    · obtain rfl := Option.some.inj hstep
      exact ⟨hl, hother fun _ => rfl, k, hm, hk⟩
    · rename_i c hj
      obtain rfl := Option.some.inj hstep
      refine ⟨hl, hother fun he => ?_, k, hm, hk⟩
      rw [he, hw] at hj
      cases hj
    · rename_i c hj
      obtain rfl := Option.some.inj hstep
      refine ⟨hl, hother fun he => ?_, k, hm, hk⟩
      rw [he, hw] at hj
      cases hj
    · cases hstep

theorem Stranded.not_done (h : Stranded i s) (hf : Follows s s') : s'.main ≠ .done := by
  have hstr : Stranded i s' := by
    induction hf with
    | refl => exact h
    | tail _ hstep ih => exact ih.step hstep.choose_spec
  obtain ⟨-, -, k, hm, -⟩ := hstr
  rw [hm]
  nofun

/-- **No worker is stranded exactly if each saw the signal.**  In every run, all workers have left
their initial spin and all joins can return once `false` is stored, if and only if each worker reads
`loop` in its spin at least once between the two stores. -/
theorem unstranded_iff (hrun : Run (bench nthreads) tr s) :
    Unstranded s ↔ (s.main.stopped = true → ∀ i, Signalled tr i) := by
  have h := Inv.of_run hrun
  have hrel : s.main.stopped = true → s.main.released = true := by
    cases s.main <;> simp [Main.stopped, Main.released]
  have hloop : s.main.stopped = true → s.loop = false := by
    rw [h.loop]
    cases s.main <;> simp [Main.stopped, Main.between]
  constructor
  · intro hu hst i
    have hns := (hu hst).1 i
    have harr := h.released (hrel hst) i
    rw [← h.running i]
    cases hw : s.worker i <;> simp_all [Worker.arrived, Worker.running]
  · intro hs hst
    have hr : ∀ i, (s.worker i).running = true := fun i => (h.running i).mpr (hs hst i)
    refine ⟨fun i hw => ?_, ?_⟩
    · have := hr i
      rw [hw] at this
      cases this
    · cases hm : s.main with
      | join k =>
        obtain ⟨s', hf, -, hm', -, hfin⟩ :=
          exists_all_finished (hloop hst) hr (List.finRange nthreads)
        obtain ⟨s'', hf', hd⟩ := exists_joined (hm'.trans hm) fun i => hfin i (List.mem_finRange i)
        exact ⟨s'', hf.trans hf', hd⟩
      | done => exact ⟨s, .refl, hm⟩
      | create k | wait | start | sleep | stop =>
        rw [hm] at hst
        cases hst

end Stop

/-! ### Two runs -/

/-- The initial state. -/
def fresh (nthreads : ℕ) : State nthreads := ⟨false, 0, .create 0, fun _ => .absent⟩

/-- The next access of a thread, with its record. -/
def move (s : State nthreads) (t : Thread nthreads) :
    Option (Thread nthreads × Unit × State nthreads) := (next s t).map fun s' => (t, (), s')

/-- What holds of the outcome of a schedule holds at the end of some run. -/
theorem exists_run_of_schedule (as : List (Thread nthreads))
    (p : List (Entry (State nthreads) (Thread nthreads) Unit) × State nthreads → Bool)
    (h : (execute move as ([], fresh nthreads)).any p = true) :
    ∃ tr s, Run (bench nthreads) tr s ∧ p (tr, s) = true := by
  rw [Option.any_eq_true] at h
  obtain ⟨⟨tr, s⟩, hc, hp⟩ := h
  refine ⟨tr, s, .execute (fun s t t' e s' hm => ?_) (.start ⟨rfl, rfl, rfl, fun _ => rfl⟩) hc, hp⟩
  obtain ⟨s₁, hs₁, he⟩ := Option.map_eq_some_iff.mp hm
  cases he
  exact hs₁

/-- The worker reads `loop` while it is set. -/
theorem unstranded_iff_one : ∃ tr s, Run (bench 1) tr s ∧ s.main.stopped = true ∧
    (Unstranded s ↔ (s.main.stopped = true → ∀ i, Signalled tr i)) := by
  obtain ⟨tr, s, hrun, hp⟩ := exists_run_of_schedule
    [.main, .main, .worker 0, .main, .main, .worker 0, .main, .main]
    (fun c : List (Entry (State 1) (Thread 1) Unit) × State 1 => c.2.main.stopped) (by decide)
  exact ⟨tr, s, hrun, hp, unstranded_iff hrun⟩

/-- The main thread sets `loop` and clears it again before the worker reads it: the worker spins
forever. -/
theorem exists_stranded : ¬∀ (nthreads : ℕ), 1 ≤ nthreads →
    ∀ (tr : List (Entry (State nthreads) (Thread nthreads) Unit)) (s : State nthreads),
      Run (bench nthreads) tr s → Unstranded s := by
  intro hall
  obtain ⟨tr, s, hrun, hp⟩ := exists_run_of_schedule
    [.main, .main, .worker 0, .main, .main, .main, .main]
    (fun c : List (Entry (State 1) (Thread 1) Unit) × State 1 =>
      decide (c.2.loop = false ∧ c.2.worker 0 = .spin ∧ c.2.main = .join 0)) (by decide)
  obtain ⟨hl, hw, hm⟩ := of_decide_eq_true hp
  obtain ⟨-, s', hf, hd⟩ := hall 1 le_rfl tr s hrun (by rw [hm]; rfl)
  have hstr : Stranded 0 s := ⟨hl, hw, 0, hm, le_rfl⟩
  exact hstr.not_done hf hd

end ConcurrentPQ.Bench

import Mathlib.Data.List.Basic
import Mathlib.Logic.Relation
import Mathlib.Tactic.Common

/-!
# Labelled transition systems of interleaved threads

A system is a set of initial states and a step relation.  A step is taken by one thread and carries
an event, so a run remembers who did what and in which state:

* `System`, `Entry`, `Run` — systems, the record of one step, and finite runs, latest step first;
* `Run.invariant`, `Run.invariant_of`, `Run.history` — the induction rules: a property of states, a
  property of states along runs whose steps all meet a condition, and a property that also looks at
  the steps taken so far;
* `Run.forall_entry` — what holds of every step taken from a reachable state holds of every entry of
  a run;
* `Path`, `Run.extend` — steps that all meet a condition prolong a run;
* `since` — the part of a run since a thread's current call began;
* `execute`, `Run.execute` — a schedule carried out by a step function is a run.
-/

namespace ConcurrentPQ.Transition

/-- A labelled transition system: states `σ`, threads `ι`, events `ε`. -/
structure System (σ ι ε : Type*) where
  /-- The states a run may start in. -/
  init : σ → Prop
  /-- One atomic step of a thread, with the event it shows. -/
  step : σ → ι → ε → σ → Prop

/-- One step of a run: the state before it, the thread that took it, its event, the state after. -/
structure Entry (σ ι ε : Type*) where
  pre : σ
  who : ι
  ev : ε
  post : σ

variable {σ ι ε : Type*} {S : System σ ι ε}

/-- Finite runs, the latest step first. -/
inductive Run (S : System σ ι ε) : List (Entry σ ι ε) → σ → Prop
  | start {s : σ} : S.init s → Run S [] s
  | step {tr : List (Entry σ ι ε)} {s s' : σ} {t : ι} {e : ε} :
      Run S tr s → S.step s t e s' → Run S (⟨s, t, e, s'⟩ :: tr) s'

/-- A state some run reaches. -/
def Reachable (S : System σ ι ε) (s : σ) : Prop := ∃ tr, Run S tr s

/-- **Invariant rule.**  What holds initially and is kept by every step holds in every state
reached. -/
theorem Run.invariant {I : σ → Prop} (hinit : ∀ s, S.init s → I s)
    (hstep : ∀ s t e s', I s → S.step s t e s' → I s') {tr : List (Entry σ ι ε)} {s : σ}
    (hrun : Run S tr s) : I s := by
  induction hrun with
  | start h => exact hinit _ h
  | step _ h ih => exact hstep _ _ _ _ ih h

/-- **Invariant rule under a condition.**  Along a run whose steps all meet `C`, only those steps
have to keep the invariant. -/
theorem Run.invariant_of {C : Entry σ ι ε → Prop} {I : σ → Prop}
    (hinit : ∀ s, S.init s → I s)
    (hstep : ∀ s t e s', I s → S.step s t e s' → C ⟨s, t, e, s'⟩ → I s')
    {tr : List (Entry σ ι ε)} {s : σ} (hrun : Run S tr s) (hC : ∀ x ∈ tr, C x) : I s := by
  induction hrun with
  | start h => exact hinit _ h
  | step _ h ih =>
    have hlast := hC _ List.mem_cons_self
    exact hstep _ _ _ _ (ih fun x hx => hC x (List.mem_cons_of_mem _ hx)) h hlast

/-- **History rule.**  A property of the steps taken so far together with the state reached. -/
theorem Run.history {I : List (Entry σ ι ε) → σ → Prop} (hinit : ∀ s, S.init s → I [] s)
    (hstep : ∀ tr s t e s', Run S tr s → I tr s → S.step s t e s' →
      I (⟨s, t, e, s'⟩ :: tr) s')
    {tr : List (Entry σ ι ε)} {s : σ} (hrun : Run S tr s) : I tr s := by
  induction hrun with
  | start h => exact hinit _ h
  | step hr h ih => exact hstep _ _ _ _ _ hr ih h

/-- Every entry of a run is a step taken from a reachable state. -/
theorem Run.forall_entry {P : Entry σ ι ε → Prop} {tr : List (Entry σ ι ε)} {s : σ}
    (hP : ∀ tr s t e s', Run S tr s → S.step s t e s' → P ⟨s, t, e, s'⟩)
    (hrun : Run S tr s) : ∀ x ∈ tr, P x := by
  induction hrun with
  | start _ => intro x hx; cases hx
  | step hr h ih =>
    intro x hx
    cases hx with
    | head => exact hP _ _ _ _ _ hr h
    | tail _ hx => exact ih x hx

/-- Steps that all meet a condition lead from one state to another. -/
def Path (S : System σ ι ε) (C : Entry σ ι ε → Prop) : σ → σ → Prop :=
  Relation.ReflTransGen fun s s' => ∃ t e, C ⟨s, t, e, s'⟩ ∧ S.step s t e s'

theorem Path.single {C : Entry σ ι ε → Prop} {s s' : σ} {t : ι} {e : ε} (hC : C ⟨s, t, e, s'⟩)
    (hstep : S.step s t e s') : Path S C s s' :=
  Relation.ReflTransGen.single ⟨t, e, hC, hstep⟩

/-- A run goes on along a path. -/
theorem Run.extend {C : Entry σ ι ε → Prop} {tr : List (Entry σ ι ε)} {s s' : σ} (hrun : Run S tr s)
    (h : Path S C s s') : ∃ tr', Run S (tr' ++ tr) s' ∧ ∀ x ∈ tr', C x := by
  induction h with
  | refl => exact ⟨[], hrun, fun x hx => absurd hx List.not_mem_nil⟩
  | tail _ hlast ih =>
    obtain ⟨tr', hrun', hC⟩ := ih
    obtain ⟨t, e, hc, hstep⟩ := hlast
    exact ⟨_ :: tr', hrun'.step hstep, List.forall_mem_cons.mpr ⟨hc, hC⟩⟩

/-! ### The current call of a thread -/

section Since

variable [DecidableEq ι]

/-- The steps of a run since thread `t` last began a call, that call's own step included. -/
def since (isCall : ε → Bool) (t : ι) : List (Entry σ ι ε) → List (Entry σ ι ε)
  | [] => []
  | x :: tr => if x.who = t ∧ isCall x.ev = true then [x] else x :: since isCall t tr

/-- A step that begins no call of `t` is added to the steps of `t`'s current call. -/
theorem since_cons_of_not {isCall : ε → Bool} {t : ι} {x : Entry σ ι ε}
    {tr : List (Entry σ ι ε)} (h : ¬(x.who = t ∧ isCall x.ev = true)) :
    since isCall t (x :: tr) = x :: since isCall t tr := by
  rw [since, if_neg h]

theorem since_cons_of_call {isCall : ε → Bool} {t : ι} {x : Entry σ ι ε}
    {tr : List (Entry σ ι ε)} (h : x.who = t ∧ isCall x.ev = true) :
    since isCall t (x :: tr) = [x] := by
  rw [since, if_pos h]

end Since

/-! ### Schedules -/

section Execute

variable {α : Type*} {next : σ → α → Option (ι × ε × σ)}

/-- Carry out the moves of a schedule in turn and record the run. -/
def execute (next : σ → α → Option (ι × ε × σ)) :
    List α → List (Entry σ ι ε) × σ → Option (List (Entry σ ι ε) × σ)
  | [], c => some c
  | a :: as, (tr, s) =>
    match next s a with
    | some (t, e, s') => execute next as (⟨s, t, e, s'⟩ :: tr, s')
    | none => none

/-- If the step function only takes steps of the system, a schedule it carries out is a run. -/
theorem Run.execute (hnext : ∀ s a t e s', next s a = some (t, e, s') → S.step s t e s')
    {as : List α} {tr tr' : List (Entry σ ι ε)} {s s' : σ} (hrun : Run S tr s)
    (h : execute next as (tr, s) = some (tr', s')) : Run S tr' s' := by
  induction as generalizing tr s with
  | nil =>
    obtain ⟨rfl, rfl⟩ := Prod.mk.inj (Option.some.inj h)
    exact hrun
  | cons a as ih =>
    rw [Transition.execute] at h
    split at h
    · rename_i t e s₁ hs
      exact ih (hrun.step (hnext _ _ _ _ _ hs)) h
    · cases h

end Execute

end ConcurrentPQ.Transition

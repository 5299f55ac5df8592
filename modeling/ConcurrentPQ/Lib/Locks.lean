import Mathlib.Logic.Relation
import Mathlib.Logic.Function.Basic
import Mathlib.Tactic.Common

/-!
# Locks and wait-for cycles

Mutual-exclusion locks that are not reentrant: `holder l` is the thread that holds `l`, `holds t`
the locks thread `t` believes to hold, and `wants t` the lock it is waiting to acquire.

* `Owned`, `Owned.acquire`, `Owned.release`, `Owned.keep` — every lock is held by the one thread
  that believes so, and the steps that keep this;
* `WaitsFor`, `Deadlocked`, `OnCycle` — a thread waits for the holder of the lock it wants; a cycle
  of waiting threads;
* `exists_onCycle` — a cycle along which the wanted lock always grows, unless a thread satisfies
  `P`, has a thread that satisfies `P`.
-/

namespace ConcurrentPQ.Locks

variable {ι L : Type*}

/-! ### Who holds what -/

section Owned

/-- A lock is held by a thread exactly when the thread believes so. -/
def Owned (holder : L → Option ι) (holds : ι → List L) : Prop :=
  ∀ l t, holder l = some t ↔ l ∈ holds t

variable {holder : L → Option ι} {holds : ι → List L}

/-- A lock has one holder. -/
theorem Owned.unique (h : Owned holder holds) {l : L} {t u : ι} (ht : l ∈ holds t)
    (hu : l ∈ holds u) : t = u :=
  Option.some.inj (((h l t).mpr ht).symm.trans ((h l u).mpr hu))

variable [DecidableEq ι]

/-- A step that neither acquires nor releases a lock. -/
theorem Owned.keep (h : Owned holder holds) {t : ι} {ls : List L}
    (hls : ∀ l, l ∈ ls ↔ l ∈ holds t) : Owned holder (Function.update holds t ls) := by
  intro l u
  by_cases hu : u = t
  · subst hu
    rw [Function.update_self, hls]
    exact h l u
  · rw [Function.update_of_ne hu]
    exact h l u

variable [DecidableEq L]

/-- A free lock is acquired. -/
theorem Owned.acquire (h : Owned holder holds) {t : ι} {l : L} {ls : List L}
    (hfree : holder l = none) (hls : ∀ l', l' ∈ ls ↔ l' = l ∨ l' ∈ holds t) :
    Owned (Function.update holder l (some t)) (Function.update holds t ls) := by
  intro l' u
  have hno : ∀ u, l ∉ holds u := by
    intro u hu
    rw [← h l u, hfree] at hu
    cases hu
  by_cases hl : l' = l
  · subst hl
    rw [Function.update_self]
    by_cases hu : u = t
    · subst hu
      rw [Function.update_self, hls]
      simp
    · rw [Function.update_of_ne hu]
      constructor
      · intro he
        exact absurd (Option.some.inj he).symm hu
      · intro hm
        exact absurd hm (hno u)
  · rw [Function.update_of_ne hl]
    by_cases hu : u = t
    · subst hu
      rw [Function.update_self, hls, h l' u]
      simp [hl]
    · rw [Function.update_of_ne hu]
      exact h l' u

/-- A lock the thread holds is released. -/
theorem Owned.release (h : Owned holder holds) {t : ι} {l : L} {ls : List L}
    (hheld : l ∈ holds t) (hls : ∀ l', l' ∈ ls ↔ l' ∈ holds t ∧ l' ≠ l) :
    Owned (Function.update holder l none) (Function.update holds t ls) := by
  intro l' u
  by_cases hl : l' = l
  · subst hl
    rw [Function.update_self]
    by_cases hu : u = t
    · subst hu
      rw [Function.update_self, hls]
      simp
    · rw [Function.update_of_ne hu]
      constructor
      · intro he
        cases he
      · intro hm
        exact absurd (h.unique hm hheld) hu
  · rw [Function.update_of_ne hl]
    by_cases hu : u = t
    · subst hu
      rw [Function.update_self, hls, h l' u]
      simp [hl]
    · rw [Function.update_of_ne hu]
      exact h l' u

end Owned

/-! ### Waiting -/

section WaitsFor

/-- Thread `t` waits for a lock that thread `u` holds. -/
def WaitsFor (holder : L → Option ι) (wants : ι → Option L) (t u : ι) : Prop :=
  ∃ l, wants t = some l ∧ holder l = some u

/-- A thread on a cycle of threads waiting for each other. -/
def OnCycle (holder : L → Option ι) (wants : ι → Option L) (t : ι) : Prop :=
  Relation.TransGen (WaitsFor holder wants) t t

/-- Some threads wait for each other in a cycle. -/
def Deadlocked (holder : L → Option ι) (wants : ι → Option L) : Prop :=
  ∃ t, OnCycle holder wants t

variable {holder : L → Option ι} {wants : ι → Option L}

/-- A thread waits for at most one other. -/
theorem WaitsFor.det {t u v : ι} (h₁ : WaitsFor holder wants t u) (h₂ : WaitsFor holder wants t v) :
    u = v := by
  obtain ⟨l, hl, hu⟩ := h₁
  obtain ⟨l', hl', hv⟩ := h₂
  have heq : l = l' := Option.some.inj (hl.symm.trans hl')
  subst heq
  exact Option.some.inj (hu.symm.trans hv)

/-- Every thread on a cycle is waited for by a thread on the cycle. -/
theorem OnCycle.pred {t : ι} (h : OnCycle holder wants t) :
    ∃ u, OnCycle holder wants u ∧ WaitsFor holder wants u t := by
  obtain ⟨u, hu, hut⟩ := Relation.TransGen.tail'_iff.mp h
  exact ⟨u, Relation.TransGen.head' hut hu, hut⟩

/-- Every thread on a cycle waits for a thread on the cycle. -/
theorem OnCycle.succ {t : ι} (h : OnCycle holder wants t) :
    ∃ u, OnCycle holder wants u ∧ WaitsFor holder wants t u := by
  obtain ⟨u, htu, hu⟩ := Relation.TransGen.head'_iff.mp h
  exact ⟨u, Relation.TransGen.tail' hu htu, htu⟩

/-- The thread that a thread on a cycle waits for is on the cycle. -/
theorem OnCycle.next {t u : ι} (h : OnCycle holder wants t) (htu : WaitsFor holder wants t u) :
    OnCycle holder wants u := by
  obtain ⟨v, hv, htv⟩ := h.succ
  rw [htu.det htv]
  exact hv

/-- If what is wanted grows along every edge of a cycle between threads that do not satisfy `P`,
then a thread on the cycle satisfies `P`. -/
theorem exists_onCycle {P : ι → Prop} {f : ι → ℕ} (hd : Deadlocked holder wants)
    (hmono : ∀ t u, OnCycle holder wants t → WaitsFor holder wants t u → ¬P t → ¬P u → f t < f u) :
    ∃ t, OnCycle holder wants t ∧ P t := by
  by_contra hno
  push Not at hno
  obtain ⟨t, ht⟩ := hd
  -- along the way from `t` back to `t` the measure only grows
  have key : ∀ u, Relation.TransGen (WaitsFor holder wants) t u →
      OnCycle holder wants u ∧ f t < f u := by
    intro u htu
    induction htu with
    | single h =>
      have hu := ht.next h
      exact ⟨hu, hmono _ _ ht h (hno _ ht) (hno _ hu)⟩
    | tail _ h ih =>
      have hu := ih.1.next h
      exact ⟨hu, Nat.lt_trans ih.2 (hmono _ _ ih.1 h (hno _ ih.1) (hno _ hu))⟩
  exact Nat.lt_irrefl _ (key t ht).2

end WaitsFor

end ConcurrentPQ.Locks

import Mathlib.Logic.Relation
import Mathlib.Tactic.Common

/-!
# Total correctness of nondeterministic programs

`Eventually step Q s` says that every execution from `s` goes on until it meets `Q`, and that it does
meet it: no execution stops before, and none runs forever.

* `Eventually.mono`, `Eventually.bind`, `Eventually.next`, `Eventually.loop` — the rules for
  consequences, sequences, single steps, and loops with a measure;
* `Eventually.of_final`, `Eventually.exists_run`, `Eventually.reached`, `Eventually.exists_both` — what it
  says of the executions themselves.
-/

namespace ConcurrentPQ

variable {σ α : Type*} {step : σ → σ → Prop} {Q R : σ → Prop} {s s' : σ}

/-- Every execution from a state meets `Q`. -/
inductive Eventually (step : σ → σ → Prop) (Q : σ → Prop) : σ → Prop
  | now {s : σ} : Q s → Eventually step Q s
  | later {s : σ} : (∃ s', step s s') → (∀ s', step s s' → Eventually step Q s') →
      Eventually step Q s

namespace Eventually

/-- Executions that meet `Q`, and from there meet `R`. -/
theorem bind (h : Eventually step Q s) (hQ : ∀ s, Q s → Eventually step R s) :
    Eventually step R s := by
  induction h with
  | now h => exact hQ _ h
  | later hex _ ih => exact .later hex ih

theorem mono (h : Eventually step Q s) (hQ : ∀ s, Q s → R s) : Eventually step R s :=
  h.bind fun s hs => .now (hQ s hs)

/-- A step whose outcome is determined. -/
theorem next (hs : step s s') (hall : ∀ t, step s t → t = s') (h : Eventually step Q s') :
    Eventually step Q s :=
  .later ⟨s', hs⟩ fun t ht => hall t ht ▸ h

/-- **Loops.**  `here a` is the state at the loop head for the values `a` of the loop's variables; each
round ends in `Q` or at the loop head again, with a smaller measure. -/
theorem loop {I : α → Prop} (here : α → σ) (μ : α → ℕ)
    (h : ∀ a, I a →
      Eventually step (fun t => Q t ∨ ∃ b, I b ∧ t = here b ∧ μ b < μ a) (here a))
    {a : α} (ha : I a) : Eventually step Q (here a) := by
  induction hn : μ a using Nat.strongRecOn generalizing a with
  | _ n ih =>
    refine (h a ha).bind fun t ht => ?_
    rcases ht with ht | ⟨b, hb, rfl, hlt⟩
    · exact .now ht
    · exact ih (μ b) (hn ▸ hlt) hb rfl

/-- An execution that has come to its end meets what final states meet. -/
theorem of_final (h : Eventually step Q s) (hQ : ∀ t u, Q t → ¬step t u)
    (hrun : Relation.ReflTransGen step s s') (hfinal : ∀ u, ¬step s' u) : Q s' := by
  induction h with
  | @now s h =>
    rcases hrun.cases_head with rfl | ⟨t, ht, -⟩
    · exact h
    · exact absurd ht (hQ s t h)
  | @later s hex _ ih =>
    rcases hrun.cases_head with rfl | ⟨t, ht, hrun⟩
    · obtain ⟨t, ht⟩ := hex
      exact absurd ht (hfinal t)
    · exact ih t ht hrun

/-- Some execution meets `Q`. -/
theorem exists_run (h : Eventually step Q s) : ∃ t, Relation.ReflTransGen step s t ∧ Q t := by
  induction h with
  | now h => exact ⟨_, .refl, h⟩
  | later hex _ ih =>
    obtain ⟨s', hs⟩ := hex
    obtain ⟨t, hrun, ht⟩ := ih s' hs
    exact ⟨t, .head hs hrun, ht⟩

/-- The states in which executions meet `Q` are states they lead to. -/
theorem reached (h : Eventually step Q s) :
    Eventually step (fun t => Q t ∧ Relation.ReflTransGen step s t) s := by
  induction h with
  | now h => exact .now ⟨h, .refl⟩
  | later hex _ ih => exact .later hex fun s' hs => (ih s' hs).mono fun t ht => ⟨ht.1, .head hs ht.2⟩

/-- Two facts about the final states of the same executions. -/
theorem exists_both (h : Eventually step Q s) (h' : Eventually step R s)
    (hQ : ∀ t u, Q t → ¬step t u) (hR : ∀ t u, R t → ¬step t u) : ∃ t, Q t ∧ R t := by
  obtain ⟨t, hrun, ht⟩ := h.exists_run
  exact ⟨t, ht, h'.of_final hR hrun fun u => hQ t u ht⟩

end Eventually

end ConcurrentPQ

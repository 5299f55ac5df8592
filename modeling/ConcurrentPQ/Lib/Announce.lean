import Mathlib.Data.Set.Basic
import Mathlib.Tactic.Common

/-!
# Epochs that are announced late

In `Lib.Epoch` a reader enters in one step.  Here it first counts itself as a reader, then looks at the epoch,
and announces later what it has seen; and a reclaimer lets the readers pass one after the other, each
one that is not counted or whose announced epoch is the current one.  The announced epoch of a reader that
has not announced yet is an old one, which may be the current one by chance.

* `Stage`, `Clock` — how far a reader has come, the epoch, and who has been let pass;
* `Own`, `Sweep`, `Advance`, `Tick` — a reader moves, the reclaimer looks around or gives a limbo up, and
  the epoch advances;
* `InTime`, `inTime_tick` — **a reader is at most two epochs behind, and at most one when it is let pass**;
* `Guarded`, `Guarded.tick` — **what was retired in another epoch than the next one stays in its limbo
  while a reader is inside**.
-/

namespace ConcurrentPQ.Announce

/-- How far a reader has come. -/
inductive Stage (ε : Type*) where
  | out
  | counted
  | looked (e : ε)
  | inside

/-- The epoch, what the readers have announced, how far they have come, who has been let pass since the
reclaimer began, and what has been retired in each epoch. -/
structure Clock (ι ε β : Type*) where
  current : ε
  announced : ι → ε
  stage : ι → Stage ε
  passed : Set ι
  limbo : ε → Set β

variable {ι ε β : Type*} {next : ε → ε} {s s' : Clock ι ε β} {t u : ι} {b : β} {d : ε}

/-- What a reader may do: `a` and `g` are the epoch it has announced then and its stage. -/
inductive Move (s : Clock ι ε β) (t : ι) : ε → Stage ε → Prop
  | stay : Move s t (s.announced t) (s.stage t)
  | count : s.stage t = .out → Move s t (s.announced t) .counted
  | look : s.stage t = .counted → Move s t (s.announced t) (.looked s.current)
  | level : s.stage t = .counted → s.announced t = s.current → Move s t (s.announced t) .inside
  | announce {e : ε} : s.stage t = .looked e → Move s t e .inside
  | leave : Move s t (s.announced t) .out

/-- Reader `t` moves, or retires something. -/
structure Own (t : ι) (s s' : Clock ι ε β) : Prop where
  current : s'.current = s.current
  passed : s'.passed = s.passed
  others : ∀ u, u ≠ t → s'.announced u = s.announced u ∧ s'.stage u = s.stage u
  own : Move s t (s'.announced t) (s'.stage t)
  limbo : ∀ e, s.limbo e ⊆ s'.limbo e

/-- The reclaimer begins, lets a reader pass, gives up, or empties the limbo of the next epoch. -/
structure Sweep (next : ε → ε) (s s' : Clock ι ε β) : Prop where
  current : s'.current = s.current
  announced : s'.announced = s.announced
  stage : s'.stage = s.stage
  passed : ∀ u ∈ s'.passed, u ∈ s.passed ∨ s.stage u = .out ∨ s.announced u = s.current
  limbo : ∀ e, s.limbo e ⊆ s'.limbo e ∨ (e = next s.current ∧ ∀ u, u ∈ s.passed)

/-- The epoch advances when all readers have been let pass. -/
structure Advance (next : ε → ε) (s s' : Clock ι ε β) : Prop where
  all : ∀ u, u ∈ s.passed
  current : s'.current = next s.current
  announced : s'.announced = s.announced
  stage : s'.stage = s.stage
  passed : ∀ u, u ∉ s'.passed
  limbo : ∀ e, s.limbo e ⊆ s'.limbo e

/-- A step in which `t` is the reader that may move. -/
def Tick (next : ε → ε) (t : ι) (s s' : Clock ι ε β) : Prop :=
  Own t s s' ∨ Sweep next s s' ∨ Advance next s s'

/-! ### How late an announcement can be -/

/-- The epoch that `t` has seen is the current one, the one before, or the one before that; the last only if
`t` has not been let pass. -/
def InTime (next : ε → ε) (s : Clock ι ε β) (t : ι) : Prop :=
  match s.stage t with
  | .out | .counted => True
  | .looked e => e = s.current ∨
      (next e = s.current ∧ (t ∈ s.passed → s.announced t = s.current)) ∨
      (next (next e) = s.current ∧ s.announced t = next e ∧ t ∉ s.passed)
  | .inside => s.announced t = s.current ∨ next (s.announced t) = s.current ∨
      (next (next (s.announced t)) = s.current ∧ t ∉ s.passed)

theorem inTime_looked {e : ε} (h : s.stage t = .looked e) :
    InTime next s t ↔ e = s.current ∨
      (next e = s.current ∧ (t ∈ s.passed → s.announced t = s.current)) ∨
      (next (next e) = s.current ∧ s.announced t = next e ∧ t ∉ s.passed) := by
  rw [InTime, h]

theorem inTime_inside (h : s.stage t = .inside) :
    InTime next s t ↔ s.announced t = s.current ∨ next (s.announced t) = s.current ∨
      (next (next (s.announced t)) = s.current ∧ t ∉ s.passed) := by
  rw [InTime, h]

theorem InTime.congr (h : InTime next s t) (hc : s'.current = s.current)
    (ha : s'.announced t = s.announced t) (hg : s'.stage t = s.stage t)
    (hp : t ∈ s'.passed → t ∈ s.passed) : InTime next s' t := by
  cases hs : s.stage t with
  | out => rw [InTime, hg, hs]; trivial
  | counted => rw [InTime, hg, hs]; trivial
  | looked e =>
    rw [inTime_looked hs] at h
    rw [inTime_looked (hg.trans hs), hc, ha]
    exact h.imp_right (Or.imp (And.imp_right fun h hm => h (hp hm))
      (And.imp_right (And.imp_right fun h hm => h (hp hm))))
  | inside =>
    rw [inTime_inside hs] at h
    rw [inTime_inside (hg.trans hs), hc, ha]
    exact h.imp_right (Or.imp_right (And.imp_right fun h hm => h (hp hm)))

/-- A reader moves. -/
theorem InTime.own (h : InTime next s t) (ho : Own t s s') : InTime next s' t := by
  have hc := ho.current
  have hp := ho.passed
  generalize hg : s'.stage t = g
  generalize ha : s'.announced t = a
  have hmove := ho.own
  rw [hg, ha] at hmove
  cases hmove with
  | stay => exact h.congr hc ha hg fun hm => hp ▸ hm
  | count _ => rw [InTime, hg]; trivial
  | look _ => exact (inTime_looked hg).mpr (Or.inl hc.symm)
  | level _ he => exact (inTime_inside hg).mpr (Or.inl (ha.trans (he.trans hc.symm)))
  | announce hs =>
    rw [inTime_looked hs] at h
    rw [inTime_inside hg, ha, hc, hp]
    exact h.imp_right (Or.imp And.left (And.imp_right And.right))
  | leave => rw [InTime, hg]; trivial

/-- The reclaimer looks around. -/
theorem InTime.sweep (h₁ : ∀ e, next e ≠ e) (h : InTime next s t) (hw : Sweep next s s') : InTime next s' t := by
  have hc := hw.current
  have hg := congrFun hw.stage t
  have ha := congrFun hw.announced t
  by_cases hin : t ∈ s'.passed → t ∈ s.passed
  · exact h.congr hc ha hg hin
  · rw [Classical.not_imp] at hin
    have hnew := (hw.passed t hin.1).resolve_left hin.2
    cases hs : s.stage t with
    | out => rw [InTime, hg, hs]; trivial
    | counted => rw [InTime, hg, hs]; trivial
    | looked e =>
      have heq : s.announced t = s.current := by
        rw [hs] at hnew
        exact hnew.resolve_left nofun
      rw [inTime_looked hs] at h
      rw [inTime_looked (hg.trans hs), hc, ha]
      rcases h with he | ⟨he, -⟩ | ⟨he, hold, -⟩
      · exact Or.inl he
      · exact Or.inr (Or.inl ⟨he, fun _ => heq⟩)
      · -- the epoch it has announced is the one before the current one
        exact absurd (he.trans (heq.symm.trans hold)) (h₁ _)
    | inside =>
      have heq : s.announced t = s.current := by
        rw [hs] at hnew
        exact hnew.resolve_left nofun
      rw [inTime_inside (hg.trans hs), hc, ha]
      exact Or.inl heq

/-- The epoch advances. -/
theorem InTime.advance (h : InTime next s t) (hv : Advance next s s') : InTime next s' t := by
  have hc := hv.current
  have hg := congrFun hv.stage t
  have ha := congrFun hv.announced t
  have hin := hv.all t
  have hout := hv.passed t
  cases hs : s.stage t with
  | out => rw [InTime, hg, hs]; trivial
  | counted => rw [InTime, hg, hs]; trivial
  | looked e =>
    rw [inTime_looked hs] at h
    rw [inTime_looked (hg.trans hs), hc, ha]
    rcases h with he | ⟨he, hold⟩ | ⟨-, -, hnot⟩
    · exact Or.inr (Or.inl ⟨congrArg next he, fun hm => absurd hm hout⟩)
    · exact Or.inr (Or.inr ⟨congrArg next he, (hold hin).trans he.symm, hout⟩)
    · exact absurd hin hnot
  | inside =>
    rw [inTime_inside hs] at h
    rw [inTime_inside (hg.trans hs), hc, ha]
    rcases h with he | he | ⟨-, hnot⟩
    · exact Or.inr (Or.inl (congrArg next he))
    · exact Or.inr (Or.inr ⟨congrArg next he, hout⟩)
    · exact absurd hin hnot

/-- **No announcement is later than that.** -/
theorem inTime_tick (h₁ : ∀ e, next e ≠ e) (h : ∀ u, InTime next s u) (ht : Tick next t s s') (u : ι) :
    InTime next s' u := by
  rcases ht with ho | hw | hv
  · by_cases hu : u = t
    · rw [hu]
      exact (h t).own ho
    · exact (h u).congr ho.current (ho.others u hu).1 (ho.others u hu).2 fun hm => ho.passed ▸ hm
  · exact (h u).sweep h₁ hw
  · exact (h u).advance hv

/-- When all readers have been let pass, no one inside has announced the next epoch. -/
theorem announced_ne (h₁ : ∀ e, next e ≠ e) (h₂ : ∀ e, next (next e) ≠ e) (h : InTime next s t)
    (hs : s.stage t = .inside) (ht : t ∈ s.passed) : s.announced t ≠ next s.current := by
  intro he
  rw [inTime_inside hs, he] at h
  rcases h with hc | hc | ⟨-, hnot⟩
  · exact h₁ _ hc
  · exact h₂ _ hc
  · exact hnot ht

/-! ### What a reader may still see -/

/-- Reader `u` is inside, and `b` is in a limbo that is not given up before `u` has left. -/
def Guarded (next : ε → ε) (s : Clock ι ε β) (u : ι) (b : β) : Prop :=
  s.stage u = .inside ∧ ∃ d, b ∈ s.limbo d ∧
    (d = next s.current → u ∉ s.passed ∧ s.announced u ≠ s.current)

theorem Guarded.mem_limbo (h : Guarded next s u b) : ∃ d, b ∈ s.limbo d := by
  obtain ⟨-, d, hb, -⟩ := h
  exact ⟨d, hb⟩

/-- What is retired in an epoch that is not the next one is guarded for all that are inside. -/
theorem Guarded.of_retire (hu : s.stage u = .inside) (hb : b ∈ s.limbo d) (hd : d ≠ next s.current) :
    Guarded next s u b := ⟨hu, d, hb, fun he => absurd he hd⟩

theorem Guarded.own (h : Guarded next s u b) (ho : Own t s s') (hu : s'.stage u = .inside) :
    Guarded next s' u b := by
  obtain ⟨hs, d, hb, hd⟩ := h
  have ha : s'.announced u = s.announced u := by
    by_cases hut : u = t
    · rw [hut] at hs hu ⊢
      generalize hg : s'.stage t = g at hu
      generalize ha : s'.announced t = a
      have hmove := ho.own
      rw [hg, ha] at hmove
      cases hmove with
      | announce hl => rw [hs] at hl; cases hl
      | _ => rfl
    · exact (ho.others u hut).1
  refine ⟨hu, d, ho.limbo d hb, ?_⟩
  rw [ho.current, ho.passed, ha]
  exact hd

theorem Guarded.sweep (h : Guarded next s u b) (hw : Sweep next s s') : Guarded next s' u b := by
  obtain ⟨hs, d, hb, hd⟩ := h
  have hstage : s'.stage u = .inside := (congrFun hw.stage u).trans hs
  refine ⟨hstage, d, ?_, ?_⟩
  · cases hw.limbo d with
    | inl hsub => exact hsub hb
    | inr hall => exact absurd (hall.2 u) (hd hall.1).1
  · rw [hw.current, hw.announced]
    intro he
    refine ⟨fun hm => ?_, (hd he).2⟩
    rcases hw.passed u hm with hold | hout | hcur
    · exact (hd he).1 hold
    · rw [hs] at hout
      cases hout
    · exact (hd he).2 hcur

theorem Guarded.advance (h₁ : ∀ e, next e ≠ e) (h₂ : ∀ e, next (next e) ≠ e)
    (h : Guarded next s u b) (ht : InTime next s u) (hv : Advance next s s') : Guarded next s' u b := by
  obtain ⟨hs, d, hb, -⟩ := h
  have hstage : s'.stage u = .inside := (congrFun hv.stage u).trans hs
  refine ⟨hstage, d, hv.limbo d hb, fun _ => ⟨hv.passed u, ?_⟩⟩
  rw [hv.current, hv.announced]
  exact announced_ne h₁ h₂ ht hs (hv.all u)

/-- **A step keeps what is guarded** until the reader leaves. -/
theorem Guarded.tick (h₁ : ∀ e, next e ≠ e) (h₂ : ∀ e, next (next e) ≠ e) (h : Guarded next s u b)
    (hin : InTime next s u) (ht : Tick next t s s') (hu : s'.stage u = .inside) :
    Guarded next s' u b := by
  rcases ht with ho | hw | hv
  · exact h.own ho hu
  · exact h.sweep hw
  · exact h.advance h₁ h₂ hin hv

end ConcurrentPQ.Announce

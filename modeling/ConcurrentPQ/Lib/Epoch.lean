import Mathlib.Data.Set.Basic
import Mathlib.Data.Nat.ModEq
import Mathlib.Tactic.Common

/-!
# Epoch-based reclamation

Readers enter and leave.  What a reader retires goes into the limbo of the epoch it has entered in, and
the epochs are counted modulo `n`.  The epoch advances only when each reader has entered in the current
one; what is in the limbo of the new number is then released.

* `Epochs` — the epoch, the readers and the limbos;
* `Advance`, `Local`, `Turn` — the epoch advances, a thread enters, leaves or retires, and both;
* `Lag`, `Lag.turn` — a reader is in the current epoch or in the one before;
* `Guarded`, `Guarded.of_retire`, `Guarded.turn` — **with three epochs or more, what is retired while a
  reader is inside stays in a limbo until the reader leaves**.
-/

namespace ConcurrentPQ.Epoch

/-- The epoch, the epoch each reader has entered in, and what has been retired in each. -/
@[ext] structure Epochs (ι β : Type*) where
  current : ℕ
  reading : ι → Option ℕ
  limbo : ℕ → Set β

variable {ι β : Type*} {n : ℕ} {s s' s'' : Epochs ι β} {t u : ι} {b : β} {d : ℕ}

/-- Nothing happens but that things are retired. -/
structure Grow (s s' : Epochs ι β) : Prop where
  current : s'.current = s.current
  reading : s'.reading = s.reading
  limbo : ∀ e, s.limbo e ⊆ s'.limbo e

/-- The epoch advances: no reader is behind, and one limbo is given up. -/
structure Advance (n : ℕ) (s s' : Epochs ι β) : Prop where
  level : ∀ t e, s.reading t = some e → e = s.current
  current : s'.current = (s.current + 1) % n
  reading : s'.reading = s.reading
  limbo : ∀ e, e ≠ (s.current + 1) % n → s.limbo e ⊆ s'.limbo e

/-- Thread `t` enters, leaves or retires something. -/
structure Local (t : ι) (s s' : Epochs ι β) : Prop where
  current : s'.current = s.current
  others : ∀ u, u ≠ t → s'.reading u = s.reading u
  own : s'.reading t = s.reading t ∨ s'.reading t = none ∨
    (s.reading t = none ∧ s'.reading t = some s.current)
  limbo : ∀ e, s.limbo e ⊆ s'.limbo e

/-- What a call of thread `t` does: the epoch advances once at most, and then `t` enters, leaves or
retires something. -/
def Turn (n : ℕ) (t : ι) (s s' : Epochs ι β) : Prop :=
  ∃ m, (m = s ∨ Advance n s m) ∧ Local t m s'

theorem Local.turn (h : Local t s s') : Turn n t s s' := ⟨s, Or.inl rfl, h⟩

theorem Turn.others (h : Turn n t s s') (hu : u ≠ t) : s'.reading u = s.reading u := by
  obtain ⟨m, hm, hl⟩ := h
  rw [hl.others u hu]
  cases hm with
  | inl he => rw [he]
  | inr ha => rw [ha.reading]

theorem Grow.local (h : Grow s s') : Local t s s' :=
  ⟨h.current, fun u _ => congrFun h.reading u, Or.inl (congrFun h.reading t), h.limbo⟩

theorem Grow.then_local (h : Grow s s') (hl : Local t s' s'') : Local t s s'' := by
  refine ⟨hl.current.trans h.current, fun u hu => ?_, ?_, fun e => ?_⟩
  · rw [hl.others u hu, h.reading]
  · rw [← h.reading, ← h.current]
    exact hl.own
  · exact Set.Subset.trans (h.limbo e) (hl.limbo e)

theorem Grow.then_advance (h : Grow s s') (ha : Advance n s' s'') : Advance n s s'' := by
  refine ⟨fun t e he => ?_, ?_, ha.reading.trans h.reading, fun e he => ?_⟩
  · rw [← h.current]
    exact ha.level t e (by rw [h.reading]; exact he)
  · rw [ha.current, h.current]
  · exact Set.Subset.trans (h.limbo e) (ha.limbo e (by rw [h.current]; exact he))

theorem Grow.then_turn (h : Grow s s') (ht : Turn n t s' s'') : Turn n t s s'' := by
  obtain ⟨m, hm, hl⟩ := ht
  cases hm with
  | inl he => exact (h.then_local (he ▸ hl)).turn
  | inr ha => exact ⟨m, Or.inr (h.then_advance ha), hl⟩

/-! ### No reader is more than one epoch behind -/

/-- Each reader has entered in the current epoch or in the one before. -/
structure Lag (n : ℕ) (s : Epochs ι β) : Prop where
  lt : s.current < n
  reading : ∀ t e, s.reading t = some e → e < n ∧ (e = s.current ∨ (e + 1) % n = s.current)

theorem Lag.advance (h : Lag n s) (ha : Advance n s s') : Lag n s' := by
  have hn : 0 < n := Nat.zero_lt_of_lt h.lt
  refine ⟨?_, fun t e he => ?_⟩
  · rw [ha.current]
    exact Nat.mod_lt _ hn
  · rw [ha.reading] at he
    have hlevel := ha.level t e he
    refine ⟨(h.reading t e he).1, Or.inr ?_⟩
    rw [ha.current, hlevel]

theorem Lag.local (h : Lag n s) (hl : Local t s s') : Lag n s' := by
  refine ⟨?_, fun u e he => ?_⟩
  · rw [hl.current]
    exact h.lt
  · rw [hl.current]
    by_cases hu : u = t
    · rw [hu] at he
      rcases hl.own with hsame | hnone | ⟨-, hin⟩
      · exact h.reading t e (hsame ▸ he)
      · rw [hnone] at he
        cases he
      · rw [hin] at he
        cases he
        exact ⟨h.lt, Or.inl rfl⟩
    · rw [hl.others u hu] at he
      exact h.reading u e he

/-- **No call leaves a reader further behind.** -/
theorem Lag.turn (h : Lag n s) (ht : Turn n t s s') : Lag n s' := by
  obtain ⟨m, hm, hl⟩ := ht
  cases hm with
  | inl he => exact (he ▸ h).local hl
  | inr ha => exact (h.advance ha).local hl

/-! ### What a reader may still see -/

/-- Reader `u` is inside, and `b` is in a limbo which the next advance that `u` allows does not give up. -/
def Guarded (n : ℕ) (s : Epochs ι β) (u : ι) (b : β) : Prop :=
  ∃ e d, s.reading u = some e ∧ b ∈ s.limbo d ∧ (e = s.current → d ≠ (s.current + 1) % n)

theorem Guarded.mem_limbo (h : Guarded n s u b) : ∃ d, b ∈ s.limbo d := by
  obtain ⟨e, d, -, hb, -⟩ := h
  exact ⟨d, hb⟩

theorem Guarded.local (h : Guarded n s u b) (hl : Local t s s') (hu : s'.reading u ≠ none) :
    Guarded n s' u b := by
  obtain ⟨e, d, he, hb, hd⟩ := h
  refine ⟨e, d, ?_, hl.limbo d hb, by rw [hl.current]; exact hd⟩
  by_cases hut : u = t
  · rw [hut] at he hu ⊢
    rcases hl.own with hsame | hnone | ⟨hout, -⟩
    · exact hsame.trans he
    · exact absurd hnone hu
    · rw [hout] at he
      cases he
  · exact (hl.others u hut).trans he

theorem Guarded.advance (h : Guarded n s u b) (hlag : Lag n s) (hn : 1 < n) (ha : Advance n s s') :
    Guarded n s' u b := by
  obtain ⟨e, d, he, hb, hd⟩ := h
  have hlevel := ha.level u e he
  refine ⟨e, d, (congrFun ha.reading u).trans he, ha.limbo d (hd hlevel) hb, fun hcur => ?_⟩
  -- the reader is one behind now, so this advance was the last one it allows
  rw [hlevel, ha.current] at hcur
  have hlt := hlag.lt
  by_cases hlast : s.current + 1 = n
  · rw [hlast, Nat.mod_self] at hcur
    omega
  · rw [Nat.mod_eq_of_lt (by omega)] at hcur
    omega

/-- **A call keeps what is guarded** until the reader leaves. -/
theorem Guarded.turn (h : Guarded n s u b) (hlag : Lag n s) (hn : 1 < n) (ht : Turn n t s s')
    (hu : s'.reading u ≠ none) : Guarded n s' u b := by
  obtain ⟨m, hm, hl⟩ := ht
  cases hm with
  | inl he => exact (he ▸ h).local hl hu
  | inr ha => exact (h.advance hlag hn ha).local hl hu

/-- **What is retired is guarded** for each reader that is inside, if there are three epochs. -/
theorem Guarded.of_retire (hlag : Lag n s) (hn : 3 ≤ n) (hl : Local t s s') (ht : s.reading t = some d)
    (hb : b ∈ s'.limbo d) (hu : s'.reading u ≠ none) : Guarded n s' u b := by
  obtain ⟨e, he⟩ := Option.ne_none_iff_exists'.mp hu
  refine ⟨e, d, he, hb, fun _ hd => ?_⟩
  rw [hl.current] at hd
  have hlt := hlag.lt
  obtain ⟨hdn, hcur | hcur⟩ := hlag.reading t d ht
  · by_cases hlast : s.current + 1 = n
    · rw [hlast, Nat.mod_self] at hd
      omega
    · rw [Nat.mod_eq_of_lt (by omega)] at hd
      omega
  · rw [hd, Nat.mod_add_mod] at hcur
    by_cases hlast : s.current + 1 + 1 < n
    · rw [Nat.mod_eq_of_lt hlast] at hcur
      omega
    · rw [Nat.mod_eq_sub_mod (Nat.not_lt.mp hlast), Nat.mod_eq_of_lt (by omega)] at hcur
      omega

end ConcurrentPQ.Epoch

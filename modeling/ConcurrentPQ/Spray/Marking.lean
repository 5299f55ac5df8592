import ConcurrentPQ.Spray.Sorted

/-!
# Deleted nodes are marked

The thread that deletes a node marks all its pointers before it returns.  So a node that is deleted
has all its pointers marked, unless a thread is on its way to mark them.

* `AllMarked`, `worksOn` — the pointers of a node, and the node a thread is about to mark;
* `Attended.step`, `Attended.of_run` — the step lemma and the run lemma;
* `Attended.allMarked` — when no operation is in progress, every deleted node is marked.
-/

namespace ConcurrentPQ.Spray

open ConcurrentPQ.Transition

/-- All pointers of a node are marked. -/
def AllMarked (m : Mem) (n : NodeId) : Prop := ∀ i, i < (m n).toplevel → Marked m i n

/-- The node a thread has deleted or found deleted, and will have marked when it returns. -/
def worksOn : Pc → Option NodeId
  | .nvTail n | .nvVal n | .spVal n | .mkTop _ n | .mkNext _ n _ | .mkCas _ n _ _ => some n
  | _ => none

/-- A deleted node is marked, or a thread works on it. -/
def Attended (P : Set NodeId) (s : State) : Prop :=
  ∀ n, Inner P n → (s.sh.mem n).deleted ≠ 0 →
    AllMarked s.sh.mem n ∨ ∃ t, worksOn (s.thr t) = some n

section Access

variable {any : Bool} {s : Shared} {seed : ℕ} {P : Set NodeId} {Q : ℕ → Set NodeId} {pc : Pc}
  {n : NodeId} {i : ℕ}

theorem AllMarked.evolve {m m' : Mem} {P' : Set NodeId} (h : AllMarked m n)
    (ev : Evolve m P m' P') (hn : n ∈ P) : AllMarked m' n := fun i hi => by
  rw [(ev.data n hn).2] at hi
  exact ev.marked hn (h i hi)

theorem worksOn_mkDown {m : Mem} {site : MarkSite} (hm : Marked m i n) (habove : MarkedAbove m n i) :
    worksOn (mkDown site n i) = some n ∨ AllMarked m n := by
  unfold mkDown
  split
  · rename_i h0
    subst h0
    refine Or.inr fun j hj => ?_
    rcases Nat.eq_zero_or_pos j with rfl | hpos
    · exact hm
    · exact habove j hpos hj
  · exact Or.inl rfl

/-- A thread works on its node until that is marked. -/
theorem worksOn_access (hs : Shape s.mem s.brk P) (hok : Ok s.mem s.brk P pc)
    (h : Climbs s.mem Q pc) (hn : worksOn pc = some n) (ht : n ≠ tail) :
    worksOn (access any ⟨s, seed, pc⟩).pc = some n ∨ AllMarked (access any ⟨s, seed, pc⟩).sh.mem n := by
  cases pc with
  | nvTail x =>
    cases hn
    have htop := (hs.top n hok.1).1
    have hne : (s.mem n).next 0 ≠ ref NULL := fun he => ht ((hs.next_eq_null hok.1 htop).mp he)
    rw [access_loadNext rfl (hs.ne_null hok.1) htop]
    dsimp only
    rw [if_pos hne]
    exact Or.inl rfl
  | nvVal x =>
    cases hn
    rw [access_loadVal rfl (hs.ne_null hok.inner.mem)]
    exact Or.inl rfl
  | spVal x =>
    cases hn
    rw [access_loadVal rfl (hs.ne_null hok.inner.mem)]
    exact Or.inl rfl
  | mkTop site x =>
    cases hn
    have htop := (hs.top n hok.1.inner.mem).1
    rw [access_loadToplevel rfl (hs.ne_null hok.1.inner.mem)]
    dsimp only
    rw [if_neg (by omega)]
    exact Or.inl rfl
  | mkNext site x i =>
    cases hn
    obtain ⟨⟨hd, -⟩, hi⟩ := hok
    rw [access_loadNext rfl (hs.ne_null hd.inner.mem) hi]
    dsimp only
    split
    · rename_i hm
      exact worksOn_mkDown hm h
    · exact Or.inl rfl
  | mkCas site x i w =>
    cases hn
    obtain ⟨⟨hd, -⟩, hi, -⟩ := hok
    by_cases hhit : (s.mem n).next i = w
    · rw [access_cas_hit rfl (hs.ne_null hd.inner.mem) hi hhit]
      refine worksOn_mkDown ?_ fun j hij hj => ?_
      · unfold Marked
        rw [setNext_same]
        rfl
      · rw [setNext_toplevel] at hj
        unfold Marked
        rw [setNext_of_ne _ _ _ _ _ _ fun he => hij.ne' he.2]
        exact h j hij hj
    · rw [access_cas_miss rfl (hs.ne_null hd.inner.mem) hi fun he => hhit (Expected.word.inj he).symm]
      exact Or.inl rfl
  | _ => cases hn

/-- The thread that deletes a node works on it. -/
theorem worksOn_deleted (hs : Shape s.mem s.brk P) (hok : Ok s.mem s.brk P pc)
    (he : event s.mem pc = .deleteInc n) :
    worksOn (access any ⟨s, seed, pc⟩).pc = some n := by
  have hinc : ∀ {x : NodeId}, incEvent s.mem x = .deleteInc n → x = n ∧ (s.mem x).deleted = 0 := by
    intro x hx
    unfold incEvent at hx
    split at hx
    · rename_i hc
      exact ⟨Event.deleteInc.inj hx, hc.1⟩
    · cases hx
  cases pc with
  | rmInc f =>
    obtain ⟨rfl, hd⟩ := hinc he
    rw [access_fetchInc rfl (hs.ne_null hok.1.mem)]
    dsimp only
    rw [if_pos hd]
    rfl
  | nvInc x =>
    obtain ⟨rfl, hd⟩ := hinc he
    rw [access_fetchInc rfl (hs.ne_null hok.1)]
    dsimp only
    rw [if_neg (not_not.mpr hd)]
    rfl
  | spInc x =>
    obtain ⟨rfl, hd⟩ := hinc he
    rw [access_fetchInc rfl (hs.ne_null hok.mem)]
    dsimp only
    rw [if_neg (not_not.mpr hd)]
    rfl
  | insCas f =>
    rw [event] at he
    split at he <;> cases he
  | _ => cases he

end Access

section Runs

variable {P : Set NodeId} {Q : ℕ → Set NodeId} {s s' : State} {t : Tid} {e : Event}

/-- **The step lemma.** -/
theorem Attended.step (h : Attended P s) (hinv : LevelInv P Q s) (hstep : Step s t e s') :
    ∃ P' Q', LevelInv P' Q' s' ∧ Attended P' s' := by
  obtain ⟨P', Q', hinv', hc⟩ := hinv.step hstep
  refine ⟨P', Q', hinv', fun n hn hd => ?_⟩
  by_cases hdel : e = .deleteInc n
  · subst hdel
    right
    refine ⟨t, ?_⟩
    generalize he : Event.deleteInc n = e at hstep
    cases hstep with
    | call hidle hop => cases he
    | access any hbusy =>
      rw [advance]
      dsimp only
      rw [Function.update_self]
      exact worksOn_deleted hinv.inv.shape (hinv.inv.ok t) he.symm
    | ret hret => cases he
  · -- the node was deleted before
    obtain ⟨hnP, hd₀⟩ : Inner P n ∧ (s.sh.mem n).deleted ≠ 0 := by
      have quiet : (P' = P ∧ ∀ x, Inner P x → ((s'.sh.mem x).deleted = 0 ↔ (s.sh.mem x).deleted = 0)) →
          Inner P n ∧ (s.sh.mem n).deleted ≠ 0 := by
        rintro ⟨rfl, hall⟩
        exact ⟨hn, fun hz => hd ((hall n hn).mpr hz)⟩
      have heff := hc.effect
      cases e with
      | insertCas k =>
        obtain ⟨x, hx, rfl, hlive, -, hall⟩ := heff
        have hnP : n ∈ P := by
          rcases Set.mem_insert_iff.mp hn.mem with rfl | hm
          · exact absurd hlive.deleted hd
          · exact hm
        exact ⟨⟨hnP, hn.ne_head, hn.ne_tail⟩, by rw [← hall n hnP]; exact hd⟩
      | deleteInc x =>
        obtain ⟨rfl, -, -, hall⟩ := heff
        have hx : n ≠ x := fun he => hdel (by rw [he])
        exact ⟨hn, by rw [← hall n hn.mem hx]; exact hd⟩
      | call _ | ret _ | internal => exact quiet heff
    rcases h n hnP hd₀ with hm | ⟨u, hu⟩
    · exact Or.inl (hm.evolve hc.evolve hnP.mem)
    · by_cases hut : u = t
      · subst hut
        cases hstep with
        | call hidle hop =>
          rw [hidle] at hu
          cases hu
        | access any hbusy =>
          rcases worksOn_access hinv.inv.shape (hinv.inv.ok u) (hinv.climbs u) hu hn.ne_tail
            with hw | hm
          · refine Or.inr ⟨u, ?_⟩
            rw [advance]
            dsimp only
            rw [Function.update_self]
            exact hw
          · exact Or.inl hm
        | ret hret =>
          rw [hret] at hu
          cases hu
      · exact Or.inr ⟨u, by rw [hc.frame u hut]; exact hu⟩

/-- **The run lemma.** -/
theorem Attended.of_run {tr : List (Entry State Tid Event)} (hrun : Run sprayList tr s) :
    ∃ P Q, LevelInv P Q s ∧ Attended P s :=
  hrun.invariant (I := fun s => ∃ P Q, LevelInv P Q s ∧ Attended P s)
    (fun s h => ⟨_, _, .initial h, fun n hn _ => by
      have hmem : n = head ∨ n = tail := by simpa using hn.mem
      exact absurd hmem (not_or.mpr ⟨hn.ne_head, hn.ne_tail⟩)⟩)
    fun _ _ _ _ ⟨_, _, hinv, h⟩ hstep => h.step hinv hstep

/-- When no operation is in progress, every deleted node is marked. -/
theorem Attended.allMarked (h : Attended P s) (hidle : ∀ t, s.thr t = .idle) {n : NodeId}
    (hn : Inner P n) (hd : (s.sh.mem n).deleted ≠ 0) : AllMarked s.sh.mem n := by
  rcases h n hn hd with hm | ⟨t, ht⟩
  · exact hm
  · rw [hidle t] at ht
    cases ht

end Runs

end ConcurrentPQ.Spray

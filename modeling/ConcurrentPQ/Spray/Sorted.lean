import ConcurrentPQ.Spray.Climb
import ConcurrentPQ.Spray.Simulation

/-!
# The levels in the runs of a SprayList

In every state of a run each level is a chain from the head to the tail whose values increase.

* `LevelInv`, `LevelInv.step`, `LevelInv.of_run` — the invariant, the step lemma and the run lemma;
* `levels_sorted` — **every level stays strictly sorted**.
-/

namespace ConcurrentPQ.Spray

open ConcurrentPQ.Transition ConcurrentPQ.Segment

/-- **The invariant of a run**, with the nodes linked in on each level. -/
structure LevelInv (P : Set NodeId) (Q : ℕ → Set NodeId) (s : State) : Prop where
  inv : Inv P s
  levels : Levels s.sh.mem P Q
  climbs : ∀ t, Climbs s.sh.mem Q (s.thr t)
  climber : ∀ t u, t ≠ u → climber (s.thr t) ≠ NULL → climber (s.thr t) ≠ climber (s.thr u)

section Runs

variable {m : Mem} {brk : NodeId} {P : Set NodeId} {Q : ℕ → Set NodeId} {s s' : State} {t : Tid}
  {e : Event} {pc : Pc}

/-- The node a thread links in on the upper levels is a node of the list. -/
theorem Ok.climber_mem (h : Ok m brk P pc) (hne : climber pc ≠ NULL) : climber pc ∈ P := by
  cases pc with
  | upTest f i | upNew f i | upSet f i w | upVal f i | upCas f i e => exact h.1.mem
  | seLeft f s left i | seNext f s left ln r i | seVal f s left ln r rn i | seCas f s left ln r i =>
    cases s with
    | upper j => exact h.1.1.mem
    | insert => exact absurd rfl hne
    | remove rs => exact absurd rfl hne
    | cleanup a => exact absurd rfl hne
  | _ => exact absurd rfl hne

theorem climber_start (op : Op) : climber (start op) = NULL := by
  cases op <;> rfl

theorem Climbs.start (hl : Levels m P Q) (op : Op) : Climbs m Q (start op) := by
  cases op with
  | fraser_remove val rs => exact climbs_search hl trivial
  | fraser_insert v lvl => trivial
  | naive_delete_min => trivial
  | spray_delete_min n => trivial
  | sl_seq_add val lvl => trivial

/-- A new list. -/
theorem Levels.initial {s : Shared} (h : Fresh s) :
    Levels s.mem {head, tail} fun _ => {head, tail} := by
  have hmem : ∀ {n : NodeId}, n ∈ ({head, tail} : Set NodeId) ↔ n = head ∨ n = tail := by simp
  have htop : ∀ n ∈ ({head, tail} : Set NodeId), (s.mem n).toplevel = levelmax := by
    intro n hn
    rcases hmem.mp hn with rfl | rfl
    · exact h.head_top
    · exact h.tail_top
  refine ⟨rfl, fun _ => Set.Subset.rfl, fun i hi => ?_, fun n hn i j hij hj hm => ?_⟩
  · have hnext : succ s.mem i head = tail := by
      rw [succ, h.head_next i hi]
    have hhead : ∀ n ∈ ({head, tail} : Set NodeId), n ≠ tail → n = head :=
      fun n hn ht => (hmem.mp hn).resolve_right ht
    refine ⟨by simp, by simp, fun n hn => ?_, fun n hn ht => ?_, fun n hn hh ht => ?_,
      [head], ⟨rfl, hnext⟩, ?_, fun n hn ht _ => ?_⟩
    · rw [htop n hn]
      exact hi
    · rw [hhead n hn ht, hnext]
      exact ⟨by simp, by decide⟩
    · exact absurd (hhead n hn ht) hh
    · simp [head, tail]
    · rw [hhead n hn ht]
      exact List.mem_cons_self
  · rw [htop n hn] at hj
    have hun : ((s.mem n).next i).mark = false := by
      rcases hmem.mp hn with rfl | rfl
      · rw [h.head_next i (by omega)]
      · rw [h.tail_next i (by omega)]
    unfold Marked at hm
    rw [hun] at hm
    cases hm

theorem LevelInv.initial (h : sprayList.init s) :
    LevelInv {head, tail} (fun _ => {head, tail}) s := by
  refine ⟨.initial h, .initial h.1, fun t => ?_, fun t u _ hne => ?_⟩
  · rw [h.2 t]
    trivial
  · rw [h.2 t] at hne
    exact absurd rfl hne

/-- A thread moves to a program counter at which it links no node in. -/
theorem LevelInv.goto (h : LevelInv P Q s) (hok : Ok s.sh.mem s.sh.brk P pc)
    (how : Spray.own pc = NULL) (hc : Climbs s.sh.mem Q pc) (hcl : Spray.climber pc = NULL) :
    LevelInv P Q { s with thr := Function.update s.thr t pc } := by
  refine ⟨h.inv.goto hok how, h.levels, fun u => ?_, fun u v huv hne => ?_⟩
  · rcases eq_or_ne u t with rfl | hu
    · dsimp only
      rw [Function.update_self]
      exact hc
    · dsimp only
      rw [Function.update_of_ne hu]
      exact h.climbs u
  · dsimp only at hne ⊢
    have hut : u ≠ t := by
      rintro rfl
      rw [Function.update_self] at hne
      exact hne hcl
    rw [Function.update_of_ne hut] at hne ⊢
    rcases eq_or_ne v t with rfl | hv
    · rw [Function.update_self, hcl]
      exact hne
    · rw [Function.update_of_ne hv]
      exact h.climber u v huv hne

/-- An access that keeps the invariant of the list and the levels. -/
theorem LevelInv.rise (h : LevelInv P Q s) {P' : Set NodeId} {Q' : ℕ → Set NodeId} {sh' : Shared}
    {seed' : Tid → ℕ} {pc' : Pc} (hp : Progress s.sh P (s.thr t) e sh' P' pc')
    (hr : Rise s.sh.mem P Q (s.thr t) sh'.mem P' Q' pc') :
    LevelInv P' Q' ⟨sh', seed', Function.update s.thr t pc'⟩ := by
  refine ⟨h.inv.progress hp, hr.levels, fun u => ?_, fun u v huv hne => ?_⟩
  · rcases eq_or_ne u t with rfl | hu
    · dsimp only
      rw [Function.update_self]
      exact hr.ok
    · dsimp only
      rw [Function.update_of_ne hu]
      exact (h.climbs u).evolve (h.inv.ok u) hp.evolve hr.steady
        (fun hne => h.climber u t hu hne) h.inv.shape.null_notMem
  · dsimp only at hne ⊢
    have hnew : ∀ w, w ≠ t → Spray.climber (s.thr w) ≠ NULL →
        Spray.climber (s.thr w) ≠ Spray.climber pc' := by
      intro w hw hw0 he
      rcases hr.climber with hc | hc | hc
      · exact hw0 (he.trans hc)
      · exact h.climber w t hw hw0 (he.trans hc)
      · exact hc (he ▸ (h.inv.ok w).climber_mem hw0)
    rcases eq_or_ne u t with rfl | hu
    · rw [Function.update_self] at hne ⊢
      rw [Function.update_of_ne huv.symm]
      intro he
      exact hnew v huv.symm (he ▸ hne) he.symm
    · rw [Function.update_of_ne hu] at hne ⊢
      rcases eq_or_ne v t with rfl | hv
      · rw [Function.update_self]
        exact hnew u hu hne
      · rw [Function.update_of_ne hv]
        exact h.climber u v huv hne

/-- **The step lemma.** -/
theorem LevelInv.step (h : LevelInv P Q s) (hstep : Step s t e s') :
    ∃ P' Q', LevelInv P' Q' s' ∧ StepEffect P s t e P' s' := by
  cases hstep with
  | call hidle hop =>
    exact ⟨P, Q, h.goto (.start h.inv.shape hop) (own_start _) (.start h.levels _)
      (climber_start _), .refl, ⟨rfl, fun _ _ => Iff.rfl⟩, fun u hu => Function.update_of_ne hu ..⟩
  | access any hbusy =>
    obtain ⟨P', sh', seed', pc', hacc, hp⟩ :=
      (h.inv.ok t).access h.inv.shape hbusy any (s.seed t)
    obtain rfl := hp.eq_grown h.inv.shape (h.inv.ok t) hacc
    obtain ⟨Q', hr⟩ := (h.climbs t).access h.inv.shape h.levels (h.inv.ok t) hbusy
      (by rw [hacc]; exact hp.evolve)
    rw [hacc] at hr
    have hadv : advance any s t =
        ⟨sh', Function.update s.seed t seed', Function.update s.thr t pc'⟩ := by
      rw [advance, hacc]
    rw [hadv]
    exact ⟨_, Q', h.rise hp hr, hp.evolve, hp.effect, fun u hu => Function.update_of_ne hu ..⟩
  | ret hret =>
    exact ⟨P, Q, h.goto trivial rfl trivial rfl, .refl, ⟨rfl, fun _ _ => Iff.rfl⟩,
      fun u hu => Function.update_of_ne hu ..⟩

/-- **Every state a run reaches satisfies the invariant.** -/
theorem LevelInv.of_run {tr : List (Entry State Tid Event)} (hrun : Run sprayList tr s) :
    ∃ P Q, LevelInv P Q s :=
  hrun.invariant (I := fun s => ∃ P Q, LevelInv P Q s) (fun _ h => ⟨_, _, .initial h⟩)
    fun _ _ _ _ ⟨_, _, h⟩ hstep => by
      obtain ⟨P', Q', h', -⟩ := h.step hstep
      exact ⟨P', Q', h'⟩

end Runs

/-- **Every level stays strictly sorted.**  In every state of a run the pointers of level `i`, marks
stripped, lead from the head to the tail; the values of the nodes behind the head increase, and each
of these nodes has level `i`. -/
theorem levels_sorted {tr : List (Entry State Tid Event)} {s : State} (hrun : Run sprayList tr s)
    {i : ℕ} (hi : i < levelmax) :
    ∃ C, Seg (succ s.sh.mem i) head (head :: C) tail ∧
      (C ++ [tail]).Pairwise (fun x y => (s.sh.mem x).val < (s.sh.mem y).val) ∧
      ∀ n ∈ C, n ≠ head ∧ n ≠ tail ∧ i < (s.sh.mem n).toplevel := by
  obtain ⟨P, Q, h⟩ := LevelInv.of_run hrun
  have hlev := h.levels.level i hi
  obtain ⟨C, hC⟩ := hlev.chain
  obtain ⟨l, rfl, hseg, hsub⟩ := hC.eq_cons
  obtain ⟨hhead, hsort⟩ := hlev.sorted_of_seg hseg hsub (hlev.links head hlev.head_mem (by decide)).2
  refine ⟨l, hC.1, hsort, fun n hn => ?_⟩
  exact ⟨(hhead n (List.mem_append_left _ hn)).1, (hsub n hn).2, hlev.lt n (hsub n hn).1⟩

/-- Two keys with two levels each. -/
theorem levels_sorted_two : ∃ tr s, Run sprayList tr s ∧
    (s.sh.mem (succ s.sh.mem 1 head)).val = 5 ∧
    ∃ C, Seg (succ s.sh.mem 1) head (head :: C) tail ∧
      (C ++ [tail]).Pairwise (fun x y => (s.sh.mem x).val < (s.sh.mem y).val) ∧
      ∀ n ∈ C, n ≠ head ∧ n ≠ tail ∧ 1 < (s.sh.mem n).toplevel := by
  obtain ⟨tr, s, hrun, hc⟩ := exists_run_of_schedule
    (turn 0 (.fraser_insert 7 2) 62 ++ turn 1 (.fraser_insert 5 2) 62)
    (fun c => decide ((c.2.sh.mem (succ c.2.sh.mem 1 head)).val = 5)) (by decide +kernel)
  exact ⟨tr, s, hrun, of_decide_eq_true hc, levels_sorted hrun (by decide)⟩

end ConcurrentPQ.Spray

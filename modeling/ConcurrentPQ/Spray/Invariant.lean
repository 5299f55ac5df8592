import ConcurrentPQ.Lib.KeySet
import ConcurrentPQ.Spray.Step

/-!
# Runs of a SprayList

In every state of a run memory has its shape, every thread is where its assertion holds, and no two
threads own the same node.

* `Inv`, `Inv.step`, `Inv.of_run` — the invariant, the step lemma and the run lemma;
* `Inv.setStep` — one step is a step of a set on the live keys.
-/

namespace ConcurrentPQ.Spray

open ConcurrentPQ.Transition ConcurrentPQ.Segment ConcurrentPQ.KeySet

/-- **The invariant of a run.** -/
structure Inv (P : Set NodeId) (s : State) : Prop where
  shape : Shape s.sh.mem s.sh.brk P
  ok : ∀ t, Ok s.sh.mem s.sh.brk P (s.thr t)
  own : ∀ t u, t ≠ u → own (s.thr t) ≠ NULL → own (s.thr t) ≠ own (s.thr u)

section Own

variable {m : Mem} {brk : NodeId} {P : Set NodeId} {pc : Pc} {f : Frame}

/-- A node a thread owns has been allocated and is not linked in. -/
theorem Ok.own_private (h : Ok m brk P pc) (hne : own pc ≠ NULL) :
    own pc ∉ P ∧ own pc < brk := by
  have site : ∀ {f : Frame} {site : Site}, SiteOk m brk P f site →
      (site = .insert → f.new ∉ P ∧ f.new < brk) := by
    rintro f _ h rfl
    exact ⟨h.claimed.notMem, h.claimed.lt⟩
  have mark : ∀ {f : Frame} {n : NodeId}, MarkOk m brk P n (.duplicate f) →
      f.new ∉ P ∧ f.new < brk := fun h => ⟨h.claimed.notMem, h.claimed.lt⟩
  cases pc with
  | insVal f => exact ⟨h.notMem, h.lt⟩
  | insTop f | insDel f => exact ⟨h.1.notMem, h.1.lt⟩
  | seLeft f s left i | seNext f s left ln r i | seVal f s left ln r rn i | seCas f s left ln r i =>
    cases s with
    | insert => exact site h.1 rfl
    | upper j => exact absurd rfl hne
    | remove rs => exact absurd rfl hne
    | cleanup a => exact absurd rfl hne
  | insDup f | insDupDel f | insTest f i | insLink f i | insCas f =>
    exact ⟨h.1.claimed.notMem, h.1.claimed.lt⟩
  | mkTop s n =>
    cases s with
    | duplicate f => exact mark h.2
    | remove v | naive v | spray v => exact absurd rfl hne
  | mkNext s n i | mkCas s n i w =>
    cases s with
    | duplicate f => exact mark h.1.2
    | remove v | naive v | spray v => exact absurd rfl hne
  | _ => exact absurd rfl hne

theorem Ok.start (hs : Shape m brk P) {op : Op} (h : Admissible op) : Ok m brk P (start op) := by
  cases op with
  | fraser_insert v lvl => exact h
  | fraser_remove val rs => exact ok_search hs h
  | naive_delete_min => exact hs.head_mem
  | spray_delete_min n => exact h
  | sl_seq_add val lvl => exact h.elim

theorem own_start (op : Op) : own (start op) = NULL := by
  cases op <;> rfl

end Own

/-- A new list. -/
theorem Shape.initial {s : Shared} (h : Fresh s) : Shape s.mem s.brk {head, tail} := by
  have hmem : ∀ {n : NodeId}, n ∈ ({head, tail} : Set NodeId) ↔ n = head ∨ n = tail := by simp
  have hbrk : (3 : ℕ) ≤ s.brk := h.brk
  constructor
  case head_mem => simp
  case tail_mem => simp
  case null_notMem => simp [NULL]
  case lt_brk =>
    intro n hn
    rcases hmem.mp hn with rfl | rfl
    · exact lt_of_lt_of_le (by decide) hbrk
    · exact lt_of_lt_of_le (by decide) hbrk
  case brk_ge => exact h.brk
  case head_top => exact h.head_top
  case top =>
    intro n hn
    rcases hmem.mp hn with rfl | rfl
    · rw [h.head_top]; decide
    · rw [h.tail_top]; decide
  case tail_val => exact h.tail_val
  case tail_next =>
    intro i hi
    rw [h.tail_top] at hi
    exact h.tail_next i hi
  case val_lt =>
    intro n hn hh ht
    exact absurd (hmem.mp hn) (by simp [hh, ht])
  case links =>
    intro n i hn
    obtain rfl : n = head := (hmem.mp hn.mem).resolve_right hn.ne_tail
    have hi : i < levelmax := by
      have := hn.lt
      rw [h.head_top] at this
      exact this
    rw [succ, h.head_next i hi]
    exact ⟨by simp, by decide, by rw [show (ref tail).ptr = tail from rfl, h.tail_top]; exact hi⟩
  case sorted =>
    intro n hn hh ht
    exact absurd (hmem.mp hn) (by simp [hh, ht])
  case marked =>
    intro n i hn hm
    obtain rfl : n = head := (hmem.mp hn.mem).resolve_right hn.ne_tail
    have hi : i < levelmax := by
      have := hn.lt
      rw [h.head_top] at this
      exact this
    unfold Marked at hm
    rw [h.head_next i hi] at hm
    cases hm
  case chain =>
    refine ⟨[head], ⟨rfl, ?_⟩, ?_, ?_⟩
    · rw [succ, h.head_next 0 (by decide)]
      rfl
    · simp [head, tail]
    · intro n hn ht _
      rw [(hmem.mp hn).resolve_right ht]
      simp

theorem Inv.initial {s : State} (h : sprayList.init s) : Inv {head, tail} s where
  shape := .initial h.1
  ok t := by rw [h.2 t]; trivial
  own t u _ hne := by
    rw [h.2 t] at hne
    exact absurd rfl hne

section Runs

variable {P : Set NodeId} {s s' : State} {t : Tid} {e : Event}

/-- What a step does besides keeping the invariant. -/
structure StepEffect (P : Set NodeId) (s : State) (t : Tid) (e : Event) (P' : Set NodeId)
    (s' : State) : Prop where
  evolve : Evolve s.sh.mem P s'.sh.mem P'
  effect : Effect s.sh.mem P s'.sh.mem P' e
  frame : ∀ u, u ≠ t → s'.thr u = s.thr u

/-- A thread moves to a program counter at which it owns nothing. -/
theorem Inv.goto (h : Inv P s) {pc : Pc} (hok : Ok s.sh.mem s.sh.brk P pc) (how : Spray.own pc = NULL) :
    Inv P { s with thr := Function.update s.thr t pc } := by
  refine ⟨h.shape, fun u => ?_, fun u v huv hne => ?_⟩
  · rcases eq_or_ne u t with rfl | hu
    · dsimp only
      rw [Function.update_self]
      exact hok
    · dsimp only
      rw [Function.update_of_ne hu]
      exact h.ok u
  · dsimp only at hne ⊢
    have hut : u ≠ t := by
      rintro rfl
      rw [Function.update_self] at hne
      exact hne how
    rw [Function.update_of_ne hut] at hne ⊢
    rcases eq_or_ne v t with rfl | hv
    · rw [Function.update_self, how]
      exact hne
    · rw [Function.update_of_ne hv]
      exact h.own u v huv hne

/-- An access that makes progress keeps the invariant. -/
theorem Inv.progress (h : Inv P s) {P' : Set NodeId} {sh' : Shared} {seed' : Tid → ℕ} {pc' : Pc}
    (hp : Progress s.sh P (s.thr t) e sh' P' pc') :
    Inv P' ⟨sh', seed', Function.update s.thr t pc'⟩ := by
  refine ⟨hp.shape, fun u => ?_, fun u v huv hne => ?_⟩
  · rcases eq_or_ne u t with rfl | hu
    · dsimp only
      rw [Function.update_self]
      exact hp.ok
    · dsimp only
      rw [Function.update_of_ne hu]
      -- the node another thread owns is neither written nor linked in
      refine (h.ok u).evolve hp.evolve hp.brk fun hne => ?_
      obtain ⟨hno, hlt⟩ := (h.ok u).own_private hne
      have hown := h.own u t hu hne
      exact ⟨fun hm => (hp.fresh _ hm).elim hno hown, hp.frame _ hno hown hlt⟩
  · dsimp only at hne ⊢
    have hnew : ∀ w, w ≠ t → Spray.own (s.thr w) ≠ NULL → Spray.own (s.thr w) ≠ Spray.own pc' := by
      intro w hw hw0 he
      rcases hp.own with ho | ho | ⟨ho, -⟩
      · exact hw0 (he.trans ho)
      · exact h.own w t hw hw0 (he.trans ho)
      · have := ((h.ok w).own_private hw0).2
        rw [he, ho] at this
        exact lt_irrefl _ this
    rcases eq_or_ne u t with rfl | hu
    · rw [Function.update_self] at hne ⊢
      rw [Function.update_of_ne huv.symm]
      intro he
      exact hnew v huv.symm (he ▸ hne) he.symm
    · rw [Function.update_of_ne hu] at hne ⊢
      rcases eq_or_ne v t with rfl | hv
      · rw [Function.update_self]
        exact hnew u hu hne
      · rw [Function.update_of_ne hv]
        exact h.own u v huv hne

/-- **The step lemma.** -/
theorem Inv.step (h : Inv P s) (hstep : Step s t e s') :
    ∃ P', Inv P' s' ∧ StepEffect P s t e P' s' := by
  cases hstep with
  | call hidle hop =>
    exact ⟨P, h.goto (.start h.shape hop) (own_start _), .refl, ⟨rfl, fun _ _ => Iff.rfl⟩,
      fun u hu => Function.update_of_ne hu ..⟩
  | access any hbusy =>
    obtain ⟨P', sh', seed', pc', hacc, hp⟩ := (h.ok t).access h.shape hbusy any (s.seed t)
    have hadv : advance any s t =
        ⟨sh', Function.update s.seed t seed', Function.update s.thr t pc'⟩ := by
      rw [advance, hacc]
    rw [hadv]
    exact ⟨P', h.progress hp, hp.evolve, hp.effect, fun u hu => Function.update_of_ne hu ..⟩
  | ret hret =>
    exact ⟨P, h.goto trivial rfl, .refl, ⟨rfl, fun _ _ => Iff.rfl⟩,
      fun u hu => Function.update_of_ne hu ..⟩

/-- **Every state a run reaches satisfies the invariant.** -/
theorem Inv.of_run {tr : List (Entry State Tid Event)} (hrun : Run sprayList tr s) :
    ∃ P, Inv P s :=
  hrun.invariant (I := fun s => ∃ P, Inv P s) (fun _ h => ⟨_, .initial h⟩)
    fun _ _ _ _ ⟨_, h⟩ hstep => (h.step hstep).imp fun _ h' => h'.1

/-! ### The live keys -/

/-- The change an event makes to the live keys. -/
def Event.change (m : Mem) : Event → KeySet.Change ℕ
  | .insertCas k => .add k
  | .deleteInc n => .remove (m n).val
  | _ => .keep

/-- The change a step makes to the live keys. -/
def change (x : Entry State Tid Event) : KeySet.Change ℕ := x.ev.change x.pre.sh.mem

section Effect

variable {m m' : Mem} {brk brk' : NodeId} {P' : Set NodeId}

/-- The effect of an event on the live keys. -/
theorem Effect.setStep (hs : Shape m brk P) (hs' : Shape m' brk' P') (ev : Evolve m P m' P')
    (h : Effect m P m' P' e) : SetStep (liveKeys m) (e.change m) (liveKeys m') := by
  have quiet : (P' = P ∧ ∀ x, Inner P x → ((m' x).deleted = 0 ↔ (m x).deleted = 0)) →
      liveKeys m' = liveKeys m := by
    rintro ⟨rfl, hd⟩
    ext k
    rw [hs.mem_liveKeys, hs'.mem_liveKeys]
    refine exists_congr fun n => ?_
    constructor
    · rintro ⟨hn, hk⟩
      exact ⟨⟨hn.mem, hn.ne_head, hn.ne_tail,
        (hd n ⟨hn.mem, hn.ne_head, hn.ne_tail⟩).mp hn.deleted⟩, (ev.val hn.mem).symm.trans hk⟩
    · rintro ⟨hn, hk⟩
      exact ⟨⟨hn.mem, hn.ne_head, hn.ne_tail,
        (hd n ⟨hn.mem, hn.ne_head, hn.ne_tail⟩).mpr hn.deleted⟩, (ev.val hn.mem).trans hk⟩
  cases e with
  | insertCas k =>
    obtain ⟨n, hnP, rfl, hlive, hk, hd⟩ := h
    have hkeep : ∀ {x}, Live m P x → Live m' (insert n P) x := fun hx =>
      ⟨ev.sub hx.mem, hx.ne_head, hx.ne_tail, (hd _ hx.mem).trans hx.deleted⟩
    refine ⟨fun hkl => ?_, ?_⟩
    · -- a live node with the same key would be the new node
      obtain ⟨x, hx, hxk⟩ := hs.mem_liveKeys.mp hkl
      have he : x = n := (hkeep hx).inj hs' hlive ((ev.val hx.mem).trans (hxk.trans hk.symm))
      exact hnP (he ▸ hx.mem)
    · ext j
      rw [hs'.mem_liveKeys, Set.mem_insert_iff, hs.mem_liveKeys]
      constructor
      · rintro ⟨x, hx, hxj⟩
        rcases Set.mem_insert_iff.mp hx.mem with rfl | hxP
        · exact Or.inl (hxj.symm.trans hk)
        · exact Or.inr ⟨x, ⟨hxP, hx.ne_head, hx.ne_tail, (hd x hxP).symm.trans hx.deleted⟩,
            (ev.val hxP).symm.trans hxj⟩
      · rintro (rfl | ⟨x, hx, hxj⟩)
        · exact ⟨n, hlive, hk⟩
        · exact ⟨x, hkeep hx, (ev.val hx.mem).trans hxj⟩
  | deleteInc n =>
    obtain ⟨rfl, hlive, hdn, hd⟩ := h
    refine ⟨hs.mem_liveKeys.mpr ⟨n, hlive, rfl⟩, ?_⟩
    ext j
    rw [hs'.mem_liveKeys, Set.mem_sdiff, hs.mem_liveKeys]
    constructor
    · rintro ⟨x, hx, rfl⟩
      have hne : x ≠ n := fun he => hdn (he ▸ hx.deleted)
      have hx' : Live m P' x :=
        ⟨hx.mem, hx.ne_head, hx.ne_tail, (hd x hx.mem hne).symm.trans hx.deleted⟩
      refine ⟨⟨x, hx', (ev.val hx.mem).symm⟩, fun he => hne ?_⟩
      exact hx'.inj hs hlive ((ev.val hx.mem).symm.trans he)
    · rintro ⟨⟨x, hx, rfl⟩, hj⟩
      have hne : x ≠ n := by
        rintro rfl
        exact hj rfl
      exact ⟨x, ⟨hx.mem, hx.ne_head, hx.ne_tail, (hd x hx.mem hne).trans hx.deleted⟩,
        ev.val hx.mem⟩
  | call _ | ret _ | internal => exact quiet h

end Effect

/-- One step is a step of a set. -/
theorem Inv.setStep (h : Inv P s) (hstep : Step s t e s') :
    SetStep (liveKeys s.sh.mem) (change ⟨s, t, e, s'⟩) (liveKeys s'.sh.mem) := by
  obtain ⟨P', h', hc⟩ := h.step hstep
  exact hc.effect.setStep h.shape h'.shape hc.evolve

end Runs

end ConcurrentPQ.Spray

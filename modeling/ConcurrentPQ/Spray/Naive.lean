import ConcurrentPQ.Spray.Trail
import Mathlib.Data.Set.Card

/-!
# Concurrent calls of `naive_delete_min`

From a state in which no operation is in progress, any number of threads call `naive_delete_min`, no
more often than there are live keys.  Each deletion takes the least key that is left.

* `naiveCalls`, `calls`, `answers` — the runs, and what they show;
* `Phase` — which keys are deleted, held by a thread, and returned;
* `Phase.call`, `Phase.stride`, `Phase.take`, `Phase.ret`, `Phase.of_run` — the step lemmas and the
  run lemma;
* `naive_smallest` — **the answers are the smallest keys**.
-/

namespace ConcurrentPQ.Spray

open ConcurrentPQ.Transition ConcurrentPQ.KeySet

/-- The runs from `s₀` in which only `naive_delete_min` is called. -/
def naiveCalls (s₀ : State) : System State Tid Event where
  init s := s = s₀
  step s t e s' := Step s t e s' ∧ ∀ op, e = .call op → op = .naive_delete_min

/-- The number of calls in a run. -/
def calls (tr : List (Entry State Tid Event)) : ℕ := tr.countP fun x => x.ev.isCall

/-- The answer a step shows. -/
def Event.answer : Event → Option Answer
  | .ret a => some a
  | _ => none

/-- The answers of a run, the latest first. -/
def answers (tr : List (Entry State Tid Event)) : List Answer := tr.filterMap fun x => x.ev.answer

/-- **The invariant of the phase.**  `L` are the live keys at its beginning, `rets` the keys returned,
and `n` is the number of calls. -/
structure Phase (L : Set ℕ) (P R : Set NodeId) (s : State) (rets : List ℕ) (n : ℕ) : Prop where
  inv : Inv P s
  trail : Trail s.sh.mem P R
  ok : ∀ t, OnTrail s.sh.mem P R (s.thr t)
  sub : liveKeys s.sh.mem ⊆ L
  least : ∀ v ∈ L, v ∉ liveKeys s.sh.mem → ∀ w ∈ liveKeys s.sh.mem, v < w
  nodup : rets.Nodup
  ret_mem : ∀ v ∈ rets, v ∈ L ∧ v ∉ liveKeys s.sh.mem
  held_mem : ∀ t v, held s.sh.mem (s.thr t) = some v →
    (v ∈ L ∧ v ∉ liveKeys s.sh.mem) ∧ v ∉ rets
  held_inj : ∀ t u v, held s.sh.mem (s.thr t) = some v → held s.sh.mem (s.thr u) = some v → t = u
  cover : ∀ v ∈ L, v ∉ liveKeys s.sh.mem → v ∈ rets ∨ ∃ t, held s.sh.mem (s.thr t) = some v
  count : ∃ F : Finset Tid, (∀ t, t ∈ F ↔ looks (s.thr t) = true) ∧
    n + (liveKeys s.sh.mem).ncard = F.card + L.ncard

theorem liveKeys_finite {m : Mem} {brk : NodeId} {P : Set NodeId} (hs : Shape m brk P) :
    (liveKeys m).Finite := by
  obtain ⟨C, -, -, hall⟩ := hs.chain
  refine (C.map fun n => (m n).val).finite_toSet.subset fun k hk => ?_
  obtain ⟨n, hn, rfl⟩ := hs.mem_liveKeys.mp hk
  have hC := hall n hn.mem hn.ne_tail (hn.unmarked hs)
  exact List.mem_map.mpr ⟨n, hC, rfl⟩

theorem held_of_looks {m : Mem} {pc : Pc} (h : looks pc = true) : held m pc = none := by
  cases pc with
  | nvNext n | nvEnd n | nvDel n | nvInc n => rfl
  | _ => cases h

section Phases

variable {L : Set ℕ} {P R : Set NodeId} {s s' : State} {t : Tid} {rets : List ℕ} {n : ℕ}
  {any : Bool}

theorem Phase.initial {Q : ℕ → Set NodeId} (hinv : LevelInv P Q s) (ht : Attended P s)
    (hidle : ∀ t, s.thr t = .idle) : ∃ R, Phase (liveKeys s.sh.mem) P R s [] 0 := by
  obtain ⟨R, hR⟩ := Trail.initial hinv.inv.shape fun n hn hd => ht.allMarked hidle hn hd
  have hnone : ∀ t, held s.sh.mem (s.thr t) = none := fun t => by rw [hidle t]; rfl
  refine ⟨R, hinv.inv, hR, fun t => ?_, Set.Subset.rfl, fun v hv hnot => absurd hv hnot,
    List.nodup_nil, fun v hv => absurd hv List.not_mem_nil, fun t v hv => ?_, fun t u v hv => ?_,
    fun v hv hnot => absurd hv hnot, ∅, fun t => ?_, ?_⟩
  · rw [hidle t]
    trivial
  · rw [hnone t] at hv
    cases hv
  · rw [hnone t] at hv
    cases hv
  · rw [hidle t]
    exact ⟨fun h => absurd h (Finset.notMem_empty t), fun h => by cases h⟩
  · rw [Finset.card_empty]

/-- A thread that has not deleted a node yet finds a live one. -/
theorem Phase.exists_live (h : Phase L P R s rets n) (hn : n ≤ L.ncard)
    (hlooks : looks (s.thr t) = true) : ∃ x, Live s.sh.mem P x := by
  obtain ⟨F, hF, hcount⟩ := h.count
  have hpos := Finset.card_pos.mpr ⟨t, (hF t).mpr hlooks⟩
  obtain ⟨k, hk⟩ := Set.nonempty_of_ncard_ne_zero (s := liveKeys s.sh.mem) (by omega)
  obtain ⟨x, hx, -⟩ := h.inv.shape.mem_liveKeys.mp hk
  exact ⟨x, hx⟩

/-- The threads that look for a node, after thread `t` has moved to `pc`. -/
theorem looks_update {F : Finset Tid} {pc : Pc} (hF : ∀ u, u ∈ F ↔ looks (s.thr u) = true)
    (hpc : looks pc = looks (s.thr t)) (u : Tid) :
    u ∈ F ↔ looks (Function.update s.thr t pc u) = true := by
  rcases eq_or_ne u t with rfl | hu
  · rw [Function.update_self, hpc]
    exact hF u
  · rw [Function.update_of_ne hu]
    exact hF u

theorem held_update {m : Mem} {pc : Pc} (hpc : held m pc = held m (s.thr t)) (u : Tid) :
    held m (Function.update s.thr t pc u) = held m (s.thr u) := by
  rcases eq_or_ne u t with rfl | hu
  · rw [Function.update_self, hpc]
  · rw [Function.update_of_ne hu]

/-- A call begins. -/
theorem Phase.call (h : Phase L P R s rets n) (hidle : s.thr t = .idle) :
    Phase L P R { s with thr := Function.update s.thr t (start .naive_delete_min) } rets
      (n + 1) := by
  have hinv : Inv P { s with thr := Function.update s.thr t (start .naive_delete_min) } :=
    h.inv.goto (.start h.inv.shape trivial) (own_start _)
  have hheld : ∀ u, held s.sh.mem (Function.update s.thr t (start .naive_delete_min) u) =
      held s.sh.mem (s.thr u) := held_update (by rw [hidle]; rfl)
  refine ⟨hinv, h.trail, fun u => ?_, h.sub, h.least, h.nodup, h.ret_mem, fun u v hv => ?_,
    fun u u' v hv hv' => ?_, fun v hv hnot => ?_, ?_⟩
  · rcases eq_or_ne u t with rfl | hu
    · dsimp only
      rw [Function.update_self]
      exact ⟨h.trail.head_mem, fun _ _ => Or.inl rfl⟩
    · dsimp only
      rw [Function.update_of_ne hu]
      exact h.ok u
  · rw [hheld] at hv
    exact h.held_mem u v hv
  · rw [hheld] at hv hv'
    exact h.held_inj u u' v hv hv'
  · refine (h.cover v hv hnot).imp_right fun hex => ?_
    obtain ⟨u, hu⟩ := hex
    exact ⟨u, by rw [hheld]; exact hu⟩
  · obtain ⟨F, hF, hcount⟩ := h.count
    have hnot : t ∉ F := fun hm => by
      rw [hF, hidle] at hm
      cases hm
    refine ⟨insert t F, fun u => ?_, ?_⟩
    · rw [Finset.mem_insert]
      rcases eq_or_ne u t with rfl | hu
      · dsimp only
        rw [Function.update_self]
        exact iff_of_true (Or.inl rfl) rfl
      · dsimp only
        rw [Function.update_of_ne hu, hF]
        exact or_iff_right hu
    · dsimp only
      rw [Finset.card_insert_of_notMem hnot]
      omega

/-- An access that deletes nothing. -/
theorem Phase.stride (h : Phase L P R s rets n) (hinv : Inv P (advance any s t))
    (ev : Evolve s.sh.mem P (advance any s t).sh.mem P)
    (hlive : liveKeys (advance any s t).sh.mem = liveKeys s.sh.mem)
    (hst : Stride s.sh.mem P R (s.thr t) (access any ⟨s.sh, s.seed t, s.thr t⟩).sh.mem
      (access any ⟨s.sh, s.seed t, s.thr t⟩).pc) :
    Phase L P R (advance any s t) rets n := by
  have hheld : ∀ u, held (advance any s t).sh.mem ((advance any s t).thr u) =
      held s.sh.mem (s.thr u) := fun u => by
    rcases eq_or_ne u t with rfl | hu
    · rw [advance]
      dsimp only
      rw [Function.update_self]
      exact hst.held
    · have hthr : (advance any s t).thr u = s.thr u := Function.update_of_ne hu ..
      rw [hthr]
      exact held_evolve (h.inv.ok u) ev
  refine ⟨hinv, hst.trail, fun u => ?_, by rw [hlive]; exact h.sub, by rw [hlive]; exact h.least,
    h.nodup, by rw [hlive]; exact h.ret_mem, fun u v hv => ?_, fun u u' v hv hv' => ?_,
    fun v hv hnot => ?_, ?_⟩
  · rcases eq_or_ne u t with rfl | hu
    · rw [advance]
      dsimp only
      rw [Function.update_self]
      exact hst.ok
    · have hthr : (advance any s t).thr u = s.thr u := Function.update_of_ne hu ..
      rw [hthr]
      exact (h.ok u).evolve h.trail ev
  · rw [hheld] at hv
    rw [hlive]
    exact h.held_mem u v hv
  · rw [hheld] at hv hv'
    exact h.held_inj u u' v hv hv'
  · rw [hlive] at hnot
    refine (h.cover v hv hnot).imp_right fun hex => ?_
    obtain ⟨u, hu⟩ := hex
    exact ⟨u, by rw [hheld]; exact hu⟩
  · obtain ⟨F, hF, hcount⟩ := h.count
    rw [hlive]
    exact ⟨F, looks_update hF hst.looks, hcount⟩

/-- The access that deletes node `x`. -/
theorem Phase.take {x : NodeId} (h : Phase L P R s rets n) (hinv : Inv P (advance any s t))
    (ev : Evolve s.sh.mem P (advance any s t).sh.mem P)
    (hmem : (s.sh.mem x).val ∈ liveKeys s.sh.mem)
    (hlive : liveKeys (advance any s t).sh.mem = liveKeys s.sh.mem \ {(s.sh.mem x).val})
    (hst : Takes s.sh.mem P R (s.thr t) x (access any ⟨s.sh, s.seed t, s.thr t⟩).sh.mem
      (access any ⟨s.sh, s.seed t, s.thr t⟩).pc) :
    Phase L P R (advance any s t) rets n := by
  have hself : held (advance any s t).sh.mem ((advance any s t).thr t) = some (s.sh.mem x).val := by
    rw [advance]
    dsimp only
    rw [Function.update_self]
    exact hst.held
  have hother : ∀ u, u ≠ t → held (advance any s t).sh.mem ((advance any s t).thr u) =
      held s.sh.mem (s.thr u) := fun u hu => by
    have hthr : (advance any s t).thr u = s.thr u := Function.update_of_ne hu ..
    rw [hthr]
    exact held_evolve (h.inv.ok u) ev
  have hnot : ∀ v, v ∉ liveKeys s.sh.mem → v ∉ liveKeys (advance any s t).sh.mem := fun v hv hm => by
    rw [hlive] at hm
    exact hv hm.1
  have hgone : (s.sh.mem x).val ∉ liveKeys (advance any s t).sh.mem := fun hm => by
    rw [hlive] at hm
    exact hm.2 rfl
  have hwas : ∀ v, v ∉ liveKeys (advance any s t).sh.mem →
      v = (s.sh.mem x).val ∨ v ∉ liveKeys s.sh.mem := fun v hv => by
    by_contra hc
    rw [not_or, not_not] at hc
    rw [hlive] at hv
    exact hv ⟨hc.2, hc.1⟩
  constructor
  case inv => exact hinv
  case trail => exact hst.trail
  case ok =>
    intro u
    rcases eq_or_ne u t with rfl | hu
    · rw [advance]
      dsimp only
      rw [Function.update_self]
      exact hst.ok
    · have hthr : (advance any s t).thr u = s.thr u := Function.update_of_ne hu ..
      rw [hthr]
      exact (h.ok u).evolve h.trail ev
  case sub =>
    rw [hlive]
    exact Set.sdiff_subset.trans h.sub
  case least =>
    intro v hv hvnot w hw
    rw [hlive] at hw
    rcases hwas v hvnot with rfl | hv'
    · obtain ⟨y, hy, rfl⟩ := h.inv.shape.mem_liveKeys.mp hw.1
      exact lt_of_le_of_ne (hst.least y hy) fun he => hw.2 he.symm
    · exact h.least v hv hv' w hw.1
  case nodup => exact h.nodup
  case ret_mem => exact fun v hv => ⟨(h.ret_mem v hv).1, hnot v (h.ret_mem v hv).2⟩
  case held_mem =>
    intro u v hv
    rcases eq_or_ne u t with rfl | hu
    · obtain rfl : (s.sh.mem x).val = v := Option.some.inj (hself.symm.trans hv)
      exact ⟨⟨h.sub hmem, hgone⟩, fun hr => (h.ret_mem _ hr).2 hmem⟩
    · rw [hother u hu] at hv
      obtain ⟨⟨hL, hv'⟩, hr⟩ := h.held_mem u v hv
      exact ⟨⟨hL, hnot v hv'⟩, hr⟩
  case held_inj =>
    -- another thread holds a key that was deleted before
    have hne : ∀ u v, u ≠ t → held (advance any s t).sh.mem ((advance any s t).thr u) = some v →
        held (advance any s t).sh.mem ((advance any s t).thr t) = some v → False := by
      intro u v hu hv hv'
      rw [hother u hu] at hv
      rw [hself] at hv'
      exact (h.held_mem u v hv).1.2 (Option.some.inj hv' ▸ hmem)
    intro u u' v hv hv'
    rcases eq_or_ne u t with rfl | hu
    · rcases eq_or_ne u' u with rfl | hu'
      · rfl
      · exact (hne u' v hu' hv' hv).elim
    · rcases eq_or_ne u' t with rfl | hu'
      · exact (hne u v hu hv hv').elim
      · rw [hother u hu] at hv
        rw [hother u' hu'] at hv'
        exact h.held_inj u u' v hv hv'
  case cover =>
    intro v hv hvnot
    rcases hwas v hvnot with rfl | hv'
    · exact Or.inr ⟨t, hself⟩
    · refine (h.cover v hv hv').imp_right fun hex => ?_
      obtain ⟨u, hu⟩ := hex
      refine ⟨u, (hother u fun he => ?_).trans hu⟩
      -- the thread held nothing while it looked
      rw [he, held_of_looks hst.looks.1] at hu
      cases hu
  case count =>
    obtain ⟨F, hF, hcount⟩ := h.count
    have htF : t ∈ F := (hF t).mpr hst.looks.1
    refine ⟨F.erase t, fun u => ?_, ?_⟩
    · rw [Finset.mem_erase]
      rcases eq_or_ne u t with rfl | hu
      · rw [advance]
        dsimp only
        rw [Function.update_self, hst.looks.2]
        exact iff_of_false (fun hc => hc.1 rfl) Bool.false_ne_true
      · have hthr : (advance any s t).thr u = s.thr u := Function.update_of_ne hu ..
        rw [hthr, hF]
        exact and_iff_right hu
    · have hfin := liveKeys_finite h.inv.shape
      have hcard := Set.ncard_sdiff_singleton_add_one hmem hfin
      have hpos := Finset.card_pos.mpr ⟨t, htF⟩
      rw [hlive, Finset.card_erase_of_mem htF]
      omega

/-- A call returns. -/
theorem Phase.ret {a : Answer} (h : Phase L P R s rets n) (hpc : s.thr t = .ret a) :
    ∃ v, a = .deleted true (some v) ∧
      Phase L P R { s with thr := Function.update s.thr t .idle } (v :: rets) n := by
  have hok := h.ok t
  rw [hpc] at hok
  obtain ⟨v, rfl⟩ := hok
  have hself : held s.sh.mem (s.thr t) = some v := by
    rw [hpc]
    rfl
  have hother : ∀ u, u ≠ t → held s.sh.mem (Function.update s.thr t .idle u) =
      held s.sh.mem (s.thr u) := fun u hu => by rw [Function.update_of_ne hu]
  have hnone : held s.sh.mem (Function.update s.thr t .idle t) = none := by
    rw [Function.update_self]
    rfl
  obtain ⟨hv, hvr⟩ := h.held_mem t v hself
  refine ⟨v, rfl, h.inv.goto trivial rfl, h.trail, fun u => ?_, h.sub, h.least,
    List.nodup_cons.mpr ⟨hvr, h.nodup⟩, fun w hw => ?_, fun u w hw => ?_, fun u u' w hw hw' => ?_,
    fun w hw hwnot => ?_, ?_⟩
  · rcases eq_or_ne u t with rfl | hu
    · dsimp only
      rw [Function.update_self]
      trivial
    · dsimp only
      rw [Function.update_of_ne hu]
      exact h.ok u
  · rcases List.mem_cons.mp hw with rfl | hw
    · exact hv
    · exact h.ret_mem w hw
  · rcases eq_or_ne u t with rfl | hu
    · rw [hnone] at hw
      cases hw
    · rw [hother u hu] at hw
      obtain ⟨h₁, h₂⟩ := h.held_mem u w hw
      refine ⟨h₁, fun hm => ?_⟩
      rcases List.mem_cons.mp hm with rfl | hm
      · exact hu (h.held_inj u t w hw hself)
      · exact h₂ hm
  · rcases eq_or_ne u t with rfl | hu
    · rw [hnone] at hw
      cases hw
    · rcases eq_or_ne u' t with rfl | hu'
      · rw [hnone] at hw'
        cases hw'
      · rw [hother u hu] at hw
        rw [hother u' hu'] at hw'
        exact h.held_inj u u' w hw hw'
  · rcases h.cover w hw hwnot with hm | ⟨u, hu⟩
    · exact Or.inl (List.mem_cons_of_mem _ hm)
    · rcases eq_or_ne u t with rfl | hne
      · rw [hself] at hu
        exact Or.inl (Option.some.inj hu ▸ List.mem_cons_self)
      · exact Or.inr ⟨u, by rw [hother u hne]; exact hu⟩
  · obtain ⟨F, hF, hcount⟩ := h.count
    exact ⟨F, looks_update hF (by rw [hpc]; rfl), hcount⟩

/-- **The step lemma.** -/
theorem Phase.step {e : Event} (h : Phase L P R s rets n) (hn : n ≤ L.ncard)
    (hstep : (naiveCalls s).step s t e s') :
    ∃ rets' n', Phase L P R s' rets' n' ∧ n' = n + (if e.isCall = true then 1 else 0) ∧
      rets'.map (fun v => Answer.deleted true (some v)) =
        e.answer.toList ++ rets.map fun v => Answer.deleted true (some v) := by
  obtain ⟨hstep, hcall⟩ := hstep
  obtain ⟨P', hinv, hc⟩ := h.inv.step hstep
  have hset := h.inv.setStep hstep
  cases hstep with
  | call hidle hop =>
    obtain rfl := hcall _ rfl
    exact ⟨rets, n + 1, h.call hidle, rfl, rfl⟩
  | access any hbusy =>
    rcases (h.ok t).access any (s.seed t) h.inv.shape h.trail (h.inv.ok t) hbusy
      fun hlooks => h.exists_live hn hlooks with ⟨he, hst⟩ | ⟨x, he, hst⟩
    · rw [he] at hc
      obtain ⟨rfl, -⟩ := hc.effect
      rw [change, he] at hset
      refine ⟨rets, n, h.stride hinv hc.evolve hset hst, ?_, ?_⟩
      · rw [he]
        rfl
      · rw [he]
        rfl
    · rw [he] at hc
      obtain ⟨rfl, -⟩ := hc.effect
      rw [change, he] at hset
      refine ⟨rets, n, h.take hinv hc.evolve hset.1 hset.2 hst, ?_, ?_⟩
      · rw [he]
        rfl
      · rw [he]
        rfl
  | ret hret =>
    obtain ⟨v, rfl, h'⟩ := h.ret hret
    exact ⟨v :: rets, n, h', rfl, rfl⟩

end Phases

/-- **The run lemma.** -/
theorem Phase.of_run {L : Set ℕ} {P R : Set NodeId} {s₀ s : State}
    {tr : List (Entry State Tid Event)} (h₀ : Phase L P R s₀ [] 0)
    (hrun : Run (naiveCalls s₀) tr s) (hn : calls tr ≤ L.ncard) :
    ∃ rets, Phase L P R s rets (calls tr) ∧
      answers tr = rets.map fun v => .deleted true (some v) := by
  refine hrun.history (I := fun tr s => calls tr ≤ L.ncard → ∃ rets, Phase L P R s rets (calls tr) ∧
    answers tr = rets.map fun v => .deleted true (some v)) ?_ ?_ hn
  · rintro s rfl -
    exact ⟨[], h₀, rfl⟩
  · intro tr s t e s' _ ih hstep hle
    have hcalls : calls (⟨s, t, e, s'⟩ :: tr) = calls tr + if e.isCall = true then 1 else 0 :=
      List.countP_cons ..
    obtain ⟨rets, h, hans⟩ := ih (by omega)
    obtain ⟨rets', n', h', hn', hmap⟩ := h.step (by omega) hstep
    refine ⟨rets', ?_, ?_⟩
    · rw [hcalls, ← hn']
      exact h'
    · rw [hmap, ← hans]
      show List.filterMap _ _ = _
      rw [List.filterMap_cons]
      cases e.answer <;> rfl

/-- **The answers are the smallest keys.**  `L` are the live keys in a state of a run in which no
operation is in progress; the run has called what is `Admissible`, so that every spray in it was over
fewer than `2^14` threads.  Threads call `naive_delete_min` from there, at most as often as there are
keys in `L`.  When all calls have returned, each has returned 1, the keys returned differ, and they
are the smallest keys of `L`. -/
theorem naive_smallest {tr₀ tr : List (Entry State Tid Event)} {s₀ s : State}
    (hrun₀ : Run sprayList tr₀ s₀) (hidle₀ : ∀ t, s₀.thr t = .idle)
    (hrun : Run (naiveCalls s₀) tr s) (hidle : ∀ t, s.thr t = .idle)
    (hcalls : calls tr ≤ (liveKeys s₀.sh.mem).ncard) :
    ∃ vs : List ℕ, answers tr = vs.map (fun v => .deleted true (some v)) ∧
      vs.length = calls tr ∧ vs.Nodup ∧ (∀ v ∈ vs, v ∈ liveKeys s₀.sh.mem) ∧
      ∀ v ∈ vs, ∀ w ∈ liveKeys s₀.sh.mem, w ∉ vs → v < w := by
  obtain ⟨P, Q, hinv, htended⟩ := Attended.of_run hrun₀
  obtain ⟨R, h₀⟩ := Phase.initial hinv htended hidle₀
  obtain ⟨vs, h, hans⟩ := h₀.of_run hrun hcalls
  have hnone : ∀ t, held s.sh.mem (s.thr t) = none := fun t => by
    rw [hidle t]
    rfl
  have hall : ∀ v ∈ liveKeys s₀.sh.mem, v ∉ liveKeys s.sh.mem → v ∈ vs := fun v hv hnot => by
    refine (h.cover v hv hnot).resolve_right fun hex => ?_
    obtain ⟨t, ht⟩ := hex
    rw [hnone t] at ht
    cases ht
  refine ⟨vs, hans, ?_, h.nodup, fun v hv => (h.ret_mem v hv).1, fun v hv w hw hnot => ?_⟩
  · -- no thread looks for a node any more
    obtain ⟨F, hF, hcount⟩ := h.count
    have hempty : F = ∅ := Finset.eq_empty_of_forall_notMem fun t ht => by
      rw [hF, hidle t] at ht
      cases ht
    rw [hempty, Finset.card_empty, Nat.zero_add] at hcount
    have hset : (vs.toFinset : Set ℕ) = liveKeys s₀.sh.mem \ liveKeys s.sh.mem := by
      ext v
      rw [Finset.mem_coe, List.mem_toFinset]
      exact ⟨h.ret_mem v, fun hv => hall v hv.1 hv.2⟩
    have hcard := Set.ncard_sdiff_add_ncard_of_subset h.sub (liveKeys_finite hinv.inv.shape)
    rw [← hset, Set.ncard_coe_finset, List.toFinset_card_of_nodup h.nodup] at hcard
    omega
  · have hlive : w ∈ liveKeys s.sh.mem := by
      by_contra hw'
      exact hnot (hall w hw hw')
    exact h.least v (h.ret_mem v hv).1 (h.ret_mem v hv).2 w hlive

/-! ### A run -/

/-- A step moves one thread. -/
theorem Step.frame {s s' : State} {t u : Tid} {e : Event} (h : Step s t e s') (hu : u ≠ t) :
    s'.thr u = s.thr u := by
  cases h with
  | call _ _ => exact Function.update_of_ne hu ..
  | access any _ => exact Function.update_of_ne hu ..
  | ret _ => exact Function.update_of_ne hu ..

/-- A thread that takes no step stays where it is. -/
theorem Run.thr_eq {S : System State Tid Event} (s₀ : State) {s : State} {tr : List (Entry State Tid Event)}
    {t : Tid} (hstep : ∀ s t e s', S.step s t e s' → Step s t e s')
    (hinit : ∀ s, S.init s → s.thr t = s₀.thr t) (hrun : Run S tr s) (ht : ∀ x ∈ tr, x.who ≠ t) :
    s.thr t = s₀.thr t := by
  induction hrun with
  | start h => exact hinit _ h
  | step _ h ih =>
    have hne := ht _ List.mem_cons_self
    rw [(hstep _ _ _ _ h).frame hne.symm]
    exact ih fun x hx => ht x (List.mem_cons_of_mem _ hx)

/-- Carry out a move, if it is possible and calls nothing but `naive_delete_min`. -/
def naiveMove (s : State) (a : Move) : Option (Tid × Event × State) :=
  (move s a).filter fun x => !x.2.1.isCall || x.2.1 = .call .naive_delete_min

theorem step_of_naiveMove (s₀ : State) {s s' : State} {t : Tid} {e : Event} {a : Move}
    (h : naiveMove s a = some (t, e, s')) : (naiveCalls s₀).step s t e s' := by
  rw [naiveMove, Option.filter_eq_some_iff] at h
  refine ⟨step_of_move h.1, fun op he => ?_⟩
  subst he
  simpa [Event.isCall] using h.2

/-- What two threads have left behind when they have returned, and no other thread has moved. -/
def settledBy (c : List (Entry State Tid Event) × State) : Bool :=
  c.1.all (fun x => x.who = 0 ∨ x.who = 1) && (c.2.thr 0 matches .idle) && (c.2.thr 1 matches .idle)

theorem idle_of_settledBy {S : System State Tid Event} {s : State}
    {tr : List (Entry State Tid Event)} (hstep : ∀ s t e s', S.step s t e s' → Step s t e s')
    (hinit : ∀ s, S.init s → ∀ t, s.thr t = .idle) (hrun : Run S tr s)
    (h : settledBy (tr, s) = true) (t : Tid) : s.thr t = .idle := by
  simp only [settledBy, Bool.and_eq_true, List.all_eq_true, decide_eq_true_eq] at h
  obtain ⟨⟨hall, h0⟩, h1⟩ := h
  have hidle : ∀ {pc : Pc}, (pc matches .idle) = true → pc = .idle := fun {pc} h => by
    cases pc <;> first | rfl | cases h
  by_cases ht : t = 0 ∨ t = 1
  · rcases ht with rfl | rfl
    · exact hidle h0
    · exact hidle h1
  · refine Run.thr_eq ⟨s.sh, s.seed, fun _ => .idle⟩ hstep (fun s h => hinit s h t) hrun
      fun x hx he => ht ?_
    rw [← he]
    exact hall x hx

/-- Nodes 4 and 3 stand first on the chain, are live, and have the keys 5 and 7. -/
def FiveSeven (m : Mem) : Prop :=
  (succ m 0 head = 4 ∧ succ m 0 4 = 3) ∧ ((m 4).deleted = 0 ∧ (m 4).val = 5) ∧
    (m 3).deleted = 0 ∧ (m 3).val = 7

instance (m : Mem) : Decidable (FiveSeven m) := inferInstanceAs (Decidable (_ ∧ _))

theorem FiveSeven.mem_liveKeys {m : Mem} (h : FiveSeven m) : 5 ∈ liveKeys m ∧ 7 ∈ liveKeys m := by
  obtain ⟨⟨h₁, h₂⟩, h₃, h₄⟩ := h
  have hfour : OnChain m 4 := h₁ ▸ OnChain.head.next (by rw [h₁]; decide)
  have hthree : OnChain m 3 := h₂ ▸ hfour.next (by rw [h₂]; decide)
  exact ⟨⟨4, hfour, by decide, by decide, h₃⟩, ⟨3, hthree, by decide, by decide, h₄⟩⟩

/-- Two keys, and two threads that take them at the same time. -/
theorem naive_smallest_two : ∃ tr₀ s₀ tr s, Run sprayList tr₀ s₀ ∧ Run (naiveCalls s₀) tr s ∧
    calls tr = 2 ∧
    ∃ vs : List ℕ, answers tr = vs.map (fun v => .deleted true (some v)) ∧
      vs.length = calls tr ∧ vs.Nodup ∧ (∀ v ∈ vs, v ∈ liveKeys s₀.sh.mem) ∧
      ∀ v ∈ vs, ∀ w ∈ liveKeys s₀.sh.mem, w ∉ vs → v < w := by
  obtain ⟨tr₀, s₀, hrun₀, hc₀⟩ := exists_run_of_schedule
    (turn 0 (.fraser_insert 7 1) 56 ++ turn 1 (.fraser_insert 5 1) 56)
    (fun c => (settledBy c && decide (FiveSeven c.2.sh.mem)) &&
      (execute naiveMove (turn 0 .naive_delete_min 2 ++ turn 1 .naive_delete_min 12 ++
        List.replicate 13 (.run 0)) ([], c.2)).any fun d => settledBy d && decide (calls d.1 = 2))
    (by decide +kernel)
  rw [Bool.and_eq_true, Bool.and_eq_true, decide_eq_true_eq, Option.any_eq_true] at hc₀
  obtain ⟨⟨hset₀, hchain⟩, ⟨tr, s⟩, hexec, hc⟩ := hc₀
  rw [Bool.and_eq_true, decide_eq_true_eq] at hc
  have hidle₀ : ∀ t, s₀.thr t = .idle :=
    idle_of_settledBy (S := sprayList) (fun _ _ _ _ h => h) (fun _ h => h.2) hrun₀ hset₀
  have hrun : Run (naiveCalls s₀) tr s :=
    .execute (fun _ _ _ _ _ => step_of_naiveMove s₀) (.start rfl) hexec
  have hidle : ∀ t, s.thr t = .idle :=
    idle_of_settledBy (S := naiveCalls s₀) (fun _ _ _ _ h => h.1)
      (fun x (hx : x = s₀) t => by rw [hx]; exact hidle₀ t) hrun hc.1
  have hfin : (liveKeys s₀.sh.mem).Finite := by
    obtain ⟨P, h⟩ := Inv.of_run hrun₀
    exact liveKeys_finite h.shape
  have hkeys : 1 < (liveKeys s₀.sh.mem).ncard :=
    (Set.one_lt_ncard_iff hfin).mpr ⟨5, 7, hchain.mem_liveKeys.1, hchain.mem_liveKeys.2,
      by decide⟩
  have hcalls : calls tr = 2 := hc.2
  exact ⟨tr₀, s₀, tr, s, hrun₀, hrun, hcalls,
    naive_smallest hrun₀ hidle₀ hrun hidle (by omega)⟩

end ConcurrentPQ.Spray

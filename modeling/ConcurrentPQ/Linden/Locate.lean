import ConcurrentPQ.Linden.Tidy

/-!
# locate_preds with a single thread

`locate_preds` walks each level to the last node in front of the place of the key.  It passes the
deleted nodes, except that the last deleted node, which carries no mark of its own, holds it up on an
upper level if its key is not smaller; that node then ends up in `del`.

* `Eventually.walk`, `Eventually.walk_dead` — the inner loop;
* `Entered`, `Spotted` — what is recorded on a level, and on all levels;
* `Place.descend`, `Place.locate` — **`locate_preds` ends**, and what it finds.
-/

namespace ConcurrentPQ.Linden

open ConcurrentPQ.Segment

/-- The frames of a search differ in their arrays and in `del` only. -/
def SameCall (f f' : Frame) : Prop := f'.k = f.k ∧ f'.v = f.v ∧ f'.lvl = f.lvl ∧ f'.new = f.new

/-- On level `i` the record is the last node of `A` on that level, and its successor. -/
def Entered (m : Mem) (h : NodeId → ℕ) (A : List NodeId) (f : Frame) (i : ℕ) : Prop :=
  ∃ P S, A = P ++ f.preds i :: S ∧ i < h (f.preds i) ∧ onLevel h i S = [] ∧
    f.succs i = nxt m i (f.preds i)

/-- What `locate_preds` records in front of the nodes behind `A`. -/
structure Spotted (m : Mem) (h : NodeId → ℕ) (A : List NodeId) (f : Frame) : Prop where
  zero : Entered m h A f 0
  upper : ∀ i, 0 < i → i < NUM_LEVELS → Entered m h A f i ∨ (f.succs i = f.del ∧ f.del ∈ A)

section Walk

variable {α : Type} {C : Collector α} {max_offset : ℤ} {Q : Config α → Prop} {s : Store α}
  {f : Frame} {site : Site} {x p q b : NodeId} {i : ℕ} {W W' : List NodeId}

/-- **The inner loop** passes nodes with smaller keys and deleted nodes. -/
theorem Eventually.walk (hown : ∀ n ∈ x :: W, s.Owned n ∧ n ≠ tail)
    (hseg : Seg (nxt s.mem i) (nxt s.mem i x) W q)
    (hd : i = 0 → ∀ n ∈ x :: W, ((s.mem n).next 0).mark = false)
    (hpass : ∀ n ∈ W, (s.mem n).k < f.k ∨ ((s.mem n).next 0).mark = true)
    (hlast : x :: W = W' ++ [p])
    (hQ : Eventually (Next C max_offset) Q
      ⟨s, .locKey f site p i q ((s.mem p).next i).mark⟩) :
    Eventually (Next C max_offset) Q ⟨s, .locNext f site x i⟩ := by
  induction W generalizing x W' with
  | nil =>
    have hlast' : [] ++ [x] = W' ++ [p] := hlast
    obtain ⟨-, hp⟩ := List.append_inj' hlast' rfl
    obtain rfl : x = p := by simpa using hp
    refine Eventually.loadNext rfl rfl trivial (hown x List.mem_cons_self).1 ?_
    rw [← show nxt s.mem i x = q from hseg] at hQ
    exact hQ
  | cons y W ih =>
    obtain ⟨hy, hseg⟩ := hseg
    have hx := hown x List.mem_cons_self
    have hyo := hown y (List.mem_cons_of_mem _ List.mem_cons_self)
    -- the walk goes on from `y`, and `del` stays
    have hbody : Eventually (Next C max_offset) Q
        ⟨s, locBody f site i y ((s.mem x).next i).mark⟩ := by
      have hskew : ¬(i = 0 ∧ ((s.mem x).next i).mark = true) := by
        rintro ⟨rfl, hm⟩
        rw [hd rfl x List.mem_cons_self] at hm
        cases hm
      rw [locBody, if_neg hskew]
      cases W' with
      | nil => cases hlast
      | cons w W' =>
        obtain ⟨-, hlast⟩ := List.cons.inj hlast
        exact ih (fun n hn => hown n (List.mem_cons_of_mem _ hn)) hseg
          (fun hi n hn => hd hi n (List.mem_cons_of_mem _ hn))
          (fun n hn => hpass n (List.mem_cons_of_mem _ hn)) hlast
    refine Eventually.loadNext rfl rfl trivial hx.1 ?_
    rw [show ((s.mem x).next i).ptr = y from hy]
    refine Eventually.loadKey rfl rfl hx.2 hyo.1 ?_
    by_cases hk : (s.mem y).k < f.k
    · rw [if_pos hk]
      exact hbody
    · rw [if_neg hk]
      refine Eventually.loadNext rfl rfl trivial hyo.1 ?_
      rw [if_pos (Or.inl ((hpass y List.mem_cons_self).resolve_left hk))]
      exact hbody

/-- On level 0 the loop passes whatever a marked pointer leads to, and leaves it in `del`. -/
theorem Eventually.walk_dead (hown : ∀ n ∈ x :: W, s.Owned n ∧ n ≠ tail) (hb : s.Owned b)
    (hseg : Seg (nxt s.mem 0) (nxt s.mem 0 x) W b)
    (hmark : ∀ n ∈ x :: W, ((s.mem n).next 0).mark = true)
    (hQ : Eventually (Next C max_offset) Q ⟨s, .locNext { f with del := b } site b 0⟩) :
    Eventually (Next C max_offset) Q ⟨s, .locNext f site x 0⟩ := by
  induction W generalizing x f with
  | nil =>
    have hx := hown x List.mem_cons_self
    have hm := hmark x List.mem_cons_self
    refine Eventually.loadNext rfl rfl trivial hx.1 ?_
    rw [show ((s.mem x).next 0).ptr = b from hseg, hm]
    refine Eventually.loadKey rfl rfl hx.2 hb ?_
    have hbody : Eventually (Next C max_offset) Q ⟨s, locBody f site 0 b true⟩ := hQ
    split
    · exact hbody
    · refine Eventually.loadNext rfl rfl trivial hb ?_
      rw [if_pos (Or.inr ⟨rfl, rfl⟩)]
      exact hbody
  | cons y W ih =>
    obtain ⟨hy, hseg⟩ := hseg
    have hx := hown x List.mem_cons_self
    have hyo := hown y (List.mem_cons_of_mem _ List.mem_cons_self)
    have hm := hmark x List.mem_cons_self
    have hbody : Eventually (Next C max_offset) Q ⟨s, locBody f site 0 y true⟩ :=
      ih (f := { f with del := y }) (fun n hn => hown n (List.mem_cons_of_mem _ hn)) hseg
        (fun n hn => hmark n (List.mem_cons_of_mem _ hn)) hQ
    refine Eventually.loadNext rfl rfl trivial hx.1 ?_
    rw [show ((s.mem x).next 0).ptr = y from hy, hm]
    refine Eventually.loadKey rfl rfl hx.2 hyo.1 ?_
    split
    · exact hbody
    · refine Eventually.loadNext rfl rfl trivial hyo.1 ?_
      rw [if_pos (Or.inr ⟨rfl, rfl⟩)]
      exact hbody

/-- The inner loop stops in front of an unmarked node whose key is not smaller. -/
theorem Eventually.stop {d : Bool} (hp : p ≠ tail) (hq : s.Owned q) (hk : f.k ≤ (s.mem q).k)
    (hm : ((s.mem q).next 0).mark = false) (hd : i = 0 → d = false)
    (hQ : Eventually (Next C max_offset) Q ⟨s, locDown f site p i q⟩) :
    Eventually (Next C max_offset) Q ⟨s, .locKey f site p i q d⟩ := by
  refine Eventually.loadKey rfl rfl hp hq ?_
  rw [if_neg (not_lt.mpr hk)]
  refine Eventually.loadNext rfl rfl trivial hq ?_
  rw [if_neg]
  · exact hQ
  · rintro (hm' | ⟨hi, hd'⟩)
    · rw [hm] at hm'
      cases hm'
    · rw [hd hi] at hd'
      cases hd'

end Walk

/-! ### The levels from top to bottom -/

section Levels

variable {α : Type} {C : Collector α} {max_offset : ℤ} {Q : Config α → Prop} {s : Store α}
  {h : NodeId → ℕ} {G : Ghost} {f : Frame} {site : Site} {x : NodeId} {i k : ℕ}
  {L R P S S' : List NodeId}

/-- A node in front of a place is a deleted node in front of the last one, or stands at or behind
the last deleted one. -/
theorem place_cases {D : List NodeId} {b : NodeId} (hA : D ++ b :: L = P ++ x :: S) :
    (∃ S', D = P ++ x :: S' ∧ S = S' ++ b :: L) ∨ ∃ P', P = D ++ P' ∧ b :: L = P' ++ x :: S := by
  rcases List.append_eq_append_iff.mp hA with ⟨P', rfl, hS⟩ | ⟨T, rfl, hS⟩
  · exact Or.inr ⟨P', rfl, hS⟩
  · cases T with
    | nil => exact Or.inr ⟨[], by simp, hS.symm⟩
    | cons y T =>
      obtain ⟨rfl, rfl⟩ := List.cons.inj hS
      exact Or.inl ⟨T, rfl, rfl⟩

/-- The place of key `k` in a tidy queue: the live nodes of `L` stand in front of it, those of `R`
behind. -/
structure Place (s : Store α) (h : NodeId → ℕ) (G : Ghost) (k : ℕ) (L R : List NodeId) : Prop where
  tidy : Tidy s.mem h G
  owned : ∀ n ∈ G.all, s.Owned n
  tail_mark : ((s.mem tail).next 0).mark = false
  live : G.live = L ++ R
  left : ∀ n ∈ L, (s.mem n).k < k
  right : ∀ n ∈ R, k ≤ (s.mem n).k
  le_tail : k ≤ pkey SENTINEL_KEYMAX

/-- The nodes in front of the place. -/
def Ghost.front (G : Ghost) (L : List NodeId) : List NodeId := G.dead ++ G.bound :: L

namespace Place

theorem order (hp : Place s h G k L R) : G.order = G.front L ++ R := by
  rw [Ghost.order, Ghost.front, hp.live, List.append_assoc, List.cons_append]

theorem mem_order (hp : Place s h G k L R) {n : NodeId} (hn : n ∈ G.front L) : n ∈ G.order := by
  rw [hp.order]
  exact List.mem_append_left _ hn

theorem owned_front (hp : Place s h G k L R) {n : NodeId} (hn : n ∈ G.front L) :
    s.Owned n ∧ n ≠ tail :=
  ⟨hp.owned n (G.order_mem_all (hp.mem_order hn)), hp.tidy.ne_tail (hp.mem_order hn)⟩

/-- What stands behind the place holds a search up. -/
theorem stop (hp : Place s h G k L R) {q : NodeId} (hq : q ∈ R ++ [tail]) :
    k ≤ (s.mem q).k ∧ ((s.mem q).next 0).mark = false ∧ s.Owned q := by
  rcases List.mem_append.mp hq with hq | hq
  · have hlive : q ∈ G.live := by
      rw [hp.live]
      exact List.mem_append_right _ hq
    exact ⟨hp.right q hq, hp.tidy.live_mark q hlive,
      hp.owned q (G.order_mem_all (G.mem_order.mpr (Or.inr (Or.inr hlive))))⟩
  · obtain rfl : q = tail := by simpa using hq
    exact ⟨hp.tidy.tail_k ▸ hp.le_tail, hp.tail_mark, Or.inr (Or.inl rfl)⟩

/-- The rest of a level in front of the place, and what follows it. -/
theorem level (hp : Place s h G k L R) (hA : G.front L = P ++ x :: S) (hi : i < NUM_LEVELS)
    (hx : i < h x) : ∃ q ∈ R ++ [tail], Seg (nxt s.mem i) (nxt s.mem i x) (onLevel h i S) q := by
  have hseg := hp.tidy.level (P := P) (S := S ++ R) hi
    (by rw [hp.order, hA, List.append_assoc, List.cons_append]) hx
  rw [onLevel_append] at hseg
  obtain ⟨q, hS, hR⟩ := seg_append.mp hseg
  refine ⟨q, ?_, hS⟩
  cases hl : onLevel h i R with
  | nil =>
    rw [hl] at hR
    rw [show q = tail from hR]
    exact List.mem_append_right _ List.mem_cons_self
  | cons y l =>
    rw [hl] at hR
    rw [hR.1]
    exact List.mem_append_left _ (mem_onLevel.mp (hl ▸ List.mem_cons_self)).1

/-- A level on which nothing holds the search up. -/
theorem pass (hp : Place s h G f.k L R) (hA : G.front L = P ++ x :: S) (hi : i < NUM_LEVELS)
    (hx : i < h x)
    (hpass : ∀ n ∈ S, i < h n → (s.mem n).k < f.k ∨ ((s.mem n).next 0).mark = true)
    (hd : i = 0 → ∀ n ∈ x :: S, ((s.mem n).next 0).mark = false)
    (hQ : ∀ W p S', x :: S = W ++ p :: S' → i < h p → onLevel h i S' = [] →
      Eventually (Next C max_offset) Q ⟨s, locDown f site p i (nxt s.mem i p)⟩) :
    Eventually (Next C max_offset) Q ⟨s, .locNext f site x i⟩ := by
  obtain ⟨q, hq, hseg⟩ := hp.level hA hi hx
  obtain ⟨hkq, hmq, hoq⟩ := hp.stop hq
  obtain ⟨W, p, S', hS, hip, hS'⟩ := exists_last (S := S) hx
  have hlast : x :: onLevel h i S = onLevel h i W ++ [p] := by
    rw [← onLevel_cons_of_lt hx, hS, onLevel_append, onLevel_cons_of_lt hip, hS']
  have hsub : x :: onLevel h i S ⊆ G.front L := by
    rw [hA]
    refine fun n hn => List.mem_append_right _ ?_
    rcases List.mem_cons.mp hn with rfl | hn
    · exact List.mem_cons_self
    · exact List.mem_cons_of_mem _ (mem_onLevel.mp hn).1
  have hmem : ∀ n ∈ x :: onLevel h i S, n ∈ x :: S := fun n hn =>
    (List.mem_cons.mp hn).elim (fun he => he ▸ List.mem_cons_self)
      fun hn => List.mem_cons_of_mem _ (mem_onLevel.mp hn).1
  have hpm : p ∈ x :: onLevel h i S := by
    rw [hlast]
    exact List.mem_append_right _ List.mem_cons_self
  have hpq : nxt s.mem i p = q := by
    have hseg' : Seg (nxt s.mem i) x (x :: onLevel h i S) q := ⟨rfl, hseg⟩
    rw [hlast] at hseg'
    exact (seg_concat.mp hseg').2
  refine Eventually.walk (fun n hn => hp.owned_front (hsub hn)) hseg
    (fun hi n hn => hd hi n (hmem n hn))
    (fun n hn => hpass n (mem_onLevel.mp hn).1 (mem_onLevel.mp hn).2) hlast ?_
  refine Eventually.stop (hp.owned_front (hsub hpm)).2 hoq hkq hmq (fun hi => ?_) ?_
  · subst hi
    exact hd rfl p (hmem p hpm)
  · rw [← hpq]
    exact hQ W p S' hS hip hS'

/-- A level on which the last deleted node holds the search up. -/
theorem held (hp : Place s h G f.k L R) (hD : G.dead = P ++ x :: S) (hi : i < NUM_LEVELS)
    (hx : i < h x) (hpos : 0 < i) (hb : i < h G.bound) (hk : f.k ≤ (s.mem G.bound).k)
    (hQ : ∀ W p S', x :: S = W ++ p :: S' → i < h p →
      Eventually (Next C max_offset) Q ⟨s, locDown f site p i G.bound⟩) :
    Eventually (Next C max_offset) Q ⟨s, .locNext f site x i⟩ := by
  have hfront : ∀ n ∈ x :: S, n ∈ G.front L := fun n hn => by
    rw [Ghost.front, hD]
    exact List.mem_append_left _ (List.mem_append_right _ hn)
  have hbound : G.bound ∈ G.front L := List.mem_append_right _ List.mem_cons_self
  have hseg := hp.tidy.level (P := P) (S := S ++ G.bound :: G.live) hi
    (by rw [Ghost.order, hD, List.append_assoc, List.cons_append]) hx
  rw [onLevel_append, onLevel_cons_of_lt hb] at hseg
  obtain ⟨hseg, -⟩ := seg_append_cons.mp hseg
  obtain ⟨W, p, S', hS, hip, hS'⟩ := exists_last (S := S) hx
  have hlast : x :: onLevel h i S = onLevel h i W ++ [p] := by
    rw [← onLevel_cons_of_lt hx, hS, onLevel_append, onLevel_cons_of_lt hip, hS']
  have hmem : ∀ n ∈ x :: onLevel h i S, n ∈ x :: S := fun n hn =>
    (List.mem_cons.mp hn).elim (fun he => he ▸ List.mem_cons_self)
      fun hn => List.mem_cons_of_mem _ (mem_onLevel.mp hn).1
  have hpm : p ∈ x :: S := by
    rw [hS]
    exact List.mem_append_right _ List.mem_cons_self
  have hmark : ∀ n ∈ x :: S, ((s.mem n).next 0).mark = true := fun n hn =>
    hp.tidy.dead_mark n (by rw [hD]; exact List.mem_append_right _ hn)
  refine Eventually.walk (fun n hn => hp.owned_front (hfront n (hmem n hn))) hseg
    (fun hi0 => absurd hi0 hpos.ne')
    (fun n hn => Or.inr (hmark n (List.mem_cons_of_mem _ (mem_onLevel.mp hn).1))) hlast ?_
  exact Eventually.stop (hp.owned_front (hfront p hpm)).2 (hp.owned_front hbound).1 hk
    hp.tidy.bound_mark (fun hi0 => absurd hi0 hpos.ne') (hQ W p S' hS hip)

end Place

/-- What is recorded on another level stays. -/
theorem Entered.record {m : Mem} {A : List NodeId} {j : ℕ} {p q : NodeId}
    (hp : Entered m h A f j) (hj : j ≠ i) : Entered m h A (f.record i p q) j := by
  obtain ⟨P, S, hA, hlt, hS, hsucc⟩ := hp
  have hpred : (f.record i p q).preds j = f.preds j := Function.update_of_ne hj ..
  have hsuc : (f.record i p q).succs j = f.succs j := Function.update_of_ne hj ..
  exact ⟨P, S, by rw [hpred]; exact hA, by rw [hpred]; exact hlt, hS, by rw [hpred, hsuc]; exact hsucc⟩

theorem Entered.new {m : Mem} {A P S : List NodeId} {p : NodeId} (hA : A = P ++ p :: S)
    (hp : i < h p) (hS : onLevel h i S = []) : Entered m h A (f.record i p (nxt m i p)) i := by
  have hpred : (f.record i p (nxt m i p)).preds i = p := Function.update_self ..
  have hsuc : (f.record i p (nxt m i p)).succs i = nxt m i p := Function.update_self ..
  exact ⟨P, S, by rw [hpred]; exact hA, by rw [hpred]; exact hp, hS, by rw [hpred, hsuc]⟩

/-- A search from `x` on level `i` will be held up by the last deleted node. -/
structure Held (m : Mem) (h : NodeId → ℕ) (G : Ghost) (k : ℕ) (P : List NodeId) (x : NodeId) (i : ℕ) :
    Prop where
  dead : ∃ S, G.dead = P ++ x :: S
  lt : i < h G.bound
  le : k ≤ (m G.bound).k

theorem SameCall.record {f₀ : Frame} (hs : SameCall f₀ f) (p q : NodeId) :
    SameCall f₀ (f.record i p q) := hs

/-- Level 0 ends the search. -/
theorem Place.bottom {f₀ : Frame} (hp : Place s h G f₀.k L R) (hs : SameCall f₀ f) (hx : 0 < h x)
    (hA : G.front L = P ++ x :: S)
    (hd : ∀ n ∈ x :: S, n ∈ G.bound :: L) (hL : ∀ n ∈ S, n ∈ L)
    (hup : ∀ j, 0 < j → j < NUM_LEVELS → Entered s.mem h (G.front L) f j ∨
      (f.succs j = f.del ∧ f.del ∈ G.front L))
    (hQ : ∀ f', SameCall f₀ f' → Spotted s.mem h (G.front L) f' →
      Eventually (Next C max_offset) Q ⟨s, located f' site⟩) :
    Eventually (Next C max_offset) Q ⟨s, .locNext f site x 0⟩ := by
  have hp' : Place s h G f.k L R := by rw [hs.1]; exact hp
  refine hp'.pass hA (by decide) hx (fun n hn _ => Or.inl (hp'.left n (hL n hn))) (fun _ n hn => ?_)
    fun W p S' hS hip hS' => ?_
  · rcases List.mem_cons.mp (hd n hn) with rfl | hn
    · exact hp.tidy.bound_mark
    · exact hp.tidy.live_mark n (by rw [hp.live]; exact List.mem_append_left _ hn)
  · refine hQ (f.record 0 p (nxt s.mem 0 p)) (hs.record ..) ⟨?_, fun j hj hjN => ?_⟩
    · exact .new (P := P ++ W) (by rw [hA, hS, List.append_assoc]) hip hS'
    · refine (hup j hj hjN).imp (fun hpl => hpl.record hj.ne') fun hsd => ?_
      have hsuc : (f.record 0 p (nxt s.mem 0 p)).succs j = f.succs j :=
        Function.update_of_ne hj.ne' ..
      rw [hsuc]
      exact hsd

/-- **From a node of a level down to level 0.** -/
theorem Place.descend {f₀ : Frame} (hp : Place s h G f₀.k L R)
    (hQ : ∀ f', SameCall f₀ f' → Spotted s.mem h (G.front L) f' →
      Eventually (Next C max_offset) Q ⟨s, located f' site⟩) :
    ∀ i f x P S, SameCall f₀ f → i < NUM_LEVELS → i < h x → G.front L = P ++ x :: S →
      (∀ j, i < j → j < NUM_LEVELS → Entered s.mem h (G.front L) f j ∨
        (f.succs j = G.bound ∧ Held s.mem h G f₀.k P x i)) →
      Eventually (Next C max_offset) Q ⟨s, .locNext f site x i⟩ := by
  have hbound : G.bound ∈ G.front L := List.mem_append_right _ List.mem_cons_self
  intro i
  induction i with
  | zero =>
    intro f x P S hs _ hx hA hup
    rcases place_cases hA with ⟨S', hD, rfl⟩ | ⟨P', rfl, hB⟩
    · -- the search passes the last deleted node and records it
      have hseg := hp.tidy.level (P := P) (S := S' ++ G.bound :: G.live) (i := 0) (by decide)
        (by rw [Ghost.order, hD, List.append_assoc, List.cons_append]) hx
      rw [hp.tidy.onLevel_zero] at hseg
      · obtain ⟨hseg, -⟩ := seg_append_cons.mp hseg
        have hmem : ∀ n ∈ x :: S', n ∈ G.dead := fun n hn => by
          rw [hD]
          exact List.mem_append_right _ hn
        refine Eventually.walk_dead (fun n hn => hp.owned_front (List.mem_append_left _ (hmem n hn)))
          (hp.owned_front hbound).1 hseg (fun n hn => hp.tidy.dead_mark n (hmem n hn)) ?_
        refine hp.bottom (f := { f with del := G.bound }) (P := G.dead) hs
          (hp.tidy.pos _ (hp.mem_order hbound)) rfl (fun n hn => hn) (fun n hn => hn)
          (fun j hj hjN => ?_) hQ
        exact (hup j hj hjN).imp id fun hh => ⟨hh.1, hbound⟩
      · intro n hn
        rw [Ghost.order, hD, List.append_assoc]
        exact List.mem_append_right _ (List.mem_cons_of_mem _ hn)
    · -- the search stands at or behind it
      have hsub : ∀ n ∈ x :: S, n ∈ G.bound :: L := fun n hn => by
        rw [hB]
        exact List.mem_append_right _ hn
      refine hp.bottom hs hx hA hsub (fun n hn => ?_) (fun j hj hjN => ?_) hQ
      · cases P' with
        | nil =>
          obtain ⟨-, rfl⟩ := List.cons.inj hB
          exact hn
        | cons y P' =>
          obtain ⟨-, rfl⟩ := List.cons.inj hB
          exact List.mem_append_right _ (List.mem_cons_of_mem _ hn)
      · refine (hup j hj hjN).imp id fun hh => ?_
        obtain ⟨S', hD⟩ := hh.2.dead
        have hlen := congrArg List.length hD
        simp only [List.length_append, List.length_cons] at hlen
        omega
  | succ i ih =>
    intro f x P S hs hi hx hA hup
    have hp' : Place s h G f.k L R := by rw [hs.1]; exact hp
    by_cases hheld : Held s.mem h G f₀.k P x (i + 1)
    · obtain ⟨S', hD⟩ := hheld.dead
      refine hp'.held hD hi hx (Nat.succ_pos i) hheld.lt (hs.1 ▸ hheld.le) fun W p S'' hS hip => ?_
      have hD' : G.dead = (P ++ W) ++ p :: S'' := by rw [hD, hS, List.append_assoc]
      have hheld' : Held s.mem h G f₀.k (P ++ W) p i :=
        ⟨⟨S'', hD'⟩, Nat.lt_of_succ_lt hheld.lt, hheld.le⟩
      refine ih (f.record (i + 1) p G.bound) p (P ++ W) (S'' ++ G.bound :: L) (hs.record ..)
        (Nat.lt_of_succ_lt hi) (Nat.lt_of_succ_lt hip) ?_ fun j hj hjN => ?_
      · rw [Ghost.front, hD', List.append_assoc, List.cons_append]
      · by_cases hji : j = i + 1
        · subst hji
          exact Or.inr ⟨Function.update_self .., hheld'⟩
        · refine (hup j (by omega) hjN).imp (fun hpl => hpl.record hji) fun hh => ⟨?_, hheld'⟩
          have hsuc : (f.record (i + 1) p G.bound).succs j = f.succs j := Function.update_of_ne hji ..
          rw [hsuc]
          exact hh.1
    · refine hp'.pass hA hi hx (fun n hn hlt => ?_) (fun h0 => absurd h0 (Nat.succ_ne_zero i))
        fun W p S' hS hip hS' => ?_
      · -- everything on this level is passed
        rcases place_cases hA with ⟨S', hD, rfl⟩ | ⟨P', rfl, hB⟩
        · rcases List.mem_append.mp hn with hn | hn
          · refine Or.inr (hp.tidy.dead_mark n ?_)
            rw [hD]
            exact List.mem_append_right _ (List.mem_cons_of_mem _ hn)
          · rcases List.mem_cons.mp hn with rfl | hn
            · refine Or.inl (not_le.mp fun hle => hheld ⟨⟨S', hD⟩, hlt, ?_⟩)
              exact hs.1 ▸ hle
            · exact Or.inl (hp'.left n hn)
        · refine Or.inl (hp'.left n ?_)
          cases P' with
          | nil =>
            obtain ⟨-, rfl⟩ := List.cons.inj hB
            exact hn
          | cons y P' =>
            obtain ⟨-, rfl⟩ := List.cons.inj hB
            exact List.mem_append_right _ (List.mem_cons_of_mem _ hn)
      · have hA' : G.front L = (P ++ W) ++ p :: S' := by rw [hA, hS, List.append_assoc]
        refine ih (f.record (i + 1) p (nxt s.mem (i + 1) p)) p (P ++ W) S' (hs.record ..)
          (Nat.lt_of_succ_lt hi) (Nat.lt_of_succ_lt hip) hA' fun j hj hjN => Or.inl ?_
        by_cases hji : j = i + 1
        · subst hji
          exact .new hA' hip hS'
        · exact ((hup j (by omega) hjN).resolve_right fun hh => hheld hh.2).record hji

/-- **`locate_preds` ends.** -/
theorem Place.locate (hp : Place s h G f.k L R)
    (hQ : ∀ f', SameCall f f' → Spotted s.mem h (G.front L) f' →
      Eventually (Next C max_offset) Q ⟨s, located f' site⟩) :
    Eventually (Next C max_offset) Q ⟨s, locate f site⟩ := by
  obtain ⟨S, hS⟩ := hp.tidy.gone_first
  have hfront : G.front L = head :: (S ++ L) := by
    rw [← List.cons_append, ← hS]
    simp [Ghost.front, Ghost.gone]
  have hsame : SameCall f { f with del := NULL } := ⟨rfl, rfl, rfl, rfl⟩
  refine Place.descend hp hQ (NUM_LEVELS - 1) { f with del := NULL } head [] (S ++ L) hsame
    (by decide) ?_ hfront fun j hj hjN => ?_
  · rw [hp.tidy.head_height]
    decide
  · exact absurd hj (by omega)

end Levels

end ConcurrentPQ.Linden

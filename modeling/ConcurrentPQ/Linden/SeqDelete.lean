import ConcurrentPQ.Linden.Tidy

/-!
# deletemin with a single thread

`deletemin` marks the pointer to the first live node.  If it has come across enough deleted nodes it
swings the head over to the node it has deleted, `restructure` follows on the upper levels, and the
nodes in between are released.

* `Tidy.delete` — one more deleted node;
* `Observing`, `Tidy.observe` — the loop over the deleted nodes;
* `Swinging`, `Swinging.restructure` — **`restructure` ends**, and its assertion holds;
* `Swinging.recycle` — the recycling loop;
* `Consistent.deletemin` — **`deletemin` ends**, and what it does.
-/

namespace ConcurrentPQ.Linden

open ConcurrentPQ.Segment

/-- The order with one more deleted node. -/
def Ghost.deleted (G : Ghost) (x : NodeId) (L : List NodeId) : Ghost := ⟨G.dead ++ [G.bound], x, L⟩

section Delete

variable {α : Type} {C : Collector α} {I : Bool → α → List (NodeId × ℕ) → Prop} {max_offset : ℤ}
  {Q : Config α → Prop} {s : Store α} {m m₁ : Mem} {h : NodeId → ℕ} {G : Ghost}
  {x y : NodeId} {L P S D : List NodeId} {i : ℕ} {d : DelFrame}

/-- The first live node becomes the last deleted one. -/
theorem Tidy.delete (ht : Tidy m h G) (hlive : G.live = x :: L) :
    Tidy (setNext m G.bound 0 ⟨x, true⟩) h (G.deleted x L) := by
  have horder : (G.deleted x L).order = G.order := by
    simp [Ghost.deleted, Ghost.order, hlive]
  have hnodes : (G.deleted x L).nodes = G.nodes := by rw [Ghost.nodes, Ghost.nodes, horder]
  have hbound : G.bound ∈ G.order := G.mem_order.mpr (Or.inr (Or.inl rfl))
  have hsucc : nxt m 0 G.bound = x := by
    have hseg := ht.level (P := G.dead) (S := G.live) (i := 0) (by decide) rfl (ht.pos _ hbound)
    rw [ht.onLevel_zero fun n hn => G.mem_order.mpr (Or.inr (Or.inr hn)), hlive] at hseg
    exact hseg.1
  have hptr : ∀ i n, ((setNext m G.bound 0 ⟨x, true⟩ n).next i).ptr = ((m n).next i).ptr := by
    intro i n
    rw [setNext_next]
    split
    · rename_i he
      rw [he.1, he.2]
      exact hsucc.symm
    · rfl
  have hother : ∀ i n, 0 < i ∨ n ≠ G.bound →
      (setNext m G.bound 0 ⟨x, true⟩ n).next i = (m n).next i := fun i n hin => by
    rw [setNext_next, if_neg]
    rintro ⟨rfl, rfl⟩
    exact hin.elim (fun h => lt_irrefl _ h) fun h => h rfl
  have hnd := ht.order_nodup
  rw [Ghost.order, List.nodup_append, List.nodup_cons] at hnd
  refine ⟨⟨by rw [horder, hnodes]; exact ht.first, ?_, ?_, ht.head_height, ?_, ?_, ?_, ?_, ?_, ?_, ?_,
    ?_, ?_⟩, ?_⟩
  · rw [Ghost.all, horder]
    exact ht.nodup
  · rw [horder]
    exact ht.tower.congr fun i n _ _ => (hptr i n).symm
  · rw [horder]
    intro n hn
    rw [setNext_level]
    exact ht.heights n hn
  · rw [horder]
    intro n hn i hi hil
    rw [setNext_level] at hil
    have hpos := ht.pos n hn
    rw [hother i n (Or.inl (by omega))]
    exact ht.cleared n hn i hi hil
  · rw [horder]
    intro n hn i hi hih
    rw [hother i n (Or.inl hi)]
    exact ht.upper_mark n hn i hi hih
  · intro n hn
    rcases List.mem_append.mp hn with hn | hn
    · rw [hother 0 n (Or.inr fun he => hnd.2.2 n hn G.bound List.mem_cons_self he)]
      exact ht.dead_mark n hn
    · rw [show n = G.bound by simpa using hn, setNext_same]
  · have hx : x ∈ G.live := by rw [hlive]; exact List.mem_cons_self
    change ((setNext m G.bound 0 ⟨x, true⟩ x).next 0).mark = false
    rw [hother 0 x (Or.inr fun he : x = G.bound => hnd.2.1.1 (he ▸ hx))]
    exact ht.live_mark x hx
  · intro n hn
    have hn' : n ∈ G.live := by rw [hlive]; exact List.mem_cons_of_mem _ hn
    rw [hother 0 n (Or.inr fun he => hnd.2.1.1 (he ▸ hn'))]
    exact ht.live_mark n hn'
  · have hsorted := ht.sorted
    rw [hlive] at hsorted
    exact (List.pairwise_cons.mp hsorted).2.imp fun {a b} hab => by
      rw [setNext_k, setNext_k]
      exact hab
  · rw [hnodes]
    intro n hn
    rw [setNext_k, setNext_v]
    exact ht.data n hn
  · rw [setNext_k]
    exact ht.tail_k
  · rw [horder]
    exact ht.pos

/-! ### The loop over the deleted nodes -/

/-- `deletemin` before it has met a live node, with `P` behind it. -/
structure Observing (m : Mem) (P : List NodeId) (y : NodeId) (d : DelFrame) : Prop where
  obs : d.obs_head = (m head).next 0
  stands : d.x = y
  newhead : d.newhead = NULL
  offset : d.offset = P.length

/-- **The loop of `deletemin`** walks over the deleted nodes and stops at the last one. -/
theorem Tidy.observe (ht : Tidy s.mem h G) (hown : ∀ n ∈ G.all, s.Owned n)
    (hquiet : ∀ n ∈ G.order, (s.mem n).inserting = false)
    (hempty : G.live = [] → Eventually (Next C max_offset) Q ⟨s, .ret (some 0)⟩)
    (hfao : ∀ d, G.live ≠ [] → Observing s.mem (G.dead ++ [G.bound]) G.bound d →
      d.nxt = (s.mem G.bound).next 0 → Eventually (Next C max_offset) Q ⟨s, .delFao d⟩)
    (hG : G.gone = P ++ y :: S) (hd : Observing s.mem P y d) :
    Eventually (Next C max_offset) Q ⟨s, .delLoad d⟩ := by
  have hgone : ∀ n ∈ G.gone, n ∈ G.order := fun n hn => G.gone_subset hn
  induction S generalizing P y d with
  | nil =>
    -- the last deleted node
    have hG' : G.dead ++ [G.bound] = P ++ [y] := hG
    obtain ⟨hP, hy⟩ := List.append_inj' hG' rfl
    obtain rfl : G.bound = y := (List.cons.inj hy).1
    subst hP
    have hord : G.bound ∈ G.order := hgone _ G.bound_mem
    have hseg := ht.level (P := G.dead) (S := G.live) (i := 0) (by decide) rfl (ht.pos _ hord)
    rw [ht.onLevel_zero fun n hn => G.mem_order.mpr (Or.inr (Or.inr hn))] at hseg
    have hbo := hown _ (G.order_mem_all hord)
    refine Eventually.loadNext rfl rfl trivial (hd.stands ▸ hbo) ?_
    dsimp only
    rw [hd.stands]
    by_cases hlive : G.live = []
    · rw [hlive] at hseg
      rw [if_pos (show ((s.mem G.bound).next 0).ptr = tail from hseg)]
      exact hempty hlive
    · have hne : ((s.mem G.bound).next 0).ptr ≠ tail := by
        intro he
        change nxt s.mem 0 G.bound = tail at he
        cases hl : G.live with
        | nil => exact hlive hl
        | cons z l =>
          rw [hl] at hseg
          refine ht.tail_notMem (G.mem_order.mpr (Or.inr (Or.inr ?_)))
          rw [hl, ← he, hseg.1]
          exact List.mem_cons_self
      rw [if_neg hne, if_pos hd.newhead]
      refine Eventually.loadInserting rfl rfl trivial (hd.stands ▸ hbo) ?_
      rw [hquiet _ hord]
      have hskip : ∀ d' : DelFrame, is_marked_ref d'.nxt = false → delSkip d' = .delFao d' :=
        fun d' hm => if_neg (by rw [hm]; exact Bool.false_ne_true)
      rw [if_neg Bool.false_ne_true, hskip _ (show is_marked_ref ((s.mem G.bound).next 0) = false from
        ht.bound_mark)]
      refine hfao _ hlive ⟨hd.obs, rfl, hd.newhead, ?_⟩ rfl
      dsimp only
      rw [hd.offset, List.length_append, List.length_singleton]
  | cons z S ih =>
    -- a deleted node that carries a mark
    have hyg : y ∈ G.gone := by rw [hG]; simp
    have hzg : z ∈ G.gone := by rw [hG]; simp
    have hmark : ((s.mem y).next 0).mark = true := by
      refine ht.dead_mark y ?_
      rw [Ghost.gone] at hG
      rcases List.append_eq_append_iff.mp hG with ⟨T, -, hT⟩ | ⟨T, hdead, hT⟩
      · have hlen := congrArg List.length hT
        simp only [List.length_cons, List.length_append, List.length_nil] at hlen
        omega
      · cases T with
        | nil =>
          have hlen := congrArg List.length hT
          simp only [List.length_cons, List.length_append, List.length_nil] at hlen
          omega
        | cons w T =>
          rw [hdead, (List.cons.inj hT).1]
          simp
    have hseg := ht.level (P := P) (S := z :: S ++ G.live) (i := 0) (by decide)
      (by rw [G.order_eq, hG, List.append_assoc]; rfl) (ht.pos _ (hgone y hyg))
    rw [ht.onLevel_zero] at hseg
    · have hyo := hown y (G.order_mem_all (hgone y hyg))
      have hptr : ((s.mem y).next 0).ptr = z := hseg.1
      have hzt : z ≠ tail := ht.ne_tail (hgone z hzg)
      have hz0 : z ≠ NULL := by
        rcases ht.mem_order.mp (hgone z hzg) with rfl | hzn
        · decide
        · rintro rfl
          exact absurd (ht.data NULL hzn).1 (by decide)
      refine Eventually.loadNext rfl rfl trivial (hd.stands ▸ hyo) ?_
      dsimp only
      rw [hd.stands, hptr, if_neg hzt, if_pos hd.newhead]
      refine Eventually.loadInserting rfl rfl trivial (hd.stands ▸ hyo) ?_
      rw [hquiet y (hgone y hyg), if_neg Bool.false_ne_true]
      have hskip : ∀ d' : DelFrame, d'.nxt.mark = true → d'.nxt.ptr = z →
          delSkip d' = .delLoad { d' with x := z } := by
        intro d' hm hp
        rw [delSkip, if_pos (show is_marked_ref d'.nxt = true from hm), delLoop,
          if_pos ⟨by rw [hp]; exact hz0, hm⟩, hp]
      rw [hskip _ hmark hptr]
      refine ih (P := P ++ [y]) (by rw [hG, List.append_assoc]; rfl) ⟨hd.obs, rfl, hd.newhead, ?_⟩
      dsimp only
      rw [hd.offset, List.length_append, List.length_singleton]
    · intro n hn
      rw [G.order_eq, hG, List.append_assoc]
      exact List.mem_append_right _ (List.mem_cons_of_mem _ hn)

/-! ### restructure -/

/-- The head has been swung over to `x` on level 0, and on the levels above `i` to the first node
that is not released. -/
structure Swinging (m₁ m : Mem) (h : NodeId → ℕ) (x : NodeId) (L : List NodeId) (i : ℕ) : Prop where
  others : ∀ n, n ≠ head → m n = m₁ n
  data : (m head).k = (m₁ head).k ∧ (m head).v = (m₁ head).v ∧ (m head).level = (m₁ head).level ∧
    (m head).inserting = (m₁ head).inserting
  zero : (m head).next 0 = ⟨x, true⟩
  below : ∀ j, 1 ≤ j → j ≤ i → (m head).next j = (m₁ head).next j
  above : ∀ j, i < j → j < NUM_LEVELS → ((m head).next j).mark = false ∧
    Seg (nxt m₁ j) (nxt m j head) (onLevel h j (x :: L)) tail

/-- What is known when `restructure` starts: the nodes of `D` are going to be released. -/
structure Moved (s : Store α) (m₁ : Mem) (h : NodeId → ℕ) (D : List NodeId) (x : NodeId)
    (L : List NodeId) : Prop where
  tidy : Tidy m₁ h ⟨head :: D, x, L⟩
  owned : ∀ n ∈ Ghost.all ⟨head :: D, x, L⟩, s.Owned n
  tail_mark : ((m₁ tail).next 0).mark = false

namespace Moved

theorem order : Ghost.order ⟨head :: D, x, L⟩ = head :: D ++ x :: L := rfl

/-- The first of the remaining nodes on a level carries no mark. -/
theorem stop (hs : Moved s m₁ h D x L) {q : NodeId}
    (hq : Seg (nxt m₁ i) q (onLevel h i (x :: L)) tail) :
    q ∈ x :: L ++ [tail] ∧ ((m₁ q).next 0).mark = false := by
  cases hl : onLevel h i (x :: L) with
  | nil =>
    rw [hl] at hq
    rw [show q = tail from hq]
    exact ⟨by simp, hs.tail_mark⟩
  | cons z l =>
    rw [hl] at hq
    have hz : z ∈ x :: L := (mem_onLevel.mp (hl ▸ List.mem_cons_self)).1
    rw [hq.1]
    refine ⟨List.mem_append_left _ hz, ?_⟩
    rcases List.mem_cons.mp hz with rfl | hz
    · exact hs.tidy.bound_mark
    · exact hs.tidy.live_mark z hz

/-- The rest of a level behind a node that is released, or the head. -/
theorem level (hs : Moved s m₁ h D x L) (hi : i < NUM_LEVELS) (hD : head :: D = P ++ y :: S)
    (hy : i < h y) : ∃ q, Seg (nxt m₁ i) (nxt m₁ i y) (onLevel h i S) q ∧
      Seg (nxt m₁ i) q (onLevel h i (x :: L)) tail := by
  have hseg := hs.tidy.level (P := P) (S := S ++ x :: L) hi
    (by rw [order, hD, List.append_assoc]; rfl) hy
  rw [onLevel_append] at hseg
  exact seg_append.mp hseg

end Moved

namespace Swinging

/-- Words on upper levels of the nodes in front of the remaining ones. -/
theorem word (hw : Swinging m₁ m h x L i) (hs : Moved s m₁ h D x L) (hi : 1 ≤ i)
    (hy : y ∈ head :: D) (hyi : i < h y) : (m y).next i = ref (nxt m₁ i y) := by
  have hsame : (m y).next i = (m₁ y).next i := by
    by_cases he : y = head
    · rw [he]
      exact hw.below i hi le_rfl
    · rw [hw.others y he]
  rw [hsame]
  refine hs.tidy.word ?_ hyi fun h0 => absurd h0 (by omega)
  rw [Moved.order]
  exact List.mem_append_left _ hy

theorem mark (hw : Swinging m₁ m h x L i) (hs : Moved s m₁ h D x L) (hy : y ∈ head :: D) :
    ((m y).next 0).mark = true := by
  by_cases he : y = head
  · rw [he, hw.zero]
  · rw [hw.others y he]
    exact hs.tidy.dead_mark y hy

/-- The inner loop of `restructure`. -/
theorem walk (hw : Swinging m₁ m h x L i) (hs : Moved s m₁ h D x L) (hi : 1 ≤ i)
    {W W' : List NodeId} {p q : NodeId} {w : Ref} (hW : ∀ n ∈ y :: W, n ∈ head :: D ∧ i < h n)
    (hseg : Seg (nxt m₁ i) (nxt m₁ i y) W q) (hq : s.Owned q) (hqh : q ≠ head)
    (hqm : ((m₁ q).next 0).mark = false) (hlast : y :: W = W' ++ [p])
    (hQ : Eventually (Next C max_offset) Q ⟨{ s with mem := m }, .rsCas d i (ref p) w (ref q)⟩) :
    Eventually (Next C max_offset) Q
      ⟨{ s with mem := m }, .rsWalk d i (ref y) w (ref (nxt m₁ i y))⟩ := by
  induction W generalizing y W' with
  | nil =>
    have hlast' : [] ++ [y] = W' ++ [p] := hlast
    obtain ⟨-, hp⟩ := List.append_inj' hlast' rfl
    obtain rfl : y = p := by simpa using hp
    rw [show nxt m₁ i y = q from hseg]
    refine Eventually.loadNext rfl rfl trivial hq ?_
    rw [if_neg]
    · exact hQ
    · change ¬((m q).next 0).mark = true
      rw [hw.others q hqh, hqm]
      exact Bool.false_ne_true
  | cons z W ih =>
    have hz := hW z (List.mem_cons_of_mem _ List.mem_cons_self)
    have hzo : s.Owned z := hs.owned z (Ghost.order_mem_all _ (List.mem_append_left _ hz.1))
    rw [show nxt m₁ i y = z from hseg.1]
    refine Eventually.loadNext rfl rfl trivial hzo ?_
    change Eventually _ Q ⟨_, if ((m z).next 0).mark = true then _ else _⟩
    rw [if_pos (hw.mark hs hz.1)]
    refine Eventually.loadNext rfl rfl trivial hzo ?_
    have hword : (m z).next i = ref (nxt m₁ i z) := hw.word hs hi hz.1 hz.2
    change Eventually _ Q ⟨_, .rsWalk d i (ref z) w ((m z).next i)⟩
    rw [hword]
    cases W' with
    | nil => cases hlast
    | cons w' W' =>
      exact ih (fun n hn => hW n (List.mem_cons_of_mem _ hn)) hseg.2 (List.cons.inj hlast).2

/-- One level of `restructure`. -/
theorem level (hw : Swinging m₁ m h x L i) (hs : Moved s m₁ h D x L) (hi : 1 ≤ i)
    (hiN : i < NUM_LEVELS) (hD : head :: D = P ++ y :: S) (hy : i < h y)
    (hQ : ∀ m' P' p S', Swinging m₁ m' h x L (i - 1) → head :: D = P' ++ p :: S' → i < h p →
      Eventually (Next C max_offset) Q ⟨{ s with mem := m' }, rsDown d i (ref p)⟩) :
    Eventually (Next C max_offset) Q ⟨{ s with mem := m }, .rsHead d i (ref y)⟩ := by
  have hnd := hs.tidy.order_nodup
  rw [Moved.order, List.cons_append, List.nodup_cons] at hnd
  have hhh : i < h head := by
    rw [hs.tidy.head_height]
    exact hiN
  have hym : y ∈ head :: D := by rw [hD]; simp
  have hall : ∀ n ∈ head :: D, s.Owned n := fun n hn =>
    hs.owned n (Ghost.order_mem_all _ (List.mem_append_left _ hn))
  have hrest : ∀ n ∈ x :: L ++ [tail], s.Owned n ∧ n ≠ head := by
    intro n hn
    refine ⟨hs.owned n ?_, ?_⟩
    · rw [Ghost.all, Moved.order, List.append_assoc]
      exact List.mem_append_right _ hn
    · rintro rfl
      rcases List.mem_append.mp hn with hn | hn
      · exact hnd.1 (List.mem_append_right _ hn)
      · exact absurd (List.mem_singleton.mp hn) (by decide)
  have hwordh := hw.word hs hi List.mem_cons_self hhh
  have hwordy := hw.word hs hi hym hy
  obtain ⟨q, hDq, hqL⟩ := hs.level (P := []) hiN rfl hhh
  obtain ⟨hqm, hqmark⟩ := hs.stop hqL
  -- the loads of the two pointers
  refine Eventually.loadNext rfl rfl trivial (hall head List.mem_cons_self) ?_
  change Eventually _ Q ⟨_, .rsCur d i (ref y) ((m head).next i)⟩
  rw [hwordh]
  refine Eventually.loadNext rfl rfl trivial (hall y hym) ?_
  change Eventually _ Q ⟨_, .rsTest d i (ref y) (ref (nxt m₁ i head)) ((m y).next i)⟩
  rw [hwordy]
  cases hl : onLevel h i D with
  | nil =>
    -- nothing on this level is released
    rw [hl] at hDq
    have hhq : nxt m₁ i head = q := hDq
    rw [hhq]
    refine Eventually.loadNext rfl rfl trivial (hrest q hqm).1 ?_
    change Eventually _ Q ⟨_, if ((m q).next 0).mark = true then _ else _⟩
    rw [hw.others q (hrest q hqm).2, if_neg (by rw [hqmark]; exact Bool.false_ne_true)]
    refine hQ m P y S ⟨hw.others, hw.data, hw.zero, fun j hj hji => hw.below j hj (by omega),
      fun j hj hjN => ?_⟩ hD hy
    by_cases hji : j = i
    · subst hji
      have hnh : nxt m j head = q := by rw [nxt, hwordh, ← hhq]
      exact ⟨by rw [hwordh], by rw [hnh]; exact hqL⟩
    · exact hw.above j (by omega) hjN
  | cons z l =>
    have hz : z ∈ D := (mem_onLevel.mp (hl ▸ List.mem_cons_self)).1
    rw [hl] at hDq
    rw [hDq.1]
    refine Eventually.loadNext rfl rfl trivial (hall z (List.mem_cons_of_mem _ hz)) ?_
    change Eventually _ Q ⟨_, if ((m z).next 0).mark = true then _ else _⟩
    rw [if_pos (hw.mark hs (List.mem_cons_of_mem _ hz))]
    obtain ⟨q, hSq, hqL⟩ := hs.level hiN hD hy
    obtain ⟨hqm, hqmark⟩ := hs.stop hqL
    obtain ⟨W, p, S', hS, hip, hS'⟩ := exists_last (S := S) hy
    have hD' : head :: D = (P ++ W) ++ p :: S' := by rw [hD, hS, List.append_assoc]
    have hpm : p ∈ head :: D := by rw [hD']; simp
    have hlast : y :: onLevel h i S = onLevel h i W ++ [p] := by
      rw [← onLevel_cons_of_lt hy, hS, onLevel_append, onLevel_cons_of_lt hip, hS']
    refine hw.walk hs hi (W := onLevel h i S) (fun n hn => ?_) hSq
      (hrest q hqm).1 (hrest q hqm).2 hqmark hlast ?_
    · rcases List.mem_cons.mp hn with rfl | hn
      · exact ⟨hym, hy⟩
      · refine ⟨?_, (mem_onLevel.mp hn).2⟩
        rw [hD]
        exact List.mem_append_right _ (List.mem_cons_of_mem _ (mem_onLevel.mp hn).1)
    · -- the head's pointer is swung
      refine Eventually.casHit rfl rfl (hw.mark hs hpm) (hall head List.mem_cons_self) ?_ ?_
      · change (m head).next i = ref z
        rw [hwordh, hDq.1]
      · change Eventually _ Q ⟨{ s with mem := setNext m head i (ref q) }, rsDown d i (ref p)⟩
        refine hQ _ (P ++ W) p S' ⟨fun n hn => ?_, ?_, ?_, fun j hj hji => ?_, fun j hj hjN => ?_⟩
          hD' hip
        · rw [setNext_node_ne _ _ _ _ _ hn]
          exact hw.others n hn
        · simp only [setNext_k, setNext_v, setNext_level, setNext_inserting]
          exact hw.data
        · rw [setNext_level_ne _ _ _ _ _ _ (by omega)]
          exact hw.zero
        · rw [setNext_level_ne _ _ _ _ _ _ (by omega)]
          exact hw.below j hj (by omega)
        · by_cases hji : j = i
          · subst hji
            rw [nxt, setNext_same]
            exact ⟨rfl, hqL⟩
          · rw [nxt, setNext_level_ne _ _ _ _ _ _ hji]
            exact hw.above j (by omega) hjN

/-- **`restructure` ends**, and finds `pred` marked whenever it swings a pointer. -/
theorem restructure (hs : Moved s m₁ h D x L)
    (hQ : ∀ m, Swinging m₁ m h x L 0 →
      Eventually (Next C max_offset) Q ⟨{ s with mem := m }, rcTest d d.obs_head.ptr⟩) :
    ∀ i m P y S, Swinging m₁ m h x L (i + 1) → i + 1 < NUM_LEVELS → head :: D = P ++ y :: S →
      i + 1 < h y →
      Eventually (Next C max_offset) Q ⟨{ s with mem := m }, .rsHead d (i + 1) (ref y)⟩ := by
  intro i
  induction i with
  | zero =>
    intro m P y S hw hiN hD hy
    exact hw.level hs le_rfl hiN hD hy fun m' P' p S' hw' _ _ => hQ m' hw'
  | succ i ih =>
    intro m P y S hw hiN hD hy
    refine hw.level hs (Nat.succ_pos _) hiN hD hy fun m' P' p S' hw' hD' hp => ?_
    have hdown : rsDown d (i + 1 + 1) (ref p) = .rsHead d (i + 1) (ref p) :=
      if_pos (Nat.succ_pos i)
    rw [hdown]
    exact ih m' P' p S' hw' (Nat.lt_of_succ_lt hiN) hD' (Nat.lt_of_succ_lt hp)

/-- The queue behind the swing. -/
theorem tidy (hw : Swinging m₁ m h x L 0) (hs : Moved s m₁ h D x L) : Tidy m h ⟨[head], x, L⟩ := by
  have ht := hs.tidy
  have hnd := ht.nodup
  rw [Ghost.all, Moved.order, List.append_assoc, List.cons_append, List.nodup_cons] at hnd
  have hne : ∀ n ∈ x :: L ++ [tail], n ≠ head := fun n hn he =>
    hnd.1 (he ▸ List.mem_append_right _ hn)
  have hsame : ∀ n ∈ x :: L ++ [tail], m n = m₁ n := fun n hn => hw.others n (hne n hn)
  have hxL : ∀ n ∈ x :: L, m n = m₁ n := fun n hn => hsame n (List.mem_append_left _ hn)
  have hord : ∀ n ∈ x :: L, n ∈ Ghost.order ⟨head :: D, x, L⟩ := fun n hn =>
    List.mem_append_right _ hn
  have hnodes : ∀ n ∈ x :: L, n ∈ Ghost.nodes ⟨head :: D, x, L⟩ := fun n hn =>
    List.mem_append_right _ hn
  refine ⟨⟨rfl, ?_, fun j hj => ?_, ht.head_height, ?_, ?_, ?_, ?_, ?_, ?_, ?_, ?_, ?_⟩, ?_⟩
  · change (head :: (x :: L ++ [tail])).Nodup
    exact List.nodup_cons.mpr ⟨fun hm => hne head hm rfl, hnd.2.sublist (List.sublist_append_right _ _)⟩
  · change Seg (nxt m j) head (onLevel h j (head :: x :: L)) tail
    rw [onLevel_cons_of_lt (by rw [ht.head_height]; exact hj)]
    refine ⟨rfl, ?_⟩
    have hseg : Seg (nxt m₁ j) (nxt m j head) (onLevel h j (x :: L)) tail := by
      rcases Nat.eq_zero_or_pos j with rfl | hpos
      · rw [nxt, hw.zero, ht.onLevel_zero hord]
        have hpx := ht.pos x (hord x List.mem_cons_self)
        have hL := ht.level (P := head :: D) (S := L) (n := x) (i := 0) hj rfl hpx
        rw [ht.onLevel_zero fun n hn => hord n (List.mem_cons_of_mem _ hn)] at hL
        exact ⟨rfl, hL⟩
      · exact (hw.above j hpos hj).2
    refine hseg.congr fun n hn => ?_
    rw [nxt, nxt, hxL n (mem_onLevel.mp hn).1]
  · intro n hn
    rcases List.mem_cons.mp hn with rfl | hn
    · rw [hw.data.2.2.1]
      exact ht.heights head ht.head_mem
    · rw [hxL n hn]
      exact ht.heights n (hord n hn)
  · intro n hn i hi hil
    rcases List.mem_cons.mp hn with rfl | hn
    · rw [ht.head_height] at hi
      rw [hw.data.2.2.1] at hil
      have := (ht.heights head ht.head_mem).2
      omega
    · rw [hxL n hn] at hil ⊢
      exact ht.cleared n (hord n hn) i hi hil
  · intro n hn i hi hih
    rcases List.mem_cons.mp hn with rfl | hn
    · exact (hw.above i hi (by rwa [ht.head_height] at hih)).1
    · rw [hxL n hn]
      exact ht.upper_mark n (hord n hn) i hi hih
  · intro n hn
    rw [show n = head by simpa using hn, hw.zero]
  · change ((m x).next 0).mark = false
    rw [hxL x List.mem_cons_self]
    exact ht.bound_mark
  · intro n hn
    rw [hxL n (List.mem_cons_of_mem _ hn)]
    exact ht.live_mark n hn
  · refine ht.sorted.imp_of_mem fun {a b} ha hb hab => ?_
    rw [hxL a (List.mem_cons_of_mem _ ha), hxL b (List.mem_cons_of_mem _ hb)]
    exact hab
  · intro n hn
    rw [hxL n hn]
    exact ht.data n (hnodes n hn)
  · rw [hsame tail (by simp)]
    exact ht.tail_k
  · intro n hn
    rcases List.mem_cons.mp hn with rfl | hn
    · exact ht.pos head ht.head_mem
    · exact ht.pos n (hord n hn)

end Swinging

/-! ### The recycling loop -/

/-- **The recycling loop** releases the nodes of `D'` one by one. -/
theorem Swinging.recycle (hC : Lawful C I) (hw : Swinging m₁ m h x L 0) (hs : Moved s m₁ h D x L)
    (hd : d.newhead = x)
    (hQ : ∀ U a, Uses m U (x :: L) → I true a U →
      Eventually (Next C max_offset) Q ⟨⟨m, U, a⟩, .ret (some d.v)⟩)
    {D' : List NodeId} (hD : D' <:+ D) {U : List (NodeId × ℕ)} {a : α}
    (hseg : Seg (nxt m₁ 0) y D' x) (hu : Uses m U (D' ++ x :: L)) (ha : I true a U) :
    Eventually (Next C max_offset) Q ⟨⟨m, U, a⟩, rcTest d y⟩ := by
  induction D' generalizing y U a with
  | nil =>
    rw [show y = x from hseg, rcTest, if_neg (not_not.mpr hd.symm)]
    exact hQ U a hu ha
  | cons z D' ih =>
    obtain ⟨rfl, hseg⟩ := hseg
    have hz : y ∈ D := hD.subset List.mem_cons_self
    have hnd := hs.tidy.order_nodup
    rw [Moved.order, List.cons_append, List.nodup_cons, List.nodup_append] at hnd
    have hne : y ≠ x := hnd.2.2.2 y hz x List.mem_cons_self
    have hyh : y ≠ head := fun he => hnd.1 (he ▸ List.mem_append_left _ hz)
    have hyo : Store.Owned (⟨m, U, a⟩ : Store α) y := Or.inr (Or.inr (hu.mem_fst.mpr List.mem_cons_self))
    rw [rcTest, if_pos (by rw [hd]; exact hne)]
    refine Eventually.loadNext rfl rfl trivial hyo ?_
    change Eventually _ Q ⟨_, .rcFree d y (nxt m 0 y)⟩
    have hin := hu.mem (n := y) List.mem_cons_self
    refine Eventually.freeNode rfl rfl (hw.mark hs (List.mem_cons_of_mem _ hz)) rfl hin ?_
    have hnext : nxt m 0 y = nxt m₁ 0 y := by rw [nxt, nxt, hw.others y hyh]
    rw [hnext]
    exact ih ((List.suffix_cons _ _).trans hD) hseg hu.erase (hC.free a U y _ ha hin)

/-! ### deletemin -/

/-- **`deletemin` ends.**  It returns 0 if there is no live node.  Otherwise it deletes the first one
and returns its key; and if it has come across enough deleted nodes, these are released. -/
theorem Consistent.deletemin (hC : Lawful C I) (hr : Consistent I true s h G)
    (htail : ((s.mem tail).next 0).mark = false)
    (hempty : G.live = [] → Eventually (Next C max_offset) Q ⟨s, .ret (some 0)⟩)
    (hkeep : ∀ x L s', G.live = x :: L →
      ((G.dead.length + 1 : ℕ) : ℤ) ≤ max_offset ∨ G.dead = [] →
      Consistent I true s' h (G.deleted x L) → (∀ n, (s'.mem n).k = (s.mem n).k) →
      s'.mem tail = s.mem tail → Eventually (Next C max_offset) Q ⟨s', .ret (some (s.mem x).k)⟩)
    (hswing : ∀ x L s', G.live = x :: L → Consistent I true s' h ⟨[head], x, L⟩ →
      (∀ n, (s'.mem n).k = (s.mem n).k) → s'.mem tail = s.mem tail →
      Eventually (Next C max_offset) Q ⟨s', .ret (some (s.mem x).k)⟩) :
    Eventually (Next C max_offset) Q ⟨s, .delObs⟩ := by
  have ht := hr.tidy
  have hown : ∀ n ∈ G.all, s.Owned n := fun n hn => ht.owned hr.uses hn
  obtain ⟨S, hS⟩ := ht.gone_first
  refine Eventually.loadNext rfl rfl trivial (Or.inl rfl) ?_
  refine ht.observe hown hr.quiet hempty (fun d hlive hd hnxt => ?_) (P := []) hS ⟨rfl, rfl, rfl, rfl⟩
  obtain ⟨x, L, hxL⟩ := List.exists_cons_of_ne_nil hlive
  have hbound : G.bound ∈ G.order := G.mem_order.mpr (Or.inr (Or.inl rfl))
  have hbo := hown _ (G.order_mem_all hbound)
  have hxo : s.Owned x := hown x (G.order_mem_all (G.mem_order.mpr (Or.inr (Or.inr (by rw [hxL]; simp)))))
  have hxv : (s.mem x).v = (s.mem x).k := by
    refine (ht.data x (ht.live_mem ?_)).2.2.2
    rw [hxL]
    exact List.mem_cons_self
  have hword : (s.mem G.bound).next 0 = ref x := by
    rw [ht.word hbound (ht.pos _ hbound) fun _ => ht.bound_mark]
    have hseg := ht.level (P := G.dead) (S := G.live) (i := 0) (by decide) rfl (ht.pos _ hbound)
    rw [ht.onLevel_zero fun n hn => G.mem_order.mpr (Or.inr (Or.inr hn)), hxL] at hseg
    rw [hseg.1]
  -- the pointer to the first live node is marked
  set m₁ := setNext s.mem G.bound 0 ⟨x, true⟩ with hm₁
  have ht₁ : Tidy m₁ h (G.deleted x L) := ht.delete hxL
  have hnodes : (G.deleted x L).nodes = G.nodes := by
    simp [Ghost.nodes, Ghost.deleted, Ghost.order, hxL]
  have hready : Consistent I true ({ s with mem := m₁ } : Store α) h (G.deleted x L) := by
    refine ⟨ht₁, ?_, hr.lawful, fun n hn => ?_⟩
    · rw [hnodes]
      exact hr.uses.congr fun n _ => setNext_level ..
    · change (m₁ n).inserting = false
      rw [hm₁, setNext_inserting]
      refine hr.quiet n ?_
      have horder : (G.deleted x L).order = G.order := by simp [Ghost.deleted, Ghost.order, hxL]
      rw [← horder]
      exact hn
  have htail₁ : m₁ tail = s.mem tail :=
    setNext_node_ne _ _ _ _ _ (ht.ne_tail hbound).symm
  have hk₁ : ∀ n, (m₁ n).k = (s.mem n).k := fun n => setNext_k ..
  have hdo : s.Owned d.x := hd.stands ▸ hbo
  have hperf : perform C s 1 (code max_offset (.delFao d)) =
      ⟨{ s with mem := setNext s.mem d.x 0 (get_marked_ref ((s.mem d.x).next 0)) },
        delLoop d ((s.mem d.x).next 0)⟩ := rfl
  refine Eventually.write rfl rfl trivial hdo hperf ?_
  rw [hd.stands, hword]
  change Eventually _ Q ⟨{ s with mem := m₁ }, delLoop d (ref x)⟩
  rw [delLoop, if_neg fun hc => Bool.false_ne_true hc.2]
  refine Eventually.loadVal rfl rfl trivial hxo ?_
  have hv₁ : (m₁ x).v = (s.mem x).k := by rw [hm₁, setNext_v, hxv]
  dsimp only
  rw [hv₁, if_pos hd.newhead, hd.offset, List.length_append, List.length_singleton]
  split
  · rename_i hle
    exact hkeep x L _ hxL (Or.inl hle) hready hk₁ htail₁
  · rename_i hgt
    refine Eventually.loadNext rfl rfl trivial (Or.inl rfl) ?_
    dsimp only
    rw [hd.obs]
    rcases hdead : G.dead with _ | ⟨y, D⟩
    · -- the head itself has been marked
      have hb : G.bound = head := by
        rw [Ghost.gone, hdead] at hS
        exact (List.cons.inj hS).1
      rw [if_pos]
      · exact hkeep x L _ hxL (Or.inr hdead) hready hk₁ htail₁
      · rw [← hb, hm₁, setNext_same, hword]
        simp
    · have hy : y = head := by
        rw [Ghost.gone, hdead] at hS
        exact (List.cons.inj hS).1
      subst hy
      have hbh : head ≠ G.bound := by
        have hnd := ht.order_nodup
        rw [Ghost.order, hdead, List.cons_append, List.nodup_cons] at hnd
        intro he
        exact hnd.1 (he ▸ by simp)
      have hhead : m₁ head = s.mem head := setNext_node_ne _ _ _ _ _ hbh
      rw [hhead, if_neg (not_not.mpr rfl)]
      -- the head is swung
      have hG₁ : G.deleted x L = ⟨head :: (D ++ [G.bound]), x, L⟩ := by
        rw [Ghost.deleted, hdead, List.cons_append]
      rw [hG₁] at ht₁
      have hall : (Ghost.all ⟨head :: (D ++ [G.bound]), x, L⟩) = G.all := by
        simp [Ghost.all, Ghost.order, hdead, hxL]
      have hs : Moved s m₁ h (D ++ [G.bound]) x L :=
        ⟨ht₁, by rw [hall]; exact hown, by rw [htail₁]; exact htail⟩
      refine Eventually.casHit rfl rfl trivial (Or.inl rfl)
        (congrArg (fun y : Node => y.next 0) hhead) ?_
      have hsw : Swinging m₁ (setNext m₁ head 0 ⟨x, true⟩) h x L (NUM_LEVELS - 1) := by
        refine ⟨fun n hn => setNext_node_ne _ _ _ _ _ hn, ?_, setNext_same .., fun j hj _ => ?_,
          fun j hj hjN => absurd hj (by omega)⟩
        · simp only [setNext_k, setNext_v, setNext_level, setNext_inserting, and_self]
        · exact setNext_level_ne _ _ _ _ _ _ (by omega)
      refine Swinging.restructure (s := s) hs (fun m hw => ?_) 30 _ [] head (D ++ [G.bound]) hsw
        (by decide) rfl (by rw [ht.head_height]; decide)
      -- the deleted nodes are released
      obtain ⟨q, hq, hqL⟩ := hs.level (P := []) (i := 0) (by decide) rfl
        (by rw [ht.head_height]; decide)
      rw [ht₁.onLevel_zero fun n hn => List.mem_append_left _ (List.mem_cons_of_mem _ hn)] at hq
      rw [ht₁.onLevel_zero fun n hn => List.mem_append_right _ hn] at hqL
      obtain rfl : q = x := hqL.1
      have huses : Uses m s.used (D ++ [G.bound] ++ q :: L) := by
        have hu := hready.uses
        rw [hG₁] at hu
        refine Uses.congr hu fun n hn => ?_
        by_cases hn' : n = head
        · rw [hn', hw.data.2.2.1]
        · rw [hw.others n hn']
      refine hw.recycle hC hs rfl (fun U a hu ha => ?_) (List.suffix_refl _) ?_ huses hr.lawful
      · refine hswing q L ⟨m, U, a⟩ hxL ⟨hw.tidy hs, hu, ha, fun n hn => ?_⟩ (fun n => ?_) ?_
        · by_cases hn' : n = head
          · rw [hn']
            change (m head).inserting = false
            rw [hw.data.2.2.2]
            exact hready.quiet head hready.tidy.head_mem
          · change (m n).inserting = false
            rw [hw.others n hn']
            refine hready.quiet n ?_
            rw [hG₁]
            exact List.mem_append_right _ ((List.mem_cons.mp hn).resolve_left hn')
        · change (m n).k = _
          by_cases hn' : n = head
          · rw [hn', hw.data.1, hk₁]
          · rw [hw.others n hn', hk₁]
        · change m tail = _
          rw [hw.others tail (by decide), htail₁]
      · change Seg (nxt m₁ 0) ((s.mem head).next 0).ptr _ _
        rw [← hhead]
        exact hq

end Delete

end ConcurrentPQ.Linden

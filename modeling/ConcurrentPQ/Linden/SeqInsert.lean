import ConcurrentPQ.Linden.Locate

/-!
# insert with a single thread

`insert` adds its key, or finds it present and releases the node it had prepared.  The new node is
linked in level by level; it stops early where the last deleted node holds its search up.

* `Ghost.with`, `Stacked.place`, `Stacked.raise` — the new node takes its place, and is linked in on
  one more level;
* `Eventually.new_node` — `alloc_node`, and the assignments behind it;
* `Linking`, `Linking.upper` — the loop over the upper levels;
* `Holding`, `Consistent.insert` — **`insert` ends**, and what it does.
-/

namespace ConcurrentPQ.Linden

open ConcurrentPQ.Segment

/-- The order with node `n` between the live nodes of `L` and those of `R`. -/
def Ghost.with (G : Ghost) (L : List NodeId) (n : NodeId) (R : List NodeId) : Ghost :=
  ⟨G.dead, G.bound, L ++ n :: R⟩

section Link

variable {m : Mem} {h : NodeId → ℕ} {G : Ghost} {L R : List NodeId} {n p : NodeId} {i : ℕ}

theorem Ghost.with_order : (G.with L n R).order = G.front L ++ n :: R := by
  simp [Ghost.with, Ghost.order, Ghost.front]

/-- A node that is not linked in anywhere takes its place. -/
theorem Stacked.place (ht : Stacked m h G) (hlive : G.live = L ++ R) (hn : n ∉ G.all)
    (hl : (m n).level ≤ NUM_LEVELS) (hclear : ∀ i, i < (m n).level → (m n).next i = ref NULL)
    (hpos : 0 < (m n).level)
    (hdata : firstNode ≤ n ∧ SENTINEL_KEYMIN < (m n).k ∧ (m n).k < pkey SENTINEL_KEYMAX ∧
      (m n).v = (m n).k)
    (hL : ∀ x ∈ L, (m x).k < (m n).k) (hR : ∀ x ∈ R, (m n).k < (m x).k) :
    Stacked m (Function.update h n 0) (G.with L n R) := by
  have horder : G.order = G.front L ++ R := by simp [Ghost.order, Ghost.front, hlive]
  have hno : n ∉ G.order := fun hm => hn (G.order_mem_all hm)
  have hne : ∀ x ∈ G.order, x ≠ n := fun x hx he => hno (he ▸ hx)
  have hupd : ∀ x ∈ G.order, Function.update h n 0 x = h x := fun x hx =>
    Function.update_of_ne (hne x hx) ..
  have hmem : ∀ x, x ∈ (G.with L n R).order ↔ x ∈ G.order ∨ x = n := fun x => by
    rw [Ghost.with_order, horder]
    simp only [List.mem_append, List.mem_cons]
    tauto
  have hfirst : (G.with L n R).order = head :: (G.with L n R).nodes := by
    have hf := ht.first
    rw [horder] at hf
    rw [Ghost.nodes, Ghost.with_order]
    cases hl : G.front L with
    | nil => exact absurd hl (by simp [Ghost.front])
    | cons x l =>
      rw [hl] at hf
      rw [(List.cons.inj hf).1]
      rfl
  refine ⟨hfirst, ?_, ?_, ?_, ?_, ?_, ?_, ?_, ?_, ?_, ?_, ?_, ?_⟩
  · have hnd := ht.nodup
    rw [Ghost.all, horder, List.append_assoc] at hnd
    rw [Ghost.all, Ghost.with_order, List.append_assoc, List.cons_append, List.nodup_middle,
      List.nodup_cons]
    refine ⟨?_, hnd⟩
    rw [← List.append_assoc, ← horder]
    exact hn
  · rw [Ghost.with_order]
    refine Tower.place ?_ (horder ▸ hno)
    rw [← horder]
    exact ht.tower
  · rw [hupd head ht.head_mem]
    exact ht.head_height
  · intro x hx
    rcases (hmem x).mp hx with hx | rfl
    · rw [hupd x hx]
      exact ht.heights x hx
    · rw [Function.update_self]
      exact ⟨Nat.zero_le _, hl⟩
  · intro x hx j hj hjl
    rcases (hmem x).mp hx with hx | rfl
    · rw [hupd x hx] at hj
      exact ht.cleared x hx j hj hjl
    · exact hclear j hjl
  · intro x hx j hj hjh
    rcases (hmem x).mp hx with hx | rfl
    · rw [hupd x hx] at hjh
      exact ht.upper_mark x hx j hj hjh
    · rw [Function.update_self] at hjh
      omega
  · exact ht.dead_mark
  · exact ht.bound_mark
  · intro x hx
    rw [Ghost.with, List.mem_append, List.mem_cons] at hx
    rcases hx with hx | rfl | hx
    · exact ht.live_mark x (by rw [hlive]; exact List.mem_append_left _ hx)
    · rw [hclear 0 hpos]
    · exact ht.live_mark x (by rw [hlive]; exact List.mem_append_right _ hx)
  · have hs := ht.sorted
    rw [hlive, List.pairwise_append] at hs
    rw [Ghost.with, List.pairwise_append, List.pairwise_cons]
    refine ⟨hs.1, ⟨fun x hx => hR x hx, hs.2.1⟩, fun x hx y hy => ?_⟩
    rcases List.mem_cons.mp hy with rfl | hy
    · exact hL x hx
    · exact hs.2.2 x hx y hy
  · intro x hx
    have hx' : x ∈ (G.with L n R).order := by
      rw [hfirst]
      exact List.mem_cons_of_mem _ hx
    rcases (hmem x).mp hx' with hxo | rfl
    · rcases ht.mem_order.mp hxo with rfl | hxn
      · have hnd : (G.with L n R).order.Nodup := by
          have hnd := ht.order_nodup
          rw [horder] at hnd
          rw [Ghost.with_order, List.nodup_middle, List.nodup_cons, ← horder]
          exact ⟨hno, horder ▸ hnd⟩
        rw [hfirst, List.nodup_cons] at hnd
        exact absurd hx hnd.1
      · exact ht.data x hxn
    · exact hdata
  · exact ht.tail_k

/-- The new node is linked in on level `i`. -/
theorem Stacked.raise {P S : List NodeId}
    (ht : Stacked m (Function.update h n i) (G.with L n R)) (hA : G.front L = P ++ p :: S)
    (hi : i < (m n).level) (hp : i < h p) (hS : onLevel h i S = [])
    (hm : i = 0 → ((m p).next 0).mark = false) :
    Stacked (setNext (setNext m n i (ref (nxt m i p))) p i (ref n))
      (Function.update h n (i + 1)) (G.with L n R) := by
  have horder : (G.with L n R).order = P ++ p :: S ++ n :: R := by rw [Ghost.with_order, hA]
  have hnd := ht.order_nodup
  rw [horder] at hnd
  have hnot : n ∉ P ++ p :: S ++ R := by
    rw [List.nodup_middle, List.nodup_cons] at hnd
    exact hnd.1
  have hnfront : n ∉ P ++ p :: S := fun hx => hnot (List.mem_append_left _ hx)
  have hpn : p ≠ n := fun he => hnfront (he ▸ List.mem_append_right _ List.mem_cons_self)
  have hord : ∀ x ∈ (G.with L n R).order, x ≠ tail := fun x hx => ht.ne_tail hx
  set m' := setNext (setNext m n i (ref (nxt m i p))) p i (ref n) with hm'
  have hk : ∀ x, (m' x).k = (m x).k := fun x => by simp [m']
  have hv : ∀ x, (m' x).v = (m x).v := fun x => by simp [m']
  have hl : ∀ x, (m' x).level = (m x).level := fun x => by simp [m']
  have hpi : (m' p).next i = ref n := by rw [hm', setNext_same]
  have hni : (m' n).next i = ref (nxt m i p) := by
    rw [hm', setNext_node_ne _ _ _ _ _ hpn.symm, setNext_same]
  have hsame : ∀ j x, j ≠ i ∨ (x ≠ p ∧ x ≠ n) → (m' x).next j = (m x).next j := by
    intro j x hjx
    rw [hm', setNext_next, if_neg, setNext_next, if_neg]
    · rintro ⟨rfl, rfl⟩
      exact hjx.elim (fun h => h rfl) fun h => h.2 rfl
    · rintro ⟨rfl, rfl⟩
      exact hjx.elim (fun h => h rfl) fun h => h.1 rfl
  have hiN : i < NUM_LEVELS := by
    have hmem : n ∈ (G.with L n R).order := by
      rw [horder]
      exact List.mem_append_right _ List.mem_cons_self
    exact lt_of_lt_of_le hi (ht.heights n hmem).2
  -- a mark on a node of the order is where it was
  have hmark : ∀ x, x ≠ n → (i = 0 → x = p → ((m p).next 0).mark = false) →
      ((m' x).next 0).mark = ((m x).next 0).mark := by
    intro x hxn hx
    by_cases hc : 0 = i ∧ x = p
    · obtain ⟨rfl, rfl⟩ := hc
      rw [hpi, hx rfl rfl]
    · rw [hsame 0 x]
      rcases not_and_or.mp hc with hc | hc
      · exact Or.inl hc
      · exact Or.inr ⟨hc, hxn⟩
  refine ⟨ht.first, ht.nodup, ?_, ?_, ?_, ?_, ?_, ?_, ?_, ?_, ?_, ?_, ?_⟩
  · have htower := ht.tower
    rw [horder] at htower ⊢
    have hupd : ∀ l : List NodeId, n ∉ l → onLevel (Function.update h n i) i l = onLevel h i l :=
      fun l hl => onLevel_congr fun x hx => by
        rw [Function.update_of_ne fun he : x = n => hl (he ▸ hx)]
    rw [← Function.update_idem i (i + 1) h]
    refine htower.raise hiN (by rwa [Function.update_of_ne hpn]) ?_ hnot (Function.update_self ..)
      ?_ ?_ (fun j x _ hjx => ?_) hnd
    · rw [hupd S fun hx => hnfront (List.mem_append_right _ (List.mem_cons_of_mem _ hx)), hS]
    · rw [nxt, hpi]
    · rw [nxt, hni]
    · rw [nxt, hsame j x hjx, nxt]
  · have hh := ht.head_height
    rw [Function.update_of_ne] at hh ⊢
    · exact hh
    all_goals
      rintro rfl
      have hfirst := ht.first
      rw [horder] at hfirst
      cases P with
      | nil => exact hpn (List.cons.inj hfirst).1
      | cons y P => exact hnfront ((List.cons.inj hfirst).1 ▸ List.mem_cons_self)
  · intro x hx
    rw [hl]
    have hx' := ht.heights x hx
    by_cases hxn : x = n
    · subst hxn
      rw [Function.update_self]
      exact ⟨hi, hx'.2⟩
    · rw [Function.update_of_ne hxn] at hx' ⊢
      exact hx'
  · intro x hx j hj hjl
    rw [hl] at hjl
    have hji : j ≠ i ∨ (x ≠ p ∧ x ≠ n) := by
      by_cases hxn : x = n
      · subst hxn
        rw [Function.update_self] at hj
        exact Or.inl (by omega)
      · by_cases hxp : x = p
        · subst hxp
          rw [Function.update_of_ne hxn] at hj
          exact Or.inl (by omega)
        · exact Or.inr ⟨hxp, hxn⟩
    rw [hsame j x hji]
    refine ht.cleared x hx j ?_ hjl
    by_cases hxn : x = n
    · subst hxn
      rw [Function.update_self] at hj ⊢
      omega
    · rwa [Function.update_of_ne hxn] at hj ⊢
  · intro x hx j hj hjh
    by_cases hc : j = i ∧ (x = p ∨ x = n)
    · obtain ⟨rfl, rfl | rfl⟩ := hc
      · rw [hpi]
      · rw [hni]
    · rw [hsame j x (by tauto)]
      refine ht.upper_mark x hx j hj ?_
      by_cases hxn : x = n
      · subst hxn
        rw [Function.update_self] at hjh ⊢
        have : j ≠ i := fun he => hc ⟨he, Or.inr rfl⟩
        omega
      · rwa [Function.update_of_ne hxn] at hjh ⊢
  · intro x hx
    have hxo : x ∈ P ++ p :: S := by
      rw [← hA, Ghost.front]
      exact List.mem_append_left _ hx
    rw [hmark x (fun he => hnfront (he ▸ hxo)) fun hi0 _ => hm hi0]
    exact ht.dead_mark x hx
  · have hxo : G.bound ∈ P ++ p :: S := by
      rw [← hA, Ghost.front]
      exact List.mem_append_right _ List.mem_cons_self
    exact (hmark G.bound (fun he => hnfront (he ▸ hxo)) fun hi0 _ => hm hi0).trans ht.bound_mark
  · intro x hx
    by_cases hxn : x = n
    · subst hxn
      by_cases hi0 : i = 0
      · subst hi0
        rw [hni]
      · rw [hsame 0 x (Or.inl (Ne.symm hi0))]
        exact ht.live_mark x hx
    · rw [hmark x hxn fun hi0 _ => hm hi0]
      exact ht.live_mark x hx
  · exact ht.sorted.imp fun {a b} hab => by rw [hk, hk]; exact hab
  · intro x hx
    rw [hk, hv]
    exact ht.data x hx
  · rw [hk]
    exact ht.tail_k

end Link

/-! ### The new node -/

section Insert

variable {α : Type} {C : Collector α} {I : Bool → α → List (NodeId × ℕ) → Prop} {max_offset : ℤ}
  {Q : Config α → Prop} {s : Store α} {h : NodeId → ℕ} {G : Ghost} {f : Frame} {m m₀ : Mem}
  {L R : List NodeId} {i k lvl : ℕ}

/-- What `alloc_node` and the assignments behind it leave in the new node. -/
structure Filled (m m' : Mem) (f : Frame) : Prop where
  others : ∀ x, x ≠ f.new → m' x = m x
  level : (m' f.new).level = f.lvl
  next : ∀ i, i < f.lvl → (m' f.new).next i = ref NULL
  k : (m' f.new).k = f.k
  v : (m' f.new).v = f.v

theorem Eventually.new_node (hn : s.Owned f.new)
    (hQ : ∀ m', Filled s.mem m' f →
      Eventually (Next C max_offset) Q ⟨{ s with mem := m' }, locate f .retry⟩) :
    Eventually (Next C max_offset) Q ⟨s, .insLevel f⟩ := by
  refine Eventually.write (m := modify _ f.new fun x => { x with level := f.lvl })
    rfl rfl trivial hn rfl ?_
  refine Eventually.write (m := modify _ f.new fun x => { x with inserting := true })
    rfl rfl trivial hn rfl ?_
  refine Eventually.write (m := clear _ f.new f.lvl) rfl rfl trivial hn rfl ?_
  refine Eventually.write (m := modify _ f.new fun x => { x with k := f.k })
    rfl rfl trivial hn rfl ?_
  refine Eventually.write (m := modify _ f.new fun x => { x with v := f.v })
    rfl rfl trivial hn rfl ?_
  refine hQ _ ⟨fun x hx => ?_, ?_, fun i hi => ?_, ?_, ?_⟩
  · simp [modify, clear, hx]
  · simp [modify, clear]
  · simp [modify, clear, hi]
  · simp [modify, clear]
  · simp [modify, clear]

/-! ### The upper levels -/

/-- The new node is linked in on the levels below `i`. -/
structure Linking (m₀ m : Mem) (h : NodeId → ℕ) (G : Ghost) (L R : List NodeId) (f : Frame) (i : ℕ) :
    Prop where
  stacked : Stacked m (Function.update h f.new i) (G.with L f.new R)
  level : (m f.new).level = f.lvl
  found : ∀ j, i ≤ j → j < NUM_LEVELS → Entered m h (G.front L) f j ∨
    (f.succs j = f.del ∧ f.del ∈ G.front L)
  data : ∀ x, (m x).k = (m₀ x).k ∧ (m x).level = (m₀ x).level ∧
    (m x).inserting = (m₀ x).inserting
  tail : m tail = m₀ tail

/-- One more level. -/
theorem Linking.raise (hl : Linking m₀ m h G L R f i) (hi : i < f.lvl)
    (hp : Entered m h (G.front L) f i)
    (hm : i = 0 → ((m (f.preds i)).next 0).mark = false) :
    Linking m₀ (setNext (setNext m f.new i (ref (f.succs i))) (f.preds i) i (ref f.new)) h G L R f
      (i + 1) := by
  obtain ⟨P, S, hA, hlt, hS, hsucc⟩ := hp
  have hmem : ∀ x ∈ G.front L ++ f.new :: R, x ≠ ConcurrentPQ.Linden.tail := fun x hx =>
    hl.stacked.ne_tail (by rw [Ghost.with_order]; exact hx)
  have hpt : f.preds i ≠ ConcurrentPQ.Linden.tail := hmem _ (by rw [hA]; simp)
  have hnt : f.new ≠ ConcurrentPQ.Linden.tail := hmem _ (by simp)
  rw [hsucc]
  refine ⟨hl.stacked.raise hA (hl.level ▸ hi) hlt hS hm, ?_, fun j hj hjN => ?_, fun x => ?_, ?_⟩
  · rw [setNext_level, setNext_level, hl.level]
  · refine (hl.found j (by omega) hjN).imp (fun hpl => ?_) id
    obtain ⟨P, S, hA, hlt, hS, hsucc⟩ := hpl
    have hji : j ≠ i := by omega
    exact ⟨P, S, hA, hlt, hS, by
      rw [hsucc, nxt, nxt, setNext_level_ne _ _ _ _ _ _ hji, setNext_level_ne _ _ _ _ _ _ hji]⟩
  · simp only [setNext_k, setNext_level, setNext_inserting]
    exact hl.data x
  · rw [setNext_node_ne _ _ _ _ _ hpt.symm, setNext_node_ne _ _ _ _ _ hnt.symm]
    exact hl.tail

/-- **The loop over the upper levels ends.** -/
theorem Linking.upper (hl : Linking m₀ m h G L R f i) (hi : 1 ≤ i) (hown : ∀ x ∈ G.all, s.Owned x)
    (horder : G.order = G.front L ++ R) (hn : s.Owned f.new)
    (hQ : ∀ m i, 1 ≤ i → Linking m₀ m h G L R f i →
      Eventually (Next C max_offset) Q ⟨{ s with mem := m }, .finish f⟩) :
    Eventually (Next C max_offset) Q ⟨{ s with mem := m }, .upLevel f i⟩ := by
  induction hd : f.lvl - i generalizing i m with
  | zero =>
    refine Eventually.loadLevel rfl rfl trivial hn ?_
    rw [if_neg (by dsimp only; rw [hl.level]; omega)]
    exact hQ m i hi hl
  | succ d ih =>
    have hlt : i < f.lvl := by omega
    have hiN : i < NUM_LEVELS := by
      have hmem : f.new ∈ (G.with L f.new R).order := by rw [Ghost.with_order]; simp
      have := (hl.stacked.heights f.new hmem).2
      rw [hl.level] at this
      omega
    have hfront : ∀ x ∈ G.front L, s.Owned x := fun x hx =>
      hown x (G.order_mem_all (by rw [horder]; exact List.mem_append_left _ hx))
    refine Eventually.loadLevel rfl rfl trivial hn ?_
    rw [if_pos (by dsimp only; rw [hl.level]; exact hlt)]
    refine Eventually.loadNext rfl rfl trivial hn ?_
    have hmark : ((m f.new).next 0).mark = false := hl.stacked.live_mark f.new (by simp [Ghost.with])
    rw [if_neg (by dsimp only; rw [hmark]; exact Bool.false_ne_true)]
    -- the successor on this level
    have hsucc : s.Owned (f.succs i) := by
      rcases hl.found i le_rfl hiN with ⟨P, S, hA, hlt, -, hsucc⟩ | ⟨hsd, hdel⟩
      · have hmem : f.preds i ∈ (G.with L f.new R).order := by
          rw [Ghost.with_order, hA]
          simp
        have hne : f.preds i ≠ f.new := by
          have hnd := hl.stacked.order_nodup
          rw [Ghost.with_order, List.nodup_middle, List.nodup_cons, hA] at hnd
          exact fun he => hnd.1 (he ▸ by simp)
        have hx := hl.stacked.nxt_mem hmem (by rwa [Function.update_of_ne hne])
        rw [hsucc]
        rcases (G.with L f.new R).mem_all.mp hx with hx | hx
        · rw [Ghost.with_order, List.mem_append, List.mem_cons] at hx
          rcases hx with hx | hx | hx
          · exact hfront _ hx
          · rw [hx]
            exact hn
          · exact hown _ (G.order_mem_all (by rw [horder]; exact List.mem_append_right _ hx))
        · exact Or.inr (Or.inl hx)
      · rw [hsd]
        exact hfront _ hdel
    refine Eventually.loadNext rfl rfl trivial hsucc ?_
    split
    · exact hQ m i hi hl
    · rename_i hno
      have hpl := (hl.found i le_rfl hiN).resolve_right fun hx => hno (Or.inr hx.1.symm)
      obtain ⟨P, S, hA, hlth, hS, hsuc⟩ := hpl
      have hmem : f.preds i ∈ G.front L := by rw [hA]; simp
      have hne : f.preds i ≠ f.new := by
        have hnd := hl.stacked.order_nodup
        rw [Ghost.with_order, List.nodup_middle, List.nodup_cons] at hnd
        exact fun he => hnd.1 (he ▸ List.mem_append_left _ hmem)
      have hword : (m (f.preds i)).next i = ref (f.succs i) := by
        rw [hsuc]
        refine hl.stacked.word ?_ ?_ fun h0 => absurd h0 (by omega)
        · rw [Ghost.with_order]
          exact List.mem_append_left _ hmem
        · rwa [Function.update_of_ne hne]
      refine Eventually.write (m := setNext m f.new i (ref (f.succs i))) rfl rfl trivial hn rfl ?_
      refine Eventually.casHit rfl rfl trivial (hfront _ hmem) ?_ ?_
      · change (setNext m f.new i (ref (f.succs i)) (f.preds i)).next i = _
        rw [setNext_node_ne _ _ _ _ _ hne]
        exact hword
      · exact ih (hl.raise hlt ⟨P, S, hA, hlth, hS, hsuc⟩ fun h0 => absurd h0 (by omega)) (by omega)
          (by omega)

end Insert

/-! ### insert -/

section Call

variable {α : Type} {C : Collector α} {I : Bool → α → List (NodeId × ℕ) → Prop} {max_offset : ℤ}
  {Q : Config α → Prop} {s : Store α} {h : NodeId → ℕ} {G : Ghost} {f : Frame} {L R : List NodeId}
  {v lvl : ℕ}

/-- The record of level 0: the last node in front of the place, and the first one behind it. -/
theorem Place.zero {k : ℕ} (hp : Place s h G k L R) (hz : Entered s.mem h (G.front L) f 0) :
    f.preds 0 ∈ G.bound :: L ∧ (s.mem (f.preds 0)).next 0 = ref (f.succs 0) ∧
      Seg (nxt s.mem 0) (f.succs 0) R tail := by
  obtain ⟨P, S, hA, hlt, hS, hsucc⟩ := hz
  have hS' : S = [] := by
    rw [hp.tidy.onLevel_zero] at hS
    · exact hS
    · refine fun x hx => hp.mem_order ?_
      rw [hA]
      exact List.mem_append_right _ (List.mem_cons_of_mem _ hx)
  subst hS'
  have hmem : f.preds 0 ∈ G.bound :: L := by
    rcases List.eq_nil_or_concat L with rfl | ⟨L', y, rfl⟩
    · have hA' : G.dead ++ [G.bound] = P ++ [f.preds 0] := hA
      obtain ⟨-, h2⟩ := List.append_inj' hA' rfl
      exact (List.cons.inj h2).1 ▸ List.mem_cons_self
    · rw [Ghost.front, List.concat_eq_append, ← List.cons_append, ← List.append_assoc] at hA
      obtain ⟨-, h2⟩ := List.append_inj' hA rfl
      rw [← (List.cons.inj h2).1]
      simp
  have hord : f.preds 0 ∈ G.order := hp.mem_order (by rw [hA]; simp)
  refine ⟨hmem, ?_, ?_⟩
  · rw [hsucc]
    refine hp.tidy.word hord hlt fun _ => ?_
    rcases List.mem_cons.mp hmem with he | hm
    · rw [he]
      exact hp.tidy.bound_mark
    · exact hp.tidy.live_mark _ (by rw [hp.live]; exact List.mem_append_left _ hm)
  · have hseg := hp.tidy.level (P := P) (S := R) (i := 0) (by decide)
      (by rw [hp.order, hA, List.append_assoc]; rfl) hlt
    rw [hp.tidy.onLevel_zero] at hseg
    · rw [hsucc]
      exact hseg
    · intro x hx
      rw [hp.order]
      exact List.mem_append_right _ hx

/-- A thread inside `insert` holds its new node `f.new` besides the tidy queue. -/
structure Holding (I : Bool → α → List (NodeId × ℕ) → Prop) (s : Store α) (h : NodeId → ℕ) (G : Ghost)
    (f : Frame) (U : List (NodeId × ℕ)) : Prop where
  tidy : Tidy s.mem h G
  tail_mark : ((s.mem tail).next 0).mark = false
  used : s.used = (f.new, f.lvl - 1) :: U
  uses : Uses s.mem U G.nodes
  lawful : I true s.col s.used
  quiet : ∀ n ∈ G.order, (s.mem n).inserting = false
  notMem : f.new ∉ G.all
  first : firstNode ≤ f.new
  level : (s.mem f.new).level = f.lvl
  lvl : 1 ≤ f.lvl ∧ f.lvl ≤ NUM_LEVELS
  next : ∀ i, i < f.lvl → (s.mem f.new).next i = ref NULL
  k : (s.mem f.new).k = f.k
  v : (s.mem f.new).v = f.k
  range : SENTINEL_KEYMIN < f.k ∧ f.k ≤ pkey SENTINEL_KEYMAX

namespace Holding

variable {U : List (NodeId × ℕ)}

theorem owned (hh : Holding I s h G f U) {x : NodeId} (hx : x ∈ G.all) : s.Owned x := by
  rcases G.mem_all.mp hx with hx | hx
  · refine (hh.tidy.mem_order.mp hx).imp id fun hx => Or.inr ?_
    rw [hh.used]
    exact List.mem_cons_of_mem _ (hh.uses.mem_fst.mpr hx)
  · exact Or.inr (Or.inl hx)

theorem owned_new (hh : Holding I s h G f U) : s.Owned f.new := by
  refine Or.inr (Or.inr ?_)
  rw [hh.used]
  exact List.mem_cons_self

/-- The key is present: the new node is released. -/
theorem duplicate (hC : Lawful C I) (hh : Holding I s h G f U)
    (hQ : ∀ s', Consistent I true s' h G → (∀ x ∈ G.all, s'.mem x = s.mem x ) →
      Eventually (Next C max_offset) Q ⟨s', .ret none⟩) :
    Eventually (Next C max_offset) Q ⟨s, .dupClear f⟩ := by
  set m := modify s.mem f.new fun x => { x with inserting := false } with hm
  have hsame : ∀ x ∈ G.all, m x = s.mem x := fun x hx =>
    modify_ne _ _ _ _ fun he => hh.notMem (he ▸ hx)
  have hnodes : ∀ x ∈ G.nodes, m x = s.mem x := fun x hx =>
    hsame x (G.order_mem_all (hh.tidy.mem_order.mpr (Or.inr hx)))
  have hlevel : (m f.new).level - 1 = f.lvl - 1 := by
    rw [hm, modify_same]
    exact congrArg (· - 1) hh.level
  refine Eventually.write (m := m) rfl rfl trivial hh.owned_new rfl ?_
  have hin : (f.new, f.lvl - 1) ∈ s.used := by
    rw [hh.used]
    exact List.mem_cons_self
  have hrest : s.used.erase (f.new, f.lvl - 1) = U := by rw [hh.used, List.erase_cons_head]
  refine Eventually.freeNode rfl rfl trivial hlevel hin ?_
  have hfree := hC.free s.col s.used f.new (f.lvl - 1) hh.lawful hin
  refine hQ _ ⟨⟨hh.tidy.congr fun x hx => ?_, hh.tidy.pos⟩, ?_, ?_, fun x hx => ?_⟩ hsame
  · dsimp only
    rw [hsame x hx]
    exact ⟨rfl, rfl, rfl, rfl⟩
  · dsimp only
    rw [hrest]
    exact hh.uses.congr fun x hx => by rw [hnodes x hx]
  · exact hfree
  · dsimp only
    rw [hsame x (G.order_mem_all hx)]
    exact hh.quiet x hx

/-- The new node is linked in on level 0, and then on the others. -/
theorem link (hh : Holding I s h G f U) (hp : Place s h G f.k L R)
    (hfound : Spotted s.mem h (G.front L) f) (hk : (s.mem (f.succs 0)).k ≠ f.k)
    (hlt : f.k < pkey SENTINEL_KEYMAX)
    (hQ : ∀ s' h', Consistent I true s' h' (G.with L f.new R) →
      (∀ x, (s'.mem x).k = (s.mem x).k) → s'.mem tail = s.mem tail →
      Eventually (Next C max_offset) Q ⟨s', .ret none⟩) :
    Eventually (Next C max_offset) Q ⟨s, .link0 f⟩ := by
  obtain ⟨hp0, hword0, hseg0⟩ := hp.zero hfound.zero
  have hp0mem : f.preds 0 ∈ G.front L := List.mem_append_right _ hp0
  have hfront : ∀ x ∈ G.front L, x ≠ f.new := fun x hx he =>
    hh.notMem (G.order_mem_all (hp.mem_order (he ▸ hx)))
  -- the keys behind the place are larger
  have hR : ∀ x ∈ R, f.k < (s.mem x).k := by
    cases R with
    | nil => exact fun x hx => absurd hx List.not_mem_nil
    | cons y R =>
      have hy : f.k < (s.mem y).k := by
        refine lt_of_le_of_ne (hp.right y List.mem_cons_self) fun he => hk ?_
        rw [hseg0.1]
        exact he.symm
      have hsorted := hp.tidy.sorted
      rw [hp.live, List.pairwise_append, List.pairwise_cons] at hsorted
      intro x hx
      rcases List.mem_cons.mp hx with rfl | hx
      · exact hy
      · exact hy.trans (hsorted.2.1.1 x hx)
  have hplace : Stacked s.mem (Function.update h f.new 0) (G.with L f.new R) := by
    refine hp.tidy.place hp.live hh.notMem (hh.level ▸ hh.lvl.2) (hh.level ▸ hh.next)
      (hh.level ▸ hh.lvl.1) ⟨hh.first, ?_, ?_, ?_⟩ ?_ ?_ <;> rw [hh.k]
    · exact hh.range.1
    · exact hlt
    · exact hh.v
    · exact hp.left
    · exact hR
  have hlinking : Linking s.mem s.mem h G L R f 0 := by
    refine ⟨hplace, hh.level, fun j _ hjN => ?_, fun x => ⟨rfl, rfl, rfl⟩, rfl⟩
    rcases Nat.eq_zero_or_pos j with rfl | hj
    · exact Or.inl hfound.zero
    · exact hfound.upper j hj hjN
  have hraise := hlinking.raise hh.lvl.1 hfound.zero fun _ => by rw [hword0]
  refine Eventually.write (m := setNext s.mem f.new 0 (ref (f.succs 0))) rfl rfl trivial
    hh.owned_new rfl ?_
  refine Eventually.casHit rfl rfl trivial (hp.owned_front hp0mem).1 ?_ ?_
  · change (setNext s.mem f.new 0 (ref (f.succs 0)) (f.preds 0)).next 0 = _
    rw [setNext_node_ne _ _ _ _ _ (hfront _ hp0mem)]
    exact hword0
  · refine hraise.upper (s := s) le_rfl (fun x hx => hh.owned hx) hp.order hh.owned_new
      fun m i hi hl => ?_
    -- the flag is reset last
    set m' := modify m f.new fun x => { x with inserting := false } with hm'
    have hdata : ∀ x, (m' x).k = (m x).k ∧ (m' x).v = (m x).v ∧ (m' x).level = (m x).level ∧
        (m' x).next = (m x).next := by
      intro x
      by_cases hx : x = f.new
      · rw [hx, hm', modify_same]
        exact ⟨rfl, rfl, rfl, rfl⟩
      · rw [hm', modify_ne _ _ _ _ hx]
        exact ⟨rfl, rfl, rfl, rfl⟩
    have hnt : f.new ≠ ConcurrentPQ.Linden.tail := fun he =>
      hh.notMem (G.mem_all.mpr (Or.inr he))
    refine Eventually.write (m := m') rfl rfl trivial hh.owned_new rfl ?_
    refine hQ ⟨m', s.used, s.col⟩ (Function.update h f.new i) ⟨⟨hl.stacked.congr fun x _ => hdata x, ?_⟩, ?_, hh.lawful, ?_⟩
      (fun x => ?_) ?_
    · intro x hx
      by_cases hxn : x = f.new
      · rw [hxn, Function.update_self]
        exact hi
      · rw [Function.update_of_ne hxn]
        refine hh.tidy.pos x ?_
        rw [Ghost.with_order, List.mem_append, List.mem_cons] at hx
        rw [hp.order, List.mem_append]
        exact hx.imp id fun h => h.resolve_left hxn
    · have hperm : (G.with L f.new R).nodes.Perm (f.new :: G.nodes) := by
        refine (List.perm_cons head).mp ?_
        rw [← hl.stacked.first, Ghost.with_order]
        refine List.perm_middle.trans ((List.Perm.cons f.new ?_).trans (List.Perm.swap ..))
        rw [← hp.tidy.first, hp.order]
      have hu : Uses s.mem s.used (f.new :: G.nodes) := by
        have hcons := List.Perm.cons (f.new, f.lvl - 1) hh.uses
        rw [← hh.used] at hcons
        unfold Uses
        rw [List.map_cons, hh.level]
        exact hcons
      have hu' : Uses s.mem s.used (G.with L f.new R).nodes :=
        hu.trans (hperm.map _).symm
      exact hu'.congr fun x _ => by
        dsimp only
        rw [(hdata x).2.2.1, (hl.data x).2.1]
    · intro x hx
      by_cases hxn : x = f.new
      · rw [hxn]
        dsimp only
        rw [hm', modify_same]
      · dsimp only
        rw [hm', modify_ne _ _ _ _ hxn, (hl.data x).2.2]
        refine hh.quiet x ?_
        rw [Ghost.with_order, List.mem_append, List.mem_cons] at hx
        rw [hp.order, List.mem_append]
        exact hx.imp id fun h => h.resolve_left hxn
    · exact (hdata x).1.trans (hl.data x).1
    · dsimp only
      rw [hm', modify_ne _ _ _ _ hnt.symm, hl.tail]

end Holding

/-- Behind `locate_preds` the key is found, or the new node is linked in. -/
theorem Holding.located (hC : Lawful C I) {U : List (NodeId × ℕ)} (hh : Holding I s h G f U)
    (hp : Place s h G f.k L R) (hfound : Spotted s.mem h (G.front L) f)
    (hdup : f.k = pkey SENTINEL_KEYMAX ∨ (∃ x ∈ G.live, (s.mem x).k = f.k) →
      ∀ s', Consistent I true s' h G → (∀ x ∈ G.all, s'.mem x = s.mem x) →
      Eventually (Next C max_offset) Q ⟨s', .ret none⟩)
    (hnew : f.k < pkey SENTINEL_KEYMAX → (∀ x ∈ G.live, (s.mem x).k ≠ f.k) →
      ∀ s' h', Consistent I true s' h' (G.with L f.new R) → (∀ x, (s'.mem x).k = (s.mem x).k) →
      s'.mem tail = s.mem tail → Eventually (Next C max_offset) Q ⟨s', .ret none⟩) :
    Eventually (Next C max_offset) Q ⟨s, .dupKey f⟩ := by
  obtain ⟨hp0, hword0, hseg0⟩ := hp.zero hfound.zero
  have hp0own := (hp.owned_front (List.mem_append_right G.dead hp0)).1
  have hs0 : f.succs 0 ∈ R ++ [tail] := by
    cases R with
    | nil => exact List.mem_append_right _ (by rw [show f.succs 0 = tail from hseg0]; simp)
    | cons y R => exact List.mem_append_left _ (by rw [hseg0.1]; exact List.mem_cons_self)
  refine Eventually.loadKey rfl rfl trivial (hp.stop hs0).2.2 ?_
  by_cases hk : (s.mem (f.succs 0)).k = f.k
  · -- the key is present
    rw [if_pos hk]
    refine Eventually.loadNext rfl rfl trivial hp0own ?_
    rw [if_neg (by rw [hword0]; exact Bool.false_ne_true)]
    refine Eventually.loadNext rfl rfl trivial hp0own ?_
    rw [if_pos hword0]
    refine hh.duplicate hC (hdup ?_)
    rcases List.mem_append.mp hs0 with hx | hx
    · refine Or.inr ⟨_, ?_, hk⟩
      rw [hp.live]
      exact List.mem_append_right _ hx
    · refine Or.inl ?_
      rw [← hk, show f.succs 0 = tail by simpa using hx, hh.tidy.tail_k]
  · rw [if_neg hk]
    have hlt : f.k < pkey SENTINEL_KEYMAX := by
      refine lt_of_le_of_ne hh.range.2 fun he => hk ?_
      have hle := (hp.stop hs0).1
      rcases List.mem_append.mp hs0 with hx | hx
      · have hord : f.succs 0 ∈ G.order := by
          rw [hp.order]
          exact List.mem_append_right _ hx
        have hne : f.succs 0 ≠ head := by
          intro hhead
          have hnd := hp.tidy.order_nodup
          rw [hp.order, List.nodup_append] at hnd
          refine hnd.2.2 head ?_ _ hx hhead.symm
          have hfirst := hp.tidy.first
          rw [hp.order] at hfirst
          cases hl : G.front L with
          | nil => exact absurd hl (by simp [Ghost.front])
          | cons y l =>
            rw [hl] at hfirst
            rw [(List.cons.inj hfirst).1]
            exact List.mem_cons_self
        have := (hp.tidy.data _ ((hp.tidy.mem_order.mp hord).resolve_left hne)).2.2.1
        omega
      · rw [show f.succs 0 = tail by simpa using hx, hp.tidy.tail_k]
        exact he.symm
    refine hh.link hp hfound hk hlt (hnew hlt fun x hx he => ?_)
    -- a live node with the key would stand first behind the place
    rw [hp.live, List.mem_append] at hx
    rcases hx with hx | hx
    · exact absurd he (hp.left x hx).ne
    · cases R with
      | nil => cases hx
      | cons y R =>
        rw [hseg0.1] at hk
        have hsorted := hp.tidy.sorted
        rw [hp.live, List.pairwise_append, List.pairwise_cons] at hsorted
        rcases List.mem_cons.mp hx with rfl | hx
        · exact hk he
        · have h1 := hp.right y List.mem_cons_self
          have h2 := hsorted.2.1.1 x hx
          omega

/-- **`insert` ends.**  It leaves everything as it is if its key is that of a live node (or of the
tail), and adds a live node with the key otherwise. -/
theorem Consistent.insert (hC : Lawful C I) (hr : Consistent I true s h G)
    (htail : ((s.mem tail).next 0).mark = false)
    (hv : SENTINEL_KEYMIN < v ∧ v ≤ pkey SENTINEL_KEYMAX) (hl : 1 ≤ lvl ∧ lvl ≤ NUM_LEVELS)
    (hdup : v = pkey SENTINEL_KEYMAX ∨ (∃ x ∈ G.live, (s.mem x).k = v) →
      ∀ s', Consistent I true s' h G → (∀ x ∈ G.all, s'.mem x = s.mem x) →
      Eventually (Next C max_offset) Q ⟨s', .ret none⟩)
    (hnew : v < pkey SENTINEL_KEYMAX → (∀ x ∈ G.live, (s.mem x).k ≠ v) →
      ∀ s' h' L n R, G.live = L ++ R → n ∉ G.all → Consistent I true s' h' (G.with L n R) →
      (∀ x ∈ G.all, (s'.mem x).k = (s.mem x).k) → (s'.mem n).k = v →
      s'.mem tail = s.mem tail → Eventually (Next C max_offset) Q ⟨s', .ret none⟩) :
    Eventually (Next C max_offset) Q ⟨s, .insAlloc v v lvl⟩ := by
  obtain ⟨hge, hfresh, hlaw⟩ := hC.alloc s.col s.used (lvl - 1) hr.lawful (by omega)
  set n := (C.alloc (lvl - 1) s.col).1 with hn
  have hno : n ∉ s.used.map Prod.fst := by
    intro hm
    obtain ⟨⟨x, c⟩, hx, he⟩ := List.mem_map.mp hm
    exact hfresh c (by rw [← he]; exact hx)
  have hnall : n ∉ G.all := by
    intro hm
    rcases G.mem_all.mp hm with hm | hm
    · rcases hr.tidy.mem_order.mp hm with hm | hm
      · rw [hm] at hge
        exact absurd hge (by decide)
      · exact hno (hr.uses.mem_fst.mpr hm)
    · rw [hm] at hge
      exact absurd hge (by decide)
  -- alloc_node
  refine Eventually.access rfl ⟨⟨⟨hv.1, lt_of_le_of_lt hv.2 (by decide)⟩, hl⟩, hno,
    hr.tidy.not_refers rfl hr.uses hge hno⟩ ?_
  change Eventually _ Q ⟨⟨s.mem, (n, lvl - 1) :: s.used, (C.alloc (lvl - 1) s.col).2⟩,
    .insLevel (.begin v v lvl n)⟩
  refine Eventually.new_node (Or.inr (Or.inr List.mem_cons_self)) fun m₁ hprep => ?_
  set s₁ : Store α := ⟨m₁, (n, lvl - 1) :: s.used, (C.alloc (lvl - 1) s.col).2⟩ with hs₁
  have hsame : ∀ x ∈ G.all, s₁.mem x = s.mem x := fun x hx =>
    hprep.others x fun he : x = n => hnall (he ▸ hx)
  have hhold : Holding I s₁ h G (.begin v v lvl n) s.used := {
    tidy := ⟨hr.tidy.congr fun x hx => by rw [hsame x hx]; exact ⟨rfl, rfl, rfl, rfl⟩, hr.tidy.pos⟩
    tail_mark := by
      rw [hsame tail (G.mem_all.mpr (Or.inr rfl))]
      exact htail
    used := rfl
    uses := hr.uses.congr fun x hx => by
      rw [hsame x (G.order_mem_all (hr.tidy.mem_order.mpr (Or.inr hx)))]
    lawful := hlaw
    quiet := fun x hx => by
      rw [hsame x (G.order_mem_all hx)]
      exact hr.quiet x hx
    notMem := hnall
    first := hge
    level := hprep.level
    lvl := hl
    next := hprep.next
    k := hprep.k
    v := hprep.v
    range := hv }
  obtain ⟨L, R, hLR, hL, hR⟩ := hhold.tidy.live_split v
  have hplace : Place s₁ h G (Frame.begin v v lvl n).k L R :=
    ⟨hhold.tidy, fun x hx => hhold.owned hx, hhold.tail_mark, hLR, hL, hR, hv.2⟩
  have hlive : ∀ x ∈ G.live, x ∈ G.all := fun x hx =>
    G.order_mem_all (G.mem_order.mpr (Or.inr (Or.inr hx)))
  refine hplace.locate fun f hf hfound => ?_
  obtain ⟨hfk, hfv, hfl, hfn⟩ : f.k = v ∧ f.v = v ∧ f.lvl = lvl ∧ f.new = n := hf
  have hhold' : Holding I s₁ h G f s.used := by
    obtain ⟨k, v', lvl', new, preds, succs, del⟩ := f
    obtain ⟨rfl, rfl, rfl, rfl⟩ : k = v ∧ v' = v ∧ lvl' = lvl ∧ new = n := ⟨hfk, hfv, hfl, hfn⟩
    exact ⟨hhold.1, hhold.2, hhold.3, hhold.4, hhold.5, hhold.6, hhold.7, hhold.8, hhold.9, hhold.10,
      hhold.11, hhold.12, hhold.13, hhold.14⟩
  refine hhold'.located hC (hfk.symm ▸ hplace) hfound (fun hd s' hr' hm => ?_)
    fun hlt hno' s' h' hr' hm ht => ?_
  · rw [hfk] at hd
    refine hdup (hd.imp id fun ⟨x, hx, hxk⟩ => ⟨x, hx, ?_⟩) s' hr' fun x hx => ?_
    · rw [hm x hx]
      exact hsame x hx
    · rw [← hsame x (hlive x hx)]
      exact hxk
  · rw [hfk] at hlt hno'
    refine hnew hlt (fun x hx => ?_) s' h' L f.new R hLR (hfn ▸ hnall) hr' (fun x hx => ?_) ?_ ?_
    · rw [← hsame x (hlive x hx)]
      exact hno' x hx
    · rw [hm x]
      exact congrArg Node.k (hsame x hx)
    · rw [hm f.new, hfn]
      exact hprep.k
    · rw [ht]
      exact hsame tail (G.mem_all.mpr (Or.inr rfl))

end Call

end ConcurrentPQ.Linden

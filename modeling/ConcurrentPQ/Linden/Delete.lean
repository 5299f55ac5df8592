import ConcurrentPQ.Linden.Insert

/-!
# The accesses of `deletemin`

The obligations `Sound` for the program counters of `deletemin`, of `restructure` and of the
recycling loop, and `Ok.step`, which puts the lemmas of all program counters together.

* `Walk.follows`, `Walk.advance` — one round of the traversal;
* `sound_delFao`, `sound_delSwing` — the fetch-and-or that deletes a node, and the swing of the head;
* `sound_rsCas`, `sound_rcFree` — a pointer of the head is moved forward, and a node is freed;
* `Ok.step` — **every access keeps the invariant**, and no thread ever reads through a null or a
  marked pointer.
-/

namespace ConcurrentPQ.Linden

open ConcurrentPQ.Segment

variable {m : Mem} {brk : NodeId} {s : Shared} {G : Ghost} {d : DelFrame}

/-! ### The traversal -/

theorem sound_delObs (hs : Shape s.mem s.brk G) :
    Sound s G .delObs (s, .delLoad ⟨(s.mem head).next 0, head, ref NULL, NULL, 0, 0⟩) G := by
  refine .still hs (show NULL ≠ tail by decide) rfl (Or.inl rfl)
    ⟨hs.head_mem_gone, Or.inl rfl, fun hm => ⟨hs.dead_of_mark hs.head_mem hm, Or.inl rfl,
      Or.inr ⟨Or.inl rfl, fun _ => ?_, fun h => absurd rfl h⟩⟩⟩
  exact fun n _ hb => absurd hb hs.not_before_head

/-- What loading `next[0]` of the node the traversal stands on tells. -/
theorem Walk.follows (hs : Shape m brk G) (h : Walk m G d) :
    Follows m G d ((m d.x).next 0) := by
  intro hm
  have hx := G.gone_subset h.gone
  refine ⟨hs.dead_of_mark hx hm, fun ho => ?_⟩
  obtain ⟨hobs, hle, hrest⟩ := h.obs ho
  refine or_iff_not_imp_left.mpr fun hp => ?_
  obtain ⟨hxo, -, -⟩ := hrest.resolve_left hp
  rcases eq_or_ne d.x head with he | hne
  · -- the head still points to `obs_head`
    have heq : succ0 m d.x = d.obs_head.ptr := by
      rw [he]
      exact (hle.resolve_right hp).symm
    show Le G.all _ (succ0 m d.x) ∧ _
    refine ⟨Or.inl heq.symm, fun n hn hb => absurd hb ?_⟩
    rw [show ((m d.x).next 0).ptr = d.obs_head.ptr from heq]
    exact fun hb => Before.irrefl hs.nodup (hn.trans_before hs.nodup hb)
  · have hox := hxo.resolve_left hne
    exact ⟨Or.inr (hox.trans_before hs.nodup (hs.before_succ0 hx hne)),
      fun n _ hb => hs.le_of_before_succ0 hx hne hb⟩

/-- The traversal goes on to the node a marked word points to. -/
theorem Walk.advance (h : Walk m G d) {nxt : Ref} (hm : nxt.mark = true)
    (hf : Follows m G d nxt) (hx : d.newhead = NULL → (m d.x).inserting = false) (r : Ref) :
    Walk m G { d with nxt := r, x := nxt.ptr } := by
  obtain ⟨hdead, hrest⟩ := hf hm
  refine ⟨hdead.1, h.newhead, fun ho => ?_⟩
  obtain ⟨hobs, hle, hwalk⟩ := h.obs ho
  refine ⟨hobs, hle, or_iff_not_imp_left.mpr fun hp => ?_⟩
  obtain ⟨hon, hbetween⟩ := (hrest ho).resolve_left hp
  obtain ⟨-, hclear, hnew⟩ := hwalk.resolve_left hp
  refine ⟨Or.inr hon, fun hn n han hb => ?_, hnew⟩
  rcases hbetween n han hb with rfl | hb
  · exact hx hn
  · exact hclear hn n han hb

theorem own_delLoop (nxt : Ref) : own (delLoop d nxt) = NULL := by
  unfold delLoop
  split <;> rfl

theorem own_delSkip : own (delSkip d) = NULL := by
  unfold delSkip
  split
  · exact own_delLoop _
  · rfl

/-- The test of the outer loop, behind a marked word. -/
theorem Ok.delLoop (hs : Shape m brk G) (h : Walk m G d) {nxt : Ref} (hm : nxt.mark = true)
    (hf : Follows m G d nxt) (hx : d.newhead = NULL → (m d.x).inserting = false) :
    Ok m brk G (delLoop d nxt) := by
  unfold Linden.delLoop
  rw [if_pos ⟨hs.ne_null (G.gone_subset (hf hm).1.1), hm⟩]
  exact h.advance hm hf hx nxt

theorem Ok.delSkip (hs : Shape m brk G) (h : Walk m G d) (hf : Follows m G d d.nxt)
    (hx : d.newhead = NULL → (m d.x).inserting = false) (ht : succ0 m d.x ≠ tail) :
    Ok m brk G (delSkip d) := by
  unfold Linden.delSkip
  split
  · rename_i hm
    exact .delLoop hs h hm hf hx
  · exact ⟨h, hx, ht⟩

theorem sound_delLoad (hs : Shape s.mem s.brk G) (h : Walk s.mem G d) :
    Sound s G (.delLoad d)
      (s, if ((s.mem d.x).next 0).ptr = tail then .ret (some 0)
        else if d.newhead = NULL then
          .delInserting { d with offset := d.offset + 1, nxt := (s.mem d.x).next 0 }
        else delSkip { d with offset := d.offset + 1, nxt := (s.mem d.x).next 0 }) G := by
  have hne : own (.delLoad d) ≠ tail := show NULL ≠ tail by decide
  have hf := h.follows hs
  have hw : Walk s.mem G { d with offset := d.offset + 1, nxt := (s.mem d.x).next 0 } :=
    ⟨h.gone, h.newhead, h.obs⟩
  split
  · exact .still hs hne rfl (Or.inl rfl) trivial
  · rename_i ht
    split
    · rename_i hn
      exact .still hs hne rfl (Or.inl rfl) ⟨hw, hn, ht, hf⟩
    · rename_i hn
      exact .still hs hne rfl (Or.inl own_delSkip) (.delSkip hs hw hf (fun he => absurd he hn) ht)

/-- The node the traversal stands on becomes the new head. -/
theorem Walk.choose (h : Walk m G d) (hx : d.x ≠ head) (hn : d.newhead = NULL) :
    Walk m G { d with newhead := d.x } := by
  refine ⟨h.gone, Or.inr ⟨h.gone, hx⟩, fun ho => ?_⟩
  obtain ⟨hobs, hle, hrest⟩ := h.obs ho
  refine ⟨hobs, hle, hrest.imp id fun ⟨hxo, hclear, _⟩ => ?_⟩
  have hox := hxo.resolve_left hx
  exact ⟨Or.inr hox, fun _ => hclear hn, fun _ => ⟨hox, hclear hn⟩⟩

theorem sound_delInserting (hs : Shape s.mem s.brk G) (h : Ok s.mem s.brk G (.delInserting d)) :
    Sound s G (.delInserting d)
      (s, delSkip (if (s.mem d.x).inserting then { d with newhead := d.x } else d)) G := by
  obtain ⟨hw, hn, ht, hf⟩ := h
  refine .still hs (show NULL ≠ tail by decide) rfl (Or.inl own_delSkip) ?_
  split
  · rename_i hi
    have hxh : d.x ≠ head := by
      intro he
      rw [he, hs.head_inserting] at hi
      cases hi
    have hxn : d.x ≠ NULL := hs.ne_null (G.gone_subset hw.gone)
    exact .delSkip hs (hw.choose hxh hn) hf (fun he => absurd he hxn) ht
  · rename_i hi
    exact .delSkip hs hw hf (fun _ => by simpa using hi) ht

/-- **The fetch-and-or.** -/
theorem sound_delFao (hs : Shape s.mem s.brk G) (h : Ok s.mem s.brk G (.delFao d)) :
    ∃ G', Sound s G (.delFao d)
      ({ s with mem := setNext s.mem d.x 0 (get_marked_ref ((s.mem d.x).next 0)) },
        delLoop d ((s.mem d.x).next 0)) G' := by
  obtain ⟨hw, hx, ht⟩ := h
  have hne : own (.delFao d) ≠ tail := show NULL ≠ tail by decide
  cases hm : ((s.mem d.x).next 0).mark with
  | true =>
    have hsame : get_marked_ref ((s.mem d.x).next 0) = (s.mem d.x).next 0 := by
      rw [get_marked_ref, ← hm]
    rw [hsame, setNext_self]
    refine ⟨G, .still hs hne ?_ (Or.inl (own_delLoop _)) (.delLoop hs hw hm (hw.follows hs) hx)⟩
    rw [event, if_pos hm]
    rfl
  | false =>
    obtain ⟨V, hV, hs', e⟩ := hs.delete (w := NULL) hw.gone hm ht (by decide)
    set m' := setNext s.mem d.x 0 ⟨succ0 s.mem d.x, true⟩ with hm'
    set G' : Ghost := ⟨G.dead ++ [G.bound], succ0 s.mem d.x, V⟩ with hG'
    have hw' : Walk m' G' d := hw.evolve e hs hs'
    have hword : (m' d.x).next 0 = ⟨succ0 s.mem d.x, true⟩ := setNext_same ..
    have hf := hw'.follows hs'
    rw [hword] at hf
    have hdead := (hf rfl).1
    have hx' : d.newhead = NULL → (m' d.x).inserting = false := fun hn => by
      rw [hm', setNext_inserting]
      exact hx hn
    refine ⟨G', hs', e, ?_, le_rfl, ?_, Or.inl (own_delLoop _), Or.inl rfl⟩
    · dsimp only [delLoop]
      rw [hm, if_neg (by simp)]
      exact ⟨hw'.advance rfl hf hx' _, hdead.2⟩
    · rw [event, if_neg (by simp [hm])]
      exact ⟨hV, by simp [Ghost.order, hG', hV]⟩

theorem sound_delVal (hs : Shape s.mem s.brk G) {max_offset : ℤ}
    (h : Ok s.mem s.brk G (.delVal d)) :
    Sound s G (.delVal d)
      (s, if (d.offset : ℤ) ≤ max_offset then .ret (some (s.mem d.x).v)
        else .delCheck { d with
          v := (s.mem d.x).v
          newhead := if d.newhead = NULL then d.x else d.newhead }) G := by
  obtain ⟨hw, hx⟩ := h
  have hne : own (.delVal d) ≠ tail := show NULL ≠ tail by decide
  split
  · exact .still hs hne rfl (Or.inl rfl) trivial
  · refine .still hs hne rfl (Or.inl rfl) ?_
    split
    · rename_i hn
      have hc := hw.choose hx hn
      have hxn : d.x ≠ NULL := hs.ne_null (G.gone_subset hw.gone)
      exact ⟨⟨hw.gone, hx⟩, fun ho => ⟨(hc.obs ho).1, (hc.obs ho).2.2.imp id
        fun hr => hr.2.2 hxn⟩⟩
    · rename_i hn
      exact ⟨hw.newhead.resolve_left hn, fun ho => ⟨(hw.obs ho).1, (hw.obs ho).2.2.imp id
        fun hr => hr.2.2 hn⟩⟩

/-! ### The swing of the head -/

theorem sound_delCheck (hs : Shape s.mem s.brk G) (h : Ready s.mem G d) :
    Sound s G (.delCheck d)
      (s, if (s.mem head).next 0 ≠ d.obs_head then .ret (some d.v) else .delSwing d) G := by
  have hne : own (.delCheck d) ≠ tail := show NULL ≠ tail by decide
  split
  · exact .still hs hne rfl (Or.inl rfl) trivial
  · exact .still hs hne rfl (Or.inl rfl) h

theorem sound_delSwing (hs : Shape s.mem s.brk G) (h : Ready s.mem G d) :
    Sound s G (.delSwing d)
      (if (s.mem head).next 0 = d.obs_head then
        ({ s with mem := setNext s.mem head 0 (get_marked_ref (ref d.newhead)) },
          .rsHead d (NUM_LEVELS - 1) (ref head))
      else (s, .ret (some d.v))) G := by
  have hne : own (.delSwing d) ≠ tail := show NULL ≠ tail by decide
  split
  · rename_i he
    have hmark := hs.head_mark_of_dead h.newhead
    obtain ⟨hobs, hrest⟩ := h.obs (he ▸ hmark)
    have hlow : succ0 s.mem head = d.obs_head.ptr := by rw [succ0, he]
    obtain ⟨hle, hclear⟩ := hrest.resolve_left fun hp => by
      rw [Passed, show headPtr s.mem 0 = d.obs_head.ptr from hlow] at hp
      exact Before.irrefl hs.nodup hp
    obtain ⟨hs', e⟩ := hs.swing (w := NULL) h.newhead (hlow ▸ hle) (fun n hn hb => by
      rcases le_or_before (G.order_mem_all (G.gone_subset hobs.1)) hb.left_mem with ho | ho
      · exact hclear n ho hb
      · exact hs.inserting_of_passed hmark hn (hlow ▸ ho)) (by decide)
    refine ⟨hs', e, ⟨⟨h.newhead, hobs, hle, Or.inl ?_⟩, by decide, by decide, rfl,
      hs'.head_source _ (by decide), fun j h₁ h₂ => ?_⟩, le_rfl, rfl, Or.inl rfl, Or.inl rfl⟩
    · dsimp only
      rw [headPtr, setNext_same]
      rfl
    · exact absurd h₁ (Nat.not_lt.mpr (Nat.le_sub_one_of_lt h₂))
  · exact .still hs hne rfl (Or.inl rfl) trivial

/-! ### `restructure` -/

theorem Shape.read (hs : Shape m brk G) {n : NodeId} {i : ℕ} (hi : 0 < i) (h : Source m G n i) :
    Read m G i ((m n).next i) := ⟨hs.upper_mark n h.mem i hi h.lt, hs.load_target h⟩

theorem Shape.stale_of_mark (hs : Shape m brk G) {r : Ref} {i : ℕ} (h : Read m G i r)
    (hm : ((m r.ptr).next 0).mark = true) : Stale m G r := by
  refine ⟨(h.2.resolve_left fun ht => ?_).2.mem, hm⟩
  rw [ht, hs.tail_mark] at hm
  cases hm

theorem sound_rsHead (hs : Shape s.mem s.brk G) {i : ℕ} {pred : Ref}
    (h : Sweep s.mem G d i pred) :
    Sound s G (.rsHead d i pred) (s, .rsCur d i pred ((s.mem head).next i)) G := by
  have hr := hs.read h.pos (hs.head_source i h.lt)
  refine .still hs (show NULL ≠ tail by decide) rfl (Or.inl rfl) ⟨h, hr, ?_⟩
  cases hm : ((s.mem ((s.mem head).next i).ptr).next 0).mark with
  | true => exact Or.inl (hs.stale_of_mark hr hm)
  | false => exact Or.inr (hs.gone_le_unmarked h.swung.newhead.1 (hs.target_mem_all hr.2) hm)

theorem Ref.addr_of_unmarked {r : Ref} (h : r.mark = false) : r.addr = r.ptr := by
  simp [Ref.addr, h]

theorem sound_rsCur (hs : Shape s.mem s.brk G) {i : ℕ} {pred h : Ref}
    (ho : Ok s.mem s.brk G (.rsCur d i pred h)) :
    Sound s G (.rsCur d i pred h) (s, .rsTest d i pred h ((s.mem pred.addr).next i)) G := by
  obtain ⟨hw, hr, hst⟩ := ho
  refine .still hs (show NULL ≠ tail by decide) rfl (Or.inl rfl) ⟨hw, hr, hst, ?_⟩
  rw [Ref.addr_of_unmarked hw.unmarked]
  exact hs.read hw.pos hw.source

theorem own_rcTest (cur : NodeId) : own (rcTest d cur) = NULL := by
  unfold rcTest
  split <;> rfl

theorem own_rsDown (i : ℕ) (pred : Ref) : own (rsDown d i pred) = NULL := by
  unfold rsDown
  split
  · rfl
  · exact own_rcTest _

theorem Ok.rcTest {cur : NodeId} (h : Recycling m G d cur) : Ok m brk G (rcTest d cur) := by
  unfold Linden.rcTest
  split
  · rename_i hne
    exact ⟨h, hne⟩
  · trivial

/-- `restructure` is done with level `i`. -/
theorem Ok.rsDown {i : ℕ} {pred : Ref} (h : Sweep m G d i pred)
    (hle : Le G.all d.newhead (headPtr m i)) : Ok m brk G (rsDown d i pred) := by
  have hdone : ∀ j, i ≤ j → j < NUM_LEVELS → Le G.all d.newhead (headPtr m j) := by
    intro j hj hl
    rcases eq_or_lt_of_le hj with rfl | hj
    · exact hle
    · exact h.done j hj hl
  unfold Linden.rsDown
  split
  · rename_i hi
    exact ⟨h.swung, hi, lt_of_le_of_lt (Nat.sub_le _ _) h.lt, h.unmarked,
      h.source.down (Nat.sub_le _ _), fun j hj hl => hdone j (by omega) hl⟩
  · rename_i hi
    refine .rcTest ⟨h.swung, fun j hl => ?_, h.swung.obs, h.swung.le⟩
    rcases Nat.eq_zero_or_pos j with rfl | hj
    · exact h.swung.low
    · exact hdone j (by have := h.pos; omega) hl

theorem sound_rsTest (hs : Shape s.mem s.brk G) {i : ℕ} {pred h cur : Ref}
    (ho : Ok s.mem s.brk G (.rsTest d i pred h cur)) :
    Sound s G (.rsTest d i pred h cur)
      (s, if ((s.mem h.addr).next 0).mark = true then .rsWalk d i pred h cur
        else rsDown d i pred) G := by
  obtain ⟨hw, hr, hst, hc⟩ := ho
  have hne : own (.rsTest d i pred h cur) ≠ tail := show NULL ≠ tail by decide
  rw [Ref.addr_of_unmarked hr.1]
  split
  · rename_i hm
    exact .still hs hne rfl (Or.inl rfl) ⟨hw, hr, hs.stale_of_mark hr hm, hc⟩
  · rename_i hm
    exact .still hs hne rfl (Or.inl (own_rsDown ..))
      (.rsDown hw (hst.resolve_left fun hst => hm hst.2))

theorem sound_rsWalk (hs : Shape s.mem s.brk G) {i : ℕ} {pred h cur : Ref}
    (ho : Ok s.mem s.brk G (.rsWalk d i pred h cur)) :
    Sound s G (.rsWalk d i pred h cur)
      (s, if ((s.mem cur.addr).next 0).mark = true then .rsStep d i cur h
        else .rsCas d i pred h cur) G := by
  obtain ⟨hw, hr, hst, hc⟩ := ho
  have hne : own (.rsWalk d i pred h cur) ≠ tail := show NULL ≠ tail by decide
  rw [Ref.addr_of_unmarked hc.1]
  split
  · rename_i hm
    have hsrc : Source s.mem G cur.ptr i := (hc.2.resolve_left fun ht => by
      rw [ht, hs.tail_mark] at hm
      cases hm).2
    exact .still hs hne rfl (Or.inl rfl)
      ⟨⟨hw.swung, hw.pos, hw.lt, hc.1, hsrc, hw.done⟩, hr, hst⟩
  · rename_i hm
    have hall := hs.target_mem_all hc.2
    have hmf : ((s.mem cur.ptr).next 0).mark = false := by simpa using hm
    exact .still hs hne rfl (Or.inl rfl) ⟨hw, hr, hc,
      hs.marked_before_unmarked hst.1 hst.2 hall hmf,
      hs.gone_le_unmarked hw.swung.newhead.1 hall hmf⟩

theorem sound_rsStep (hs : Shape s.mem s.brk G) {i : ℕ} {pred h : Ref}
    (ho : Ok s.mem s.brk G (.rsStep d i pred h)) :
    Sound s G (.rsStep d i pred h) (s, .rsWalk d i pred h ((s.mem pred.addr).next i)) G := by
  obtain ⟨hw, hr, hst⟩ := ho
  refine .still hs (show NULL ≠ tail by decide) rfl (Or.inl rfl) ⟨hw, hr, hst, ?_⟩
  rw [Ref.addr_of_unmarked hw.unmarked]
  exact hs.read hw.pos hw.source

/-- **The CAS of `restructure`** moves a pointer of the head forward. -/
theorem sound_rsCas (hs : Shape s.mem s.brk G) {i : ℕ} {pred h cur : Ref}
    (ho : Ok s.mem s.brk G (.rsCas d i pred h cur)) :
    Sound s G (.rsCas d i pred h cur)
      (if (s.mem head).next i = h then
        ({ s with mem := setNext s.mem head i cur }, rsDown d i pred)
      else (s, .rsHead d i pred)) G := by
  obtain ⟨hw, hr, hc, hb, hle⟩ := ho
  split
  · rename_i he
    obtain ⟨c, hcm⟩ : ∃ c, cur = ref c := ⟨cur.ptr, by rw [ref, ← hc.1]⟩
    subst hcm
    obtain ⟨hs', e⟩ := hs.setUpper (w := NULL) (by decide) hs.head_mem hw.pos hc.2 fun _ _ => by
      rw [headPtr, he]
      exact Or.inl (Or.inr hb)
    refine ⟨hs', e, .rsDown (hw.evolve e hs hs') ?_, le_rfl, rfl, Or.inl (own_rsDown ..),
      Or.inl rfl⟩
    dsimp only
    rw [headPtr, setNext_same]
    exact hle
  · exact .still hs (show NULL ≠ tail by decide) rfl (Or.inl rfl) hw

/-! ### The recycling loop -/

theorem sound_rcLoad (hs : Shape s.mem s.brk G) {cur : NodeId}
    (h : Ok s.mem s.brk G (.rcLoad d cur)) :
    Sound s G (.rcLoad d cur) (s, .rcFree d cur ((s.mem cur).next 0).ptr) G := by
  obtain ⟨hrc, hne⟩ := h
  have hb := hrc.le.resolve_left hne
  have hcur := G.gone_subset hrc.dead.1
  have hm : ((s.mem cur).next 0).mark = true := by
    by_contra hm
    have hle := hs.gone_le_unmarked hrc.swung.newhead.1 (G.order_mem_all hcur) (by simpa using hm)
    exact Before.irrefl hs.nodup (hb.trans_le hs.nodup hle)
  have hdead := hs.dead_of_mark hcur hm
  refine .still hs (show NULL ≠ tail by decide) rfl (Or.inl rfl) ⟨hrc, hb, hdead, ?_⟩
  refine (le_or_before (G.order_mem_all (G.gone_subset hdead.1)) hb.right_mem).resolve_right ?_
  intro hback
  have hle := hs.le_of_before_succ0 hcur hrc.dead.2 hback
  exact Before.irrefl hs.nodup (hb.trans_le hs.nodup hle)

theorem sound_rcFree (hs : Shape s.mem s.brk G) {cur nxt : NodeId}
    (h : Ok s.mem s.brk G (.rcFree d cur nxt)) :
    Sound s G (.rcFree d cur nxt) ({ s with freed := cur :: s.freed }, rcTest d nxt) G := by
  obtain ⟨hrc, hb, hdead, hle⟩ := h
  refine ⟨hs, .refl hs (show NULL ≠ tail by decide), .rcTest ⟨hrc.swung, hrc.heads, hdead, hle⟩,
    le_rfl, rfl, Or.inl (own_rcTest _), Or.inr ⟨cur, rfl, rfl, rfl, Or.inl ?_⟩⟩
  exact ⟨hrc.dead, fun j hj => hb.trans_le hs.nodup (hrc.heads j hj)⟩

/-! ### All accesses -/

/-- **Every access keeps the invariant**, and goes through a valid pointer. -/
theorem Ok.step (max_offset : ℤ) {pc : Pc} (hs : Shape s.mem s.brk G)
    (h : Ok s.mem s.brk G pc) (hbusy : pc.busy = true) :
    (code max_offset pc).target ≠ NULL ∧ ∃ G', Sound s G pc (exec s (code max_offset pc)) G' := by
  have hh : head ≠ NULL := by decide
  have hord : ∀ {n}, n ∈ G.order → n ≠ NULL := hs.ne_null
  cases pc with
  | idle => cases hbusy
  | crashed => cases hbusy
  | insAlloc k v lvl => exact ⟨hh, G, sound_insAlloc hs h⟩
  | insLevel f => exact ⟨ne_null_of_ge h.ge, G, sound_insLevel hs h⟩
  | insInserting f => exact ⟨ne_null_of_ge h.1.ge, G, sound_insInserting hs h⟩
  | insClear f => exact ⟨ne_null_of_ge h.1.ge, G, sound_insClear hs h⟩
  | insKey f => exact ⟨ne_null_of_ge h.1.ge, G, sound_insKey hs h⟩
  | insVal f => exact ⟨ne_null_of_ge h.1.ge, G, sound_insVal hs h⟩
  | locNext f site x i => exact ⟨hord h.2.source.mem, G, sound_locNext hs h⟩
  | locKey f site x i x_next dd => exact ⟨hs.target_ne_null h.2.2.1, G, sound_locKey hs h⟩
  | locMark f site x i x_next dd => exact ⟨hs.target_ne_null h.2.2.1, G, sound_locMark hs h⟩
  | dupKey f =>
    exact ⟨hs.target_ne_null (h.2.levels 0 (by decide)).2, G, sound_dupKey hs h⟩
  | dupMark f => exact ⟨hord (h.2.1.levels 0 (by decide)).1.mem, G, sound_dupMark hs h⟩
  | dupPtr f => exact ⟨hord (h.2.1.levels 0 (by decide)).1.mem, G, sound_dupPtr hs h⟩
  | dupClear f => exact ⟨ne_null_of_ge h.ge, G, sound_dupClear hs h⟩
  | dupFree f => exact ⟨ne_null_of_ge h.ge, G, sound_dupFree hs h⟩
  | link0 f => exact ⟨ne_null_of_ge h.1.claimed.ge, G, sound_link0 hs h⟩
  | cas0 f =>
    refine ⟨hord (h.2.1.levels 0 (by decide)).1.mem, ?_⟩
    obtain ⟨G', hG'⟩ := sound_cas0 hs h
    refine ⟨G', ?_⟩
    rw [code, exec]
    split
    · rename_i he; rw [if_pos he] at hG'; exact hG'
    · rename_i he; rw [if_neg he] at hG'; exact hG'
  | upLevel f i => exact ⟨ne_null_of_ge h.1.ge, G, sound_upLevel hs h⟩
  | upNew f i => exact ⟨ne_null_of_ge h.1.ge, G, sound_upNew hs h⟩
  | upSucc f i =>
    exact ⟨hs.target_ne_null (h.2.1.levels i (h.1.lt_levels h.2.2)).2, G, sound_upSucc hs h⟩
  | upStore f i => exact ⟨ne_null_of_ge h.1.ge, G, sound_upStore hs h⟩
  | upCas f i =>
    refine ⟨hord (h.2.1.levels i (h.1.lt_levels h.2.2.1)).1.mem, G, ?_⟩
    have hS := sound_upCas hs h
    rw [code, exec]
    split
    · rename_i he; rw [if_pos he] at hS; exact hS
    · rename_i he; rw [if_neg he] at hS; exact hS
  | finish f => exact ⟨ne_null_of_ge h.2, G, sound_finish hs h⟩
  | delObs => exact ⟨hh, G, sound_delObs hs⟩
  | delLoad d => exact ⟨hord (G.gone_subset h.gone), G, sound_delLoad hs h⟩
  | delInserting d => exact ⟨hord (G.gone_subset h.1.gone), G, sound_delInserting hs h⟩
  | delFao d => exact ⟨hord (G.gone_subset h.1.gone), sound_delFao hs h⟩
  | delVal d => exact ⟨hord (G.gone_subset h.1.gone), G, sound_delVal hs h⟩
  | delCheck d => exact ⟨hh, G, sound_delCheck hs h⟩
  | delSwing d =>
    refine ⟨hh, G, ?_⟩
    have hS := sound_delSwing hs h
    rw [code, exec]
    split
    · rename_i he; rw [if_pos he] at hS; exact hS
    · rename_i he; rw [if_neg he] at hS; exact hS
  | rsHead d i pred => exact ⟨hh, G, sound_rsHead hs h⟩
  | rsCur d i pred hd =>
    refine ⟨?_, G, sound_rsCur hs h⟩
    rw [code, Instr.target, Ref.addr_of_unmarked h.1.unmarked]
    exact hord h.1.source.mem
  | rsTest d i pred hd cur =>
    refine ⟨?_, G, sound_rsTest hs h⟩
    rw [code, Instr.target, Ref.addr_of_unmarked h.2.1.1]
    exact hs.target_ne_null h.2.1.2
  | rsWalk d i pred hd cur =>
    refine ⟨?_, G, sound_rsWalk hs h⟩
    rw [code, Instr.target, Ref.addr_of_unmarked h.2.2.2.1]
    exact hs.target_ne_null h.2.2.2.2
  | rsStep d i pred hd =>
    refine ⟨?_, G, sound_rsStep hs h⟩
    rw [code, Instr.target, Ref.addr_of_unmarked h.1.unmarked]
    exact hord h.1.source.mem
  | rsCas d i pred hd cur =>
    refine ⟨hh, G, ?_⟩
    have hS := sound_rsCas hs h
    rw [code, exec]
    split
    · rename_i he; rw [if_pos he] at hS; exact hS
    · rename_i he; rw [if_neg he] at hS; exact hS
  | rcLoad d cur => exact ⟨hord (G.gone_subset h.1.dead.1), G, sound_rcLoad hs h⟩
  | rcFree d cur nxt => exact ⟨hord (G.gone_subset h.1.dead.1), G, sound_rcFree hs h⟩
  | ret v => exact ⟨hh, G, .still hs (show NULL ≠ tail by decide) rfl (Or.inl rfl) trivial⟩

end ConcurrentPQ.Linden

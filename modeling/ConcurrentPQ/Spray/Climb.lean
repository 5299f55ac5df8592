import ConcurrentPQ.Spray.Invariant
import ConcurrentPQ.Spray.Level

/-!
# What the threads of a SprayList know about its levels

`Climbs m Q pc` is a second assertion at program counter `pc`, about the sets `Q i` of the nodes linked
in on level `i`.  The nodes `fraser_search` stands on and records on level `i` are in `Q i`; the new
node of `fraser_insert` is linked in on the levels below the one it has reached, and on no other.

* `Listed`, `Climbing`, `Climbs` — the assertions;
* `climber` — the node a thread links in on the upper levels;
* `Climbs.evolve` — **stability**;
* `Climbs.access` — **one access of a thread** keeps the levels and its assertion.
-/

namespace ConcurrentPQ.Spray

/-- The two lists hold nodes of their levels, from level `i` on. -/
def Listed (Q : ℕ → Set NodeId) (f : Frame) (i : ℕ) : Prop :=
  ∀ j, i ≤ j → j < levelmax → f.preds j ∈ Q j ∧ f.succs j ∈ Q j

/-- The new node is linked in below level `i` and nowhere else. -/
structure Climbing (m : Mem) (Q : ℕ → Set NodeId) (f : Frame) (i : ℕ) : Prop where
  val : (m f.new).val = f.val
  low : f.new ∈ Q (i - 1)
  high : f.new ∉ Q i

/-- The same, or the new node has been marked from level `i` on. -/
structure Reached (m : Mem) (Q : ℕ → Set NodeId) (f : Frame) (i : ℕ) : Prop where
  val : (m f.new).val = f.val
  low : f.new ∈ Q (i - 1) ∨ ∀ j, i ≤ j → j < (m f.new).toplevel → Marked m j f.new
  high : f.new ∉ Q i

/-- What holds of the new node while `fraser_search` runs. -/
def SiteClimbs (m : Mem) (Q : ℕ → Set NodeId) (f : Frame) : Site → Prop
  | .upper i => Climbing m Q f i
  | _ => True

/-- The pointers of a node above level `i` are marked. -/
def MarkedAbove (m : Mem) (n : NodeId) (i : ℕ) : Prop :=
  ∀ j, i < j → j < (m n).toplevel → Marked m j n

/-- The assertion about the levels attached to a program counter. -/
def Climbs (m : Mem) (Q : ℕ → Set NodeId) : Pc → Prop
  | .seLeft f site left i => SiteClimbs m Q f site ∧ left ∈ Q i ∧ Listed Q f (i + 1)
  | .seNext f site left left_next right i | .seCas f site left left_next right i =>
      SiteClimbs m Q f site ∧ (left ∈ Q i ∧ Listed Q f (i + 1)) ∧ left_next ∈ Q i ∧ right ∈ Q i
  | .seVal f site left left_next right right_next i =>
      SiteClimbs m Q f site ∧ (left ∈ Q i ∧ Listed Q f (i + 1)) ∧ (left_next ∈ Q i ∧ right ∈ Q i) ∧
        (right ≠ tail → right_next ∈ Q i)
  | .insDup f | .insTest f _ | .insLink f _ | .insCas f => Listed Q f 0
  | .upTest f i | .upNew f i => Listed Q f 0 ∧ Reached m Q f i
  | .upSet f i w => Listed Q f 0 ∧ Climbing m Q f i ∧
      ((m f.new).next i = w ∨ (m f.new).next i = set_mark w)
  | .upVal f i => Listed Q f 0 ∧ Climbing m Q f i ∧ succ m i f.new = f.succs i
  | .upCas f i e => Listed Q f 0 ∧ Climbing m Q f i ∧ succ m i f.new = f.succs i ∧
      (e = .word (ref (f.succs i)) → (m (f.succs i)).val ≠ f.val)
  | .mkNext _ n i | .mkCas _ n i _ => MarkedAbove m n i
  | _ => True

/-- The node a thread links in on the upper levels. -/
def climber : Pc → NodeId
  | .seLeft f (.upper _) _ _ | .seNext f (.upper _) _ _ _ _ | .seVal f (.upper _) _ _ _ _ _
  | .seCas f (.upper _) _ _ _ _ | .upTest f _ | .upNew f _ | .upSet f _ _ | .upVal f _
  | .upCas f _ _ => f.new
  | _ => NULL

/-! ### Stability -/

/-- What the other threads may rely on: a node of the list that is not `c` is linked in on no further
level, and where it is not linked in its pointers are only marked. -/
structure Steady (m : Mem) (P : Set NodeId) (Q : ℕ → Set NodeId) (c : NodeId) (m' : Mem)
    (Q' : ℕ → Set NodeId) : Prop where
  sub : ∀ i, Q i ⊆ Q' i
  high : ∀ n ∈ P, n ≠ c → ∀ i, n ∉ Q i → n ∉ Q' i
  next : ∀ n ∈ P, n ≠ c → ∀ i, n ∉ Q i →
    (m' n).next i = (m n).next i ∨ (m' n).next i = set_mark ((m n).next i)

section Stability

variable {m m' : Mem} {P P' : Set NodeId} {Q Q' : ℕ → Set NodeId} {brk c n : NodeId} {f : Frame}
  {i : ℕ}

theorem Listed.mono (h : Listed Q f i) (hsub : ∀ i, Q i ⊆ Q' i) : Listed Q' f i :=
  fun j hij hj => ⟨hsub j (h j hij hj).1, hsub j (h j hij hj).2⟩

theorem Climbing.reached (h : Climbing m Q f i) : Reached m Q f i := ⟨h.val, Or.inl h.low, h.high⟩

theorem Climbing.evolve (h : Climbing m Q f i) (ev : Evolve m P m' P') (hs : Steady m P Q c m' Q')
    (hn : f.new ∈ P) (hc : f.new ≠ c) : Climbing m' Q' f i :=
  ⟨(ev.val hn).trans h.val, hs.sub _ h.low, hs.high _ hn hc i h.high⟩

theorem Reached.evolve (h : Reached m Q f i) (ev : Evolve m P m' P') (hs : Steady m P Q c m' Q')
    (hn : f.new ∈ P) (hc : f.new ≠ c) : Reached m' Q' f i := by
  refine ⟨(ev.val hn).trans h.val, ?_, hs.high _ hn hc i h.high⟩
  rcases h.low with hlow | hlow
  · exact Or.inl (hs.sub _ hlow)
  · refine Or.inr fun j hij hj => ?_
    rw [(ev.data _ hn).2] at hj
    exact ev.marked hn (hlow j hij hj)

theorem Steady.succ_eq (hs : Steady m P Q c m' Q') (hn : n ∈ P) (hc : n ≠ c) (hi : n ∉ Q i) :
    succ m' i n = succ m i n := by
  unfold succ
  rcases hs.next n hn hc i hi with h | h <;> rw [h]
  rfl

theorem MarkedAbove.evolve (h : MarkedAbove m n i) (ev : Evolve m P m' P') (hn : n ∈ P) :
    MarkedAbove m' n i := fun j hij hj => by
  rw [(ev.data n hn).2] at hj
  exact ev.marked hn (h j hij hj)

theorem SiteClimbs.evolve {site : Site} (h : SiteClimbs m Q f site) (ev : Evolve m P m' P')
    (hs : Steady m P Q c m' Q') (hok : SiteOk m brk P f site)
    (hc : ∀ j, site = .upper j → f.new ≠ c) : SiteClimbs m' Q' f site := by
  cases site with
  | upper j => exact Climbing.evolve h ev hs hok.1.mem (hc j rfl)
  | insert => trivial
  | remove rs => trivial
  | cleanup a => trivial

/-- **Stability.**  The assertion stands while a thread with another node acts. -/
theorem Climbs.evolve {pc : Pc} (h : Climbs m Q pc) (hok : Ok m brk P pc) (ev : Evolve m P m' P')
    (hs : Steady m P Q c m' Q') (hc : climber pc ≠ NULL → climber pc ≠ c) (hnull : NULL ∉ P) :
    Climbs m' Q' pc := by
  have hne : ∀ {n : NodeId}, n ∈ P → n ≠ NULL := fun hn he => hnull (he ▸ hn)
  have hsite : ∀ {f : Frame} {site : Site}, SiteClimbs m Q f site → SiteOk m brk P f site →
      (∀ j, site = .upper j → f.new ≠ NULL → f.new ≠ c) → SiteClimbs m' Q' f site :=
    fun h hok hc => h.evolve ev hs hok fun j he => hc j he (hne (by subst he; exact hok.1.mem))
  cases pc with
  | seLeft f site left i =>
    refine ⟨hsite h.1 hok.1 fun j he => ?_, hs.sub _ h.2.1, h.2.2.mono hs.sub⟩
    subst he
    exact hc
  | seNext f site left ln r i =>
    refine ⟨hsite h.1 hok.1 fun j he => ?_, ⟨hs.sub _ h.2.1.1, h.2.1.2.mono hs.sub⟩,
      hs.sub _ h.2.2.1, hs.sub _ h.2.2.2⟩
    subst he
    exact hc
  | seCas f site left ln r i =>
    refine ⟨hsite h.1 hok.1 fun j he => ?_, ⟨hs.sub _ h.2.1.1, h.2.1.2.mono hs.sub⟩,
      hs.sub _ h.2.2.1, hs.sub _ h.2.2.2⟩
    subst he
    exact hc
  | seVal f site left ln r rn i =>
    refine ⟨hsite h.1 hok.1 fun j he => ?_, ⟨hs.sub _ h.2.1.1, h.2.1.2.mono hs.sub⟩,
      ⟨hs.sub _ h.2.2.1.1, hs.sub _ h.2.2.1.2⟩, fun ht => hs.sub _ (h.2.2.2 ht)⟩
    subst he
    exact hc
  | insDup f | insTest f i | insLink f i | insCas f => exact Listed.mono h hs.sub
  | upTest f i | upNew f i =>
    have hmem := hok.1.mem
    exact ⟨h.1.mono hs.sub, h.2.evolve ev hs hmem (hc (hne hmem))⟩
  | upSet f i w =>
    have hmem := hok.1.mem
    have hcn := hc (hne hmem)
    refine ⟨h.1.mono hs.sub, h.2.1.evolve ev hs hmem hcn, ?_⟩
    rcases hs.next _ hmem hcn i h.2.1.high with he | he
    · rw [he]
      exact h.2.2
    · rw [he]
      rcases h.2.2 with hw | hw
      · exact Or.inr (by rw [hw])
      · exact Or.inr (by rw [hw]; rfl)
  | upVal f i =>
    have hmem := hok.1.mem
    have hcn := hc (hne hmem)
    exact ⟨h.1.mono hs.sub, h.2.1.evolve ev hs hmem hcn,
      (hs.succ_eq hmem hcn h.2.1.high).trans h.2.2⟩
  | upCas f i e =>
    obtain ⟨hlist, hclimb, hsucc, hval⟩ := h
    obtain ⟨hlink, hfound, hi, -⟩ := hok
    have hcn := hc (hne hlink.mem)
    refine ⟨hlist.mono hs.sub, hclimb.evolve ev hs hlink.mem hcn,
      (hs.succ_eq hlink.mem hcn hclimb.high).trans hsucc, fun he => ?_⟩
    rw [ev.val (hfound i (lt_of_lt_of_le hi.2 hlink.lvl)).succ.mem]
    exact hval he
  | mkNext site n i => exact MarkedAbove.evolve h ev hok.1.1.inner.mem
  | mkCas site n i w => exact MarkedAbove.evolve h ev hok.1.1.inner.mem
  | _ => trivial

end Stability

/-! ### One access -/

/-- What one access keeps: the thread goes from `pc` to `pc'`. -/
structure Rise (m : Mem) (P : Set NodeId) (Q : ℕ → Set NodeId) (pc : Pc) (m' : Mem)
    (P' : Set NodeId) (Q' : ℕ → Set NodeId) (pc' : Pc) : Prop where
  levels : Levels m' P' Q'
  ok : Climbs m' Q' pc'
  steady : Steady m P Q (climber pc) m' Q'
  climber : climber pc' = NULL ∨ climber pc' = climber pc ∨ climber pc' ∉ P

section Steps

variable {any : Bool} {s : Shared} {seed : ℕ} {P P' : Set NodeId} {Q : ℕ → Set NodeId} {pc : Pc}
  {f : Frame} {site : Site} {n left right : NodeId} {i : ℕ}

/-- A thread that does not stop performs its instruction. -/
theorem access_cases (any : Bool) (s : Shared) (seed : ℕ) (pc : Pc) :
    access any ⟨s, seed, pc⟩ = ⟨s, seed, .wild⟩ ∨ access any ⟨s, seed, pc⟩ = ⟨s, seed, .crashed⟩ ∨
      access any ⟨s, seed, pc⟩ = ⟨(exec any s seed (code pc)).1, (exec any s seed (code pc)).2.1,
        (exec any s seed (code pc)).2.2⟩ := by
  unfold access
  dsimp only
  split
  · exact Or.inl rfl
  split
  · exact Or.inr (Or.inl rfl)
  split
  · exact Or.inl rfl
  · exact Or.inr (Or.inr rfl)

/-- An access that writes no pointer of the list. -/
theorem Rise.quiet {m' : Mem} {pc' : Pc} (hl : Levels s.mem P Q) (ev : Evolve s.mem P m' P)
    (hnext : ∀ n ∈ P, (m' n).next = (s.mem n).next) (hok : Climbs m' Q pc')
    (hc : Spray.climber pc' = NULL ∨ Spray.climber pc' = Spray.climber pc) :
    Rise s.mem P Q pc m' P Q pc' where
  levels := hl.same ⟨ev.data, hnext, ev.deleted⟩
  ok := hok
  steady := ⟨fun _ => Set.Subset.rfl, fun _ _ _ _ h => h, fun n hn _ i _ => by
    rw [hnext n hn]
    exact Or.inl rfl⟩
  climber := hc.imp_right Or.inl

/-- A write to a pointer on a level on which the node is linked in. -/
theorem Steady.write {m : Mem} {c : NodeId} {w : Ref} (hn : n ∈ Q i) :
    Steady m P Q c (setNext m n i w) Q := by
  refine ⟨fun _ => Set.Subset.rfl, fun _ _ _ _ h => h, fun x _ _ j hj => Or.inl ?_⟩
  refine setNext_of_ne _ _ _ _ _ _ fun he => hj ?_
  rw [he.1, he.2]
  exact hn

theorem subset_update (Q : ℕ → Set NodeId) (i : ℕ) (n : NodeId) (j : ℕ) :
    Q j ⊆ Function.update Q i (insert n (Q i)) j := by
  rcases eq_or_ne j i with rfl | hne
  · rw [Function.update_self]
    exact Set.subset_insert _ _
  · rw [Function.update_of_ne hne]

/-- A node is linked in that is new or is the thread's own. -/
theorem Steady.link {m : Mem} {c new : NodeId} (hn : n ∈ Q i) (hc : new ∉ P ∨ new = c) :
    Steady m P Q c (setNext m n i (ref new)) (Function.update Q i (insert new (Q i))) := by
  refine ⟨subset_update Q i new, fun x hx hxc j hj => ?_, (Steady.write hn).next⟩
  rcases eq_or_ne j i with rfl | hne
  · rw [Function.update_self, Set.mem_insert_iff, not_or]
    refine ⟨fun he => ?_, hj⟩
    rcases hc with hc | hc
    · exact hc (he ▸ hx)
    · exact hxc (he.trans hc)
  · rw [Function.update_of_ne hne]
    exact hj

/-- A pointer on a level on which the node is linked in is overwritten. -/
theorem Rise.write {w : Ref} {pc' : Pc} (hl : Levels (setNext s.mem n i w) P Q) (hn : n ∈ Q i)
    (hok : Climbs (setNext s.mem n i w) Q pc')
    (hc : Spray.climber pc' = NULL ∨ Spray.climber pc' = Spray.climber pc) :
    Rise s.mem P Q pc (setNext s.mem n i w) P Q pc' where
  levels := hl
  ok := hok
  steady := .write hn
  climber := hc.imp_right Or.inl

/-! ### fraser_search -/

theorem SiteOk.val_lt {m : Mem} {brk : NodeId} (h : SiteOk m brk P f site) : f.val < INT_MAX := by
  cases site with
  | insert => exact h.claimed.val_lt
  | upper j => exact h.1.val_lt
  | remove rs => exact h
  | cleanup a => exact h

theorem climbs_search {m : Mem} (hl : Levels m P Q) (h : SiteClimbs m Q f site) :
    Climbs m Q (search f site) :=
  ⟨h, (hl.level (levelmax - 1) (by decide)).head_mem, fun j h₁ h₂ => by
    have : levelmax - 1 + 1 ≤ j := h₁
    omega⟩

theorem climber_search (f : Frame) (site : Site) (left ln r rn : NodeId) (i j k : ℕ) :
    climber (.seLeft f site left i) = climber (search f site) ∧
      climber (.seNext f site left ln r j) = climber (search f site) ∧
      climber (.seVal f site left ln r rn j) = climber (search f site) ∧
      climber (.seCas f site left ln r k) = climber (search f site) := by
  cases site <;> exact ⟨rfl, rfl, rfl, rfl⟩

theorem climber_seDown (f : Frame) (site : Site) (left right : NodeId) (i : ℕ) :
    climber (seDown f site left right i) = NULL ∨
      climber (seDown f site left right i) = climber (search f site) := by
  unfold seDown
  split
  · cases site with
    | remove rs => cases rs <;> exact Or.inl rfl
    | upper j => exact Or.inr rfl
    | insert => exact Or.inl rfl
    | cleanup a => exact Or.inl rfl
  · cases site <;> exact Or.inr rfl

theorem SiteClimbs.record {m : Mem} (h : SiteClimbs m Q f site) (i : ℕ) (l r : NodeId) :
    SiteClimbs m Q (f.record i l r) site := by
  cases site with
  | upper j => exact ⟨h.val, h.low, h.high⟩
  | insert => trivial
  | remove rs => trivial
  | cleanup a => trivial

/-- A level of `fraser_search` is recorded. -/
theorem climbs_seDown {m : Mem} (hl : Levels m P Q) (h : SiteClimbs m Q f site)
    (hleft : left ∈ Q i) (hlist : Listed Q f (i + 1)) (hr : right ∈ Q i) :
    Climbs m Q (seDown f site left right i) := by
  have hrec : Listed Q (f.record i left right) i := by
    intro j hij hj
    show Function.update f.preds i left j ∈ Q j ∧ Function.update f.succs i right j ∈ Q j
    rcases eq_or_ne j i with rfl | hne
    · rw [Function.update_self, Function.update_self]
      exact ⟨hleft, hr⟩
    · rw [Function.update_of_ne hne, Function.update_of_ne hne]
      exact hlist j (by omega) hj
  have hsite := h.record i left right
  unfold seDown
  split
  · rename_i h0
    subst h0
    cases site with
    | insert => exact hrec
    | upper k => exact ⟨hrec, hsite.reached⟩
    | remove rs => cases rs <;> trivial
    | cleanup a => trivial
  · refine ⟨hsite, hl.sub (Nat.sub_le i 1) hleft, fun j hij hj => hrec j (by omega) hj⟩

/-- The accesses of `fraser_search`. -/
theorem Climbs.search_step (hs : Shape s.mem s.brk P) (hl : Levels s.mem P Q)
    (hok : Ok s.mem s.brk P pc) (h : Climbs s.mem Q pc)
    (hpc : (∃ f site left i, pc = .seLeft f site left i) ∨
      (∃ f site left ln r i, pc = .seNext f site left ln r i) ∨
      (∃ f site left ln r rn i, pc = .seVal f site left ln r rn i) ∨
      ∃ f site left ln r i, pc = .seCas f site left ln r i) :
    Rise s.mem P Q pc (access any ⟨s, seed, pc⟩).sh.mem P Q (access any ⟨s, seed, pc⟩).pc := by
  rcases hpc with ⟨f, site, left, i, rfl⟩ | ⟨f, site, left, ln, r, i, rfl⟩ |
    ⟨f, site, left, ln, r, rn, i, rfl⟩ | ⟨f, site, left, ln, r, i, rfl⟩
  · obtain ⟨hsite, hleft, hlist⟩ := h
    have hsrc := hok.2.left.1
    have hlev := hl.level i hok.2.lt
    have hcl := (climber_search f site left 0 0 0 i 0 0).1
    rw [access_loadNext rfl (hs.ne_null hsrc.mem) hsrc.lt]
    refine .quiet hl .refl (fun _ _ => rfl) ?_ ?_
    · dsimp only
      split
      · exact climbs_search hl hsite
      · have hnext := (hlev.links left hleft hsrc.ne_tail).1
        exact ⟨hsite, ⟨hleft, hlist⟩, hnext, hnext⟩
    · right
      dsimp only
      split
      · exact hcl.symm
      · rw [hcl, (climber_search f site left _ _ 0 0 i 0).2.1]
  · obtain ⟨hsite, hleft, hln, hr⟩ := h
    have htgt := hok.2.2.1
    have hlev := hl.level i hok.2.1.lt
    have hcl := (climber_search f site left ln r 0 0 i 0).2.1
    rw [access_loadNext rfl (hs.ne_null htgt.mem) htgt.lt]
    refine .quiet hl .refl (fun _ _ => rfl) ?_ ?_
    · dsimp only
      split
      · rename_i hm
        exact ⟨hsite, hleft, hln, (hlev.links r hr (hs.marked_ne_tail htgt.lt hm)).1⟩
      · exact ⟨hsite, hleft, ⟨hln, hr⟩, fun ht => (hlev.links r hr ht).1⟩
    · right
      dsimp only
      split
      · rw [hcl, (climber_search f site left _ _ 0 0 i 0).2.1]
      · rw [hcl, (climber_search f site left _ _ _ 0 i 0).2.2.1]
  · obtain ⟨hsite, hleft, ⟨hln, hr⟩, hrn⟩ := h
    have htgt := hok.2.2.1
    have hcl := (climber_search f site left ln r rn 0 i 0).2.2.1
    rw [access_loadVal rfl (hs.ne_null htgt.mem)]
    refine .quiet hl .refl (fun _ _ => rfl) ?_ ?_
    · dsimp only
      split
      · split
        · exact ⟨hsite, hleft, hln, hr⟩
        · exact climbs_seDown hl hsite hleft.1 hleft.2 hr
      · rename_i hlt
        have hrt : r ≠ tail := by
          rintro rfl
          rw [hs.tail_val] at hlt
          exact hlt hok.1.val_lt.le
        have hrn := hrn hrt
        exact ⟨hsite, ⟨hr, hleft.2⟩, hrn, hrn⟩
    · dsimp only
      split
      · split
        · right
          rw [hcl, (climber_search f site left _ _ 0 0 0 i).2.2.2]
        · rw [hcl]
          exact climber_seDown ..
      · right
        rw [hcl, (climber_search f site r _ _ 0 0 i 0).2.1]
  · obtain ⟨hsite, hleft, hln, hr⟩ := h
    obtain ⟨-, hsc, htgt, hpass, hv⟩ := hok
    have hsrc := hsc.left.1
    have hlev := hl.level i hsc.lt
    have hcl := (climber_search f site left ln r 0 0 0 i).2.2.2
    by_cases hhit : (s.mem left).next i = ref ln
    · rw [access_cas_hit rfl (hs.ne_null hsrc.mem) hsrc.lt hhit]
      have hun : ¬Marked s.mem i left := by
        unfold Marked
        rw [hhit]
        simp
      have hpass' : Passes s.mem (Q i) i (succ s.mem i left) r := by
        unfold succ
        rw [hhit]
        exact (hlev.passes hpass hln).1
      have hlev' := hl.unlink hsc.lt hleft.1 hsrc.ne_tail hun hpass' hr htgt.ne_head
        fun hne => lt_of_lt_of_le (hsc.left.2 hne) hv
      refine .write hlev' hleft.1 (climbs_seDown hlev' ?_ hleft.1 hleft.2 hr) ?_
      · cases site with
        | upper j =>
          have hmem := hl.sub_zero _ hsite.low
          exact Climbing.evolve hsite (.setNext hun) (.write (c := NULL) hleft.1) hmem
            (hs.ne_null hmem)
        | insert => trivial
        | remove rs => trivial
        | cleanup a => trivial
      · rw [hcl]
        exact climber_seDown ..
    · rw [access_cas_miss rfl (hs.ne_null hsrc.mem) hsrc.lt
        fun he => hhit (Expected.word.inj he).symm]
      exact .quiet hl .refl (fun _ _ => rfl) (climbs_search hl hsite) (Or.inr hcl.symm)

/-! ### mark_node_ptrs -/

theorem climbs_marked {m : Mem} (hl : Levels m P Q) (n : NodeId) (site : MarkSite) :
    Climbs m Q (marked n site) ∧ climber (marked n site) = NULL := by
  cases site with
  | duplicate f => exact ⟨climbs_search hl trivial, rfl⟩
  | remove v => exact ⟨climbs_search hl trivial, rfl⟩
  | naive v => exact ⟨trivial, rfl⟩
  | spray v => exact ⟨trivial, rfl⟩

/-- `next[i]` of the node is marked, and so are those above it. -/
theorem climbs_mkDown {m : Mem} (site : MarkSite) (hl : Levels m P Q) (hm : Marked m i n)
    (habove : MarkedAbove m n i) :
    Climbs m Q (mkDown site n i) ∧ climber (mkDown site n i) = NULL := by
  unfold mkDown
  split
  · exact climbs_marked hl n site
  · refine ⟨fun j hij hj => ?_, rfl⟩
    rcases eq_or_ne j i with rfl | hne
    · exact hm
    · exact habove j (by omega) hj

/-- The accesses of `mark_node_ptrs`. -/
theorem Climbs.mark_step (hs : Shape s.mem s.brk P) (hl : Levels s.mem P Q)
    (hok : Ok s.mem s.brk P pc) (h : Climbs s.mem Q pc)
    (hpc : (∃ site n, pc = .mkTop site n) ∨ (∃ site n i, pc = .mkNext site n i) ∨
      ∃ site n i w, pc = .mkCas site n i w) :
    Rise s.mem P Q pc (access any ⟨s, seed, pc⟩).sh.mem P Q (access any ⟨s, seed, pc⟩).pc := by
  rcases hpc with ⟨site, n, rfl⟩ | ⟨site, n, i, rfl⟩ | ⟨site, n, i, w, rfl⟩
  · rw [access_loadToplevel rfl (hs.ne_null hok.1.inner.mem)]
    refine .quiet hl .refl (fun _ _ => rfl) ?_ (Or.inl ?_)
    · dsimp only
      split
      · exact (climbs_marked hl n site).1
      · -- no level is above the topmost one
        intro j hij hj
        omega
    · dsimp only
      split
      · exact (climbs_marked hl n site).2
      · rfl
  · obtain ⟨⟨hd, -⟩, hi⟩ := hok
    rw [access_loadNext rfl (hs.ne_null hd.inner.mem) hi]
    refine .quiet hl .refl (fun _ _ => rfl) ?_ (Or.inl ?_)
    · dsimp only
      split
      · rename_i hm
        exact (climbs_mkDown site hl hm h).1
      · exact h
    · dsimp only
      split
      · rename_i hm
        exact (climbs_mkDown site hl hm h).2
      · rfl
  · obtain ⟨⟨hd, -⟩, hi, -⟩ := hok
    by_cases hhit : (s.mem n).next i = w
    · rw [access_cas_hit rfl (hs.ne_null hd.inner.mem) hi hhit]
      subst hhit
      have hlev := hl.mark (i := i) (n := n) h
      have hmark : Marked (setNext s.mem n i (set_mark ((s.mem n).next i))) i n := by
        unfold Marked
        rw [setNext_same]
        rfl
      have habove : MarkedAbove (setNext s.mem n i (set_mark ((s.mem n).next i))) n i := by
        intro j hij hj
        rw [setNext_toplevel] at hj
        unfold Marked
        rw [setNext_of_ne _ _ _ _ _ _ fun he => hij.ne' he.2]
        exact h j hij hj
      obtain ⟨hdown, hnull⟩ := climbs_mkDown site hlev hmark habove
      refine ⟨hlev, hdown, ⟨fun _ => Set.Subset.rfl, fun _ _ _ _ h => h, fun x _ _ j _ => ?_⟩,
        Or.inl hnull⟩
      rw [setNext_next]
      split
      · rename_i he
        rw [he.1, he.2]
        exact Or.inr rfl
      · exact Or.inl rfl
    · rw [access_cas_miss rfl (hs.ne_null hd.inner.mem) hi fun he => hhit (Expected.word.inj he).symm]
      exact .quiet hl .refl (fun _ _ => rfl) h (Or.inl rfl)

/-! ### fraser_insert -/

/-- The accesses of `fraser_insert` up to the level-0 CAS. -/
theorem Climbs.insert_step (hs : Shape s.mem s.brk P) (hl : Levels s.mem P Q)
    (hok : Ok s.mem s.brk P pc) (h : Climbs s.mem Q pc)
    (hpc : pc = .insDup f ∨ pc = .insTest f i ∨ pc = .insLink f i) :
    Rise s.mem P Q pc (access any ⟨s, seed, pc⟩).sh.mem P Q (access any ⟨s, seed, pc⟩).pc := by
  rcases hpc with rfl | rfl | rfl
  · rw [access_loadVal rfl (hs.ne_null (hok.2 0 (by decide)).succ.mem)]
    refine .quiet hl .refl (fun _ _ => rfl) ?_ (Or.inl ?_)
    · dsimp only
      split
      · trivial
      · exact h
    · dsimp only
      split <;> rfl
  · rw [access_loadToplevel rfl hok.1.claimed.ne_null]
    refine .quiet hl .refl (fun _ _ => rfl) ?_ (Or.inl ?_)
    · dsimp only
      split <;> exact h
    · dsimp only
      split <;> rfl
  · obtain ⟨hn, -, -, hi⟩ := hok
    rw [access_storeNext rfl hn.claimed.ne_null (by rw [hn.top]; exact hi)]
    have hpriv : ∀ x, x ≠ f.new → setNext s.mem f.new i (ref (f.succs i)) x = s.mem x :=
      fun x hx => setNext_node_ne _ _ _ _ _ hx
    have hsame : Same s.mem (setNext s.mem f.new i (ref (f.succs i))) P :=
      .private hn.claimed.notMem hpriv
    exact .quiet hl hsame.evolve hsame.next h (Or.inl rfl)

/-- The level-0 CAS of `fraser_insert`. -/
theorem Climbs.insCas_step (hs : Shape s.mem s.brk P) (hl : Levels s.mem P Q)
    (hok : Ok s.mem s.brk P (.insCas f)) (h : Climbs s.mem Q (.insCas f)) :
    ∃ Q', Rise s.mem P Q (.insCas f) (access any ⟨s, seed, .insCas f⟩).sh.mem
      (if (s.mem (f.preds 0)).next 0 = ref (f.succs 0) then insert f.new P else P) Q'
      (access any ⟨s, seed, .insCas f⟩).pc := by
  obtain ⟨hn, hf, hp⟩ := hok
  have h0 := hf 0 (by decide)
  have hleft := h0.pred.1
  by_cases hhit : (s.mem (f.preds 0)).next 0 = ref (f.succs 0)
  · rw [if_pos hhit, access_cas_hit rfl (hs.ne_null hleft.mem) hleft.lt hhit]
    have hnew : ∀ i, f.new ∉ Q i := fun i hi => hn.claimed.notMem (hl.sub_zero i hi)
    have hnext : ∀ j, j < (s.mem f.new).toplevel → (s.mem f.new).next j = ref (f.succs j) :=
      fun j hj => hp.next j (by rw [hn.top] at hj; exact hj)
    have htd : TopDown s.mem f.new := fun i j hij hj hm => by
      unfold Marked at hm
      rw [hnext i (by omega)] at hm
      cases hm
    have htop : 0 < (s.mem f.new).toplevel := by
      rw [hn.top]
      exact hn.claimed.lvl.1
    have hlt : (s.mem f.new).val < (s.mem (f.succs 0)).val := by
      rw [hn.val]
      exact lt_of_le_of_ne h0.le hp.ne.symm
    have hlev := hl.link (by decide) (h 0 le_rfl (by decide)).1 hleft.ne_tail hhit (hnew 0)
      (fun h => absurd rfl h) htd htop (by rw [succ, hnext 0 htop])
      (fun hne => by rw [hn.val]; exact h0.pred.2 hne) hlt
    refine ⟨_, hlev, ⟨h.mono (subset_update Q 0 f.new), ?_, Or.inl ?_, ?_⟩,
      .link (h 0 le_rfl (by decide)).1 (Or.inl hn.claimed.notMem),
      Or.inr (Or.inr hn.claimed.notMem)⟩
    · rw [setNext_val]
      exact hn.val
    · rw [Nat.sub_self, Function.update_self]
      exact Set.mem_insert _ _
    · rw [Function.update_of_ne Nat.one_ne_zero]
      exact hnew 1
  · rw [if_neg hhit, access_cas_miss rfl (hs.ne_null hleft.mem) hleft.lt
      fun he => hhit (Expected.word.inj he).symm]
    exact ⟨Q, .quiet hl .refl (fun _ _ => rfl) (climbs_search hl trivial) (Or.inl rfl)⟩

/-- The accesses of `fraser_insert` on the upper levels that write no level. -/
theorem Climbs.upper_step {w : Ref} (hs : Shape s.mem s.brk P) (hl : Levels s.mem P Q)
    (hok : Ok s.mem s.brk P pc) (h : Climbs s.mem Q pc)
    (hpc : pc = .upTest f i ∨ pc = .upNew f i ∨ pc = .upSet f i w ∨ pc = .upVal f i) :
    Rise s.mem P Q pc (access any ⟨s, seed, pc⟩).sh.mem P Q (access any ⟨s, seed, pc⟩).pc := by
  rcases hpc with rfl | rfl | rfl | rfl
  · rw [access_loadToplevel rfl (hs.ne_null hok.1.mem)]
    refine .quiet hl .refl (fun _ _ => rfl) ?_ ?_
    · dsimp only
      split
      · exact h
      · trivial
    · dsimp only
      split
      · exact Or.inr rfl
      · exact Or.inl rfl
  · obtain ⟨hlink, -, hi⟩ := hok
    obtain ⟨hlist, hreach⟩ := h
    have hlt : i < (s.mem f.new).toplevel := by
      rw [hlink.top]
      exact hi.2
    rw [access_loadNext rfl (hs.ne_null hlink.mem) hlt]
    refine .quiet hl .refl (fun _ _ => rfl) ?_ ?_
    · dsimp only
      split
      · trivial
      · rename_i hun
        have hclimb : Climbing s.mem Q f i :=
          ⟨hreach.val, hreach.low.resolve_right fun hm => hun (hm i le_rfl hlt), hreach.high⟩
        split
        · exact ⟨hlist, hclimb, Or.inl rfl⟩
        · rename_i he
          refine ⟨hlist, hclimb, ?_⟩
          unfold succ
          rw [not_not.mp he]
    · dsimp only
      split
      · exact Or.inl rfl
      · split <;> exact Or.inr rfl
  · obtain ⟨hlink, -, hi, hw⟩ := hok
    obtain ⟨hlist, hclimb, hword⟩ := h
    have hlt : i < (s.mem f.new).toplevel := by
      rw [hlink.top]
      exact hi.2
    have hunset : unset_mark w = w := by
      unfold unset_mark
      rw [← hw]
    by_cases hhit : (s.mem f.new).next i = unset_mark w
    · rw [access_cas_hit rfl (hs.ne_null hlink.mem) hlt hhit]
      have hun : ¬Marked s.mem i f.new := by
        unfold Marked
        rw [hhit]
        simp [unset_mark]
      refine ⟨hl.retarget hclimb.high hun rfl, ⟨hlist, ⟨?_, hclimb.low, hclimb.high⟩, ?_⟩,
        ⟨fun _ => Set.Subset.rfl, fun _ _ _ _ h => h, fun x _ hx j _ => Or.inl ?_⟩,
        Or.inr (Or.inl rfl)⟩
      · rw [setNext_val]
        exact hclimb.val
      · rw [succ_setNext_same]
      · exact setNext_of_ne _ _ _ _ _ _ fun he => hx he.1
    · -- the pointer has been marked, and so are those above it
      rw [access_cas_miss rfl (hs.ne_null hlink.mem) hlt fun he => hhit (Expected.word.inj he).symm]
      have hmark : Marked s.mem i f.new := by
        unfold Marked
        rw [hword.resolve_left fun he => hhit (he.trans hunset.symm)]
        rfl
      refine .quiet hl .refl (fun _ _ => rfl) ⟨hlist, hclimb.val, Or.inr fun j hij hj => ?_,
        fun hm => hclimb.high (hl.anti i hm)⟩ (Or.inr rfl)
      exact hl.topdown f.new hlink.mem i j (by omega) hj hmark
  · obtain ⟨hlink, hfound, hi⟩ := hok
    obtain ⟨hlist, hclimb, hsucc⟩ := h
    rw [access_loadVal rfl (hs.ne_null (hfound i (lt_of_lt_of_le hi.2 hlink.lvl)).succ.mem)]
    refine .quiet hl .refl (fun _ _ => rfl) ?_ (Or.inr ?_)
    · dsimp only
      split
      · exact ⟨hlist, hclimb, hsucc, fun he => by cases he⟩
      · rename_i hne
        exact ⟨hlist, hclimb, hsucc, fun _ => hne⟩
    · dsimp only
      split <;> rfl

/-- The CAS of `fraser_insert` on an upper level. -/
theorem Climbs.upCas_step {e : Expected} (hs : Shape s.mem s.brk P) (hl : Levels s.mem P Q)
    (hok : Ok s.mem s.brk P (.upCas f i e)) (h : Climbs s.mem Q (.upCas f i e)) :
    ∃ Q', Rise s.mem P Q (.upCas f i e) (access any ⟨s, seed, .upCas f i e⟩).sh.mem P Q'
      (access any ⟨s, seed, .upCas f i e⟩).pc := by
  obtain ⟨hlink, hfound, hi, he⟩ := hok
  obtain ⟨hlist, hclimb, hsucc, hval⟩ := h
  have hlt : i < levelmax := lt_of_lt_of_le hi.2 hlink.lvl
  have hpred := (hfound i hlt).pred
  by_cases hhit : e = .word ((s.mem (f.preds i)).next i)
  · have hnext : (s.mem (f.preds i)).next i = ref (f.succs i) := by
      rcases he with he | he
      · exact Expected.word.inj (hhit.symm.trans he)
      · rw [he] at hhit
        cases hhit
    subst hhit
    rw [access_cas_hit rfl (hs.ne_null hpred.1.mem) hpred.1.lt rfl]
    have hv : (s.mem f.new).val < (s.mem (f.succs i)).val := by
      rw [hclimb.val]
      exact lt_of_le_of_ne (hfound i hlt).le (hval (by rw [hnext])).symm
    have hlev := hl.link hlt (hlist i (Nat.zero_le i) hlt).1 hpred.1.ne_tail hnext hclimb.high
      (fun _ => hclimb.low) (hl.topdown f.new hlink.mem) (by rw [hlink.top]; exact hi.2) hsucc
      (fun hne => by rw [hclimb.val]; exact hpred.2 hne) hv
    rw [Set.insert_eq_of_mem hlink.mem] at hlev
    refine ⟨_, hlev, ⟨hlist.mono (subset_update Q i f.new), ?_, Or.inl ?_, ?_⟩,
      .link (hlist i (Nat.zero_le i) hlt).1 (Or.inr rfl), Or.inr (Or.inl rfl)⟩
    · rw [setNext_val]
      exact hclimb.val
    · rw [Nat.add_sub_cancel, Function.update_self]
      exact Set.mem_insert _ _
    · rw [Function.update_of_ne (Nat.succ_ne_self i)]
      exact fun hm => hclimb.high (hl.anti i hm)
  · rw [access_cas_miss rfl (hs.ne_null hpred.1.mem) hpred.1.lt hhit]
    exact ⟨Q, .quiet hl .refl (fun _ _ => rfl) (climbs_search hl hclimb) (Or.inr rfl)⟩

/-! ### The other functions -/

/-- A program counter at which nothing is known about the levels. -/
def Plain (pc : Pc) : Prop := climber pc = NULL ∧ ∀ m P Q, Levels m P Q → Climbs m Q pc

theorem plain_trivial {pc : Pc} (h : climber pc = NULL) (hc : ∀ m Q, Climbs m Q pc) : Plain pc :=
  ⟨h, fun m _ Q _ => hc m Q⟩

theorem plain_search (hsite : ∀ j, site ≠ .upper j) : Plain (search f site) := by
  cases site with
  | upper j => exact absurd rfl (hsite j)
  | insert => exact ⟨rfl, fun _ _ _ hl => climbs_search hl trivial⟩
  | remove rs => exact ⟨rfl, fun _ _ _ hl => climbs_search hl trivial⟩
  | cleanup a => exact ⟨rfl, fun _ _ _ hl => climbs_search hl trivial⟩

theorem modify_next {m : Mem} {g : Node → Node} (hg : ∀ x, (g x).next = x.next) (n x : NodeId) :
    (modify m n g x).next = (m x).next := by
  by_cases hx : x = n
  · rw [hx, modify_same, hg]
  · rw [modify_ne _ _ _ _ hx]

/-- The instruction writes a pointer. -/
def Instr.writesNext : Instr Pc → Bool
  | .storeNext _ _ _ _ | .casNext _ _ _ _ _ => true
  | _ => false

theorem exec_next {ins : Instr Pc} (h : ins.writesNext = false) (n : NodeId) :
    ((exec any s seed ins).1.mem n).next = (s.mem n).next := by
  cases ins with
  | storeNext n i w c => cases h
  | casNext n i e w c => cases h
  | storeVal x v c => exact modify_next (g := fun x => { x with val := v }) (fun _ => rfl) x n
  | storeToplevel x l c =>
    exact modify_next (g := fun x => { x with toplevel := l }) (fun _ => rfl) x n
  | storeDeleted x d c =>
    exact modify_next (g := fun x => { x with deleted := d }) (fun _ => rfl) x n
  | fetchInc x c =>
    exact modify_next (g := fun x => { x with deleted := x.deleted + 1 }) (fun _ => rfl) x n
  | _ => rfl

/-- An access that writes no pointer and after which nothing is known about the levels. -/
def Quiet (pc : Pc) : Prop :=
  (code pc).writesNext = false ∧ ∀ any s seed, Plain (exec any s seed (code pc)).2.2

theorem Quiet.rise (hq : Quiet pc) (hl : Levels s.mem P Q)
    (ev : Evolve s.mem P (access any ⟨s, seed, pc⟩).sh.mem P) :
    Rise s.mem P Q pc (access any ⟨s, seed, pc⟩).sh.mem P Q (access any ⟨s, seed, pc⟩).pc := by
  have hnext : ∀ n, ((exec any s seed (code pc)).1.mem n).next = (s.mem n).next := exec_next hq.1
  obtain ⟨hc, hplain⟩ := hq.2 any s seed
  rcases access_cases any s seed pc with h | h | h
  · rw [h]
    exact .quiet hl .refl (fun _ _ => rfl) trivial (Or.inl rfl)
  · rw [h]
    exact .quiet hl .refl (fun _ _ => rfl) trivial (Or.inl rfl)
  · rw [h] at ev ⊢
    have hlev := hl.same ⟨ev.data, fun n _ => hnext n, ev.deleted⟩
    exact .quiet hl ev (fun n _ => hnext n) (hplain _ _ _ hlev) (Or.inl hc)

/-- The accesses of `fraser_insert` outside the levels. -/
theorem quiet_insert (v lvl : ℕ) (hpc : pc = .insAlloc v lvl ∨ pc = .insVal f ∨ pc = .insTop f ∨
    pc = .insDel f ∨ pc = .insDupDel f ∨ pc = .insFree f) : Quiet pc := by
  have htriv : ∀ {pc : Pc}, climber pc = NULL → (∀ m Q, Climbs m Q pc) → Plain pc := plain_trivial
  rcases hpc with rfl | rfl | rfl | rfl | rfl | rfl
  · exact ⟨rfl, fun _ _ _ => htriv rfl fun _ _ => trivial⟩
  · exact ⟨rfl, fun _ _ _ => htriv rfl fun _ _ => trivial⟩
  · exact ⟨rfl, fun _ _ _ => htriv rfl fun _ _ => trivial⟩
  · exact ⟨rfl, fun _ _ _ => plain_search fun _ he => by cases he⟩
  · refine ⟨rfl, fun any s seed => ?_⟩
    dsimp only [exec, code]
    split <;> exact htriv rfl fun _ _ => trivial
  · exact ⟨rfl, fun _ _ _ => htriv rfl fun _ _ => trivial⟩

/-- The accesses of `fraser_remove`. -/
theorem quiet_remove (rs result : Bool)
    (hpc : pc = .rmNext f ∨ pc = .rmVal f rs result ∨ pc = .rmDel f ∨ pc = .rmInc f) :
    Quiet pc := by
  have htriv : ∀ {pc : Pc}, climber pc = NULL → (∀ m Q, Climbs m Q pc) → Plain pc := plain_trivial
  rcases hpc with rfl | rfl | rfl | rfl
  · exact ⟨rfl, fun _ _ _ => htriv rfl fun _ _ => trivial⟩
  · refine ⟨rfl, fun any s seed => ?_⟩
    dsimp only [exec, code]
    split
    · split <;> exact htriv rfl fun _ _ => trivial
    · split <;> exact htriv rfl fun _ _ => trivial
  · refine ⟨rfl, fun any s seed => ?_⟩
    dsimp only [exec, code]
    split <;> exact htriv rfl fun _ _ => trivial
  · refine ⟨rfl, fun any s seed => ?_⟩
    dsimp only [exec, code]
    split <;> exact htriv rfl fun _ _ => trivial

/-- The accesses of `naive_delete_min`. -/
theorem quiet_naive {v : ℕ} {w : Ref} (hpc : pc = .nvNext n ∨ pc = .nvEnd n ∨ pc = .nvDel n ∨
    pc = .nvInc n ∨ pc = .nvTail n ∨ pc = .nvVal n ∨ pc = .nvPeek n v ∨ pc = .nvTest n v w ∨
    pc = .nvKey n v) : Quiet pc := by
  have htriv : ∀ {pc : Pc}, climber pc = NULL → (∀ m Q, Climbs m Q pc) → Plain pc := plain_trivial
  rcases hpc with rfl | rfl | rfl | rfl | rfl | rfl | rfl | rfl | rfl
  · exact ⟨rfl, fun _ _ _ => htriv rfl fun _ _ => trivial⟩
  · refine ⟨rfl, fun any s seed => ?_⟩
    dsimp only [exec, code]
    split <;> exact htriv rfl fun _ _ => trivial
  · refine ⟨rfl, fun any s seed => ?_⟩
    dsimp only [exec, code]
    split <;> exact htriv rfl fun _ _ => trivial
  · refine ⟨rfl, fun any s seed => ?_⟩
    dsimp only [exec, code]
    split <;> exact htriv rfl fun _ _ => trivial
  · refine ⟨rfl, fun any s seed => ?_⟩
    dsimp only [exec, code]
    split <;> exact htriv rfl fun _ _ => trivial
  · exact ⟨rfl, fun _ _ _ => htriv rfl fun _ _ => trivial⟩
  · exact ⟨rfl, fun _ _ _ => htriv rfl fun _ _ => trivial⟩
  · refine ⟨rfl, fun any s seed => ?_⟩
    dsimp only [exec, code]
    generalize (if w.mark = true then any else decide ((s.mem w.ptr).deleted ≠ 0)) = d
    cases d <;> exact htriv rfl fun _ _ => trivial
  · exact ⟨rfl, fun _ _ _ => plain_search fun _ he => by cases he⟩

theorem plain_spStep (w : Walk) : Plain (spStep w) := by
  unfold spStep
  split <;> exact plain_trivial rfl fun _ _ => trivial

/-- The accesses of `spray_delete_min`. -/
theorem quiet_spray {k : ℕ} {w : Walk} (hpc : pc = .spSeed k ∨ pc = .spDraw w ∨ pc = .spTest w ∨
    pc = .spMove w ∨ pc = .spDel w ∨ pc = .spEnd w ∨ pc = .spSkip n ∨ pc = .spSkipEnd n ∨
    pc = .spSkipMove n ∨ pc = .spTail n ∨ pc = .spCheck n ∨ pc = .spInc n ∨ pc = .spVal n) :
    Quiet pc := by
  have htriv : ∀ {pc : Pc}, climber pc = NULL → (∀ m Q, Climbs m Q pc) → Plain pc := plain_trivial
  rcases hpc with rfl | rfl | rfl | rfl | rfl | rfl | rfl | rfl | rfl | rfl | rfl | rfl | rfl
  · refine ⟨rfl, fun any s seed => ?_⟩
    dsimp only [exec, code]
    split <;> exact htriv rfl fun _ _ => trivial
  · refine ⟨rfl, fun any s seed => ?_⟩
    dsimp only [exec, code]
    exact plain_spStep _
  · refine ⟨rfl, fun any s seed => ?_⟩
    dsimp only [exec, code]
    split <;> exact htriv rfl fun _ _ => trivial
  · exact ⟨rfl, fun _ _ _ => htriv rfl fun _ _ => trivial⟩
  · refine ⟨rfl, fun any s seed => ?_⟩
    dsimp only [exec, code]
    exact plain_spStep _
  · refine ⟨rfl, fun any s seed => ?_⟩
    dsimp only [exec, code]
    split
    · exact htriv rfl fun _ _ => trivial
    · split
      · split <;> exact htriv rfl fun _ _ => trivial
      · exact htriv rfl fun _ _ => trivial
  · refine ⟨rfl, fun any s seed => ?_⟩
    dsimp only [exec, code]
    split <;> exact htriv rfl fun _ _ => trivial
  · refine ⟨rfl, fun any s seed => ?_⟩
    dsimp only [exec, code]
    split <;> exact htriv rfl fun _ _ => trivial
  · exact ⟨rfl, fun _ _ _ => htriv rfl fun _ _ => trivial⟩
  · refine ⟨rfl, fun any s seed => ?_⟩
    dsimp only [exec, code]
    split <;> exact htriv rfl fun _ _ => trivial
  · refine ⟨rfl, fun any s seed => ?_⟩
    dsimp only [exec, code]
    split <;> exact htriv rfl fun _ _ => trivial
  · refine ⟨rfl, fun any s seed => ?_⟩
    dsimp only [exec, code]
    split <;> exact htriv rfl fun _ _ => trivial
  · exact ⟨rfl, fun _ _ _ => htriv rfl fun _ _ => trivial⟩

/-! ### Any access -/

/-- The nodes of the list after the access of a thread. -/
def grown (m : Mem) (P : Set NodeId) : Pc → Set NodeId
  | .insCas f => if (m (f.preds 0)).next 0 = ref (f.succs 0) then insert f.new P else P
  | _ => P

/-- The set in `Progress` is the one the access leads to. -/
theorem Progress.eq_grown {s' : Shared} {seed' : ℕ} {pc' : Pc} (hs : Shape s.mem s.brk P)
    (hok : Ok s.mem s.brk P pc) (hacc : access any ⟨s, seed, pc⟩ = ⟨s', seed', pc'⟩)
    (hp : Progress s P pc (event s.mem pc) s' P' pc') : P' = grown s.mem P pc := by
  have heff := hp.effect
  have hinc : ∀ {n : NodeId}, Effect s.mem P s'.mem P' (incEvent s.mem n) → P' = P := fun h => by
    unfold incEvent at h
    split at h
    · exact h.1
    · exact h.1
  cases pc with
  | insCas f =>
    obtain ⟨hn, hf, -⟩ := hok
    have hleft := (hf 0 (by decide)).pred.1
    unfold grown
    dsimp only
    split
    · rename_i hhit
      rw [event, if_pos hhit] at heff
      rw [access_cas_hit rfl (hs.ne_null hleft.mem) hleft.lt hhit, Config.mk.injEq] at hacc
      obtain ⟨rfl, -, -⟩ := hacc
      obtain ⟨n, -, rfl, -⟩ := heff
      -- the node linked in is the one the pointer now leads to
      have hlink := hp.shape.links (f.preds 0) 0 (source_setNext.mpr
        ⟨Set.mem_insert_of_mem _ hleft.mem, hleft.ne_tail, hleft.lt⟩)
      rw [succ_setNext_same] at hlink
      rcases Set.mem_insert_iff.mp hlink.mem with he | hm
      · rw [← he]
      · exact absurd hm hn.claimed.notMem
    · rename_i hmiss
      rw [event, if_neg hmiss] at heff
      exact heff.1
  | rmInc f => exact hinc heff
  | nvInc n | spInc n => exact hinc heff
  | _ => exact heff.1

/-- **One access of a thread** and the levels. -/
theorem Climbs.access (hs : Shape s.mem s.brk P) (hl : Levels s.mem P Q)
    (hok : Ok s.mem s.brk P pc) (h : Climbs s.mem Q pc) (hbusy : pc.busy = true)
    (ev : Evolve s.mem P (access any ⟨s, seed, pc⟩).sh.mem (grown s.mem P pc)) :
    ∃ Q', Rise s.mem P Q pc (Spray.access any ⟨s, seed, pc⟩).sh.mem (grown s.mem P pc) Q'
      (Spray.access any ⟨s, seed, pc⟩).pc := by
  cases pc with
  | idle | crashed | wild | ret a => cases hbusy
  | seLeft f site left i => exact ⟨Q, h.search_step hs hl hok (by simp)⟩
  | seNext f site left ln r i => exact ⟨Q, h.search_step hs hl hok (by simp)⟩
  | seVal f site left ln r rn i => exact ⟨Q, h.search_step hs hl hok (by simp)⟩
  | seCas f site left ln r i => exact ⟨Q, h.search_step hs hl hok (by simp)⟩
  | mkTop site n | mkNext site n i | mkCas site n i w => exact ⟨Q, h.mark_step hs hl hok (by simp)⟩
  | insDup f => exact ⟨Q, h.insert_step (f := f) (i := 0) hs hl hok (by simp)⟩
  | insTest f i | insLink f i => exact ⟨Q, h.insert_step (f := f) (i := i) hs hl hok (by simp)⟩
  | insCas f => exact h.insCas_step hs hl hok
  | upTest f i | upNew f i | upVal f i =>
    exact ⟨Q, h.upper_step (f := f) (i := i) (w := ref NULL) hs hl hok (by simp)⟩
  | upSet f i w => exact ⟨Q, h.upper_step (f := f) (i := i) (w := w) hs hl hok (by simp)⟩
  | upCas f i e => exact h.upCas_step hs hl hok
  | insAlloc v lvl =>
    exact ⟨Q, (quiet_insert v lvl (f := .begin v lvl NULL) (by simp)).rise hl ev⟩
  | insVal f | insTop f | insDel f | insDupDel f | insFree f =>
    exact ⟨Q, (quiet_insert 0 0 (f := f) (by simp)).rise hl ev⟩
  | rmNext f | rmDel f | rmInc f => exact ⟨Q, (quiet_remove (f := f) true true (by simp)).rise hl ev⟩
  | rmVal f rs result => exact ⟨Q, (quiet_remove (f := f) rs result (by simp)).rise hl ev⟩
  | nvNext n | nvEnd n | nvDel n | nvInc n | nvTail n | nvVal n =>
    exact ⟨Q, (quiet_naive (n := n) (v := 0) (w := ref NULL) (by simp)).rise hl ev⟩
  | nvPeek n v | nvKey n v =>
    exact ⟨Q, (quiet_naive (n := n) (v := v) (w := ref NULL) (by simp)).rise hl ev⟩
  | nvTest n v w => exact ⟨Q, (quiet_naive (n := n) (v := v) (w := w) (by simp)).rise hl ev⟩
  | spSeed k =>
    exact ⟨Q, (quiet_spray (n := 0) (k := k) (w := ⟨0, 0, 0, 0, 0⟩) (by simp)).rise hl ev⟩
  | spDraw w | spTest w | spMove w | spDel w | spEnd w =>
    exact ⟨Q, (quiet_spray (n := 0) (k := 0) (w := w) (by simp)).rise hl ev⟩
  | spSkip n | spSkipEnd n | spSkipMove n | spTail n | spCheck n | spInc n | spVal n =>
    exact ⟨Q, (quiet_spray (n := n) (k := 0) (w := ⟨0, 0, 0, 0, 0⟩) (by simp)).rise hl ev⟩
  | sqTop _ _ | sqNext _ _ _ | sqVal _ _ _ _ | sqSucc _ _ _ | sqLast _ _ | sqCmp _ _ | sqAlloc _
  | sqNew _ | sqNewTop _ | sqNewDel _ | sqStore _ _ | sqLink _ _ => exact hok.elim

end Steps

end ConcurrentPQ.Spray

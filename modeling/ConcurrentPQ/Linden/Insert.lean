import ConcurrentPQ.Linden.Threads

/-!
# The accesses of `insert`

`Sound s G pc r G'` collects what the access at `pc` has to establish when it takes the shared state
`s` with list `G` to `r` with list `G'`.  This file proves it for the program counters of `insert`,
`alloc_node` and `locate_preds`, one lemma for each.

* `LiveStep` — what an event does to the live part of the list;
* `Sound`, `Sound.still`, `Sound.own_write` — the obligations, and their form for accesses that
  leave memory alone or write to the thread's own unlinked node;
* `sound_cas0`, `sound_dupPtr`, `sound_upCas` — the accesses at which `insert` takes effect, gives up,
  or links an upper level.
-/

namespace ConcurrentPQ.Linden

open ConcurrentPQ.Segment

/-- The effect of an event on the list; `w` is the node the thread inserts. -/
def LiveStep (w : NodeId) (m m' : Mem) (G G' : Ghost) : Event → Prop
  | .insertCas k => (∃ p, Spliced G p w G') ∧ w ∉ G.order ∧ (m' w).k = k
  | .deleteFao n => G.live = n :: G'.live ∧ G'.order = G.order
  | .giveUp k => G' = G ∧ ∃ n ∈ G.live, (m n).k = k
  | _ => G' = G

/-- All pointers of the head have passed the deleted node `n`. -/
def Shed (m : Mem) (G : Ghost) (n : NodeId) : Prop :=
  G.Dead n ∧ ∀ j, j < NUM_LEVELS → Before G.all n (headPtr m j)

/-- The access at `pc` took the shared state `s` with list `G` to `r` with list `G'`. -/
structure Sound (s : Shared) (G : Ghost) (pc : Pc) (r : Shared × Pc) (G' : Ghost) : Prop where
  shape : Shape r.1.mem r.1.brk G'
  evolve : Evolve (own pc) s.mem G r.1.mem G'
  ok : Ok r.1.mem r.1.brk G' r.2
  brk : s.brk ≤ r.1.brk
  live : LiveStep (own pc) s.mem r.1.mem G G' (event s.mem pc)
  owned : own r.2 = own pc ∨ own r.2 = NULL ∨ (own r.2 = s.brk ∧ r.1.brk = s.brk + 1)
  freed : r.1.freed = s.freed ∨ ∃ n, r.1.freed = n :: s.freed ∧ r.1.mem = s.mem ∧ G' = G ∧
    (Shed s.mem G n ∨ (n = own pc ∧ n ≠ NULL ∧ n ∉ G.order ∧ own r.2 = NULL))

variable {s : Shared} {G : Ghost} {f : Frame}

/-- Accesses that leave the shared state alone. -/
theorem Sound.still (hs : Shape s.mem s.brk G) {pc pc' : Pc} (hne : own pc ≠ tail)
    (hlive : LiveStep (own pc) s.mem s.mem G G (event s.mem pc)) (hown : own pc' = own pc ∨ own pc' = NULL)
    (hok : Ok s.mem s.brk G pc') : Sound s G pc (s, pc') G :=
  ⟨hs, .refl hs hne, hok, le_rfl, hlive, hown.imp id Or.inl, Or.inl rfl⟩

theorem ne_tail_of_ge {n : NodeId} (h : firstNode ≤ n) : n ≠ tail := Nat.ne_of_gt h

theorem ne_head_of_ge {n : NodeId} (h : firstNode ≤ n) : n ≠ head :=
  Nat.ne_of_gt (lt_of_lt_of_le (by decide) h)

theorem ne_null_of_ge {n : NodeId} (h : firstNode ≤ n) : n ≠ NULL :=
  Nat.ne_of_gt (lt_of_lt_of_le (by decide) h)

/-- Writes to the thread's own node before it is spliced in. -/
theorem Sound.own_write (hs : Shape s.mem s.brk G) {pc pc' : Pc} {m' : Mem} (hpc : own pc = f.new)
    (hc : Claimed s.brk G f) (hm : ∀ n, n ≠ f.new → m' n = s.mem n)
    (hlive : event s.mem pc = .internal) (hown : own pc' = f.new)
    (hok : Evolve f.new s.mem G m' G → Ok m' s.brk G pc') :
    Sound s G pc ({ s with mem := m' }, pc') G := by
  obtain ⟨hs', e⟩ := hs.private hc.notMem (ne_tail_of_ge hc.ge) hm
  refine ⟨hs', hpc ▸ e, hok e, le_rfl, ?_, Or.inl (hown.trans hpc.symm), Or.inl rfl⟩
  rw [hlive]
  rfl

/-! ### `alloc_node` and the initialisation of the new node -/

theorem sound_insAlloc (hs : Shape s.mem s.brk G) {k v lvl : ℕ} (h : Args k v lvl) :
    Sound s G (.insAlloc k v lvl)
      ({ s with brk := s.brk + 1 }, .insLevel (Frame.begin k v lvl s.brk)) G where
  shape := hs.mono_brk
  evolve := .refl hs (show NULL ≠ tail by decide)
  ok := ⟨h, fun hm => lt_irrefl _ (hs.lt_brk _ hm), hs.brk_ge, Nat.lt_succ_self _⟩
  brk := Nat.le_succ _
  live := rfl
  owned := Or.inr (Or.inr ⟨rfl, rfl⟩)
  freed := Or.inl rfl

theorem sound_insLevel (hs : Shape s.mem s.brk G) (h : Claimed s.brk G f) :
    Sound s G (.insLevel f)
      ({ s with mem := modify s.mem f.new fun x => { x with level := f.lvl } },
        .insInserting f) G := by
  refine .own_write hs rfl h (fun n => modify_ne _ _ n _) rfl rfl fun _ => ⟨h, ?_⟩
  rw [modify_same]

theorem sound_insInserting (hs : Shape s.mem s.brk G)
    (h : Claimed s.brk G f ∧ (s.mem f.new).level = f.lvl) :
    Sound s G (.insInserting f)
      ({ s with mem := modify s.mem f.new fun x => { x with inserting := true } },
        .insClear f) G := by
  refine .own_write hs rfl h.1 (fun n => modify_ne _ _ n _) rfl rfl fun _ => ⟨h.1, ?_, ?_⟩
  · rw [modify_same]; exact h.2
  · rw [modify_same]

theorem sound_insClear (hs : Shape s.mem s.brk G)
    (h : Claimed s.brk G f ∧ (s.mem f.new).level = f.lvl ∧ (s.mem f.new).inserting = true) :
    Sound s G (.insClear f) ({ s with mem := clear s.mem f.new f.lvl }, .insKey f) G := by
  refine .own_write hs rfl h.1 (fun n => modify_ne _ _ n _) rfl rfl fun _ => ⟨h.1, ?_, ?_, ?_⟩
  · rw [clear, modify_same]; exact h.2.1
  · rw [clear, modify_same]; exact h.2.2
  · intro i _ hi
    rw [clear, modify_same]
    exact if_pos hi

theorem sound_insKey (hs : Shape s.mem s.brk G) (h : Ok s.mem s.brk G (.insKey f)) :
    Sound s G (.insKey f)
      ({ s with mem := modify s.mem f.new fun x => { x with k := f.k } }, .insVal f) G := by
  obtain ⟨hc, hlvl, hins, hclr⟩ := h
  refine .own_write hs rfl hc (fun n => modify_ne _ _ n _) rfl rfl fun _ => ⟨hc, ?_, ?_, ?_, ?_⟩
  all_goals rw [modify_same]
  exacts [hlvl, hins, hclr]

theorem Scan.begin {m : Mem} {brk : NodeId} (hs : Shape m brk G) :
    Scan m G f head (NUM_LEVELS - 1) where
  lt := by decide
  source := hs.head_source _ (by decide)
  from_ := Or.inl hs.head_mem_gone
  done j h₁ h₂ := absurd h₁ (Nat.not_lt.mpr (Nat.le_sub_one_of_lt h₂))

theorem sound_insVal (hs : Shape s.mem s.brk G) (h : Ok s.mem s.brk G (.insVal f)) :
    Sound s G (.insVal f)
      ({ s with mem := modify s.mem f.new fun x => { x with v := f.v } }, locate f .retry) G := by
  obtain ⟨hc, hlvl, hins, hclr, hk⟩ := h
  have hm : ∀ n, n ≠ f.new → modify s.mem f.new (fun x => { x with v := f.v }) n = s.mem n :=
    fun n => modify_ne _ _ n _
  refine .own_write hs rfl hc hm rfl rfl fun _ => ⟨⟨⟨hc.args, hc.notMem, hc.ge, hc.lt⟩,
    ?_, ?_, ?_, ?_, ?_⟩, .begin (hs.private hc.notMem (ne_tail_of_ge hc.ge) hm).1⟩
  all_goals show _; dsimp only; rw [modify_same]
  exacts [hlvl, hins, hclr, hk]

/-! ### `locate_preds` -/

theorem SiteOk.ge {m : Mem} {brk : NodeId} {site : Site} (h : SiteOk m brk G f site) :
    firstNode ≤ f.new := by
  cases site with
  | retry => exact h.claimed.ge
  | upper i => exact h.1.ge

theorem SiteOk.args {m : Mem} {brk : NodeId} {site : Site} (h : SiteOk m brk G f site) :
    Args f.k f.v f.lvl := by
  cases site with
  | retry => exact h.claimed.args
  | upper i => exact h.1.args

theorem sound_locNext (hs : Shape s.mem s.brk G) {site : Site} {x : NodeId} {i : ℕ}
    (h : Ok s.mem s.brk G (.locNext f site x i)) :
    Sound s G (.locNext f site x i)
      (s, .locKey f site x i ((s.mem x).next i).ptr ((s.mem x).next i).mark) G := by
  obtain ⟨hsite, hscan⟩ := h
  refine .still hs (ne_tail_of_ge hsite.ge) rfl (Or.inl rfl)
    ⟨hsite, hscan, hs.load_target hscan.source, ?_⟩
  rintro rfl hm
  exact (hs.dead_of_mark hscan.source.mem hm).1

/-- One step of `locate_preds` along level `i`. -/
theorem Ok.locBody {m : Mem} {brk : NodeId} {site : Site} {x x_next : NodeId} {i : ℕ} {d : Bool}
    (hsite : SiteOk m brk G f site) (hscan : Scan m G f x i) (ht : Target m G x_next i)
    (hne : x_next ≠ tail) (hfrom : SearchFrom m G f.k x_next) :
    Ok m brk G (locBody f site i x_next d) := by
  have hsrc : Source m G x_next i := (ht.resolve_left hne).2
  unfold Linden.locBody
  split
  · refine ⟨?_, hscan.lt, hsrc, hfrom, fun j hj hl => hscan.done j hj hl⟩
    cases site with
    | retry => exact ⟨⟨hsite.claimed.args, hsite.claimed.notMem, hsite.claimed.ge,
        hsite.claimed.lt⟩, hsite.level, hsite.inserting, hsite.clear, hsite.key, hsite.val⟩
    | upper j => exact ⟨⟨hsite.1.args, hsite.1.mem, hsite.1.ge, hsite.1.key, hsite.1.level,
        hsite.1.inserting, hsite.1.pos, hsite.1.le, hsite.1.nonnull⟩, hsite.2⟩
  · exact ⟨hsite, hscan.lt, hsrc, hfrom, hscan.done⟩

theorem own_locBody (site : Site) (i : ℕ) (x_next : NodeId) (d : Bool) :
    own (Linden.locBody f site i x_next d) = f.new := by
  unfold Linden.locBody
  split <;> rfl

theorem sound_locKey (hs : Shape s.mem s.brk G) {site : Site} {x x_next : NodeId} {i : ℕ} {d : Bool}
    (h : Ok s.mem s.brk G (.locKey f site x i x_next d)) :
    Sound s G (.locKey f site x i x_next d)
      (s, if (s.mem x_next).k < f.k then locBody f site i x_next d
        else .locMark f site x i x_next d) G := by
  obtain ⟨hsite, hscan, ht, hd⟩ := h
  split
  · rename_i hk
    refine .still hs (ne_tail_of_ge hsite.ge) rfl (Or.inl (own_locBody ..)) ?_
    have hne : x_next ≠ tail := by
      rintro rfl
      rw [hs.tail_k] at hk
      exact absurd hk (not_lt_of_gt hsite.args.key.2)
    exact .locBody hsite hscan ht hne (Or.inr ⟨(ht.resolve_left hne).2.mem, hk⟩)
  · rename_i hk
    exact .still hs (ne_tail_of_ge hsite.ge) rfl (Or.inl rfl) ⟨hsite, hscan, ht, hd, not_lt.mp hk⟩

/-- A level of `locate_preds` is finished: its pair is recorded. -/
theorem Scan.record {m : Mem} {x x_next : NodeId} {i : ℕ} (h : Scan m G f x i)
    (ht : Target m G x_next i) {j : ℕ} (hj : i ≤ j) (hl : j < NUM_LEVELS) :
    Recorded m G (f.record i x x_next) j := by
  rcases eq_or_lt_of_le hj with rfl | hj
  · refine ⟨?_, ?_⟩
    · simpa [Frame.record] using h.source
    · simpa [Frame.record] using ht
  · have hne : j ≠ i := Nat.ne_of_gt hj
    simpa [Recorded, Frame.record, hne] using h.done j hj hl

theorem SiteOk.record {m : Mem} {brk : NodeId} {site : Site} (h : SiteOk m brk G f site)
    (i : ℕ) (x x_next : NodeId) : SiteOk m brk G (f.record i x x_next) site := by
  cases site with
  | retry => exact ⟨⟨h.claimed.args, h.claimed.notMem, h.claimed.ge, h.claimed.lt⟩, h.level,
      h.inserting, h.clear, h.key, h.val⟩
  | upper j => exact ⟨⟨h.1.args, h.1.mem, h.1.ge, h.1.key, h.1.level, h.1.inserting, h.1.pos,
      h.1.le, h.1.nonnull⟩, h.2⟩

theorem Ok.located {m : Mem} {brk : NodeId} {site : Site} (hsite : SiteOk m brk G f site)
    (hf : Found m G f) : Ok m brk G (located f site) := by
  cases site with
  | retry => exact ⟨hsite, hf⟩
  | upper i =>
    rw [Linden.located]
    split
    · exact ⟨hsite.1.mem, hsite.1.ge⟩
    · exact ⟨hsite.1, hf⟩

theorem own_located (site : Site) : own (located f site) = f.new := by
  cases site with
  | retry => rfl
  | upper i => rw [located]; split <;> rfl

theorem own_locDown (site : Site) (x : NodeId) (i : ℕ) (x_next : NodeId) :
    own (locDown f site x i x_next) = f.new := by
  unfold locDown
  split
  · rw [own_located]; rfl
  · rfl

theorem Ok.locDown {m : Mem} {brk : NodeId} {site : Site} {x x_next : NodeId} {i : ℕ}
    (hsite : SiteOk m brk G f site) (hscan : Scan m G f x i) (ht : Target m G x_next i)
    (hk : f.k ≤ (m x_next).k) : Ok m brk G (locDown f site x i x_next) := by
  unfold Linden.locDown
  split
  · rename_i hi
    subst hi
    refine .located (hsite.record ..) ⟨fun j hj => hscan.record ht (Nat.zero_le j) hj, ?_, ?_⟩
    · simpa [Frame.record] using hscan.from_
    · simpa [Frame.record] using hk
  · rename_i hi
    refine ⟨hsite.record .., ?_, hscan.source.down (Nat.sub_le _ _), hscan.from_, ?_⟩
    · exact lt_of_le_of_lt (Nat.sub_le _ _) hscan.lt
    · exact fun j hj hl => hscan.record ht (by omega) hl

theorem sound_locMark (hs : Shape s.mem s.brk G) {site : Site} {x x_next : NodeId} {i : ℕ}
    {d : Bool} (h : Ok s.mem s.brk G (.locMark f site x i x_next d)) :
    Sound s G (.locMark f site x i x_next d)
      (s, if ((s.mem x_next).next 0).mark = true ∨ (i = 0 ∧ d = true) then
          locBody f site i x_next d
        else locDown f site x i x_next) G := by
  obtain ⟨hsite, hscan, ht, hd, hk⟩ := h
  split
  · rename_i hm
    refine .still hs (ne_tail_of_ge hsite.ge) rfl (Or.inl (own_locBody ..)) ?_
    have hgone : x_next ∈ G.gone := by
      rcases hm with hm | ⟨hi, hdt⟩
      · have hne : x_next ≠ tail := by
          rintro rfl
          rw [hs.tail_mark] at hm
          cases hm
        exact List.mem_append_left _ (hs.mem_dead_of_mark (ht.resolve_left hne).2.mem hm)
      · exact hd hi hdt
    exact .locBody hsite hscan ht (hs.ne_tail (G.gone_subset hgone)) (Or.inl hgone)
  · exact .still hs (ne_tail_of_ge hsite.ge) rfl (Or.inl (own_locDown ..))
      (.locDown hsite hscan ht hk)

theorem Ok.locate {m : Mem} {brk : NodeId} {site : Site} (hs : Shape m brk G)
    (hsite : SiteOk m brk G f site) : Ok m brk G (locate f site) := by
  refine ⟨?_, .begin hs⟩
  cases site with
  | retry => exact ⟨⟨hsite.claimed.args, hsite.claimed.notMem, hsite.claimed.ge,
      hsite.claimed.lt⟩, hsite.level, hsite.inserting, hsite.clear, hsite.key, hsite.val⟩
  | upper j => exact ⟨⟨hsite.1.args, hsite.1.mem, hsite.1.ge, hsite.1.key, hsite.1.level,
      hsite.1.inserting, hsite.1.pos, hsite.1.le, hsite.1.nonnull⟩, hsite.2⟩

/-! ### `insert`: the duplicate exit -/

theorem sound_dupKey (hs : Shape s.mem s.brk G) (h : Ok s.mem s.brk G (.dupKey f)) :
    Sound s G (.dupKey f)
      (s, if (s.mem (f.succs 0)).k = f.k then .dupMark f else .link0 f) G := by
  obtain ⟨hp, hf⟩ := h
  split
  · rename_i hk
    exact .still hs (ne_tail_of_ge hp.claimed.ge) rfl (Or.inl rfl) ⟨hp, hf, hk⟩
  · rename_i hk
    exact .still hs (ne_tail_of_ge hp.claimed.ge) rfl (Or.inl rfl) ⟨hp, hf, Or.inl hk⟩

theorem sound_dupMark (hs : Shape s.mem s.brk G) (h : Ok s.mem s.brk G (.dupMark f)) :
    Sound s G (.dupMark f)
      (s, if ((s.mem (f.preds 0)).next 0).mark = true then .link0 f else .dupPtr f) G := by
  obtain ⟨hp, hf, hk⟩ := h
  split
  · rename_i hm
    refine .still hs (ne_tail_of_ge hp.claimed.ge) rfl (Or.inl rfl) ⟨hp, hf, Or.inr ?_⟩
    intro he
    rw [he] at hm
    cases hm
  · exact .still hs (ne_tail_of_ge hp.claimed.ge) rfl (Or.inl rfl) ⟨hp, hf, hk⟩

/-- A node whose unmarked predecessor points to it is live, unless it is the tail. -/
theorem Shape.live_of_unmarked {m : Mem} {brk : NodeId} (h : Shape m brk G) {p n : NodeId}
    (hp : p ∈ G.order) (hn : (m p).next 0 = ref n) (ht : n ≠ tail) : n ∈ G.live := by
  have hl := h.succ0_live (h.bound_or_live hp (by rw [hn]))
  rw [succ0, hn] at hl
  exact hl.resolve_right ht

theorem sound_dupPtr (hs : Shape s.mem s.brk G) (h : Ok s.mem s.brk G (.dupPtr f)) :
    Sound s G (.dupPtr f)
      (s, if (s.mem (f.preds 0)).next 0 = ref (f.succs 0) then .dupClear f else .link0 f) G := by
  obtain ⟨hp, hf, hk⟩ := h
  have ht := ne_tail_of_ge hp.claimed.ge
  split
  · rename_i he
    refine .still hs ht ?_ (Or.inl rfl) hp.claimed
    rw [event, if_pos he]
    refine ⟨rfl, f.succs 0, hs.live_of_unmarked (hf.levels 0 (by decide)).1.mem he ?_, hk⟩
    intro htl
    rw [htl, hs.tail_k] at hk
    exact absurd hp.claimed.args.key.2 (by rw [hk]; exact lt_irrefl _)
  · rename_i he
    refine .still hs ht ?_ (Or.inl rfl) ⟨hp, hf, Or.inr he⟩
    rw [event, if_neg he]
    rfl

theorem sound_dupClear (hs : Shape s.mem s.brk G) (h : Claimed s.brk G f) :
    Sound s G (.dupClear f)
      ({ s with mem := modify s.mem f.new fun x => { x with inserting := false } },
        .dupFree f) G :=
  .own_write hs rfl h (fun n => modify_ne _ _ n _) rfl rfl fun _ => h

theorem sound_dupFree (hs : Shape s.mem s.brk G) (h : Claimed s.brk G f) :
    Sound s G (.dupFree f) ({ s with freed := f.new :: s.freed }, .ret none) G where
  shape := hs
  evolve := .refl hs (ne_tail_of_ge h.ge)
  ok := trivial
  brk := le_rfl
  live := rfl
  owned := Or.inr (Or.inl rfl)
  freed := Or.inr ⟨f.new, rfl, rfl, rfl, Or.inr ⟨rfl, ne_null_of_ge h.ge, h.notMem, rfl⟩⟩

/-! ### `insert`: level 0 -/

theorem sound_link0 (hs : Shape s.mem s.brk G) (h : Ok s.mem s.brk G (.link0 f)) :
    Sound s G (.link0 f)
      ({ s with mem := setNext s.mem f.new 0 (ref (f.succs 0)) }, .cas0 f) G := by
  obtain ⟨hp, hf, hd⟩ := h
  refine .own_write hs rfl hp.claimed (fun n => setNext_node_ne _ _ n _ _) rfl rfl fun e =>
    ⟨⟨hp.claimed, ?_, ?_, ?_, ?_, ?_⟩, hf.evolve e hs, hd.evolve e hs hf, setNext_same ..⟩
  · rw [setNext_level]; exact hp.level
  · rw [setNext_inserting]; exact hp.inserting
  · intro i h0 hi
    rw [setNext_level_ne _ _ _ _ _ _ (Nat.ne_of_gt h0)]
    exact hp.clear i h0 hi
  · rw [setNext_k]; exact hp.key
  · rw [setNext_v]; exact hp.val

theorem Prepared.fresh {m : Mem} {brk : NodeId} (h : Prepared m brk G f) : Fresh m brk G f.new where
  notMem := h.claimed.notMem
  ge := h.claimed.ge
  lt := h.claimed.lt
  level := by rw [h.level]; exact h.claimed.args.level
  key := by
    rw [h.key, h.val]
    exact ⟨h.claimed.args.key.1, h.claimed.args.key.2, h.claimed.args.val⟩
  clear i h0 hi := h.clear i h0 (h.level ▸ hi)

/-- **The level-0 CAS.** -/
theorem sound_cas0 (hs : Shape s.mem s.brk G) (h : Ok s.mem s.brk G (.cas0 f)) :
    ∃ G', Sound s G (.cas0 f)
      (if (s.mem (f.preds 0)).next 0 = ref (f.succs 0) then
        ({ s with mem := setNext s.mem (f.preds 0) 0 (ref f.new) }, .upLevel f 1)
      else (s, locate f .retry)) G' := by
  obtain ⟨hp, hf, hd, hnew⟩ := h
  have hne := ne_tail_of_ge hp.claimed.ge
  split
  · rename_i he
    have hmem := (hf.levels 0 (by decide)).1.mem
    have hpk : f.preds 0 ∈ G.gone ∨ (s.mem (f.preds 0)).k < (s.mem f.new).k := by
      rw [hp.key]
      exact hf.pred.imp id And.right
    have hsk : (s.mem f.new).k < (s.mem (f.succs 0)).k := by
      rw [hp.key]
      exact lt_of_le_of_ne hf.succ fun hk => (hd.resolve_right fun hn => hn he) hk.symm
    obtain ⟨G', hspl, hs', e⟩ := hs.publish hmem he hp.fresh hnew hpk hsk
    have hnp : f.new ≠ f.preds 0 := fun h => hp.claimed.notMem (h ▸ hmem)
    have hsucc : f.succs 0 ≠ NULL := hs.target_ne_null (hf.levels 0 (by decide)).2
    refine ⟨G', hs', e, ⟨?_, hf.evolve e hs⟩, le_rfl, ?_, Or.inl rfl, Or.inl rfl⟩
    · refine ⟨hp.claimed.args, hspl.order_mem.mpr (Or.inl rfl), hp.claimed.ge, ?_, ?_, ?_,
        Nat.one_pos, hp.claimed.args.level.1, ?_⟩
      · rw [setNext_k]; exact hp.key
      · rw [setNext_level]; exact hp.level
      · rw [setNext_inserting]; exact hp.inserting
      · intro j hj
        obtain rfl : j = 0 := by omega
        dsimp only
        rw [setNext_node_ne _ _ _ _ _ hnp, hnew]
        exact hsucc
    · rw [event, if_pos he]
      exact ⟨⟨f.preds 0, hspl⟩, hp.claimed.notMem, by rw [setNext_k]; exact hp.key⟩
  · rename_i he
    refine ⟨G, .still hs hne ?_ (Or.inl rfl) (.locate hs hp)⟩
    rw [event, if_neg he]
    rfl

/-! ### `insert`: the other levels -/

theorem sound_upLevel (hs : Shape s.mem s.brk G) {i : ℕ} (h : Ok s.mem s.brk G (.upLevel f i)) :
    Sound s G (.upLevel f i)
      (s, if i < (s.mem f.new).level then .upNew f i else .finish f) G := by
  obtain ⟨hp, hf⟩ := h
  rw [hp.level]
  split
  · rename_i hi
    exact .still hs (ne_tail_of_ge hp.ge) rfl (Or.inl rfl) ⟨hp, hf, hi⟩
  · exact .still hs (ne_tail_of_ge hp.ge) rfl (Or.inl rfl) ⟨hp.mem, hp.ge⟩

theorem sound_upNew (hs : Shape s.mem s.brk G) {i : ℕ} (h : Ok s.mem s.brk G (.upNew f i)) :
    Sound s G (.upNew f i)
      (s, if ((s.mem f.new).next 0).mark = true then .finish f else .upSucc f i) G := by
  obtain ⟨hp, hf, hi⟩ := h
  split
  · exact .still hs (ne_tail_of_ge hp.ge) rfl (Or.inl rfl) ⟨hp.mem, hp.ge⟩
  · exact .still hs (ne_tail_of_ge hp.ge) rfl (Or.inl rfl) ⟨hp, hf, hi⟩

theorem sound_upSucc (hs : Shape s.mem s.brk G) {i : ℕ} (h : Ok s.mem s.brk G (.upSucc f i)) :
    Sound s G (.upSucc f i)
      (s, if ((s.mem (f.succs i)).next 0).mark = true ∨ f.del = f.succs i then .finish f
        else .upStore f i) G := by
  obtain ⟨hp, hf, hi⟩ := h
  split
  · exact .still hs (ne_tail_of_ge hp.ge) rfl (Or.inl rfl) ⟨hp.mem, hp.ge⟩
  · exact .still hs (ne_tail_of_ge hp.ge) rfl (Or.inl rfl) ⟨hp, hf, hi⟩

theorem Placed.lt_levels {m : Mem} {i : ℕ} (h : Placed m G f i) (hi : i < f.lvl) :
    i < NUM_LEVELS := lt_of_lt_of_le hi h.args.level.2

theorem sound_upStore (hs : Shape s.mem s.brk G) {i : ℕ} (h : Ok s.mem s.brk G (.upStore f i)) :
    Sound s G (.upStore f i)
      ({ s with mem := setNext s.mem f.new i (ref (f.succs i)) }, .upCas f i) G := by
  obtain ⟨hp, hf, hi⟩ := h
  have ht := (hf.levels i (hp.lt_levels hi)).2
  obtain ⟨hs', e⟩ := hs.setUpper (ne_tail_of_ge hp.ge) hp.mem hp.pos ht
    fun hh => absurd hh (ne_head_of_ge hp.ge)
  refine ⟨hs', e, ⟨?_, hf.evolve e hs, hi, ?_⟩, le_rfl, rfl, Or.inl rfl, Or.inl rfl⟩
  · refine ⟨hp.args, hp.mem, hp.ge, ?_, ?_, ?_, hp.pos, hp.le, ?_⟩
    · rw [setNext_k]; exact hp.key
    · rw [setNext_level]; exact hp.level
    · rw [setNext_inserting]; exact hp.inserting
    · exact fun j hj => e.nonnull _ hp.mem j (hp.nonnull j hj)
  · rw [setNext_same]
    exact hs.target_ne_null ht

/-- **An upper-level CAS.**  A node that is still being inserted is not behind the head. -/
theorem sound_upCas (hs : Shape s.mem s.brk G) {i : ℕ} (h : Ok s.mem s.brk G (.upCas f i)) :
    Sound s G (.upCas f i)
      (if (s.mem (f.preds i)).next i = ref (f.succs i) then
        ({ s with mem := setNext s.mem (f.preds i) i (ref f.new) }, .upLevel f (i + 1))
      else (s, locate f (.upper i))) G := by
  obtain ⟨hp, hf, hi, hnn⟩ := h
  have hne := ne_tail_of_ge hp.ge
  have hh := ne_head_of_ge hp.ge
  split
  · have hsrc : Source s.mem G f.new i := by
      refine ⟨hp.mem, by rw [hp.level]; exact hi, fun j hj => ?_⟩
      rcases eq_or_lt_of_le hj with rfl | hj
      · exact hnn
      · exact hp.nonnull j hj
    have hpm := (hf.levels i (hp.lt_levels hi)).1.mem
    obtain ⟨hs', e⟩ := hs.setUpper hne hpm hp.pos (Or.inr ⟨hh, hsrc⟩) fun _ hm => by
      refine Or.inr ((le_or_before (hs.head_next_mem (by decide))
        (G.order_mem_all hp.mem)).resolve_right fun hb => ?_)
      have := hs.inserting_of_passed hm hh hb
      rw [hp.inserting] at this
      cases this
    refine ⟨hs', e, ⟨?_, hf.evolve e hs⟩, le_rfl, rfl, Or.inl rfl, Or.inl rfl⟩
    refine ⟨hp.args, hp.mem, hp.ge, ?_, ?_, ?_, Nat.succ_pos _, hi, ?_⟩
    · rw [setNext_k]; exact hp.key
    · rw [setNext_level]; exact hp.level
    · rw [setNext_inserting]; exact hp.inserting
    · intro j hj
      exact e.nonnull _ hp.mem j (hsrc.nonnull j (Nat.le_of_lt_succ hj))
  · exact .still hs hne rfl (Or.inl rfl) (.locate hs ⟨hp, hi⟩)

theorem sound_finish (hs : Shape s.mem s.brk G) (h : Ok s.mem s.brk G (.finish f)) :
    Sound s G (.finish f)
      ({ s with mem := modify s.mem f.new fun x => { x with inserting := false } },
        .ret none) G := by
  obtain ⟨hs', e⟩ := hs.finish h.1
  exact ⟨hs', e, trivial, le_rfl, rfl, Or.inr (Or.inl rfl), Or.inl rfl⟩

end ConcurrentPQ.Linden

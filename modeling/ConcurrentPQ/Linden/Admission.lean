import ConcurrentPQ.Linden.Solo

/-!
# The keys insert admits

`insert` asserts that its key lies between the sentinels, but compares it with the 64-bit
`SENTINEL_KEYMAX`, while keys and the key of the tail have 32 bits.  And `pq_init` leaves the `next`
words of the tail as `malloc` left them.

* `Tidy.run_off` — a search that runs off behind the tail;
* `Admitted`, `History.reached` — the states reached with any key that passes the assertion;
* `admitted_iff` — **which keys are stored.**
-/

namespace ConcurrentPQ.Linden

open ConcurrentPQ.Segment Relation

/-- The calls that pass the assertions: any `uint32_t` but 0 as key, any level. -/
def Admitted : Op → Prop
  | .insert v lvl => (SENTINEL_KEYMIN < v ∧ v < 0x100000000) ∧ 1 ≤ lvl ∧ lvl ≤ NUM_LEVELS
  | .delete_min => True

instance : DecidablePred Admitted
  | .insert v lvl => inferInstanceAs (Decidable ((SENTINEL_KEYMIN < v ∧ v < 0x100000000) ∧
      1 ≤ lvl ∧ lvl ≤ NUM_LEVELS))
  | .delete_min => .isTrue trivial

section Search

variable {α : Type} {C : Collector α} {I : Bool → α → List (NodeId × ℕ) → Prop} {max_offset : ℤ}
  {Q : Config α → Prop} {s s₀ : Store α} {h : NodeId → ℕ} {G : Ghost} {f : Frame} {v lvl : ℕ}
  {l : List (Op × Option ℕ)}

/-- If nothing stops `locate_preds`, not even the tail, it follows a `next` pointer of the tail. -/
theorem Tidy.run_off (ht : Tidy s.mem h G) (hown : ∀ n ∈ G.all, s.Owned n)
    (hkeys : ∀ n ∈ G.nodes, (s.mem n).k < f.k)
    (htail : (s.mem tail).k < f.k ∨ ((s.mem tail).next 0).mark = true)
    (hQ : Q ⟨s, .crashed⟩) : Eventually (Next C max_offset) Q ⟨s, locate f .retry⟩ := by
  have htop : NUM_LEVELS - 1 < h head := by
    rw [ht.head_height]
    decide
  have hseg := ht.level (P := []) (i := NUM_LEVELS - 1) (by decide) ht.first htop
  have hmem : ∀ n ∈ onLevel h (NUM_LEVELS - 1) G.nodes, n ∈ G.nodes := fun n hn =>
    (mem_onLevel.mp hn).1
  obtain ⟨W, p, hlast⟩ : ∃ W p, head :: onLevel h (NUM_LEVELS - 1) G.nodes = W ++ [p] :=
    ⟨_, _, (List.dropLast_append_getLast (List.cons_ne_nil _ _)).symm⟩
  have hord : ∀ n ∈ head :: onLevel h (NUM_LEVELS - 1) G.nodes, n ∈ G.order := fun n hn => by
    rw [ht.first]
    exact List.mem_cons.mpr ((List.mem_cons.mp hn).imp id (hmem n))
  have hp : p ∈ G.order := hord p (hlast ▸ List.mem_append_right _ (List.mem_singleton_self p))
  have htown : s.Owned tail := Or.inr (Or.inl rfl)
  -- behind the last node of the topmost level the search goes on to the tail
  have hoff : ∀ d, Eventually (Next C max_offset) Q
      ⟨s, locBody { f with del := NULL } .retry (NUM_LEVELS - 1) tail d⟩ := by
    intro d
    have hup : ¬(NUM_LEVELS - 1 = 0 ∧ d = true) := fun hc => absurd hc.1 (by decide)
    rw [locBody, if_neg hup]
    refine Eventually.loadNext rfl rfl trivial htown ?_
    exact Eventually.crash rfl (fun hcheck => hcheck.1 rfl) hQ
  refine Eventually.walk (fun n hn => ⟨hown n (G.order_mem_all (hord n hn)), ht.ne_tail (hord n hn)⟩)
    hseg (fun hi => absurd hi (by decide)) (fun n hn => Or.inl (hkeys n (hmem n hn))) hlast ?_
  refine Eventually.loadKey rfl rfl (ht.ne_tail hp) htown ?_
  split
  · exact hoff _
  · rename_i hk
    refine Eventually.loadNext rfl rfl trivial htown ?_
    rw [if_pos (Or.inl (htail.resolve_left hk))]
    exact hoff _

/-- `insert` prepares its node and searches. -/
theorem Consistent.search (hC : Lawful C I) (hr : Consistent I true s h G)
    (hv : SENTINEL_KEYMIN < v ∧ v < 0x100000000) (hl : 1 ≤ lvl ∧ lvl ≤ NUM_LEVELS)
    (hQ : ∀ s' f, f.k = v → (∀ x ∈ G.all, s'.mem x = s.mem x ∧ s'.Owned x) →
      Eventually (Next C max_offset) Q ⟨s', locate f .retry⟩) :
    Eventually (Next C max_offset) Q ⟨s, .insAlloc v v lvl⟩ := by
  obtain ⟨hge, hfresh, -⟩ := hC.alloc s.col s.used (lvl - 1) hr.lawful (by omega)
  have hno : (C.alloc (lvl - 1) s.col).1 ∉ s.used.map Prod.fst := by
    intro hm
    obtain ⟨⟨x, c⟩, hx, he⟩ := List.mem_map.mp hm
    exact hfresh c (by rw [← he]; exact hx)
  have hnall : (C.alloc (lvl - 1) s.col).1 ∉ G.all := by
    intro hm
    rcases hr.tidy.owned hr.uses hm with he | he | he
    · rw [he] at hge
      exact absurd hge (by decide)
    · rw [he] at hge
      exact absurd hge (by decide)
    · exact hno he
  refine Eventually.access rfl ⟨⟨⟨hv.1, hv.2.trans (by decide)⟩, hl⟩, hno,
    hr.tidy.not_refers rfl hr.uses hge hno⟩ ?_
  refine Eventually.new_node (Or.inr (Or.inr List.mem_cons_self)) fun m hm => ?_
  refine hQ _ _ rfl fun x hx => ⟨hm.others x ?_, ?_⟩
  · rintro rfl
    exact hnall hx
  · exact (hr.tidy.owned hr.uses hx).imp id fun ho => ho.imp id fun ho => List.mem_cons_of_mem _ ho

/-- `insert` fails if nothing stops its search. -/
theorem Consistent.insert_crash (hC : Lawful C I) (hr : Consistent I true s h G)
    (hv : SENTINEL_KEYMIN < v ∧ v < 0x100000000) (hl : 1 ≤ lvl ∧ lvl ≤ NUM_LEVELS)
    (hkeys : ∀ n ∈ G.nodes, (s.mem n).k < v)
    (htail : (s.mem tail).k < v ∨ ((s.mem tail).next 0).mark = true) :
    Eventually (Next C max_offset) (fun c => c.pc = .crashed) ⟨s, .insAlloc v v lvl⟩ := by
  refine hr.search hC hv hl fun s' f hf hsame => ?_
  have hnode : ∀ n ∈ G.nodes, n ∈ G.all := fun n hn =>
    G.order_mem_all (hr.tidy.mem_order.mpr (Or.inr hn))
  have htail' : s'.mem tail = s.mem tail := (hsame tail (G.mem_all.mpr (Or.inr rfl))).1
  have ht : Tidy s'.mem h G := by
    refine ⟨hr.tidy.congr fun n hn => ?_, hr.tidy.pos⟩
    rw [(hsame n hn).1]
    exact ⟨rfl, rfl, rfl, rfl⟩
  refine ht.run_off (fun n hn => (hsame n hn).2) (fun n hn => ?_) ?_ rfl
  · rw [(hsame n (hnode n hn)).1, hf]
    exact hkeys n hn
  · rw [htail', hf]
    exact htail

/-- `deletemin` on a new queue, whatever the tail holds. -/
theorem Eventually.deletemin_new (hnext : (s.mem head).next 0 = ref tail)
    (hQ : Q ⟨s, .ret (some 0)⟩) : Eventually (Next C max_offset) Q ⟨s, .delObs⟩ := by
  refine Eventually.loadNext rfl rfl trivial (Or.inl rfl) ?_
  refine Eventually.loadNext rfl rfl trivial (Or.inl rfl) ?_
  dsimp only
  rw [hnext]
  exact .now hQ

end Search

/-! ### The states reached -/

section Reached

variable {α : Type} {C : Collector α} {I : Bool → α → List (NodeId × ℕ) → Prop} {max_offset : ℤ}
  {s s₀ : Store α} {G : Ghost} {L : Set ℕ} {l : List (Op × Option ℕ)}

/-- What the calls before have left: a queue at rest, which is as new if the word in its tail is
marked. -/
structure Reached (I : Bool → α → List (NodeId × ℕ) → Prop) (max_offset : ℤ) (s₀ s : Store α) : Prop where
  resting : ∃ G, Resting I max_offset false s G (liveKeys s.mem) ∧
    (((s.mem tail).next 0).mark = true → G = ⟨[], head, []⟩)
  tail_eq : s.mem tail = s₀.mem tail

/-- `insert` fails if the word in the tail is marked, or if its key lies above that of the tail. -/
theorem Resting.insert_crash (hC : Lawful C I) (hr : Resting I max_offset false s G L) {v lvl : ℕ}
    (hv : SENTINEL_KEYMIN < v ∧ v < 0x100000000) (hl : 1 ≤ lvl ∧ lvl ≤ NUM_LEVELS)
    (hoff : (((s.mem tail).next 0).mark = true ∧ G = ⟨[], head, []⟩) ∨ pkey SENTINEL_KEYMAX < v) :
    Eventually (Next C max_offset) (fun c => c.pc = .crashed) (enter C s (.insert v lvl)) := by
  obtain ⟨⟨h, hc⟩, -, -⟩ := hr
  refine (hc.enter hC).insert_crash hC hv hl (fun n hn => ?_) ?_
  · rcases hoff with ⟨-, rfl⟩ | hlt
    · exact absurd hn List.not_mem_nil
    · exact (hc.tidy.data n hn).2.2.1.trans hlt
  · rcases hoff with ⟨hm, -⟩ | hlt
    · exact Or.inr hm
    · exact Or.inl (hc.tidy.tail_k ▸ hlt)

/-- The run of a call that is sure to fail does not return. -/
theorem Eventually.not_ret {c : Config α} {s' : Store α} {r : Option ℕ}
    (h : Eventually (Next C max_offset) (fun c => c.pc = .crashed) c)
    (hrun : ReflTransGen (Next C max_offset) c ⟨s', .ret r⟩) : False := by
  have hcrash := h.of_final (fun c c' hc => Next.final (by rw [hc]; rfl)) hrun fun _ =>
    Next.final rfl
  cases hcrash

/-- **The states that calls with admitted keys lead to.** -/
theorem History.reached (hC : Lawful C I) (hs₀ : Resting I max_offset false s₀ ⟨[], head, []⟩ ∅)
    (hh : History C max_offset Admitted s₀ l s) : Reached I max_offset s₀ s := by
  induction hh with
  | nil => exact ⟨⟨_, ⟨hs₀.consistent, hs₀.dead, rfl⟩, fun _ => rfl⟩, rfl⟩
  | @call l s s' op r hh ho hrun ih =>
    obtain ⟨⟨G, hr, hG⟩, ht⟩ := ih
    have hret : ∀ c c' : Config α, (∃ r, c.pc = .ret r) → ¬Next C max_offset c c' := by
      rintro c c' ⟨r, hpc⟩
      exact Next.final (by rw [hpc]; rfl)
    cases hm : ((s.mem tail).next 0).mark with
    | true =>
      obtain rfl := hG hm
      cases op with
      | insert v lvl =>
        exact (Eventually.not_ret (hr.insert_crash hC ho.1 ho.2 (Or.inl ⟨hm, rfl⟩)) hrun).elim
      | delete_min =>
        obtain ⟨h, hc⟩ := hr.consistent
        have hnext : (s.mem head).next 0 = ref tail := by
          have hseg := hc.tidy.level (P := []) (S := []) (i := 0) (by decide) rfl
            (hc.tidy.pos _ hc.tidy.head_mem)
          rw [hc.tidy.word hc.tidy.head_mem (hc.tidy.pos _ hc.tidy.head_mem) fun _ =>
            hc.tidy.bound_mark]
          rw [show nxt s.mem 0 head = tail from hseg]
        have hev : Eventually (Next C max_offset)
            (fun c => c = ⟨{ s with col := C.enter s.col }, .ret (some 0)⟩)
            (enter C s .delete_min) := Eventually.deletemin_new hnext rfl
        have hs' := hev.of_final (fun c c' hc => hret c c' ⟨some 0, by rw [hc]⟩) hrun fun _ =>
          Next.final rfl
        obtain ⟨rfl, -⟩ := Config.mk.inj hs'
        have hr' : Resting I max_offset true { s with col := C.enter s.col } ⟨[], head, []⟩
            (liveKeys s.mem) := ⟨⟨h, hc.enter hC⟩, hr.dead, rfl⟩
        exact ⟨⟨_, hr'.leave hC, fun _ => rfl⟩, ht⟩
    | false =>
      obtain ⟨ht', G', hr'⟩ : s'.mem tail = s.mem tail ∧
          ∃ G', Resting I max_offset true s' G' (liveKeys s'.mem) := by
        cases op with
        | insert v lvl =>
          rcases le_or_gt v (pkey SENTINEL_KEYMAX) with hle | hgt
          · obtain ⟨-, ht', G', hr'⟩ := (hr.insert hC hm ⟨ho.1.1, hle⟩ ho.2).of_final
              (fun c c' hc => hret c c' ⟨_, hc.1⟩) hrun fun _ => Next.final rfl
            exact ⟨ht', G', hr'.consistent, hr'.dead, rfl⟩
          · exact (Eventually.not_ret (hr.insert_crash hC ho.1 ho.2 (Or.inr hgt)) hrun).elim
        | delete_min =>
          obtain ⟨ht', k, G', L', -, -, hr', -⟩ := (hr.deletemin hC hm).of_final
            (fun c c' hc => by
              obtain ⟨-, k, -, -, hpc, -⟩ := hc
              exact hret c c' ⟨_, hpc⟩) hrun fun _ => Next.final rfl
          exact ⟨ht', G', hr'.consistent, hr'.dead, rfl⟩
      refine ⟨⟨G', hr'.leave hC, fun hm' => ?_⟩, ht'.trans ht⟩
      have hfalse : ((s'.mem tail).next 0).mark = true := hm'
      rw [ht', hm] at hfalse
      cases hfalse

end Reached

/-! ### Which keys are stored -/

/-- `insert` has returned, and `k` is the key of a live node in front of the tail. -/
def Stored (k : ℕ) (c : Config Gc.State) : Prop := c.pc = .ret none ∧ k ∈ liveKeys c.st.mem

section Stored

variable {max_offset : ℤ} {s : Store Gc.State} {k lvl : ℕ} {G : Ghost} {L : Set ℕ}

theorem Stored.final {c c' : Config Gc.State} (h : Stored k c) :
    ¬Next Gc.collector max_offset c c' := Next.final (by rw [h.1]; rfl)

/-- `insert` follows a `next` pointer of the tail, or takes the tail for a node with its key. -/
theorem Resting.not_stored (hr : Resting Gc.Valid max_offset false s G L)
    (hk : SENTINEL_KEYMIN < k ∧ k < 0x100000000) (hl : 1 ≤ lvl ∧ lvl ≤ NUM_LEVELS)
    (hG : ((s.mem tail).next 0).mark = true → G = ⟨[], head, []⟩)
    (hoff : ((s.mem tail).next 0).mark = true ∨ 0xFFFFFFFE ≤ k) :
    ¬Eventually (Next Gc.collector max_offset) (Stored k)
      (enter Gc.collector s (.insert k lvl)) := by
  intro hev
  have hcrash : ∀ c : Config Gc.State, c.pc = .crashed → c.pc.running = false ∧ ¬Stored k c := by
    intro c hc
    refine ⟨by rw [hc]; rfl, fun hst => ?_⟩
    have hpc := hst.1
    rw [hc] at hpc
    cases hpc
  have hbad : Eventually (Next Gc.collector max_offset)
      (fun c => c.pc.running = false ∧ ¬Stored k c) (enter Gc.collector s (.insert k lvl)) := by
    cases hmark : ((s.mem tail).next 0).mark with
    | true =>
      exact (hr.insert_crash Gc.collector_lawful hk hl (Or.inl ⟨hmark, hG hmark⟩)).mono hcrash
    | false =>
      rw [hmark] at hoff
      rcases (hoff.resolve_left Bool.false_ne_true).eq_or_lt with rfl | hlt
      · refine (hr.insert Gc.collector_lawful hmark ⟨hk.1, le_rfl⟩ hl).mono fun c hc => ?_
        obtain ⟨hpc, -, G', ⟨h', hc'⟩, -, -⟩ := hc
        refine ⟨by rw [hpc]; rfl, fun hst => ?_⟩
        -- the keys of the live nodes lie below that of the tail
        obtain ⟨n, hn, he⟩ := hc'.tidy.mem_liveKeys.mp hst.2
        exact (hc'.tidy.data n (hc'.tidy.live_mem hn)).2.2.1.ne he
      · exact (hr.insert_crash Gc.collector_lawful hk hl (Or.inr hlt)).mono hcrash
  obtain ⟨c, hst, -, hno⟩ := hev.exists_both hbad (fun c c' hst => hst.final) fun c c' hc =>
    Next.final hc.1
  exact hno hst

end Stored

/-- **Which keys `insert` stores.**  In every state that calls with admitted keys lead to, `insert`
stores a key, without following a `next` pointer of the tail, if and only if `malloc` has left the
low bit of `tail->next[0]` clear and the key is below `0xFFFFFFFE`, the key of the tail. -/
theorem admitted_iff {max_offset : ℤ} {m : Mem} (hm : Made m) {l : List (Op × Option ℕ)}
    {s : Store Gc.State} (hh : History Gc.collector max_offset Admitted (pq_init m) l s) {k lvl : ℕ}
    (hk : SENTINEL_KEYMIN < k ∧ k < 0x100000000) (hl : 1 ≤ lvl ∧ lvl ≤ NUM_LEVELS) :
    Eventually (Next Gc.collector max_offset) (Stored k) (enter Gc.collector s (.insert k lvl)) ↔
      ((m tail).next 0).mark = false ∧ k < 0xFFFFFFFE := by
  obtain ⟨⟨G, hr, hG⟩, ht⟩ := hh.reached Gc.collector_lawful (hm.resting Gc.pq_init_valid)
  have ht : s.mem tail = m tail := ht
  rw [← ht]
  constructor
  · intro hev
    by_contra hno
    refine hr.not_stored hk hl hG ?_ hev
    rw [Classical.not_and_iff_not_or_not, Bool.not_eq_false, not_lt] at hno
    exact hno
  · rintro ⟨hmark, hlt⟩
    refine (hr.insert Gc.collector_lawful hmark ⟨hk.1, hlt.le⟩ hl).mono fun c hc => ?_
    obtain ⟨hpc, -, G', hr'⟩ := hc
    refine ⟨hpc, ?_⟩
    have hmax : pkey SENTINEL_KEYMAX = 0xFFFFFFFE := rfl
    rw [hr'.keys, hmax, if_pos hlt]
    exact Set.mem_insert k _

theorem admitted_iff_fresh :
    (Eventually (Next Gc.collector 0) (Stored 5)
      (enter Gc.collector (pq_init freshMem) (.insert 5 1)) ↔
        ((freshMem tail).next 0).mark = false ∧ 5 < 0xFFFFFFFE) ∧
    (Eventually (Next Gc.collector 0) (Stored 0xFFFFFFFE)
      (enter Gc.collector (pq_init freshMem) (.insert 0xFFFFFFFE 1)) ↔
        ((freshMem tail).next 0).mark = false ∧ 0xFFFFFFFE < 0xFFFFFFFE) :=
  ⟨admitted_iff freshMem_made .nil (by decide) (by decide),
    admitted_iff freshMem_made .nil (by decide) (by decide)⟩

/-- The key of the tail passes the assertion of `insert`, and is not stored. -/
theorem not_admitted : ¬∀ (max_offset : ℤ) (m : Mem) (l : List (Op × Option ℕ)) (s : Store Gc.State)
    (k lvl : ℕ), Made m → History Gc.collector max_offset Admitted (pq_init m) l s →
    SENTINEL_KEYMIN < k ∧ k < 0x100000000 → 1 ≤ lvl ∧ lvl ≤ NUM_LEVELS →
    Eventually (Next Gc.collector max_offset) (Stored k) (enter Gc.collector s (.insert k lvl)) := by
  intro hall
  have hr : Resting Gc.Valid 0 false (pq_init freshMem) ⟨[], head, []⟩ ∅ :=
    freshMem_made.resting Gc.pq_init_valid
  exact hr.not_stored (by decide) (by decide) (fun _ => rfl) (Or.inr le_rfl)
    (hall 0 freshMem [] _ 0xFFFFFFFE 1 freshMem_made .nil (by decide) (by decide))

end ConcurrentPQ.Linden

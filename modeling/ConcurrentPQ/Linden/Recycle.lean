import ConcurrentPQ.Linden.Grace

/-!
# Garbage is recycled

While all other threads are outside critical sections, a thread that enters and leaves one again and
again makes the epoch advance, and each advance empties the garbage rings of one epoch but for one chunk.

* `rounds` — a thread that enters and leaves;
* `Quiet`, `Quiet.round` — what one round does, `Ptst.due` counts the rounds until the next pass;
* `Quiet.rounds` — what many rounds do;
* `recycled_of_rounds` — **after 304 rounds no garbage ring has more than one chunk, and the others are in
  the lists of `gc_global`**;
* `exists_hoard` — a thread with garbage.
-/

namespace ConcurrentPQ.Allocator

open ConcurrentPQ.Transition ConcurrentPQ.Circle ConcurrentPQ.Epoch

variable {s s' : State} {L L' : Place → List Chunk} {t : Tid} {gc gc' : Ptst} {e m n : ℕ}

/-- Thread `t` enters a critical section and leaves it, `n` times. -/
def rounds (t : Tid) : ℕ → State → Option State
  | 0, s => some s
  | n + 1, s => do
    let (_, s) ← exec s t .critical_enter
    let (_, s) ← exec s t .critical_exit
    rounds t n s

/-- The garbage rings of epoch `e` have one chunk at most. -/
def Short (n : ℕ) (L : Place → List Chunk) (e : ℕ) : Prop :=
  ∀ u i, i < n → (L (.garbage u e i)).length ≤ 1

/-- The rounds until the next pass. -/
def Ptst.due (gc : Ptst) (current : ℕ) : ℕ :=
  if gc.epoch = current then 101 - gc.entries_since_reclaim.toNat else 102

theorem due_le {current : ℕ} : gc.due current ≤ 102 := by
  rw [Ptst.due]
  split
  · omega
  · exact Nat.le_refl _

/-- Thread `t` is between two rounds, and no thread is in a critical section. -/
structure Quiet (t : Tid) (s : State) (gc : Ptst) (L : Place → List Chunk) : Prop where
  books : Books s L
  calm : s.Calm
  outside : ∀ u, ¬s.Inside u
  ptst : s.ptst t = some gc
  count : gc.count = 1

theorem setPtst_setPtst : (s.setPtst t gc).setPtst t gc' = s.setPtst t gc' := by
  rw [State.setPtst, State.setPtst, State.setPtst, Function.update_idem]

theorem Quiet.level (h : Quiet t s gc L) : s.ptst_list.any s.behind = false := by
  rw [List.any_eq_false]
  intro u hu hbehind
  obtain ⟨gcu, hgcu⟩ := Option.ne_none_iff_exists'.mp ((h.books.listed u).mp hu)
  rw [State.behind, hgcu] at hbehind
  simp only [decide_eq_true_eq] at hbehind
  refine h.outside u ?_
  rw [State.Inside, reading_of hgcu, Ptst.reading, if_pos hbehind.1]
  exact Option.some_ne_none _

/-- The thread has entered and left, and only its epoch and its entries are others. -/
theorem Quiet.left (h : Quiet t s gc L) (epoch : ℕ) (entries : UInt32) (hle : entries ≤ 100) :
    exec (s.setPtst t { gc with count := gc.count + 1, epoch, entries_since_reclaim := entries }) t
        .critical_exit = some (none, s.setPtst t { gc with epoch, entries_since_reclaim := entries }) ∧
      Quiet t (s.setPtst t { gc with epoch, entries_since_reclaim := entries })
        { gc with epoch, entries_since_reclaim := entries } L := by
  have ho := h.books.owns t gc h.ptst
  have hexit : gc_exit { gc with count := gc.count + 1, epoch, entries_since_reclaim := entries } =
      { gc with epoch, entries_since_reclaim := entries } := by
    have hcount : gc.count + 1 - 1 = gc.count := by simp
    rw [gc_exit]
    dsimp only
    rw [hcount]
  refine ⟨?_, h.books.setPtst h.ptst ⟨ho.cache, ho.alloc, ho.garbage, ho.tail⟩,
    calm_update h.calm hle, fun u hu => ?_, Function.update_self _ _ _, h.count⟩
  · rw [exec, State.setPtst]
    dsimp only
    rw [Function.update_self, Option.bind_eq_bind, Option.bind_some, hexit]
    exact congrArg (fun s => some (none, s)) setPtst_setPtst
  · rw [State.Inside, State.setPtst, reading_update] at hu
    split at hu
    · refine hu ?_
      rw [Ptst.reading, h.count]
      exact if_neg (by decide)
    · exact h.outside u hu

theorem current_ne (m : ℕ) : m ≠ (m + 1) % NR_EPOCHS := by
  show m ≠ (m + 1) % 3
  omega

theorem exec_enter (ht : s.ptst t = some gc) {x : State} (hrun : gc_enter t 2 s = some x) :
    exec s t .critical_enter = some (none, x) := by
  rw [exec, critical_enter, ht]
  dsimp only
  rw [hrun]
  rfl

/-- What one round does. -/
structure Rounded (t : Tid) (s s' : State) (gc gc' : Ptst) (L L' : Place → List Chunk) : Prop where
  quiet : Quiet t s' gc' L'
  sizes : s'.global.nr_sizes = s.global.nr_sizes
  short : ∀ e, Short s.global.nr_sizes L e → Short s.global.nr_sizes L' e
  recycles : Recycles s.global.nr_sizes L L'
  progress : (gc'.due s'.global.current + 1 = gc.due s.global.current ∧
      s'.global.current = s.global.current) ∨
    (gc.due s.global.current = 1 ∧ gc'.due s'.global.current = 101 ∧
      s'.global.current = (s.global.current + 1) % NR_EPOCHS ∧
      Short s.global.nr_sizes L' s'.global.current)

theorem Quiet.rounds_succ (h : Quiet t s gc L) {epoch : ℕ} {entries : UInt32} (hle : entries ≤ 100)
    {s₀ : State} (ht : s₀.ptst t = some gc')
    (hrun : gc_enter t 2 s₀ = some (s.setPtst t { gc with
      count := gc.count + 1, epoch, entries_since_reclaim := entries })) (n : ℕ) :
    rounds t (n + 1) s₀ = rounds t n (s.setPtst t { gc with epoch, entries_since_reclaim := entries }) := by
  rw [rounds, exec_enter ht hrun, Option.bind_eq_bind, Option.bind_some]
  dsimp only
  rw [(h.left epoch entries hle).1, Option.bind_some]

theorem Passed.quiet (hp : Passed s s' L L') (h : Quiet t s gc L) :
    ∃ gc', Quiet t s' gc' L' ∧ gc' = { gc with garbage_tail := gc'.garbage_tail } := by
  obtain ⟨gc', hgc', hsame⟩ := hp.ptst t gc h.ptst
  refine ⟨gc', ⟨hp.books, hp.calm h.calm, fun u hu => ?_, hgc', ?_⟩, hsame⟩
  · rw [State.Inside, (hp.advance h.books).reading] at hu
    exact h.outside u hu
  · rw [hsame]
    exact h.count

/-- **One round.** -/
theorem Quiet.round (h : Quiet t s gc L) (n : ℕ) :
    ∃ s' gc' L', rounds t (n + 1) s = rounds t n s' ∧ Rounded t s s' gc gc' L L' := by
  have hzero : (0 : UInt32) ≤ 100 := UInt32.zero_le
  by_cases hepoch : gc.epoch = s.global.current
  · by_cases hlast : gc.entries_since_reclaim = 100
    · -- the garbage of the oldest epoch is reclaimed first
      have h₀ : Quiet t (s.setPtst t { gc with entries_since_reclaim := 0 })
          { gc with entries_since_reclaim := 0 } L := (h.left gc.epoch 0 hzero).2
      obtain ⟨s₁, L₁, hrun, hp⟩ : ∃ s₁ L₁,
          gc_reclaim (s.setPtst t { gc with entries_since_reclaim := 0 }) = some s₁ ∧
            Passed (s.setPtst t { gc with entries_since_reclaim := 0 }) s₁ L L₁ := by
        rcases gc_reclaim_spec h₀.books with ⟨hbehind, -⟩ | hpass
        · rw [h₀.level] at hbehind
          cases hbehind
        · exact hpass
      obtain ⟨gc₁, h₁, hsame⟩ := hp.quiet h₀
      have hcurrent : s₁.global.current = (s.global.current + 1) % NR_EPOCHS := hp.current
      have hepoch₁ : gc₁.epoch ≠ s₁.global.current := by
        rw [hcurrent, hsame]
        dsimp only
        rw [hepoch]
        exact current_ne _
      have hstart : gc_enter t 2 s = some (s₁.setPtst t { gc₁ with
          count := gc₁.count + 1, epoch := s₁.global.current, entries_since_reclaim := 0 }) := by
        rw [gc_enter, h.ptst, Option.bind_eq_bind, Option.bind_some]
        dsimp only
        rw [if_pos h.count, if_neg (not_not.mpr hepoch), if_pos hlast, hrun, Option.bind_eq_bind,
          Option.bind_some, gc_enter, h₁.ptst, Option.bind_eq_bind, Option.bind_some]
        dsimp only
        rw [if_pos h₁.count, if_pos hepoch₁]
      refine ⟨_, _, L₁, h₁.rounds_succ hzero h.ptst hstart n,
        ⟨(h₁.left s₁.global.current 0 hzero).2, hp.sizes, fun e he u i hi => ?_, hp.recycles,
          Or.inr ⟨?_, ?_, hcurrent, fun u i hi => ?_⟩⟩⟩
      · by_cases hadv : e = (s.global.current + 1) % NR_EPOCHS
        · rw [hadv]
          exact hp.short u i hi
        · rw [hp.spares u e i hadv]
          exact he u i hi
      · rw [Ptst.due, if_pos hepoch, hlast]
        rfl
      · exact if_pos rfl
      · show (L₁ (.garbage u s₁.global.current i)).length ≤ 1
        rw [hcurrent]
        exact hp.short u i hi
    · have hstart : gc_enter t 2 s = some (s.setPtst t { gc with
          count := gc.count + 1, epoch := gc.epoch,
          entries_since_reclaim := gc.entries_since_reclaim + 1 }) := by
        rw [gc_enter, h.ptst, Option.bind_eq_bind, Option.bind_some]
        dsimp only
        rw [if_pos h.count, if_neg (not_not.mpr hepoch), if_neg hlast]
      have hle := entries_succ (h.calm t gc h.ptst) hlast
      refine ⟨_, _, L, h.rounds_succ hle h.ptst hstart n, ⟨(h.left _ _ hle).2, rfl, fun _ he => he,
        Recycles.refl, Or.inl ⟨?_, rfl⟩⟩⟩
      show (if gc.epoch = s.global.current then 101 - (gc.entries_since_reclaim + 1).toNat else 102) + 1 = _
      have hle' := UInt32.le_iff_toNat_le.mp (h.calm t gc h.ptst)
      have hne : gc.entries_since_reclaim.toNat ≠ 100 := fun he => hlast (UInt32.toNat_inj.mp he)
      rw [Ptst.due, if_pos hepoch, if_pos hepoch, UInt32.toNat_add]
      simp only [UInt32.reduceToNat] at hle' ⊢
      omega
  · have hstart : gc_enter t 2 s = some (s.setPtst t { gc with
        count := gc.count + 1, epoch := s.global.current, entries_since_reclaim := 0 }) := by
      rw [gc_enter, h.ptst, Option.bind_eq_bind, Option.bind_some]
      dsimp only
      rw [if_pos h.count, if_pos hepoch]
    refine ⟨_, _, L, h.rounds_succ hzero h.ptst hstart n, ⟨(h.left _ _ hzero).2, rfl, fun _ he => he,
      Recycles.refl, Or.inl ⟨?_, rfl⟩⟩⟩
    have hdue : gc.due s.global.current = 102 := if_neg hepoch
    rw [hdue]
    show (if s.global.current = s.global.current then 101 - 0 else 102) + 1 = 102
    rw [if_pos rfl]

/-- **Many rounds**: the passes come every 101 rounds, and each of them reclaims the next epoch. -/
theorem Quiet.rounds (h : Quiet t s gc L) (n : ℕ) :
    ∃ s' gc' L', rounds t n s = some s' ∧ Quiet t s' gc' L' ∧
      s'.global.nr_sizes = s.global.nr_sizes ∧
      (∀ e, Short s.global.nr_sizes L e → Short s.global.nr_sizes L' e) ∧
      Recycles s.global.nr_sizes L L' ∧ ∀ j, gc.due s.global.current + 101 * j ≤ n →
        Short s.global.nr_sizes L' ((s.global.current + (j + 1)) % NR_EPOCHS) := by
  induction n generalizing s gc L with
  | zero =>
    refine ⟨s, gc, L, rfl, h, rfl, fun _ he => he, Recycles.refl, fun j hj => ?_⟩
    have hdue : 0 < gc.due s.global.current := by
      have hle := UInt32.le_iff_toNat_le.mp (h.calm t gc h.ptst)
      rw [Ptst.due]
      simp only [UInt32.reduceToNat] at hle
      split
      · omega
      · decide
    omega
  | succ n ih =>
    obtain ⟨s₁, gc₁, L₁, hrun, hr⟩ := h.round n
    obtain ⟨s', gc', L', hrun', hq, hsizes, hshort, hrecycles, hdone⟩ := ih hr.quiet
    rw [hr.sizes] at hsizes hshort hrecycles hdone
    refine ⟨s', gc', L', hrun.trans hrun', hq, hsizes, fun e he => hshort e (hr.short e he),
      hr.recycles.trans hrecycles, fun j hj => ?_⟩
    rcases hr.progress with ⟨hdue, hcurrent⟩ | ⟨hdue, hdue₁, hcurrent, hpass⟩
    · rw [hcurrent] at hdone hdue
      exact hdone j (by omega)
    · cases j with
      | zero => exact hshort _ (hcurrent ▸ hpass)
      | succ j =>
        rw [hdue₁, hcurrent] at hdone
        have := hdone j (by omega)
        rw [Nat.mod_add_mod] at this
        rwa [show s.global.current + (j + 1 + 1) = s.global.current + 1 + (j + 1) by omega]

/-- A thread that enters for the first time. -/
theorem exists_quiet (hb : Books s L) (hs : s.Calm) (hout : ∀ u, ¬s.Inside u)
    (hcount : ∀ gc, s.ptst t = some gc → gc.count = 1) :
    ∃ s' gc' L', Quiet t s' gc' L' ∧ s'.global.nr_sizes = s.global.nr_sizes ∧
      (∀ n, 0 < n → rounds t n s = rounds t n s') ∧
      ∀ u e i, L' (.garbage u e i) = L (.garbage u e i) ∨ L (.garbage u e i) = [] := by
  cases ht : s.ptst t with
  | some gc =>
    exact ⟨s, gc, L, ⟨hb, hs, hout, ht, hcount gc ht⟩, rfl, fun _ _ => rfl, fun _ _ _ => Or.inl rfl⟩
  | none =>
    obtain ⟨h', g', gc', L', hrun, hw, ha, hsame, hone, hentries, hzero⟩ := gc_init_spec hb ht
    have hb' := hb.of_working (t :: s.ptst_list) hw ha (fun u => List.mem_cons) hsame
    refine ⟨_, gc', L', ⟨hb', calm_update hs (by rw [hzero]; exact UInt32.zero_le), fun u hu => ?_,
      Function.update_self _ _ _, hone⟩, by rw [hsame], fun n hn => ?_, fun u e i => ?_⟩
    · rw [State.Inside, reading_update] at hu
      split at hu
      · refine hu ?_
        rw [Ptst.reading, hone]
        exact if_neg (by decide)
      · exact hout u hu
    · obtain ⟨n, rfl⟩ := Nat.exists_eq_succ_of_ne_zero (Nat.ne_of_gt hn)
      rw [rounds, rounds]
      have hexec : exec s t .critical_enter = exec ⟨h', g', t :: s.ptst_list,
          Function.update s.ptst t (some gc'), s.held⟩ t .critical_enter := by
        rw [exec, exec, critical_enter, critical_enter, ht]
        dsimp only
        rw [Function.update_self, hrun]
        rfl
      rw [hexec]
    · by_cases hu : u = t
      · rw [hu]
        exact Or.inr (hb.unborn t ht _ rfl)
      · exact Or.inl (ha (.garbage u e i) hu)

theorem Initial.calm (hs : Initial s) : s.Calm := by
  obtain ⟨next, blk, node, h, g, hrun, rfl⟩ := hs
  exact fun t gc ht => by cases ht

theorem Reachable.calm (h : Reachable allocator s) : s.Calm := by
  obtain ⟨tr, hrun⟩ := h
  have hinv := hrun.invariant (I := fun s => (∃ L, Books s L) ∧ s.Calm)
    (fun s (hs : Initial s) => ⟨hs.books, hs.calm⟩) ?_
  · exact hinv.2
  · intro s t c s' ⟨⟨L, hb⟩, hs⟩ hstep
    obtain ⟨L', hcarried⟩ := hb.step hstep
    exact ⟨⟨L', hcarried.books⟩, hcarried.calm hs⟩

/-- **Garbage is recycled.**  If no thread is in a critical section and thread `t`, which has left as many
as it has entered, enters and leaves one 304 times or more, then each garbage ring consists of one chunk,
and each other chunk that was garbage is in the list of its size class of `gc_global`. -/
theorem recycled_of_rounds (h : Reachable allocator s) (hout : ∀ u, ¬s.Inside u)
    (hcount : ∀ gc, s.ptst t = some gc → gc.count = 1) (hn : 304 ≤ n) :
    ∃ s', rounds t n s = some s' ∧ ∀ u e i g, e < NR_EPOCHS → i < s.global.nr_sizes →
      (s'.pointer (.garbage u e i) = some g → s'.heap.next g = g) ∧
      ∀ m, s.pointer (.garbage u e i) = some g →
        s'.pointer (.garbage u e i) = some (s.heap.next^[m] g) ∨
        ∃ k, s'.heap.next^[k] (s'.global.alloc i) = s.heap.next^[m] g := by
  obtain ⟨L, hb⟩ := Reachable.books h
  obtain ⟨s₁, gc₁, L₁, hq, hsizes₁, hstart, hsame⟩ := exists_quiet hb (Reachable.calm h) hout hcount
  obtain ⟨s', gc', L', hrun, hq', hsizes, -, hrecycles, hdone⟩ := hq.rounds n
  rw [hsizes₁] at hsizes hrecycles hdone
  refine ⟨s', (hstart n (by omega)).trans hrun, fun u e i g he hi => ?_⟩
  have hdue : gc₁.due s₁.global.current ≤ 102 := due_le
  -- each epoch is the first, the second or the third to be reclaimed
  have hshort : Short s.global.nr_sizes L' e := by
    have h₀ := hdone 0 (by omega)
    have h₁ := hdone 1 (by omega)
    have h₂ := hdone 2 (by omega)
    have hcases : e = (s₁.global.current + (0 + 1)) % 3 ∨ e = (s₁.global.current + (1 + 1)) % 3 ∨
        e = (s₁.global.current + (2 + 1)) % 3 := by
      have : e < 3 := he
      omega
    rcases hcases with rfl | rfl | rfl
    · exact h₀
    · exact h₁
    · exact h₂
  have hlen := hshort u i hi
  have hone : ∀ c ∈ L' (.garbage u e i), L' (.garbage u e i) = [c] := by
    intro c hc
    obtain ⟨d, hd⟩ := List.length_eq_one_iff.mp
      (Nat.le_antisymm hlen (List.length_pos_of_mem hc))
    rw [hd, List.mem_singleton] at hc
    rw [hd, hc]
  refine ⟨fun hg => ?_, fun m hg => ?_⟩
  · rw [hq'.books.pointer] at hg
    have hcirc := hq'.books.shared.stock.rings.circ (.garbage u e i)
    rw [hone g (List.mem_of_mem_head? hg)] at hcirc
    exact circ_singleton.mp hcirc
  · rw [hb.pointer] at hg
    have hmem := (hb.shared.stock.rings.circ _).iterate_mem (List.mem_of_mem_head? hg) m
    have hmem₁ : s.heap.next^[m] g ∈ L₁ (.garbage u e i) := by
      rcases hsame u e i with heq | hnil
      · rw [heq]
        exact hmem
      · rw [hnil] at hmem
        cases hmem
    rcases (hrecycles i hi).2 u e _ hmem₁ with hstay | hgone
    · left
      rw [hq'.books.pointer, hone _ hstay]
      rfl
    · right
      obtain ⟨x, hx⟩ := List.head?_eq_some_iff.mp (hq'.books.shared.main i (hsizes ▸ hi))
      have hcirc := hq'.books.shared.stock.rings.circ (.main i)
      rw [hx] at hcirc hgone
      exact hcirc.exists_iterate hgone

/-! ### Garbage of one thread -/

/-- Thread 7 enters, gets `n` blocks of a size class and frees each of them. -/
theorem exists_hoard (n : ℕ) : ∃ (s : State) (L : Place → List Chunk) (e : ℕ) (bs : List Block),
    Reachable allocator s ∧ Books s L ∧ s.global.nr_sizes = NUM_LEVELS ∧ e < NR_EPOCHS ∧
    s.epochs.reading 7 = some e ∧ (∀ u, u ≠ 7 → s.epochs.reading u = none) ∧ bs.Nodup ∧ bs.length = n ∧
    ∀ b ∈ bs, b ∈ s.garbage L 7 e 3 := by
  induction n with
  | zero =>
    obtain ⟨s₀, hs₀, hn₀⟩ := exists_initial
    obtain ⟨L₀, hb₀⟩ := hs₀.books
    obtain ⟨s, L, e, hstep, hb, he, hn, hturn, -⟩ := hb₀.register (hs₀.born 7)
    have hlag := hs₀.lag.turn hturn
    refine ⟨s, L, e, [], ⟨_, (Run.start hs₀).step hstep⟩, hb, hn.trans hn₀, (hlag.reading 7 e he).1, he,
      fun u hu => ?_, List.nodup_nil, rfl, fun b hb => absurd hb List.not_mem_nil⟩
    rw [hturn.others hu]
    show (s₀.ptst u).bind Ptst.reading = none
    rw [hs₀.born u]
    rfl
  | succ n ih =>
    obtain ⟨s, L, e, bs, ⟨tr, hrun⟩, hb, hn, hepoch, he, hout, hnodup, hlen, hbs⟩ := ih
    obtain ⟨b, s₁, s₂, L', hstep₁, hstep₂, hb', -, hread, hn', hnew, hfreed, hkeep⟩ :=
      hb.alloc_free he (show 3 < s.global.nr_sizes by rw [hn]; decide)
    refine ⟨s₂, L', e, b :: bs, ⟨_, (hrun.step hstep₁).step hstep₂⟩, hb', hn'.trans hn,
      hepoch, by rw [hread, he], fun u hu => by rw [hread, hout u hu],
      List.nodup_cons.mpr ⟨fun hmem => ?_, hnodup⟩, congrArg (· + 1) hlen, fun x hx => ?_⟩
    · obtain ⟨c, k, hc, hk, hblk⟩ := hbs b hmem
      obtain ⟨u, gc, i, g, m, j, hin⟩ := hb.mem_limbo.mpr ⟨7, 3, c, k, hc, hk, hblk⟩
      exact hnew ⟨u, gc, e, i, g, m, j, hin⟩
    · rcases List.mem_cons.mp hx with rfl | hx
      · exact hfreed
      · exact hkeep 7 e 3 (hbs x hx)

/-- A chunk has no more than 100 blocks. -/
theorem Books.two_chunks {bs : List Block} (hb : Books s L) (hnodup : bs.Nodup)
    (hlen : BLKS_PER_CHUNK < bs.length) (hbs : ∀ b ∈ bs, b ∈ s.garbage L t e m) :
    ∃ g c l, L (.garbage t e m) = g :: c :: l := by
  match hl : L (.garbage t e m) with
  | [] =>
    obtain ⟨b, hmem⟩ := List.exists_mem_of_length_pos (Nat.zero_lt_of_lt hlen)
    obtain ⟨c, k, hc, -⟩ := hbs b hmem
    rw [hl] at hc
    cases hc
  | [g] =>
    have hsub : bs ⊆ (List.range BLKS_PER_CHUNK).map (s.heap.blk g) := by
      intro b hmem
      obtain ⟨c, k, hc, ⟨n, hn, hk⟩, hblk⟩ := hbs b hmem
      rw [hl, List.mem_singleton] at hc
      rw [hc] at hn hblk
      have hsmall := hb.shared.stock.small g n hn
      exact List.mem_map.mpr ⟨k, List.mem_range.mpr (Nat.lt_of_lt_of_le hk hsmall), hblk⟩
    have hle := hnodup.length_le_of_subset hsub
    rw [List.length_map, List.length_range] at hle
    exact absurd hlen (Nat.not_lt.mpr hle)
  | g :: c :: l => exact ⟨g, c, l, rfl⟩

/-- A thread leaves all the critical sections it has entered. -/
theorem Reachable.leave (hs : Reachable allocator s) (ht : s.ptst t = some gc)
    (hcount : gc.count.toNat = n + 1) : Reachable allocator (s.setPtst t { gc with count := 1 }) := by
  induction n generalizing s gc with
  | zero =>
    have hone : gc.count = 1 := UInt32.toNat_inj.mp hcount
    have hsame : s.setPtst t { gc with count := 1 } = s := by
      rw [← hone, State.setPtst]
      exact congrArg (State.mk s.heap s.global s.ptst_list · s.held) (Function.update_eq_self_iff.mpr ht.symm)
    rw [hsame]
    exact hs
  | succ n ih =>
    obtain ⟨tr, hrun⟩ := hs
    have hp : Permitted s t .critical_exit := by
      rw [Permitted, ht]
      exact Option.some_ne_none gc
    have hexec : exec s t .critical_exit = some (none, s.setPtst t (gc_exit gc)) := by
      rw [exec, ht]
      rfl
    have hstep : allocator.step s t (.critical_exit, none) (s.setPtst t (gc_exit gc)) := ⟨hp, hexec⟩
    have hle : (1 : UInt32) ≤ gc.count := by
      rw [UInt32.le_iff_toNat_le, hcount]
      exact Nat.le_add_left 1 _
    have hcount' : (gc_exit gc).count.toNat = n + 1 := by
      rw [gc_exit, UInt32.toNat_sub_of_le _ _ hle, hcount]
      rfl
    have hleft := ih ⟨_, hrun.step hstep⟩ (Function.update_self _ _ _) hcount'
    rwa [setPtst_setPtst] at hleft

/-- Thread 7 has 101 garbage blocks when it has left, and recycles a chunk of them. -/
theorem recycled_of_rounds_hoard :
    ∃ s s' e g, Reachable allocator s ∧ e < NR_EPOCHS ∧ s.pointer (.garbage 7 e 3) = some g ∧
      s.heap.next g ≠ g ∧ rounds 7 304 s = some s' ∧ ∀ u e i g, e < NR_EPOCHS → i < s.global.nr_sizes →
      (s'.pointer (.garbage u e i) = some g → s'.heap.next g = g) ∧
      ∀ m, s.pointer (.garbage u e i) = some g →
        s'.pointer (.garbage u e i) = some (s.heap.next^[m] g) ∨
        ∃ k, s'.heap.next^[k] (s'.global.alloc i) = s.heap.next^[m] g := by
  obtain ⟨s, L, e, bs, hs, hb, hn, hepoch, he, hout, hnodup, hlen, hbs⟩ := exists_hoard 101
  obtain ⟨g, c, l, hl⟩ := hb.two_chunks hnodup (by rw [hlen]; decide) hbs
  obtain ⟨gc, hgc⟩ : ∃ gc, s.ptst 7 = some gc := by
    refine Option.ne_none_iff_exists'.mp fun hnone => ?_
    rw [hb.unborn 7 hnone (.garbage 7 e 3) rfl] at hl
    cases hl
  rw [reading_of hgc, Ptst.reading, Option.ite_none_right_eq_some] at he
  obtain ⟨hcount, -⟩ := he
  have ho := hb.owns 7 gc hgc
  have hb' : Books (s.setPtst 7 { gc with count := 1 }) L :=
    hb.setPtst hgc ⟨ho.cache, ho.alloc, ho.garbage, ho.tail⟩
  obtain ⟨n, hn'⟩ : ∃ n, gc.count.toNat = n + 1 :=
    Nat.exists_eq_succ_of_ne_zero (Nat.ne_of_gt (Nat.zero_lt_of_lt (UInt32.lt_iff_toNat_lt.mp hcount)))
  have hs' : Reachable allocator (s.setPtst 7 { gc with count := 1 }) := Reachable.leave hs hgc hn'
  have hout' : ∀ u, ¬(s.setPtst 7 { gc with count := 1 }).Inside u := by
    intro u hu
    rw [State.Inside, State.setPtst, reading_update] at hu
    split at hu
    · exact hu rfl
    · next hne => exact hu (hout u hne)
  have hcount' : ∀ gc', (s.setPtst 7 { gc with count := 1 }).ptst 7 = some gc' → gc'.count = 1 := by
    intro gc' hgc'
    rw [State.setPtst] at hgc'
    dsimp only at hgc'
    rw [Function.update_self] at hgc'
    cases hgc'
    rfl
  obtain ⟨s', hrun, hrecycled⟩ := recycled_of_rounds hs' hout' hcount' (Nat.le_refl 304)
  refine ⟨_, s', e, g, hs', hepoch, ?_, ?_, hrun, hrecycled⟩
  · rw [hb'.pointer, hl]
    rfl
  · -- the ring has a second chunk
    have hcirc := hb.shared.stock.rings.circ (.garbage 7 e 3)
    have hne := hb.shared.stock.rings.nodup (.garbage 7 e 3)
    rw [hl] at hcirc hne
    have hnext : s.heap.next g = c := (circ_cons.mp hcirc).1
    intro heq
    rw [show s.heap.next g = g from heq] at hnext
    rw [hnext] at hne
    exact (List.nodup_cons.mp hne).1 List.mem_cons_self

end ConcurrentPQ.Allocator

import ConcurrentPQ.Linden.CollectorRun
import ConcurrentPQ.Linden.CustodyStep

/-!
# Blocks that have been retired

A block is an entry of a chunk, or held by a client, or handed to a `gc_free` that has not stored it yet, and
it is in one of these places only.  The retired blocks of an epoch are those in the garbage rings of that
epoch, and those that a thread of that epoch is freeing.

* `Spot`, `State.At`, `Distinct` — where the blocks are;
* `Deal`, `Step.deal` — what a step does with the blocks;
* `Distinct.deal` — **no block gets into two places**;
* `State.limbo`, `limbo_step` — the retired blocks of an epoch, and that only `gc_reclaim` gives them up;
* `not_recycled_of_recorded` — **no block is recycled under a reader**, as long as no thread frees a block
  two epochs late;
* `exists_recycled_under_reader` — a thread that does.
-/

namespace ConcurrentPQ.Collector

open ConcurrentPQ.Transition ConcurrentPQ.Announce
open ConcurrentPQ.Allocator (Chunk Block Ptst BLKS_PER_CHUNK NR_EPOCHS)

variable {n : ℕ} {s s' s₀ s₁ x : State n} {t u v w : Tid} {c d : Chunk} {b p : Block} {r : Option Block}
  {pc q : Pc n} {sz k j e : ℕ} {m : Move n} {body : Chunks.Lst n → List Chunk} {O O' : Tid → List Chunk}
  {L L' : Place n → List Chunk}

/-! ### Where the blocks are -/

/-- A place for a block. -/
inductive Spot where
  | entry (c : Chunk) (k : ℕ)
  | held
  | pending (t : Tid)

/-- The block is there. -/
def State.At (s : State n) : Spot → Block → Prop
  | .entry c k, b => s.Live c k ∧ s.blk c k = b
  | .held, b => s.held b = true
  | .pending t, b => ∃ f, (s.pc t).freeing = some f ∧ f.p = b

/-- Each block is in one place. -/
structure Distinct (s : State n) : Prop where
  one : ∀ b σ τ, s.At σ b → s.At τ b → σ = τ
  below : ∀ b σ, s.At σ b → b < s.node

theorem at_iff (hi : s'.i = s.i) (hblk : s'.blk = s.blk) (hheld : s'.held = s.held)
    (hfree : ∀ u, (s'.pc u).freeing = (s.pc u).freeing) (σ : Spot) : s'.At σ b ↔ s.At σ b := by
  cases σ with
  | entry c k => rw [State.At, State.At, State.Live, State.Live, hi, hblk]
  | held => rw [State.At, State.At, hheld]
  | pending u => rw [State.At, State.At, hfree u]

/-- **One block changes places.** -/
theorem Distinct.move {S T : Spot} (h : Distinct s) (hnode : s'.node = s.node)
    (hat : ∀ b σ, s'.At σ b → s.At σ b ∨ (b = p ∧ σ = T)) (hold : s.At S p) (hgone : ¬s'.At S p) :
    Distinct s' := by
  have hp : ∀ σ, s'.At σ p → σ = T := by
    intro σ hσ
    cases hat p σ hσ with
    | inl hs => exact absurd (h.one p σ S hs hold ▸ hσ) hgone
    | inr hs => exact hs.2
  refine ⟨fun b σ τ hσ hτ => ?_, fun b σ hσ => ?_⟩
  · by_cases hb : b = p
    · rw [hb] at hσ hτ
      rw [hp σ hσ, hp τ hτ]
    · have hσ' := (hat b σ hσ).resolve_right fun hs => hb hs.1
      have hτ' := (hat b τ hτ).resolve_right fun hs => hb hs.1
      exact h.one b σ τ hσ' hτ'
  · rw [hnode]
    cases hat b σ hσ with
    | inl hs => exact h.below b σ hs
    | inr hs => exact hs.1 ▸ h.below p S hold

/-- Blocks are only lost. -/
theorem Distinct.mono (h : Distinct s) (hnode : s'.node = s.node) (hat : ∀ b σ, s'.At σ b → s.At σ b) :
    Distinct s' :=
  ⟨fun b σ τ hσ hτ => h.one b σ τ (hat b σ hσ) (hat b τ hτ), fun b σ hσ => hnode ▸ h.below b σ (hat b σ hσ)⟩

/-! ### New blocks -/

/-- A chunk of `get_filled_chunks`. -/
def State.fillOne (s : State n) (sz : ℕ) (c : Chunk) : State n :=
  { s with
    i := Function.update s.i c (some BLKS_PER_CHUNK)
    blk := Function.update s.blk c fun k => if k < BLKS_PER_CHUNK then s.node + k * sz else s.blk c k
    node := s.node + BLKS_PER_CHUNK * sz }

theorem fillOne_at {σ : Spot} (h : (s.fillOne sz c).At σ b) :
    (s.At σ b ∧ ∀ k, σ ≠ .entry c k) ∨ ∃ k, k < BLKS_PER_CHUNK ∧ σ = .entry c k ∧ b = s.node + k * sz := by
  cases σ with
  | held => exact Or.inl ⟨h, nofun⟩
  | pending u => exact Or.inl ⟨h, nofun⟩
  | entry d j =>
    obtain ⟨⟨m, hm, hj⟩, hb⟩ := h
    by_cases hd : d = c
    · rw [hd] at hm hb ⊢
      rw [State.fillOne] at hm hb
      dsimp only at hm hb
      rw [Function.update_self] at hm hb
      have hj' : j < BLKS_PER_CHUNK := Option.some.inj hm ▸ hj
      rw [if_pos hj'] at hb
      exact Or.inr ⟨j, hj', rfl, hb.symm⟩
    · rw [State.fillOne] at hm hb
      dsimp only at hm hb
      rw [Function.update_of_ne hd] at hm hb
      exact Or.inl ⟨⟨⟨m, hm, hj⟩, hb⟩, fun k he => hd (Spot.entry.inj he).1⟩

theorem Distinct.fillOne (h : Distinct s) (hsz : 0 < sz) : Distinct (s.fillOne sz c) := by
  have hnew : ∀ b σ, s.At σ b → ∀ k, b ≠ s.node + k * sz := fun b σ hσ k he =>
    absurd (h.below b σ hσ) (by rw [he]; exact Nat.not_lt.mpr (Nat.le_add_right _ _))
  refine ⟨fun b σ τ hσ hτ => ?_, fun b σ hσ => ?_⟩
  · rcases fillOne_at hσ with ⟨hσ, -⟩ | ⟨k, -, rfl, hb⟩
    · rcases fillOne_at hτ with ⟨hτ, -⟩ | ⟨k, -, -, hb⟩
      · exact h.one b σ τ hσ hτ
      · exact absurd hb (hnew b σ hσ k)
    · rcases fillOne_at hτ with ⟨hτ, -⟩ | ⟨j, -, rfl, hb'⟩
      · exact absurd hb (hnew b τ hτ k)
      · have he : k * sz = j * sz := Nat.add_left_cancel (hb.symm.trans hb')
        rw [Nat.eq_of_mul_eq_mul_right hsz he]
  · show b < s.node + BLKS_PER_CHUNK * sz
    rcases fillOne_at hσ with ⟨hσ, -⟩ | ⟨k, hk, -, hb⟩
    · exact Nat.lt_of_lt_of_le (h.below b σ hσ) (Nat.le_add_right _ _)
    · rw [hb]
      exact Nat.add_lt_add_left (Nat.mul_lt_mul_of_pos_right hk hsz) _

theorem fill_cons {l : List Chunk} : fill sz s (c :: l) = fill sz (s.fillOne sz c) l := rfl

/-- `get_filled_chunks` takes new blocks. -/
theorem Distinct.fill {l : List Chunk} (h : Distinct s) (hsz : 0 < sz) : Distinct (fill sz s l) := by
  induction l generalizing s with
  | nil => exact h
  | cons c l ih =>
    rw [fill_cons]
    exact ih (h.fillOne hsz)

/-- Other chunks are not filled. -/
theorem fill_of_notMem (sz : ℕ) (s : State n) {l : List Chunk} (hc : c ∉ l) :
    (fill sz s l).i c = s.i c ∧ (fill sz s l).blk c = s.blk c := by
  induction l generalizing s with
  | nil => exact ⟨rfl, rfl⟩
  | cons d l ih =>
    rw [List.mem_cons, not_or] at hc
    rw [fill_cons]
    obtain ⟨hi, hblk⟩ := ih (s.fillOne sz d) hc.2
    exact ⟨hi.trans (Function.update_of_ne hc.1 _ _), hblk.trans (Function.update_of_ne hc.1 _ _)⟩

/-! ### What a step does with the blocks -/

/-- The chunk that `chunk_from_cache` returns. -/
def Pc.cached : Pc n → Option Chunk
  | .frFetch _ _ c | .frSelf _ _ c => some c
  | _ => none

/-- What a step does with the blocks, `r` being what is returned. -/
inductive Deal (s : State n) (t : Tid) (s' : State n) : Option Block → Prop
  | same (hi : s'.i = s.i) (hblk : s'.blk = s.blk) (hheld : s'.held = s.held) (hnode : s'.node = s.node)
      (hfree : (s'.pc t).freeing = (s.pc t).freeing) : Deal s t s' none
  | free (p : Block) (i : Fin n) (hpc : s.pc t = .idle) (hheld : s.held p = true)
      (hs : s' = (s.setHeld p false).goto t (.frGarbage ⟨p, i⟩)) : Deal s t s' none
  | take (i : Fin n) (k : ℕ) (hpc : s.pc t = .alTake i) (hi : s.i ((s.ptst t).alloc i) = some (k + 1))
      (hs : s' = ((s.setI ((s.ptst t).alloc i) k).setHeld (s.blk ((s.ptst t).alloc i) k) true).goto t .idle) :
      Deal s t s' (some (s.blk ((s.ptst t).alloc i) k))
  | put (f : Freeing n) (c : Chunk) (j : ℕ) (hpc : s.pc t = .frPut f c) (hi : s.i c = some j)
      (hs : s' = ((s.setBlk c j f.p).setI c (j + 1)).goto t .idle) : Deal s t s' none
  | clear (c : Chunk) (hpc : (s.pc t).cached = some c) (hi : s'.i = Function.update s.i c (some 0))
      (hblk : s'.blk = s.blk) (hheld : s'.held = s.held) (hnode : s'.node = s.node)
      (hfree : (s'.pc t).freeing = (s.pc t).freeing) : Deal s t s' none
  | fill (i : Fin n) (rh rt : Chunk) (seen : List Chunk) (lists : Chunks.State n)
      (hpc : s.lists.pc t = .emClose (.get_filled_chunks i) rh rt seen)
      (hl : lists.next = Function.update s.lists.next rt rh)
      (hbrk : lists.brk = s.lists.brk)
      (hs : s' = fill (s.blk_sizes i) { s with lists := lists } (State.ring { s with lists := lists } rh)) :
      Deal s t s' none

theorem sweep_freeing {l : List (Tid × Fin n)} : (sweep c l).freeing = none := by
  cases l <;> rfl

theorem scan_freeing {f l : List Tid} : (scan (n := n) c f l).freeing = none := by
  cases l with
  | nil => exact sweep_freeing
  | cons v l => rfl

/-- The functions that are not on the shared lists. -/
theorem code_deal (h : code s t = some (r, s')) : Deal s t s' r := by
  have hgoto : ∀ {p q : Pc n} {x : State n}, s.pc t = p → q.freeing = p.freeing → x.i = s.i → x.blk = s.blk →
      x.held = s.held → x.node = s.node → Deal s t (x.goto t q) none := fun hpc hq hi hblk hheld hnode =>
    .same hi hblk hheld hnode (by rw [goto_pc, hpc]; exact hq)
  rw [code] at h
  cases hpc : s.pc t with
  | idle => rw [hpc] at h; cases h
  | rcAdd k => rw [hpc] at h; cases h
  | alReturn i => rw [hpc] at h; cases h
  | alGet i => rw [hpc] at h; cases h
  | alMore i => rw [hpc] at h; cases h
  | frFetch k a p => rw [hpc] at h; cases h
  | enCount =>
    rw [hpc] at h
    cases h
    split
    · exact hgoto hpc rfl rfl rfl rfl rfl
    · exact hgoto hpc rfl rfl rfl rfl rfl
  | enCurrent =>
    rw [hpc] at h
    dsimp only at h
    split at h
    · cases h
      exact hgoto hpc rfl rfl rfl rfl rfl
    · split at h
      · cases h
        exact hgoto hpc rfl rfl rfl rfl rfl
      · cases h
        exact hgoto hpc rfl rfl rfl rfl rfl
  | rcTest =>
    rw [hpc] at h
    cases h
    refine hgoto hpc ?_ rfl rfl rfl rfl
    split
    · rfl
    · rfl
  | rcCas =>
    rw [hpc] at h
    dsimp only at h
    split at h
    · cases h
      exact hgoto hpc rfl rfl rfl rfl rfl
    · cases h
      exact hgoto hpc rfl rfl rfl rfl rfl
  | rcCurrent l =>
    rw [hpc] at h
    cases h
    exact hgoto hpc scan_freeing rfl rfl rfl rfl
  | rcCount c f v l =>
    rw [hpc] at h
    dsimp only at h
    split at h
    · cases h
      exact hgoto hpc rfl rfl rfl rfl rfl
    · cases h
      exact hgoto hpc scan_freeing rfl rfl rfl rfl
  | rcEpoch c f v l =>
    rw [hpc] at h
    dsimp only at h
    split at h
    · cases h
      exact hgoto hpc rfl rfl rfl rfl rfl
    · cases h
      exact hgoto hpc scan_freeing rfl rfl rfl rfl
  | rcGarbage k =>
    rw [hpc] at h
    dsimp only at h
    split at h
    · cases h
      exact hgoto hpc sweep_freeing rfl rfl rfl rfl
    · cases h
      exact hgoto hpc rfl rfl rfl rfl rfl
  | rcNext k x =>
    rw [hpc] at h
    dsimp only at h
    split at h
    · cases h
      exact hgoto hpc sweep_freeing rfl rfl rfl rfl
    · cases h
      exact hgoto hpc rfl rfl rfl rfl rfl
  | rcTail k x ch =>
    rw [hpc] at h
    dsimp only at h
    split at h
    · cases h
    · cases h
      exact hgoto hpc rfl rfl rfl rfl rfl
  | rcSelf k x ch =>
    rw [hpc] at h
    cases h
    exact .same rfl rfl rfl rfl (by rw [State.add_chunks_to_list, call_pc, hpc]; rfl)
  | alChunk i =>
    rw [hpc] at h
    dsimp only at h
    split at h
    · split at h
      · cases h
        exact .same rfl rfl rfl rfl (by rw [State.add_chunks_to_list, call_pc, hpc]; rfl)
      · cases h
        exact .same rfl rfl rfl rfl (by rw [call_pc, hpc]; rfl)
    · cases h
      exact hgoto hpc rfl rfl rfl rfl rfl
  | alTake i =>
    rw [hpc] at h
    dsimp only at h
    split at h
    · next k hk =>
      cases h
      exact .take i k hpc hk rfl
    · cases h
  | frGarbage k =>
    rw [hpc] at h
    dsimp only at h
    split at h
    · cases h
      exact hgoto hpc rfl rfl rfl rfl rfl
    · cases h
      exact hgoto hpc rfl rfl rfl rfl rfl
  | frFull k ch =>
    rw [hpc] at h
    dsimp only at h
    split at h
    · cases h
      exact hgoto hpc rfl rfl rfl rfl rfl
    · cases h
      exact hgoto hpc rfl rfl rfl rfl rfl
  | frPrev k ch =>
    rw [hpc] at h
    dsimp only at h
    split at h
    · cases h
    · cases h
      exact hgoto hpc rfl rfl rfl rfl rfl
  | frCache k a =>
    rw [hpc] at h
    dsimp only at h
    split at h
    · cases h
      exact .same rfl rfl rfl rfl (by rw [call_pc, hpc]; rfl)
    · cases h
      exact hgoto hpc rfl rfl rfl rfl rfl
  | frSelf k a p =>
    rw [hpc] at h
    cases h
    exact .clear p (by rw [hpc]; rfl) rfl rfl rfl rfl (by rw [goto_pc, hpc]; rfl)
  | frHead k a new =>
    rw [hpc] at h
    dsimp only at h
    split at h
    · cases h
      exact hgoto hpc rfl rfl rfl rfl rfl
    · cases h
      exact hgoto hpc rfl rfl rfl rfl rfl
  | frPut k ch =>
    rw [hpc] at h
    dsimp only at h
    split at h
    · cases h
    · next j hj =>
      cases h
      exact .put k ch j hpc hj rfl
  | _ =>
    rw [hpc] at h
    cases h
    exact hgoto hpc rfl rfl rfl rfl rfl

/-- A function on the shared lists has returned. -/
theorem resume_deal {lists : Chunks.State n} {y : Chunk} :
    Deal s t (State.resume { s with lists := lists } t y) none := by
  rw [State.resume]
  dsimp only
  cases hpc : s.pc t with
  | rcAdd k => exact .same rfl rfl rfl rfl (by rw [goto_pc, hpc]; exact sweep_freeing)
  | alReturn i => exact .same rfl rfl rfl rfl (by rw [call_pc, hpc]; rfl)
  | alGet i => exact .same rfl rfl rfl rfl (by rw [goto_pc, hpc]; rfl)
  | alMore i => exact .same rfl rfl rfl rfl (by rw [goto_pc, hpc]; rfl)
  | frFetch k a p => exact .clear p (by rw [hpc]; rfl) rfl rfl rfl rfl (by rw [goto_pc, hpc]; rfl)
  | _ => exact .same rfl rfl rfl rfl rfl

/-- The functions on the shared lists. -/
theorem listStep_deal (h : listStep s t sz = some s') : Deal s t s' none := by
  obtain ⟨lists, hrun, he⟩ := Option.map_eq_some_iff.mp h
  split at he
  · next i rh rt seen hpc =>
    rw [Chunks.run, hpc] at hrun
    cases hrun
    exact .fill i rh rt seen ((s.lists.store rt rh).goto t (Chunks.got_empty rh seen (.get_filled_chunks i))) hpc
      rfl rfl he.symm
  · split at he
    · rw [← he]
      exact resume_deal
    · rw [← he]
      exact .same rfl rfl rfl rfl rfl

/-- **What a step does with the blocks.** -/
theorem Step.deal (h : Step s t m r s') : Deal s t s' r := by
  have hfree : ∀ {q : Pc n}, s.Ready t → q.freeing = none → ((s.goto t q).pc t).freeing = (s.pc t).freeing :=
    fun hr hq => by rw [goto_pc, hr.2.1]; exact hq
  cases h with
  | critical_enter hr => exact .same rfl rfl rfl rfl (hfree hr rfl)
  | critical_exit hr _ => exact .same rfl rfl rfl rfl (hfree hr rfl)
  | gc_alloc i hr => exact .same rfl rfl rfl rfl (hfree hr rfl)
  | gc_free p i hr _ hheld => exact .free p i hr.2.1 hheld rfl
  | code _ _ hcode => exact code_deal hcode
  | lists _ _ hlist => exact listStep_deal hlist

/-! ### No block gets into two places -/

/-- The entries of a chunk, `i` of it being known. -/
theorem live_iff (hi : s.i c = some j) : s.Live c k ↔ k < j := by
  rw [State.Live, hi]
  exact ⟨fun ⟨m, hm, hk⟩ => Option.some.inj hm ▸ hk, fun hk => ⟨j, rfl, hk⟩⟩

/-- The entries of a chunk that is not stored to. -/
theorem entry_of_ne {s s' : State n} (hi : s'.i c = s.i c) (hblk : s'.blk c = s.blk c) :
    s'.At (.entry c k) b ↔ s.At (.entry c k) b := by
  rw [State.At, State.At, State.Live, State.Live, hi, hblk]

/-- What a thread is freeing does not change. -/
theorem pending_iff (hb : Beside t s s') (hfree : (s'.pc t).freeing = (s.pc t).freeing) :
    s'.At (.pending u) b ↔ s.At (.pending u) b := by
  rw [State.At, State.At]
  by_cases hu : u = t
  · rw [hu, hfree]
  · rw [hb.pc u hu]

/-- A thread has finished with what it was freeing. -/
theorem pending_of_none (hb : Beside t s s') (hfree : (s'.pc t).freeing = none) (h : s'.At (.pending u) b) :
    s.At (.pending u) b ∧ u ≠ t := by
  obtain ⟨f, hf, hp⟩ := h
  have hu : u ≠ t := fun he => by rw [he, hfree] at hf; cases hf
  exact ⟨⟨f, hb.pc u hu ▸ hf, hp⟩, hu⟩

theorem Distinct.free {i : Fin n} (h : Distinct s) (hheld : s.held p = true)
    (hb : Beside t s ((s.setHeld p false).goto t (.frGarbage ⟨p, i⟩))) :
    Distinct ((s.setHeld p false).goto t (.frGarbage ⟨p, i⟩)) := by
  refine h.move (S := .held) (T := .pending t) rfl (fun b σ hσ => ?_) hheld fun hgone => ?_
  · cases σ with
    | entry c k => exact Or.inl hσ
    | held =>
      refine Or.inl ?_
      have hheld' : Function.update s.held p false b = true := hσ
      rw [Function.update_apply] at hheld'
      split at hheld'
      · cases hheld'
      · exact hheld'
    | pending u =>
      obtain ⟨f, hf, hp⟩ := hσ
      by_cases hu : u = t
      · rw [hu, goto_pc] at hf
        refine Or.inr ⟨?_, by rw [hu]⟩
        rw [← hp, ← Option.some.inj hf]
      · rw [hb.pc u hu] at hf
        exact Or.inl ⟨f, hf, hp⟩
  · have hheld' : Function.update s.held p false p = true := hgone
    rw [Function.update_self] at hheld'
    cases hheld'

theorem Distinct.take (h : Distinct s) (hi : s.i c = some (k + 1))
    (hb : Beside t s (((s.setI c k).setHeld (s.blk c k) true).goto t .idle)) :
    Distinct (((s.setI c k).setHeld (s.blk c k) true).goto t .idle) := by
  refine h.move (S := .entry c k) (T := .held) rfl (fun b σ hσ => ?_)
    ⟨(live_iff hi).mpr (Nat.lt_succ_self k), rfl⟩ fun hgone => ?_
  · cases σ with
    | entry d j =>
      refine Or.inl ⟨?_, hσ.2⟩
      by_cases hd : d = c
      · have hlive := hσ.1
        rw [hd] at hlive ⊢
        rw [live_iff (Function.update_self _ _ _)] at hlive
        exact (live_iff hi).mpr (Nat.lt_succ_of_lt hlive)
      · obtain ⟨m, hm, hj⟩ := hσ.1
        exact ⟨m, (Function.update_of_ne hd _ _).symm.trans hm, hj⟩
    | held =>
      have hheld : Function.update s.held (s.blk c k) true b = true := hσ
      by_cases he : b = s.blk c k
      · exact Or.inr ⟨he, rfl⟩
      · rw [Function.update_of_ne he] at hheld
        exact Or.inl hheld
    | pending u => exact Or.inl (pending_of_none hb (by rw [goto_pc]; rfl) hσ).1
  · have hlive := hgone.1
    rw [live_iff (Function.update_self _ _ _)] at hlive
    exact Nat.lt_irrefl k hlive

/-- The entries of a chunk to which a block has been added. -/
theorem entry_put {q : Pc n} (hi : s.i c = some j) :
    (((s.setBlk c j p).setI c (j + 1)).goto t q).At (.entry d k) b ↔
      s.At (.entry d k) b ∨ (b = p ∧ d = c ∧ k = j) := by
  by_cases hd : d = c
  · rw [hd, State.At, State.At, live_iff (Function.update_self _ _ _), live_iff hi]
    show k < j + 1 ∧ Function.update s.blk c (Function.update (s.blk c) j p) c k = b ↔ _
    rw [Function.update_self]
    by_cases hk : k = j
    · rw [hk, Function.update_self]
      exact ⟨fun h => Or.inr ⟨h.2.symm, rfl, rfl⟩,
        fun h => ⟨Nat.lt_succ_self j, (h.resolve_left fun hl => Nat.lt_irrefl j hl.1).1.symm⟩⟩
    · rw [Function.update_of_ne hk]
      exact ⟨fun h => Or.inl ⟨Nat.lt_of_le_of_ne (Nat.le_of_lt_succ h.1) hk, h.2⟩,
        fun h => (h.resolve_right fun hr => hk hr.2.2).imp_left Nat.lt_succ_of_lt⟩
  · rw [entry_of_ne (s := s) (Function.update_of_ne hd _ _) (Function.update_of_ne hd _ _)]
    exact ⟨Or.inl, fun h => h.resolve_right fun hr => hd hr.2.1⟩

theorem Distinct.put {f : Freeing n} (h : Distinct s) (hpc : s.pc t = .frPut f c) (hi : s.i c = some j)
    (hb : Beside t s (((s.setBlk c j f.p).setI c (j + 1)).goto t .idle)) :
    Distinct (((s.setBlk c j f.p).setI c (j + 1)).goto t .idle) := by
  refine h.move (S := .pending t) (T := .entry c j) rfl (fun b σ hσ => ?_) ⟨f, by rw [hpc]; rfl, rfl⟩
    fun hgone => (pending_of_none hb (by rw [goto_pc]; rfl) hgone).2 rfl
  cases σ with
  | entry d k => exact ((entry_put hi).mp hσ).imp_right fun h => ⟨h.1, by rw [h.2.1, h.2.2]⟩
  | held => exact Or.inl hσ
  | pending u => exact Or.inl (pending_of_none hb (by rw [goto_pc]; rfl) hσ).1

theorem Distinct.clear (h : Distinct s) (hb : Beside t s s') (hi : s'.i = Function.update s.i c (some 0))
    (hblk : s'.blk = s.blk) (hheld : s'.held = s.held) (hnode : s'.node = s.node)
    (hfree : (s'.pc t).freeing = (s.pc t).freeing) : Distinct s' := by
  refine h.mono hnode fun b σ hσ => ?_
  cases σ with
  | entry d k =>
    by_cases hd : d = c
    · have hlive := hσ.1
      rw [hd, live_iff (j := 0) (by rw [hi, Function.update_self])] at hlive
      cases hlive
    · exact (entry_of_ne (by rw [hi, Function.update_of_ne hd]) (by rw [hblk])).mp hσ
  | held => exact (congrFun hheld b).symm.trans hσ
  | pending u => exact (pending_iff hb hfree).mp hσ

/-- **A step leaves each block in one place.** -/
theorem Distinct.deal (h : Distinct s) (hsizes : ∀ i, 0 < s.blk_sizes i) (hb : Beside t s s')
    (hd : Deal s t s' r) : Distinct s' := by
  cases hd with
  | same hi hblk hheld hnode hfree =>
    refine h.mono hnode fun b σ hσ => (at_iff hi hblk hheld (fun u => ?_) σ).mp hσ
    by_cases hu : u = t
    · rw [hu, hfree]
    · rw [hb.pc u hu]
  | free p i hpc hheld hs => exact hs ▸ h.free hheld (hs ▸ hb)
  | take i k hpc hi hs => exact hs ▸ h.take hi (hs ▸ hb)
  | put f c j hpc hi hs => exact hs ▸ h.put hpc hi (hs ▸ hb)
  | clear c hpc hi hblk hheld hnode hfree => exact h.clear hb hi hblk hheld hnode hfree
  | fill i rh rt seen lists hpc hl hbrk hs =>
    have hsame : Distinct { s with lists := lists } :=
      h.mono rfl fun b σ hσ => (at_iff rfl rfl rfl (fun _ => rfl) σ).mp hσ
    exact hs ▸ hsame.fill (hsizes i)

/-! ### The retired blocks of an epoch -/

/-- The blocks that are in the garbage rings of an epoch, or on the way there. -/
def State.limbo (s : State n) (L : Place n → List Chunk) (e : ℕ) : Set Block :=
  {b | (∃ u, s.At (.pending u) b ∧ (s.ptst u).epoch = e) ∨
    ∃ v i c k, c ∈ L (.garbage v e i) ∧ s.At (.entry c k) b}

/-- A thread announces no epoch while it is freeing. -/
theorem epoch_of_freeing {f : Freeing n} (h : Beat s t s') (hf : (s.pc t).freeing = some f) :
    (s'.ptst t).epoch = (s.ptst t).epoch := by
  cases h with
  | store e hpc _ _ _ _ _ => rw [hpc] at hf; cases hf
  | rest _ _ _ _ he => exact he
  | still _ _ _ _ he => exact he
  | count _ _ _ _ _ _ he => exact he
  | again _ _ _ _ _ _ he => exact he
  | look _ _ _ _ _ he => exact he
  | level _ _ _ _ _ he _ => exact he
  | leave _ _ _ _ _ he => exact he
  | lock _ _ _ _ _ _ he => exact he
  | first _ _ _ _ _ he => exact he
  | scan _ _ _ _ _ _ he => exact he
  | pass _ _ _ _ _ _ _ _ _ he => exact he
  | behind _ _ _ _ _ _ _ _ _ he => exact he
  | advance _ _ _ _ _ _ he => exact he
  | unlock _ _ _ _ _ he => exact he

/-- `chunk_from_cache` returns no chunk of a garbage ring. -/
theorem Custody.cached_ne {i : Fin n} (h : Custody w s body O L) (hpc : (s.pc t).cached = some d)
    (hc : c ∈ L (.garbage v e i)) : c ≠ d := by
  have hok := h.ok t
  rw [Ok] at hok
  intro he
  rw [he] at hc
  cases hs : s.pc t with
  | frFetch f a y =>
    rw [hs] at hpc hok
    have hy : d ∈ L (.cache t) := by
      rw [hok.2.2, ← Option.some.inj hpc]
      exact List.mem_cons_self
    cases h.shelves.apart _ _ d hc hy
  | frSelf f a y =>
    rw [hs] at hpc hok
    have hy : d ∈ L (.hand t) := by
      rw [hok.1, ← Option.some.inj hpc]
      exact List.mem_cons_self
    cases h.shelves.apart _ _ d hc hy
  | _ => rw [hs] at hpc; cases hpc

/-- `get_filled_chunks` fills the chunks that its thread has taken. -/
theorem Custody.filled {i : Fin n} {rh rt : Chunk} {seen : List Chunk} {lists : Chunks.State n}
    (h : Custody w s body O L) (ht : t ∈ s.ptst_list)
    (hpc : s.lists.pc t = .emClose (.get_filled_chunks i) rh rt seen)
    (hl : lists.next = Function.update s.lists.next rt rh) (hbrk : lists.brk = s.lists.brk) {P : Place n}
    (hc : c ∈ L P) : c ∉ State.ring { s with lists := lists } rh := by
  have hlinked : Chunks.Linked s.lists.next (O t) rh rt seen := by
    have hlok := h.lists.ok t
    rwa [Chunks.withOwn_pc, hpc] at hlok
  obtain ⟨hcirc, hhead⟩ := circ_of_linked hlinked
  obtain ⟨l, rfl⟩ := List.head?_eq_some_iff.mp hhead
  rw [← hl] at hcirc
  have hring : State.ring { s with lists := lists } rh = rh :: l := by
    refine ring_eq hcirc hlinked.nodup fun y hy => ?_
    show y < lists.brk
    rw [hbrk]
    exact (h.lists.owned t y (hlinked.owned y hy)).1.2
  rw [hring]
  intro hm
  exact h.keeper_ne ht (h.lists.other w t c (h.shelves.kept P c hc) (hlinked.owned c hm))

/-- **Retired blocks stay in their epoch**, except where `gc_reclaim` gives them up. -/
theorem limbo_step (h : Custody w s body O L)
    (hsp : Spared s t L L') (hT : Timed s) (ht : t ∈ s.ptst_list) (hb : Beside t s s') (hbeat : Beat s t s')
    (hd : Deal s t s' r) (he : ∀ k x ch tail, s.pc t = .rcClose k x ch tail → e ≠ succ k.curr_epoch) :
    s.limbo L e ⊆ s'.limbo L' e := by
  have hkeep : ∀ {v i c}, c ∈ L (.garbage v e i) → c ∈ L' (.garbage v e i) := fun {v i c} hc =>
    hsp v e i (fun k x ch tail hpc heq => he k x ch tail hpc (Prod.mk.inj (Prod.mk.inj heq).2).1) c hc
  -- a thread that is freeing goes on with it
  have hpend : ∀ {u b}, s.At (.pending u) b → (s.ptst u).epoch = e → (s'.pc t).freeing = (s.pc t).freeing →
      b ∈ s'.limbo L' e := by
    intro u b hat hep hfree
    refine Or.inl ⟨u, (pending_iff hb hfree).mpr hat, ?_⟩
    by_cases hu : u = t
    · obtain ⟨f, hf, -⟩ := hat
      rw [hu] at hf hep ⊢
      rw [epoch_of_freeing hbeat hf, hep]
    · rw [hb.epoch u hu, hep]
  -- other threads are not concerned
  have hother : ∀ {u b}, s.At (.pending u) b → (s.ptst u).epoch = e → u ≠ t → b ∈ s'.limbo L' e := by
    intro u b hat hep hu
    refine Or.inl ⟨u, ?_, by rw [hb.epoch u hu, hep]⟩
    obtain ⟨f, hf, hp⟩ := hat
    exact ⟨f, by rw [hb.pc u hu]; exact hf, hp⟩
  intro b hb'
  cases hd with
  | same hi hblk hheld hnode hfree =>
    rcases hb' with ⟨u, hat, hep⟩ | ⟨v, i, c, k, hc, hat⟩
    · exact hpend hat hep hfree
    · exact Or.inr ⟨v, i, c, k, hkeep hc, (entry_of_ne (congrFun hi c) (congrFun hblk c)).mpr hat⟩
  | free p i hpc hheld hs =>
    rcases hb' with ⟨u, hat, hep⟩ | ⟨v, i, c, k, hc, hat⟩
    · refine hother hat hep fun hu => ?_
      obtain ⟨f, hf, -⟩ := hat
      rw [hu, hpc] at hf
      cases hf
    · rw [hs]
      exact Or.inr ⟨v, i, c, k, hkeep hc, hat⟩
  | take i k hpc hi hs =>
    rcases hb' with ⟨u, hat, hep⟩ | ⟨v, j, c, l, hc, hat⟩
    · refine hother hat hep fun hu => ?_
      obtain ⟨f, hf, -⟩ := hat
      rw [hu, hpc] at hf
      cases hf
    · have hne : c ≠ (s.ptst t).alloc i := fun heq => by
        have hmem := List.mem_of_mem_head? (h.alloc t ht i (by rw [hpc]; exact id))
        cases h.shelves.apart _ _ c hc (heq ▸ hmem)
      rw [hs]
      refine Or.inr ⟨v, j, c, l, hkeep hc, ?_⟩
      exact (entry_of_ne (s := s) (by exact Function.update_of_ne hne _ _) (by rfl)).mpr hat
  | put f c j hpc hi hs =>
    rcases hb' with ⟨u, hat, hep⟩ | ⟨v, i, d, l, hd, hat⟩
    · by_cases hu : u = t
      · -- the block comes into the first chunk of the ring
        have hok := h.ok t
        rw [Ok, hpc] at hok
        have harea : s.area t = some (t, (s.ptst t).epoch, f.alloc_id) := area_of_freeing (by rw [hpc]; rfl)
        have hung := h.hung hT (by rw [hpc]; exact id) harea
        have hc : c ∈ L (.garbage t (s.ptst t).epoch f.alloc_id) := List.mem_of_mem_head? (hung.head.trans hok.2)
        obtain ⟨f', hf', hp⟩ := hat
        rw [hu, hpc] at hf'
        rw [hu] at hep
        rw [hep] at hc
        rw [hs]
        refine Or.inr ⟨t, f.alloc_id, c, j, hkeep hc, (entry_put hi).mpr (Or.inr ⟨?_, rfl, rfl⟩)⟩
        rw [← hp, ← Option.some.inj hf']
      · exact hother hat hep hu
    · rw [hs]
      exact Or.inr ⟨v, i, d, l, hkeep hd, (entry_put hi).mpr (Or.inl hat)⟩
  | clear c hpc hi hblk hheld hnode hfree =>
    rcases hb' with ⟨u, hat, hep⟩ | ⟨v, i, d, l, hd, hat⟩
    · exact hpend hat hep hfree
    · refine Or.inr ⟨v, i, d, l, hkeep hd, ?_⟩
      exact (entry_of_ne (by rw [hi, Function.update_of_ne (h.cached_ne hpc hd)]) (by rw [hblk])).mpr hat
  | fill i rh rt seen lists hpc hl hbrk hs =>
    rcases hb' with ⟨u, hat, hep⟩ | ⟨v, j, c, l, hc, hat⟩
    · refine hpend hat hep ?_
      obtain ⟨i', blk, node, hf⟩ := fill_eq (s.blk_sizes i) { s with lists := lists }
        (State.ring { s with lists := lists } rh)
      rw [hs, hf]
    · have hnot := h.filled ht hpc hl hbrk hc
      have hsame := fill_of_notMem (s.blk_sizes i) { s with lists := lists } hnot
      rw [hs]
      exact Or.inr ⟨v, j, c, l, hkeep hc, (entry_of_ne hsame.1 hsame.2).mpr hat⟩

/-! ### Runs -/

/-- The sizes of the blocks do not change. -/
theorem Step.blk_sizes (h : Step s t m r s') : s'.blk_sizes = s.blk_sizes := by
  have hresume : ∀ (lists : Chunks.State n) (y : Chunk),
      (State.resume { s with lists := lists } t y).blk_sizes = s.blk_sizes := by
    intro lists y
    rw [State.resume]
    dsimp only
    split <;> rfl
  cases h with
  | code _ _ hcode =>
    rw [Collector.code] at hcode
    cases hpc : s.pc t <;> rw [hpc] at hcode <;> dsimp only at hcode <;> (repeat' split at hcode) <;>
      cases hcode <;> rfl
  | lists _ _ hlist =>
    obtain ⟨lists, -, he⟩ := Option.map_eq_some_iff.mp hlist
    split at he
    · next i rh rt seen _ =>
      obtain ⟨i', blk, node, hf⟩ := fill_eq (s.blk_sizes i) { s with lists := lists }
        (State.ring { s with lists := lists } rh)
      rw [← he, hf]
    · rw [← he]
      split
      · exact hresume lists _
      · rfl
  | _ => rfl

/-- The invariant of runs in which all removals are current. -/
structure Kept (w : Tid) (s : State n) (body : Chunks.Lst n → List Chunk) (O : Tid → List Chunk)
    (L : Place n → List Chunk) : Prop where
  custody : Custody w s body O L
  timed : Timed s
  distinct : Distinct s
  sizes : ∀ i, 0 < s.blk_sizes i

theorem Initial.kept (h : Initial s) : ∃ w body O L, Kept w s body O L := by
  have hentry : ∀ b σ, s.At σ b → ∃ c k, σ = .entry c k ∧ s.Live c k ∧ s.blk c k = b := by
    intro b σ hσ
    cases σ with
    | entry c k => exact ⟨c, k, rfl, hσ⟩
    | held =>
      have hheld : s.held b = true := hσ
      rw [h.held] at hheld
      cases hheld
    | pending u =>
      obtain ⟨f, hf, -⟩ := hσ
      rw [(h.idle u).1] at hf
      cases hf
  obtain ⟨w, body, O, L, hc⟩ := h.custody
  refine ⟨w, body, O, L, hc, h.timed, ⟨fun b σ τ hσ hτ => ?_, fun b σ hσ => ?_⟩, h.sizes⟩
  · obtain ⟨c, k, rfl, hlive, hb⟩ := hentry b σ hσ
    obtain ⟨d, j, rfl, hlive', hb'⟩ := hentry b τ hτ
    obtain ⟨rfl, rfl⟩ := h.inj c k d j hlive hlive' (hb.trans hb'.symm)
    rfl
  · obtain ⟨c, k, -, hlive, hb⟩ := hentry b σ hσ
    exact hb ▸ h.below c k hlive

theorem Step.mem_list (h : Step s t m r s') : t ∈ s.ptst_list := by
  cases h with
  | critical_enter hr => exact hr.1
  | critical_exit hr _ => exact hr.1
  | gc_alloc _ hr => exact hr.1
  | gc_free _ _ hr _ _ => exact hr.1
  | code ht _ _ => exact ht
  | lists ht _ _ => exact ht

/-- **Every step keeps the invariant and is a tick of the clock.** -/
theorem Kept.step (h : Kept w s body O L) (hcur : Chunks.Current s.lists (s.lists.pc t))
    (hstep : Step s t m r s') :
    ∃ body' O' L', Kept w s' body' O' L' ∧ Tick succ t (s.clock (s.limbo L)) (s'.clock (s'.limbo L')) := by
  obtain ⟨hb, hbeat⟩ := hstep.beat
  have hd := hstep.deal
  have ht := hstep.mem_list
  obtain ⟨body', O', L', hc, hsp⟩ := h.custody.step h.timed hcur hstep
  refine ⟨body', O', L', ⟨hc, h.timed.step hb hbeat ht, h.distinct.deal h.sizes hb hd, ?_⟩, ?_⟩
  · rw [hstep.blk_sizes]
    exact h.sizes
  · by_cases hclose : ∃ k x ch tail, s.pc t = .rcClose k x ch tail
    · -- the limbo of the next epoch may lose blocks
      obtain ⟨k, x, ch, tail, hpc⟩ := hclose
      have hcurr : k.curr_epoch = s.current := h.timed.curr t _ (by rw [hpc]; rfl)
      have hpasses : ∀ u, (s.pc t).passes u := fun u => by rw [hpc]; exact nofun
      have hM : ∀ e, s.limbo L e ⊆ s'.limbo L' e ∨ (e = succ s.current ∧ ∀ u, (s.pc t).passes u) := by
        intro e
        by_cases he : e = succ s.current
        · exact Or.inr ⟨he, hpasses⟩
        · refine Or.inl (limbo_step h.custody hsp h.timed ht hb hbeat hd fun k' x' ch' tail' hpc' => ?_)
          rw [hpc] at hpc'
          rw [← (Pc.rcClose.inj hpc').1, hcurr]
          exact he
      have hs : s' = (s.store tail ch).goto t (.rcStore k x ch) := by
        cases hstep with
        | critical_enter hr => rw [hr.2.1] at hpc; cases hpc
        | critical_exit hr _ => rw [hr.2.1] at hpc; cases hpc
        | gc_alloc _ hr => rw [hr.2.1] at hpc; cases hpc
        | gc_free _ _ hr _ _ => rw [hr.2.1] at hpc; cases hpc
        | lists _ hne _ =>
          have hserv := h.custody.service t
          rw [hpc] at hserv
          exact absurd (Chunks.idle_of_service hserv) hne
        | code _ _ hcode =>
          rw [Collector.code, hpc] at hcode
          cases hcode
          rfl
      rw [hs] at hM hb ⊢
      refine Or.inr (Or.inl (sweep_tick hb rfl rfl rfl ?_ (fun u _ => Or.inl (hpasses u)) hM))
      rw [hpc, goto_pc]
      exact ⟨id, id⟩
    · exact h.timed.tick hb hbeat fun e => limbo_step h.custody hsp h.timed ht hb hbeat hd
        fun k x ch tail hpc => absurd ⟨k, x, ch, tail, hpc⟩ hclose

/-- What `gc_alloc` returns has not been retired. -/
theorem Kept.notMem_limbo (h : Kept w s body O L) (hstep : Step s t m (some p) s') : p ∉ s.limbo L e := by
  have ht := hstep.mem_list
  have hd := hstep.deal
  intro hp
  generalize hr : some p = r at hd
  cases hd with
  | take i k hpc hi hs =>
    have hat : s.At (.entry ((s.ptst t).alloc i) k) p :=
      ⟨(live_iff hi).mpr (Nat.lt_succ_self k), (Option.some.inj hr).symm⟩
    rcases hp with ⟨u, hu, -⟩ | ⟨v, j, c, l, hc, hcl⟩
    · cases h.distinct.one p _ _ hat hu
    · cases h.distinct.one p _ _ hat hcl
      have hmem := List.mem_of_mem_head? (h.custody.alloc t ht i (by rw [hpc]; exact id))
      cases h.custody.shelves.apart _ _ _ hc hmem
  | _ => cases hr

theorem Run.kept {tr : Trace n} (hrun : Run (collector n) tr s) (hcur : ∀ x ∈ tr, CurrentEntry x) :
    ∃ w body O L, Kept w s body O L := by
  refine hrun.invariant_of (I := fun s => ∃ w body O L, Kept w s body O L) (fun s h => Initial.kept h) ?_ hcur
  intro s t m s' ⟨w, body, O, L, h⟩ hstep hc
  obtain ⟨body', O', L', h', -⟩ := h.step hc hstep
  exact ⟨w, body', O', L', h'⟩

/-- A freed block is guarded while a reader stays inside. -/
theorem Run.guarded {tr₁ tr₂ : Trace n} {i : Fin n}
    (hrun : Run (collector n) (tr₂ ++ ⟨s₀, v, (.gc_free p i, none), s₁⟩ :: tr₁) s)
    (hcur : ∀ x ∈ tr₂ ++ ⟨s₀, v, (.gc_free p i, none), s₁⟩ :: tr₁, CurrentEntry x)
    (hrec : (s₀.ptst v).epoch ≠ succ s₀.current) (hin : ∀ x ∈ tr₂, x.pre.Inside u) (hu : s.Inside u) :
    ∃ w body O L, Kept w s body O L ∧ Guarded succ (s.clock (s.limbo L)) u p := by
  induction tr₂ generalizing s with
  | nil =>
    cases hrun with
    | step hrun hstep =>
      obtain ⟨w, body, O, L, h⟩ := Run.kept hrun fun x hx => hcur x (List.mem_cons_of_mem _ hx)
      obtain ⟨body', O', L', h', -⟩ := h.step (hcur _ List.mem_cons_self) hstep
      refine ⟨w, body', O', L', h', Guarded.of_retire (inside_iff.mp hu) (d := (s₀.ptst v).epoch) ?_ ?_⟩
      · cases hstep with
        | gc_free _ _ _ _ _ => exact Or.inl ⟨v, ⟨⟨p, i⟩, by rw [goto_pc]; rfl, rfl⟩, rfl⟩
      · cases hstep with
        | gc_free _ _ _ _ _ => exact hrec
  | cons y tr₂ ih =>
    cases hrun with
    | @step _ s' _ t c hrun hstep =>
      obtain ⟨w, body, O, L, h, hg⟩ := ih hrun (fun x hx => hcur x (List.mem_cons_of_mem _ hx))
        (fun x hx => hin x (List.mem_cons_of_mem _ hx)) (hin _ List.mem_cons_self)
      obtain ⟨body', O', L', h', htick⟩ := h.step (hcur _ List.mem_cons_self) hstep
      refine ⟨w, body', O', L', h', hg.tick succ_ne succ_succ_ne ?_ htick (inside_iff.mp hu)⟩
      exact (h.timed.inTime u).congr rfl rfl rfl id

/-- **Epoch reclamation, access by access.**  When a thread frees a block, the epoch it has recorded not
being the next one, while thread `u` is in a critical section, then `gc_alloc` returns the block to no thread
before `u` has left that critical section, provided that all removals from the shared lists are current. -/
theorem not_recycled_of_recorded {tr₁ tr₂ : Trace n} {i : Fin n}
    (hrun : Run (collector n) (tr₂ ++ ⟨s₀, v, (.gc_free p i, none), s₁⟩ :: tr₁) s)
    (hcur : ∀ x ∈ tr₂ ++ ⟨s₀, v, (.gc_free p i, none), s₁⟩ :: tr₁,
      Chunks.Current x.pre.lists (x.pre.lists.pc x.who))
    (hrec : (s₀.ptst v).epoch ≠ succ s₀.current) (hin : ∀ x ∈ tr₂, x.pre.Inside u) :
    ∀ x ∈ tr₂, x.ev.2 ≠ some p := by
  induction tr₂ generalizing s with
  | nil => exact fun x hx => absurd hx List.not_mem_nil
  | cons y tr₂ ih =>
    cases hrun with
    | @step _ s' _ t c hrun hstep =>
      have hcur' := fun x hx => hcur x (List.mem_cons_of_mem _ hx)
      have hin' := fun x hx => hin x (List.mem_cons_of_mem _ hx)
      intro x hx hev
      cases hx with
      | tail _ hx => exact ih hrun hcur' hin' x hx hev
      | head =>
        obtain ⟨w, body, O, L, h, hg⟩ := Run.guarded hrun hcur' hrec hin' (hin _ List.mem_cons_self)
        obtain ⟨d, hlimbo⟩ := hg.mem_limbo
        obtain ⟨m, r⟩ := c
        dsimp only at hev
        rw [hev] at hstep
        exact h.notMem_limbo hstep hlimbo

theorem not_recycled_of_recorded_next :
    ∃ (tr₁ tr₂ : Trace 1) (s₀ s₁ s : State 1),
      Run (collector 1) (tr₂ ++ ⟨s₀, 1, (.gc_free 6488 0, none), s₁⟩ :: tr₁) s ∧ s₀.Inside 0 ∧
      (∃ x ∈ tr₂, x.ev.2 = some 6480) ∧ ∀ x ∈ tr₂, x.ev.2 ≠ some 6488 := by
  have h : retires (call 0 .critical_enter 2 ++ call 1 .critical_enter 2 ++ call 1 (.gc_alloc 0) 2) 6488
      (List.replicate 7 (.step 1 (.run 1)) ++ call 1 (.gc_alloc 0) 1) 6480 false = true := by
    decide +kernel
  obtain ⟨tr₁, tr₂, s₀, s₁, s, hrun, hcur, hlate, hin, hinside, hgot⟩ := run_of_retires h (by decide)
  exact ⟨tr₁, tr₂, s₀, s₁, s, hrun, hin, hgot,
    not_recycled_of_recorded hrun hcur (of_decide_eq_false hlate) hinside⟩

/-- **A block is recycled under a reader**: the thread that frees it has recorded the epoch after the current
one, whose garbage is given up next, and the reader does not keep the epoch from being advanced once. -/
theorem exists_recycled_under_reader :
    ∃ (tr₁ tr₂ : Trace 1) (s₀ s₁ s : State 1) (p : Block),
      Run (collector 1) (tr₂ ++ ⟨s₀, 1, (.gc_free p 0, none), s₁⟩ :: tr₁) s ∧
      (∀ x ∈ tr₂ ++ ⟨s₀, 1, (.gc_free p 0, none), s₁⟩ :: tr₁,
        Chunks.Current x.pre.lists (x.pre.lists.pc x.who)) ∧
      s₀.Inside 0 ∧ (∀ x ∈ tr₂, x.pre.Inside 0) ∧ ∃ x ∈ tr₂, x.ev.2 = some p := by
  have hne : ∀ b ∈ getting_again, b.who ≠ 0 := by decide +kernel
  obtain ⟨tr₁, tr₂, s₀, s₁, s, hrun, hcur, -, hin, hinside, hgot⟩ := run_of_retires retires_late hne
  exact ⟨tr₁, tr₂, s₀, s₁, s, 5696, hrun, hcur, hin, hinside, hgot⟩

end ConcurrentPQ.Collector

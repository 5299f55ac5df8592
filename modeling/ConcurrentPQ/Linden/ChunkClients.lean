import ConcurrentPQ.Linden.ChunkLists

/-!
# The shared lists seen by their clients

What the caller of a function on the shared lists may rely on.  Who owns which chunks is not part of the
program, so it may be recorded in another way.

* `State.withOwn`, `run_withOwn`, `Books.hand_over` — another record of the owners;
* `Served`, `Books.served` — a step changes neither the chunks of other owners nor where these stand;
* `Service`, `run_service`, `run_idle` — what a thread is waiting for, and how it gets it.
-/

namespace ConcurrentPQ.Chunks

open ConcurrentPQ.Segment

variable {nr_sizes : ℕ} {s s' : State nr_sizes} {body : Lst nr_sizes → List Chunk} {t u w : Tid}
  {sz : ℕ} {l : List Chunk}

/-! ### Another record of the owners -/

/-- The lists with another record of the owners. -/
def State.withOwn (s : State nr_sizes) (own : Tid → List Chunk) : State nr_sizes := { s with own := own }

@[simp] theorem withOwn_next (own : Tid → List Chunk) : (s.withOwn own).next = s.next := rfl

@[simp] theorem withOwn_brk (own : Tid → List Chunk) : (s.withOwn own).brk = s.brk := rfl

@[simp] theorem withOwn_pc (own : Tid → List Chunk) : (s.withOwn own).pc = s.pc := rfl

@[simp] theorem withOwn_own (own : Tid → List Chunk) : (s.withOwn own).own = own := rfl

@[simp] theorem goto_pc {pc : Pc nr_sizes} : (s.goto t pc).pc t = pc := Function.update_self _ _ _

/-- The program does not look at the record. -/
theorem run_withOwn (h : run s t sz = some s') (own : Tid → List Chunk) :
    ∃ own', run (s.withOwn own) t sz = some (s'.withOwn own') := by
  rw [run] at h
  rw [run, withOwn_pc]
  cases hpc : s.pc t with
  | idle =>
    rw [hpc] at h
    cases h
  | adCas k list ch ch_next h_next chain =>
    rw [hpc] at h
    dsimp only at h ⊢
    split at h
    · next he => cases h; exact ⟨_, if_pos he⟩
    · next he => cases h; exact ⟨_, if_neg he⟩
  | emWalk k n rh rt seen =>
    rw [hpc] at h
    dsimp only at h ⊢
    split at h
    · next he => cases h; exact ⟨_, if_pos he⟩
    · next he => cases h; exact ⟨_, if_neg he⟩
  | emCas k n rh rt rt_next seen =>
    rw [hpc] at h
    dsimp only at h ⊢
    split at h
    · next he => cases h; exact ⟨_, if_pos he⟩
    · next he => cases h; exact ⟨_, if_neg he⟩
  | alFill i =>
    rw [hpc] at h
    dsimp only at h ⊢
    split at h
    · next he => cases h; exact ⟨_, if_pos he⟩
    · cases h
  | alCas i p p_next =>
    rw [hpc] at h
    dsimp only at h ⊢
    split at h
    · next he => cases h; exact ⟨_, if_pos he⟩
    · next he => cases h; exact ⟨_, if_neg he⟩
  | _ =>
    rw [hpc] at h
    cases h
    exact ⟨_, rfl⟩

theorem Ok.mono {next : Chunk → Chunk} {own own' : List Chunk} {pc : Pc nr_sizes} (h : Ok next own pc)
    (hsub : own ⊆ own') : Ok next own' pc := by
  have hlink : ∀ {first ch chain}, Linked next own first ch chain → Linked next own' first ch chain :=
    fun hl => ⟨hl.seg, hl.nodup, fun c hc => hsub (hl.owned c hc)⟩
  cases pc with
  | adNext k list ch chain => exact ⟨h.1, hlink h.2⟩
  | adHead k list ch ch_next chain => exact ⟨h.1, hlink h.2⟩
  | adLink k list ch ch_next x chain => exact ⟨h.1, hlink h.2⟩
  | adCas k list ch ch_next x chain => exact ⟨h.1, hlink h.2.1, h.2.2⟩
  | emClose k rh rt seen => exact hlink h
  | alClose i p => exact hsub h
  | _ => exact h

/-- **Chunks change their owner**, the one that gives them being in no function. -/
theorem Books.hand_over (h : Books s body) (hne : u ≠ w) (hl : ∀ c ∈ l, c ∈ s.own u)
    (hidle : s.pc u = .idle) :
    Books (s.withOwn (Function.update (Function.update s.own u ((s.own u).filter (· ∉ l))) w
      (s.own w ++ l))) body := by
  have hown : ∀ x c, c ∈ Function.update (Function.update s.own u ((s.own u).filter (· ∉ l))) w
      (s.own w ++ l) x → (c ∈ s.own x ∧ (x = u → c ∉ l)) ∨ (x = w ∧ c ∈ l) := by
    intro x c hc
    by_cases hw : x = w
    · rw [hw, Function.update_self, List.mem_append] at hc
      rw [hw]
      exact hc.imp (fun hm => ⟨hm, fun he => absurd he.symm hne⟩) fun hm => ⟨rfl, hm⟩
    · rw [Function.update_of_ne hw] at hc
      by_cases hu : x = u
      · rw [hu, Function.update_self, List.mem_filter, decide_eq_true_eq] at hc
        exact Or.inl ⟨hu ▸ hc.1, fun _ => hc.2⟩
      · rw [Function.update_of_ne hu] at hc
        exact Or.inl ⟨hc, fun he => absurd he hu⟩
  refine ⟨h.brk, h.ring, h.bound, h.apart, fun x c hc => ?_, fun x y c hx hy => ?_, fun c hlt hc => ?_,
    fun x => ?_⟩
  · cases hown x c hc with
    | inl hm => exact h.owned x c hm.1
    | inr hm => exact h.owned u c (hl c hm.2)
  · cases hown x c hx with
    | inl hm =>
      cases hown y c hy with
      | inl hm' => exact h.other x y c hm.1 hm'.1
      | inr hm' => exact absurd hm'.2 (hm.2 (h.other x u c hm.1 (hl c hm'.2)))
    | inr hm =>
      cases hown y c hy with
      | inl hm' => exact absurd hm.2 (hm'.2 (h.other y u c hm'.1 (hl c hm.2)))
      | inr hm' => rw [hm.1, hm'.1]
  · refine (h.all c hlt hc).imp_right fun ⟨x, hx⟩ => ?_
    by_cases hm : c ∈ l
    · refine ⟨w, ?_⟩
      rw [withOwn_own, Function.update_self]
      exact List.mem_append_right _ hm
    · refine ⟨x, ?_⟩
      rw [withOwn_own]
      by_cases hw : x = w
      · rw [hw, Function.update_self]
        exact List.mem_append_left _ (hw ▸ hx)
      · rw [Function.update_of_ne hw]
        by_cases hu : x = u
        · rw [hu, Function.update_self, List.mem_filter, decide_eq_true_eq]
          exact ⟨hu ▸ hx, hm⟩
        · rw [Function.update_of_ne hu]
          exact hx
  · rw [withOwn_next, withOwn_own, withOwn_pc]
    by_cases hw : x = w
    · rw [hw, Function.update_self]
      exact (h.ok w).mono (List.subset_append_left _ _)
    · rw [Function.update_of_ne hw]
      by_cases hu : x = u
      · rw [hu, hidle]
        trivial
      · rw [Function.update_of_ne hu]
        exact h.ok x

/-! ### What a step leaves alone -/

/-- The other threads stand where they stood and have what they had. -/
structure Served (t : Tid) (s s' : State nr_sizes) : Prop where
  own : ∀ u, u ≠ t → s'.own u = s.own u
  pc : ∀ u, u ≠ t → s'.pc u = s.pc u
  brk : s.brk ≤ s'.brk
  next : ∀ u, u ≠ t → ∀ c ∈ s.own u, s'.next c = s.next c

theorem Served.goto {pc : Pc nr_sizes} : Served t s (s.goto t pc) :=
  ⟨fun _ _ => rfl, fun _ hu => Function.update_of_ne hu _ _, Nat.le_refl _, fun _ _ _ _ => rfl⟩

/-- A store to a chunk that no other thread owns. -/
theorem Served.store {c d : Chunk} {pc : Pc nr_sizes} (hc : ∀ u, u ≠ t → c ∉ s.own u) :
    Served t s ((s.store c d).goto t pc) := by
  refine ⟨fun _ _ => rfl, fun _ hu => Function.update_of_ne hu _ _, Nat.le_refl _, fun u hu x hx => ?_⟩
  exact Function.update_of_ne (fun he : x = c => hc u hu (he ▸ hx)) _ _

/-- A store to a chunk that stands for a list, with which chunks change hands. -/
theorem Served.swing {d : Chunk} {pc : Pc nr_sizes} (h : Books s body) (list : Lst nr_sizes) :
    Served t s (((s.store list.head d).setOwn t l).goto t pc) := by
  refine ⟨fun _ hu => Function.update_of_ne hu _ _, fun _ hu => Function.update_of_ne hu _ _,
    Nat.le_refl _, fun u _ x hx => ?_⟩
  exact Function.update_of_ne (fun he : x = list.head => h.head_not_own list u (he ▸ hx)) _ _

theorem Books.not_own (h : Books s body) {c : Chunk} (hc : c ∈ s.own t) : ∀ u, u ≠ t → c ∉ s.own u :=
  fun u hu hm => hu (h.other u t c hm hc)

/-- **A step serves one thread.** -/
theorem Books.served (h : Books s body) (hstep : Chunks.run s t sz = some s') : Served t s s' := by
  have hok := h.ok t
  rw [Chunks.run] at hstep
  cases hpc : s.pc t with
  | idle =>
    rw [hpc] at hstep
    cases hstep
  | adLink k list ch ch_next x chain =>
    rw [hpc] at hstep hok
    cases hstep
    exact Served.store (h.not_own hok.2.mem)
  | adCas k list ch ch_next h_next chain =>
    rw [hpc] at hstep
    dsimp only at hstep
    split at hstep
    · cases hstep
      exact Served.swing h list
    · cases hstep
      exact Served.goto
  | emWalk k n rh rt seen =>
    rw [hpc] at hstep
    dsimp only at hstep
    split at hstep
    · cases hstep
      exact Served.goto
    · cases hstep
      exact Served.goto
  | emMore k n =>
    rw [hpc] at hstep
    cases hstep
    refine ⟨fun _ hu => Function.update_of_ne hu _ _, fun _ hu => Function.update_of_ne hu _ _,
      Nat.le_add_right _ _, fun u _ c hc => ?_⟩
    exact if_neg fun hb => absurd hb.1 (Nat.not_le.mpr (h.owned u c hc).1.2)
  | emCas k n rh rt rt_next seen =>
    rw [hpc] at hstep
    dsimp only at hstep
    split at hstep
    · cases hstep
      exact Served.swing h .free
    · cases hstep
      exact Served.goto
  | emClose k rh rt seen =>
    rw [hpc] at hstep hok
    cases hstep
    exact Served.store (h.not_own (Linked.mem hok))
  | alFill i =>
    rw [hpc] at hstep
    dsimp only at hstep
    split at hstep
    · cases hstep
      exact Served.goto
    · cases hstep
  | alCas i p p_next =>
    rw [hpc] at hstep
    dsimp only at hstep
    split at hstep
    · cases hstep
      exact Served.swing h (.alloc i)
    · cases hstep
      exact Served.goto
  | alClose i p =>
    rw [hpc] at hstep hok
    cases hstep
    exact Served.store (h.not_own hok)
  | _ =>
    rw [hpc] at hstep
    cases hstep
    exact Served.goto

/-! ### What a thread is waiting for -/

/-- What a client has called: nothing, or one of the functions. -/
inductive Service (nr_sizes : ℕ) where
  | none
  | add
  | empty
  | alloc (i : Fin nr_sizes)

def Caller.service : Caller nr_sizes → Service nr_sizes
  | .client => .empty
  | .get_filled_chunks i => .alloc i

def Adder.service : Adder nr_sizes → Service nr_sizes
  | .client => .add
  | .get_empty_chunks k _ => k.service
  | .get_alloc_chunk i => .alloc i

/-- What the thread is waiting for. -/
def Pc.service : Pc nr_sizes → Service nr_sizes
  | .idle => .none
  | .adNext k .. | .adHead k .. | .adLink k .. | .adCas k .. => k.service
  | .emHead k .. | .emWalk k .. | .emMore k .. | .emNext k .. | .emCas k .. | .emClose k .. => k.service
  | .alHead i | .alFill i | .alNext i .. | .alCas i .. | .alClose i .. => .alloc i

theorem idle_of_service {pc : Pc nr_sizes} (h : pc.service = .none) : pc = .idle := by
  have hcaller : ∀ k : Caller nr_sizes, k.service ≠ .none := fun k => by cases k <;> nofun
  have hadder : ∀ k : Adder nr_sizes, k.service ≠ .none := fun k => by
    cases k with
    | get_empty_chunks k n => exact hcaller k
    | client => nofun
    | get_alloc_chunk i => nofun
  cases pc <;> first | rfl | cases h | exact absurd h (hcaller _) | exact absurd h (hadder _)

theorem service_walk {k : Caller nr_sizes} {n : ℕ} {rh rt : Chunk} :
    (walk k n rh rt l).service = k.service := by
  rw [walk]
  split <;> rfl

theorem service_found {i : Fin nr_sizes} {p : Chunk} : (found i p).service = .alloc i := by
  rw [found]
  split <;> rfl

/-- A thread goes on waiting for the same, or has got it. -/
theorem run_service (h : run s t sz = some s') :
    (s'.pc t).service = (s.pc t).service ∨ s'.pc t = .idle := by
  rw [run] at h
  cases hpc : s.pc t with
  | idle =>
    rw [hpc] at h
    cases h
  | adCas k list ch ch_next h_next chain =>
    rw [hpc] at h
    dsimp only at h
    split at h
    · cases h
      rw [goto_pc]
      cases k with
      | client => exact Or.inr rfl
      | _ => exact Or.inl rfl
    · cases h
      rw [goto_pc]
      exact Or.inl rfl
  | emHead k n =>
    rw [hpc] at h
    cases h
    rw [goto_pc]
    exact Or.inl service_walk
  | emWalk k n rh rt seen =>
    rw [hpc] at h
    dsimp only at h
    split at h
    · cases h
      rw [goto_pc]
      exact Or.inl rfl
    · cases h
      rw [goto_pc]
      exact Or.inl service_walk
  | emCas k n rh rt rt_next seen =>
    rw [hpc] at h
    dsimp only at h
    split at h
    · cases h
      rw [goto_pc]
      exact Or.inl rfl
    · cases h
      rw [goto_pc]
      exact Or.inl service_walk
  | emClose k rh rt seen =>
    rw [hpc] at h
    cases h
    rw [goto_pc]
    cases k with
    | client => exact Or.inr rfl
    | get_filled_chunks i => exact Or.inl rfl
  | alHead i =>
    rw [hpc] at h
    cases h
    rw [goto_pc]
    exact Or.inl service_found
  | alFill i =>
    rw [hpc] at h
    dsimp only at h
    split at h
    · cases h
      rw [goto_pc]
      exact Or.inl rfl
    · cases h
  | alCas i p p_next =>
    rw [hpc] at h
    dsimp only at h
    split at h
    · cases h
      rw [goto_pc]
      exact Or.inl rfl
    · cases h
      rw [goto_pc]
      exact Or.inl service_found
  | alClose i p =>
    rw [hpc] at h
    cases h
    exact Or.inr goto_pc
  | _ =>
    rw [hpc] at h
    cases h
    rw [goto_pc]
    exact Or.inl rfl

/-- **How a call ends**: chunks have been put on a list, or the thread has a ring of empty chunks, or one
chunk of an allocation list. -/
theorem run_idle (h : run s t sz = some s') (hidle : s'.pc t = .idle) :
    (∃ list ch ch_next h_next chain, s.pc t = .adCas .client list ch ch_next h_next chain) ∨
      (∃ rh rt seen, s.pc t = .emClose .client rh rt seen ∧ s' = (s.store rt rh).goto t .idle) ∨
      ∃ i p, s.pc t = .alClose i p ∧ s' = (s.store p p).goto t .idle := by
  have hnone : ∀ {pc : Pc nr_sizes} {i : Service nr_sizes}, pc.service = i → i ≠ .none → pc ≠ .idle :=
    fun hs hi he => hi (by rw [← hs, he]; rfl)
  have hcaller : ∀ k : Caller nr_sizes, k.service ≠ .none := fun k => by cases k <;> simp [Caller.service]
  rw [run] at h
  cases hpc : s.pc t with
  | idle =>
    rw [hpc] at h
    cases h
  | adCas k list ch ch_next h_next chain =>
    rw [hpc] at h
    dsimp only at h
    split at h
    · cases h
      rw [goto_pc] at hidle
      cases k with
      | client => exact Or.inl ⟨list, ch, ch_next, h_next, chain, rfl⟩
      | get_empty_chunks k n => cases hidle
      | get_alloc_chunk i => cases hidle
    · cases h
      rw [goto_pc] at hidle
      cases hidle
  | emHead k n =>
    rw [hpc] at h
    cases h
    rw [goto_pc] at hidle
    exact absurd hidle (hnone service_walk (hcaller k))
  | emWalk k n rh rt seen =>
    rw [hpc] at h
    dsimp only at h
    split at h
    · cases h
      rw [goto_pc] at hidle
      cases hidle
    · cases h
      rw [goto_pc] at hidle
      exact absurd hidle (hnone service_walk (hcaller k))
  | emCas k n rh rt rt_next seen =>
    rw [hpc] at h
    dsimp only at h
    split at h
    · cases h
      rw [goto_pc] at hidle
      cases hidle
    · cases h
      rw [goto_pc] at hidle
      exact absurd hidle (hnone service_walk (hcaller k))
  | emClose k rh rt seen =>
    rw [hpc] at h
    cases h
    rw [goto_pc] at hidle
    cases k with
    | client => exact Or.inr (Or.inl ⟨rh, rt, seen, rfl, rfl⟩)
    | get_filled_chunks i => cases hidle
  | alHead i =>
    rw [hpc] at h
    cases h
    rw [goto_pc] at hidle
    exact absurd hidle (hnone service_found (by simp))
  | alFill i =>
    rw [hpc] at h
    dsimp only at h
    split at h
    · cases h
      rw [goto_pc] at hidle
      cases hidle
    · cases h
  | alCas i p p_next =>
    rw [hpc] at h
    dsimp only at h
    split at h
    · cases h
      rw [goto_pc] at hidle
      cases hidle
    · cases h
      rw [goto_pc] at hidle
      exact absurd hidle (hnone service_found (by simp))
  | alClose i p =>
    rw [hpc] at h
    cases h
    exact Or.inr (Or.inr ⟨i, p, rfl, rfl⟩)
  | _ =>
    rw [hpc] at h
    cases h
    rw [goto_pc] at hidle
    cases hidle

end ConcurrentPQ.Chunks

import ConcurrentPQ.Linden.Custody
import Mathlib.Data.Fintype.EquivFin

/-!
# Each step keeps the rings

One lemma for each kind of step of `Collector`: the steps that touch no ring, those that link chunks, those
that move chunks from one ring to another, and those with which chunks go to the shared lists or come from
there.

* `Spared` — a step takes chunks from garbage rings only where `gc_reclaim` does;
* `Custody.code`, `Custody.lists_step` — the functions, and the steps of the shared lists;
* `Custody.step` — **every step keeps the rings**, as long as all removals are current.
-/

namespace ConcurrentPQ.Collector

open ConcurrentPQ.Transition ConcurrentPQ.Announce ConcurrentPQ.Segment ConcurrentPQ.Circle
open ConcurrentPQ.Allocator (Chunk Block Ptst BLKS_PER_CHUNK NR_EPOCHS setGarbage_garbage setTail_tail)

variable {n : ℕ} {s s' x : State n} {t u v w : Tid} {c d ch new prev : Chunk} {pc q : Pc n} {gc : Ptst} {sz : ℕ}
  {body : Chunks.Lst n → List Chunk} {O O' : Tid → List Chunk} {L L' : Place n → List Chunk} {p : Place n}

/-! ### What a step takes from the garbage rings -/

/-- Garbage rings lose chunks only where `gc_reclaim` cuts them. -/
def Spared (s : State n) (t : Tid) (L L' : Place n → List Chunk) : Prop :=
  ∀ v e i, (∀ k x ch tail, s.pc t = .rcClose k x ch tail → (v, e, i) ≠ (k.ptst, succ k.curr_epoch, k.i)) →
    ∀ c ∈ L (.garbage v e i), c ∈ L' (.garbage v e i)

/-- A step keeps the rings. -/
def Turned (w : Tid) (s : State n) (t : Tid) (L : Place n → List Chunk) (s' : State n) : Prop :=
  ∃ body' O' L', Custody w s' body' O' L' ∧ Spared s t L L'

theorem Custody.turned {body' : Chunks.Lst n → List Chunk} (h : Custody w s' body' O' L) : Turned w s t L s' :=
  ⟨body', O', L, h, fun _ _ _ _ _ hc => hc⟩

/-! ### Steps that touch no ring -/

/-- All that is asserted at the program counter is that no chunk has just been taken. -/
def Pc.bare : Pc n → Prop
  | .rcNext .. | .rcTail .. | .rcClose .. | .rcStore .. | .rcSelf .. | .alReturn _ | .alGet _ | .alNext ..
  | .alLink .. | .frFull .. | .frPrev .. | .frPut .. | .frCache .. | .frFetch .. | .frUnlink .. | .frSelf ..
  | .frHead .. | .frStore .. | .frLink .. | .frClose .. => False
  | _ => True

theorem ok_bare (h : (s.pc t).bare) : Ok s L t ↔ L (.hand t) = [] := by
  rw [Ok]
  cases hpc : s.pc t <;> rw [hpc] at h <;> first | rfl | exact h.elim

/-- The thread waits for nothing, mends nothing, and its pointers are up to date. -/
structure Pc.Plain (pc : Pc n) : Prop where
  service : pc.service = .none
  mends : ¬pc.mends
  lacks : ∀ i, ¬pc.lacks i

theorem sweep_bare {l : List (Tid × Fin n)} : (sweep c l).bare ∧ (sweep c l).service = .none := by
  cases l with
  | nil => exact ⟨trivial, rfl⟩
  | cons a l => exact ⟨trivial, rfl⟩

theorem scan_bare {f l : List Tid} : (scan (n := n) c f l).bare ∧ (scan (n := n) c f l).service = .none := by
  cases l with
  | nil => exact sweep_bare
  | cons v l => exact ⟨trivial, rfl⟩

/-- A thread goes on without touching a chunk. -/
theorem Custody.go (h : Custody w s body O L) (hT : Timed s) (hb : Beside t s (x.goto t q)) (ht : t ∈ s.ptst_list)
    (hpc : (s.pc t).Plain) (hl : x.lists = s.lists) (hp : ∀ u, Ptst.pointers (x.ptst u) = Ptst.pointers (s.ptst u))
    (hq : q.service = .none) (hok : Ok (x.goto t q) L t) : Turned w s t L (x.goto t q) := by
  refine (h.quiet hT hb ht hl hp ?_ hpc.mends (fun i hi => absurd hi (hpc.lacks i)) hok).turned
  rw [goto_pc, hq, hpc.service]

/-- A thread comes to where it knows no more than that it has taken nothing. -/
theorem Custody.rest (h : Custody w s body O L) (hT : Timed s) (hb : Beside t s (x.goto t q))
    (ht : t ∈ s.ptst_list) (hpc : (s.pc t).Plain) (hl : x.lists = s.lists)
    (hp : ∀ u, Ptst.pointers (x.ptst u) = Ptst.pointers (s.ptst u)) (hq : q.bare ∧ q.service = .none)
    (hhand : L (.hand t) = []) : Turned w s t L (x.goto t q) := by
  refine h.go hT hb ht hpc hl hp hq.2 ?_
  rw [ok_bare]
  · exact hhand
  · rw [goto_pc]
    exact hq.1

theorem pointers_setPtst (h : Ptst.pointers gc = Ptst.pointers (s.ptst v)) (u : Tid) :
    Ptst.pointers ((s.setPtst v gc).ptst u) = Ptst.pointers (s.ptst u) := by
  show Ptst.pointers (Function.update s.ptst v gc u) = _
  by_cases hu : u = v
  · rw [hu, Function.update_self]
    exact h
  · rw [Function.update_of_ne hu]

theorem Custody.bare (h : Custody w s body O L) (hpc : (s.pc t).bare) : L (.hand t) = [] :=
  (ok_bare hpc).mp (h.ok t)

/-! ### Calls of the functions on the shared lists -/

@[simp] theorem call_lists {lpc : Chunks.Pc n} : (x.call t lpc q).lists.pc t = lpc := Function.update_self _ _ _

/-- Chunks are asked for. -/
theorem Custody.ask {lpc : Chunks.Pc n} (h : Custody w s body O L) (hT : Timed s)
    (hb : Beside t s (x.call t lpc q)) (ht : t ∈ s.ptst_list) (hpc : (s.pc t).Plain) (hl : x.lists = s.lists)
    (hp : ∀ u, Ptst.pointers (x.ptst u) = Ptst.pointers (s.ptst u)) (hq : lpc.service = q.service)
    (hlpc : ∀ next own, Chunks.Ok next own lpc) (hok : Ok (x.call t lpc q) L t) :
    Turned w s t L (x.call t lpc q) := by
  have hlists : (x.call t lpc q).lists = s.lists.goto t lpc := congrArg (Chunks.State.goto · t lpc) hl
  have hbooks : Chunks.Books ((x.call t lpc q).lists.withOwn O) body := by
    rw [hlists]
    exact Chunks.Books.goto (s := s.lists.withOwn O) h.lists (hlpc _ _)
  refine (h.untouched hT hb ht (fun p c _ => by rw [hlists]; rfl) (fun u hu => ?_) hbooks rfl hp ?_
    hpc.mends (fun i hi => absurd hi (hpc.lacks i)) hok).turned
  · rw [hlists]
    exact Function.update_of_ne hu _ _
  · rw [call_lists, call_pc, hq]

/-! ### Chunks that change places -/

/-- **Two places of a thread exchange chunks**, and at most one link of theirs is changed. -/
theorem Custody.exchange {P Q : Place n} {A B : List Chunk} (h : Custody w s body O L) (hT : Timed s)
    (hb : Beside t s s') (ht : t ∈ s.ptst_list) (hPQ : P ≠ Q) (hP : ¬P.Outside s t) (hQ : ¬Q.Outside s t)
    (hl : s'.lists = s.lists ∨ ∃ c d, (c ∈ L P ∨ c ∈ L Q) ∧ s'.lists = s.lists.store c d)
    (hgc : ∀ u, u ≠ t → (s'.ptst u).chunk_cache = (s.ptst u).chunk_cache ∧ (s'.ptst u).alloc = (s.ptst u).alloc)
    (hgarbage : ∀ a, s.area t ≠ some a →
      (s'.ptst a.1).garbage a.2.1 a.2.2 = (s.ptst a.1).garbage a.2.1 a.2.2 ∧
      (s'.ptst a.1).garbage_tail a.2.1 a.2.2 = (s.ptst a.1).garbage_tail a.2.1 a.2.2)
    (hserv : (s'.pc t).service = (s.pc t).service) (hperm : (A ++ B).Perm (L P ++ L Q))
    (hcirc : (P.Closed → Circ s'.lists.next A) ∧ (Q.Closed → Circ s'.lists.next B))
    (hcache : (regroup L P Q A B (.cache t)).head? = some (s'.ptst t).chunk_cache)
    (halloc : ∀ i : Fin n, ¬(s'.pc t).lacks i →
      (regroup L P Q A B (.alloc t i)).head? = some ((s'.ptst t).alloc i))
    (hung : ∀ a, s.area t = some a → ((s'.pc t).mends ∧ s'.area t = some a) ∨ Hung s' (regroup L P Q A B) a)
    (hok : Ok s' (regroup L P Q A B) t) : Custody w s' body O (regroup L P Q A B) := by
  have hlists : s'.lists.pc = s.lists.pc ∧ Chunks.Books (s'.lists.withOwn O) body ∧
      ∀ p, p ≠ P → p ≠ Q → ∀ c ∈ L p, s'.lists.next c = s.lists.next c := by
    rcases hl with he | ⟨c, d, hc, he⟩
    · rw [he]
      exact ⟨rfl, h.lists, fun _ _ _ _ _ => rfl⟩
    · rw [he]
      cases hc with
      | inl hc => exact ⟨rfl, h.store hc, fun p hp _ y hy => h.next_of_ne hc hy hp⟩
      | inr hc => exact ⟨rfl, h.store hc, fun p _ hq y hy => h.next_of_ne hc hy hq⟩
  have hch : Change t s s' L (regroup L P Q A B) fun p => p = P ∨ p = Q := by
    refine ⟨fun p hp => ?_, fun u _ => by rw [hlists.1], hgc, hgarbage, fun p hp => ?_, fun p hp => ?_⟩
    · cases hp with
      | inl he => rw [he]; exact hP
      | inr he => rw [he]; exact hQ
    · rw [not_or] at hp
      exact regroup_of_ne hp.1 hp.2
    · rw [not_or] at hp
      exact hlists.2.2 p hp.1 hp.2
  refine h.turn hT hb hch ht hlists.2.1 ?_ (h.shelves.move hPQ hperm) (fun p hp hclosed => ?_)
    hcache halloc hung hok
  · rw [hlists.1, hserv]
    exact h.service t
  · by_cases hpQ : p = Q
    · rw [hpQ] at hclosed ⊢
      rw [regroup_right]
      exact hcirc.2 hclosed
    · have hpP := hp.resolve_right hpQ
      rw [hpP] at hclosed ⊢
      rw [regroup_left hPQ]
      exact hcirc.1 hclosed

/-- The area of a thread that works on no garbage ring. -/
theorem area_none (hf : (s.pc t).freeing = none) (hs : (s.pc t).sweeping = none) : s.area t = none := by
  rw [State.area, hf, hs]
  rfl

/-- A place that is neither of the two. -/
theorem spared_regroup {P Q : Place n} {lp lq : List Chunk}
    (hP : ∀ v e i, P ≠ .garbage v e i) (hQ : ∀ v e i, Q = .garbage v e i → ∀ c ∈ L Q, c ∈ lq) :
    Spared s t L (regroup L P Q lp lq) := by
  intro v e i _ c hc
  by_cases hq : Place.garbage v e i = Q
  · rw [hq, regroup_right]
    exact hQ v e i hq.symm c (hq ▸ hc)
  · rw [regroup_of_ne (hP v e i).symm hq]
    exact hc

/-- `chunk_from_cache` takes the second chunk of the cache. -/
theorem Custody.unlink {k : Freeing n} {a : Option (Chunk × Chunk)} {y : Chunk} (h : Custody w s body O L)
    (hT : Timed s) (ht : t ∈ s.ptst_list) (hpc : s.pc t = .frUnlink k a y)
    (hb : Beside t s ((s.store (s.ptst t).chunk_cache (s.lists.next y)).goto t (.frSelf k a y))) :
    Turned w s t L ((s.store (s.ptst t).chunk_cache (s.lists.next y)).goto t (.frSelf k a y)) := by
  have hok := h.ok t
  rw [Ok, hpc] at hok
  obtain ⟨hhand, hsite, hnext, hne⟩ := hok
  -- the ring of the cache begins with the two chunks
  obtain ⟨z, hz⟩ : ∃ z, L (.cache t) = (s.ptst t).chunk_cache :: y :: z := by
    obtain ⟨l, hl⟩ := List.head?_eq_some_iff.mp (h.cache t ht)
    have hcirc := h.circ (.cache t) trivial
    rw [hl] at hcirc
    cases l with
    | nil => exact absurd (circ_singleton.mp hcirc) fun he => hne (he.symm.trans hnext)
    | cons b l =>
      have hb : s.lists.next (s.ptst t).chunk_cache = b := (circ_cons.mp hcirc).1
      exact ⟨l, by rw [hl, ← hb, hnext]⟩
  have hcirc := h.circ (.cache t) trivial
  have hnodup := h.shelves.nodup (.cache t)
  rw [hz] at hcirc hnodup
  have hPQ : (Place.cache t : Place n) ≠ .hand t := by simp
  have hsame : ∀ r, r ≠ Place.cache t → r ≠ .hand t →
      regroup L (.cache t) (.hand t) ((s.ptst t).chunk_cache :: z) [y] r = L r := fun _ => regroup_of_ne
  refine ⟨body, O, _, h.exchange hT hb ht (P := .cache t) (Q := .hand t) (A := (s.ptst t).chunk_cache :: z)
    (B := [y]) hPQ (fun hout => hout rfl) (fun hout => hout rfl) ?_ (fun _ _ => ⟨rfl, rfl⟩)
    (fun _ _ => ⟨rfl, rfl⟩) ?_ ?_ ⟨fun _ => hcirc.unlink hnodup, False.elim⟩ ?_ (fun i hi => ?_)
    (fun b hab => ?_) ?_, spared_regroup (by simp) (by simp)⟩
  · exact Or.inr ⟨_, _, Or.inl (by rw [hz]; exact List.mem_cons_self), rfl⟩
  · rw [goto_pc, hpc]
    rfl
  · rw [hz, hhand, List.append_nil]
    exact List.Perm.cons _ (List.perm_append_singleton y z)
  · rw [regroup_left hPQ]
    rfl
  · rw [hsame (.alloc t i) (by simp) (by simp)]
    exact h.alloc t ht i (by rw [hpc]; exact id)
  · have hung := h.hung hT (by rw [hpc]; exact id) hab
    have hring := hsame (.garbage b.1 b.2.1 b.2.2) (by simp) (by simp)
    exact Or.inr ⟨by rw [hring]; exact hung.head, by rw [hring]; exact hung.tail⟩
  · rw [Ok, goto_pc]
    refine ⟨regroup_right, ?_⟩
    cases a with
    | none => exact hsite
    | some b => exact hsite

/-- The chunk that has been taken from the cache is a ring of its own. -/
theorem Custody.self {k : Freeing n} {a : Option (Chunk × Chunk)} {y : Chunk} (h : Custody w s body O L)
    (hT : Timed s) (ht : t ∈ s.ptst_list) (hpc : s.pc t = .frSelf k a y)
    (hb : Beside t s (((s.store y y).setI y 0).goto t (.frHead k a y))) :
    Turned w s t L (((s.store y y).setI y 0).goto t (.frHead k a y)) := by
  have hok := h.ok t
  rw [Ok, hpc] at hok
  refine (h.store_hand hT hb ht (c := y) (d := y) (by rw [hok.1]; exact List.mem_cons_self) rfl (fun _ => rfl) ?_
    (fun i hi => ?_) (fun hm => ?_) ?_).turned
  · rw [goto_pc, hpc]
    rfl
  · rw [hpc] at hi
    exact hi.elim
  · rw [hpc] at hm
    exact hm.elim
  · rw [Ok, goto_pc]
    refine ⟨hok.1, ?_, Function.update_self _ _ _⟩
    cases a with
    | none => exact hok.2
    | some b => exact hok.2

/-- The lists of the other threads, or other lists of the thread, keep their pointers. -/
theorem setPtst_garbage {a : Tid × ℕ × Fin n} {e : ℕ} {i : Fin n} (ha : a ≠ (v, e, i))
    (hg : gc = (s.ptst v).setGarbage e i c ∨ gc = (s.ptst v).setTail e i c) :
    ((s.setPtst v gc).ptst a.1).garbage a.2.1 a.2.2 = (s.ptst a.1).garbage a.2.1 a.2.2 ∧
    ((s.setPtst v gc).ptst a.1).garbage_tail a.2.1 a.2.2 = (s.ptst a.1).garbage_tail a.2.1 a.2.2 := by
  show (Function.update s.ptst v gc a.1).garbage a.2.1 a.2.2 = _ ∧
    (Function.update s.ptst v gc a.1).garbage_tail a.2.1 a.2.2 = _
  by_cases hv : a.1 = v
  · have hne : ¬(a.2.1 = e ∧ (a.2.2 : ℕ) = i) := fun he =>
      ha (Prod.ext hv (Prod.ext he.1 (Fin.ext he.2)))
    rw [hv, Function.update_self]
    cases hg with
    | inl hg => rw [hg]; exact ⟨setGarbage_garbage.trans (if_neg hne), rfl⟩
    | inr hg => rw [hg]; exact ⟨rfl, setTail_tail.trans (if_neg hne)⟩
  · rw [Function.update_of_ne hv]
    exact ⟨rfl, rfl⟩

/-- Neither the cache nor the allocation rings of a thread depend on its garbage pointers. -/
theorem setPtst_rest {e i : ℕ} (hg : gc = (s.ptst v).setGarbage e i c ∨ gc = (s.ptst v).setTail e i c) :
    ((s.setPtst v gc).ptst u).chunk_cache = (s.ptst u).chunk_cache ∧
      ((s.setPtst v gc).ptst u).alloc = (s.ptst u).alloc := by
  show (Function.update s.ptst v gc u).chunk_cache = _ ∧ (Function.update s.ptst v gc u).alloc = _
  by_cases hu : u = v
  · rw [hu, Function.update_self]
    cases hg with
    | inl hg => rw [hg]; exact ⟨rfl, rfl⟩
    | inr hg => rw [hg]; exact ⟨rfl, rfl⟩
  · rw [Function.update_of_ne hu]
    exact ⟨rfl, rfl⟩

/-- **A pointer to the garbage ring** that the thread works on is changed. -/
theorem Custody.point {e : ℕ} {i : Fin n} (h : Custody w s body O L) (hT : Timed s) (ht : t ∈ s.ptst_list)
    (hb : Beside t s ((s.setPtst v gc).goto t q)) (harea : s.area t = some (v, e, i))
    (hg : gc = (s.ptst v).setGarbage e i c ∨ gc = (s.ptst v).setTail e i c)
    (hserv : (s.pc t).service = .none ∧ q.service = .none) (hlacks : ∀ i, ¬(s.pc t).lacks i)
    (hung : (q.mends ∧ ((s.setPtst v gc).goto t q).area t = some (v, e, i)) ∨
      Hung ((s.setPtst v gc).goto t q) L (v, e, i)) (hok : Ok ((s.setPtst v gc).goto t q) L t) :
    Turned w s t L ((s.setPtst v gc).goto t q) := by
  have hch : Change t s ((s.setPtst v gc).goto t q) L L fun _ => False := by
    refine ⟨nofun, fun _ _ => rfl, fun u _ => setPtst_rest hg, fun a ha => ?_, fun _ _ => rfl, fun _ _ _ _ => rfl⟩
    exact setPtst_garbage (fun he => ha (he ▸ harea)) hg
  refine (h.turn hT hb hch ht h.lists ?_ h.shelves nofun ?_ (fun j _ => ?_) (fun a ha => ?_) hok).turned
  · rw [goto_pc, hserv.2, ← hserv.1]
    exact h.service t
  · exact (h.cache t ht).trans (congrArg some (setPtst_rest hg).1.symm)
  · have halloc := (setPtst_rest (s := s) (u := t) hg).2
    refine (h.alloc t ht j (hlacks j)).trans ?_
    exact congrArg (fun f : ℕ → Chunk => some (f j)) halloc.symm
  · rw [harea] at ha
    obtain rfl := Option.some.inj ha
    rw [goto_pc]
    exact hung

/-- The new chunk becomes the first of its list. -/
theorem Custody.head {k : Freeing n} {a : Chunk × Chunk} (h : Custody w s body O L) (hT : Timed s)
    (ht : t ∈ s.ptst_list) (hpc : s.pc t = .frHead k (some a) new)
    (hb : Beside t s ((s.setPtst t ((s.ptst t).setGarbage (s.ptst t).epoch k.alloc_id new)).goto t
      (.frLink k new a.1 a.2))) :
    Turned w s t L ((s.setPtst t ((s.ptst t).setGarbage (s.ptst t).epoch k.alloc_id new)).goto t
      (.frLink k new a.1 a.2)) := by
  have hok := h.ok t
  rw [Ok, hpc] at hok
  obtain ⟨hhand, ⟨hfirst, hlast⟩, -⟩ := hok
  have harea : s.area t = some (t, (s.ptst t).epoch, k.alloc_id) := area_of_freeing (by rw [hpc]; rfl)
  have hung := h.hung hT (by rw [hpc]; exact id) harea
  refine h.point hT ht hb harea (Or.inl rfl) (by rw [hpc]; exact ⟨rfl, rfl⟩) (by rw [hpc]; exact fun _ => id)
    (Or.inl ⟨trivial, ?_⟩) ?_
  · rw [area_of_freeing (k := k) (by rw [goto_pc]; rfl)]
    exact congrArg (fun e => some (t, e, k.alloc_id)) own_epoch
  · rw [Ok, goto_pc]
    refine ⟨hhand, ?_, ?_, ?_, ?_⟩
    · show ((s.setPtst t _).ptst t).garbage ((s.setPtst t _).ptst t).epoch k.alloc_id = some new
      rw [setPtst_self]
      exact setGarbage_garbage.trans (if_pos ⟨rfl, rfl⟩)
    · show (L (.garbage t ((s.setPtst t _).ptst t).epoch k.alloc_id)).head? = some a.1
      rw [setPtst_self]
      exact hung.head.trans hfirst
    · show (L (.garbage t ((s.setPtst t _).ptst t).epoch k.alloc_id)).getLast? = some a.2
      rw [setPtst_self]
      exact hung.tail.trans hlast
    · show ((s.setPtst t _).ptst t).garbage_tail ((s.setPtst t _).ptst t).epoch k.alloc_id = some a.2
      rw [setPtst_self]
      exact hlast

/-- The new chunk becomes the first garbage ring of its list. -/
theorem Custody.first {k : Freeing n} (h : Custody w s body O L) (hT : Timed s) (ht : t ∈ s.ptst_list)
    (hpc : s.pc t = .frHead k none new)
    (hb : Beside t s
      ((s.setPtst t ((s.ptst t).setGarbage (s.ptst t).epoch k.alloc_id new)).goto t (.frStore k new))) :
    Turned w s t L
      ((s.setPtst t ((s.ptst t).setGarbage (s.ptst t).epoch k.alloc_id new)).goto t (.frStore k new)) := by
  have hok := h.ok t
  rw [Ok, hpc] at hok
  obtain ⟨hhand, hfirst, hself⟩ := hok
  have harea : s.area t = some (t, (s.ptst t).epoch, k.alloc_id) := area_of_freeing (by rw [hpc]; rfl)
  have hung := h.hung hT (by rw [hpc]; exact id) harea
  have hempty : L (.garbage t (s.ptst t).epoch k.alloc_id) = [] :=
    List.head?_eq_none_iff.mp (hung.head.trans hfirst)
  have hPQ : (Place.hand t : Place n) ≠ .garbage t (s.ptst t).epoch k.alloc_id := by simp
  have hsame : ∀ r, r ≠ Place.hand t → r ≠ .garbage t (s.ptst t).epoch k.alloc_id →
      regroup L (.hand t) (.garbage t (s.ptst t).epoch k.alloc_id) [] [new] r = L r := fun _ => regroup_of_ne
  refine ⟨body, O, _, h.exchange hT hb ht (P := .hand t) (Q := .garbage t (s.ptst t).epoch k.alloc_id) (A := [])
    (B := [new]) hPQ (fun hout => hout rfl) (fun hout => hout harea) (Or.inl rfl)
    (fun u _ => setPtst_rest (Or.inl rfl)) (fun a ha => setPtst_garbage (fun he => ha (he ▸ harea)) (Or.inl rfl))
    ?_ ?_ ⟨by simp, fun _ => circ_singleton.mpr hself⟩ ?_ (fun i _ => ?_) (fun a ha => Or.inl ?_) ?_,
    spared_regroup (by simp) fun v e i he c hc => ?_⟩
  · rw [goto_pc, hpc]
    rfl
  · rw [hhand, hempty]
    exact List.Perm.refl _
  · rw [hsame (.cache t) (by simp) (by simp)]
    exact (h.cache t ht).trans (congrArg some (setPtst_rest (Or.inl rfl)).1.symm)
  · rw [hsame (.alloc t i) (by simp) (by simp)]
    refine (h.alloc t ht i (by rw [hpc]; exact id)).trans ?_
    exact congrArg (fun f : ℕ → Chunk => some (f i)) (setPtst_rest (Or.inl rfl)).2.symm
  · rw [harea] at ha
    obtain rfl := Option.some.inj ha
    refine ⟨by rw [goto_pc]; trivial, ?_⟩
    rw [area_of_freeing (k := k) (by rw [goto_pc]; rfl)]
    exact congrArg (fun e => some (t, e, k.alloc_id)) own_epoch
  · rw [Ok, goto_pc]
    refine ⟨regroup_left hPQ, ?_, ?_⟩
    · show regroup L _ _ [] [new] (.garbage t ((s.setPtst t _).ptst t).epoch k.alloc_id) = [new]
      rw [setPtst_self]
      exact regroup_right
    · show ((s.setPtst t _).ptst t).garbage ((s.setPtst t _).ptst t).epoch k.alloc_id = some new
      rw [setPtst_self]
      exact setGarbage_garbage.trans (if_pos ⟨rfl, rfl⟩)
  · rw [hempty] at hc
    cases hc

/-- The first garbage ring of a list has a tail. -/
theorem Custody.tail {k : Freeing n} (h : Custody w s body O L) (hT : Timed s) (ht : t ∈ s.ptst_list)
    (hpc : s.pc t = .frStore k new)
    (hb : Beside t s
      ((s.setPtst t ((s.ptst t).setTail (s.ptst t).epoch k.alloc_id new)).goto t (.frPut k new))) :
    Turned w s t L
      ((s.setPtst t ((s.ptst t).setTail (s.ptst t).epoch k.alloc_id new)).goto t (.frPut k new)) := by
  have hok := h.ok t
  rw [Ok, hpc] at hok
  obtain ⟨hhand, hring, hfront⟩ := hok
  have harea : s.area t = some (t, (s.ptst t).epoch, k.alloc_id) := area_of_freeing (by rw [hpc]; rfl)
  refine h.point hT ht hb harea (Or.inr rfl) (by rw [hpc]; exact ⟨rfl, rfl⟩) (by rw [hpc]; exact fun _ => id)
    (Or.inr ⟨?_, ?_⟩) ?_
  · show (ringOf s L t k).head? = ((s.setPtst t _).ptst t).garbage (s.ptst t).epoch k.alloc_id
    rw [setPtst_self, hring]
    exact hfront.symm
  · show (ringOf s L t k).getLast? = ((s.setPtst t _).ptst t).garbage_tail (s.ptst t).epoch k.alloc_id
    rw [setPtst_self, hring]
    exact (setTail_tail.trans (if_pos ⟨rfl, rfl⟩)).symm
  · rw [Ok, goto_pc]
    refine ⟨hhand, ?_⟩
    show ((s.setPtst t _).ptst t).garbage ((s.setPtst t _).ptst t).epoch k.alloc_id = some new
    rw [setPtst_self]
    exact hfront

/-- The new chunk leads to the first one of the ring. -/
theorem Custody.link {k : Freeing n} (h : Custody w s body O L) (hT : Timed s) (ht : t ∈ s.ptst_list)
    (hpc : s.pc t = .frLink k new ch prev) (hb : Beside t s ((s.store new ch).goto t (.frClose k new prev))) :
    Turned w s t L ((s.store new ch).goto t (.frClose k new prev)) := by
  have hok := h.ok t
  rw [Ok, hpc] at hok
  have harea : s.area t = some (t, (s.ptst t).epoch, k.alloc_id) := area_of_freeing (by rw [hpc]; rfl)
  refine (h.store_hand hT hb ht (c := new) (d := ch) (by rw [hok.1]; exact List.mem_cons_self) rfl (fun _ => rfl)
    ?_ (fun i hi => ?_) (fun _ => ⟨by rw [goto_pc]; trivial, ?_⟩) ?_).turned
  · rw [goto_pc, hpc]
    rfl
  · rw [hpc] at hi
    exact hi.elim
  · rw [harea, area_of_freeing (k := k) (by rw [goto_pc]; rfl)]
    rfl
  · rw [Ok, goto_pc]
    refine ⟨hok.1, hok.2.1, ?_, hok.2.2.2.1, hok.2.2.2.2⟩
    exact hok.2.2.1.trans (congrArg some (Function.update_self new ch s.lists.next).symm)

/-- The ring is closed around the new chunk. -/
theorem Custody.close {k : Freeing n} (h : Custody w s body O L) (hT : Timed s) (ht : t ∈ s.ptst_list)
    (hpc : s.pc t = .frClose k new prev) (hb : Beside t s ((s.store prev new).goto t (.frPut k new))) :
    Turned w s t L ((s.store prev new).goto t (.frPut k new)) := by
  have hok := h.ok t
  rw [Ok, hpc] at hok
  obtain ⟨hhand, hfront, hfirst, hlast, htail⟩ := hok
  have harea : s.area t = some (t, (s.ptst t).epoch, k.alloc_id) := area_of_freeing (by rw [hpc]; rfl)
  obtain ⟨y, hy⟩ : ∃ y, L (.garbage t (s.ptst t).epoch k.alloc_id) = s.lists.next new :: y :=
    List.head?_eq_some_iff.mp hfirst
  have hcirc := h.circ (.garbage t (s.ptst t).epoch k.alloc_id) trivial
  have hnodup := h.shelves.nodup (.garbage t (s.ptst t).epoch k.alloc_id)
  rw [ringOf, hy] at hlast
  rw [hy] at hcirc hnodup
  have hPQ : (Place.hand t : Place n) ≠ .garbage t (s.ptst t).epoch k.alloc_id := by simp
  have hnew : new ∉ s.lists.next new :: y := fun hm => hPQ (h.shelves.apart _ _ new
    (by rw [hhand]; exact List.mem_cons_self) (by rw [hy]; exact hm))
  have hsame : ∀ r, r ≠ Place.hand t → r ≠ .garbage t (s.ptst t).epoch k.alloc_id →
      regroup L (.hand t) (.garbage t (s.ptst t).epoch k.alloc_id) [] (new :: s.lists.next new :: y) r = L r :=
    fun _ => regroup_of_ne
  refine ⟨body, O, _, h.exchange hT hb ht (P := .hand t) (Q := .garbage t (s.ptst t).epoch k.alloc_id) (A := [])
    (B := new :: s.lists.next new :: y) hPQ (fun hout => hout rfl) (fun hout => hout harea)
    (Or.inr ⟨prev, new, Or.inr ?_, rfl⟩) (fun _ _ => ⟨rfl, rfl⟩) (fun _ _ => ⟨rfl, rfl⟩) ?_ ?_
    ⟨by simp, fun _ => hcirc.link hlast rfl (List.nodup_cons.mpr ⟨hnew, hnodup⟩)⟩ ?_ (fun i _ => ?_)
    (fun a ha => Or.inr ?_) ?_, spared_regroup (by simp) fun v e i he c hc => ?_⟩
  · rw [hy]
    exact List.mem_of_mem_getLast? hlast
  · rw [goto_pc, hpc]
    rfl
  · rw [hhand, hy]
    exact List.Perm.refl _
  · rw [hsame (.cache t) (by simp) (by simp)]
    exact h.cache t ht
  · rw [hsame (.alloc t i) (by simp) (by simp)]
    exact h.alloc t ht i (by rw [hpc]; exact id)
  · rw [harea] at ha
    obtain rfl := Option.some.inj ha
    refine ⟨by rw [regroup_right]; exact hfront.symm, ?_⟩
    rw [regroup_right, List.getLast?_cons_cons, hlast]
    exact htail.symm
  · rw [Ok, goto_pc]
    exact ⟨regroup_left hPQ, hfront⟩
  · rw [hy] at hc
    exact List.mem_cons_of_mem _ hc

/-! ### Allocation rings -/

/-- The new chunk leads to what the old one leads to. -/
theorem Custody.before {i : Fin n} (h : Custody w s body O L) (hT : Timed s) (ht : t ∈ s.ptst_list)
    (hpc : s.pc t = .alNext i ch)
    (hb : Beside t s ((s.store ch (s.lists.next ((s.ptst t).alloc i))).goto t (.alLink i ch))) :
    Turned w s t L ((s.store ch (s.lists.next ((s.ptst t).alloc i))).goto t (.alLink i ch)) := by
  have hok : L (.hand t) = [ch] := by
    have hok := h.ok t
    rwa [Ok, hpc] at hok
  have hch : ch ∈ L (.hand t) := by rw [hok]; exact List.mem_cons_self
  refine (h.store_hand hT hb ht (c := ch) (d := s.lists.next ((s.ptst t).alloc i)) hch rfl (fun _ => rfl) ?_
    (fun j hj => ?_) (fun hm => ?_) ?_).turned
  · rw [goto_pc, hpc]
    rfl
  · rw [hpc] at hj
    exact hj.elim
  · rw [hpc] at hm
    exact hm.elim
  · rw [Ok, goto_pc]
    refine ⟨hok, (Function.update_self ch _ s.lists.next).trans ?_⟩
    have hhead := List.mem_of_mem_head? (h.alloc t ht i (by rw [hpc]; exact id))
    exact (h.next_of_ne hch hhead (by simp)).symm

/-- The new chunk is the first of the ring. -/
theorem Custody.grow {i : Fin n} (h : Custody w s body O L) (hT : Timed s) (ht : t ∈ s.ptst_list)
    (hpc : s.pc t = .alLink i ch) (hgc : gc = { s.ptst t with alloc := Function.update (s.ptst t).alloc i ch })
    (hb : Beside t s (((s.store ((s.ptst t).alloc i) ch).setPtst t gc).goto t (.alTake i))) :
    Turned w s t L (((s.store ((s.ptst t).alloc i) ch).setPtst t gc).goto t (.alTake i)) := by
  have hok := h.ok t
  rw [Ok, hpc] at hok
  obtain ⟨hhand, hnext⟩ := hok
  obtain ⟨y, hy⟩ := List.head?_eq_some_iff.mp (h.alloc t ht i (by rw [hpc]; exact id))
  have hcirc := h.circ (.alloc t i) trivial
  have hnodup := h.shelves.nodup (.alloc t i)
  rw [hy] at hcirc hnodup
  have hPQ : (Place.hand t : Place n) ≠ .alloc t i := by simp
  have hnew : Circ (Function.update s.lists.next ((s.ptst t).alloc i) ch)
      (ch :: (y ++ [(s.ptst t).alloc i])) := by
    refine circ_close (l := ch :: y) ⟨rfl, by rw [hnext]; exact circ_cons.mp hcirc⟩ ?_
    refine List.nodup_cons.mpr ⟨fun hm => ?_, (List.perm_append_singleton _ y).nodup_iff.mpr hnodup⟩
    have hold := (List.perm_append_singleton _ y).mem_iff.mp hm
    rw [← hy] at hold
    exact hPQ (h.shelves.apart _ _ ch (by rw [hhand]; exact List.mem_cons_self) hold)
  have hsame : ∀ r, r ≠ Place.hand t → r ≠ .alloc t i →
      regroup L (.hand t) (.alloc t i) [] (ch :: (y ++ [(s.ptst t).alloc i])) r = L r := fun _ => regroup_of_ne
  have hother : ∀ u, u ≠ t →
      (((s.store ((s.ptst t).alloc i) ch).setPtst t gc).goto t (.alTake i)).ptst u = s.ptst u :=
    fun u hu => Function.update_of_ne hu _ _
  have hself : (((s.store ((s.ptst t).alloc i) ch).setPtst t gc).goto t (.alTake i)).ptst t = gc := setPtst_self
  have hgarb : ∀ u, (((s.store ((s.ptst t).alloc i) ch).setPtst t gc).goto t (.alTake i)).ptst u = s.ptst u ∨
      (u = t ∧ (((s.store ((s.ptst t).alloc i) ch).setPtst t gc).goto t (.alTake i)).ptst u = gc) := by
    intro u
    by_cases hu : u = t
    · exact Or.inr ⟨hu, hu ▸ hself⟩
    · exact Or.inl (hother u hu)
  refine ⟨body, O, _, h.exchange hT hb ht (P := .hand t) (Q := .alloc t i) (A := [])
    (B := ch :: (y ++ [(s.ptst t).alloc i])) hPQ (fun hout => hout rfl) (fun hout => hout rfl)
    (Or.inr ⟨_, _, Or.inr (by rw [hy]; exact List.mem_cons_self), rfl⟩)
    (fun u hu => by rw [hother u hu]; exact ⟨rfl, rfl⟩) (fun a _ => ?_) ?_ ?_ ⟨by simp, fun _ => hnew⟩ ?_
    (fun j _ => ?_) (fun a ha => ?_) ?_, spared_regroup (by simp) (by simp)⟩
  · cases hgarb a.1 with
    | inl he => rw [he]; exact ⟨rfl, rfl⟩
    | inr he => rw [he.2, hgc, he.1]; exact ⟨rfl, rfl⟩
  · rw [goto_pc, hpc]
    rfl
  · rw [hhand, hy]
    exact List.Perm.cons _ (List.perm_append_singleton _ y)
  · rw [hsame (.cache t) (by simp) (by simp), hself, hgc]
    exact h.cache t ht
  · rw [hself, hgc]
    by_cases hj : j = i
    · rw [hj, regroup_right]
      show some ch = some (Function.update (s.ptst t).alloc i ch i)
      rw [Function.update_self]
    · have hne : ((j : Fin n) : ℕ) ≠ i := fun he => hj (Fin.ext he)
      rw [hsame (.alloc t j) (by simp) fun he => hj (Place.alloc.inj he).2]
      refine (h.alloc t ht j (by rw [hpc]; exact id)).trans (congrArg some ?_)
      exact (Function.update_of_ne hne _ _).symm
  · rw [area_none (by rw [hpc]; rfl) (by rw [hpc]; rfl)] at ha
    cases ha
  · rw [ok_bare (by rw [goto_pc]; trivial)]
    exact regroup_left hPQ

/-! ### Reclaiming -/

/-- A ring of which the first chunk leads elsewhere. -/
theorem exists_second {f : Chunk → Chunk} {l : List Chunk} (hcirc : Circ f l) (hhead : l.head? = some c)
    (hc : f c = d) (hne : c ≠ d) : ∃ y, l = c :: d :: y := by
  obtain ⟨l, rfl⟩ := List.head?_eq_some_iff.mp hhead
  cases l with
  | nil => exact absurd ((circ_singleton.mp hcirc).symm.trans hc) hne
  | cons b l =>
    have hb : f c = b := (circ_cons.mp hcirc).1
    exact ⟨l, by rw [← hb, hc]⟩

/-- **The ring of a garbage list is cut** behind its first chunk. -/
theorem Custody.cut {k : Sweeping n} {y tail : Chunk} (h : Custody w s body O L) (hT : Timed s)
    (ht : t ∈ s.ptst_list) (hpc : s.pc t = .rcClose k y ch tail)
    (hb : Beside t s ((s.store tail ch).goto t (.rcStore k y ch))) :
    Turned w s t L ((s.store tail ch).goto t (.rcStore k y ch)) := by
  have hok := h.ok t
  rw [Ok, hpc] at hok
  obtain ⟨hhand, hhangs, hnext, hne, htail⟩ := hok
  have harea : s.area t = some (k.ptst, succ k.curr_epoch, k.i) := area_of_sweeping (by rw [hpc]; rfl)
  have hung := h.hung hT (by rw [hpc]; exact id) harea
  have hcirc := h.circ (.garbage k.ptst (succ k.curr_epoch) k.i) trivial
  obtain ⟨z, hz⟩ := exists_second hcirc (hung.head.trans hhangs) hnext hne.symm
  have hnodup := h.shelves.nodup (.garbage k.ptst (succ k.curr_epoch) k.i)
  have hlast : (ch :: z).getLast? = some tail := by
    have hlast := hung.tail.trans htail
    dsimp only at hlast
    rwa [hz, List.getLast?_cons_cons] at hlast
  rw [hz] at hcirc hnodup
  have hPQ : (Place.garbage k.ptst (succ k.curr_epoch) k.i : Place n) ≠ .hand t := by simp
  have hsame : ∀ r, r ≠ Place.garbage k.ptst (succ k.curr_epoch) k.i → r ≠ .hand t →
      regroup L (.garbage k.ptst (succ k.curr_epoch) k.i) (.hand t) [] (y :: ch :: z) r = L r :=
    fun _ => regroup_of_ne
  refine ⟨body, O, _, h.exchange hT hb ht (P := .garbage k.ptst (succ k.curr_epoch) k.i) (Q := .hand t) (A := [])
    (B := y :: ch :: z) hPQ (fun hout => hout harea) (fun hout => hout rfl)
    (Or.inr ⟨tail, ch, Or.inl ?_, rfl⟩) (fun _ _ => ⟨rfl, rfl⟩) (fun _ _ => ⟨rfl, rfl⟩) ?_ ?_
    ⟨fun _ => circ_nil, False.elim⟩ ?_ (fun i _ => ?_) (fun a ha => Or.inl ?_) ?_, fun v e i hne c hc => ?_⟩
  · rw [hz]
    exact List.mem_cons_of_mem _ (List.mem_of_mem_getLast? hlast)
  · rw [goto_pc, hpc]
    rfl
  · rw [hhand, hz, List.append_nil]
    exact List.Perm.refl _
  · rw [hsame (.cache t) (by simp) (by simp)]
    exact h.cache t ht
  · rw [hsame (.alloc t i) (by simp) (by simp)]
    exact h.alloc t ht i (by rw [hpc]; exact id)
  · rw [harea] at ha
    refine ⟨by rw [goto_pc]; trivial, ?_⟩
    rw [area_of_sweeping (k := k) (by rw [goto_pc]; rfl)]
    exact ha
  · rw [Ok, goto_pc]
    refine ⟨⟨regroup_left hPQ, z, regroup_right, ?_⟩, hhangs⟩
    exact hcirc.close_tail hlast (List.nodup_cons.mp hnodup).2
  · rw [hsame (.garbage v e i) (fun he => ?_) (by simp)]
    · exact hc
    · obtain ⟨rfl, rfl, rfl⟩ := Place.garbage.inj he
      exact hne k y ch tail hpc rfl

/-- The tail of the list is its first chunk. -/
theorem Custody.shorten {k : Sweeping n} {y : Chunk} (h : Custody w s body O L) (hT : Timed s)
    (ht : t ∈ s.ptst_list) (hpc : s.pc t = .rcStore k y ch)
    (hb : Beside t s ((s.setPtst k.ptst ((s.ptst k.ptst).setTail (succ k.curr_epoch) k.i y)).goto t
      (.rcSelf k y ch))) :
    Turned w s t L ((s.setPtst k.ptst ((s.ptst k.ptst).setTail (succ k.curr_epoch) k.i y)).goto t
      (.rcSelf k y ch)) := by
  have hok := h.ok t
  rw [Ok, hpc] at hok
  have harea : s.area t = some (k.ptst, succ k.curr_epoch, k.i) := area_of_sweeping (by rw [hpc]; rfl)
  refine h.point hT ht hb harea (Or.inr rfl) (by rw [hpc]; exact ⟨rfl, rfl⟩) (by rw [hpc]; exact fun _ => id)
    (Or.inl ⟨trivial, area_of_sweeping (by rw [goto_pc]; rfl)⟩) ?_
  rw [Ok, goto_pc]
  refine ⟨hok.1, ?_, ?_⟩
  · show ((s.setPtst k.ptst _).ptst k.ptst).garbage (succ k.curr_epoch) k.i = some y
    rw [setPtst_self]
    exact hok.2
  · show ((s.setPtst k.ptst _).ptst k.ptst).garbage_tail (succ k.curr_epoch) k.i = some y
    rw [setPtst_self]
    exact setTail_tail.trans (if_pos ⟨rfl, rfl⟩)

/-! ### Chunks for the shared lists -/

/-- `add_chunks_to_list` is called for a ring. -/
theorem add_ring {list : Chunks.Lst n} {y : List Chunk} (hcirc : Circ x.lists.next (c :: y))
    (hnodup : (c :: y).Nodup) (hlt : ∀ d ∈ c :: y, d < x.lists.brk) :
    x.add_chunks_to_list t c list q = x.call t (.adNext .client list c (y ++ [c])) q := by
  rw [State.add_chunks_to_list, ring_eq hcirc hnodup hlt, List.rotate_cons_succ, List.rotate_zero]

/-- The keeper gives a ring to the thread that puts it on a list. -/
theorem books_give {lists : Chunks.State n} (list : Chunks.Lst n) {y : List Chunk}
    (h : Chunks.Books (lists.withOwn O) body) (hwt : w ≠ t) (hidle : lists.pc w = .idle)
    (hcirc : Circ lists.next (c :: y)) (hnodup : (c :: y).Nodup) (hown : ∀ d ∈ c :: y, d ∈ O w) :
    ∃ O', Chunks.Books ((lists.goto t (.adNext .client list c (y ++ [c]))).withOwn O') body ∧
      O' w = (O w).filter (· ∉ c :: y) := by
  refine ⟨_, (h.hand_over hwt hown hidle).goto (t := t) ⟨trivial, linked_of_circ hcirc hnodup fun d hd => ?_⟩, ?_⟩
  · rw [Chunks.withOwn_own, Function.update_self]
    exact List.mem_append_right _ hd
  · exact (Function.update_of_ne hwt _ _).trans (Function.update_self _ _ _)

theorem Custody.keeper_ne (h : Custody w s body O L) (ht : t ∈ s.ptst_list) : w ≠ t := fun he =>
  h.keeper (he ▸ ht)

/-- **`gc_reclaim` puts what it has cut off on an allocation list.** -/
theorem Custody.recycle {k : Sweeping n} {y : Chunk} (h : Custody w s body O L) (hT : Timed s)
    (ht : t ∈ s.ptst_list) (hpc : s.pc t = .rcSelf k y ch)
    (hb : Beside t s ((s.store y y).add_chunks_to_list t ch (.alloc k.i) (.rcAdd k))) :
    Turned w s t L ((s.store y y).add_chunks_to_list t ch (.alloc k.i) (.rcAdd k)) := by
  have hok := h.ok t
  rw [Ok, hpc] at hok
  obtain ⟨⟨hempty, z, hhand, hcirc⟩, hhangs, htail⟩ := hok
  have harea : s.area t = some (k.ptst, succ k.curr_epoch, k.i) := area_of_sweeping (by rw [hpc]; rfl)
  have hwt := h.keeper_ne ht
  have hnodup := h.shelves.nodup (.hand t)
  rw [hhand, List.nodup_cons] at hnodup
  have hy : y ∈ L (.hand t) := by rw [hhand]; exact List.mem_cons_self
  have hown : ∀ d ∈ ch :: z, d ∈ O w := fun d hd =>
    h.shelves.kept (.hand t) d (by rw [hhand]; exact List.mem_cons_of_mem _ hd)
  have hcirc' : Circ (s.store y y).lists.next (ch :: z) := hcirc.congr fun d hd =>
    (Function.update_of_ne (fun he : d = y => hnodup.1 (he ▸ hd)) _ _).symm
  rw [add_ring hcirc' hnodup.2 fun d hd => (h.lists.owned w d (hown d hd)).1.2] at hb ⊢
  obtain ⟨O', hbooks, hO'⟩ := books_give (.alloc k.i) (h.store (d := y) hy) hwt h.keeper_idle hcirc'
    hnodup.2 hown
  have hPQ : (Place.garbage k.ptst (succ k.curr_epoch) k.i : Place n) ≠ .hand t := by simp
  have hmove := h.shelves.move (p := .garbage k.ptst (succ k.curr_epoch) k.i) (q := .hand t) (A := [y])
    (B := ch :: z) hPQ (by rw [hempty, hhand]; exact List.Perm.refl _)
  have hclear := hmove.clear (.hand t)
  rw [regroup_right, ← hO'] at hclear
  generalize hL' : Function.update (regroup L (.garbage k.ptst (succ k.curr_epoch) k.i) (.hand t) [y] (ch :: z))
    (.hand t) [] = L' at hclear
  have hsame : ∀ p, p ≠ .garbage k.ptst (succ k.curr_epoch) k.i → p ≠ .hand t → L' p = L p := by
    intro p hp hp'
    rw [← hL', Function.update_of_ne hp', regroup_of_ne hp hp']
  have hring : L' (.garbage k.ptst (succ k.curr_epoch) k.i) = [y] := by
    rw [← hL', Function.update_of_ne hPQ, regroup_left hPQ]
  have hhand' : L' (.hand t) = [] := by rw [← hL', Function.update_self]
  have hch : Change t s ((s.store y y).call t (.adNext .client (.alloc k.i) ch (z ++ [ch])) (.rcAdd k)) L L'
      fun p => p = .garbage k.ptst (succ k.curr_epoch) k.i ∨ p = .hand t := by
    refine ⟨fun p hp hout => ?_, fun u hu => Function.update_of_ne hu _ _, fun _ _ => ⟨rfl, rfl⟩,
      fun _ _ => ⟨rfl, rfl⟩, fun p hp => ?_, fun p hp d hd => ?_⟩
    · cases hp with
      | inl he => rw [he] at hout; exact hout harea
      | inr he => rw [he] at hout; exact hout rfl
    · rw [not_or] at hp
      exact hsame p hp.1 hp.2
    · rw [not_or] at hp
      exact h.next_of_ne hy hd hp.2
  refine ⟨body, O', L', h.turn hT hb hch ht hbooks ?_ hclear (fun p hp hclosed => ?_) ?_ (fun i _ => ?_)
    (fun a ha => Or.inr ?_) ?_, fun v e i _ c hc => ?_⟩
  · rw [call_pc, call_lists]
    rfl
  · cases hp with
    | inl he =>
      rw [he, hring]
      exact circ_singleton.mpr (Function.update_self _ _ _)
    | inr he =>
      rw [he] at hclosed
      exact hclosed.elim
  · rw [hsame (.cache t) (by simp) (by simp)]
    exact h.cache t ht
  · rw [hsame (.alloc t i) (by simp) (by simp)]
    exact h.alloc t ht i (by rw [hpc]; exact id)
  · rw [harea] at ha
    obtain rfl := Option.some.inj ha
    exact ⟨by rw [hring]; exact hhangs.symm, by rw [hring]; exact htail.symm⟩
  · rw [ok_bare (by rw [call_pc]; trivial)]
    exact hhand'
  · by_cases he : Place.garbage v e i = .garbage k.ptst (succ k.curr_epoch) k.i
    · rw [he, hempty] at hc
      cases hc
    · rw [hsame _ he (by simp)]
      exact hc

/-- `gc_alloc` puts the chunks it has used up on the free list. -/
theorem Custody.free {i : Fin n} (h : Custody w s body O L) (hT : Timed s) (ht : t ∈ s.ptst_list)
    (hpc : s.pc t = .alChunk i) (hp : Ptst.pointers gc = Ptst.pointers (s.ptst t))
    (hb : Beside t s ((s.setPtst t gc).add_chunks_to_list t ((s.ptst t).alloc i) .free (.alReturn i))) :
    Turned w s t L ((s.setPtst t gc).add_chunks_to_list t ((s.ptst t).alloc i) .free (.alReturn i)) := by
  have hhand : L (.hand t) = [] := h.bare (by rw [hpc]; trivial)
  have hwt := h.keeper_ne ht
  obtain ⟨y, hy⟩ := List.head?_eq_some_iff.mp (h.alloc t ht i (by rw [hpc]; exact id))
  have hcirc := h.circ (.alloc t i) trivial
  have hnodup := h.shelves.nodup (.alloc t i)
  have hown := h.shelves.kept (.alloc t i)
  rw [hy] at hcirc hnodup hown
  rw [add_ring (x := s.setPtst t gc) hcirc hnodup fun d hd => (h.lists.owned w d (hown d hd)).1.2] at hb ⊢
  obtain ⟨O', hbooks, hO'⟩ := books_give .free h.lists hwt h.keeper_idle hcirc hnodup hown
  have hclear := h.shelves.clear (.alloc t i)
  rw [hy, ← hO'] at hclear
  generalize hL' : Function.update L (.alloc t i) [] = L' at hclear
  have hsame : ∀ p, p ≠ .alloc t i → L' p = L p := by
    intro p hp
    rw [← hL', Function.update_of_ne hp]
  have hpoint := pointers_setPtst (s := s) hp
  have hch : Change t s ((s.setPtst t gc).call t
      (.adNext .client .free ((s.ptst t).alloc i) (y ++ [(s.ptst t).alloc i])) (.alReturn i)) L L' fun p => p = .alloc t i := by
    refine ⟨fun p hp hout => ?_, fun u hu => Function.update_of_ne hu _ _, fun u _ => ?_, fun a _ => ?_, hsame,
      fun _ _ _ _ => rfl⟩
    · rw [hp] at hout
      exact hout rfl
    · exact ⟨congrArg Prod.fst (hpoint u), congrArg (fun x => x.2.1) (hpoint u)⟩
    · exact ⟨congrArg (fun x => x.2.2.1 a.2.1 a.2.2) (hpoint a.1),
        congrArg (fun x => x.2.2.2 a.2.1 a.2.2) (hpoint a.1)⟩
  refine ⟨body, O', L', h.turn hT hb hch ht hbooks ?_ hclear (fun p hp _ => ?_) ?_ (fun j hj => ?_)
    (fun a ha => ?_) ?_, fun v e j _ c hc => ?_⟩
  · rw [call_pc, call_lists]
    rfl
  · rw [hp, ← hL', Function.update_self]
    exact circ_nil
  · rw [hsame (.cache t) (by simp)]
    exact (h.cache t ht).trans (congrArg some (congrArg Prod.fst (hpoint t)).symm)
  · rw [call_pc] at hj
    have hne : j ≠ i := fun he => hj he.symm
    rw [hsame _ fun he => hne (Place.alloc.inj he).2]
    refine (h.alloc t ht j (by rw [hpc]; exact id)).trans (congrArg some ?_)
    exact congrArg (fun x => x.2.1 j) (hpoint t).symm
  · rw [area_none (by rw [hpc]; rfl) (by rw [hpc]; rfl)] at ha
    cases ha
  · rw [Ok, call_pc]
    exact ⟨(hsame (.hand t) (by simp)).trans hhand, by rw [← hL', Function.update_self]⟩
  · rw [hsame (.garbage v e j) (by simp)]
    exact hc

/-! ### The functions -/

/-- **The functions keep the rings.** -/
theorem Custody.code {r : Option Block} (h : Custody w s body O L) (hT : Timed s) (ht : t ∈ s.ptst_list)
    (hcode : code s t = some (r, s')) : Turned w s t L s' := by
  have hb := (code_beat hcode).1
  have hok := h.ok t
  -- steps to a program counter at which nothing is known
  have hrest : ∀ {p q : Pc n} {x : State n}, s.pc t = p → p.bare → p.Plain → q.bare ∧ q.service = .none →
      x.lists = s.lists → (∀ u, Ptst.pointers (x.ptst u) = Ptst.pointers (s.ptst u)) →
      Beside t s (x.goto t q) → Turned w s t L (x.goto t q) := fun hpc hbare hplain hq hl hp hb =>
    h.rest hT hb ht (hpc ▸ hplain) hl hp hq (h.bare (hpc ▸ hbare))
  rw [Collector.code] at hcode
  cases hpc : s.pc t with
  | idle => rw [hpc] at hcode; cases hcode
  | rcAdd k => rw [hpc] at hcode; cases hcode
  | alReturn i => rw [hpc] at hcode; cases hcode
  | alGet i => rw [hpc] at hcode; cases hcode
  | alMore i => rw [hpc] at hcode; cases hcode
  | frFetch k a p => rw [hpc] at hcode; cases hcode
  | enCount =>
    rw [hpc] at hcode
    dsimp only at hcode
    split at hcode
    · cases hcode
      exact hrest hpc trivial ⟨rfl, id, fun _ => id⟩ ⟨trivial, rfl⟩ rfl (pointers_setPtst rfl) hb
    · cases hcode
      exact hrest hpc trivial ⟨rfl, id, fun _ => id⟩ ⟨trivial, rfl⟩ rfl (pointers_setPtst rfl) hb
  | enCurrent =>
    rw [hpc] at hcode
    dsimp only at hcode
    split at hcode
    · cases hcode
      exact hrest hpc trivial ⟨rfl, id, fun _ => id⟩ ⟨trivial, rfl⟩ rfl (fun _ => rfl) hb
    · split at hcode
      · cases hcode
        exact hrest hpc trivial ⟨rfl, id, fun _ => id⟩ ⟨trivial, rfl⟩ rfl (pointers_setPtst rfl) hb
      · cases hcode
        exact hrest hpc trivial ⟨rfl, id, fun _ => id⟩ ⟨trivial, rfl⟩ rfl (pointers_setPtst rfl) hb
  | enStore e =>
    rw [hpc] at hcode
    cases hcode
    exact hrest hpc trivial ⟨rfl, id, fun _ => id⟩ ⟨trivial, rfl⟩ rfl (pointers_setPtst rfl) hb
  | enLeave =>
    rw [hpc] at hcode
    cases hcode
    exact hrest hpc trivial ⟨rfl, id, fun _ => id⟩ ⟨trivial, rfl⟩ rfl (pointers_setPtst rfl) hb
  | exCount =>
    rw [hpc] at hcode
    cases hcode
    exact hrest hpc trivial ⟨rfl, id, fun _ => id⟩ ⟨trivial, rfl⟩ rfl (pointers_setPtst rfl) hb
  | rcTest =>
    rw [hpc] at hcode
    cases hcode
    refine hrest hpc trivial ⟨rfl, id, fun _ => id⟩ ?_ rfl (fun _ => rfl) hb
    split
    · exact ⟨trivial, rfl⟩
    · exact ⟨trivial, rfl⟩
  | rcCas =>
    rw [hpc] at hcode
    dsimp only at hcode
    split at hcode
    · cases hcode
      exact hrest hpc trivial ⟨rfl, id, fun _ => id⟩ ⟨trivial, rfl⟩ rfl (fun _ => rfl) hb
    · cases hcode
      exact hrest hpc trivial ⟨rfl, id, fun _ => id⟩ ⟨trivial, rfl⟩ rfl (fun _ => rfl) hb
  | rcFirst =>
    rw [hpc] at hcode
    cases hcode
    exact hrest hpc trivial ⟨rfl, id, fun _ => id⟩ ⟨trivial, rfl⟩ rfl (fun _ => rfl) hb
  | rcCurrent l =>
    rw [hpc] at hcode
    cases hcode
    exact hrest hpc trivial ⟨rfl, id, fun _ => id⟩ scan_bare rfl (fun _ => rfl) hb
  | rcCount c f v l =>
    rw [hpc] at hcode
    dsimp only at hcode
    split at hcode
    · cases hcode
      exact hrest hpc trivial ⟨rfl, id, fun _ => id⟩ ⟨trivial, rfl⟩ rfl (fun _ => rfl) hb
    · cases hcode
      exact hrest hpc trivial ⟨rfl, id, fun _ => id⟩ scan_bare rfl (fun _ => rfl) hb
  | rcEpoch c f v l =>
    rw [hpc] at hcode
    dsimp only at hcode
    split at hcode
    · cases hcode
      exact hrest hpc trivial ⟨rfl, id, fun _ => id⟩ ⟨trivial, rfl⟩ rfl (fun _ => rfl) hb
    · cases hcode
      exact hrest hpc trivial ⟨rfl, id, fun _ => id⟩ scan_bare rfl (fun _ => rfl) hb
  | rcGarbage k =>
    rw [hpc] at hcode
    dsimp only at hcode
    split at hcode
    · cases hcode
      exact hrest hpc trivial ⟨rfl, id, fun _ => id⟩ sweep_bare rfl (fun _ => rfl) hb
    · next y hy =>
      cases hcode
      refine h.go hT hb ht (hpc ▸ ⟨rfl, id, fun _ => id⟩) rfl (fun _ => rfl) rfl ?_
      rw [Ok, goto_pc]
      exact ⟨h.bare (by rw [hpc]; trivial), hy⟩
  | rcNext k y =>
    rw [Ok, hpc] at hok
    rw [hpc] at hcode
    dsimp only at hcode
    split at hcode
    · cases hcode
      exact h.rest hT hb ht (hpc ▸ ⟨rfl, id, fun _ => id⟩) rfl (fun _ => rfl) sweep_bare hok.1
    · next hne =>
      cases hcode
      refine h.go hT hb ht (hpc ▸ ⟨rfl, id, fun _ => id⟩) rfl (fun _ => rfl) rfl ?_
      rw [Ok, goto_pc]
      exact ⟨hok.1, hok.2, rfl, hne⟩
  | rcTail k y ch =>
    rw [Ok, hpc] at hok
    rw [hpc] at hcode
    dsimp only at hcode
    split at hcode
    · cases hcode
    · next tail htail =>
      cases hcode
      refine h.go hT hb ht (hpc ▸ ⟨rfl, id, fun _ => id⟩) rfl (fun _ => rfl) rfl ?_
      rw [Ok, goto_pc]
      exact ⟨hok.1, hok.2.1, hok.2.2.1, hok.2.2.2, htail⟩
  | rcClose k y ch tail =>
    rw [hpc] at hcode
    cases hcode
    exact h.cut hT ht hpc hb
  | rcStore k y ch =>
    rw [hpc] at hcode
    cases hcode
    exact h.shorten hT ht hpc hb
  | rcSelf k y ch =>
    rw [hpc] at hcode
    cases hcode
    exact h.recycle hT ht hpc hb
  | rcAdvance c =>
    rw [hpc] at hcode
    cases hcode
    exact hrest hpc trivial ⟨rfl, id, fun _ => id⟩ ⟨trivial, rfl⟩ rfl (fun _ => rfl) hb
  | rcOut =>
    rw [hpc] at hcode
    cases hcode
    exact hrest hpc trivial ⟨rfl, id, fun _ => id⟩ ⟨trivial, rfl⟩ rfl (fun _ => rfl) hb
  | alChunk i =>
    have hhand : L (.hand t) = [] := h.bare (by rw [hpc]; trivial)
    rw [hpc] at hcode
    dsimp only at hcode
    split at hcode
    · split at hcode
      · cases hcode
        exact h.free hT ht hpc rfl hb
      · cases hcode
        refine h.ask hT hb ht (hpc ▸ ⟨rfl, id, fun _ => id⟩) rfl (pointers_setPtst rfl) rfl
          (fun _ _ => trivial) ?_
        rw [ok_bare (by rw [call_pc]; trivial)]
        exact hhand
    · cases hcode
      exact hrest hpc trivial ⟨rfl, id, fun _ => id⟩ ⟨trivial, rfl⟩ rfl (fun _ => rfl) hb
  | alNext i ch =>
    rw [hpc] at hcode
    cases hcode
    exact h.before hT ht hpc hb
  | alLink i ch =>
    rw [hpc] at hcode
    cases hcode
    exact h.grow hT ht hpc rfl hb
  | alTake i =>
    rw [hpc] at hcode
    dsimp only at hcode
    split at hcode
    · cases hcode
      exact hrest hpc trivial ⟨rfl, id, fun _ => id⟩ ⟨trivial, rfl⟩ rfl (fun _ => rfl) hb
    · cases hcode
  | frGarbage k =>
    have hhand : L (.hand t) = [] := h.bare (by rw [hpc]; trivial)
    rw [hpc] at hcode
    dsimp only at hcode
    split at hcode
    · next hnone =>
      cases hcode
      refine h.go hT hb ht (hpc ▸ ⟨rfl, id, fun _ => id⟩) rfl (fun _ => rfl) rfl ?_
      rw [Ok, goto_pc]
      exact ⟨hhand, hnone⟩
    · next ch hch =>
      cases hcode
      refine h.go hT hb ht (hpc ▸ ⟨rfl, id, fun _ => id⟩) rfl (fun _ => rfl) rfl ?_
      rw [Ok, goto_pc]
      exact ⟨hhand, hch⟩
  | frFull k ch =>
    rw [Ok, hpc] at hok
    rw [hpc] at hcode
    dsimp only at hcode
    split at hcode
    · cases hcode
      refine h.go hT hb ht (hpc ▸ ⟨rfl, id, fun _ => id⟩) rfl (fun _ => rfl) rfl ?_
      rw [Ok, goto_pc]
      exact hok
    · cases hcode
      refine h.go hT hb ht (hpc ▸ ⟨rfl, id, fun _ => id⟩) rfl (fun _ => rfl) rfl ?_
      rw [Ok, goto_pc]
      exact hok
  | frPrev k ch =>
    rw [Ok, hpc] at hok
    rw [hpc] at hcode
    dsimp only at hcode
    split at hcode
    · cases hcode
    · next prev hprev =>
      cases hcode
      refine h.go hT hb ht (hpc ▸ ⟨rfl, id, fun _ => id⟩) rfl (fun _ => rfl) rfl ?_
      rw [Ok, goto_pc]
      exact ⟨hok.1, hok.2, hprev⟩
  | frCache k a =>
    rw [Ok, hpc] at hok
    rw [hpc] at hcode
    dsimp only at hcode
    have hsite : ∀ x : State n, x.ptst = s.ptst → Site x t k a := by
      intro x hx
      have := hok.2
      cases a with
      | none => rw [Site, hx]; exact this
      | some b => rw [Site, hx]; exact this
    split at hcode
    · next hself =>
      cases hcode
      refine h.ask hT hb ht (hpc ▸ ⟨rfl, id, fun _ => id⟩) rfl (fun _ => rfl) rfl
        (fun _ _ => (by decide : 0 < 100)) ?_
      rw [Ok, call_pc]
      refine ⟨hok.1, hsite _ rfl, ?_⟩
      obtain ⟨l, hl⟩ := List.head?_eq_some_iff.mp (h.cache t ht)
      have hcirc := h.circ (.cache t) trivial
      have hnodup := h.shelves.nodup (.cache t)
      rw [hl] at hcirc hnodup
      rw [hl, hcirc.eq_nil hself.symm hnodup, ← hself]
    · next hne =>
      cases hcode
      refine h.go hT hb ht (hpc ▸ ⟨rfl, id, fun _ => id⟩) rfl (fun _ => rfl) rfl ?_
      rw [Ok, goto_pc]
      exact ⟨hok.1, hsite _ rfl, rfl, hne⟩
  | frUnlink k a p =>
    rw [hpc] at hcode
    cases hcode
    exact h.unlink hT ht hpc hb
  | frSelf k a p =>
    rw [hpc] at hcode
    cases hcode
    exact h.self hT ht hpc hb
  | frHead k a new =>
    rw [hpc] at hcode
    cases a with
    | none =>
      cases hcode
      exact h.first hT ht hpc hb
    | some a =>
      cases hcode
      exact h.head hT ht hpc hb
  | frStore k new =>
    rw [hpc] at hcode
    cases hcode
    exact h.tail hT ht hpc hb
  | frLink k new ch prev =>
    rw [hpc] at hcode
    cases hcode
    exact h.link hT ht hpc hb
  | frClose k new prev =>
    rw [hpc] at hcode
    cases hcode
    exact h.close hT ht hpc hb
  | frPut k ch =>
    rw [Ok, hpc] at hok
    rw [hpc] at hcode
    dsimp only at hcode
    split at hcode
    · cases hcode
    · cases hcode
      exact h.rest hT hb ht (hpc ▸ ⟨rfl, id, fun _ => id⟩) rfl (fun _ => rfl) ⟨trivial, rfl⟩ hok.1

/-! ### The shared lists -/

/-- A ring is closed that a thread has taken off a list. -/
theorem circ_of_linked {next : Chunk → Chunk} {own seen : List Chunk} {rh rt : Chunk}
    (h : Chunks.Linked next own rh rt seen) : Circ (Function.update next rt rh) seen ∧ seen.head? = some rh := by
  obtain ⟨m, hm, hseg⟩ := h.seg
  have hnodup := h.nodup
  rw [hm] at hnodup ⊢
  refine ⟨circ_close hseg hnodup, ?_⟩
  cases m with
  | nil =>
    have he : rh = rt := hseg
    rw [he]
    rfl
  | cons b m => exact congrArg some hseg.1.symm

/-- A thread that waits for a function on the shared lists knows what it knew. -/
theorem ok_waiting (hq : (s.pc t).service ≠ .none) (hpc : s'.pc t = s.pc t) (hp : s'.ptst = s.ptst)
    (h : Ok s L t) : Ok s' L t := by
  rw [Ok] at h
  rw [Ok, hpc]
  cases hs : s.pc t with
  | rcAdd k => rw [hs] at h; exact h
  | alReturn i => rw [hs] at h; exact h
  | alGet i => rw [hs] at h; exact h
  | alMore i => rw [hs] at h; exact h
  | frFetch k a p =>
    rw [hs] at h
    refine ⟨h.1, ?_, h.2.2⟩
    have hsite := h.2.1
    cases a with
    | none => rw [Site, hp]; exact hsite
    | some b => rw [Site, hp]; exact hsite
  | _ => rw [hs] at hq; exact absurd rfl hq

theorem not_mends_of_service {pc : Pc n} (h : pc.service ≠ .none) : ¬pc.mends := by
  cases pc <;> first | exact id | exact absurd rfl h

/-- A thread goes on waiting. -/
theorem Custody.wait {lists : Chunks.State n} {O' : Tid → List Chunk} {body' : Chunks.Lst n → List Chunk}
    (h : Custody w s body O L) (hT : Timed s) (hb : Beside t s s') (ht : t ∈ s.ptst_list)
    (hl : s'.lists = lists) (hpc : s'.pc t = s.pc t) (hp : s'.ptst = s.ptst)
    (hbooks : Chunks.Books (lists.withOwn O') body')
    (hserved : Chunks.Served t (s.lists.withOwn O) (lists.withOwn O'))
    (hserv : (lists.pc t).service = (s.lists.pc t).service) (hq : (s.pc t).service ≠ .none) :
    Turned w s t L s' := by
  have hwt := h.keeper_ne ht
  refine (h.untouched hT hb ht (fun p c hc => ?_) (fun u hu => ?_) (hl ▸ hbooks) (hserved.own w hwt)
    (fun u => by rw [hp]) ?_ (not_mends_of_service hq) (fun i hi => by rw [hpc]; exact hi)
    (ok_waiting hq hpc hp (h.ok t))).turned
  · rw [hl]
    exact hserved.next w hwt c (h.shelves.kept p c hc)
  · rw [hl]
    exact hserved.pc u hu
  · rw [hl, hpc, hserv]
    exact h.service t

/-- **A ring has been put on a list.** -/
theorem Custody.added {lists : Chunks.State n} {r : Chunk} (h : Custody w s body O L) (hT : Timed s)
    (ht : t ∈ s.ptst_list) {O' : Tid → List Chunk} {body' : Chunks.Lst n → List Chunk}
    (hbooks : Chunks.Books (lists.withOwn O') body')
    (hserved : Chunks.Served t (s.lists.withOwn O) (lists.withOwn O')) (hidle : lists.pc t = .idle)
    (hserv : (s.pc t).service = .add) (hb : Beside t s ({ s with lists := lists }.resume t r)) :
    Turned w s t L ({ s with lists := lists }.resume t r) := by
  have hwt := h.keeper_ne ht
  have hnext : ∀ p, ∀ c ∈ L p, lists.next c = s.lists.next c := fun p c hc =>
    hserved.next w hwt c (h.shelves.kept p c hc)
  have hok := h.ok t
  rw [Ok] at hok
  rw [State.resume] at hb ⊢
  cases hpc : s.pc t with
  | rcAdd k =>
    rw [hpc] at hok
    dsimp only at hb
    rw [hpc] at hb
    refine (h.untouched hT hb ht hnext hserved.pc hbooks (hserved.own w hwt) (fun _ => rfl) ?_
      (by rw [hpc]; exact id) (fun i hi => by rw [hpc] at hi; exact hi.elim) ?_).turned
    · rw [goto_pc, sweep_bare.2]
      exact congrArg Chunks.Pc.service hidle
    · rw [ok_bare (by rw [goto_pc]; exact sweep_bare.1)]
      exact hok
  | alReturn i =>
    rw [hpc] at hok
    dsimp only at hb
    rw [hpc] at hb
    refine (h.untouched hT hb ht hnext (fun u hu => (Function.update_of_ne hu _ _).trans (hserved.pc u hu))
      (show Chunks.Books ((lists.withOwn O').goto t (.alHead i)) body' from hbooks.goto trivial)
      (hserved.own w hwt) (fun _ => rfl) ?_ (by rw [hpc]; exact id) (fun j hj => ?_) ?_).turned
    · rw [call_pc, call_lists]
      rfl
    · rw [hpc] at hj
      rw [call_pc]
      exact hj
    · rw [Ok, call_pc]
      exact hok
  | _ => rw [hpc] at hserv; cases hserv

/-- The keeper takes the chunks that a thread has got from a list. -/
theorem Custody.books_take {l : List Chunk} (h : Custody w s body O L) (ht : t ∈ s.ptst_list) (hc : c ∈ O t)
    (hl : ∀ y ∈ l, y ∈ O t) :
    (∃ O', Chunks.Books (((s.lists.store c d).goto t .idle).withOwn O') body ∧ O' w = O w ++ l) ∧
      (∀ p, ∀ y ∈ L p, ((s.lists.store c d).goto t .idle).next y = s.lists.next y) ∧ ∀ y ∈ l, y ∉ O w := by
  have hwt := h.keeper_ne ht
  have hnot : ∀ y, y ∈ O t → y ∉ O w := fun y hy hm => hwt (h.lists.other w t y hm hy)
  have hbooks : Chunks.Books (((s.lists.withOwn O).store c d).goto t .idle) body := h.lists.store hc trivial
  refine ⟨⟨_, hbooks.hand_over hwt.symm hl (Function.update_self _ _ _), Function.update_self _ _ _⟩,
    fun p y hy => ?_, fun y hy => hnot y (hl y hy)⟩
  exact Function.update_of_ne (fun he : y = c => hnot c hc (he ▸ h.shelves.kept p y hy)) _ _

/-- **A new cache**: the last chunk of the old one is taken. -/
theorem Custody.fetch {k : Freeing n} {a : Option (Chunk × Chunk)} {y rh rt : Chunk} {seen : List Chunk}
    {lists : Chunks.State n} (h : Custody w s body O L) (hT : Timed s) (ht : t ∈ s.ptst_list)
    (hpc : s.pc t = .frFetch k a y) (hlpc : s.lists.pc t = .emClose .client rh rt seen)
    (hlists : lists = (s.lists.store rt rh).goto t .idle)
    (hgc : gc = { s.ptst t with chunk_cache := rh })
    (hb : Beside t s (((State.setPtst { s with lists := lists } t gc).setI y 0).goto t (.frHead k a y))) :
    Turned w s t L (((State.setPtst { s with lists := lists } t gc).setI y 0).goto t (.frHead k a y)) := by
  have hok := h.ok t
  rw [Ok, hpc] at hok
  obtain ⟨hhand, hsite, hcache⟩ := hok
  have hlinked : Chunks.Linked s.lists.next (O t) rh rt seen := by
    have hlok := h.lists.ok t
    rwa [Chunks.withOwn_pc, hlpc] at hlok
  obtain ⟨⟨O', hbooks, hO'⟩, hnext, hnew⟩ := h.books_take (d := rh) ht hlinked.mem hlinked.owned
  rw [← hlists] at hbooks hnext
  have hcirc : Circ lists.next seen ∧ seen.head? = some rh := hlists ▸ circ_of_linked hlinked
  have hPQ : (Place.cache t : Place n) ≠ .hand t := by simp
  have hshelves := (h.shelves.move (p := .cache t) (q := .hand t) (A := []) (B := [y]) hPQ
    (by rw [hhand, hcache]; exact List.Perm.refl _)).put (q := .cache t) hlinked.nodup hnew
  rw [← hO'] at hshelves
  generalize hL' : Function.update (regroup L (.cache t) (.hand t) [] [y]) (.cache t) seen = L' at hshelves
  have hsame : ∀ p, p ≠ Place.cache t → p ≠ .hand t → L' p = L p := by
    intro p hp hp'
    rw [← hL', Function.update_of_ne hp, regroup_of_ne hp hp']
  have hseen : L' (.cache t) = seen := by rw [← hL', Function.update_self]
  have hhand' : L' (.hand t) = [y] := by rw [← hL', Function.update_of_ne hPQ.symm, regroup_right]
  have hself : (((State.setPtst { s with lists := lists } t gc).setI y 0).goto t (.frHead k a y)).ptst t = gc :=
    setPtst_self
  have hother : ∀ u, u ≠ t →
      (((State.setPtst { s with lists := lists } t gc).setI y 0).goto t (.frHead k a y)).ptst u = s.ptst u :=
    fun u hu => Function.update_of_ne hu _ _
  have hgarbage : ∀ u, ((((State.setPtst { s with lists := lists } t gc).setI y 0).goto t (.frHead k a y)).ptst
      u).garbage = (s.ptst u).garbage ∧ ((((State.setPtst { s with lists := lists } t gc).setI y 0).goto t
      (.frHead k a y)).ptst u).garbage_tail = (s.ptst u).garbage_tail := by
    intro u
    by_cases hu : u = t
    · rw [hu, hself, hgc]
      exact ⟨rfl, rfl⟩
    · rw [hother u hu]
      exact ⟨rfl, rfl⟩
  have hch : Change t s (((State.setPtst { s with lists := lists } t gc).setI y 0).goto t (.frHead k a y)) L L'
      fun p => p = .cache t ∨ p = .hand t := by
    refine ⟨fun p hp hout => ?_, fun u hu => ?_, fun u hu => ?_, fun a _ => ?_, fun p hp => ?_,
      fun p _ => hnext p⟩
    · cases hp with
      | inl he => rw [he] at hout; exact hout rfl
      | inr he => rw [he] at hout; exact hout rfl
    · show lists.pc u = s.lists.pc u
      rw [hlists]
      exact Function.update_of_ne hu _ _
    · rw [hother u hu]
      exact ⟨rfl, rfl⟩
    · rw [(hgarbage a.1).1, (hgarbage a.1).2]
      exact ⟨rfl, rfl⟩
    · rw [not_or] at hp
      exact hsame p hp.1 hp.2
  refine ⟨body, O', L', h.turn hT hb hch ht hbooks ?_ hshelves (fun p hp hclosed => ?_) ?_ (fun i _ => ?_)
    (fun b hab => Or.inr ?_) ?_, fun v e i _ c hc => ?_⟩
  · rw [goto_pc]
    show (lists.pc t).service = _
    rw [hlists, Chunks.goto_pc]
    rfl
  · cases hp with
    | inl he =>
      rw [he, hseen]
      exact hcirc.1
    | inr he =>
      rw [he] at hclosed
      exact hclosed.elim
  · rw [hseen, hself, hgc]
    exact hcirc.2
  · rw [hsame (.alloc t i) (by simp) (by simp), hself, hgc]
    exact h.alloc t ht i (by rw [hpc]; exact id)
  · have hung := h.hung hT (by rw [hpc]; exact id) hab
    have hring := hsame (.garbage b.1 b.2.1 b.2.2) (by simp) (by simp)
    exact ⟨by rw [hring, (hgarbage b.1).1]; exact hung.head, by rw [hring, (hgarbage b.1).2]; exact hung.tail⟩
  · rw [Ok, goto_pc]
    refine ⟨hhand', ?_, ?_⟩
    · cases a with
      | none => rw [Site, hself, hgc]; exact hsite
      | some b => rw [Site, hself, hgc]; exact hsite
    · have hy := h.circ (.cache t) trivial
      rw [hcache] at hy
      exact (hnext (.cache t) y (by rw [hcache]; exact List.mem_cons_self)).trans (circ_singleton.mp hy)
  · rw [hsame (.garbage v e i) (by simp) (by simp)]
    exact hc

/-- A place of its own is given to a chunk that has been taken from an allocation list. -/
theorem Custody.place {P : Place n} {y : Chunk} (h : Custody w s body O L) (ht : t ∈ s.ptst_list) (hy : y ∈ O t)
    (hP : L P = []) :
    ∃ O' L', Chunks.Books (((s.lists.store y y).goto t .idle).withOwn O') body ∧ Shelves (O' w) L' ∧ L' P = [y] ∧
      (∀ p, p ≠ P → L' p = L p) ∧
      (∀ p, ∀ c ∈ L p, ((s.lists.store y y).goto t .idle).next c = s.lists.next c) ∧
      Circ ((s.lists.store y y).goto t .idle).next [y] ∧ Spared s t L L' := by
  have hl : ∀ c ∈ [y], c ∈ O t := fun c hc => by rw [List.mem_singleton.mp hc]; exact hy
  obtain ⟨⟨O', hbooks, hO'⟩, hnext, hnew⟩ := h.books_take (d := y) ht hy hl
  refine ⟨O', Function.update L P [y], hbooks, ?_, Function.update_self _ _ _,
    fun p hp => Function.update_of_ne hp _ _, hnext, circ_singleton.mpr (Function.update_self _ _ _),
    fun v e i _ c hc => ?_⟩
  · rw [hO']
    exact h.shelves.put (List.nodup_singleton y) hnew
  · by_cases he : Place.garbage v e i = P
    · rw [he, hP] at hc
      cases hc
    · rw [Function.update_of_ne he]
      exact hc

/-- **A new allocation ring.** -/
theorem Custody.got {i : Fin n} {y : Chunk} {lists : Chunks.State n} (h : Custody w s body O L) (hT : Timed s)
    (ht : t ∈ s.ptst_list) (hpc : s.pc t = .alGet i) (hy : y ∈ O t)
    (hlists : lists = (s.lists.store y y).goto t .idle)
    (hgc : gc = { s.ptst t with alloc := Function.update (s.ptst t).alloc i y })
    (hb : Beside t s ((State.setPtst { s with lists := lists } t gc).goto t (.alTake i))) :
    Turned w s t L ((State.setPtst { s with lists := lists } t gc).goto t (.alTake i)) := by
  have hok := h.ok t
  rw [Ok, hpc] at hok
  obtain ⟨O', L', hbooks, hshelves, hP, hsame, hnext, hcirc, hspared⟩ := h.place ht hy hok.2
  rw [← hlists] at hbooks hnext hcirc
  have hself : ((State.setPtst { s with lists := lists } t gc).goto t (.alTake i)).ptst t = gc := setPtst_self
  have hother : ∀ u, u ≠ t →
      ((State.setPtst { s with lists := lists } t gc).goto t (.alTake i)).ptst u = s.ptst u :=
    fun u hu => Function.update_of_ne hu _ _
  have hch : Change t s ((State.setPtst { s with lists := lists } t gc).goto t (.alTake i)) L L'
      fun p => p = .alloc t i := by
    refine ⟨fun p hp hout => ?_, fun u hu => ?_, fun u hu => ?_, fun a _ => ?_, hsame, fun p _ => hnext p⟩
    · rw [hp] at hout
      exact hout rfl
    · show lists.pc u = s.lists.pc u
      rw [hlists]
      exact Function.update_of_ne hu _ _
    · rw [hother u hu]
      exact ⟨rfl, rfl⟩
    · by_cases hv : a.1 = t
      · rw [hv, hself, hgc]
        exact ⟨rfl, rfl⟩
      · rw [hother a.1 hv]
        exact ⟨rfl, rfl⟩
  refine ⟨body, O', L', h.turn hT hb hch ht hbooks ?_ hshelves (fun p hp _ => ?_) ?_ (fun j _ => ?_)
    (fun a ha => ?_) ?_, hspared⟩
  · rw [goto_pc]
    show (lists.pc t).service = _
    rw [hlists, Chunks.goto_pc]
    rfl
  · rw [hp, hP]
    exact hcirc
  · rw [hsame (.cache t) (by simp), hself, hgc]
    exact h.cache t ht
  · rw [hself, hgc]
    by_cases hj : j = i
    · rw [hj, hP]
      show some y = some (Function.update (s.ptst t).alloc i y i)
      rw [Function.update_self]
    · have hne : ((j : Fin n) : ℕ) ≠ i := fun he => hj (Fin.ext he)
      rw [hsame (.alloc t j) fun he => hj (Place.alloc.inj he).2]
      refine (h.alloc t ht j (by rw [hpc]; exact fun he => hj he.symm)).trans (congrArg some ?_)
      exact (Function.update_of_ne hne _ _).symm
  · rw [area_none (by rw [hpc]; rfl) (by rw [hpc]; rfl)] at ha
    cases ha
  · rw [ok_bare (by rw [goto_pc]; trivial)]
    exact (hsame (.hand t) (by simp)).trans hok.1

/-- A chunk that is to be the first of the allocation ring. -/
theorem Custody.more {i : Fin n} {y : Chunk} {lists : Chunks.State n} (h : Custody w s body O L) (hT : Timed s)
    (ht : t ∈ s.ptst_list) (hpc : s.pc t = .alMore i) (hy : y ∈ O t)
    (hlists : lists = (s.lists.store y y).goto t .idle)
    (hb : Beside t s (State.goto { s with lists := lists } t (.alNext i y))) :
    Turned w s t L (State.goto { s with lists := lists } t (.alNext i y)) := by
  have hhand : L (.hand t) = [] := h.bare (by rw [hpc]; trivial)
  obtain ⟨O', L', hbooks, hshelves, hP, hsame, hnext, -, hspared⟩ := h.place ht hy hhand
  rw [← hlists] at hbooks hnext
  have hch : Change t s (State.goto { s with lists := lists } t (.alNext i y)) L L' fun p => p = .hand t := by
    refine ⟨fun p hp hout => ?_, fun u hu => ?_, fun _ _ => ⟨rfl, rfl⟩, fun _ _ => ⟨rfl, rfl⟩, hsame,
      fun p _ => hnext p⟩
    · rw [hp] at hout
      exact hout rfl
    · show lists.pc u = s.lists.pc u
      rw [hlists]
      exact Function.update_of_ne hu _ _
  refine ⟨body, O', L', h.turn hT hb hch ht hbooks ?_ hshelves (fun p hp hclosed => ?_) ?_ (fun j _ => ?_)
    (fun a ha => ?_) ?_, hspared⟩
  · rw [goto_pc]
    show (lists.pc t).service = _
    rw [hlists, Chunks.goto_pc]
    rfl
  · rw [hp] at hclosed
    exact hclosed.elim
  · rw [hsame (.cache t) (by simp)]
    exact h.cache t ht
  · rw [hsame (.alloc t j) (by simp)]
    exact h.alloc t ht j (by rw [hpc]; exact id)
  · rw [area_none (by rw [hpc]; rfl) (by rw [hpc]; rfl)] at ha
    cases ha
  · rw [Ok, goto_pc]
    exact hP

/-- `get_empty_chunks` has returned. -/
theorem Custody.fetched {lists : Chunks.State n} {rh rt : Chunk} {seen : List Chunk} (h : Custody w s body O L)
    (hT : Timed s) (ht : t ∈ s.ptst_list) (hlpc : s.lists.pc t = .emClose .client rh rt seen)
    (hlists : lists = (s.lists.store rt rh).goto t .idle) (hserv : (s.pc t).service = .empty)
    (hb : Beside t s ({ s with lists := lists }.resume t rh)) :
    Turned w s t L ({ s with lists := lists }.resume t rh) := by
  rw [State.resume] at hb ⊢
  dsimp only at hb ⊢
  cases hpc : s.pc t with
  | frFetch k a y =>
    rw [hpc] at hb
    exact h.fetch hT ht hpc hlpc hlists rfl hb
  | _ => rw [hpc] at hserv; cases hserv

/-- `get_alloc_chunk` has returned. -/
theorem Custody.received {lists : Chunks.State n} {i : Fin n} {y : Chunk} (h : Custody w s body O L)
    (hT : Timed s) (ht : t ∈ s.ptst_list) (hlpc : s.lists.pc t = .alClose i y)
    (hlists : lists = (s.lists.store y y).goto t .idle) (hserv : (s.pc t).service = .alloc i)
    (hb : Beside t s ({ s with lists := lists }.resume t y)) :
    Turned w s t L ({ s with lists := lists }.resume t y) := by
  have hy : y ∈ O t := by
    have hlok := h.lists.ok t
    rwa [Chunks.withOwn_pc, hlpc] at hlok
  rw [State.resume] at hb ⊢
  dsimp only at hb ⊢
  cases hpc : s.pc t with
  | alGet j =>
    rw [hpc] at hb
    exact h.got hT ht hpc hy hlists rfl hb
  | alMore j =>
    rw [hpc] at hb
    exact h.more hT ht hpc hy hlists hb
  | _ => rw [hpc] at hserv; cases hserv

/-- **The functions on the shared lists keep the rings.** -/
theorem Custody.lists_step (h : Custody w s body O L) (hT : Timed s) (ht : t ∈ s.ptst_list)
    (hcur : Chunks.Current s.lists (s.lists.pc t)) (hstep : listStep s t sz = some s') : Turned w s t L s' := by
  have hb := (listStep_beat hstep).1
  obtain ⟨lists, hrun, he⟩ := Option.map_eq_some_iff.mp hstep
  obtain ⟨O', hrun'⟩ := Chunks.run_withOwn hrun O
  have hcur' : Chunks.Current (s.lists.withOwn O) ((s.lists.withOwn O).pc t) := hcur
  obtain ⟨body', hbooks⟩ := h.lists.run hcur' hrun'
  have hserved := h.lists.served hrun'
  have hlok := h.lists.ok t
  have hserv := h.service t
  rw [Chunks.withOwn_pc] at hlok
  have hne : (s.pc t).service ≠ .none := fun hn => by
    rw [Chunks.run, Chunks.idle_of_service (hserv.trans hn)] at hrun
    cases hrun
  split at he
  · next i rh rt seen hpc =>
    -- the ring for an allocation list is filled
    have hsame : (lists.pc t).service = (s.lists.pc t).service := by
      refine (Chunks.run_service hrun).resolve_right fun hidle => ?_
      rcases Chunks.run_idle hrun hidle with ⟨_, _, _, _, _, hc⟩ | ⟨_, _, _, hc, -⟩ | ⟨_, _, hc, -⟩
      · rw [hpc] at hc; cases hc
      · rw [hpc] at hc; cases hc
      · rw [hpc] at hc; cases hc
    obtain ⟨i', blk, node, hf⟩ := fill_eq (s.blk_sizes i) { s with lists := lists }
      (State.ring { s with lists := lists } rh)
    rw [hf] at he
    rw [← he] at hb ⊢
    exact h.wait hT hb ht rfl rfl rfl hbooks hserved hsame hne
  · split at he
    · next hidle =>
      rcases Chunks.run_idle hrun hidle with ⟨_, _, _, _, _, hc⟩ | ⟨rh, rt, seen, hc, hl⟩ | ⟨i, y, hc, hl⟩
      · rw [← he] at hb ⊢
        rw [hc] at hserv
        exact h.added hT ht hbooks hserved hidle hserv.symm hb
      · rw [hc] at hserv he hlok
        rw [← he] at hb ⊢
        exact h.fetched hT ht hc hl hserv.symm hb
      · rw [hc] at hserv he hlok
        rw [← he] at hb ⊢
        exact h.received hT ht hc hl hserv.symm hb
    · next hbusy =>
      rw [← he] at hb ⊢
      exact h.wait hT hb ht rfl rfl rfl hbooks hserved ((Chunks.run_service hrun).resolve_right hbusy) hne

/-! ### The steps -/

/-- **Every step keeps the rings**, if it is no removal that is out of date. -/
theorem Custody.step {m : Move n} {r : Option Block} (h : Custody w s body O L) (hT : Timed s)
    (hcur : Chunks.Current s.lists (s.lists.pc t)) (hstep : Step s t m r s') : Turned w s t L s' := by
  have hb := hstep.beat.1
  -- a call of one of the functions
  have hcall : ∀ {q : Pc n} {x : State n}, s.Ready t → q.bare ∧ q.service = .none → x.lists = s.lists →
      x.ptst = s.ptst → Beside t s (x.goto t q) → Turned w s t L (x.goto t q) := by
    intro q x hr hq hl hp hb
    have hplain : (s.pc t).Plain := by
      rw [hr.2.1]
      exact ⟨rfl, id, fun _ => id⟩
    exact h.rest hT hb hr.1 hplain hl (fun u => by rw [hp]) hq (h.bare (by rw [hr.2.1]; trivial))
  cases hstep with
  | critical_enter hr => exact hcall hr ⟨trivial, rfl⟩ rfl rfl hb
  | critical_exit hr _ => exact hcall hr ⟨trivial, rfl⟩ rfl rfl hb
  | gc_alloc i hr => exact hcall hr ⟨trivial, rfl⟩ rfl rfl hb
  | gc_free p i hr _ _ => exact hcall hr ⟨trivial, rfl⟩ rfl rfl hb
  | code ht _ hcode => exact h.code hT ht hcode
  | lists ht _ hlist => exact h.lists_step hT ht hcur hlist

/-! ### At first -/

/-- The keeper owns the chunks that are on no list. -/
theorem Initial.custody (h : Initial s) : ∃ w body O L, Custody w s body O L := by
  classical
  obtain ⟨body, L, ha⟩ := h.chunks
  obtain ⟨w, hw⟩ := Infinite.exists_notMem_finset s.ptst_list.toFinset
  rw [List.mem_toFinset] at hw
  obtain ⟨l, hl⟩ : ∃ l : List Chunk, ∀ c, c ∈ l ↔ c < s.lists.brk ∧ n < c ∧ ∀ list, c ∉ body list := by
    refine ⟨(List.range s.lists.brk).filter fun c => n < c ∧ ∀ list, c ∉ body list, fun c => ?_⟩
    rw [List.mem_filter, List.mem_range, decide_eq_true_eq]
  have hown : ∀ u c, c ∈ Function.update (fun _ => []) w l u → u = w ∧ c ∈ l := by
    intro u c hc
    by_cases hu : u = w
    · rw [hu, Function.update_self] at hc
      exact ⟨hu, hc⟩
    · rw [Function.update_of_ne hu] at hc
      cases hc
  refine ⟨w, body, Function.update (fun _ => []) w l, L, ?_, hw, fun t _ => (h.idle t).1, fun t => ?_, ?_,
    fun p _ => ha.circ p, ha.cache, fun t ht i _ => ha.alloc t ht i, fun a _ => ?_, fun t => ?_⟩
  · refine ⟨ha.brk, ha.ring, ha.bound.1, ha.lists, fun u c hc => ?_, fun u v c hu hv => ?_, fun c hlt hc => ?_,
      fun u => ?_⟩
    · have hc := (hl c).mp (hown u c hc).2
      exact ⟨⟨hc.2.1, hc.1⟩, hc.2.2⟩
    · rw [(hown u c hu).1, (hown v c hv).1]
    · by_cases hb : ∃ list, c ∈ body list
      · exact Or.inl hb
      · refine Or.inr ⟨w, ?_⟩
        rw [Chunks.withOwn_own, Function.update_self, hl]
        exact ⟨hc, hlt, fun list hm => hb ⟨list, hm⟩⟩
    · rw [Chunks.withOwn_pc, (h.idle u).2]
      trivial
  · rw [(h.idle t).1, (h.idle t).2]
    rfl
  · refine ⟨fun p c hc => ?_, ha.apart, ha.nodup⟩
    rw [Function.update_self, hl]
    exact ⟨(ha.bound.2 p c hc).2, (ha.bound.2 p c hc).1, fun list hm => ha.outside list p c hm hc⟩
  · have hnone : (s.ptst a.1).garbage a.2.1 a.2.2 = none ∧ (s.ptst a.1).garbage_tail a.2.1 a.2.2 = none := by
      by_cases hmem : a.1 ∈ s.ptst_list
      · exact (h.registered a.1 hmem).garbage _ _
      · exact (h.unregistered a.1 hmem).2 _ _
    refine ⟨?_, ?_⟩
    · rw [ha.garbage, hnone.1]
      rfl
    · rw [ha.garbage, hnone.2]
      rfl
  · rw [ok_bare (by rw [(h.idle t).1]; trivial)]
    exact ha.hand t

end ConcurrentPQ.Collector

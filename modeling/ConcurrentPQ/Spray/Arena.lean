import ConcurrentPQ.Spray.Ssalloc
import Mathlib.Data.List.Pairwise

/-!
# The blocks of the wrapper apart from the seeds

The seeds of `seed_rand` are the only blocks that go wrong.  Every other request of a thread is met from
its arena or from its list of freed blocks, which only gets back blocks of one size and never more
than four; as long as the bump pointers stay inside the arenas no two of these blocks overlap.

* `Ledger`, `Granted`, `Ledger.alloc`, `Ledger.free` — what one allocator of a thread has handed out and
  got back;
* `Requests`, `Releases` — what the callers' sites have in common;
* `Account`, `Accounts`, `Accounts.step` — the invariant of one thread and of all;
* `sound_apart` — **without an overrun, the steps other than `seed_rand` are sound.**
-/

namespace ConcurrentPQ.Ssalloc

open ConcurrentPQ.Transition ConcurrentPQ.Spray ConcurrentPQ.ByteRing

/-! ### What is held -/

section Held

variable {x : Record} {tr : List Record} {a : Fin 2} {p size : ℕ} {b : Block}

theorem held_alloc (h : x.ev = .alloc a p size) :
    held (x :: tr) = ⟨x.who, a, p, size⟩ :: held tr := by
  rw [held, h]

theorem mem_held_free (h : x.ev = .free a p) :
    b ∈ held (x :: tr) ↔ b ∈ held tr ∧ ¬(b.who = x.who ∧ b.allocator = a ∧ b.addr = p) := by
  rw [held, h]
  simp only [List.mem_filter, decide_eq_true_eq]

/-- The event changes nothing in who holds what. -/
def Event.silent : Event → Bool
  | .alloc _ _ _ | .free _ _ => false
  | _ => true

theorem held_silent (h : x.ev.silent = true) : held (x :: tr) = held tr := by
  rw [held]
  split
  · next heq =>
    rw [heq] at h
    cases h
  · next heq =>
    rw [heq] at h
    cases h
  · rfl

/-- A step on another allocator, or of another thread, leaves the blocks of this one. -/
theorem mem_held_of_ne (h : ¬(x.who = b.who ∧ ((∃ p size, x.ev = .alloc b.allocator p size) ∨
      ∃ p, x.ev = .free b.allocator p))) :
    b ∈ held (x :: tr) ↔ b ∈ held tr := by
  rw [held]
  split
  · next a p size heq =>
    rw [List.mem_cons, or_iff_right]
    rintro rfl
    exact h ⟨rfl, Or.inl ⟨p, size, heq⟩⟩
  · next a p heq =>
    simp only [List.mem_filter, decide_eq_true_eq, and_iff_left_iff_imp]
    rintro _ ⟨hwho, rfl, rfl⟩
    exact h ⟨hwho.symm, Or.inr ⟨_, heq⟩⟩
  · exact Iff.rfl

theorem Block.Disjoint.symm {b c : Block} (h : b.Disjoint c) : c.Disjoint b := Or.symm h

instance : Std.Symm Block.Disjoint := ⟨fun _ _ h => h.symm⟩

/-- A block that is not empty overlaps itself. -/
theorem Block.not_disjoint {b c : Block} (ha : b.addr = c.addr) (hb : 0 < b.size)
    (hc : 0 < c.size) : ¬b.Disjoint c := by
  rw [Block.Disjoint]
  omega

end Held

/-! ### One allocator -/

theorem unit_pos (a : Fin 2) : 0 < unit a := by
  rw [unit]
  split <;> decide

/-- The blocks an allocator has got back, the oldest first. -/
def Allocator.freed (A : Allocator) : List ℕ := window A.free_list A.free_cur A.free_num

/-- What allocator `a` of thread `t` has handed out and got back: blocks below the bump pointer that do
not overlap. -/
structure Ledger (tr : List Record) (t : ℕ) (a : Fin 2) (A : Allocator) : Prop where
  held_in : ∀ b ∈ held tr, b.who = t → b.allocator = a →
    A.app_mem ≤ b.addr ∧ b.addr + b.size ≤ A.app_mem + A.alloc_next
  freed_in : ∀ p ∈ A.freed, A.app_mem ≤ p ∧ p + unit a ≤ A.app_mem + A.alloc_next
  freed_apart : A.freed.Pairwise fun p q => p + unit a ≤ q ∨ q + unit a ≤ p
  held_apart : ∀ b ∈ held tr, b.who = t → b.allocator = a → ∀ p ∈ A.freed,
    b.Disjoint ⟨t, a, p, unit a⟩

section Ledger

variable {tr : List Record} {x : Record} {t : ℕ} {a : Fin 2} {A : Allocator} {p size : ℕ}

/-- A step that leaves the blocks of the allocator alone. -/
theorem Ledger.frame (hl : Ledger tr t a A)
    (hx : ¬(x.who = t ∧ ((∃ p size, x.ev = .alloc a p size) ∨ ∃ p, x.ev = .free a p))) :
    Ledger (x :: tr) t a A := by
  have hmem : ∀ b : Block, b.who = t → b.allocator = a → (b ∈ held (x :: tr) ↔ b ∈ held tr) := by
    rintro b rfl rfl
    exact mem_held_of_ne hx
  refine ⟨fun b hb ht ha => ?_, hl.freed_in, hl.freed_apart, fun b hb ht ha => ?_⟩
  · exact hl.held_in b ((hmem b ht ha).mp hb) ht ha
  · exact hl.held_apart b ((hmem b ht ha).mp hb) ht ha

/-- The bump pointer may move on at any time. -/
theorem Ledger.advance (hl : Ledger tr t a A) (k : ℕ) :
    Ledger tr t a { A with alloc_next := A.alloc_next + k } := by
  refine ⟨fun b hb ht ha => ?_, fun p hp => ?_, hl.freed_apart, hl.held_apart⟩
  · have hin := hl.held_in b hb ht ha
    simp only
    omega
  · have hin := hl.freed_in p hp
    simp only
    omega

/-- What a request gets: a block below the new bump pointer, apart from the blocks held and those on
the list. -/
structure Granted (tr : List Record) (t : ℕ) (a : Fin 2) (size : ℕ) (A A' : Allocator) (p : ℕ) :
    Prop where
  ledger : ∀ x : Record, x.who = t → x.ev = .alloc a p size → Ledger (x :: tr) t a A'
  apart : ∀ b ∈ held tr, b.who = t → b.allocator = a → Block.Disjoint ⟨t, a, p, size⟩ b
  fits : A.app_mem ≤ p ∧ p + size ≤ A'.app_mem + A'.alloc_next
  app_mem : A'.app_mem = A.app_mem

/-- **What `ssalloc_alloc` returns.** -/
theorem Ledger.alloc (hl : Ledger tr t a A) (hsize : size ≤ unit a) :
    Granted tr t a size A (ssalloc_alloc A size).2 (ssalloc_alloc A size).1 := by
  rw [ssalloc_alloc]
  split
  · next hnum =>
    have hpos : 0 < A.free_num.toNat := by
      have := UInt8.lt_iff_toNat_lt.mp hnum
      omega
    have hwin : A.freed = A.free_list (A.free_cur - A.free_num) ::
        Allocator.freed { A with free_num := A.free_num - 1 } := window_take hpos
    have hfirst : A.free_list (A.free_cur - A.free_num) ∈ A.freed := by
      rw [hwin]
      exact List.mem_cons_self
    have hrest : ∀ p ∈ Allocator.freed { A with free_num := A.free_num - 1 }, p ∈ A.freed := by
      intro p hp
      rw [hwin]
      exact List.mem_cons_of_mem _ hp
    have hapart := hl.freed_apart
    rw [hwin, List.pairwise_cons] at hapart
    have hin := hl.freed_in _ hfirst
    refine ⟨fun x hxt hev => ⟨?_, ?_, hapart.2, ?_⟩, ?_, ?_, rfl⟩
    · intro b hb ht ha
      rw [held_alloc hev] at hb
      cases hb with
      | head =>
        simp only at hin ⊢
        omega
      | tail _ hb => exact hl.held_in b hb ht ha
    · intro p hp
      exact hl.freed_in p (hrest p hp)
    · intro b hb ht ha p hp
      rw [held_alloc hev] at hb
      cases hb with
      | head =>
        have := hapart.1 p hp
        rw [Block.Disjoint]
        simp only at this ⊢
        omega
      | tail _ hb => exact hl.held_apart b hb ht ha p (hrest p hp)
    · intro b hb ht ha
      have := hl.held_apart b hb ht ha _ hfirst
      rw [Block.Disjoint] at this ⊢
      simp only at this ⊢
      omega
    · simp only at hin ⊢
      omega
  · refine ⟨fun x hxt hev => ⟨?_, ?_, hl.freed_apart, ?_⟩, ?_, ?_, rfl⟩
    · intro b hb ht ha
      rw [held_alloc hev] at hb
      cases hb with
      | head =>
        simp only
        omega
      | tail _ hb =>
        have := hl.held_in b hb ht ha
        simp only
        omega
    · intro p hp
      have := hl.freed_in p hp
      simp only
      omega
    · intro b hb ht ha p hp
      rw [held_alloc hev] at hb
      cases hb with
      | head =>
        have := hl.freed_in p hp
        rw [Block.Disjoint]
        simp only
        omega
      | tail _ hb => exact hl.held_apart b hb ht ha p hp
    · intro b hb ht ha
      have := hl.held_in b hb ht ha
      rw [Block.Disjoint]
      simp only
      omega
    · simp only
      omega

/-- `ssfree_alloc` of a block that is held. -/
theorem Ledger.free (hl : Ledger tr t a A) (hdisj : (held tr).Pairwise Block.Disjoint)
    (hp : ⟨t, a, p, unit a⟩ ∈ held tr) (hnum : A.free_num.toNat < 255) (hxt : x.who = t)
    (hev : x.ev = .free a p) : Ledger (x :: tr) t a (ssfree_alloc A p) := by
  have hwin : (ssfree_alloc A p).freed = A.freed ++ [p] := window_put hnum p
  have hin := hl.held_in _ hp rfl rfl
  have hfreed : ∀ q ∈ A.freed, q + unit a ≤ p ∨ p + unit a ≤ q := by
    intro q hq
    exact (hl.held_apart _ hp rfl rfl q hq).symm
  refine ⟨fun b hb ht ha => ?_, fun q hq => ?_, ?_, fun b hb ht ha q hq => ?_⟩
  · exact hl.held_in b ((mem_held_free hev).mp hb).1 ht ha
  · rw [hwin, List.mem_append, List.mem_singleton] at hq
    cases hq with
    | inl hq => exact hl.freed_in q hq
    | inr hq =>
      rw [hq]
      exact hin
  · rw [hwin, List.pairwise_append]
    refine ⟨hl.freed_apart, List.pairwise_singleton _ _, fun q hq r hr => ?_⟩
    rw [List.mem_singleton.mp hr]
    exact hfreed q hq
  · obtain ⟨hb, hne⟩ := (mem_held_free hev).mp hb
    rw [hwin, List.mem_append, List.mem_singleton] at hq
    cases hq with
    | inl hq => exact hl.held_apart b hb ht ha q hq
    | inr hq =>
      subst hq
      have hbne : b ≠ ⟨t, a, q, unit a⟩ := by
        rintro rfl
        exact hne ⟨hxt.symm, rfl, rfl⟩
      exact hdisj.forall hb hp hbne

end Ledger

/-! ### All threads -/

/-- The thread has its arenas. -/
def Thread.Armed (th : Thread) : Prop := th.initialized = true ∨ th.site = .thread_data

/-- What holds of thread `t`, after the steps `tr`. -/
structure Account (tr : List Record) (t : ℕ) (th : Thread) : Prop where
  staged : th.Staged
  ledger : ∀ a, Ledger tr t a (th.allocators a)
  bounded : ∀ a, (th.allocators a).free_num.toNat ≤ limit th.site a
  blank : ¬th.Armed → (∀ b ∈ held tr, b.who ≠ t) ∧ ∀ a, (th.allocators a).free_num = 0
  armed : th.Armed → ∀ a, ∃ x ∈ tr, x.who = t ∧ ∃ base, x.ev = .arenas base ∧
    base a = (th.allocators a).app_mem
  owned : ∀ v ∈ owned th.site, ⟨t, home v, th.var v, unit (home v)⟩ ∈ held tr
  distinct : .preds ∈ Ssalloc.owned th.site → .succs ∈ Ssalloc.owned th.site →
    th.var .preds ≠ th.var .succs

/-- The bump pointers of the thread are inside its arenas. -/
def Thread.Fits (th : Thread) : Prop := ∀ a, (th.allocators a).alloc_next ≤ SSALLOC_SIZE

/-- The invariant. -/
structure Accounts (tr : List Record) (s : State) : Prop where
  account : ∀ t, Account tr t (s.thread t)
  fits : ∀ t, (s.thread t).Fits
  inside : ∀ t, (s.thread t).Armed → ∀ a, ((s.thread t).allocators a).app_mem ∈ s.regions
  apart : ∀ t u, (s.thread t).Armed → (s.thread u).Armed → ∀ a b, (t, a) ≠ (u, b) →
    Apart ((s.thread t).allocators a).app_mem ((s.thread u).allocators b).app_mem
  disjoint : (held tr).Pairwise Block.Disjoint

section Step

variable {mapped : Bool} {tr : List Record} {s s' : State} {t u : ℕ} {th th' : Thread} {ev : Event}
  {x : Record} {a : Fin 2} {size : ℕ}

/-- A step of another thread, or one that changes nothing in who holds what. -/
theorem Account.frame (h : Account tr u th) (hx : x.who ≠ u ∨ x.ev.silent = true) :
    Account (x :: tr) u th := by
  have hnot : ∀ a, ¬(x.who = u ∧ ((∃ p size, x.ev = .alloc a p size) ∨ ∃ p, x.ev = .free a p)) := by
    rintro a ⟨hwho, hev⟩
    have hsilent := hx.resolve_left fun hne => hne hwho
    rcases hev with ⟨p, size, hev⟩ | ⟨p, hev⟩
    · rw [hev] at hsilent
      cases hsilent
    · rw [hev] at hsilent
      cases hsilent
  have hmem : ∀ b : Block, b.who = u → (b ∈ held (x :: tr) ↔ b ∈ held tr) := by
    rintro b rfl
    exact mem_held_of_ne (hnot b.allocator)
  refine ⟨h.staged, fun a => (h.ledger a).frame (hnot a), h.bounded, fun hb => ?_,
    fun hb a => ?_, fun v hv => (hmem _ rfl).mpr (h.owned v hv), h.distinct⟩
  · refine ⟨fun b hmemb hbu => ?_, (h.blank hb).2⟩
    exact (h.blank hb).1 b ((hmem b hbu).mp hmemb) hbu
  · obtain ⟨y, hy, hyu⟩ := h.armed hb a
    exact ⟨y, List.mem_cons_of_mem _ hy, hyu⟩

/-- What a thread does that neither allocates nor frees nor gets arenas. -/
structure Slides (th th' : Thread) : Prop where
  allocators : ∀ a, ∃ k, th'.allocators a =
    { th.allocators a with alloc_next := (th.allocators a).alloc_next + k }
  armed : th'.Armed ↔ th.Armed
  owned : ∀ v ∈ Ssalloc.owned th'.site, v ∈ Ssalloc.owned th.site ∧ th'.var v = th.var v
  limit : ∀ a, limit th.site a ≤ limit th'.site a

theorem Account.slide (h : Account tr t th) (hs : Slides th th') (hst : th'.Staged) :
    Account tr t th' := by
  refine ⟨hst, fun a => ?_, fun a => ?_, fun hb => ?_, fun hb a => ?_, fun v hv => ?_,
    fun hp hq => ?_⟩
  · obtain ⟨k, hk⟩ := hs.allocators a
    rw [hk]
    exact (h.ledger a).advance k
  · obtain ⟨k, hk⟩ := hs.allocators a
    rw [hk]
    exact Nat.le_trans (h.bounded a) (hs.limit a)
  · obtain ⟨hheld, hnum⟩ := h.blank fun ha => hb (hs.armed.mpr ha)
    refine ⟨hheld, fun a => ?_⟩
    obtain ⟨k, hk⟩ := hs.allocators a
    rw [hk]
    exact hnum a
  · obtain ⟨k, hk⟩ := hs.allocators a
    rw [hk]
    exact h.armed (hs.armed.mp hb) a
  · obtain ⟨hv, heq⟩ := hs.owned v hv
    rw [heq]
    exact h.owned v hv
  · obtain ⟨hp, hpe⟩ := hs.owned _ hp
    obtain ⟨hq, hqe⟩ := hs.owned _ hq
    rw [hpe, hqe]
    exact h.distinct hp hq

/-- What the sites of the requests have in common. -/
structure Requests (site : Site) (a : Fin 2) (size : ℕ) : Prop where
  later : site ≠ .idle ∧ site.initial = false
  size_le : size ≤ unit a ∧ 0 < size
  onward : (follow false site).initial = false
  limit_le : max 2 (limit site a - 1) ≤ limit (follow false site) a
  limit_other : ∀ b, b ≠ a → limit site b ≤ limit (follow false site) b
  owned_of : ∀ v ∈ owned (follow false site),
    (v = site ∧ a = home v ∧ size = unit (home v)) ∨ (v ≠ site ∧ v ∈ owned site)
  both : .preds ∈ owned (follow false site) → .succs ∈ owned (follow false site) →
    site = .succs ∧ a = 0 ∧ .preds ∈ owned site

theorem Requests.of_request {site : Site} (hr : request site = some (a, size))
    (hseed : site ≠ .seed_rand) : Requests site a size := by
  cases site with
  | set | max | min | new | node | preds | succs =>
    obtain ⟨rfl, rfl⟩ := Prod.mk.inj (Option.some.inj hr)
    constructor <;> decide
  | seed_rand => exact absurd rfl hseed
  | _ => cases hr

/-- What the sites of the releases have in common. -/
structure Releases (site : Site) (a : Fin 2) (v : Site) : Prop where
  later : site ≠ .idle ∧ site.initial = false
  home_eq : a = home v
  onward : (follow false site).initial = false
  owned_self : v ∈ owned site
  limit_le : limit site a + 1 ≤ limit (follow false site) a ∧ limit site a < 255
  limit_other : ∀ b, b ≠ a → limit site b ≤ limit (follow false site) b
  owned_of : ∀ w ∈ owned (follow false site), w ∈ owned site ∧
    (home w = home v → v = .preds ∧ w = .succs)

theorem Releases.of_release {site v : Site} (hr : release site = some (a, v)) :
    Releases site a v := by
  cases site with
  | sl_delete_node | ssfree_preds | ssfree_succs =>
    obtain ⟨rfl, rfl⟩ := Prod.mk.inj (Option.some.inj hr)
    constructor <;> decide
  | _ => cases hr

/-- A request takes a block from the list if there are more than two. -/
theorem ssalloc_alloc_num (A : Allocator) (size : ℕ) :
    (ssalloc_alloc A size).2.free_num.toNat ≤ max 2 (A.free_num.toNat - 1) := by
  rw [ssalloc_alloc]
  split
  · next hnum =>
    have hgt := UInt8.lt_iff_toNat_lt.mp hnum
    have hle : (1 : UInt8) ≤ A.free_num := by
      rw [UInt8.le_iff_toNat_le]
      have hone : (1 : UInt8).toNat = 1 := rfl
      have htwo : (2 : UInt8).toNat = 2 := rfl
      omega
    have hsub := UInt8.toNat_sub_of_le A.free_num 1 hle
    have hone : (1 : UInt8).toNat = 1 := rfl
    simp only
    omega
  · next hnum =>
    have hle := UInt8.le_iff_toNat_le.mp (UInt8.not_lt.mp hnum)
    have htwo : (2 : UInt8).toNat = 2 := rfl
    simp only
    omega

/-- The thread after a request. -/
def Thread.allocated (th : Thread) (a : Fin 2) (size : ℕ) : Thread :=
  { th with
    allocators := Function.update th.allocators a (ssalloc_alloc (th.allocators a) size).2
    site := follow false th.site
    var := Function.update th.var th.site (ssalloc_alloc (th.allocators a) size).1 }

/-- The thread after a release. -/
def Thread.released (th : Thread) (a : Fin 2) (v : Site) : Thread :=
  { th with
    allocators := Function.update th.allocators a (ssfree_alloc (th.allocators a) (th.var v))
    site := follow false th.site }

/-- Outside of `init_thread` a thread that stands anywhere is initialised. -/
theorem Thread.Staged.later (hst : th.Staged) (hlater : th.site ≠ .idle ∧ th.site.initial = false) :
    th.initialized = true := by
  by_contra hi
  have hsite := hst.site_of_not (by simpa using hi)
  rw [hlater.2] at hsite
  cases hsite with
  | inl h => exact hlater.1 h
  | inr h => cases h

theorem Account.alloc (h : Account tr t th) (hr : request th.site = some (a, size))
    (hseed : th.site ≠ .seed_rand) (hxt : x.who = t)
    (hev : x.ev = .alloc a (ssalloc_alloc (th.allocators a) size).1 size) :
    Account (x :: tr) t (th.allocated a size) := by
  have hq := Requests.of_request hr hseed
  have hgrant := (h.ledger a).alloc hq.size_le.1
  have hinit := h.staged.later hq.later
  have hmem : ∀ b, b ∈ held tr → b ∈ held (x :: tr) := by
    intro b hb
    rw [held_alloc hev]
    exact List.mem_cons_of_mem _ hb
  refine ⟨?_, fun b => ?_, fun b => ?_, fun hb => ?_, fun _ b => ?_, fun v hv => ?_,
    fun hp hs => ?_⟩
  · exact Thread.Staged.of_site (fun hi => absurd (hinit.symm.trans hi) (by decide))
      fun _ => hq.onward
  · simp only [Thread.allocated, Function.update_apply]
    split
    · next heq =>
      subst heq
      exact hgrant.ledger x hxt hev
    · next hne =>
      refine (h.ledger b).frame fun hx => ?_
      rw [hev] at hx
      rcases hx.2 with ⟨p, n, heq⟩ | ⟨p, heq⟩
      · injection heq with heq
        exact hne heq.symm
      · cases heq
  · simp only [Thread.allocated, Function.update_apply]
    split
    · next heq =>
      subst heq
      have hnum := ssalloc_alloc_num (th.allocators b) size
      have hbound := h.bounded b
      have hlimit := hq.limit_le
      omega
    · next hne => exact Nat.le_trans (h.bounded b) (hq.limit_other b hne)
  · exact absurd (Or.inl hinit) hb
  · obtain ⟨y, hy, hyt, base, hbase, heq⟩ := h.armed (Or.inl hinit) b
    refine ⟨y, List.mem_cons_of_mem _ hy, hyt, base, hbase, ?_⟩
    simp only [Thread.allocated, Function.update_apply]
    split
    · next hb =>
      subst hb
      rw [hgrant.app_mem]
      exact heq
    · exact heq
  · simp only [Thread.allocated, Function.update_apply]
    rcases hq.owned_of v hv with ⟨hvs, ha, hsize⟩ | ⟨hne, hv⟩
    · rw [if_pos hvs, held_alloc hev, ← ha, hxt, hsize, ← ha]
      exact List.mem_cons_self
    · rw [if_neg hne]
      exact hmem _ (h.owned v hv)
  · obtain ⟨hsite, ha, hpreds⟩ := hq.both hp hs
    simp only [Thread.allocated, Function.update_apply]
    rw [if_neg (by rw [hsite]; decide), if_pos hsite.symm]
    intro heq
    have hdisj := hgrant.apart _ (h.owned _ hpreds) rfl ha.symm
    exact Block.not_disjoint heq.symm hq.size_le.2 (unit_pos (home .preds)) hdisj

theorem Account.free {v : Site} (h : Account tr t th) (hdisj : (held tr).Pairwise Block.Disjoint)
    (hr : release th.site = some (a, v)) (hxt : x.who = t) (hev : x.ev = .free a (th.var v)) :
    Account (x :: tr) t (th.released a v) := by
  have hq := Releases.of_release hr
  have hinit := h.staged.later hq.later
  have hheld := h.owned v hq.owned_self
  rw [← hq.home_eq] at hheld
  refine ⟨?_, fun b => ?_, fun b => ?_, fun hb => ?_, fun _ b => ?_, fun w hw => ?_,
    fun hp hs => ?_⟩
  · exact Thread.Staged.of_site (fun hi => absurd (hinit.symm.trans hi) (by decide))
      fun _ => hq.onward
  · simp only [Thread.released, Function.update_apply]
    split
    · next heq =>
      subst heq
      have hbound := h.bounded b
      have hlimit := hq.limit_le.2
      exact (h.ledger b).free hdisj hheld (by omega) hxt hev
    · next hne =>
      refine (h.ledger b).frame fun hx => ?_
      rw [hev] at hx
      rcases hx.2 with ⟨p, n, heq⟩ | ⟨p, heq⟩
      · cases heq
      · injection heq with heq
        exact hne heq.symm
  · simp only [Thread.released, Function.update_apply]
    split
    · next heq =>
      subst heq
      have hbound := h.bounded b
      have hlimit := hq.limit_le
      have hone : (1 : UInt8).toNat = 1 := rfl
      have hnum : ((th.allocators b).free_num + 1).toNat = (th.allocators b).free_num.toNat + 1 := by
        rw [UInt8.toNat_add]
        omega
      simp only [ssfree_alloc, hnum]
      omega
    · next hne => exact Nat.le_trans (h.bounded b) (hq.limit_other b hne)
  · exact absurd (Or.inl hinit) hb
  · obtain ⟨y, hy, hyt, base, hbase, heq⟩ := h.armed (Or.inl hinit) b
    refine ⟨y, List.mem_cons_of_mem _ hy, hyt, base, hbase, ?_⟩
    simp only [Thread.released, Function.update_apply]
    split
    · next hb =>
      subst hb
      exact heq
    · exact heq
  · obtain ⟨hkept, hsame⟩ := hq.owned_of w hw
    refine (mem_held_free hev).mpr ⟨h.owned w hkept, ?_⟩
    rintro ⟨_, ha, hvar⟩
    obtain ⟨rfl, rfl⟩ := hsame (ha.trans hq.home_eq)
    exact h.distinct hq.owned_self hkept hvar.symm
  · exact h.distinct (hq.owned_of _ hp).1 (hq.owned_of _ hs).1

/-- A thread that has no arenas yet stands in front of them. -/
theorem Thread.not_armed (hi : th.initialized = false) (hs : th.site ≠ .thread_data) : ¬th.Armed := by
  rintro (h | h)
  · rw [hi] at h
    cases h
  · exact hs h

/-- A move of the thread to another site of the same stage. -/
theorem slides_of_site {site : Site} (harmed : site = .thread_data ↔ th.site = .thread_data)
    (howned : ∀ v ∈ owned site, v ∈ owned th.site) (hlimit : ∀ a, limit th.site a ≤ limit site a) :
    Slides th { th with site := site } :=
  ⟨fun _ => ⟨0, rfl⟩, or_congr Iff.rfl harmed, fun v hv => ⟨howned v hv, rfl⟩, hlimit⟩

/-- The steps that neither hand out a block that counts, nor free one, nor get arenas. -/
theorem Moves.slides (hm : Moves mapped th ev th') (h : Account tr t th)
    (hev : ev = .tau ∨ ev = .fault ∨ th.site = .seed_rand) : Slides th th' := by
  cases hm with
  | alloc a size hr =>
    have hs : th.site = .seed_rand := by simpa using hev
    have hinit : th.initialized = false := by
      rw [← Bool.not_eq_true]
      intro hi
      have hinitial := h.staged.site_of hi
      rw [hs] at hinitial
      cases hinitial
    have hnum := (h.blank (Thread.not_armed hinit (by rw [hs]; decide))).2 a
    have halloc : (ssalloc_alloc (th.allocators a) size).2 =
        { th.allocators a with alloc_next := (th.allocators a).alloc_next + size } := by
      rw [ssalloc_alloc, if_neg (by rw [hnum]; decide)]
    refine ⟨fun b => ?_, ?_, ?_, ?_⟩
    · simp only [Function.update_apply]
      split
      · next heq => exact ⟨size, by rw [halloc, heq]⟩
      · exact ⟨0, rfl⟩
    · simp [Thread.Armed, hs, follow]
    · simp [hs, follow, owned]
    · have hlimit : ∀ b, limit .seed_rand b ≤ limit .seeds b := by decide
      rw [hs]
      exact hlimit
  | free a v hr =>
    have hs : th.site = .seed_rand := by simpa using hev
    rw [hs] at hr
    cases hr
  | init_thread hs hi => exact slides_of_site (by simp [hs]) (by simp [owned]) (by rw [hs]; decide)
  | nb_threads hs hi => exact slides_of_site Iff.rfl (fun _ hv => hv) fun _ => Nat.le_refl _
  | seeds hs hw => exact slides_of_site (by simp [hs]) (by simp [owned]) (by rw [hs]; decide)
  | fault hs hnull hmapped => exact slides_of_site Iff.rfl (fun _ hv => hv) fun _ => Nat.le_refl _
  | arenas base hs => simp [hs] at hev
  | thread_data hs =>
    have hlimit : ∀ b, limit .thread_data b ≤ limit .idle b := by decide
    exact ⟨fun _ => ⟨0, rfl⟩, by simp [Thread.Armed, hs], by simp [owned], by rw [hs]; exact hlimit⟩
  | call op hs hi =>
    have hop : op.start ≠ .thread_data ∧ owned op.start = [] ∧
        ∀ a, limit .idle a ≤ limit op.start a := by
      cases op with
      | sl_add transactional => cases transactional <;> decide
      | _ => decide
    exact slides_of_site (by simp [hs, hop.1]) (by simp [hop.2.1]) (by rw [hs]; exact hop.2.2)
  | align hs =>
    have hlimit : ∀ b, limit .align b ≤ limit .max b := by decide
    refine ⟨fun b => ?_, by simp [Thread.Armed, hs], by simp [owned], by rw [hs]; exact hlimit⟩
    simp only [Function.update_apply]
    split
    · next heq => exact ⟨_, by rw [ssalloc_align_alloc, heq]⟩
    · exact ⟨0, rfl⟩
  | internal found hs =>
    rcases hs with hs | hs | hs <;> rw [hs] <;> cases found <;>
      exact slides_of_site (by simp [hs, follow]) (by simp [hs, follow, owned]) (by rw [hs]; decide)

end Step

/-! ### The invariant -/

section Accounts

variable {mapped : Bool} {tr tr' : List Record} {s s' : State} {t : ℕ} {th th' : Thread}
  {ev : Event} {x : Record} {a : Fin 2} {size : ℕ}

/-- A step that changes no arena. -/
theorem Accounts.of_thread (h : Accounts tr s) (hth : s'.thread = Function.update s.thread t th')
    (hregions : s'.regions = s.regions) (hfits : th'.Fits)
    (harmed : th'.Armed ↔ (s.thread t).Armed)
    (happ : ∀ a, (th'.allocators a).app_mem = ((s.thread t).allocators a).app_mem)
    (hacc : Account tr' t th') (hothers : ∀ u, u ≠ t → Account tr' u (s.thread u))
    (hdisj : (held tr').Pairwise Block.Disjoint) : Accounts tr' s' := by
  have harmed' : ∀ u, (s'.thread u).Armed ↔ (s.thread u).Armed := by
    intro u
    rw [hth, Function.update_apply]
    split
    · next heq =>
      rw [heq]
      exact harmed
    · exact Iff.rfl
  have happ' : ∀ u a, ((s'.thread u).allocators a).app_mem = ((s.thread u).allocators a).app_mem := by
    intro u a
    rw [hth, Function.update_apply]
    split
    · next heq =>
      rw [heq]
      exact happ a
    · rfl
  refine ⟨fun u => ?_, fun u => ?_, fun u hu a => ?_, fun u v hu hv a b hne => ?_, hdisj⟩
  · rw [hth, Function.update_apply]
    split
    · next heq =>
      rw [heq]
      exact hacc
    · next hne => exact hothers u hne
  · rw [hth, Function.update_apply]
    split
    · exact hfits
    · exact h.fits u
  · rw [happ', hregions]
    exact h.inside u ((harmed' u).mp hu) a
  · rw [happ', happ']
    exact h.apart u v ((harmed' u).mp hu) ((harmed' v).mp hv) a b hne

/-- A new block is apart from all that are held. -/
theorem Accounts.granted (h : Accounts tr s) {A' : Allocator} {p : ℕ}
    (hg : Granted tr t a size ((s.thread t).allocators a) A' p) (harmed : (s.thread t).Armed)
    (hfits : A'.alloc_next ≤ SSALLOC_SIZE) :
    ∀ b ∈ held tr, Block.Disjoint ⟨t, a, p, size⟩ b := by
  intro b hb
  by_cases hsame : (t, a) = (b.who, b.allocator)
  · obtain ⟨ht, ha⟩ := Prod.mk.inj hsame
    exact hg.apart b hb ht.symm ha.symm
  · have hacc := h.account b.who
    have hbarmed : (s.thread b.who).Armed := by
      by_contra hno
      exact (hacc.blank hno).1 b hb rfl
    have hapart := h.apart t b.who harmed hbarmed a b.allocator hsame
    have hbin := (hacc.ledger b.allocator).held_in b hb rfl rfl
    have hbfits := h.fits b.who b.allocator
    have hin := hg.fits
    rw [hg.app_mem] at hin
    rw [Apart] at hapart
    rw [Block.Disjoint]
    simp only
    omega

/-- A step that leaves the arenas and all blocks alone. -/
theorem Accounts.slide (h : Accounts tr s) (hth : s'.thread = Function.update s.thread t th')
    (hregions : s'.regions = s.regions) (hfits : th'.Fits) (hslide : Slides (s.thread t) th')
    (hst : th'.Staged) : Accounts tr s' := by
  refine h.of_thread hth hregions hfits hslide.armed (fun a => ?_)
    ((h.account t).slide hslide hst) (fun u _ => h.account u) h.disjoint
  obtain ⟨k, hk⟩ := hslide.allocators a
  rw [hk]

/-- A step that shows neither a request nor a release. -/
theorem Accounts.silent (h : Accounts tr s) (hx : x.ev.silent = true) : Accounts (x :: tr) s := by
  refine ⟨fun u => (h.account u).frame (Or.inr hx), h.fits, h.inside, h.apart, ?_⟩
  rw [held_silent hx]
  exact h.disjoint

/-- `ssalloc_init`. -/
theorem Accounts.arenas {base : Fin 2 → ℕ} (h : Accounts tr s)
    (hth : s'.thread = Function.update s.thread t
      { s.thread t with
        allocators := ssalloc_init (s.thread t).allocators base, site := .thread_data })
    (hregions : s'.regions = base 1 :: base 0 :: s.regions) (hmem : Memalign s.regions base)
    (hsite : (s.thread t).site = .ssalloc_init) (hxt : x.who = t) (hev : x.ev = .arenas base) :
    Accounts (x :: tr) s' := by
  have hacc := h.account t
  have hsilent : x.ev.silent = true := by rw [hev]; rfl
  have hinit : (s.thread t).initialized = false := by
    rw [← Bool.not_eq_true]
    intro hi
    have hinitial := hacc.staged.site_of hi
    rw [hsite] at hinitial
    cases hinitial
  obtain ⟨hnone, hnum⟩ := hacc.blank (Thread.not_armed hinit (by rw [hsite]; decide))
  have hheld : held (x :: tr) = held tr := held_silent hsilent
  have hfreed : ∀ a, (ssalloc_init (s.thread t).allocators base a).freed = [] := by
    intro a
    rw [Allocator.freed]
    simp only [ssalloc_init, hnum]
    exact window_zero
  have hbase : ∀ a, base a = base 0 ∨ base a = base 1 := by
    rw [Fin.forall_fin_two]
    exact ⟨Or.inl rfl, Or.inr rfl⟩
  have hold : ∀ u, u ≠ t → s'.thread u = s.thread u := fun u hu => by
    rw [hth, Function.update_of_ne hu]
  have hnew : s'.thread t = { s.thread t with
      allocators := ssalloc_init (s.thread t).allocators base, site := .thread_data } := by
    rw [hth, Function.update_self]
  refine ⟨fun u => ?_, fun u => ?_, fun u hu a => ?_, fun u v hu hv a b hne => ?_, ?_⟩
  · by_cases hu : u = t
    · rw [hu, hnew]
      refine ⟨?_, fun a => ?_, fun a => ?_, fun hno => absurd (Or.inr rfl) hno, fun _ a => ?_, ?_, ?_⟩
      · exact Thread.Staged.of_site (fun _ => Or.inr rfl) fun hi => by
          rw [hinit] at hi
          cases hi
      · refine ⟨fun b hb hbt => ?_, ?_, ?_, fun b hb hbt => ?_⟩
        · rw [hheld] at hb
          exact absurd hbt (hnone b hb)
        · simp [hfreed]
        · simp [hfreed]
        · rw [hheld] at hb
          exact absurd hbt (hnone b hb)
      · simp [ssalloc_init, hnum]
      · exact ⟨x, List.mem_cons_self, hxt, base, hev, rfl⟩
      · simp [owned]
      · simp [owned]
    · rw [hold u hu]
      exact (h.account u).frame (Or.inr hsilent)
  · by_cases hu : u = t
    · rw [hu, hnew]
      exact h.fits t
    · rw [hold u hu]
      exact h.fits u
  · rw [hregions]
    by_cases hut : u = t
    · rw [hut, hnew]
      show base a ∈ _
      cases hbase a with
      | inl heq => simp [heq]
      | inr heq => simp [heq]
    · rw [hold u hut] at hu ⊢
      exact List.mem_cons_of_mem _ (List.mem_cons_of_mem _ (h.inside u hu a))
  · by_cases hut : u = t
    · by_cases hvt : v = t
      · rw [hut, hvt] at hne
        rw [hut, hvt, hnew]
        show Apart (base a) (base b)
        have heach := hmem.each
        revert a b
        rw [Fin.forall_fin_two, Fin.forall_fin_two, Fin.forall_fin_two]
        exact ⟨⟨fun hne => absurd rfl hne, fun _ => heach⟩, fun _ => Or.symm heach,
          fun hne => absurd rfl hne⟩
      · rw [hut, hnew, hold v hvt]
        rw [hold v hvt] at hv
        exact hmem.fresh a _ (h.inside v hv b)
    · by_cases hvt : v = t
      · rw [hvt, hnew, hold u hut]
        rw [hold u hut] at hu
        exact Or.symm (hmem.fresh b _ (h.inside u hu a))
      · rw [hold u hut] at hu ⊢
        rw [hold v hvt] at hv ⊢
        exact h.apart u v hu hv a b hne
  · rw [hheld]
    exact h.disjoint

/-- The step has moved a bump pointer out of the arena: `ssalloc_alloc` prints its warning. -/
def Overrun (x : Record) : Prop :=
  ∃ a, SSALLOC_SIZE < ((x.post.thread x.who).allocators a).alloc_next

/-- The steps other than the call of `ssalloc` in `seed_rand`. -/
def unseeded (tr : List Record) : List Record := tr.filter fun x => ¬Seeding x

theorem Accounts.of_init (hi : (wrapper mapped).init s) : Accounts [] s := by
  obtain ⟨_, hregions, hfresh⟩ := hi
  have hno : ∀ t, ¬(s.thread t).Armed := fun t =>
    Thread.not_armed (hfresh t).initialized (by rw [(hfresh t).site]; decide)
  refine ⟨fun t => ⟨(hfresh t).early.staged, fun a => ?_, fun a => ?_, fun _ => ⟨?_, fun a => ?_⟩,
    fun h => absurd h (hno t), ?_, ?_⟩, fun t a => ?_, fun t h => absurd h (hno t),
    fun t u h => absurd h (hno t), List.Pairwise.nil⟩
  · rw [(hfresh t).allocators]
    constructor <;> simp [held, Allocator.freed, Allocator.zero]
  · simp [(hfresh t).allocators, Allocator.zero]
  · simp [held]
  · simp [(hfresh t).allocators, Allocator.zero]
  · simp [(hfresh t).site, owned]
  · simp [(hfresh t).site, owned]
  · simp [(hfresh t).allocators, Allocator.zero]

/-- The block lies in the arena. -/
theorem Accounts.obtained (h : Accounts tr s) {A' : Allocator} {p : ℕ}
    (hg : Granted tr t a size ((s.thread t).allocators a) A' p) (harmed : (s.thread t).Armed)
    (hfits : A'.alloc_next ≤ SSALLOC_SIZE) : Obtained tr ⟨t, a, p, size⟩ := by
  obtain ⟨y, hy, hyt, base, hev, heq⟩ := (h.account t).armed harmed a
  have hin := hg.fits
  rw [hg.app_mem, ← heq] at hin
  refine ⟨y, hy, hyt, base, hev, hin.1, ?_⟩
  simp only
  omega

/-- A request other than the one in `seed_rand`. -/
theorem Accounts.alloc (h : Accounts tr s) (hsound : Sound tr) (hxt : x.who = t)
    (hth : s'.thread = Function.update s.thread t ((s.thread t).allocated a size))
    (hregions : s'.regions = s.regions) (hfits : ((s.thread t).allocated a size).Fits)
    (hr : request (s.thread t).site = some (a, size)) (hseed : (s.thread t).site ≠ .seed_rand)
    (hev : x.ev = .alloc a (ssalloc_alloc ((s.thread t).allocators a) size).1 size) :
    Accounts (x :: tr) s' ∧ Sound (x :: tr) := by
  have hq := Requests.of_request hr hseed
  have hacc := h.account t
  have hinit := hacc.staged.later hq.later
  have hgrant := (hacc.ledger a).alloc hq.size_le.1
  have hnext : (ssalloc_alloc ((s.thread t).allocators a) size).2.alloc_next ≤ SSALLOC_SIZE := by
    have hfit := hfits a
    simp only [Thread.allocated, Function.update_self] at hfit
    exact hfit
  have hdisj : (held (x :: tr)).Pairwise Block.Disjoint := by
    rw [held_alloc hev, hxt]
    exact List.pairwise_cons.mpr ⟨h.granted hgrant (Or.inl hinit) hnext, h.disjoint⟩
  refine ⟨h.of_thread hth hregions hfits ?_ (fun b => ?_) (hacc.alloc hr hseed hxt hev)
    (fun u hu => (h.account u).frame (Or.inl fun hxu => hu (hxu.symm.trans hxt))) hdisj,
    hsound, fun b p n heq => ?_, hdisj⟩
  · exact iff_of_true (Or.inl hinit) (Or.inl hinit)
  · simp only [Thread.allocated, Function.update_apply]
    split
    · next heq =>
      rw [hgrant.app_mem, heq]
    · rfl
  · rw [hev] at heq
    injection heq with ha hp hn
    subst ha hp hn
    rw [hxt]
    exact Or.inl (h.obtained hgrant (Or.inl hinit) hnext)

/-- A release. -/
theorem Accounts.free {v : Site} (h : Accounts tr s) (hsound : Sound tr) (hxt : x.who = t)
    (hth : s'.thread = Function.update s.thread t ((s.thread t).released a v))
    (hregions : s'.regions = s.regions) (hfits : ((s.thread t).released a v).Fits)
    (hr : release (s.thread t).site = some (a, v)) (hev : x.ev = .free a ((s.thread t).var v)) :
    Accounts (x :: tr) s' ∧ Sound (x :: tr) := by
  have hq := Releases.of_release hr
  have hacc := h.account t
  have hinit := hacc.staged.later hq.later
  have hdisj : (held (x :: tr)).Pairwise Block.Disjoint := by
    rw [held, hev]
    exact h.disjoint.filter _
  refine ⟨h.of_thread hth hregions hfits ?_ (fun b => ?_) (hacc.free h.disjoint hr hxt hev)
    (fun u hu => (h.account u).frame (Or.inl fun hxu => hu (hxu.symm.trans hxt))) hdisj,
    hsound, fun b p n heq => ?_, hdisj⟩
  · exact iff_of_true (Or.inl hinit) (Or.inl hinit)
  · simp only [Thread.released, Function.update_apply]
    split
    · next heq =>
      rw [heq]
      rfl
    · rfl
  · rw [hev] at heq
    cases heq

/-- A step that shows neither is sound. -/
theorem Sound.silent (h : Sound tr) (hdisj : (held tr).Pairwise Block.Disjoint)
    (hx : x.ev.silent = true) : Sound (x :: tr) := by
  refine ⟨h, fun a p size hev => ?_, ?_⟩
  · rw [hev] at hx
    cases hx
  · rw [held_silent hx]
    exact hdisj

/-- One step apart from the call of `ssalloc` in `seed_rand`. -/
theorem Accounts.step (h : Accounts tr s) (hsound : Sound tr)
    (hstep : (wrapper mapped).step s t ev s') (hfits : (s'.thread t).Fits)
    (hseed : (s.thread t).site ≠ .seed_rand) :
    Accounts (⟨s, t, ev, s'⟩ :: tr) s' ∧ Sound (⟨s, t, ev, s'⟩ :: tr) := by
  obtain ⟨_, hmemalign, _, hregions, th, hm, hth⟩ := hstep
  rw [hth, Function.update_self] at hfits
  have hacc := h.account t
  have hst := hm.staged hacc.staged
  have hquiet : ev = .tau ∨ ev = .fault →
      Accounts (⟨s, t, ev, s'⟩ :: tr) s' ∧ Sound (⟨s, t, ev, s'⟩ :: tr) := by
    intro hev
    have hsilent : ev.silent = true := by rcases hev with rfl | rfl <;> rfl
    have hreg : s'.regions = s.regions := by
      rw [hregions]
      rcases hev with rfl | rfl <;> rfl
    have hslide := hm.slides hacc (by rcases hev with hev | hev <;> simp [hev])
    exact ⟨(h.slide hth hreg hfits hslide hst).silent hsilent, hsound.silent h.disjoint hsilent⟩
  cases hm with
  | alloc a size hr => exact h.alloc hsound rfl hth hregions hfits hr hseed rfl
  | free a v hr => exact h.free hsound rfl hth hregions hfits hr rfl
  | arenas base hs =>
    exact ⟨h.arenas hth hregions (hmemalign base rfl) hs rfl rfl, hsound.silent h.disjoint rfl⟩
  | fault hs hnull hmapped => exact hquiet (Or.inr rfl)
  | _ => exact hquiet (Or.inl rfl)

/-- The call of `ssalloc` in `seed_rand`. -/
theorem Accounts.seed (h : Accounts tr s) (hstep : (wrapper mapped).step s t ev s')
    (hfits : (s'.thread t).Fits) (hseed : (s.thread t).site = .seed_rand) : Accounts tr s' := by
  obtain ⟨_, _, _, hregions, th, hm, hth⟩ := hstep
  rw [hth, Function.update_self] at hfits
  have hslide := hm.slides (h.account t) (Or.inr (Or.inr hseed))
  have hst := hm.staged (h.account t).staged
  have hreg : s'.regions = s.regions := by
    rw [hregions]
    cases hm with
    | arenas base hs =>
      rw [hseed] at hs
      cases hs
    | _ => rfl
  exact h.slide hth hreg hfits hslide hst

theorem Accounts.of_run (hrun : Run (wrapper mapped) tr s) (hover : ∀ x ∈ tr, ¬Overrun x) :
    Accounts (unseeded tr) s ∧ Sound (unseeded tr) := by
  induction hrun with
  | start hi => exact ⟨Accounts.of_init hi, trivial⟩
  | @step tr s s' t ev _ hstep ih =>
    obtain ⟨hacc, hsound⟩ := ih fun x hx => hover x (List.mem_cons_of_mem _ hx)
    have hfits : (s'.thread t).Fits := by
      intro a
      by_contra hlt
      exact hover _ List.mem_cons_self ⟨a, Nat.lt_of_not_le hlt⟩
    by_cases hseed : Seeding ⟨s, t, ev, s'⟩
    · have hsame : unseeded (⟨s, t, ev, s'⟩ :: tr) = unseeded tr := by
        simp [unseeded, hseed]
      rw [hsame]
      exact ⟨hacc.seed hstep hfits hseed, hsound⟩
    · have hmore : unseeded (⟨s, t, ev, s'⟩ :: tr) = ⟨s, t, ev, s'⟩ :: unseeded tr := by
        simp [unseeded, hseed]
      rw [hmore]
      exact hacc.step hsound hstep hfits hseed

end Accounts

/-- **Apart from the blocks of `seed_rand` the allocator is sound** as long as no arena overruns: every
other block lies in an arena of its thread, and no two that are held overlap. -/
theorem sound_apart {mapped : Bool} {tr : List Record} {s : State}
    (hrun : Run (wrapper mapped) tr s) (hover : ∀ x ∈ tr, ¬Overrun x) : Sound (unseeded tr) :=
  (Accounts.of_run hrun hover).2

instance (x : Record) : Decidable (Overrun x) :=
  inferInstanceAs (Decidable (∃ a, SSALLOC_SIZE < ((x.post.thread x.who).allocators a).alloc_next))

/-- The last step of a run of two threads hands out a block that the thread had freed; the other thread
has blocks of its own arenas. -/
theorem sound_apart_reused : ∃ x tr s, Run (wrapper true) (x :: tr) s ∧
    x.who = 0 ∧ x.ev = .alloc 0 1073741848 120 ∧ Freed tr ⟨0, 0, 1073741848, 120⟩ ∧
    (∃ y ∈ tr, y.who = 1 ∧ y.ev = .alloc 1 4294967296 320) ∧ Sound (unseeded (x :: tr)) := by
  have hex : (execute move (List.replicate 10 ⟨0, .sl_set_new, false⟩ ++
      List.replicate 13 ⟨1, .sl_add true, false⟩ ++ List.replicate 19 ⟨0, .sl_add true, true⟩)
      ([], start)).any (fun c => match c.1 with
        | x :: tr => decide ((x.who = 0 ∧ x.ev = .alloc 0 1073741848 120) ∧
            (∃ y ∈ tr, y.who = 0 ∧ y.ev = .free 0 1073741848) ∧
            (∃ y ∈ tr, y.who = 1 ∧ y.ev = .alloc 1 4294967296 320) ∧ ∀ y ∈ x :: tr, ¬Overrun y)
        | [] => false) = true := by decide +kernel
  rw [Option.any_eq_true] at hex
  obtain ⟨⟨tr, s⟩, hexec, hc⟩ := hex
  have hrun : Run (wrapper true) tr s := .execute (fun _ _ _ _ _ => step_of_move) (.start start_init) hexec
  cases tr with
  | nil => cases hc
  | cons x tr =>
    obtain ⟨⟨hwho, hev⟩, ⟨y, hy, hyt, hfree⟩, hother, hover⟩ := of_decide_eq_true hc
    exact ⟨x, tr, s, hrun, hwho, hev, ⟨y, hy, hyt, 0, hfree⟩, hother, sound_apart hrun hover⟩

end ConcurrentPQ.Ssalloc

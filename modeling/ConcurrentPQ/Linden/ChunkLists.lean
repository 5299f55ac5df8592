import ConcurrentPQ.Linden.Chunks
import Mathlib.Data.List.Rotate

/-!
# Chunks in one place

As long as each removal finds the chunks it has walked over where it saw them, the lists stay rings that
share no chunk with each other and with what the threads own.

* `Linked`, `Ok` — what a thread knows of its chunks at each program counter;
* `Books` — the invariant: the lists, and who owns the other chunks;
* `Books.store`, `Books.move`, `Books.take`, `Books.give`, `Books.more` — the kinds of steps;
* `Books.step` — the step lemma;
* `partitioned_of_current` — **every chunk is in one place while all removals are current**;
* `exists_not_partitioned` — a removal that is not.
-/

namespace ConcurrentPQ.Chunks

open ConcurrentPQ.Transition ConcurrentPQ.Segment

variable {nr_sizes : ℕ}

/-! ### The chunks that stand for the lists -/

theorem Lst.head_le (list : Lst nr_sizes) : list.head ≤ nr_sizes := by
  cases list with
  | free => exact Nat.zero_le _
  | alloc i => exact i.2

theorem Lst.head_inj {list list' : Lst nr_sizes} (h : list.head = list'.head) : list = list' := by
  cases list with
  | free =>
    cases list' with
    | free => rfl
    | alloc i => exact absurd h (Nat.succ_ne_zero _).symm
  | alloc i =>
    cases list' with
    | free => exact absurd h (Nat.succ_ne_zero _)
    | alloc j => rw [Fin.ext (Nat.succ.inj h)]

/-! ### What a thread knows -/

/-- The chunks of `chain` are owned, and follow each other from `first` to `ch`. -/
structure Linked (next : Chunk → Chunk) (own : List Chunk) (first ch : Chunk) (chain : List Chunk) :
    Prop where
  seg : ∃ m, chain = m ++ [ch] ∧ Seg next first m ch
  nodup : chain.Nodup
  owned : ∀ c ∈ chain, c ∈ own

/-- A walk of at most `n` chunks that has come to `rt` without meeting the end of the list. -/
structure Walked (n : ℕ) (rt : Chunk) (seen : List Chunk) : Prop where
  pos : 0 < n
  notMem : free_chunks ∉ seen
  last : seen = [] ∨ seen.getLast? = some rt

/-- `get_empty_chunks` was called for at least one chunk. -/
def Adder.Positive : Adder nr_sizes → Prop
  | .get_empty_chunks _ n => 0 < n
  | _ => True

/-- The assertion attached to a program counter. -/
def Ok (next : Chunk → Chunk) (own : List Chunk) : Pc nr_sizes → Prop
  | .adNext k _ ch chain => k.Positive ∧ Linked next own (next ch) ch chain
  | .adHead k _ ch ch_next chain | .adLink k _ ch ch_next _ chain =>
      k.Positive ∧ Linked next own ch_next ch chain
  | .adCas k _ ch ch_next h_next chain =>
      k.Positive ∧ Linked next own ch_next ch chain ∧ next ch = h_next
  | .emHead _ n | .emMore _ n => 0 < n
  | .emWalk _ n _ rt seen => Walked n rt seen
  | .emNext _ n _ rt seen | .emCas _ n _ rt _ seen => Walked n rt seen ∧ seen ≠ []
  | .emClose _ rh rt seen => Linked next own rh rt seen
  | .alNext i p | .alCas i p _ => p ≠ (Lst.alloc i).head
  | .alClose _ p => p ∈ own
  | .idle | .alHead _ | .alFill _ => True

section Knows

variable {next next' : Chunk → Chunk} {own own' : List Chunk} {first ch c d : Chunk}
  {chain seen : List Chunk}

theorem Linked.mem (h : Linked next own first ch chain) : ch ∈ own := by
  obtain ⟨m, rfl, -⟩ := h.seg
  exact h.owned ch (List.mem_append_right _ List.mem_cons_self)

theorem Linked.congr (h : Linked next own first ch chain) (hn : ∀ c ∈ own, next' c = next c) :
    Linked next' own first ch chain := by
  obtain ⟨m, rfl, hm⟩ := h.seg
  refine ⟨⟨m, rfl, hm.congr fun c hc => ?_⟩, h.nodup, h.owned⟩
  exact (hn c (h.owned c (List.mem_append_left _ hc))).symm

/-- The chunks of a chain are linked on to what its last one leads to. -/
theorem Linked.to_seg (h : Linked next own first ch chain) : Seg next first chain (next ch) := by
  obtain ⟨m, rfl, hm⟩ := h.seg
  exact seg_concat.mpr ⟨hm, rfl⟩

/-- Storing to the last chunk of a chain. -/
theorem Linked.store (h : Linked next own first ch chain) :
    Linked (Function.update next ch d) own first ch chain := by
  obtain ⟨m, rfl, hm⟩ := h.seg
  have hnot : ch ∉ m := fun hc =>
    (List.nodup_append.mp h.nodup).2.2 ch hc ch List.mem_cons_self rfl
  exact ⟨⟨m, rfl, hm.update_of_notMem hnot⟩, h.nodup, h.owned⟩

/-- A chain that has been closed, seen from its other end. -/
theorem Linked.rotate (h : Linked next own first ch chain) (hclose : next ch = first) :
    Linked next own (next first) first (chain.rotate 1) := by
  have hseg := h.to_seg
  rw [hclose] at hseg
  cases chain with
  | nil =>
    obtain ⟨m, hm, -⟩ := h.seg
    simp at hm
  | cons x l =>
    obtain ⟨rfl, hl⟩ := hseg
    rw [List.rotate_cons_succ, List.rotate_zero]
    refine ⟨⟨l, rfl, hl⟩, ?_, fun c hc => h.owned c ?_⟩
    · have hnodup := h.nodup
      rw [List.nodup_cons] at hnodup
      rw [List.nodup_append]
      refine ⟨hnodup.2, List.nodup_singleton _, fun c hc d hd he => ?_⟩
      rw [List.mem_singleton.mp hd] at he
      exact hnodup.1 (he ▸ hc)
    · simpa [or_comm] using hc

theorem Ok.congr {pc : Pc nr_sizes} (h : Ok next own pc) (hn : ∀ c ∈ own, next' c = next c) :
    Ok next' own pc := by
  cases pc with
  | adNext k list ch chain =>
    have hch := hn ch h.2.mem
    simp only [Ok, hch]
    exact ⟨h.1, h.2.congr hn⟩
  | adHead k list ch ch_next chain => exact ⟨h.1, h.2.congr hn⟩
  | adLink k list ch ch_next w chain => exact ⟨h.1, h.2.congr hn⟩
  | adCas k list ch ch_next h_next chain =>
    exact ⟨h.1, h.2.1.congr hn, (hn ch h.2.1.mem).trans h.2.2⟩
  | emClose k rh rt seen => exact Linked.congr h hn
  | _ => exact h

theorem Walked.start {n : ℕ} (h : 0 < n) : Walked n free_chunks [] :=
  ⟨h, List.not_mem_nil, Or.inl rfl⟩

theorem Walked.step {n : ℕ} {rt : Chunk} (h : Walked n rt seen) (hc : c ≠ free_chunks) :
    Walked n c (seen ++ [c]) := by
  refine ⟨h.pos, fun hm => ?_, Or.inr List.getLast?_concat⟩
  rw [List.mem_append, List.mem_singleton] at hm
  cases hm with
  | inl hm => exact h.notMem hm
  | inr hm => exact hc hm.symm

theorem Ok.walk {n : ℕ} {k : Caller nr_sizes} {rh rt : Chunk} (h : Walked n rt seen) :
    Ok next own (walk k n rh rt seen) := by
  rw [Chunks.walk]
  split
  · exact h
  · next hlen =>
    refine ⟨h, fun he => hlen ?_⟩
    rw [he]
    exact h.pos

theorem Ok.found {i : Fin nr_sizes} {p : Chunk} : Ok next own (found i p) := by
  rw [Chunks.found]
  split
  · trivial
  · next hp => exact hp

theorem Ok.added {k : Adder nr_sizes} (h : k.Positive) : Ok next own (added k) := by
  cases k with
  | client => trivial
  | get_empty_chunks c n => exact h
  | get_alloc_chunk i => trivial

/-- What was walked over, once it is owned. -/
theorem Walked.linked {n : ℕ} {rt rh rt_next : Chunk} (h : Walked n rt seen) (hne : seen ≠ [])
    (hseg : Seg next rh seen rt_next) (hnodup : seen.Nodup) : Linked next (own ++ seen) rh rt seen := by
  have hlast := h.last.resolve_left hne
  obtain ⟨m, hm⟩ := List.getLast?_eq_some_iff.mp hlast
  refine ⟨⟨m, hm, ?_⟩, hnodup, fun c hc => List.mem_append_right _ hc⟩
  rw [hm, seg_concat] at hseg
  exact hseg.1

theorem Ring.linked (h : Ring next ch chain) (hown : ∀ c ∈ chain, c ∈ own) :
    Linked next own (next ch) ch chain := by
  obtain ⟨hseg, hlast, hnodup⟩ := h
  obtain ⟨m, hm⟩ := List.getLast?_eq_some_iff.mp hlast
  refine ⟨⟨m, hm, ?_⟩, hnodup, hown⟩
  rw [hm, seg_concat] at hseg
  exact hseg.1

end Knows

/-! ### The invariant -/

/-- The invariant: `body` are the chunks of each list. -/
structure Books (s : State nr_sizes) (body : Lst nr_sizes → List Chunk) : Prop where
  brk : nr_sizes < s.brk
  ring : ∀ list, Seg s.next (s.next list.head) (body list) list.head
  bound : ∀ list, ∀ c ∈ body list, nr_sizes < c ∧ c < s.brk
  apart : ∀ list list' c, c ∈ body list → c ∈ body list' → list = list'
  owned : ∀ t, ∀ c ∈ s.own t, (nr_sizes < c ∧ c < s.brk) ∧ ∀ list, c ∉ body list
  other : ∀ t u c, c ∈ s.own t → c ∈ s.own u → t = u
  all : ∀ c, nr_sizes < c → c < s.brk → (∃ list, c ∈ body list) ∨ ∃ t, c ∈ s.own t
  ok : ∀ t, Ok s.next (s.own t) (s.pc t)

section Books

variable {s : State nr_sizes} {body : Lst nr_sizes → List Chunk} {t : Tid} {pc : Pc nr_sizes}
  {list : Lst nr_sizes} {c d : Chunk} {seen rest chain : List Chunk}

theorem Books.head_notMem (h : Books s body) (list list' : Lst nr_sizes) :
    list.head ∉ body list' := fun hm =>
  absurd (h.bound list' _ hm).1 (Nat.not_lt.mpr list.head_le)

theorem Books.head_not_own (h : Books s body) (list : Lst nr_sizes) (t : Tid) :
    list.head ∉ s.own t := fun hm =>
  absurd (h.owned t _ hm).1.1 (Nat.not_lt.mpr list.head_le)

/-- **Every chunk is in one place.** -/
theorem Books.partitioned (h : Books s body) : Partitioned s := by
  have hon : ∀ list c, OnList s list c ↔ c ∈ body list := by
    intro list c
    constructor
    · rintro ⟨l, hl, hnot, hc⟩
      rw [hl.unique (h.ring list) hnot (h.head_notMem list list)] at hc
      exact hc
    · exact fun hc => ⟨body list, h.ring list, h.head_notMem list list, hc⟩
  intro c hlt hbrk
  rcases h.all c hlt hbrk with ⟨list, hc⟩ | ⟨t, hc⟩
  · refine ⟨.inl list, (hon list c).mpr hc, fun q hq => ?_⟩
    cases q with
    | inl list' => rw [h.apart list' list c ((hon list' c).mp hq) hc]
    | inr t => exact absurd hc ((h.owned t c hq).2 list)
  · refine ⟨.inr t, hc, fun q hq => ?_⟩
    cases q with
    | inl list => exact absurd ((hon list c).mp hq) ((h.owned t c hc).2 list)
    | inr u => rw [h.other u t c hq hc]

/-- A thread moves, and may have stored to a chunk it owns. -/
theorem Books.store (h : Books s body) (hc : c ∈ s.own t)
    (hok : Ok (Function.update s.next c d) (s.own t) pc) : Books ((s.store c d).goto t pc) body := by
  have hhead : ∀ list : Lst nr_sizes, list.head ≠ c := fun list he =>
    h.head_not_own list t (he ▸ hc)
  refine ⟨h.brk, fun list => ?_, h.bound, h.apart, h.owned, h.other, h.all, fun u => ?_⟩
  · simp only [State.store, State.goto, Function.update_of_ne (hhead list)]
    exact (h.ring list).update_of_notMem ((h.owned t c hc).2 list)
  · simp only [State.store, State.goto, Function.update_apply]
    split
    · next hu =>
      rw [hu]
      exact hok
    · next hu =>
      refine (h.ok u).congr fun x hx => Function.update_of_ne (fun he => ?_) _ _
      exact hu (h.other u t c (he ▸ hx) hc)

theorem Books.goto (h : Books s body) (hok : Ok s.next (s.own t) pc) : Books (s.goto t pc) body := by
  refine ⟨h.brk, h.ring, h.bound, h.apart, h.owned, h.other, h.all, fun u => ?_⟩
  simp only [State.goto, Function.update_apply]
  split
  · next hu =>
    rw [hu]
    exact hok
  · exact h.ok u

/-- A thread between its calls links chunks it owns. -/
theorem Books.link (h : Books s body) (hc : c ∈ s.own t) (hpc : s.pc t = .idle) :
    Books (s.store c d) body := by
  have hidle : Ok (Function.update s.next c d) (s.own t) (s.pc t) := by
    rw [hpc]
    trivial
  have hstore := h.store hc hidle
  simpa [State.goto, State.store] using hstore

/-- What the other threads know after a thread has changed what a list begins with. -/
theorem Books.ok_of_ne (h : Books s body) {u : Tid} (x : Chunk) :
    Ok (Function.update s.next list.head x) (s.own u) (s.pc u) :=
  (h.ok u).congr fun c hc => Function.update_of_ne
    (fun he => by rw [he] at hc; exact h.head_not_own list u hc) _ _

/-- **Chunks change hands** between a list and a thread: together they have the chunks they had. -/
theorem Books.move {l own : List Chunk} (h : Books s body) (hseg : Seg s.next d l list.head)
    (hmem : ∀ x, x ∈ l ∨ x ∈ own ↔ x ∈ body list ∨ x ∈ s.own t) (hdisj : ∀ x ∈ l, x ∉ own)
    (hok : Ok (Function.update s.next list.head d) own pc) :
    Books (((s.store list.head d).setOwn t own).goto t pc) (Function.update body list l) := by
  have hbody : ∀ list' x, x ∈ Function.update body list l list' →
      x ∈ body list' ∨ (list' = list ∧ x ∈ s.own t) := by
    intro list' x hm
    rw [Function.update_apply] at hm
    split at hm
    · next he =>
      rw [he]
      exact ((hmem x).mp (Or.inl hm)).imp_right fun hx => ⟨rfl, hx⟩
    · exact Or.inl hm
  have hown : ∀ u x, x ∈ Function.update s.own t own u → x ∈ s.own u ∨ (u = t ∧ x ∈ body list) := by
    intro u x hm
    rw [Function.update_apply] at hm
    split at hm
    · next he =>
      rw [he]
      exact ((hmem x).mp (Or.inr hm)).symm.imp_right fun hx => ⟨rfl, hx⟩
    · exact Or.inl hm
  have hbound : ∀ list' x, x ∈ Function.update body list l list' → nr_sizes < x ∧ x < s.brk := by
    intro list' x hm
    cases hbody list' x hm with
    | inl hx => exact h.bound list' x hx
    | inr hx => exact (h.owned t x hx.2).1
  have hapart : ∀ u x, x ∈ Function.update s.own t own u →
      ∀ list', x ∉ Function.update body list l list' := by
    intro u x hu list' hl
    have hnot : u = t → list' = list → False := by
      intro hut hll
      rw [hut, Function.update_self] at hu
      rw [hll, Function.update_self] at hl
      exact hdisj x hl hu
    cases hown u x hu with
    | inl hu' =>
      cases hbody list' x hl with
      | inl hl' => exact (h.owned u x hu').2 list' hl'
      | inr hl' => exact hnot (h.other u t x hu' hl'.2) hl'.1
    | inr hu' =>
      cases hbody list' x hl with
      | inl hl' => exact hnot hu'.1 (h.apart list' list x hl' hu'.2)
      | inr hl' => exact (h.owned t x hl'.2).2 list hu'.2
  refine ⟨h.brk, fun list' => ?_, hbound, fun l₁ l₂ x h₁ h₂ => ?_, fun u x hu => ⟨?_, hapart u x hu⟩,
    fun u v x hu hv => ?_, fun x hlt hbrk => ?_, fun u => ?_⟩
  · show Seg (Function.update s.next list.head d) (Function.update s.next list.head d list'.head) _ _
    by_cases he : list' = list
    · subst he
      rw [Function.update_self, Function.update_self]
      refine hseg.update_of_notMem fun hm => ?_
      have := (hbound list' list'.head (by rw [Function.update_self]; exact hm)).1
      exact absurd this (Nat.not_lt.mpr list'.head_le)
    · have hne : list'.head ≠ list.head := fun hh => he (Lst.head_inj hh)
      rw [Function.update_of_ne hne, Function.update_of_ne he]
      exact (h.ring list').update_of_notMem (h.head_notMem list list')
  · cases hbody l₁ x h₁ with
    | inl hx₁ =>
      cases hbody l₂ x h₂ with
      | inl hx₂ => exact h.apart l₁ l₂ x hx₁ hx₂
      | inr hx₂ => exact absurd hx₁ ((h.owned t x hx₂.2).2 l₁)
    | inr hx₁ =>
      cases hbody l₂ x h₂ with
      | inl hx₂ => exact absurd hx₂ ((h.owned t x hx₁.2).2 l₂)
      | inr hx₂ => rw [hx₁.1, hx₂.1]
  · cases hown u x hu with
    | inl hx => exact (h.owned u x hx).1
    | inr hx => exact h.bound list x hx.2
  · cases hown u x hu with
    | inl hxu =>
      cases hown v x hv with
      | inl hxv => exact h.other u v x hxu hxv
      | inr hxv => exact absurd hxv.2 ((h.owned u x hxu).2 list)
    | inr hxu =>
      cases hown v x hv with
      | inl hxv => exact absurd hxu.2 ((h.owned v x hxv).2 list)
      | inr hxv => rw [hxu.1, hxv.1]
  · show (∃ list', x ∈ Function.update body list l list') ∨ ∃ u, x ∈ Function.update s.own t own u
    have hnew : x ∈ body list ∨ x ∈ s.own t →
        (∃ list', x ∈ Function.update body list l list') ∨
          ∃ u, x ∈ Function.update s.own t own u := by
      intro hx
      cases (hmem x).mpr hx with
      | inl hm => exact Or.inl ⟨list, by rw [Function.update_self]; exact hm⟩
      | inr hm => exact Or.inr ⟨t, by rw [Function.update_self]; exact hm⟩
    rcases h.all x hlt hbrk with ⟨list', hm⟩ | ⟨u, hm⟩
    · by_cases he : list' = list
      · exact hnew (Or.inl (he ▸ hm))
      · exact Or.inl ⟨list', by rw [Function.update_of_ne he]; exact hm⟩
    · by_cases he : u = t
      · exact hnew (Or.inr (he ▸ hm))
      · exact Or.inr ⟨u, by rw [Function.update_of_ne he]; exact hm⟩
  · show Ok (Function.update s.next list.head d) (Function.update s.own t own u)
      (Function.update s.pc t pc u)
    by_cases hu : u = t
    · rw [hu, Function.update_self, Function.update_self]
      exact hok
    · rw [Function.update_of_ne hu, Function.update_of_ne hu]
      exact h.ok_of_ne d

/-- **A removal**: the chunks that were walked over stand first in the list. -/
theorem Books.take (list : Lst nr_sizes) (h : Books s body) (hseg : Seg s.next (s.next list.head) seen d)
    (hnot : list.head ∉ seen)
    (hok : seen.Nodup → Ok (Function.update s.next list.head d) (s.own t ++ seen) pc) :
    ∃ body', Books (((s.store list.head d).setOwn t (s.own t ++ seen)).goto t pc) body' := by
  obtain ⟨rest, hbody, hrest⟩ := (h.ring list).exists_append hseg hnot
  have hnodup := (h.ring list).nodup (h.head_notMem list list)
  rw [hbody, List.nodup_append] at hnodup
  refine ⟨_, h.move hrest (fun x => ?_) (fun x hx hm => ?_) (hok hnodup.1)⟩
  · rw [hbody, List.mem_append, List.mem_append]
    tauto
  · cases List.mem_append.mp hm with
    | inl ho => exact (h.owned t x ho).2 list (by rw [hbody]; exact List.mem_append_right _ hx)
    | inr hs => exact hnodup.2.2 x hs x hx rfl

/-- **An insertion**: the chain leads to the first chunk of the list. -/
theorem Books.give {first : Chunk} (h : Books s body) (hl : Linked s.next (s.own t) first c chain)
    (hc : s.next c = s.next list.head)
    (hok : ∀ own, Ok (Function.update s.next list.head first) own pc) :
    ∃ body', Books (((s.store list.head first).setOwn t ((s.own t).filter (· ∉ chain))).goto t pc)
      body' := by
  have hseg : Seg s.next first (chain ++ body list) list.head :=
    seg_append.mpr ⟨s.next c, hl.to_seg, hc ▸ h.ring list⟩
  refine ⟨_, h.move hseg (fun x => ?_) (fun x hx hm => ?_) (hok _)⟩
  · have := hl.owned x
    simp only [List.mem_append, List.mem_filter, decide_eq_true_eq]
    tauto
  · simp only [List.mem_append, List.mem_filter, decide_eq_true_eq] at hx hm
    cases hx with
    | inl hx => exact hm.2 hx
    | inr hx => exact (h.owned t x hm.1).2 list hx

/-- The chunks of `alloc_more_chunks` follow each other. -/
theorem alloc_more_chunks_next (s : State nr_sizes) (t : Tid) {j : ℕ}
    (hj : j + 1 < CHUNKS_PER_ALLOC) :
    (s.alloc_more_chunks t).next (s.brk + j) = s.brk + (j + 1) := by
  have hin : s.brk ≤ s.brk + j ∧ s.brk + j < s.brk + CHUNKS_PER_ALLOC :=
    ⟨Nat.le_add_right _ _, Nat.add_lt_add_left (Nat.lt_of_succ_lt hj) _⟩
  have hlast : s.brk + j + 1 ≠ s.brk + CHUNKS_PER_ALLOC := fun he =>
    Nat.ne_of_lt hj (Nat.add_left_cancel he)
  exact (if_pos hin).trans (if_neg hlast)

/-- The last chunk of `alloc_more_chunks` leads to the first. -/
theorem alloc_more_chunks_last (s : State nr_sizes) (t : Tid) {j : ℕ}
    (hj : j + 1 = CHUNKS_PER_ALLOC) : (s.alloc_more_chunks t).next (s.brk + j) = s.brk := by
  have hin : s.brk ≤ s.brk + j ∧ s.brk + j < s.brk + CHUNKS_PER_ALLOC :=
    ⟨Nat.le_add_right _ _, Nat.add_lt_add_left (hj ▸ Nat.lt_succ_self j) _⟩
  have hlast : s.brk + j + 1 = s.brk + CHUNKS_PER_ALLOC := congrArg (s.brk + ·) hj
  exact (if_pos hin).trans (if_pos hlast)

theorem seg_alloc_more_chunks (s : State nr_sizes) (t : Tid) {j n : ℕ}
    (hj : j + n + 1 = CHUNKS_PER_ALLOC) :
    Seg (s.alloc_more_chunks t).next (s.brk + j) (List.range' (s.brk + j) (n + 1)) s.brk := by
  induction n generalizing j with
  | zero => exact ⟨rfl, alloc_more_chunks_last s t hj⟩
  | succ n ih =>
    refine ⟨rfl, ?_⟩
    rw [alloc_more_chunks_next s t (by omega)]
    exact ih (by omega)

/-- **Fresh chunks** belong to the thread that asked for them. -/
theorem Books.more {k : Caller nr_sizes} {n : ℕ} (h : Books s body) (hn : 0 < n) :
    Books ((s.alloc_more_chunks t).goto t (.adNext (.get_empty_chunks k n) .free s.brk
      (List.range' (s.brk + 1) (CHUNKS_PER_ALLOC - 1) ++ [s.brk]))) body := by
  have hold : ∀ c, c < s.brk → (s.alloc_more_chunks t).next c = s.next c := fun c hc =>
    if_neg fun hb => absurd hb.1 (Nat.not_le.mpr hc)
  have hown : ∀ u c, c ∈ (s.alloc_more_chunks t).own u →
      c ∈ s.own u ∨ (u = t ∧ s.brk ≤ c ∧ c < s.brk + CHUNKS_PER_ALLOC) := by
    intro u c hc
    simp only [State.alloc_more_chunks, Function.update_apply] at hc
    split at hc
    · next he =>
      rw [List.mem_append, List.mem_range'_1] at hc
      rw [he]
      exact hc.imp_right fun hc => ⟨rfl, hc⟩
    · exact Or.inl hc
  have hsub : ∀ u c, c ∈ s.own u → c ∈ (s.alloc_more_chunks t).own u := by
    intro u c hc
    simp only [State.alloc_more_chunks, Function.update_apply]
    split
    · next he => exact List.mem_append_left _ (he ▸ hc)
    · exact hc
  have hbrk := h.brk
  refine ⟨Nat.lt_add_right _ h.brk, fun list => ?_, fun list c hc => ?_, h.apart,
    fun u c hc => ?_, fun u v c hu hv => ?_, fun c hlt hc => ?_, fun u => ?_⟩
  · show Seg (s.alloc_more_chunks t).next ((s.alloc_more_chunks t).next list.head) _ _
    rw [hold _ (Nat.lt_of_le_of_lt list.head_le h.brk)]
    exact (h.ring list).congr fun c hc => (hold c (h.bound list c hc).2).symm
  · exact (h.bound list c hc).imp_right fun hb => Nat.lt_add_right _ hb
  · cases hown u c hc with
    | inl ho =>
      exact ⟨(h.owned u c ho).1.imp_right fun hb => Nat.lt_add_right _ hb, (h.owned u c ho).2⟩
    | inr ho =>
      refine ⟨⟨Nat.lt_of_lt_of_le hbrk ho.2.1, ho.2.2⟩, fun list hl => ?_⟩
      exact absurd (h.bound list c hl).2 (Nat.not_lt.mpr ho.2.1)
  · cases hown u c hu with
    | inl hu' =>
      cases hown v c hv with
      | inl hv' => exact h.other u v c hu' hv'
      | inr hv' => exact absurd (h.owned u c hu').1.2 (Nat.not_lt.mpr hv'.2.1)
    | inr hu' =>
      cases hown v c hv with
      | inl hv' => exact absurd (h.owned v c hv').1.2 (Nat.not_lt.mpr hu'.2.1)
      | inr hv' => rw [hu'.1, hv'.1]
  · by_cases hb : c < s.brk
    · exact (h.all c hlt hb).imp_right fun ⟨u, hu⟩ => ⟨u, hsub u c hu⟩
    · refine Or.inr ⟨t, ?_⟩
      show c ∈ Function.update s.own t (s.own t ++ List.range' s.brk CHUNKS_PER_ALLOC) t
      rw [Function.update_self, List.mem_append, List.mem_range'_1]
      exact Or.inr ⟨Nat.not_lt.mp hb, hc⟩
  · show Ok (s.alloc_more_chunks t).next ((s.alloc_more_chunks t).own u) (Function.update s.pc t _ u)
    by_cases hu : u = t
    · subst hu
      rw [Function.update_self]
      have hfirst : (s.alloc_more_chunks u).next s.brk = s.brk + 1 :=
        alloc_more_chunks_next s u (j := 0) (by decide)
      refine ⟨hn, ⟨_, rfl, ?_⟩, ?_, fun c hc => ?_⟩
      · rw [hfirst]
        exact seg_alloc_more_chunks s u (j := 1) (n := 998) rfl
      · rw [List.nodup_append]
        refine ⟨List.nodup_range', List.nodup_singleton _, fun c hc d hd he => ?_⟩
        rw [he, List.mem_singleton.mp hd] at hc
        exact absurd (List.mem_range'_1.mp hc).1 (Nat.not_succ_le_self s.brk)
      · show c ∈ Function.update s.own u (s.own u ++ List.range' s.brk CHUNKS_PER_ALLOC) u
        rw [Function.update_self]
        refine List.mem_append_right _ (List.mem_range'_1.mpr ?_)
        cases List.mem_append.mp hc with
        | inl hc =>
          have hc := List.mem_range'_1.mp hc
          exact ⟨Nat.le_of_succ_le hc.1, hc.2⟩
        | inr hc =>
          rw [List.mem_singleton.mp hc]
          exact ⟨Nat.le_refl _, Nat.lt_add_of_pos_right (by decide)⟩
    · rw [Function.update_of_ne hu]
      have hsame : (s.alloc_more_chunks t).own u = s.own u := Function.update_of_ne hu _ _
      rw [hsame]
      exact (h.ok u).congr fun c hc => hold c (h.owned u c hc).1.2

end Books

/-! ### The steps -/

section Step

variable {s s' : State nr_sizes} {body : Lst nr_sizes → List Chunk} {t : Tid}

theorem Initial.books (h : Initial s) : ∃ body, Books s body := by
  choose body hring hbound using h.ring
  have hhead : ∀ list : Lst nr_sizes, list.head ∉ body list := fun list hm =>
    absurd (hbound list _ hm).1 (Nat.not_lt.mpr list.head_le)
  have hon : ∀ list c, c ∈ body list → Holds s c (.inl list) := fun list c hc =>
    ⟨body list, hring list, hhead list, hc⟩
  have hno : ∀ t c, c ∉ s.own t := fun t c => by
    rw [h.own t]
    exact List.not_mem_nil
  refine ⟨body, h.brk, hring, hbound, fun l l' c hc hc' => ?_, fun t c hc => absurd hc (hno t c),
    fun t u c hc => absurd hc (hno t c), fun c hlt hb => ?_, fun t => ?_⟩
  · have hbc := hbound l c hc
    have := (h.partitioned c hbc.1 hbc.2).unique (hon l c hc) (hon l' c hc')
    exact Sum.inl.inj this
  · obtain ⟨q, hq, -⟩ := h.partitioned c hlt hb
    cases q with
    | inl list =>
      obtain ⟨l, hl, hnot, hc⟩ := hq
      rw [hl.unique (hring list) hnot (hhead list)] at hc
      exact Or.inl ⟨list, hc⟩
    | inr t => exact absurd hq (hno t c)
  · rw [h.idle t]
    trivial

/-- **The step lemma**, for the accesses of the program: one case for each program counter. -/
theorem Books.run {sz : ℕ} (h : Books s body) (hcur : Current s (s.pc t))
    (hstep : Chunks.run s t sz = some s') : ∃ body', Books s' body' := by
  have hok := h.ok t
  rw [Chunks.run] at hstep
  cases hpc : s.pc t with
  | idle =>
    rw [hpc] at hstep
    cases hstep
  | adNext k list ch chain =>
    rw [hpc] at hstep hok
    cases hstep
    exact ⟨body, h.goto hok⟩
  | adHead k list ch ch_next chain =>
    rw [hpc] at hstep hok
    cases hstep
    exact ⟨body, h.goto hok⟩
  | adLink k list ch ch_next w chain =>
    rw [hpc] at hstep hok
    cases hstep
    exact ⟨body, h.store hok.2.mem ⟨hok.1, hok.2.store, Function.update_self _ _ _⟩⟩
  | adCas k list ch ch_next h_next chain =>
    rw [hpc] at hstep hok
    dsimp only at hstep
    split at hstep
    · next hhead =>
      cases hstep
      exact h.give hok.2.1 (hok.2.2.trans hhead.symm) fun own => Ok.added hok.1
    · cases hstep
      exact ⟨body, h.goto ⟨hok.1, hok.2.1⟩⟩
  | emHead k n =>
    rw [hpc] at hstep hok
    cases hstep
    exact ⟨body, h.goto (Ok.walk (.start hok))⟩
  | emWalk k n rh rt seen =>
    rw [hpc] at hstep hok
    dsimp only at hstep
    split at hstep
    · cases hstep
      exact ⟨body, h.goto (Walked.pos hok)⟩
    · next hne =>
      cases hstep
      exact ⟨body, h.goto (Ok.walk (Walked.step hok hne))⟩
  | emMore k n =>
    rw [hpc] at hstep hok
    cases hstep
    exact ⟨body, h.more hok⟩
  | emNext k n rh rt seen =>
    rw [hpc] at hstep hok
    cases hstep
    exact ⟨body, h.goto hok⟩
  | emCas k n rh rt rt_next seen =>
    rw [hpc] at hstep hok hcur
    dsimp only at hstep
    split at hstep
    · next hhead =>
      cases hstep
      have hseg : Seg (Function.update s.next free_chunks rt_next) rh seen rt_next :=
        (hcur hhead).update_of_notMem hok.1.notMem
      refine h.take .free (hhead ▸ hcur hhead) hok.1.notMem fun hnodup => ?_
      exact hok.1.linked hok.2 hseg hnodup
    · cases hstep
      exact ⟨body, h.goto (Ok.walk (.start hok.1.pos))⟩
  | emClose k rh rt seen =>
    rw [hpc] at hstep hok
    cases hstep
    have hlinked : Linked (Function.update s.next rt rh) (s.own t) rh rt seen :=
      Linked.store hok
    refine ⟨body, h.store (Linked.mem hok) ?_⟩
    cases k with
    | client => trivial
    | get_filled_chunks i => exact ⟨trivial, hlinked.rotate (Function.update_self _ _ _)⟩
  | alHead i =>
    rw [hpc] at hstep
    cases hstep
    exact ⟨body, h.goto Ok.found⟩
  | alFill i =>
    rw [hpc] at hstep
    dsimp only at hstep
    split at hstep
    · next hsz =>
      cases hstep
      exact ⟨body, h.goto hsz⟩
    · cases hstep
  | alNext i p =>
    rw [hpc] at hstep hok
    cases hstep
    exact ⟨body, h.goto hok⟩
  | alCas i p p_next =>
    rw [hpc] at hstep hok hcur
    dsimp only at hstep
    split at hstep
    · next hhead =>
      cases hstep
      refine h.take (.alloc i) (And.intro hhead (hcur hhead)) ?_ fun _ => ?_
      · exact fun hm => hok (List.mem_singleton.mp hm).symm
      · exact List.mem_append_right _ List.mem_cons_self
    · cases hstep
      exact ⟨body, h.goto Ok.found⟩
  | alClose i p =>
    rw [hpc] at hstep hok
    cases hstep
    exact ⟨body, h.store hok trivial⟩

/-- A step of a thread. -/
theorem Books.step {m : Move nr_sizes} (h : Books s body) (hcur : Current s (s.pc t))
    (hstep : next s t m = some s') : ∃ body', Books s' body' := by
  cases m with
  | get_empty_chunks n =>
    rw [next] at hstep
    split at hstep
    · next hn =>
      cases hstep
      exact ⟨body, h.goto hn.2⟩
    · cases hstep
  | get_alloc_chunk i =>
    rw [next] at hstep
    split at hstep
    · cases hstep
      exact ⟨body, h.goto trivial⟩
    · cases hstep
  | add_chunks_to_list list ch chain =>
    rw [next] at hstep
    split at hstep
    · next hring =>
      cases hstep
      exact ⟨body, h.goto ⟨trivial, hring.2.1.linked hring.2.2⟩⟩
    · cases hstep
  | link c d =>
    rw [next] at hstep
    split at hstep
    · next hlink =>
      cases hstep
      exact ⟨body, h.link hlink.2.1 hlink.1⟩
    · cases hstep
  | run sz => exact h.run hcur hstep

end Step

/-! ### Schedules of moves -/

/-- The step that a schedule asks for. -/
def scheduled (s : State nr_sizes) (a : Tid × Move nr_sizes) :
    Option (Tid × Move nr_sizes × State nr_sizes) := (next s a.1 a.2).map fun s' => (a.1, a.2, s')

theorem scheduled_step (s : State nr_sizes) (a : Tid × Move nr_sizes) (t : Tid) (m : Move nr_sizes)
    (s' : State nr_sizes) (h : scheduled s a = some (t, m, s')) :
    (chunkLists nr_sizes).step s t m s' := by
  obtain ⟨s₁, hs, he⟩ := Option.map_eq_some_iff.mp h
  cases he
  exact hs

/-- The lists as `gc_init` finds them when there is one block size: of the first thousand chunks, ten are
on the list of that size. -/
def initialState : State 1 where
  next c := if c = 0 then 11 else if c = 10 then 1 else if c = 999 then 0 else c + 1
  brk := CHUNKS_PER_ALLOC
  own _ := []
  pc _ := .idle

/-- The chunks of each list. -/
def initialBody : Lst 1 → List Chunk
  | .free => List.range' 11 989
  | .alloc _ => List.range' 2 9

theorem initialState_seg (list : Lst 1) :
    Seg initialState.next (initialState.next list.head) (initialBody list) list.head := by
  cases list with
  | free => decide +kernel
  | alloc i =>
    obtain rfl : i = 0 := Subsingleton.elim _ _
    decide +kernel

theorem initialState_initial : Initial initialState := by
  have hbound : ∀ list, ∀ c ∈ initialBody list, 1 < c ∧ c < CHUNKS_PER_ALLOC := by
    intro list c hc
    cases list with
    | free =>
      have hr := List.mem_range'_1.mp hc
      exact ⟨Nat.lt_of_lt_of_le (by decide) hr.1, hr.2⟩
    | alloc i =>
      have hr := List.mem_range'_1.mp hc
      exact ⟨hr.1, Nat.lt_trans hr.2 (by decide)⟩
  have hhead : ∀ list : Lst 1, list.head ∉ initialBody list := fun list hm =>
    absurd (hbound list _ hm).1 (Nat.not_lt.mpr list.head_le)
  have hon : ∀ list c, OnList initialState list c ↔ c ∈ initialBody list := by
    intro list c
    constructor
    · intro ⟨l, hl, hnot, hc⟩
      rw [hl.unique (initialState_seg list) hnot (hhead list)] at hc
      exact hc
    · exact fun hc => ⟨_, initialState_seg list, hhead list, hc⟩
  refine ⟨by decide, fun list => ⟨_, initialState_seg list, hbound list⟩, fun c hlt hc => ?_,
    fun _ => rfl, fun _ => rfl⟩
  by_cases h : c ≤ 10
  · have hm : c ∈ initialBody (.alloc 0) := List.mem_range'_1.mpr ⟨hlt, Nat.lt_succ_of_le h⟩
    refine ⟨.inl (.alloc 0), (hon _ c).mpr hm, fun q hq => ?_⟩
    cases q with
    | inr t => cases hq
    | inl list =>
      cases list with
      | free =>
        have hr := List.mem_range'_1.mp ((hon _ c).mp hq)
        exact absurd hr.1 (Nat.not_le.mpr (Nat.lt_succ_of_le h))
      | alloc i => rw [Subsingleton.elim i 0]
  · have hm : c ∈ initialBody .free := List.mem_range'_1.mpr ⟨Nat.not_le.mp h, hc⟩
    refine ⟨.inl .free, (hon _ c).mpr hm, fun q hq => ?_⟩
    cases q with
    | inr t => cases hq
    | inl list =>
      cases list with
      | free => rfl
      | alloc i =>
        have hr := List.mem_range'_1.mp ((hon _ c).mp hq)
        exact absurd (Nat.le_of_lt_succ hr.2) h

/-- `get_empty_chunks(100)` without interruption. -/
def taking (t : Tid) : List (Tid × Move 1) :=
  (t, .get_empty_chunks 100) :: List.replicate 104 (t, .run 0)

/-- A thread has walked over the first hundred chunks; another takes these and the next hundred, and puts
the first hundred back; the compare-and-swap of the first thread succeeds. -/
def recycling : List (Tid × Move 1) :=
  (0, .get_empty_chunks 100) :: List.replicate 102 (0, .run 0) ++ taking 1 ++ taking 1 ++
    (1, .add_chunks_to_list .free 110 (List.range' 11 100)) :: List.replicate 4 (1, .run 0) ++
    List.replicate 2 (0, .run 0) ++ taking 2

/-- Carrying out a schedule from the initial lists. -/
theorem run_of_schedule {as : List (Tid × Move 1)}
    {p : List (Entry (State 1) Tid (Move 1)) × State 1 → Bool}
    (h : (execute scheduled as ([], initialState)).any p = true) :
    ∃ tr s, Run (chunkLists 1) tr s ∧ p (tr, s) = true := by
  cases hr : execute scheduled as ([], initialState) with
  | none =>
    rw [hr] at h
    cases h
  | some r =>
    rw [hr] at h
    exact ⟨r.1, r.2, Run.execute scheduled_step (.start initialState_initial) hr, h⟩

/-! ### The result -/

/-- **A chunk has one owner while all removals are current**: if each compare-and-swap that takes chunks
off a list finds there the chunks it was computed from, in front of the one it puts first, every chunk of
every state reached is on exactly one list or owned by exactly one thread. -/
theorem partitioned_of_current {tr : List (Entry (State nr_sizes) Tid (Move nr_sizes))}
    {s : State nr_sizes} (hrun : Run (chunkLists nr_sizes) tr s)
    (hcur : ∀ x ∈ tr, Current x.pre (x.pre.pc x.who)) : Partitioned s := by
  have hbooks : ∃ body, Books s body := by
    refine hrun.invariant_of (I := fun s => ∃ body, Books s body)
      (C := fun x => Current x.pre (x.pre.pc x.who)) (fun s h => Initial.books h) ?_ hcur
    intro s t m s' ⟨body, hb⟩ hstep hc
    exact hb.step hc hstep
  obtain ⟨body, hb⟩ := hbooks
  exact hb.partitioned

theorem partitioned_of_current_taking :
    ∃ tr s, Run (chunkLists 1) tr s ∧ 110 ∈ s.own 0 ∧ Partitioned s := by
  have h : (execute scheduled (taking 0) ([], initialState)).any (fun r =>
      decide (110 ∈ r.2.own 0 ∧ ∀ x ∈ r.1, Current x.pre (x.pre.pc x.who))) = true := by
    decide +kernel
  obtain ⟨tr, s, hrun, hp⟩ := run_of_schedule h
  obtain ⟨hown, hcur⟩ := of_decide_eq_true hp
  exact ⟨tr, s, hrun, hown, partitioned_of_current hrun hcur⟩

/-- **A chunk with two owners**: the chunk behind the recycled ones is put back first on the list while the
thread that took it still has it, and a third thread takes it once more. -/
theorem exists_not_partitioned :
    ∃ tr s, Run (chunkLists 1) tr s ∧ (111 ∈ s.own 1 ∧ 111 ∈ s.own 2) ∧ ¬Partitioned s := by
  have h : (execute scheduled recycling ([], initialState)).any (fun r =>
      decide ((111 ∈ r.2.own 1 ∧ 111 ∈ r.2.own 2) ∧ 111 < r.2.brk)) = true := by
    decide +kernel
  obtain ⟨tr, s, hrun, hp⟩ := run_of_schedule h
  obtain ⟨⟨h₁, h₂⟩, hbrk⟩ := of_decide_eq_true hp
  refine ⟨tr, s, hrun, ⟨h₁, h₂⟩, fun hpart => ?_⟩
  have hone : Holds s 111 (.inr 1) := h₁
  have htwo : Holds s 111 (.inr 2) := h₂
  cases (hpart 111 (by decide) hbrk).unique hone htwo

end ConcurrentPQ.Chunks

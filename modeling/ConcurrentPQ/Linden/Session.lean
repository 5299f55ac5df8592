import ConcurrentPQ.Linden.Prefix
import ConcurrentPQ.Linden.SeqDelete
import ConcurrentPQ.Linden.SeqInsert
import Mathlib.Data.Finset.Basic
import Mathlib.Order.Bounds.Basic

/-!
# The calls of a single thread

A thread that has the Linden queue to itself calls `insert` and `deletemin` again and again, and a
lawful collector hands out and takes back the nodes.

* `Made` — the memory of a new queue;
* `History`, `pending` — the calls completed, and the keys inserted and not yet returned;
* `Tidy.deletedPrefix`, `DeletedPrefix.mem_liveKeys` — the deleted nodes, and the live keys;
* `Ends` — what a call returns and does, as a priority queue on sets of keys;
* `Resting`, `Resting.insert`, `Resting.deletemin` — **every call ends**, as it should;
* `History.resting` — what holds between the calls.
-/

namespace ConcurrentPQ.Linden

open ConcurrentPQ.Segment Relation

/-- The memory of a new queue: `pq_init` writes all fields of the sentinels except `v` and the `next`
words of the tail. -/
structure Made (m : Mem) : Prop where
  head_k : (m head).k = SENTINEL_KEYMIN
  tail_k : (m tail).k = pkey SENTINEL_KEYMAX
  head_level : (m head).level = NUM_LEVELS
  tail_level : (m tail).level = NUM_LEVELS
  head_inserting : (m head).inserting = false
  tail_inserting : (m tail).inserting = false
  head_next : ∀ i, i < NUM_LEVELS → (m head).next i = ref tail

/-- The calls the only thread has completed since the queue was made, the latest first, with the
values returned. -/
inductive History {α : Type} (C : Collector α) (max_offset : ℤ) (allowed : Op → Prop) (s₀ : Store α) :
    List (Op × Option ℕ) → Store α → Prop
  | nil : History C max_offset allowed s₀ [] s₀
  | call {l : List (Op × Option ℕ)} {s s' : Store α} {op : Op} {r : Option ℕ} :
      History C max_offset allowed s₀ l s → allowed op →
      ReflTransGen (Next C max_offset) (enter C s op) ⟨s', .ret r⟩ →
      History C max_offset allowed s₀ ((op, r) :: l) (leave C s')

/-- The keys inserted and not returned since. -/
def pending : List (Op × Option ℕ) → Finset ℕ
  | [] => ∅
  | (.insert v _, _) :: l => insert v (pending l)
  | (.delete_min, some k) :: l => (pending l).erase k
  | (.delete_min, none) :: l => pending l

/-! ### The level-0 chain -/

section Chain

variable {m : Mem} {h : NodeId → ℕ} {G : Ghost} {D V : List NodeId} {b : NodeId}
  {published : NodeId → Prop}

/-- A tidy queue is a deleted prefix and a sorted rest. -/
theorem Tidy.deletedPrefix (ht : Tidy m h G) :
    DeletedPrefix m (fun _ => False) G.dead G.bound G.live := by
  have hchain := ht.tower 0 (by decide)
  rw [ht.onLevel_zero (List.Subset.refl _)] at hchain
  refine ⟨hchain, ht.nodup, ht.dead_mark, fun n hn => ?_, ?_, fun n hn => hn.elim⟩
  · rcases List.mem_cons.mp hn with rfl | hn
    · exact ht.bound_mark
    · exact ht.live_mark n hn
  · rw [List.pairwise_append]
    refine ⟨ht.sorted, List.pairwise_singleton _ _, fun x hx y hy => ?_⟩
    rw [List.mem_singleton.mp hy, ht.tail_k]
    exact (ht.data x (ht.live_mem hx)).2.2.1

/-- The live keys are those behind the deleted prefix. -/
theorem DeletedPrefix.mem_liveKeys (hp : DeletedPrefix m published D b V) {k : ℕ} :
    k ∈ liveKeys m ↔ ∃ n ∈ V, (m n).k = k := by
  have hV : Seg (succ0 m) (succ0 m b) V tail := (seg_append_cons.mp hp.chain).2
  have htail : tail ∉ D ++ b :: V := fun ht =>
    (List.nodup_append.mp hp.nodup).2.2 tail ht tail List.mem_cons_self rfl
  constructor
  · rintro ⟨p, hpc, hmark, hne, hk⟩
    refine ⟨_, ?_, hk⟩
    rcases List.mem_append.mp (hp.onChain_iff.mp hpc) with hD | hbV
    · exact absurd ((hp.marked p hD).symm.trans hmark) (by decide)
    · have hseg : Seg (succ0 m) b (b :: V) tail := ⟨rfl, hV⟩
      rcases List.mem_cons.mp hbV with rfl | hpV
      · cases V with
        | nil => exact absurd hV hne
        | cons x V => exact hV.1 ▸ List.mem_cons_self
      · exact (hV.next_mem hpV).resolve_right hne
  · rintro ⟨n, hn, hk⟩
    -- the predecessor of `n` carries no mark
    obtain ⟨V₁, V₂, rfl⟩ := List.append_of_mem hn
    obtain ⟨p, hpn, hpbV⟩ : ∃ p, succ0 m p = n ∧ p ∈ b :: (V₁ ++ n :: V₂) := by
      have hpre := (seg_append_cons.mp hV).1
      rcases List.eq_nil_or_concat V₁ with rfl | ⟨l, p, rfl⟩
      · exact ⟨b, hpre, List.mem_cons_self⟩
      · rw [List.concat_eq_append, seg_concat] at hpre
        exact ⟨p, hpre.2, by simp⟩
    refine ⟨p, hp.onChain_iff.mpr (List.mem_append_right _ hpbV), hp.unmarked p hpbV, ?_,
      by rw [hpn, hk]⟩
    rw [hpn]
    rintro rfl
    exact htail (by simp)

end Chain

/-! ### The calls -/

/-- What a call does to the set `L` of keys in the queue, and what it returns. -/
def Ends (L : Set ℕ) : Op → Option ℕ → Set ℕ → Prop
  | .insert v _, none, L' => L' = insert v L
  | .delete_min, some r, L' => (IsLeast L r ∧ L' = L \ {r}) ∨ (L = ∅ ∧ r = 0 ∧ L' = ∅)
  | _, _, _ => False

/-- The queue between two calls (`b = false`), or where a call has ended but for `critical_exit`: it is
tidy, the deleted nodes are few, and `L` are the live keys. -/
structure Resting {α : Type} (I : Bool → α → List (NodeId × ℕ) → Prop) (max_offset : ℤ) (b : Bool)
    (s : Store α) (G : Ghost) (L : Set ℕ) : Prop where
  consistent : ∃ h, Consistent I b s h G
  dead : (G.dead.length : ℤ) ≤ max 1 max_offset
  keys : liveKeys s.mem = L

section Calls

variable {α : Type} {C : Collector α} {I : Bool → α → List (NodeId × ℕ) → Prop} {max_offset : ℤ}
  {s s₀ s' : Store α} {G : Ghost} {L : Set ℕ} {v lvl : ℕ} {h : NodeId → ℕ} {m : Mem} {k : ℕ}
  {l : List (Op × Option ℕ)}

theorem Tidy.mem_liveKeys (ht : Tidy m h G) : k ∈ liveKeys m ↔ ∃ n ∈ G.live, (m n).k = k :=
  ht.deletedPrefix.mem_liveKeys

/-- The live keys do not change if the keys of the live nodes do not. -/
theorem Tidy.liveKeys_eq {h' : NodeId → ℕ} {m' : Mem} {G' : Ghost} (ht : Tidy m h G)
    (ht' : Tidy m' h' G') (hlive : G'.live = G.live) (hk : ∀ n ∈ G.live, (m' n).k = (m n).k) :
    liveKeys m' = liveKeys m := by
  ext k
  rw [ht.mem_liveKeys, ht'.mem_liveKeys, hlive]
  constructor
  · rintro ⟨n, hn, he⟩
    exact ⟨n, hn, (hk n hn).symm.trans he⟩
  · rintro ⟨n, hn, he⟩
    exact ⟨n, hn, (hk n hn).trans he⟩

/-- A new live node adds its key. -/
theorem Tidy.liveKeys_with {h' : NodeId → ℕ} {m' : Mem} {A R : List NodeId} {n : NodeId}
    (ht : Tidy m h G) (hlive : G.live = A ++ R) (ht' : Tidy m' h' (G.with A n R))
    (hk : ∀ x ∈ G.all, (m' x).k = (m x).k) (hn : (m' n).k = v) :
    liveKeys m' = insert v (liveKeys m) := by
  have hall : ∀ x ∈ G.live, (m' x).k = (m x).k := fun x hx =>
    hk x (G.order_mem_all (Stacked.live_mem_order hx))
  ext k
  rw [Set.mem_insert_iff, ht.mem_liveKeys, ht'.mem_liveKeys]
  constructor
  · rintro ⟨x, hx, rfl⟩
    rw [Ghost.with, List.mem_append, List.mem_cons] at hx
    rcases hx with hx | rfl | hx
    · have hx' : x ∈ G.live := hlive ▸ List.mem_append_left _ hx
      exact Or.inr ⟨x, hx', (hall x hx').symm⟩
    · exact Or.inl hn
    · have hx' : x ∈ G.live := hlive ▸ List.mem_append_right _ hx
      exact Or.inr ⟨x, hx', (hall x hx').symm⟩
  · rintro (rfl | ⟨x, hx, rfl⟩)
    · exact ⟨n, List.mem_append_right _ List.mem_cons_self, hn⟩
    · refine ⟨x, ?_, hall x hx⟩
      rw [hlive] at hx
      rw [Ghost.with]
      rcases List.mem_append.mp hx with hx | hx
      · exact List.mem_append_left _ hx
      · exact List.mem_append_right _ (List.mem_cons_of_mem _ hx)

/-- The first live node has the least key, and takes it along. -/
theorem Tidy.liveKeys_tail {h' : NodeId → ℕ} {m' : Mem} {G' : Ghost} {x : NodeId} {A : List NodeId}
    (ht : Tidy m h G) (hlive : G.live = x :: A) (ht' : Tidy m' h' G') (hlive' : G'.live = A)
    (hk : ∀ n, (m' n).k = (m n).k) :
    IsLeast (liveKeys m) (m x).k ∧ liveKeys m' = liveKeys m \ {(m x).k} := by
  have hsorted := ht.sorted
  rw [hlive, List.pairwise_cons] at hsorted
  refine ⟨⟨ht.mem_liveKeys.mpr ⟨x, hlive ▸ List.mem_cons_self, rfl⟩, fun k hk' => ?_⟩, ?_⟩
  · obtain ⟨n, hn, rfl⟩ := ht.mem_liveKeys.mp hk'
    rw [hlive] at hn
    rcases List.mem_cons.mp hn with rfl | hn
    · exact le_rfl
    · exact (hsorted.1 n hn).le
  · ext k
    rw [Set.mem_sdiff, Set.mem_singleton_iff, ht.mem_liveKeys, ht'.mem_liveKeys, hlive, hlive']
    constructor
    · rintro ⟨n, hn, rfl⟩
      rw [hk n]
      exact ⟨⟨n, List.mem_cons_of_mem _ hn, rfl⟩, (hsorted.1 n hn).ne'⟩
    · rintro ⟨⟨n, hn, rfl⟩, hne⟩
      rcases List.mem_cons.mp hn with rfl | hn
      · exact absurd rfl hne
      · exact ⟨n, hn, hk n⟩

/-- A new queue is at rest. -/
theorem Made.resting (hm : Made m) {a : α} (ha : I false a []) :
    Resting I max_offset false ⟨m, [], a⟩ ⟨[], head, []⟩ ∅ := by
  have ht : Tidy m (fun _ => NUM_LEVELS) ⟨[], head, []⟩ := by
    refine ⟨⟨rfl, by decide, fun i hi => ?_, rfl, fun n hn => ?_, fun n hn i hle hlt => ?_,
      fun n hn i _ hi => ?_, fun n hn => absurd hn List.not_mem_nil, ?_,
      fun n hn => absurd hn List.not_mem_nil, List.Pairwise.nil,
      fun n hn => absurd hn List.not_mem_nil, hm.tail_k⟩, fun n _ => by decide⟩
    · have hlevel : onLevel (fun _ => NUM_LEVELS) i [head] = [head] := onLevel_cons_of_lt hi
      change Seg (nxt m i) head (onLevel (fun _ => NUM_LEVELS) i [head]) tail
      rw [hlevel]
      exact ⟨rfl, congrArg Ref.ptr (hm.head_next i hi)⟩
    · obtain rfl : n = head := List.mem_singleton.mp hn
      rw [hm.head_level]
      exact ⟨le_rfl, le_rfl⟩
    · obtain rfl : n = head := List.mem_singleton.mp hn
      rw [hm.head_level] at hlt
      exact absurd hlt (not_lt.mpr hle)
    · obtain rfl : n = head := List.mem_singleton.mp hn
      rw [hm.head_next i hi]
    · change ((m head).next 0).mark = false
      rw [hm.head_next 0 (by decide)]
  refine ⟨⟨_, ht, List.Perm.nil, ha, fun n hn => ?_⟩, le_max_of_le_left (by simp), ?_⟩
  · obtain rfl : n = head := List.mem_singleton.mp hn
    exact hm.head_inserting
  · rw [Set.eq_empty_iff_forall_notMem]
    intro k hk
    obtain ⟨n, hn, -⟩ := ht.mem_liveKeys.mp hk
    exact absurd hn List.not_mem_nil

theorem Resting.leave (hC : Lawful C I) (hr : Resting I max_offset true s G L) :
    Resting I max_offset false (leave C s) G L := by
  obtain ⟨⟨h, hc⟩, hd, hk⟩ := hr
  exact ⟨⟨h, hc.tidy, hc.uses, hC.exit _ _ hc.lawful, hc.quiet⟩, hd, hk⟩

/-- `critical_enter`. -/
theorem Consistent.enter (hC : Lawful C I) (hc : Consistent I false s h G) :
    Consistent I true { s with col := C.enter s.col } h G :=
  ⟨hc.tidy, hc.uses, hC.enter _ _ hc.lawful, hc.quiet⟩

/-- **`insert` ends**, and adds its key if that is below the key of the tail. -/
theorem Resting.insert (hC : Lawful C I) (hr : Resting I max_offset false s G L)
    (htail : ((s.mem tail).next 0).mark = false)
    (hv : SENTINEL_KEYMIN < v ∧ v ≤ pkey SENTINEL_KEYMAX) (hl : 1 ≤ lvl ∧ lvl ≤ NUM_LEVELS) :
    Eventually (Next C max_offset) (fun c => c.pc = .ret none ∧ c.st.mem tail = s.mem tail ∧
      ∃ G', Resting I max_offset true c.st G' (if v < pkey SENTINEL_KEYMAX then insert v L else L))
      (enter C s (.insert v lvl)) := by
  obtain ⟨⟨h, hc⟩, hd, hk⟩ := hr
  refine (hc.enter hC).insert hC htail hv hl (fun hdup s' hc' hm => ?_)
    fun hlt _ s' h' A n R hlive _ hc' hm hn ht => ?_
  · refine .now ⟨rfl, hm tail (G.mem_all.mpr (Or.inr rfl)), G, ⟨h, hc'⟩, hd, ?_⟩
    have hkeys : liveKeys s'.mem = L := by
      rw [hc.tidy.liveKeys_eq hc'.tidy rfl fun n hn => ?_, hk]
      exact congrArg Node.k (hm n (G.order_mem_all (Stacked.live_mem_order hn)))
    rw [hkeys]
    split
    · rename_i hlt
      obtain ⟨x, hx, hxk⟩ := hdup.resolve_left hlt.ne
      rw [Set.insert_eq_of_mem]
      rw [← hk, hc.tidy.mem_liveKeys]
      exact ⟨x, hx, hxk⟩
    · rfl
  · refine .now ⟨rfl, ht, G.with A n R, ⟨h', hc'⟩, hd, ?_⟩
    rw [if_pos hlt, ← hk]
    exact hc.tidy.liveKeys_with hlive hc'.tidy hm hn

/-- **`deletemin` ends**; the live nodes lose the first one. -/
theorem Resting.deletemin (hC : Lawful C I) (hr : Resting I max_offset false s G L)
    (htail : ((s.mem tail).next 0).mark = false) :
    Eventually (Next C max_offset) (fun c => c.st.mem tail = s.mem tail ∧ ∃ k G' L',
      c.pc = .ret (some k) ∧ Ends L .delete_min (some k) L' ∧ Resting I max_offset true c.st G' L' ∧
        G'.live = G.live.tail) (enter C s .delete_min) := by
  obtain ⟨⟨h, hc⟩, hd, rfl⟩ := hr
  refine (hc.enter hC).deletemin hC htail (fun hlive => .now ?_)
    (fun x A s' hlive hlen hc' hk ht => .now ?_) fun x A s' hlive hc' hk ht => .now ?_
  · have hempty : liveKeys s.mem = ∅ := by
      rw [Set.eq_empty_iff_forall_notMem]
      intro k hk
      obtain ⟨n, hn, -⟩ := hc.tidy.mem_liveKeys.mp hk
      rw [hlive] at hn
      exact absurd hn List.not_mem_nil
    refine ⟨rfl, 0, G, ∅, rfl, Or.inr ⟨hempty, rfl, rfl⟩, ⟨⟨h, hc.enter hC⟩, hd, hempty⟩, ?_⟩
    rw [hlive]
    rfl
  · obtain ⟨hleast, hkeys⟩ := hc.tidy.liveKeys_tail hlive hc'.tidy rfl hk
    refine ⟨ht, _, _, _, rfl, Or.inl ⟨hleast, rfl⟩, ⟨⟨h, hc'⟩, ?_, hkeys⟩, by rw [hlive]; rfl⟩
    rw [Ghost.deleted, List.length_append, List.length_singleton]
    rcases hlen with hlen | hnil
    · exact le_max_of_le_right hlen
    · exact le_max_of_le_left (by rw [hnil]; decide)
  · obtain ⟨hleast, hkeys⟩ := hc.tidy.liveKeys_tail hlive hc'.tidy rfl hk
    exact ⟨ht, _, _, _, rfl, Or.inl ⟨hleast, rfl⟩,
      ⟨⟨h, hc'⟩, le_max_of_le_left (by simp), hkeys⟩, by rw [hlive]; rfl⟩

/-- A call of a client ends as it should. -/
theorem Resting.call (hC : Lawful C I) (hr : Resting I max_offset false s G L)
    (htail : ((s.mem tail).next 0).mark = false) {op : Op} (ho : Admissible op) :
    Eventually (Next C max_offset) (fun c => c.st.mem tail = s.mem tail ∧ ∃ r G' L',
      c.pc = .ret r ∧ Ends L op r L' ∧ Resting I max_offset true c.st G' L') (enter C s op) := by
  cases op with
  | insert v lvl =>
    obtain ⟨hpos, hlt, hl⟩ := ho
    refine (hr.insert hC htail ⟨hpos, hlt.le⟩ hl).mono fun c ⟨hpc, ht, G', hr'⟩ => ?_
    rw [if_pos hlt] at hr'
    exact ⟨ht, none, G', _, hpc, rfl, hr'⟩
  | delete_min =>
    refine (hr.deletemin hC htail).mono fun c ⟨ht, k, G', L', hpc, hL, hr', _⟩ => ?_
    exact ⟨ht, some k, G', L', hpc, hL, hr'⟩

/-- The keys of the queue are those the calls before account for. -/
theorem Ends.pending {op : Op} {r : Option ℕ} {L' : Set ℕ} (he : Ends (pending l) op r L') :
    L' = Linden.pending ((op, r) :: l) := by
  cases op with
  | insert v lvl =>
    cases r with
    | none => rw [Linden.pending, Finset.coe_insert]; exact he
    | some r => exact he.elim
  | delete_min =>
    cases r with
    | none => exact he.elim
    | some r =>
      rw [Linden.pending, Finset.coe_erase]
      rcases he with ⟨-, rfl⟩ | ⟨hempty, rfl, rfl⟩
      · rfl
      · rw [hempty, Set.empty_sdiff]

/-- **Between the calls of a client** the queue is at rest, with the keys inserted and not returned. -/
theorem History.resting (hC : Lawful C I) (hs₀ : Resting I max_offset false s₀ G ∅)
    (htail : ((s₀.mem tail).next 0).mark = false) (hh : History C max_offset Admissible s₀ l s) :
    s.mem tail = s₀.mem tail ∧ ∃ G', Resting I max_offset false s G' (pending l) := by
  induction hh with
  | nil =>
    refine ⟨rfl, G, ?_⟩
    rw [pending, Finset.coe_empty]
    exact hs₀
  | @call l s s' op r hh ho hrun ih =>
    obtain ⟨ht, G', hr⟩ := ih
    obtain ⟨ht', r', G'', L', hpc, he, hr'⟩ := (hr.call hC (by rw [ht]; exact htail) ho).of_final
      (fun c c' hc => by
        obtain ⟨_, _, _, _, hpc, _⟩ := hc
        exact Next.final (by rw [hpc]; rfl)) hrun fun _ => Next.final rfl
    obtain rfl : r = r' := Pc.ret.inj hpc
    rw [← he.pending]
    exact ⟨ht'.trans ht, G'', hr'.leave hC⟩

end Calls

end ConcurrentPQ.Linden

import ConcurrentPQ.Lib.Tower
import ConcurrentPQ.Linden.Effects
import ConcurrentPQ.Linden.Machine

/-!
# A Linden queue between two calls of a single thread

With one thread the queue is tidier than under concurrency: on every level the nodes that were linked
in there form one list in the level-0 order, and exactly the nodes of that order are in use.

* `Stacked`, `Tidy` — the shape of memory, for the level-0 order `G` and the number `h n` of levels on
  which a node is linked; between two calls every node is linked on level 0;
* `Uses`, `Consistent` — the nodes in use;
* `Stacked.live_split` — the live nodes below and from a key on.
-/

namespace ConcurrentPQ.Linden

open ConcurrentPQ.Segment

/-- The address in `next[i]`. -/
def nxt (m : Mem) (i : ℕ) (n : NodeId) : NodeId := ((m n).next i).ptr

/-- The nodes between head and tail. -/
def Ghost.nodes (G : Ghost) : List NodeId := G.order.tail

/-- The lists of all levels, as they are while a node of the order may wait for level 0. -/
structure Stacked (m : Mem) (h : NodeId → ℕ) (G : Ghost) : Prop where
  first : G.order = head :: G.nodes
  nodup : G.all.Nodup
  tower : Tower (nxt m) h NUM_LEVELS head G.order tail
  head_height : h head = NUM_LEVELS
  heights : ∀ n ∈ G.order, h n ≤ (m n).level ∧ (m n).level ≤ NUM_LEVELS
  cleared : ∀ n ∈ G.order, ∀ i, h n ≤ i → i < (m n).level → (m n).next i = ref NULL
  upper_mark : ∀ n ∈ G.order, ∀ i, 0 < i → i < h n → ((m n).next i).mark = false
  dead_mark : ∀ n ∈ G.dead, ((m n).next 0).mark = true
  bound_mark : ((m G.bound).next 0).mark = false
  live_mark : ∀ n ∈ G.live, ((m n).next 0).mark = false
  sorted : G.live.Pairwise fun a b => (m a).k < (m b).k
  data : ∀ n ∈ G.nodes, firstNode ≤ n ∧ SENTINEL_KEYMIN < (m n).k ∧
    (m n).k < pkey SENTINEL_KEYMAX ∧ (m n).v = (m n).k
  tail_k : (m tail).k = pkey SENTINEL_KEYMAX

/-- **The shape of memory between two calls of the only thread.** -/
structure Tidy (m : Mem) (h : NodeId → ℕ) (G : Ghost) : Prop extends Stacked m h G where
  pos : ∀ n ∈ G.order, 0 < h n

/-- The nodes in use, each with the allocator of its level. -/
def Uses (m : Mem) (U : List (NodeId × ℕ)) (l : List NodeId) : Prop :=
  U.Perm (l.map fun n => (n, (m n).level - 1))

/-- A tidy queue whose nodes, and no others, are in use, outside (`b = false`) or inside of a critical
section of the collector. -/
structure Consistent {α : Type} (I : Bool → α → List (NodeId × ℕ) → Prop) (b : Bool) (s : Store α)
    (h : NodeId → ℕ) (G : Ghost) : Prop where
  tidy : Tidy s.mem h G
  uses : Uses s.mem s.used G.nodes
  lawful : I b s.col s.used
  quiet : ∀ n ∈ G.order, (s.mem n).inserting = false

section Facts

variable {α : Type} {m m' : Mem} {h : NodeId → ℕ} {G : Ghost} {n p q : NodeId} {i k : ℕ}
  {U : List (NodeId × ℕ)} {l P S : List NodeId}

theorem Uses.mem_fst (hu : Uses m U l) : n ∈ U.map Prod.fst ↔ n ∈ l := by
  rw [(hu.map Prod.fst).mem_iff, List.map_map]
  simp

theorem Uses.congr (hu : Uses m U l) (hm : ∀ n ∈ l, (m' n).level = (m n).level) : Uses m' U l := by
  have hmap : (l.map fun n => (n, (m n).level - 1)) = l.map fun n => (n, (m' n).level - 1) :=
    List.map_congr_left fun n hn => by rw [hm n hn]
  unfold Uses at hu ⊢
  rwa [← hmap]

/-- Releasing a node in use. -/
theorem Uses.erase (hu : Uses m U (n :: l)) : Uses m (U.erase (n, (m n).level - 1)) l := by
  have herase := List.Perm.erase (n, (m n).level - 1) hu
  rwa [List.map_cons, List.erase_cons_head] at herase

theorem Uses.mem (hu : Uses m U l) (hn : n ∈ l) : (n, (m n).level - 1) ∈ U :=
  hu.symm.subset (List.mem_map_of_mem hn)

namespace Stacked

theorem mem_order (ht : Stacked m h G) : n ∈ G.order ↔ n = head ∨ n ∈ G.nodes := by
  rw [ht.first, List.mem_cons]

theorem head_mem (ht : Stacked m h G) : head ∈ G.order := ht.mem_order.mpr (Or.inl rfl)

theorem order_nodup (ht : Stacked m h G) : G.order.Nodup := (List.nodup_append.mp ht.nodup).1

theorem tail_notMem (ht : Stacked m h G) : tail ∉ G.order := fun hm =>
  (List.nodup_append.mp ht.nodup).2.2 tail hm tail List.mem_cons_self rfl

theorem ne_tail (ht : Stacked m h G) (hn : n ∈ G.order) : n ≠ tail := fun he =>
  ht.tail_notMem (he ▸ hn)

/-- The deleted nodes start with the head. -/
theorem gone_first (ht : Stacked m h G) : ∃ S, G.gone = head :: S := by
  have hfirst := ht.first
  rw [G.order_eq] at hfirst
  cases hl : G.gone with
  | nil => exact absurd hl (by simp [Ghost.gone])
  | cons y S =>
    rw [hl] at hfirst
    exact ⟨S, by rw [(List.cons.inj hfirst).1]⟩

theorem live_mem_order (hn : n ∈ G.live) : n ∈ G.order := G.mem_order.mpr (Or.inr (Or.inr hn))

/-- The head is not among the live nodes. -/
theorem live_mem (ht : Stacked m h G) (hn : n ∈ G.live) : n ∈ G.nodes := by
  refine (ht.mem_order.mp (live_mem_order hn)).resolve_left fun he => ?_
  obtain ⟨S, hS⟩ := ht.gone_first
  have hnd := ht.order_nodup
  rw [G.order_eq, hS, List.cons_append, List.nodup_cons] at hnd
  exact hnd.1 (he ▸ List.mem_append_right _ hn)

/-- The nodes of the order, and the tail, may be accessed. -/
theorem owned (ht : Stacked m h G) {s : Store α} (hu : Uses m s.used G.nodes) (hn : n ∈ G.all) :
    s.Owned n := by
  rcases G.mem_all.mp hn with hn | hn
  · exact (ht.mem_order.mp hn).imp id fun hn => Or.inr (hu.mem_fst.mpr hn)
  · exact Or.inr (Or.inl hn)

/-- The rest of a level, seen from one of its nodes. -/
theorem level (ht : Stacked m h G) (hi : i < NUM_LEVELS) (hG : G.order = P ++ n :: S) (hn : i < h n) :
    Seg (nxt m i) (nxt m i n) (onLevel h i S) tail := by
  have htower := ht.tower
  rw [hG] at htower
  exact (htower.split hi hn).2

/-- A pointer on a level leads to a node of the order, or to the tail. -/
theorem nxt_mem (ht : Stacked m h G) (hn : n ∈ G.order) (hi : i < h n) : nxt m i n ∈ G.all := by
  have hlt : i < NUM_LEVELS := by
    have := ht.heights n hn
    omega
  have hmem : n ∈ onLevel h i G.order := mem_onLevel.mpr ⟨hn, hi⟩
  rcases (ht.tower i hlt).next_mem hmem with hx | hx
  · exact G.order_mem_all (mem_onLevel.mp hx).1
  · exact G.mem_all.mpr (Or.inr hx)

/-- The word on a level is the plain address, unless it carries the mark of a deletion. -/
theorem word (ht : Stacked m h G) (hn : n ∈ G.order) (hi : i < h n)
    (hm : i = 0 → ((m n).next 0).mark = false) : (m n).next i = ref (nxt m i n) := by
  have hmark : ((m n).next i).mark = false := by
    rcases Nat.eq_zero_or_pos i with rfl | hpos
    · exact hm rfl
    · exact ht.upper_mark n hn i hpos hi
  unfold nxt ref
  rcases hw : (m n).next i with ⟨a, b⟩
  rw [hw] at hmark
  rw [show b = false from hmark]

/-- Changes of the `inserting` flag and of other nodes. -/
theorem congr (ht : Stacked m h G) (hm : ∀ n ∈ G.all, (m' n).k = (m n).k ∧ (m' n).v = (m n).v ∧
    (m' n).level = (m n).level ∧ (m' n).next = (m n).next) : Stacked m' h G := by
  have hord : ∀ n ∈ G.order, (m' n).k = (m n).k ∧ (m' n).v = (m n).v ∧
      (m' n).level = (m n).level ∧ (m' n).next = (m n).next :=
    fun n hn => hm n (G.order_mem_all hn)
  have hlive : ∀ n ∈ G.live, n ∈ G.order := fun n hn => G.mem_order.mpr (Or.inr (Or.inr hn))
  have hnodes : ∀ n ∈ G.nodes, n ∈ G.order := fun n hn => ht.mem_order.mpr (Or.inr hn)
  refine ⟨ht.first, ht.nodup, ?_, ht.head_height, ?_, ?_, ?_, ?_, ?_, ?_, ?_, ?_, ?_⟩
  · refine ht.tower.congr fun i x _ hx => ?_
    unfold nxt
    rw [(hord x hx).2.2.2]
  · intro n hn
    rw [(hord n hn).2.2.1]
    exact ht.heights n hn
  · intro n hn i
    rw [(hord n hn).2.2.1, (hord n hn).2.2.2]
    exact ht.cleared n hn i
  · intro n hn i
    rw [(hord n hn).2.2.2]
    exact ht.upper_mark n hn i
  · intro n hn
    rw [(hord n (G.mem_order.mpr (Or.inl hn))).2.2.2]
    exact ht.dead_mark n hn
  · rw [(hord _ (G.mem_order.mpr (Or.inr (Or.inl rfl)))).2.2.2]
    exact ht.bound_mark
  · intro n hn
    rw [(hord n (hlive n hn)).2.2.2]
    exact ht.live_mark n hn
  · refine ht.sorted.imp_of_mem fun {a b} ha hb hab => ?_
    rw [(hord a (hlive a ha)).1, (hord b (hlive b hb)).1]
    exact hab
  · intro n hn
    rw [(hord n (hnodes n hn)).1, (hord n (hnodes n hn)).2.1]
    exact ht.data n hn
  · rw [(hm tail (G.mem_all.mpr (Or.inr rfl))).1]
    exact ht.tail_k

/-- The live nodes with keys below `k`, and the others behind them. -/
theorem live_split (ht : Stacked m h G) (k : ℕ) : ∃ L R, G.live = L ++ R ∧
    (∀ n ∈ L, (m n).k < k) ∧ ∀ n ∈ R, k ≤ (m n).k := by
  have hsorted := ht.sorted
  generalize G.live = l at hsorted
  induction l with
  | nil =>
    exact ⟨[], [], rfl, fun n hn => absurd hn List.not_mem_nil,
      fun n hn => absurd hn List.not_mem_nil⟩
  | cons x l ih =>
    obtain ⟨hx, hl⟩ := List.pairwise_cons.mp hsorted
    rcases lt_or_ge (m x).k k with hk | hk
    · obtain ⟨L, R, rfl, hL, hR⟩ := ih hl
      refine ⟨x :: L, R, rfl, fun n hn => ?_, hR⟩
      rcases List.mem_cons.mp hn with rfl | hn
      · exact hk
      · exact hL n hn
    · refine ⟨[], x :: l, rfl, fun n hn => absurd hn List.not_mem_nil, fun n hn => ?_⟩
      rcases List.mem_cons.mp hn with rfl | hn
      · exact hk
      · exact hk.trans (hx n hn).le

end Stacked

/-- No pointer leads to a node that is not in use. -/
theorem Stacked.not_refers (ht : Stacked m h G) {s : Store α} (hs : s.mem = m)
    (hu : Uses m s.used G.nodes) (hn : firstNode ≤ n) (hno : n ∉ s.used.map Prod.fst) :
    ¬s.Refers n := by
  rintro ⟨x, hx, i, hi, he⟩
  rw [hs] at hi he
  have hxo : x ∈ G.order := by
    rw [ht.first]
    refine (List.mem_cons.mp hx).elim (fun h => h ▸ List.mem_cons_self) fun h => ?_
    exact List.mem_cons_of_mem _ (hu.mem_fst.mp h)
  rcases lt_or_ge i (h x) with hlt | hle
  · have hall := ht.nxt_mem hxo hlt
    rw [nxt, he] at hall
    rcases G.mem_all.mp hall with ho | rfl
    · rcases ht.mem_order.mp ho with rfl | hnodes
      · exact absurd hn (by decide)
      · exact hno (hu.mem_fst.mpr hnodes)
    · exact absurd hn (by decide)
  · rw [ht.cleared x hxo i hle hi] at he
    rw [← he] at hn
    exact absurd hn (by decide)

theorem Tidy.onLevel_zero (ht : Tidy m h G) (hl : l ⊆ G.order) : onLevel h 0 l = l :=
  onLevel_eq_self fun x hx => ht.pos x (hl hx)

end Facts

end ConcurrentPQ.Linden

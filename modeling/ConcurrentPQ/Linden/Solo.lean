import ConcurrentPQ.Linden.GcLawful
import ConcurrentPQ.Linden.Session
import Mathlib.Data.Finset.Card

/-!
# The queue on the real collector

A single thread works on a Linden queue whose nodes come from `gc.c` and go back to it.

* `pq_init` — a new queue, with the collector that `pq_init` sets up;
* `recycled_queue` — **the queue stays correct while its memory is recycled**;
* `Resting.used_length` — it has no more nodes in use than keys, and `max 1 max_offset`;
* `bounded_prefix` — **the deleted prefix is bounded, and physical deletion keeps the queue intact**;
* `Linden.delete_min`, `tells_empty_iff` — when the wrapper class tells an empty queue from others.
-/

namespace ConcurrentPQ.Linden

open ConcurrentPQ.Segment Relation

/-- The queue `pq_init` makes on storage `m`. -/
def pq_init (m : Mem) : Store Gc.State := ⟨m, [], Gc.pq_init_gc⟩

section Recycling

variable {max_offset : ℤ} {m : Mem} {l : List (Op × Option ℕ)} {s : Store Gc.State}

/-- Between the calls of a client. -/
theorem History.of_pq_init (hm : Made m) (htail : ((m tail).next 0).mark = false)
    (hh : History Gc.collector max_offset Admissible (pq_init m) l s) :
    ((s.mem tail).next 0).mark = false ∧
      ∃ G, Resting Gc.Valid max_offset false s G (pending l) := by
  obtain ⟨ht, hG⟩ := hh.resting Gc.collector_lawful (hm.resting Gc.pq_init_valid) htail
  refine ⟨?_, hG⟩
  rw [ht]
  exact htail

/-- A call that is sure to return passes all checks on its way. -/
theorem Eventually.checked {α : Type} {C : Collector α} {Q : Config α → Prop} {c c' : Config α}
    (h : Eventually (Next C max_offset) Q c) (hQ : ∀ c, Q c → ∃ r, c.pc = .ret r)
    (hrun : ReflTransGen (Next C max_offset) c c') (hr : c'.pc.running = true) :
    Check C max_offset c' := by
  by_contra hcheck
  have hcrash : Next C max_offset c' ⟨c'.st, .crashed⟩ := ⟨hr, (if_neg hcheck).symm⟩
  have hfinal : ∀ c c', Q c → ¬Next C max_offset c c' := fun c c' hc => by
    obtain ⟨r, hpc⟩ := hQ c hc
    exact Next.final (by rw [hpc]; rfl)
  obtain ⟨r, hpc⟩ := hQ _ (h.of_final hfinal (hrun.tail hcrash) fun _ => Next.final rfl)
  cases hpc

/-- **Linden stays correct while its memory is recycled.**  Whatever levels are drawn and whatever
`max_offset` is: the live keys are those inserted and not yet returned; every call ends, `deletemin`
returns the least of them, or 0 if there is none, and `insert` adds its key to them; and each access
goes to a node in use, and no node is handed out while a pointer of a node in use leads to it. -/
theorem recycled_queue (hm : Made m) (htail : ((m tail).next 0).mark = false)
    (hh : History Gc.collector max_offset Admissible (pq_init m) l s) :
    liveKeys s.mem = pending l ∧
    ∀ op, Admissible op →
      Eventually (Next Gc.collector max_offset)
        (fun c => ∃ r, c.pc = .ret r ∧ Ends (pending l) op r (liveKeys c.st.mem))
        (enter Gc.collector s op) ∧
      ∀ c, ReflTransGen (Next Gc.collector max_offset) (enter Gc.collector s op) c →
        c.pc.running = true → Check Gc.collector max_offset c := by
  obtain ⟨ht, G, hr⟩ := hh.of_pq_init hm htail
  refine ⟨hr.keys, fun op ho => ?_⟩
  have hcall := hr.call Gc.collector_lawful ht ho
  refine ⟨hcall.mono fun c hc => ?_, fun c hrun hrunning => ?_⟩
  · obtain ⟨-, r, G', L', hpc, he, hr'⟩ := hc
    refine ⟨r, hpc, ?_⟩
    rw [hr'.keys]
    exact he
  · refine Eventually.checked hcall (fun c hc => ?_) hrun hrunning
    obtain ⟨-, r, -, -, hpc, -⟩ := hc
    exact ⟨r, hpc⟩

theorem freshMem_made : Made freshMem := ⟨rfl, rfl, rfl, rfl, rfl, rfl, fun _ _ => rfl⟩

/-- The nodes in use are those of the keys, and `max 1 max_offset` more at most. -/
theorem Resting.used_length {I : Bool → Gc.State → List (NodeId × ℕ) → Prop} {b : Bool} {G : Ghost}
    {K : Finset ℕ} (hr : Resting I max_offset b s G K) :
    (s.used.length : ℤ) ≤ max 1 max_offset + K.card := by
  obtain ⟨h, hc⟩ := hr.consistent
  have hnodup : (G.live.map fun n => (s.mem n).k).Nodup :=
    (List.pairwise_map.mpr hc.tidy.sorted).imp fun hlt => hlt.ne
  have hsub : ∀ k ∈ G.live.map fun n => (s.mem n).k, k ∈ K := by
    intro k hk
    obtain ⟨n, hn, rfl⟩ := List.mem_map.mp hk
    rw [← Finset.mem_coe, ← hr.keys, hc.tidy.mem_liveKeys]
    exact ⟨n, hn, rfl⟩
  have hlive := Finset.card_le_card (fun k hk => hsub k (List.mem_toFinset.mp hk))
  rw [List.toFinset_card_of_nodup hnodup, List.length_map] at hlive
  have hused := hc.uses.length_eq
  have horder := congrArg List.length hc.tidy.first
  rw [Ghost.order, List.length_append, List.length_cons, List.length_cons] at horder
  rw [List.length_map] at hused
  have hdead := hr.dead
  omega

/-- A call returns. -/
theorem History.extend (hm : Made m) (htail : ((m tail).next 0).mark = false)
    (hh : History Gc.collector max_offset Admissible (pq_init m) l s) {op : Op} (ho : Admissible op) :
    ∃ r L s', History Gc.collector max_offset Admissible (pq_init m) ((op, r) :: l) s' ∧
      Ends (pending l) op r L := by
  obtain ⟨ht, G, hr⟩ := hh.of_pq_init hm htail
  obtain ⟨⟨s', pc⟩, hrun, -, r, -, L, hpc, he, -⟩ := (hr.call Gc.collector_lawful ht ho).exists_run
  obtain rfl : pc = .ret r := hpc
  exact ⟨r, L, _, hh.call ho hrun, he⟩

theorem History.insert (hm : Made m) (htail : ((m tail).next 0).mark = false)
    (hh : History Gc.collector max_offset Admissible (pq_init m) l s) {v lvl : ℕ}
    (ho : Admissible (.insert v lvl)) :
    ∃ s', History Gc.collector max_offset Admissible (pq_init m) ((.insert v lvl, none) :: l) s' := by
  obtain ⟨r, L, s', hh', he⟩ := hh.extend hm htail ho
  cases r with
  | none => exact ⟨s', hh'⟩
  | some r => exact he.elim

theorem History.delete_min (hm : Made m) (htail : ((m tail).next 0).mark = false)
    (hh : History Gc.collector max_offset Admissible (pq_init m) l s) {k : ℕ}
    (hk : IsLeast (pending l : Set ℕ) k) :
    ∃ s', History Gc.collector max_offset Admissible (pq_init m) ((.delete_min, some k) :: l) s' := by
  obtain ⟨r, L, s', hh', he⟩ := hh.extend hm htail (show Admissible .delete_min from trivial)
  cases r with
  | none => exact he.elim
  | some r =>
    rcases he with ⟨hleast, -⟩ | ⟨hempty, -⟩
    · rw [hk.unique hleast]
      exact ⟨s', hh'⟩
    · rw [hempty] at hk
      exact hk.1.elim

/-- Three insertions and two `delete_min`; the second of these takes the first deleted node off the list. -/
def swung : List (Op × Option ℕ) :=
  [(.delete_min, some 7), (.delete_min, some 5), (.insert 9 1, none), (.insert 7 2, none),
    (.insert 5 1, none)]

theorem exists_swung : ∃ s, History Gc.collector 0 Admissible (pq_init freshMem) swung s ∧
    s.used.length ≤ 2 := by
  have hleast : ∀ (K : Finset ℕ) (k : ℕ), (k ∈ K ∧ ∀ j ∈ K, k ≤ j) → IsLeast (K : Set ℕ) k :=
    fun K k hk => ⟨hk.1, fun j hj => hk.2 j hj⟩
  have h₀ : History Gc.collector 0 Admissible (pq_init freshMem) [] (pq_init freshMem) := .nil
  obtain ⟨s₁, h₁⟩ := h₀.insert freshMem_made rfl (show Admissible (.insert 5 1) by decide)
  obtain ⟨s₂, h₂⟩ := h₁.insert freshMem_made rfl (show Admissible (.insert 7 2) by decide)
  obtain ⟨s₃, h₃⟩ := h₂.insert freshMem_made rfl (show Admissible (.insert 9 1) by decide)
  obtain ⟨s₄, h₄⟩ := h₃.delete_min freshMem_made rfl (k := 5) (hleast _ _ (by decide))
  obtain ⟨s₅, h₅⟩ := h₄.delete_min freshMem_made rfl (k := 7) (hleast _ _ (by decide))
  have hh : History Gc.collector 0 Admissible (pq_init freshMem) swung s₅ := h₅
  obtain ⟨-, G, hr⟩ := hh.of_pq_init freshMem_made rfl
  have hused := hr.used_length
  rw [show (pending swung).card = 1 by decide] at hused
  exact ⟨s₅, hh, by omega⟩

theorem recycled_queue_swung : ∃ s,
    History Gc.collector 0 Admissible (pq_init freshMem) swung s ∧ s.used.length ≤ 2 ∧
    liveKeys s.mem = pending swung ∧
    ∀ op, Admissible op →
      Eventually (Next Gc.collector 0)
        (fun c => ∃ r, c.pc = .ret r ∧ Ends (pending swung) op r (liveKeys c.st.mem))
        (enter Gc.collector s op) ∧
      ∀ c, ReflTransGen (Next Gc.collector 0) (enter Gc.collector s op) c →
        c.pc.running = true → Check Gc.collector 0 c := by
  obtain ⟨s, hh, hused⟩ := exists_swung
  exact ⟨s, hh, hused, recycled_queue freshMem_made rfl hh⟩

/-- The first node of a level stands at or behind that of the level below. -/
theorem Tidy.head_le {h : NodeId → ℕ} {G : Ghost} (ht : Tidy m h G) {i : ℕ} (hi : 1 ≤ i)
    (hN : i < NUM_LEVELS) :
    Le (G.dead ++ G.bound :: G.live ++ [tail]) (headPtr m (i - 1)) (headPtr m i) := by
  obtain ⟨i, rfl⟩ : ∃ j, i = j + 1 := ⟨i - 1, by omega⟩
  have hhead : NUM_LEVELS = h head := ht.head_height.symm
  have hsub : (G.nodes ++ [tail]).Sublist (G.order ++ [tail]) := by
    rw [ht.first]
    exact (List.sublist_cons_self _ _).append (List.Sublist.refl _)
  exact (first_le_first
    (ht.level (P := []) (by omega) ht.first (by omega))
    (ht.level (P := []) hN ht.first (by omega))).mono hsub

/-- **Linden bounds its deleted prefix, and physical deletion keeps the queue intact.**  After every
call at most `max 1 max_offset` deleted nodes are linked in; a `deletemin` takes the first live node
away and leaves the others in their order, its assertions hold, and the head's pointers on the levels
lead further and further. -/
theorem bounded_prefix (hm : Made m) (htail : ((m tail).next 0).mark = false)
    (hh : History Gc.collector max_offset Admissible (pq_init m) l s) :
    ∃ D b V, DeletedPrefix s.mem (fun _ => False) D b V ∧ (D.length : ℤ) ≤ max 1 max_offset ∧
      Eventually (Next Gc.collector max_offset)
        (fun c => ∃ r D' b', c.pc = .ret (some r) ∧
          DeletedPrefix c.st.mem (fun _ => False) D' b' V.tail ∧
          ∀ i, 1 ≤ i → i < NUM_LEVELS →
            Le (D' ++ b' :: V.tail ++ [tail]) (headPtr c.st.mem (i - 1)) (headPtr c.st.mem i))
        (enter Gc.collector s .delete_min) ∧
      ∀ c, ReflTransGen (Next Gc.collector max_offset) (enter Gc.collector s .delete_min) c →
        c.pc.running = true → Assert c.st.mem c.pc := by
  obtain ⟨ht, G, hr⟩ := hh.of_pq_init hm htail
  obtain ⟨h, hc⟩ := hr.consistent
  have hcall := hr.deletemin Gc.collector_lawful ht
  refine ⟨G.dead, G.bound, G.live, hc.tidy.deletedPrefix, hr.dead, hcall.mono fun c hc => ?_,
    fun c hrun hrunning => ?_⟩
  · obtain ⟨-, k, G', L', hpc, -, ⟨⟨h', hc'⟩, -, -⟩, hlive⟩ := hc
    refine ⟨k, G'.dead, G'.bound, hpc, ?_, fun i hi hN => ?_⟩
    · rw [← hlive]
      exact hc'.tidy.deletedPrefix
    · rw [← hlive]
      exact hc'.tidy.head_le hi hN
  · refine (Eventually.checked hcall (fun c hc => ?_) hrun hrunning).1
    obtain ⟨-, k, -, -, hpc, -⟩ := hc
    exact ⟨_, hpc⟩

theorem bounded_prefix_swung : ∃ s D b V,
    History Gc.collector 0 Admissible (pq_init freshMem) swung s ∧ s.used.length ≤ 2 ∧
    DeletedPrefix s.mem (fun _ => False) D b V ∧ (D.length : ℤ) ≤ max 1 0 ∧
      Eventually (Next Gc.collector 0)
        (fun c => ∃ r D' b', c.pc = .ret (some r) ∧
          DeletedPrefix c.st.mem (fun _ => False) D' b' V.tail ∧
          ∀ i, 1 ≤ i → i < NUM_LEVELS →
            Le (D' ++ b' :: V.tail ++ [tail]) (headPtr c.st.mem (i - 1)) (headPtr c.st.mem i))
        (enter Gc.collector s .delete_min) ∧
      ∀ c, ReflTransGen (Next Gc.collector 0) (enter Gc.collector s .delete_min) c →
        c.pc.running = true → Assert c.st.mem c.pc := by
  obtain ⟨s, hh, hused⟩ := exists_swung
  obtain ⟨D, b, V, hprefix⟩ := bounded_prefix freshMem_made rfl hh
  exact ⟨s, D, b, V, hh, hused, hprefix⟩

/-! ### The wrapper class -/

/-- `Linden::delete_min`: what it returns and what it leaves in `v`, from what `deletemin` returns. -/
def delete_min (v : ℕ) (r : Option ℕ) : Bool × ℕ := (true, r.getD v)

/-- Each `delete_min` has returned true exactly if there was a key to return, and left `v` as it was
if not. -/
def TellsEmpty (l : List (Op × Option ℕ)) : Prop :=
  ∀ l₁ r l₂ v, l = l₁ ++ (.delete_min, r) :: l₂ →
    ((delete_min v r).1 = true ↔ (pending l₂).Nonempty) ∧
    ((delete_min v r).1 = false → (delete_min v r).2 = v)

/-- Each `delete_min` was called while there was a key to return. -/
def NeverEmpty (l : List (Op × Option ℕ)) : Prop :=
  ∀ l₁ r l₂, l = l₁ ++ (.delete_min, r) :: l₂ → (pending l₂).Nonempty

/-- The calls of a client, one after the other. -/
theorem History.ends (hm : Made m) (htail : ((m tail).next 0).mark = false)
    (hh : History Gc.collector max_offset Admissible (pq_init m) l s) {l₁ l₂ : List (Op × Option ℕ)}
    {op : Op} {r : Option ℕ} (hl : l = l₁ ++ (op, r) :: l₂) : ∃ L, Ends (pending l₂) op r L := by
  induction hh generalizing l₁ with
  | nil => exact absurd hl (by simp)
  | @call l s s' op' r' hh ho hrun ih =>
    cases l₁ with
    | nil =>
      obtain ⟨⟨rfl, rfl⟩, rfl⟩ : (op' = op ∧ r' = r) ∧ l = l₂ := by simpa using hl
      obtain ⟨ht, G, hr⟩ := hh.of_pq_init hm htail
      obtain ⟨-, r₁, -, L, hpc, he, -⟩ := (hr.call Gc.collector_lawful ht ho).of_final
        (fun c c' hc => by
          obtain ⟨_, _, _, _, hpc, _⟩ := hc
          exact Next.final (by rw [hpc]; rfl)) hrun fun _ => Next.final rfl
      rw [Pc.ret.inj hpc]
      exact ⟨L, he⟩
    | cons x l₁ => exact ih (List.cons.inj hl).2

/-- **`Linden::delete_min` does not tell an empty queue from others.**  It does as it should in exactly
the runs in which it is never called on an empty queue; there it hands out the least key, and else 0;
and every call ends. -/
theorem tells_empty_iff (hm : Made m) (htail : ((m tail).next 0).mark = false)
    (hh : History Gc.collector max_offset Admissible (pq_init m) l s) :
    (TellsEmpty l ↔ NeverEmpty l) ∧
    (∀ l₁ r l₂ v, l = l₁ ++ (.delete_min, r) :: l₂ →
      IsLeast (pending l₂ : Set ℕ) (delete_min v r).2 ∨
        (pending l₂ = ∅ ∧ delete_min v r = (true, 0))) ∧
    ∀ op, Admissible op → Eventually (Next Gc.collector max_offset) (fun c => ∃ r, c.pc = .ret r)
      (enter Gc.collector s op) := by
  refine ⟨⟨fun ht l₁ r l₂ hl => (ht l₁ r l₂ 0 hl).1.mp rfl, fun hn l₁ r l₂ v hl => ?_⟩,
    fun l₁ r l₂ v hl => ?_, fun op ho => ?_⟩
  · exact ⟨⟨fun _ => hn l₁ r l₂ hl, fun _ => rfl⟩, fun hf => absurd hf Bool.true_eq_false.mp⟩
  · obtain ⟨L, he⟩ := hh.ends hm htail hl
    cases r with
    | none => exact he.elim
    | some r =>
      rcases he with ⟨hleast, -⟩ | ⟨hempty, rfl, -⟩
      · exact Or.inl hleast
      · exact Or.inr ⟨Finset.coe_eq_empty.mp hempty, rfl⟩
  · obtain ⟨ht, G, hr⟩ := hh.of_pq_init hm htail
    refine (hr.call Gc.collector_lawful ht ho).mono fun c hc => ?_
    obtain ⟨-, r, -, -, hpc, -⟩ := hc
    exact ⟨r, hpc⟩

/-- `delete_min` on a new queue. -/
theorem exists_delete_min : ∃ r s,
    History Gc.collector 0 Admissible (pq_init freshMem) [(.delete_min, r)] s := by
  have h₀ : History Gc.collector 0 Admissible (pq_init freshMem) [] (pq_init freshMem) := .nil
  obtain ⟨r, -, s, hh, -⟩ := h₀.extend freshMem_made rfl (show Admissible .delete_min from trivial)
  exact ⟨r, s, hh⟩

theorem tells_empty_iff_swung : ∃ s,
    History Gc.collector 0 Admissible (pq_init freshMem) swung s ∧ (TellsEmpty swung ↔ NeverEmpty swung) ∧
    IsLeast (pending [(.delete_min, some 5), (.insert 9 1, none), (.insert 7 2, none), (.insert 5 1, none)] :
      Set ℕ) (delete_min 0 (some 7)).2 ∧
    ∀ op, Admissible op → Eventually (Next Gc.collector 0) (fun c => ∃ r, c.pc = .ret r)
      (enter Gc.collector s op) := by
  obtain ⟨s, hh, -⟩ := exists_swung
  obtain ⟨htells, hleast, hcalls⟩ := tells_empty_iff freshMem_made rfl hh
  exact ⟨s, hh, htells, (hleast [] (some 7) _ 0 rfl).resolve_right (fun he => absurd he.1 (by decide)), hcalls⟩

/-- `delete_min` returns true on a new queue. -/
theorem not_tells_empty : ¬∀ max_offset m l s, Made m → ((m tail).next 0).mark = false →
    History Gc.collector max_offset Admissible (pq_init m) l s → TellsEmpty l := by
  intro hall
  obtain ⟨r, s, hh⟩ := exists_delete_min
  have htells := (hall 0 freshMem _ s freshMem_made rfl hh [] r [] 0 rfl).1
  exact Finset.not_nonempty_empty (htells.mp rfl)

end Recycling

end ConcurrentPQ.Linden

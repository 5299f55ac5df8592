import ConcurrentPQ.Linden.Invariant

/-!
# The deleted prefix of the Linden queue

Along the level-0 chain from head to tail the deleted nodes form a prefix and the live suffix is
strictly sorted; a mark is never taken back.

* `Published` — the nodes a run has spliced in;
* `DeletedPrefix` — the shape of the chain in one state;
* `deleted_prefix` — the shape in every state a run reaches, and the marks along the run.
-/

namespace ConcurrentPQ.Linden

open ConcurrentPQ.Transition ConcurrentPQ.Segment

/-- Node `n` was spliced in by the level-0 CAS of some `insert`. -/
def Published (tr : List (Entry State Tid Event)) (n : NodeId) : Prop :=
  ∃ x ∈ tr, ∃ f, x.pre.thr x.who = .cas0 f ∧ x.ev = .insertCas f.k ∧ f.new = n

/-- The level-0 chain from head to tail: the nodes of `D` carry marks, the later ones, the first of
which is `b`, carry none; the nodes behind `b` are strictly sorted by key; and the nodes of
`published` without a mark of their own are on the chain. -/
structure DeletedPrefix (m : Mem) (published : NodeId → Prop) (D : List NodeId) (b : NodeId)
    (V : List NodeId) : Prop where
  chain : Seg (succ0 m) head (D ++ b :: V) tail
  nodup : (D ++ b :: V ++ [tail]).Nodup
  marked : ∀ n ∈ D, ((m n).next 0).mark = true
  unmarked : ∀ n ∈ b :: V, ((m n).next 0).mark = false
  sorted : (V ++ [tail]).Pairwise fun x y => (m x).k < (m y).k
  published : ∀ n, published n → ((m n).next 0).mark = false → n ∈ D ++ b :: V

variable {m : Mem} {brk : NodeId} {G : Ghost}

/-- The deleted nodes the head still leads to. -/
theorem Shape.exists_prefix (h : Shape m brk G) :
    ∃ D, Seg (succ0 m) head D G.bound ∧ (D ++ [G.bound]).Sublist G.gone ∧
      ∀ n ∈ D, ((m n).next 0).mark = true := by
  rcases h.dead_shape with ⟨hd, hb⟩ | ⟨D, a, hd, hseg, hh⟩
  · exact ⟨[], hb.symm, by simp [Ghost.gone], fun n hn => absurd hn List.not_mem_nil⟩
  have hmark : ∀ n ∈ head :: D, ((m n).next 0).mark = true := fun n hn =>
    h.dead_mark n (hd ▸ hn)
  rcases List.mem_append.mp hh with hD | hb
  · obtain ⟨l₁, l₂, rfl⟩ := List.append_of_mem hD
    refine ⟨head :: succ0 m head :: l₂, ⟨rfl, rfl, (seg_append_cons.mp hseg).2⟩, ?_, ?_⟩
    · rw [Ghost.gone, hd, List.cons_append, List.cons_append]
      refine List.Sublist.cons_cons _ ?_
      rw [← List.cons_append]
      exact (List.sublist_append_right _ _).append (List.Sublist.refl _)
    · intro n hn
      refine hmark n ?_
      rcases List.mem_cons.mp hn with rfl | hn
      · exact List.mem_cons_self
      · exact List.mem_cons_of_mem _ (List.mem_append_right _ hn)
  · refine ⟨[head], ⟨rfl, List.mem_singleton.mp hb⟩, ?_, ?_⟩
    · rw [Ghost.gone, hd, List.cons_append]
      exact List.Sublist.cons_cons _ (List.sublist_append_right _ _)
    · intro n hn
      exact hmark n (List.mem_singleton.mp hn ▸ List.mem_cons_self)

theorem Shape.live_key_lt_tail (h : Shape m brk G) {n : NodeId} (hn : n ∈ G.live) :
    (m n).k < (m tail).k := by
  have hord : n ∈ G.order := G.mem_order.mpr (Or.inr (Or.inr hn))
  rw [h.tail_k]
  refine (h.keys n hord ?_).2.1
  rintro rfl
  exact h.head_notMem_live hn

/-- The shape of the chain, from the memory invariant. -/
theorem Shape.deletedPrefix (h : Shape m brk G) {published : NodeId → Prop}
    (hp : ∀ n, published n → n ∈ G.order) :
    ∃ D b V, DeletedPrefix m published D b V := by
  obtain ⟨D, hseg, hsub, hmark⟩ := h.exists_prefix
  refine ⟨D, G.bound, G.live, seg_append_cons.mpr ⟨hseg, h.live_seg⟩, ?_, hmark, ?_, ?_, ?_⟩
  · refine h.nodup.sublist ?_
    have hall : D ++ G.bound :: G.live ++ [tail] = (D ++ [G.bound]) ++ (G.live ++ [tail]) := by
      simp
    rw [hall, Ghost.all, G.order_eq, List.append_assoc G.gone]
    exact hsub.append (List.Sublist.refl _)
  · intro n hn
    rcases List.mem_cons.mp hn with rfl | hn
    · exact h.bound_mark
    · exact h.live_mark n hn
  · rw [List.pairwise_append]
    refine ⟨h.sorted, List.pairwise_singleton _ _, fun x hx y hy => ?_⟩
    rw [List.mem_singleton.mp hy]
    exact h.live_key_lt_tail hx
  · intro n hn hm
    exact List.mem_append_right _ (List.mem_cons.mpr (h.bound_or_live (hp n hn) hm))

/-- The nodes of the chain are those reached from the head. -/
theorem DeletedPrefix.onChain_iff {published : NodeId → Prop} {D V : List NodeId} {b n : NodeId}
    (hp : DeletedPrefix m published D b V) : OnChain m n ↔ n ∈ D ++ b :: V := by
  have htail : tail ∉ D ++ b :: V := fun ht =>
    (List.nodup_append.mp hp.nodup).2.2 tail ht tail List.mem_cons_self rfl
  constructor
  · intro hn
    induction hn with
    | head =>
      have hchain := hp.chain
      cases D with
      | nil => exact hchain.1 ▸ List.mem_cons_self
      | cons x D => exact hchain.1 ▸ List.mem_cons_self
    | next _ hne ih => exact (hp.chain.next_mem ih).resolve_right hne
  · intro hn
    obtain ⟨P, S, hsplit⟩ := List.append_of_mem hn
    have hchain := hp.chain
    rw [hsplit] at hchain htail
    refine onChain_of_seg (seg_append_cons.mp hchain).1 .head (fun ht => htail ?_) n (by simp)
    rw [List.append_cons]
    exact List.mem_append_left _ ht

variable {max_offset : ℤ} {s s' : State} {tr : List (Entry State Tid Event)}

/-- Published nodes are in the list. -/
theorem published_mem_order (hrun : Run (lindenQueue max_offset) tr s) :
    ∃ G, Inv G s ∧ ∀ n, Published tr n → n ∈ G.order := by
  refine hrun.history (I := fun tr s => ∃ G, Inv G s ∧ ∀ n, Published tr n → n ∈ G.order) ?_ ?_
  · intro s h
    refine ⟨_, .initial h, fun n ⟨x, hx, _⟩ => ?_⟩
    cases hx
  · rintro tr s t e s' - ⟨G, hinv, hpub⟩ hstep
    obtain ⟨G', hinv', heff⟩ := hinv.step hstep
    refine ⟨G', hinv', ?_⟩
    rintro n ⟨x, hx, f, hf, he, rfl⟩
    rcases List.mem_cons.mp hx with rfl | hx
    · have hlive := heff.live
      dsimp only at hf he
      rw [he, hf] at hlive
      obtain ⟨⟨p, hspl⟩, -⟩ := hlive
      exact hspl.order_mem.mpr (Or.inl rfl)
    · exact heff.evolve.mem (hpub _ ⟨x, hx, f, hf, he, rfl⟩)

theorem Published.cons {x : Entry State Tid Event} {n : NodeId} (h : Published tr n) :
    Published (x :: tr) n :=
  let ⟨y, hy, hq⟩ := h
  ⟨y, List.mem_cons_of_mem _ hy, hq⟩

theorem Published.mono {tr' : List (Entry State Tid Event)} {n : NodeId} (h : Published tr' n)
    (hsuf : tr' <:+ tr) : Published tr n :=
  let ⟨y, hy, hq⟩ := h
  ⟨y, hsuf.subset hy, hq⟩

/-- One step leaves the marked words of published nodes alone. -/
theorem marked_step {t : Tid} {e : Event} (hrun : Run (lindenQueue max_offset) tr s)
    (hstep : Step max_offset s t e s') {n : NodeId} (hn : n ≠ head) (hp : Published tr n)
    (hm : ((s.sh.mem n).next 0).mark = true) : (s'.sh.mem n).next 0 = (s.sh.mem n).next 0 := by
  obtain ⟨G, hinv, hpub⟩ := published_mem_order hrun
  obtain ⟨G', -, heff⟩ := hinv.step hstep
  exact heff.evolve.marked n (hpub n hp) hn hm

/-- **The deleted nodes form a prefix and the live suffix is strictly sorted**, in every state a run
reaches; and a mark once set on a node other than the head stays, and that pointer with it. -/
theorem deleted_prefix (max_offset : ℤ) {tr : List (Entry State Tid Event)} {s : State}
    (hrun : Run (lindenQueue max_offset) tr s) :
    (∃ D b V, DeletedPrefix s.sh.mem (Published tr) D b V) ∧
    ∀ x tr' n, x :: tr' <:+ tr → n ≠ head → Published tr' n →
      ((x.pre.sh.mem n).next 0).mark = true →
      (s.sh.mem n).next 0 = (x.pre.sh.mem n).next 0 := by
  refine ⟨?_, ?_⟩
  · obtain ⟨G, hinv, hpub⟩ := published_mem_order hrun
    exact hinv.shape.deletedPrefix hpub
  · refine hrun.history (I := fun tr s => ∀ x tr' n, x :: tr' <:+ tr → n ≠ head →
      Published tr' n → ((x.pre.sh.mem n).next 0).mark = true →
      (s.sh.mem n).next 0 = (x.pre.sh.mem n).next 0) ?_ ?_
    · intro _ _ x tr' n hsuf
      exact absurd (List.suffix_nil.mp hsuf) (List.cons_ne_nil _ _)
    · intro tr s t e s' hr ih hst x tr' n hsuf hn hp hm
      rcases List.suffix_cons_iff.mp hsuf with heq | hsuf
      · obtain ⟨rfl, rfl⟩ := List.cons.inj heq
        exact marked_step hr hst hn hp hm
      · -- the word has not changed before this step, so it is still marked
        have hold := ih x tr' n hsuf hn hp hm
        rw [← hold]
        refine marked_step hr hst hn (hp.mono ((List.suffix_cons _ _).trans hsuf)) ?_
        rw [hold]
        exact hm

/-- Two keys are inserted and one is removed again. -/
theorem deleted_prefix_two : ∃ tr s, Run (lindenQueue 0) tr s ∧
    (∃ x ∈ tr, x.ev = .deleteFao 3) ∧
    (∃ D b V, DeletedPrefix s.sh.mem (Published tr) D b V) ∧
    ∀ x tr' n, x :: tr' <:+ tr → n ≠ head → Published tr' n →
      ((x.pre.sh.mem n).next 0).mark = true →
      (s.sh.mem n).next 0 = (x.pre.sh.mem n).next 0 := by
  obtain ⟨tr, s, hrun, hc⟩ := exists_run_of_schedule 0
    (turn 0 (some (.insert 5 2)) 113 ++ turn 0 (some (.insert 6 1)) 110 ++
      turn 0 (some .delete_min) 7)
    (fun c => c.1.any fun x => decide (x.ev = .deleteFao 3)) (by decide +kernel)
  simp only [List.any_eq_true, decide_eq_true_eq] at hc
  exact ⟨tr, s, hrun, hc, deleted_prefix 0 hrun⟩

end ConcurrentPQ.Linden

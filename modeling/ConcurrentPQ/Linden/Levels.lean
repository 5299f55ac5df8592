import ConcurrentPQ.Linden.Reclaim

/-!
# The upper levels of the Linden queue

On the upper levels the queue keeps shortcuts.  As long as every `insert` stores only links that lead
forward, no shortcut of a node on a level leads backward, so following a level from the head ends at
the tail and visits no node twice.

* `OnLevel`, `ShortcutsForward`, `LevelsEnd` — the nodes on a level, and the two properties;
* `shortcuts_forward` — both hold in runs whose steps all meet the condition `StoresAhead`;
* `not_shortcuts_forward` — a run with a shortcut that leads backward.
-/

namespace ConcurrentPQ.Linden

open ConcurrentPQ.Transition ConcurrentPQ.Segment

/-- The nodes reached from the head along `next[i]`. -/
inductive OnLevel (m : Mem) (i : ℕ) : NodeId → Prop
  | head : OnLevel m i head
  | next {n : NodeId} : OnLevel m i n → n ≠ tail → OnLevel m i ((m n).next i).ptr

/-- On the upper levels `next[i]` of a node on the level comes strictly after that node on level 0.
A removed node keeps its `next[0]`, so this order includes the removed nodes. -/
def ShortcutsForward (m : Mem) : Prop :=
  ∀ i, 1 ≤ i → i < NUM_LEVELS → ∀ y, OnLevel m i y → y ≠ head → y ≠ tail →
    Reaches m y ((m y).next i).ptr

/-- On the upper levels the path from the head visits no node twice and ends at the tail. -/
def LevelsEnd (m : Mem) : Prop :=
  ∀ i, 1 ≤ i → i < NUM_LEVELS →
    ∃ l, Seg (fun n => ((m n).next i).ptr) head l tail ∧ l.Nodup ∧ tail ∉ l

variable {m : Mem} {brk : NodeId} {G : Ghost} {i : ℕ} {n : NodeId} {s : State}

theorem OnLevel.onPath (h : OnLevel m i n) (hi : i < NUM_LEVELS) : OnPath m n i := by
  induction h with
  | head => exact .head hi
  | next _ hne ih => exact .next ih hne

/-- The whole level-0 order, or the part of it behind the head, is a segment. -/
theorem Shape.exists_order_seg (hs : Shape m brk G) :
    ∃ a l, Seg (succ0 m) a l tail ∧ (G.order = l ∨ G.order = head :: l) := by
  have hlive : Seg (succ0 m) G.bound (G.bound :: G.live) tail := ⟨rfl, hs.live_seg⟩
  rcases hs.dead_shape with ⟨hd, hb⟩ | ⟨D, a, hd, hseg, -⟩
  · exact ⟨_, _, hlive, Or.inl (by simp [Ghost.order, hd])⟩
  · exact ⟨a, D ++ G.bound :: G.live, seg_append.mpr ⟨_, hseg, hlive⟩,
      Or.inr (by simp [Ghost.order, hd])⟩

/-- What stands behind a node on level 0 is reached from it. -/
theorem Shape.reaches (hs : Shape m brk G) {a b : NodeId} (h : Before G.all a b) (hne : a ≠ head) :
    Reaches m a b := by
  obtain ⟨x, l, hseg, hl⟩ := hs.exists_order_seg
  have hsub : ∀ y ∈ l, y ∈ G.order := by
    intro y hy
    rcases hl with hl | hl
    · exact hl ▸ hy
    · exact hl ▸ List.mem_cons_of_mem _ hy
  have hb : Before (l ++ [tail]) a b := by
    rcases hl with hl | hl
    · rw [Ghost.all, hl] at h
      exact h
    · rw [Ghost.all, hl, List.cons_append] at h
      cases h with
      | cons _ h => exact h
      | cons_cons _ _ => exact absurd rfl hne
  exact Relation.TransGen.mono (fun u v huv => ⟨hs.ne_tail (hsub u huv.1), huv.2⟩) _ _
    (hseg.trans_of_before hb)

/-- An upper link of a node on the level leads forward. -/
theorem Forward.before (hfw : Forward m G) (hs : Shape m brk G) (hi : 1 ≤ i) (hl : i < NUM_LEVELS)
    (hn : OnLevel m i n) (ht : n ≠ tail) : Before G.all n ((m n).next i).ptr := by
  have hsrc := ((hn.onPath hl).source hs).resolve_left ht
  have htgt := hs.load_target hsrc
  by_cases hh : n = head
  · subst hh
    refine hs.head_before ?_ ?_
    · rcases htgt with h | h
      · exact G.mem_all.mpr (Or.inr h)
      · exact G.order_mem_all h.2.mem
    · rcases htgt with h | h
      · rw [h]
        decide
      · exact h.1
  · exact hfw n hsrc.mem hh i hi hsrc.lt (hsrc.nonnull i le_rfl)

theorem Forward.shortcuts (hfw : Forward m G) (hs : Shape m brk G) : ShortcutsForward m :=
  fun _ hi hl _ hy hh ht => hs.reaches (hfw.before hs hi hl hy ht) hh

theorem Forward.levelsEnd (hfw : Forward m G) (hs : Shape m brk G) : LevelsEnd m := by
  intro i hi hl
  obtain ⟨l, hseg, hnd, ht, -⟩ := exists_seg (f := fun n => ((m n).next i).ptr)
    (p := OnLevel m i) (e := tail) hs.nodup
    (fun x _ hx hne => ⟨hx.next hne, hfw.before hs hi hl hx hne⟩)
    (G.order_mem_all hs.head_mem) .head
  exact ⟨l, hseg, hnd, ht⟩

/-- **Shortcuts never lead backward.**  In a run in which every `insert` stores only links that lead
forward, every upper link on a level leads forward in every state reached, and every level ends at the
tail. -/
theorem shortcuts_forward (max_offset : ℤ) {tr : List (Entry State Tid Event)}
    (hrun : Run (lindenQueue max_offset) tr s) (hc : ∀ x ∈ tr, StoresAhead x) :
    ShortcutsForward s.sh.mem ∧ LevelsEnd s.sh.mem := by
  obtain ⟨G, h⟩ := AheadInv.of_run hrun hc
  exact ⟨h.forward.shortcuts h.inv.shape, h.forward.levelsEnd h.inv.shape⟩

theorem shortcuts_forward_two : ∃ tr s, Run (lindenQueue 0) tr s ∧ (∃ x ∈ tr, x.ev = .freed 3) ∧
    ShortcutsForward s.sh.mem ∧ LevelsEnd s.sh.mem := by
  obtain ⟨tr, s, hrun, hfreed, hc⟩ := exists_storesAhead
  exact ⟨tr, s, hrun, hfreed, shortcuts_forward 0 hrun hc⟩

/-- On level 2 the node of 8 leads back to the node of 10, which was deleted before 8 came in. -/
theorem not_shortcuts_forward : ¬∀ (max_offset : ℤ) (tr : List (Entry State Tid Event)) (s : State),
    Run (lindenQueue max_offset) tr s → ShortcutsForward s.sh.mem := by
  intro hall
  obtain ⟨tr, s, hrun, hbad⟩ := exists_run_of_schedule 0 _ _ execute_backLink
  simp only [Bool.and_eq_true, decide_eq_true_eq] at hbad
  obtain ⟨⟨⟨⟨-, h7⟩, h5⟩, h4⟩, h2⟩ := hbad
  have hon : OnLevel s.sh.mem 2 7 := h7 ▸ .next .head (by decide)
  have hback := hall 0 tr s hrun 2 (by decide) (by decide) 7 hon (by decide) (by decide)
  rw [h5] at hback
  -- behind node 7 there are only node 4 and the tail
  have hbehind : ∀ b, Reaches s.sh.mem 7 b → b = 4 ∨ b = tail := by
    intro b hb
    induction hb with
    | single hb => exact Or.inl (hb.2.symm.trans h4)
    | tail _ hb ih =>
      rcases ih with rfl | rfl
      · exact Or.inr (hb.2.symm.trans h2)
      · exact absurd rfl hb.1
  rcases hbehind 5 hback with h | h <;> cases h

end ConcurrentPQ.Linden

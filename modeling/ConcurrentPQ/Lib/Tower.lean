import ConcurrentPQ.Lib.Segment

/-!
# Towers of linked lists

A skiplist keeps its nodes on several levels.  `h n` is the number of levels on which node `n` is
linked, and on each level the nodes that reach it form a linked list in the common order.

* `onLevel`, `Tower` — the nodes that reach a level, and the lists on all levels;
* `exists_last` — the last node of a list that reaches a level;
* `Tower.split` — a level seen from one of its nodes;
* `Tower.place`, `Tower.raise` — a node enters the order, and is linked in on one more level;
* `Tower.drop` — a run of nodes behind the first is cut out on every level;
* `first_le_first` — the first node of a level does not stand before that of the level below.
-/

namespace ConcurrentPQ.Segment

variable {α : Type*} {succ succ' : ℕ → α → α} {h : α → ℕ} {N i j : ℕ} {a b x p n : α}
  {l A R P S D Y : List α}

/-- The nodes of a list that reach level `i`. -/
def onLevel (h : α → ℕ) (i : ℕ) (l : List α) : List α := l.filter fun n => i < h n

/-- On every level the nodes that reach it are linked in the order of `l`. -/
def Tower (succ : ℕ → α → α) (h : α → ℕ) (N : ℕ) (a : α) (l : List α) (b : α) : Prop :=
  ∀ i, i < N → Seg (succ i) a (onLevel h i l) b

@[simp] theorem onLevel_nil : onLevel h i ([] : List α) = [] := rfl

@[simp] theorem onLevel_append : onLevel h i (P ++ S) = onLevel h i P ++ onLevel h i S :=
  List.filter_append ..

theorem onLevel_cons_of_lt (hx : i < h x) : onLevel h i (x :: l) = x :: onLevel h i l :=
  List.filter_cons_of_pos (by simpa using hx)

theorem onLevel_cons_of_le (hx : h x ≤ i) : onLevel h i (x :: l) = onLevel h i l :=
  List.filter_cons_of_neg (by simpa using hx)

theorem mem_onLevel : x ∈ onLevel h i l ↔ x ∈ l ∧ i < h x := by
  simp [onLevel]

theorem onLevel_eq_self (hl : ∀ x ∈ l, i < h x) : onLevel h i l = l :=
  List.filter_eq_self.mpr fun x hx => by simpa using hl x hx

theorem onLevel_congr {h' : α → ℕ} (hl : ∀ x ∈ l, (i < h x ↔ i < h' x)) :
    onLevel h i l = onLevel h' i l :=
  List.filter_congr fun x hx => by simpa using hl x hx

/-- The last node that reaches a level, from a node that does. -/
theorem exists_last (hx : i < h x) :
    ∃ W p S', x :: S = W ++ p :: S' ∧ i < h p ∧ onLevel h i S' = [] := by
  induction S generalizing x with
  | nil => exact ⟨[], x, [], rfl, hx, rfl⟩
  | cons y S ih =>
    by_cases hy : i < h y
    · obtain ⟨W, p, S', heq, hp, hS⟩ := ih hy
      exact ⟨x :: W, p, S', by rw [heq, List.cons_append], hp, hS⟩
    · by_cases hS : onLevel h i S = []
      · exact ⟨[], x, y :: S, rfl, hx, by rw [onLevel_cons_of_le (not_lt.mp hy), hS]⟩
      · -- some later node reaches the level; go on from there
        obtain ⟨z, hz⟩ := List.exists_mem_of_ne_nil _ hS
        obtain ⟨W, p, S', heq, hp, hS'⟩ := ih (x := x) hx
        cases W with
        | nil =>
          obtain ⟨rfl, rfl⟩ := List.cons.inj heq
          exact absurd hS' hS
        | cons w W =>
          obtain ⟨rfl, rfl⟩ := List.cons.inj heq
          exact ⟨x :: y :: W, p, S', rfl, hp, hS'⟩

/-- A level seen from one of its nodes. -/
theorem Tower.split (ht : Tower succ h N a (P ++ x :: S) b) (hi : i < N) (hx : i < h x) :
    Seg (succ i) a (onLevel h i P) x ∧ Seg (succ i) (succ i x) (onLevel h i S) b := by
  have hseg := ht i hi
  rw [onLevel_append, onLevel_cons_of_lt hx] at hseg
  exact seg_append_cons.mp hseg

theorem Tower.congr (ht : Tower succ h N a l b) (hs : ∀ i x, i < N → x ∈ l → succ i x = succ' i x) :
    Tower succ' h N a l b := fun i hi =>
  (ht i hi).congr fun x hx => hs i x hi (mem_onLevel.mp hx).1

section Insert

variable [DecidableEq α]

/-- A node takes its place in the order before it is linked in anywhere. -/
theorem Tower.place (ht : Tower succ h N a (A ++ R) b) (hn : n ∉ A ++ R) :
    Tower succ (Function.update h n 0) N a (A ++ n :: R) b := by
  intro i hi
  have hsame : ∀ l : List α, n ∉ l → onLevel (Function.update h n 0) i l = onLevel h i l :=
    fun l hl => onLevel_congr fun x hx => by
      rw [Function.update_of_ne fun he : x = n => hl (he ▸ hx)]
  rw [List.mem_append, not_or] at hn
  have hseg := ht i hi
  rw [onLevel_append, onLevel_cons_of_le (by simp), hsame A hn.1, hsame R hn.2]
  rwa [onLevel_append] at hseg

/-- A node is linked in on one more level, behind the last node before it that reaches the level. -/
theorem Tower.raise (ht : Tower succ h N a (P ++ p :: S ++ n :: R) b) (hi : i < N) (hp : i < h p)
    (hS : onLevel h i S = []) (hn : n ∉ P ++ p :: S ++ R) (hh : h n = i)
    (hpn : succ' i p = n) (hnp : succ' i n = succ i p)
    (hsame : ∀ j x, x ∈ P ++ p :: S ++ n :: R → (j ≠ i ∨ (x ≠ p ∧ x ≠ n)) →
      succ' j x = succ j x) (hnd : (P ++ p :: S ++ n :: R).Nodup) :
    Tower succ' (Function.update h n (i + 1)) N a (P ++ p :: S ++ n :: R) b := by
  have hother : ∀ (j : ℕ) (l : List α), n ∉ l →
      onLevel (Function.update h n (i + 1)) j l = onLevel h j l := fun j l hl =>
    onLevel_congr fun x hx => by rw [Function.update_of_ne fun he : x = n => hl (he ▸ hx)]
  intro j hj
  by_cases hji : j = i
  · subst hji
    simp only [List.mem_append, List.mem_cons, not_or] at hn
    have hseg := ht j hj
    rw [onLevel_append, onLevel_append, onLevel_cons_of_lt hp, hS, onLevel_cons_of_le hh.le,
      List.append_assoc, List.singleton_append] at hseg
    have hn' : n ∉ P ++ p :: S := by
      simp only [List.mem_append, List.mem_cons, not_or]
      exact hn.1
    rw [onLevel_append, hother j _ hn', onLevel_append, onLevel_cons_of_lt hp, hS,
      onLevel_cons_of_lt (by simp), hother j R hn.2, List.append_assoc, List.singleton_append]
    refine hseg.splice hpn hnp fun x hx => (hsame j x ?_ (Or.inr ⟨?_, ?_⟩)).symm
    · rcases List.mem_append.mp hx with hx | hx
      · exact List.mem_append_left _ (List.mem_append_left _ (mem_onLevel.mp hx).1)
      · exact List.mem_append_right _ (List.mem_cons_of_mem _ (mem_onLevel.mp hx).1)
    · rintro rfl
      rw [List.append_assoc, List.cons_append, List.nodup_middle, List.nodup_cons] at hnd
      refine hnd.1 ?_
      rcases List.mem_append.mp hx with hx | hx
      · exact List.mem_append_left _ (mem_onLevel.mp hx).1
      · exact List.mem_append_right _ (List.mem_append_right _
          (List.mem_cons_of_mem _ (mem_onLevel.mp hx).1))
    · rintro rfl
      rcases List.mem_append.mp hx with hx | hx
      · exact hn.1.1 (mem_onLevel.mp hx).1
      · exact hn.2 (mem_onLevel.mp hx).1
  · have hlevel : onLevel (Function.update h n (i + 1)) j (P ++ p :: S ++ n :: R) =
        onLevel h j (P ++ p :: S ++ n :: R) := by
      refine onLevel_congr fun x _ => ?_
      by_cases hx : x = n
      · subst hx
        rw [Function.update_self, hh]
        omega
      · rw [Function.update_of_ne hx]
    rw [hlevel]
    exact (ht j hj).congr fun x hx => (hsame j x (mem_onLevel.mp hx).1 (Or.inl hji)).symm

end Insert

/-- The nodes of `D` are cut out on every level: the first node points to the first of the remaining
nodes. -/
theorem Tower.drop (ht : Tower succ h N a (a :: D ++ Y) b) (ha : N ≤ h a)
    (hfirst : ∀ i, i < N → ∀ m, Seg (succ i) m (onLevel h i Y) b → succ' i a = m ∨
      ¬Seg (succ i) a (onLevel h i (a :: D)) m)
    (hsame : ∀ i x, x ∈ Y → succ' i x = succ i x) :
    Tower succ' h N a (a :: Y) b := by
  intro i hi
  have hseg := ht i hi
  rw [onLevel_append] at hseg
  obtain ⟨m, hm, hY⟩ := seg_append.mp hseg
  rw [onLevel_cons_of_lt (lt_of_lt_of_le hi ha)]
  refine ⟨rfl, ?_⟩
  rw [(hfirst i hi m hY).resolve_right (not_not.mpr hm)]
  exact hY.congr fun x hx => (hsame i x (mem_onLevel.mp hx).1).symm

/-- The first node of a level stands at or behind the first node of the level below. -/
theorem first_le_first {m m' : α} (hm : Seg (succ i) m (onLevel h i Y) b)
    (hm' : Seg (succ (i + 1)) m' (onLevel h (i + 1) Y) b) : Le (Y ++ [b]) m m' := by
  induction Y with
  | nil => exact Or.inl (hm.trans hm'.symm)
  | cons y Y ih =>
    rcases lt_or_ge (i + 1) (h y) with hy | hy
    · rw [onLevel_cons_of_lt hy] at hm'
      rw [onLevel_cons_of_lt (by omega)] at hm
      exact Or.inl (hm.1.trans hm'.1.symm)
    · rw [onLevel_cons_of_le hy] at hm'
      rcases lt_or_ge i (h y) with hy' | hy'
      · rw [onLevel_cons_of_lt hy'] at hm
        rw [hm.1]
        refine Or.inr (before_cons ?_)
        cases hl : onLevel h (i + 1) Y with
        | nil => rw [hl] at hm'; rw [show m' = b from hm']; simp
        | cons z l =>
          rw [hl] at hm'
          have hz : z ∈ onLevel h (i + 1) Y := hl ▸ List.mem_cons_self
          rw [hm'.1]
          exact List.mem_append_left _ (mem_onLevel.mp hz).1
      · rw [onLevel_cons_of_le hy'] at hm
        exact (ih hm hm').mono (List.sublist_cons_self _ _)

end ConcurrentPQ.Segment

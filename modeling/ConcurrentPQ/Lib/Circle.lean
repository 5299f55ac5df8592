import ConcurrentPQ.Lib.Segment
import Mathlib.Data.List.Rotate

/-!
# Circular lists

A circular list of a successor map `f` is the list of its elements from any of them on: `Circ f l` says
that `f` leads from each element of `l` to the next one and from the last to the first.

* `circ_append_comm`, `circ_of_isRotated` — a circle may be read from any element;
* `exchange` — two elements exchange their successors: `circ_exchange` joins the circles of the two, or
  cuts their circle in two;
* `ringFrom` — consecutive numbers in a circle;
* `Rings` — a family of circles that have no element in common, `Rings.change` the rule for a change
  of two of them, `Rings.extend` for a fresh one.
-/

namespace ConcurrentPQ.Circle

open ConcurrentPQ.Segment

section Circ

variable {α : Type*} {f g : α → α} {a b : α} {l l₁ l₂ : List α}

/-- The elements of a circle of `f`, in their order. -/
def Circ (f : α → α) (l : List α) : Prop := ∀ a ∈ l.head?, Seg f a l a

@[simp] theorem circ_nil : Circ f [] := by simp [Circ]

theorem circ_cons : Circ f (a :: l) ↔ Seg f (f a) l a := by simp [Circ]

theorem circ_singleton : Circ f [a] ↔ f a = a := by simp [circ_cons]

/-- The elements of a circle of two runs. -/
theorem circ_cons_append_cons :
    Circ f (a :: (l₁ ++ b :: l₂)) ↔ Seg f (f a) l₁ b ∧ Seg f (f b) l₂ a := by
  rw [circ_cons, seg_append_cons]

/-- A circle has no beginning. -/
theorem circ_append_comm : Circ f (l₁ ++ l₂) ↔ Circ f (l₂ ++ l₁) := by
  cases l₁ with
  | nil => rw [List.nil_append, List.append_nil]
  | cons a l₁ =>
    cases l₂ with
    | nil => rw [List.nil_append, List.append_nil]
    | cons b l₂ =>
      rw [List.cons_append, List.cons_append, circ_cons_append_cons, circ_cons_append_cons]
      exact and_comm

theorem circ_of_isRotated (h : l₁ ~r l₂) : Circ f l₁ ↔ Circ f l₂ := by
  obtain ⟨n, rfl⟩ := h
  rw [List.rotate_eq_drop_append_take_mod, circ_append_comm, List.take_append_drop]

theorem Circ.congr (h : Circ f l) (hfg : ∀ x ∈ l, f x = g x) : Circ g l :=
  fun a ha => (h a ha).congr hfg

theorem exists_iterate_of_seg (h : Seg f a l b) {x : α} (hx : x ∈ l) : ∃ n, f^[n] a = x := by
  induction l generalizing a with
  | nil => cases hx
  | cons c l ih =>
    obtain ⟨rfl, h⟩ := h
    cases hx with
    | head => exact ⟨0, rfl⟩
    | tail _ hx =>
      obtain ⟨n, hn⟩ := ih h hx
      exact ⟨n + 1, hn⟩

/-- All of a circle is reached from each of its elements. -/
theorem Circ.exists_iterate (h : Circ f (a :: l)) {x : α} (hx : x ∈ a :: l) : ∃ n, f^[n] a = x :=
  exists_iterate_of_seg (h a rfl) hx

/-- An element that leads to itself is a circle of its own. -/
theorem Circ.eq_nil (h : Circ f (a :: l)) (ha : f a = a) (hnodup : (a :: l).Nodup) : l = [] := by
  cases l with
  | nil => rfl
  | cons b l =>
    have hb : f a = b := (circ_cons.mp h).1
    exact absurd (by rw [← ha, hb]; exact List.mem_cons_self) (List.nodup_cons.mp hnodup).1

/-- A circle is not left. -/
theorem Circ.next_mem (h : Circ f l) (ha : a ∈ l) : f a ∈ l := by
  cases l with
  | nil => cases ha
  | cons b l =>
    cases (h b rfl).next_mem ha with
    | inl hm => exact hm
    | inr he =>
      rw [he]
      exact List.mem_cons_self

theorem Circ.iterate_mem (h : Circ f l) (ha : a ∈ l) (n : ℕ) : f^[n] a ∈ l := by
  induction n generalizing a with
  | zero => exact ha
  | succ n ih => exact ih (h.next_mem ha)

end Circ

section Update

variable {α : Type*} [DecidableEq α] {f : α → α} {a b z : α} {l : List α}

/-- **A run is closed.** -/
theorem circ_close (h : Seg f a l z) (hnodup : (l ++ [z]).Nodup) : Circ (Function.update f z a) (l ++ [z]) := by
  cases l with
  | nil =>
    have ha : a = z := h
    exact circ_singleton.mpr ((Function.update_self _ _ _).trans ha)
  | cons b l =>
    obtain ⟨rfl, h⟩ := h
    rw [List.cons_append, List.nodup_cons, List.nodup_append] at hnodup
    have hne : a ≠ z := fun he => hnodup.1 (List.mem_append_right _ (by rw [he]; exact List.mem_cons_self))
    have hz : z ∉ l := fun hm => hnodup.2.2.2 z hm z List.mem_cons_self rfl
    rw [List.cons_append, circ_cons, seg_concat, Function.update_self, Function.update_of_ne hne]
    exact ⟨h.update_of_notMem hz, rfl⟩

/-- A circle is closed behind its first element. -/
theorem Circ.close_tail (h : Circ f (a :: b :: l)) (hz : (b :: l).getLast? = some z) (hnodup : (b :: l).Nodup) :
    Circ (Function.update f z b) (b :: l) := by
  obtain ⟨m, hm⟩ := List.getLast?_eq_some_iff.mp hz
  have hseg : Seg f b (b :: l) a := ⟨rfl, (circ_cons.mp h).2⟩
  rw [hm] at hseg hnodup ⊢
  exact circ_close (seg_concat.mp hseg).1 hnodup

/-- The second element of a circle is taken out. -/
theorem Circ.unlink (h : Circ f (a :: b :: l)) (hnodup : (a :: b :: l).Nodup) :
    Circ (Function.update f a (f b)) (a :: l) := by
  have hnot : a ∉ l := fun hm => (List.nodup_cons.mp hnodup).1 (List.mem_cons_of_mem _ hm)
  rw [circ_cons, Function.update_self]
  exact (circ_cons.mp h).2.update_of_notMem hnot

/-- A new first element, which already leads to the old one. -/
theorem Circ.link (h : Circ f (b :: l)) (hz : (b :: l).getLast? = some z) (ha : f a = b)
    (hnodup : (a :: b :: l).Nodup) : Circ (Function.update f z a) (a :: b :: l) := by
  obtain ⟨m, hm⟩ := List.getLast?_eq_some_iff.mp hz
  have hseg : Seg f (f a) (b :: l) b := ha ▸ h b rfl
  rw [hm] at hseg hnodup ⊢
  exact circ_close (l := a :: m) ⟨rfl, (seg_concat.mp hseg).1⟩ hnodup

end Update

/-- Two circles and the circle of both have the same elements. -/
theorem perm_exchange {α : Type*} {a b : α} {x y : List α} :
    (a :: (y ++ b :: x)).Perm (a :: x ++ b :: y) := by
  refine List.Perm.cons a ?_
  calc (y ++ b :: x).Perm (b :: (y ++ x)) := List.perm_middle
    List.Perm _ (b :: (x ++ y)) := List.Perm.cons b List.perm_append_comm
    List.Perm _ (x ++ b :: y) := List.perm_middle.symm

section Exchange

variable {α : Type*} [DecidableEq α] {f : α → α} {a b c : α} {x y : List α}

/-- `a` and `b` exchange their successors. -/
def exchange (f : α → α) (a b : α) : α → α :=
  Function.update (Function.update f a (f b)) b (f a)

@[simp] theorem exchange_right : exchange f a b b = f a := Function.update_self _ _ _

@[simp] theorem exchange_left : exchange f a b a = f b := by
  rw [exchange, Function.update_apply]
  split
  · next he => rw [he]
  · exact Function.update_self _ _ _

theorem exchange_of_ne (ha : c ≠ a) (hb : c ≠ b) : exchange f a b c = f c := by
  rw [exchange, Function.update_of_ne hb, Function.update_of_ne ha]

theorem exchange_comm : exchange f a b = exchange f b a := by
  funext c
  by_cases ha : c = a
  · rw [ha, exchange_left, exchange_right]
  · by_cases hb : c = b
    · rw [hb, exchange_left, exchange_right]
    · rw [exchange_of_ne ha hb, exchange_of_ne hb ha]

theorem exchange_exchange : exchange (exchange f a b) a b = f := by
  funext c
  by_cases hb : c = b
  · rw [hb, exchange_right, exchange_left]
  · by_cases ha : c = a
    · rw [ha, exchange_left, exchange_right]
    · rw [exchange_of_ne ha hb, exchange_of_ne ha hb]

theorem exchange_congr (hx : a ∉ x) (hy : b ∉ x) : ∀ c ∈ x, f c = exchange f a b c := by
  intro c hc
  refine (exchange_of_ne ?_ ?_).symm
  · exact fun he => hx (he ▸ hc)
  · exact fun he => hy (he ▸ hc)

/-- **Joining and cutting.** -/
theorem circ_exchange (h : (a :: (y ++ b :: x)).Nodup) :
    Circ (exchange f a b) (a :: (y ++ b :: x)) ↔ Circ f (a :: x) ∧ Circ f (b :: y) := by
  simp only [List.nodup_cons, List.nodup_append, List.mem_append, List.mem_cons] at h
  obtain ⟨ha, hy, ⟨hb, hx⟩, hxy⟩ := h
  have hax : a ∉ x := fun hm => ha (Or.inr (Or.inr hm))
  have hay : a ∉ y := fun hm => ha (Or.inl hm)
  have hby : b ∉ y := fun hm => hxy b hm b (Or.inl rfl) rfl
  have hfx := exchange_congr (f := f) hax hb
  have hfy := exchange_congr (f := f) hay hby
  rw [circ_cons_append_cons, circ_cons, circ_cons, exchange_left, exchange_right]
  constructor
  · intro h
    exact ⟨h.2.congr fun c hc => (hfx c hc).symm, h.1.congr fun c hc => (hfy c hc).symm⟩
  · intro h
    exact ⟨h.2.congr hfy, h.1.congr hfx⟩

/-- Cutting a circle in two. -/
theorem Circ.cut (h : Circ f (a :: (y ++ b :: x))) (hnodup : (a :: (y ++ b :: x)).Nodup) :
    Circ (exchange f a b) (a :: x) ∧ Circ (exchange f a b) (b :: y) := by
  rw [← circ_exchange hnodup, exchange_exchange]
  exact h

end Exchange

/-! ### Numbers in a circle -/

section Numbers

variable {f : ℕ → ℕ} {m n j : ℕ}

/-- The map `f` with a circle of the numbers from `m` to `m + n - 1`. -/
def ringFrom (f : ℕ → ℕ) (m n : ℕ) : ℕ → ℕ := fun c =>
  if m ≤ c ∧ c < m + n then if c + 1 = m + n then m else c + 1 else f c

theorem ringFrom_of_notMem {c : ℕ} (h : c ∉ List.range' m n) : ringFrom f m n c = f c :=
  if_neg fun hc => h (List.mem_range'_1.mpr hc)

theorem seg_ringFrom (h : j + n + 1 = m) (a : ℕ) :
    Seg (ringFrom f a m) (a + j) (List.range' (a + j) (n + 1)) a := by
  induction n generalizing j with
  | zero =>
    have hin : a ≤ a + j ∧ a + j < a + m := by omega
    have hlast : a + j + 1 = a + m := by omega
    exact ⟨rfl, (if_pos hin).trans (if_pos hlast)⟩
  | succ n ih =>
    have hin : a ≤ a + j ∧ a + j < a + m := by omega
    have hlast : a + j + 1 ≠ a + m := by omega
    have hnext : ringFrom f a m (a + j) = a + (j + 1) := (if_pos hin).trans (if_neg hlast)
    refine ⟨rfl, ?_⟩
    rw [hnext]
    exact ih (by omega)

theorem circ_ringFrom : Circ (ringFrom f m n) (List.range' m n) := by
  cases n with
  | zero => exact circ_nil
  | succ n =>
    intro a ha
    cases ha
    exact seg_ringFrom (j := 0) (by omega) m

end Numbers

/-! ### Families of circles -/

section Rings

variable {α ι : Type*} {f g : α → α} {L : ι → List α} {p q : ι} {lp lq : List α}

/-- Circles without a common element. -/
structure Rings (f : α → α) (L : ι → List α) : Prop where
  circ : ∀ p, Circ f (L p)
  nodup : ∀ p, (L p).Nodup
  apart : ∀ p q x, x ∈ L p → x ∈ L q → p = q

variable [DecidableEq ι]

/-- The family with two other lists. -/
def regroup (L : ι → List α) (p q : ι) (lp lq : List α) : ι → List α :=
  Function.update (Function.update L p lp) q lq

@[simp] theorem regroup_right : regroup L p q lp lq q = lq := Function.update_self _ _ _

theorem regroup_left (h : p ≠ q) : regroup L p q lp lq p = lp := by
  rw [regroup, Function.update_of_ne h, Function.update_self]

theorem regroup_of_ne {r : ι} (hp : r ≠ p) (hq : r ≠ q) : regroup L p q lp lq r = L r := by
  rw [regroup, Function.update_of_ne hq, Function.update_of_ne hp]

/-- A property of the lists of a family that two of them have anew. -/
theorem forall_regroup {P : ι → List α → Prop} (h : ∀ r, P r (L r)) (hp : P p lp) (hq : P q lq)
    (r : ι) : P r (regroup L p q lp lq r) := by
  by_cases hrq : r = q
  · rw [hrq, regroup_right]
    exact hq
  · by_cases hrp : r = p
    · have hne : p ≠ q := fun he => hrq (hrp.trans he)
      rw [hrp, regroup_left hne]
      exact hp
    · rw [regroup_of_ne hrp hrq]
      exact h r

theorem mem_regroup (hpq : p ≠ q) (hperm : (lp ++ lq).Perm (L p ++ L q)) {r : ι} {x : α}
    (h : x ∈ regroup L p q lp lq r) : x ∈ L r ∨ ((r = p ∨ r = q) ∧ (x ∈ L p ∨ x ∈ L q)) := by
  have hmem : x ∈ lp ∨ x ∈ lq ↔ x ∈ L p ∨ x ∈ L q := by
    rw [← List.mem_append, ← List.mem_append]
    exact hperm.mem_iff
  by_cases hrq : r = q
  · rw [hrq, regroup_right] at h
    exact Or.inr ⟨Or.inr hrq, hmem.mp (Or.inr h)⟩
  · by_cases hrp : r = p
    · rw [hrp, regroup_left hpq] at h
      exact Or.inr ⟨Or.inl hrp, hmem.mp (Or.inl h)⟩
    · rw [regroup_of_ne hrp hrq] at h
      exact Or.inl h

/-- No element is lost. -/
theorem exists_mem_regroup (hpq : p ≠ q) (hperm : (lp ++ lq).Perm (L p ++ L q)) {r : ι} {x : α}
    (h : x ∈ L r) : ∃ r', x ∈ regroup L p q lp lq r' := by
  by_cases hr : r = p ∨ r = q
  · have hx : x ∈ lp ++ lq := by
      rw [hperm.mem_iff, List.mem_append]
      cases hr with
      | inl he => exact Or.inl (he ▸ h)
      | inr he => exact Or.inr (he ▸ h)
    cases List.mem_append.mp hx with
    | inl hm => exact ⟨p, by rw [regroup_left hpq]; exact hm⟩
    | inr hm => exact ⟨q, by rw [regroup_right]; exact hm⟩
  · rw [not_or] at hr
    exact ⟨r, by rw [regroup_of_ne hr.1 hr.2]; exact h⟩

/-- If two lists exchange elements, the family stays without a common element. -/
theorem regroup_apart (hapart : ∀ p q x, x ∈ L p → x ∈ L q → p = q) (hnodup : ∀ p, (L p).Nodup)
    (hpq : p ≠ q) (hperm : (lp ++ lq).Perm (L p ++ L q)) {r r' : ι} {x : α}
    (hr : x ∈ regroup L p q lp lq r) (hr' : x ∈ regroup L p q lp lq r') : r = r' := by
  have hboth : x ∈ lp → x ∈ lq → False := by
    have hdis : (lp ++ lq).Nodup := by
      rw [hperm.nodup_iff, List.nodup_append]
      exact ⟨hnodup p, hnodup q, fun x hx y hy he => hpq (hapart p q x hx (he ▸ hy))⟩
    exact fun h₁ h₂ => (List.nodup_append.mp hdis).2.2 x h₁ x h₂ rfl
  have hin : ∀ r, (r = p ∨ r = q) → x ∈ regroup L p q lp lq r → x ∈ L p ∨ x ∈ L q := by
    intro r hr hm
    cases mem_regroup hpq hperm hm with
    | inr hx => exact hx.2
    | inl hx =>
      cases hr with
      | inl he => exact Or.inl (he ▸ hx)
      | inr he => exact Or.inr (he ▸ hx)
  have hout : ∀ r, ¬(r = p ∨ r = q) → x ∈ regroup L p q lp lq r →
      x ∈ L r ∧ ¬(x ∈ L p ∨ x ∈ L q) := by
    intro r hr hm
    have hmr : x ∈ L r := (mem_regroup hpq hperm hm).resolve_right fun hx => hr hx.1
    refine ⟨hmr, fun hor => hr ?_⟩
    exact hor.imp (fun hm => hapart r p x hmr hm) (fun hm => hapart r q x hmr hm)
  by_cases hr₁ : r = p ∨ r = q
  · by_cases hr₂ : r' = p ∨ r' = q
    · rcases hr₁ with rfl | rfl
      · rcases hr₂ with rfl | rfl
        · rfl
        · rw [regroup_left hpq] at hr
          rw [regroup_right] at hr'
          exact (hboth hr hr').elim
      · rcases hr₂ with rfl | rfl
        · rw [regroup_left hpq] at hr'
          rw [regroup_right] at hr
          exact (hboth hr' hr).elim
        · rfl
    · exact absurd (hin r hr₁ hr) (hout r' hr₂ hr').2
  · by_cases hr₂ : r' = p ∨ r' = q
    · exact absurd (hin r' hr₂ hr') (hout r hr₁ hr).2
    · exact hapart r r' x (hout r hr₁ hr).1 (hout r' hr₂ hr').1

/-- **Two circles change**: together they keep their elements, and the others are not touched. -/
theorem Rings.change (h : Rings f L) (hpq : p ≠ q) (hperm : (lp ++ lq).Perm (L p ++ L q))
    (hp : Circ g lp) (hq : Circ g lq) (hfg : ∀ x, x ∉ L p → x ∉ L q → f x = g x) :
    Rings g (regroup L p q lp lq) := by
  have hnodup : (lp ++ lq).Nodup := by
    rw [hperm.nodup_iff, List.nodup_append]
    exact ⟨h.nodup p, h.nodup q, fun x hx y hy he => hpq (h.apart p q x hx (he ▸ hy))⟩
  rw [List.nodup_append] at hnodup
  refine ⟨fun r => ?_, forall_regroup (P := fun _ l => l.Nodup) h.nodup hnodup.1 hnodup.2.1,
    fun r r' x hr hr' => regroup_apart h.apart h.nodup hpq hperm hr hr'⟩
  by_cases hrq : r = q
  · rw [hrq, regroup_right]
    exact hq
  · by_cases hrp : r = p
    · rw [hrp, regroup_left hpq]
      exact hp
    · rw [regroup_of_ne hrp hrq]
      refine (h.circ r).congr fun x hx => hfg x (fun hm => ?_) (fun hm => ?_)
      · exact hrp (h.apart r p x hx hm)
      · exact hrq (h.apart r q x hx hm)

/-- A circle of new elements where there was none. -/
theorem Rings.extend (h : Rings f L) (hq : L q = []) (hlq : Circ g lq) (hnodup : lq.Nodup)
    (hnew : ∀ r, ∀ x ∈ L r, x ∉ lq) (hfg : ∀ x, x ∉ lq → f x = g x) :
    Rings g (Function.update L q lq) := by
  have hmem : ∀ r x, x ∈ Function.update L q lq r → (r = q ∧ x ∈ lq) ∨ (r ≠ q ∧ x ∈ L r) := by
    intro r x hm
    rw [Function.update_apply] at hm
    split at hm
    · next hr => exact Or.inl ⟨hr, hm⟩
    · next hr => exact Or.inr ⟨hr, hm⟩
  refine ⟨fun r => ?_, fun r => ?_, fun r r' x hr hr' => ?_⟩
  · rw [Function.update_apply]
    split
    · exact hlq
    · exact (h.circ r).congr fun x hx => hfg x (hnew r x hx)
  · rw [Function.update_apply]
    split
    · exact hnodup
    · exact h.nodup r
  · rcases hmem r x hr with ⟨rfl, hx⟩ | ⟨-, hx⟩
    · rcases hmem r' x hr' with ⟨rfl, -⟩ | ⟨-, hx'⟩
      · rfl
      · exact absurd hx (hnew r' x hx')
    · rcases hmem r' x hr' with ⟨rfl, hx'⟩ | ⟨-, hx'⟩
      · exact absurd hx' (hnew r x hx)
      · exact h.apart r r' x hx hx'

end Rings

end ConcurrentPQ.Circle

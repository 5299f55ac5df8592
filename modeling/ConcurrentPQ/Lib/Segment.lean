import Mathlib.Data.List.Sublists
import Mathlib.Data.List.Nodup
import Mathlib.Logic.Function.Basic
import Mathlib.Logic.Relation
import Mathlib.Tactic.Common

/-!
# Linked segments and list order

Pointer structures are maps `f : α → α` from a node to its successor.  `Seg f a l b` says that
following `f` from `a` visits exactly the nodes of `l` and then stands at `b`; it is the list view of
a singly linked list.  `Before l x y` is the order in which a list visits its elements.

* `seg_append`, `Seg.congr`, `Seg.update_of_notMem` — how segments split and which writes leave them
  alone;
* `Seg.splice`, `Seg.unlink` — linking one node in, and cutting a run of nodes out;
* `Seg.unique` — a segment is determined by its ends;
* `Seg.trans_of_before`, `exists_seg` — what stands behind a node of a segment is reached from it, and
  a map that leads forward in a list traces a segment;
* `Before` and `Le` — the order of a duplicate-free list is a strict linear order, and it is kept
  when elements are inserted.
-/

namespace ConcurrentPQ.Segment

variable {α : Type*}

/-- Following `f` from `a` visits the nodes of `l` in turn and then stands at `b`. -/
def Seg (f : α → α) : α → List α → α → Prop
  | a, [], b => a = b
  | a, x :: l, b => a = x ∧ Seg f (f x) l b

@[simp] theorem seg_nil {f : α → α} {a b : α} : Seg f a [] b ↔ a = b := Iff.rfl

@[simp] theorem seg_cons {f : α → α} {a b x : α} {l : List α} :
    Seg f a (x :: l) b ↔ a = x ∧ Seg f (f x) l b := Iff.rfl

instance Seg.decidable [DecidableEq α] (f : α → α) :
    ∀ a l b, Decidable (Seg f a l b)
  | a, [], b => inferInstanceAs (Decidable (a = b))
  | a, x :: l, b =>
    match Seg.decidable f (f x) l b with
    | .isTrue h => decidable_of_iff (a = x) ⟨fun ha => ⟨ha, h⟩, fun h => h.1⟩
    | .isFalse h => .isFalse fun h' => h h'.2

theorem seg_append {f : α → α} {a b : α} {l₁ l₂ : List α} :
    Seg f a (l₁ ++ l₂) b ↔ ∃ m, Seg f a l₁ m ∧ Seg f m l₂ b := by
  induction l₁ generalizing a with
  | nil => simp
  | cons x l ih =>
    simp only [List.cons_append, seg_cons, ih]
    constructor
    · rintro ⟨rfl, m, h₁, h₂⟩
      exact ⟨m, ⟨rfl, h₁⟩, h₂⟩
    · rintro ⟨m, ⟨rfl, h₁⟩, h₂⟩
      exact ⟨rfl, m, h₁, h₂⟩

/-- The node of a segment at a split point, and the two halves around it. -/
theorem seg_append_cons {f : α → α} {a b p : α} {l₁ l₂ : List α} :
    Seg f a (l₁ ++ p :: l₂) b ↔ Seg f a l₁ p ∧ Seg f (f p) l₂ b := by
  rw [seg_append]
  constructor
  · rintro ⟨m, h₁, rfl, h₂⟩
    exact ⟨h₁, h₂⟩
  · rintro ⟨h₁, h₂⟩
    exact ⟨p, h₁, rfl, h₂⟩

theorem seg_concat {f : α → α} {a b p : α} {l : List α} :
    Seg f a (l ++ [p]) b ↔ Seg f a l p ∧ f p = b := by
  rw [seg_append_cons, seg_nil]

/-- Writes outside a segment leave it alone. -/
theorem Seg.congr {f g : α → α} {l : List α} (hfg : ∀ x ∈ l, f x = g x) :
    ∀ {a b : α}, Seg f a l b → Seg g a l b := by
  induction l with
  | nil => intro a b h; exact h
  | cons x l ih =>
    intro a b h
    obtain ⟨rfl, h⟩ := h
    refine ⟨rfl, ?_⟩
    rw [← hfg a List.mem_cons_self]
    exact ih (fun y hy => hfg y (List.mem_cons_of_mem _ hy)) h

theorem Seg.update_of_notMem [DecidableEq α] {f : α → α} {a b x y : α} {l : List α}
    (h : Seg f a l b) (hx : x ∉ l) : Seg (Function.update f x y) a l b := by
  refine h.congr fun z hz => ?_
  rw [Function.update_of_ne]
  rintro rfl
  exact hx hz

/-- Linking `n` in behind `p`. -/
theorem Seg.splice {f g : α → α} {a b p n : α} {l₁ l₂ : List α}
    (h : Seg f a (l₁ ++ p :: l₂) b) (hp : g p = n) (hn : g n = f p)
    (hg : ∀ x ∈ l₁ ++ l₂, f x = g x) : Seg g a (l₁ ++ p :: n :: l₂) b := by
  obtain ⟨h₁, h₂⟩ := seg_append_cons.mp h
  refine seg_append_cons.mpr ⟨h₁.congr fun x hx => hg x (List.mem_append_left _ hx), hp, ?_⟩
  rw [hn]
  exact h₂.congr fun x hx => hg x (List.mem_append_right _ hx)

/-- Cutting out the run `l` of nodes between `p` and `r`. -/
theorem Seg.unlink {f g : α → α} {a b p r : α} {l₁ l l₂ : List α}
    (h : Seg f a (l₁ ++ p :: (l ++ l₂)) b) (hr : Seg f (f p) l r) (hp : g p = r)
    (hg : ∀ x ∈ l₁ ++ l₂, f x = g x) : Seg g a (l₁ ++ p :: l₂) b := by
  obtain ⟨h₁, h₂⟩ := seg_append_cons.mp h
  obtain ⟨m, h₃, h₄⟩ := seg_append.mp h₂
  have hm : ∀ {l : List α} {x y z : α}, Seg f x l y → Seg f x l z → y = z := by
    intro l
    induction l with
    | nil => rintro x y z rfl rfl; rfl
    | cons w l ih => rintro x y z ⟨rfl, hy⟩ ⟨-, hz⟩; exact ih hy hz
  have hmr : m = r := hm h₃ hr
  refine seg_append_cons.mpr ⟨h₁.congr fun x hx => hg x (List.mem_append_left _ hx), ?_⟩
  rw [hp, ← hmr]
  exact h₄.congr fun x hx => hg x (List.mem_append_right _ hx)

/-- A segment is determined by its ends, if it does not pass through its own end. -/
theorem Seg.unique {f : α → α} {b : α} {l₁ : List α} :
    ∀ {a : α} {l₂ : List α}, Seg f a l₁ b → Seg f a l₂ b → b ∉ l₁ → b ∉ l₂ → l₁ = l₂ := by
  induction l₁ with
  | nil =>
    intro a l₂ h₁ h₂ _ hb
    cases l₂ with
    | nil => rfl
    | cons x l =>
      obtain ⟨rfl, -⟩ := h₂
      exact absurd (h₁ ▸ List.mem_cons_self) hb
  | cons x l ih =>
    intro a l₂ h₁ h₂ hb₁ hb₂
    obtain ⟨rfl, h₁⟩ := h₁
    cases l₂ with
    | nil => exact absurd (h₂ ▸ List.mem_cons_self) hb₁
    | cons y l' =>
      obtain ⟨rfl, h₂⟩ := h₂
      rw [ih h₁ h₂ (fun h => hb₁ (List.mem_cons_of_mem _ h))
        (fun h => hb₂ (List.mem_cons_of_mem _ h))]

/-- A segment that does not pass through its own end visits no node twice. -/
theorem Seg.nodup {f : α → α} {b : α} {l : List α} :
    ∀ {a : α}, Seg f a l b → b ∉ l → l.Nodup := by
  induction l with
  | nil => exact fun _ _ => List.nodup_nil
  | cons x l ih =>
    intro a h hb
    have hbl : b ∉ l := fun hm => hb (List.mem_cons_of_mem _ hm)
    refine List.nodup_cons.mpr ⟨fun hx => ?_, ih h.2 hbl⟩
    obtain ⟨l₁, l₂, rfl⟩ := List.append_of_mem hx
    have hrest : Seg f a (x :: l₂) b := ⟨h.1, (seg_append_cons.mp h.2).2⟩
    have hsub : b ∉ x :: l₂ := by
      intro hm
      refine hb ?_
      simp only [List.mem_cons, List.mem_append] at hm ⊢
      tauto
    have heq := congrArg List.length (h.unique hrest hb hsub)
    simp only [List.length_cons, List.length_append] at heq
    omega

/-- A segment that does not pass through the end of another one is a first part of it. -/
theorem Seg.exists_append {f : α → α} {b c : α} {l' : List α} :
    ∀ {a : α} {l : List α}, Seg f a l b → Seg f a l' c → b ∉ l' →
      ∃ r, l = l' ++ r ∧ Seg f c r b := by
  induction l' with
  | nil =>
    intro a l h h' _
    obtain rfl : a = c := h'
    exact ⟨l, rfl, h⟩
  | cons x l' ih =>
    intro a l h h' hb
    obtain ⟨rfl, h'⟩ := h'
    cases l with
    | nil => exact absurd (show a = b from h) fun he => hb (he ▸ List.mem_cons_self)
    | cons y l =>
      obtain ⟨rfl, h⟩ := h
      obtain ⟨r, rfl, hr⟩ := ih h h' fun hm => hb (List.mem_cons_of_mem _ hm)
      exact ⟨r, rfl, hr⟩

/-- The successor of a node of a segment is the next node of the segment or its end. -/
theorem Seg.next_mem {f : α → α} {b x : α} {l : List α} :
    ∀ {a : α}, Seg f a l b → x ∈ l → f x ∈ l ∨ f x = b := by
  intro a h hx
  obtain ⟨l₁, l₂, rfl⟩ := List.append_of_mem hx
  have h₂ := (seg_append_cons.mp h).2
  cases l₂ with
  | nil => exact Or.inr h₂
  | cons y l₂ =>
    refine Or.inl (List.mem_append_right _ (List.mem_cons_of_mem _ ?_))
    rw [h₂.1]
    exact List.mem_cons_self

/-! ### The order of a list -/

/-- `x` stands before `y` in `l`. -/
def Before (l : List α) (x y : α) : Prop := [x, y].Sublist l

/-- `x` is `y` or stands before it. -/
def Le (l : List α) (x y : α) : Prop := x = y ∨ Before l x y

theorem before_iff_split {l : List α} {x y : α} :
    Before l x y ↔ ∃ l₁ l₂, l = l₁ ++ l₂ ∧ x ∈ l₁ ∧ y ∈ l₂ := by
  rw [Before, List.cons_sublist_iff]
  simp only [List.singleton_sublist]

theorem Before.left_mem {l : List α} {x y : α} (h : Before l x y) : x ∈ l :=
  h.subset List.mem_cons_self

theorem Before.right_mem {l : List α} {x y : α} (h : Before l x y) : y ∈ l :=
  h.subset (List.mem_cons_of_mem _ List.mem_cons_self)

/-- Inserting elements keeps the order. -/
theorem Before.mono {l l' : List α} {x y : α} (h : Before l x y) (hl : l.Sublist l') :
    Before l' x y := h.trans hl

theorem before_append {l₁ l₂ : List α} {x y : α} (hx : x ∈ l₁) (hy : y ∈ l₂) :
    Before (l₁ ++ l₂) x y := before_iff_split.mpr ⟨l₁, l₂, rfl, hx, hy⟩

theorem before_cons {l : List α} {x y : α} (hy : y ∈ l) : Before (x :: l) x y :=
  before_append (List.mem_singleton_self x) hy

theorem Before.ne {l : List α} {x y : α} (hl : l.Nodup) (h : Before l x y) : x ≠ y := by
  have := List.Nodup.sublist h hl
  simpa using this

theorem Before.irrefl {l : List α} {x : α} (hl : l.Nodup) : ¬Before l x x :=
  fun h => h.ne hl rfl

theorem Before.trans {l : List α} {x y z : α} (hl : l.Nodup) (h₁ : Before l x y)
    (h₂ : Before l y z) : Before l x z := by
  obtain ⟨a, b, rfl, hx, hy⟩ := before_iff_split.mp h₁
  obtain ⟨c, d, hcd, hy', hz⟩ := before_iff_split.mp h₂
  rcases List.append_eq_append_iff.mp hcd with ⟨e, -, rfl⟩ | ⟨e, rfl, -⟩
  · exact before_append hx (List.mem_append_right _ hz)
  · have hdisj := (List.nodup_append.mp hl).2.2
    exact absurd rfl (hdisj y (List.mem_append_left _ hy') y hy)

theorem Before.asymm {l : List α} {x y : α} (hl : l.Nodup) (h : Before l x y) :
    ¬Before l y x := fun h' => Before.irrefl hl (h.trans hl h')

theorem before_total {l : List α} {x y : α} (hx : x ∈ l) (hy : y ∈ l) :
    x = y ∨ Before l x y ∨ Before l y x := by
  induction l with
  | nil => cases hx
  | cons z l ih =>
    rcases List.mem_cons.mp hx with rfl | hx'
    · rcases List.mem_cons.mp hy with rfl | hy'
      · exact Or.inl rfl
      · exact Or.inr (Or.inl (before_cons hy'))
    · rcases List.mem_cons.mp hy with rfl | hy'
      · exact Or.inr (Or.inr (before_cons hx'))
      · exact (ih hx' hy').imp id (Or.imp (fun h => h.mono (List.sublist_cons_self _ _))
          fun h => h.mono (List.sublist_cons_self _ _))

theorem le_or_before {l : List α} {x y : α} (hx : x ∈ l) (hy : y ∈ l) :
    Le l x y ∨ Before l y x := by
  rcases before_total hx hy with e | hb | hb
  · exact Or.inl (Or.inl e)
  · exact Or.inl (Or.inr hb)
  · exact Or.inr hb

theorem Le.trans_before {l : List α} {x y z : α} (hl : l.Nodup) (h₁ : Le l x y)
    (h₂ : Before l y z) : Before l x z := by
  rcases h₁ with rfl | h₁
  · exact h₂
  · exact h₁.trans hl h₂

theorem Before.trans_le {l : List α} {x y z : α} (hl : l.Nodup) (h₁ : Before l x y)
    (h₂ : Le l y z) : Before l x z := by
  rcases h₂ with rfl | h₂
  · exact h₁
  · exact h₁.trans hl h₂

theorem Le.trans {l : List α} {x y z : α} (hl : l.Nodup) (h₁ : Le l x y) (h₂ : Le l y z) :
    Le l x z := by
  rcases h₁ with rfl | h₁
  · exact h₂
  · exact Or.inr (h₁.trans_le hl h₂)

theorem Le.mono {l l' : List α} {x y : α} (h : Le l x y) (hl : l.Sublist l') : Le l' x y :=
  h.imp id fun h => h.mono hl

/-- What stands before an element of an initial part belongs to that part. -/
theorem Before.mem_of_prefix {l₁ l₂ : List α} {x y : α} (hl : (l₁ ++ l₂).Nodup)
    (h : Before (l₁ ++ l₂) x y) (hy : y ∈ l₁) : Before l₁ x y := by
  have hx : x ∈ l₁ := by
    rcases List.mem_append.mp h.left_mem with hx | hx
    · exact hx
    · exact absurd (before_append hy hx) (h.asymm hl)
  rcases before_total hx hy with rfl | h' | h'
  · exact absurd h (Before.irrefl hl)
  · exact h'
  · exact absurd (h'.mono (List.sublist_append_left _ _)) (h.asymm hl)

/-- Along a segment the successor of a node stands behind it. -/
theorem Seg.before_next {f : α → α} {a b x : α} {l : List α} (h : Seg f a l b) (hx : x ∈ l) :
    Before (l ++ [b]) x (f x) := by
  obtain ⟨l₁, l₂, rfl⟩ := List.append_of_mem hx
  have h₂ := (seg_append_cons.mp h).2
  refine (before_cons (x := x) (l := l₂ ++ [b]) ?_).mono ?_
  · cases l₂ with
    | nil => rw [h₂]; exact List.mem_cons_self
    | cons y l₂ => rw [h₂.1]; exact List.mem_cons_self
  · rw [List.append_assoc, List.cons_append]
    exact List.sublist_append_right _ _

/-- The nodes of a segment and its end are reached from its start. -/
theorem Seg.reaches {f : α → α} {a b y : α} {l : List α} (h : Seg f a l b) (hy : y ∈ l ++ [b]) :
    Relation.ReflTransGen (fun u v => u ∈ l ∧ f u = v) a y := by
  induction l generalizing a with
  | nil =>
    obtain rfl : y = b := by simpa using hy
    rw [show a = y from h]
  | cons c l ih =>
    obtain ⟨rfl, h⟩ := h
    rw [List.cons_append, List.mem_cons] at hy
    rcases hy with rfl | hy
    · exact .refl
    · refine .head ⟨List.mem_cons_self, rfl⟩ (Relation.ReflTransGen.mono ?_ _ _ (ih h hy))
      exact fun u v huv => ⟨List.mem_cons_of_mem _ huv.1, huv.2⟩

/-- What stands behind a node of a segment is reached from it. -/
theorem Seg.trans_of_before {f : α → α} {a b x y : α} {l : List α} (h : Seg f a l b)
    (hxy : Before (l ++ [b]) x y) :
    Relation.TransGen (fun u v => u ∈ l ∧ f u = v) x y := by
  induction l generalizing a with
  | nil => exact absurd (List.Sublist.length_le hxy) (by simp)
  | cons c l ih =>
    obtain ⟨rfl, h⟩ := h
    have hmono : ∀ u v, (u ∈ l ∧ f u = v) → u ∈ a :: l ∧ f u = v :=
      fun u v huv => ⟨List.mem_cons_of_mem _ huv.1, huv.2⟩
    cases hxy with
    | cons _ hxy => exact Relation.TransGen.mono hmono _ _ (ih h hxy)
    | cons_cons _ hy =>
      have hy := h.reaches (List.singleton_sublist.mp hy)
      exact .head' ⟨List.mem_cons_self, rfl⟩ (Relation.ReflTransGen.mono hmono _ _ hy)

/-- Following a map that leads forward in a list ends, and visits no node twice. -/
theorem exists_seg {f : α → α} {p : α → Prop} {e : α} {L : List α} (hL : L.Nodup)
    (h : ∀ x ∈ L, p x → x ≠ e → p (f x) ∧ Before L x (f x)) {a : α} (ha : a ∈ L) (hp : p a) :
    ∃ l, Seg f a l e ∧ l.Nodup ∧ e ∉ l ∧ l ⊆ L := by
  induction L generalizing a with
  | nil => cases ha
  | cons c L ih =>
    obtain ⟨hc, hL'⟩ := List.nodup_cons.mp hL
    have hrest : ∀ x ∈ L, p x → x ≠ e → p (f x) ∧ Before L x (f x) := by
      intro x hx hpx hne
      obtain ⟨hpf, hb⟩ := h x (List.mem_cons_of_mem _ hx) hpx hne
      refine ⟨hpf, ?_⟩
      cases hb with
      | cons _ hb => exact hb
      | cons_cons _ _ => exact absurd hx hc
    rcases List.mem_cons.mp ha with rfl | ha
    · by_cases he : a = e
      · exact ⟨[], he, List.nodup_nil, List.not_mem_nil, List.nil_subset _⟩
      · obtain ⟨hpf, hb⟩ := h a List.mem_cons_self hp he
        have hf : f a ∈ L := by
          cases hb with
          | cons _ hb => exact Before.right_mem hb
          | cons_cons _ hb => exact List.singleton_sublist.mp hb
        obtain ⟨l, hseg, hnd, hel, hsub⟩ := ih hL' hrest hf hpf
        refine ⟨a :: l, ⟨rfl, hseg⟩, List.nodup_cons.mpr ⟨fun hm => hc (hsub hm), hnd⟩, ?_,
          List.cons_subset_cons a hsub⟩
        exact fun hm => (List.mem_cons.mp hm).elim (fun h => he h.symm) hel
    · obtain ⟨l, hseg, hnd, hel, hsub⟩ := ih hL' hrest ha hp
      exact ⟨l, hseg, hnd, hel, fun x hx => List.mem_cons_of_mem _ (hsub hx)⟩

end ConcurrentPQ.Segment

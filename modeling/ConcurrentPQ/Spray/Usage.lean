import ConcurrentPQ.Spray.Draws
import ConcurrentPQ.Spray.Simulation
import Mathlib.Data.Finset.Basic

/-!
# What a single thread can rely on

* `strict_queue` — **with one thread the list is a priority queue on sets**;
* `insert_stores_iff` — `insert` stores the keys below `INT_MAX`, and no other;
* `sl_add_agree_iff` — when the two paths of `sl_add` agree;
* `empty_delete_min` — `delete_min` on an empty list.
-/

namespace ConcurrentPQ.Spray

open Relation

/-- A list of sentinels has no live keys. -/
theorem Shape.liveKeys_sentinels {m : Mem} {brk : NodeId} (h : Shape m brk {head, tail}) :
    liveKeys m = ∅ := by
  rw [Set.eq_empty_iff_forall_notMem]
  intro k hk
  obtain ⟨n, hn, -⟩ := h.mem_liveKeys.mp hk
  exact hn.mem.elim hn.ne_head hn.ne_tail

/-! ### Calls that are performed -/

/-- The answer of a call that returned. -/
def Pc.answer : Pc → Option Answer
  | .ret a => some a
  | _ => none

theorem Pc.answer_iff {pc : Pc} {a : Answer} : pc.answer = some a ↔ pc = .ret a := by
  cases pc <;> simp [Pc.answer]

/-- A thread read through a marked pointer. -/
def Pc.strayed : Pc → Bool
  | .wild => true
  | _ => false

theorem Pc.strayed_iff {pc : Pc} : pc.strayed = true ↔ pc = .wild := by
  cases pc <;> simp [Pc.strayed]

/-- A call with `k` accesses, in which a read through a marked pointer yields `any`. -/
def perform (any : Bool) (op : Op) (k : ℕ) (c : Config) : Config :=
  (access any)^[k] ⟨c.sh, c.seed, start op⟩

theorem access_of_idle {any : Bool} {c : Config} (h : c.pc.busy = false) : access any c = c := by
  obtain ⟨s, seed, pc⟩ := c
  cases pc <;> first | (cases h; done) | rfl

theorem reaches_iterate (any : Bool) (k : ℕ) (c : Config) :
    ReflTransGen Next c ((access any)^[k] c) := by
  induction k generalizing c with
  | zero => exact .refl
  | succ k ih =>
    rw [Function.iterate_succ_apply]
    cases hb : c.pc.busy with
    | true => exact .head ⟨hb, any, rfl⟩ (ih _)
    | false =>
      rw [access_of_idle hb]
      exact ih c

/-- What a call comes to holds after it was performed. -/
theorem perform_of_eventually {Q : Config → Prop} (any : Bool) (op : Op) (k : ℕ) (c : Config)
    (h : Eventually Next Q ⟨c.sh, c.seed, start op⟩) (hQ : ∀ t u, Q t → ¬Next t u)
    (hend : (perform any op k c).pc.busy = false) : Q (perform any op k c) :=
  h.of_final hQ (reaches_iterate any k _) fun _ => Settled.final hend

/-- A call that was performed belongs to the history. -/
theorem History.perform {allowed : List (Op × Answer) → Shared → ℕ → Op → Prop}
    {h : List (Op × Answer)} {op : Op} {a : Answer} (any : Bool) (k : ℕ) (c : Config)
    (hh : History allowed h c.sh c.seed) (ho : allowed h c.sh c.seed op)
    (ha : (Spray.perform any op k c).pc.answer = some a) :
    History allowed ((op, a) :: h) (Spray.perform any op k c).sh (Spray.perform any op k c).seed := by
  refine hh.call ho ?_
  have hrun := reaches_iterate any k ⟨c.sh, c.seed, start op⟩
  change ReflTransGen Next _ (Spray.perform any op k c) at hrun
  generalize Spray.perform any op k c = d at ha hrun ⊢
  obtain ⟨s, seed, pc⟩ := d
  cases pc <;> cases ha
  exact hrun

/-! ### One thread -/

/-- The keys inserted and not yet returned. -/
def keys : List (Op × Answer) → Finset ℕ
  | [] => ∅
  | (.fraser_insert v _, _) :: h => insert v (keys h)
  | (_, .deleted _ (some k)) :: h => (keys h).erase k
  | _ :: h => keys h

/-- Insertions through `fraser_insert`, and `delete_min` with one thread while a key is left. -/
def Strict (h : List (Op × Answer)) (_ : Shared) (_ : ℕ) : Op → Prop
  | .fraser_insert v lvl => v < INT_MAX ∧ 1 ≤ lvl ∧ lvl ≤ levelmax
  | .spray_delete_min n => n = 1 ∧ (keys h).Nonempty
  | _ => False

/-- A call returned with answer `a`, and left the live keys `L`. -/
structure Returned (a : Answer) (L : Set ℕ) (c : Config) : Prop where
  pc : c.pc = .ret a
  keys : liveKeys c.sh.mem = L

section One

variable {m : Mem} {brk : NodeId} {P : Set NodeId} {seed : ℕ} {L : Set ℕ}

theorem Returned.final {a : Answer} {c c' : Config} (h : Returned a L c) : ¬Next c c' :=
  Settled.final (by rw [h.pc]; rfl)

/-- `fraser_insert` adds its key. -/
theorem Seq.insert_returned {v lvl : ℕ} (h : Seq m brk P) (hv : v < INT_MAX)
    (hl : 1 ≤ lvl ∧ lvl ≤ levelmax) (b : Bool) (hb : b = true ↔ v ∉ liveKeys m) :
    Eventually Next (Returned (.inserted b) (Insert.insert v (liveKeys m)))
      ⟨⟨m, brk⟩, seed, .insAlloc v lvl⟩ := by
  refine h.insert hv hl (fun hk m' hs hins => ?_) fun hk m' hs hdata => ?_
  · rw [hb.mpr hk]
    exact .now ⟨rfl, hins.liveKeys h.shape hs.shape⟩
  · have hbf : b = false := Bool.eq_false_iff.mpr fun ht => hb.mp ht hk
    rw [hbf, Set.insert_eq_of_mem hk]
    refine .now ⟨rfl, h.shape.liveKeys_eq hs.shape fun n hn => ?_⟩
    rw [(hdata n hn).1, (hdata n hn).2]
    exact ⟨rfl, Iff.rfl⟩

/-- `naive_delete_min` removes the least key. -/
theorem Seq.delete_least {n : ℕ} (h : Seq m brk P) (hn : Naive n seed)
    (hk : (liveKeys m).Nonempty) :
    Eventually Next (fun c => ∃ k, IsLeast (liveKeys m) k ∧
      Returned (.deleted true (some k)) (liveKeys m \ {k}) c)
      ⟨⟨m, brk⟩, seed, .spSeed n⟩ := by
  refine h.delete_min (fun _ y m' hy hs ht => ?_) (fun _ he => absurd he hk.ne_empty)
    (fun hno => absurd hn hno) (fun hno => absurd hn hno) (fun hno => absurd hn hno)
  exact .now ⟨_, hy, rfl, ht.liveKeys h.shape hs.shape⟩

/-- A `delete_min` that returns a key removes that key. -/
theorem Seq.delete_key {s : Shared} {n : ℕ} (h : Seq s.mem s.brk P) :
    Eventually Next (fun c => c.pc.busy = false ∧ ∀ k, c.pc = .ret (.deleted true (some k)) →
      k ∈ liveKeys s.mem ∧ liveKeys c.sh.mem = liveKeys s.mem \ {k})
      ⟨s, seed, start (.spray_delete_min n)⟩ := by
  have htaken : ∀ {y m' seed'}, (s.mem y).val ∈ liveKeys s.mem → Seq m' s.brk P → Taken P s.mem m' y →
      Eventually Next (fun c => c.pc.busy = false ∧ ∀ k, c.pc = .ret (.deleted true (some k)) →
        k ∈ liveKeys s.mem ∧ liveKeys c.sh.mem = liveKeys s.mem \ {k})
        ⟨⟨m', s.brk⟩, seed', .ret (.deleted true (some (s.mem y).val))⟩ := by
    intro y m' seed' hy hs ht
    refine .now ⟨rfl, fun k hk => ?_⟩
    cases hk
    exact ⟨hy, ht.liveKeys h.shape hs.shape⟩
  refine h.delete_min (fun _ y m' hy hs ht => htaken hy.1 hs ht) (fun _ _ => ?_)
    (fun _ _ _ => .now ⟨rfl, fun k hk => by cases hk⟩)
    (fun _ y m' _ hy hs ht => htaken (h.shape.mem_liveKeys.mpr ⟨y, hy, rfl⟩) hs ht)
    fun _ _ => .now ⟨rfl, fun k hk => by cases hk⟩
  by_cases hd : (s.mem tail).deleted = 0
  · exact h.naive_tail hd (.now ⟨rfl, fun k hk => by cases hk⟩)
  · exact h.naive_crash hd (.now ⟨rfl, fun k hk => by cases hk⟩)

theorem Strict.client {h : List (Op × Answer)} {s : Shared} {op : Op} (ho : Strict h s seed op) :
    Client op := by
  cases op with
  | fraser_insert v lvl => exact ho.2
  | spray_delete_min n => exact ho.1.ge
  | fraser_remove _ _ => exact ho
  | naive_delete_min => exact ho
  | sl_seq_add _ _ => exact ho.elim

/-- The live keys are those inserted and not yet returned. -/
theorem History.liveKeys {h : List (Op × Answer)} {s : Shared} (hh : History Strict h s seed) :
    Spray.liveKeys s.mem = keys h := by
  induction hh with
  | @nil s _ hf =>
    rw [keys, Finset.coe_empty]
    exact (Seq.initial hf).shape.liveKeys_sentinels
  | @call h s s' seed seed' op a hh ha hrun ih =>
    obtain ⟨P, hP⟩ := hh.seq fun _ _ _ _ => Strict.client
    cases op with
    | fraser_insert v lvl =>
      have hret := (hP.insert_returned ha.1 ha.2 (decide (v ∉ keys h))
        (by rw [decide_eq_true_iff, ← Finset.mem_coe, ih])).of_final (fun _ _ hr => hr.final) hrun
        fun _ => Settled.final rfl
      rw [keys, Finset.coe_insert, ← ih]
      exact hret.keys
    | spray_delete_min n =>
      obtain ⟨k, -, hret⟩ := (hP.delete_least (Or.inl ha.1) (by rw [ih]; exact ha.2)).of_final
        (fun _ _ ⟨_, _, hr⟩ => hr.final) hrun fun _ => Settled.final rfl
      obtain rfl : a = .deleted true (some k) := by
        have := hret.pc
        simpa using this
      change Spray.liveKeys s'.mem = ((keys h).erase k : Finset ℕ)
      rw [Finset.coe_erase, ← ih]
      exact hret.keys
    | fraser_remove _ _ => exact ha.elim
    | naive_delete_min => exact ha.elim
    | sl_seq_add _ _ => exact ha.elim

end One

/-- **With one thread the SprayList is a strict set-based priority queue.**  Whatever levels are drawn
and whatever the read through a marked pointer yields: the live keys are those inserted and not yet
returned, an insertion ends and adds its key, and `delete_min` ends and removes the least key. -/
theorem strict_queue {h : List (Op × Answer)} {s : Shared} {seed : ℕ}
    (hh : History Strict h s seed) :
    liveKeys s.mem = keys h ∧
    (∀ v lvl, Strict h s seed (.fraser_insert v lvl) →
      Eventually Next (Returned (.inserted (decide (v ∉ keys h))) (insert v (keys h)))
        ⟨s, seed, start (.fraser_insert v lvl)⟩) ∧
    (Strict h s seed (.spray_delete_min 1) →
      Eventually Next (fun c => ∃ k, IsLeast (keys h : Set ℕ) k ∧
        Returned (.deleted true (some k)) (keys h \ {k}) c)
        ⟨s, seed, start (.spray_delete_min 1)⟩) := by
  obtain ⟨P, hP⟩ := hh.seq fun _ _ _ _ => Strict.client
  have hk := hh.liveKeys
  refine ⟨hk, fun v lvl ho => ?_, fun ho => ?_⟩
  · rw [← hk]
    refine hP.insert_returned ho.1 ho.2 _ ?_
    rw [decide_eq_true_iff, ← Finset.mem_coe, hk]
  · rw [← hk]
    exact hP.delete_least (Or.inl rfl) (by rw [hk]; exact ho.2)

/-- The list after insertions of 5 and 7, and a `delete_min` that leaves the node of 5 linked in. -/
def stripped5 : Config :=
  perform true (.spray_delete_min 1) 200
    (perform true (.fraser_insert 7 1) 100 (perform true (.fraser_insert 5 1) 100 ⟨fresh, 1, .idle⟩))

theorem strict_queue_stripped5 :
    History Strict [(.spray_delete_min 1, .deleted true (some 5)), (.fraser_insert 7 1, .inserted true),
      (.fraser_insert 5 1, .inserted true)] stripped5.sh stripped5.seed ∧
    (∃ n, (stripped5.sh.mem head).next 0 = ref n ∧ (stripped5.sh.mem n).val = 5 ∧
      (stripped5.sh.mem n).deleted ≠ 0) ∧
    liveKeys stripped5.sh.mem = ({7} : Finset ℕ) ∧
    Eventually Next (Returned (.inserted true) {6, 7})
      ⟨stripped5.sh, stripped5.seed, start (.fraser_insert 6 1)⟩ ∧
    Eventually Next (fun c => ∃ k, IsLeast {7} k ∧ Returned (.deleted true (some k)) ({7} \ {k}) c)
      ⟨stripped5.sh, stripped5.seed, start (.spray_delete_min 1)⟩ := by
  have h₀ : History Strict [] fresh 1 := .nil 1 fresh_fresh
  have hadd : ∀ {h s seed} v, v < INT_MAX → Strict h s seed (.fraser_insert v 1) :=
    fun v hv => ⟨hv, by decide⟩
  have h₁ := History.perform (a := .inserted true) true 100 ⟨fresh, 1, .idle⟩ h₀ (hadd 5 (by decide))
    (by decide +kernel)
  have h₂ := History.perform (a := .inserted true) true 100 _ h₁ (hadd 7 (by decide)) (by decide +kernel)
  have h₃ : History Strict [(.spray_delete_min 1, .deleted true (some 5)), (.fraser_insert 7 1, .inserted true),
      (.fraser_insert 5 1, .inserted true)] stripped5.sh stripped5.seed :=
    .perform true 200 _ h₂ ⟨rfl, by decide⟩ (by decide +kernel)
  have hseven : keys [(.spray_delete_min 1, .deleted true (some 5)), (.fraser_insert 7 1, .inserted true),
      (.fraser_insert 5 1, .inserted true)] = {7} := by decide
  obtain ⟨hkeys, hins, hdel⟩ := strict_queue h₃
  have hsix := hins 6 1 ⟨by decide, by decide⟩
  have hleast := hdel ⟨rfl, by rw [hseven]; exact Finset.singleton_nonempty 7⟩
  rw [hseven] at hkeys hsix hleast
  rw [Finset.coe_singleton] at hsix hleast
  rw [show decide (6 ∉ ({7} : Finset ℕ)) = true from rfl] at hsix
  exact ⟨h₃, ⟨succ stripped5.sh.mem 0 head, by decide +kernel⟩, hkeys, hsix, hleast⟩

/-! ### Every key -/

/-- `fraser_insert` returns, and its key is live. -/
def Stored (v : ℕ) (c : Config) : Prop :=
  (∃ b, c.pc = .ret (.inserted b)) ∧ v ∈ liveKeys c.sh.mem

theorem Stored.final {v : ℕ} {c c' : Config} (h : Stored v c) : ¬Next c c' := by
  obtain ⟨⟨b, hb⟩, -⟩ := h
  exact Settled.final (by rw [hb]; rfl)

/-- `insert` accepts the keys below `INT_MAX` and no other: `INT_MAX` is taken for the key of the tail,
and a search for a greater key runs past the tail. -/
theorem insert_stores_iff {h : List (Op × Answer)} {s : Shared} {seed : ℕ}
    (hh : History (fun _ _ _ => Client) h s seed) {v lvl : ℕ} (hl : 1 ≤ lvl ∧ lvl ≤ levelmax) :
    Eventually Next (Stored v) ⟨s, seed, start (.fraser_insert v lvl)⟩ ↔ v < INT_MAX := by
  obtain ⟨P, hP⟩ := hh.seq fun _ _ _ _ => id
  constructor
  · intro hev
    by_contra hv
    -- the call returns without its key, or does not return
    have hbad : Eventually Next (fun c => c.pc.busy = false ∧ ¬Stored v c)
        ⟨s, seed, start (.fraser_insert v lvl)⟩ := by
      have hcrash : ∀ {m' : Mem} {b : NodeId}, Eventually Next
          (fun c => c.pc.busy = false ∧ ¬Stored v c) ⟨⟨m', b⟩, seed, .crashed⟩ :=
        .now ⟨rfl, fun hst => by
          obtain ⟨⟨b, hb⟩, -⟩ := hst
          cases hb⟩
      rcases (not_lt.mp hv).eq_or_lt with rfl | hlt
      · refine hP.insert_max (fun _ m' hs => .now ⟨rfl, fun hst => ?_⟩) fun _ m' => hcrash
        obtain ⟨n, hn, hk⟩ := hs.shape.mem_liveKeys.mp hst.2
        exact (hs.shape.val_lt n hn.mem hn.ne_head hn.ne_tail).ne hk
      · exact hP.insert_above hlt fun m' => hcrash
    obtain ⟨t, ht, -, hno⟩ := hev.exists_both hbad (fun t u => Stored.final) fun t u ht =>
      Settled.final ht.1
    exact hno ht
  · intro hv
    by_cases hk : v ∈ liveKeys s.mem
    · exact (hP.insert_returned hv hl false (by simpa using hk)).mono fun c hc =>
        ⟨⟨_, hc.pc⟩, by rw [hc.keys]; exact Set.mem_insert v _⟩
    · exact (hP.insert_returned hv hl true (by simpa using hk)).mono fun c hc =>
        ⟨⟨_, hc.pc⟩, by rw [hc.keys]; exact Set.mem_insert v _⟩

theorem insert_stores_iff_fresh :
    (Eventually Next (Stored 5) ⟨fresh, 1, start (.fraser_insert 5 1)⟩ ↔ 5 < INT_MAX) ∧
    (Eventually Next (Stored INT_MAX) ⟨fresh, 1, start (.fraser_insert INT_MAX 1)⟩ ↔
      INT_MAX < INT_MAX) :=
  ⟨insert_stores_iff (.nil 1 fresh_fresh) (by decide),
    insert_stores_iff (.nil 1 fresh_fresh) (by decide)⟩

/-- The greatest key the benchmark draws is not stored. -/
theorem not_insert_stores :
    ¬∀ v < 0x100000000, Eventually Next (Stored v) ⟨fresh, 1, start (.fraser_insert v 1)⟩ := by
  intro h
  have hP := Seq.initial fresh_fresh
  have hbad : Eventually Next (fun c => c.pc = .ret (.inserted false) ∧ INT_MAX ∉ liveKeys c.sh.mem)
      ⟨fresh, 1, start (.fraser_insert INT_MAX 1)⟩ := by
    refine hP.insert_max (fun _ m' hs => .now ⟨rfl, fun hk => ?_⟩) fun hd => absurd rfl hd
    obtain ⟨n, hn, hk⟩ := hs.shape.mem_liveKeys.mp hk
    exact (hs.shape.val_lt n hn.mem hn.ne_head hn.ne_tail).ne hk
  obtain ⟨t, ht, -, hno⟩ := (h INT_MAX (by decide)).exists_both hbad (fun t u => Stored.final)
    fun t u ht => Settled.final (by rw [ht.1]; rfl)
  exact hno ht.2

/-! ### Both paths -/

/-- Insertions with keys below `INT_MAX`, on either path, and `delete_min`. -/
def Keyed (_ : List (Op × Answer)) (_ : Shared) (_ : ℕ) : Op → Prop
  | .fraser_insert v lvl | .sl_seq_add v lvl => v < INT_MAX ∧ 1 ≤ lvl ∧ lvl ≤ levelmax
  | .spray_delete_min n => 1 ≤ n
  | _ => False

/-- Both paths of `sl_add`, whatever level is drawn, return the same and leave the same live keys. -/
def Agree (s : Shared) (seed v : ℕ) : Prop :=
  ∃ b L, ∀ t lvl, 1 ≤ lvl → lvl ≤ levelmax →
    Eventually Next (Returned (.inserted b) L) ⟨s, seed, start (sl_add v lvl t)⟩

section Paths

variable {m : Mem} {brk : NodeId} {P : Set NodeId} {seed v : ℕ} {n : NodeId} {i : ℕ}

theorem Keyed.client {h : List (Op × Answer)} {s : Shared} {op : Op} (ho : Keyed h s seed op) :
    Client op := by
  cases op with
  | fraser_insert v lvl | sl_seq_add v lvl => exact ho.2
  | spray_delete_min n => exact ho
  | fraser_remove _ _ => exact ho
  | naive_delete_min => exact ho

/-- The places on the way to a key stand before it. -/
theorem Seq.visits (h : Seq m brk P) (hv : v ≤ INT_MAX)
    (hn : Visits m v head (levelmax - 1) n i) :
    Source m P n i ∧ (n ≠ head → (m n).val < v) := by
  induction hn with
  | here => exact ⟨h.shape.head_source (by decide), fun hh => absurd rfl hh⟩
  | @right n i _ hlt ih =>
    have hnext := h.shape.links n i ih.1
    refine ⟨hnext.source fun ht => ?_, fun _ => hlt⟩
    rw [ht, h.shape.tail_val] at hlt
    omega
  | down _ _ ih => exact ⟨ih.1.below (Nat.le_succ _), ih.2⟩

/-- A key that the way to it finds deleted is not live. -/
theorem Seq.stale_notMem (h : Seq m brk P) (hv : v ≤ INT_MAX) (hc : Clean m v) (hst : Stale m v) :
    v ∉ liveKeys m := by
  obtain ⟨n, hn, hval, hd⟩ := hst
  obtain ⟨hsrc, hlt⟩ := h.visits hv hn
  exact fun hk => hd (h.shape.live_behind hsrc (hc n 0 hn) hlt hval.ge hk).1.deleted

end Paths

/-- The two paths of `sl_add` agree if no deleted node stands on the way to the key, and none with the
key at its end. -/
theorem sl_add_agree_iff {h : List (Op × Answer)} {s : Shared} {seed v : ℕ}
    (hh : History Keyed h s seed) (hv : v < INT_MAX) :
    Agree s seed v ↔ Clean s.mem v ∧ ¬Stale s.mem v := by
  obtain ⟨P, hP⟩ := hh.seq fun _ _ _ _ => Keyed.client
  constructor
  · rintro ⟨b, L, hag⟩
    have hseq := hag false 1 le_rfl (by decide)
    have hc : Clean s.mem v := by
      by_contra hno
      have hwild : Eventually Next (fun c => c.pc = .wild) ⟨s, seed, .sqTop v 1⟩ :=
        hP.seq_add hv.le (by decide) (fun _ => .now rfl) (fun hc => absurd hc hno)
          fun hc => absurd hc hno
      obtain ⟨t, ht, hw⟩ := hseq.exists_both hwild (fun t u ht => ht.final)
        fun t u ht => Settled.final (by rw [ht]; rfl)
      cases ht.pc.symm.trans hw
    refine ⟨hc, fun hst => ?_⟩
    have hk := hP.stale_notMem hv.le hc hst
    have hfalse : Eventually Next (fun c => c.pc = .ret (.inserted false)) ⟨s, seed, .sqTop v 1⟩ :=
      hP.seq_add hv.le (by decide) (fun hno => absurd hc hno) (fun _ _ _ hno => absurd hst hno)
        fun _ _ => .now rfl
    obtain ⟨t, ht, hf⟩ := hseq.exists_both hfalse (fun t u ht => ht.final)
      fun t u ht => Settled.final (by rw [ht]; rfl)
    obtain ⟨u, hu, ht'⟩ := (hag true 1 le_rfl (by decide)).exists_both
      (hP.insert_returned hv (by decide) true (by simpa using hk)) (fun t u ht => ht.final)
      fun t u ht => ht.final
    cases ht.pc.symm.trans hf
    cases hu.pc.symm.trans ht'.pc
  · rintro ⟨hc, hst⟩
    -- both return whether the key is new, and leave it live
    have key : ∀ b : Bool, (b = true ↔ v ∉ liveKeys s.mem) → Agree s seed v := by
      intro b hb
      refine ⟨b, insert v (liveKeys s.mem), fun t lvl h₁ h₂ => ?_⟩
      cases t with
      | true => exact hP.insert_returned hv ⟨h₁, h₂⟩ b hb
      | false =>
        refine hP.seq_add hv.le ⟨h₁, h₂⟩ (fun hno => absurd hc hno)
          (fun _ _ hk _ m' hs hins => ?_) fun _ hold => ?_
        · rw [hb.mpr hk]
          exact .now ⟨rfl, hins.liveKeys hP.shape hs.shape⟩
        · have hk : v ∈ liveKeys s.mem := hold.resolve_right fun ho =>
            ho.elim hst fun he => hv.ne he
          have hbf : b = false := Bool.eq_false_iff.mpr fun ht => hb.mp ht hk
          rw [hbf, Set.insert_eq_of_mem hk]
          exact .now ⟨rfl, rfl⟩
    by_cases hk : v ∈ liveKeys s.mem
    · exact key false (by simpa using hk)
    · exact key true (by simpa using hk)

theorem liveKeys_fresh : liveKeys fresh.mem = ∅ := (Seq.initial fresh_fresh).shape.liveKeys_sentinels

/-- The list after an insertion of 5. -/
theorem liveKeys_perform5 {seed : ℕ}
    (hend : (perform true (.fraser_insert 5 1) 100 ⟨fresh, seed, .idle⟩).pc.busy = false) :
    liveKeys (perform true (.fraser_insert 5 1) 100 ⟨fresh, seed, .idle⟩).sh.mem = {5} := by
  have hins : Eventually Next (Returned (.inserted true) (Insert.insert 5 (liveKeys fresh.mem)))
      ⟨fresh, seed, start (.fraser_insert 5 1)⟩ :=
    (Seq.initial fresh_fresh).insert_returned (by decide) (by decide) true (by rw [liveKeys_fresh]; simp)
  have hret := perform_of_eventually true (.fraser_insert 5 1) 100 ⟨fresh, seed, .idle⟩ hins
    (fun _ _ hr => hr.final) hend
  rw [hret.keys, liveKeys_fresh, insert_empty_eq]

/-- The list after an insertion of 5, and a spray that takes 5 and leaves its node linked in and marked. -/
def sprayed5 : Config :=
  perform true (.spray_delete_min 2) 100 (perform true (.fraser_insert 5 1) 100 ⟨fresh, 26, .idle⟩)

theorem sprayed5_history : History Keyed [(.spray_delete_min 2, .deleted true (some 5)),
    (.fraser_insert 5 1, .inserted true)] sprayed5.sh sprayed5.seed := by
  have h₀ : History Keyed [] fresh 26 := .nil 26 fresh_fresh
  have hins : Keyed [] fresh 26 (.fraser_insert 5 1) := ⟨by decide, by decide⟩
  have h₁ := History.perform (a := .inserted true) true 100 ⟨fresh, 26, .idle⟩ h₀ hins (by decide +kernel)
  exact .perform true 100 _ h₁ (Nat.le_succ 1) (by decide +kernel)

/-- The paths agree on 3, whose place is before the deleted node. -/
theorem sl_add_agree_iff_sprayed5 :
    History Keyed [(.spray_delete_min 2, .deleted true (some 5)), (.fraser_insert 5 1, .inserted true)]
      sprayed5.sh sprayed5.seed ∧
    (∃ n, (sprayed5.sh.mem head).next 0 = ref n ∧ (sprayed5.sh.mem n).val = 5 ∧
      (sprayed5.sh.mem n).deleted ≠ 0 ∧ Marked sprayed5.sh.mem 0 n) ∧
    Agree sprayed5.sh sprayed5.seed 3 := by
  have hhead : ∀ i < levelmax, 3 < (sprayed5.sh.mem (succ sprayed5.sh.mem i head)).val ∧
      ((sprayed5.sh.mem head).next i).mark = false := by
    decide +kernel
  have hvisits : ∀ n i, Visits sprayed5.sh.mem 3 head (levelmax - 1) n i → n = head ∧ i < levelmax := by
    intro n i hn
    induction hn with
    | here => exact ⟨rfl, by decide⟩
    | right _ hlt ih =>
      obtain ⟨rfl, hi⟩ := ih
      exact absurd (hhead _ hi).1 hlt.not_gt
    | down _ _ ih => exact ⟨ih.1, Nat.lt_of_succ_lt ih.2⟩
  refine ⟨sprayed5_history, ⟨succ sprayed5.sh.mem 0 head, ?_⟩,
    (sl_add_agree_iff sprayed5_history (by decide)).mpr ⟨fun n i hn hmark => ?_, fun ⟨n, hn, hval, _⟩ => ?_⟩⟩
  · unfold Marked
    decide +kernel
  · obtain ⟨rfl, hi⟩ := hvisits n i hn
    rw [Marked, (hhead i hi).2] at hmark
    cases hmark
  · obtain ⟨rfl, hi⟩ := hvisits n 0 hn
    exact absurd hval (hhead 0 hi).1.ne'

/-- The spray leaves the node of 5 linked in and marked; the insertion of 7 without synchronisation
reads through its pointer. -/
theorem not_sl_add_agree : ¬∀ h s seed, History Keyed h s seed → ∀ v < INT_MAX, Agree s seed v := by
  intro hall
  obtain ⟨b, L, hag⟩ := hall _ _ _ sprayed5_history 7 (by decide)
  have hwild : (perform true (.sl_seq_add 7 1) 100 sprayed5).pc = .wild := by
    rw [← Pc.strayed_iff]
    decide +kernel
  have hret := perform_of_eventually true (.sl_seq_add 7 1) 100 sprayed5 (hag false 1 le_rfl (by decide))
    (fun t u ht => ht.final) (by rw [hwild]; rfl)
  cases hret.pc.symm.trans hwild

/-! ### The empty list -/

/-- Insertions with keys below `INT_MAX` that meet no deleted node, and `delete_min` that takes the
way of the spray where the list is empty. -/
def Sound (_ : List (Op × Answer)) (s : Shared) (seed : ℕ) : Op → Prop
  | .fraser_insert v lvl => v < INT_MAX ∧ 1 ≤ lvl ∧ lvl ≤ levelmax
  | .sl_seq_add v lvl => (v < INT_MAX ∧ 1 ≤ lvl ∧ lvl ≤ levelmax) ∧ Clean s.mem v
  | .spray_delete_min n => 1 ≤ n ∧ (liveKeys s.mem = ∅ → ¬Naive n seed) ∧
      (¬Naive n seed → SCANHEIGHT n < levelmax)
  | _ => False

/-- `delete_min` reported an empty list, with nothing written: neither to `v` nor to memory. -/
structure Reported (s : Shared) (c : Config) : Prop where
  pc : c.pc = .ret (.deleted false none)
  sh : c.sh = s

section Empty

variable {m : Mem} {brk : NodeId} {P : Set NodeId} {seed n : ℕ}

theorem Reported.final {s : Shared} {c c' : Config} (h : Reported s c) : ¬Next c c' :=
  Settled.final (by rw [h.pc]; rfl)

theorem Sound.client {h : List (Op × Answer)} {s : Shared} {op : Op} (ho : Sound h s seed op) :
    Client op := by
  cases op with
  | fraser_insert v lvl => exact ho.2
  | sl_seq_add v lvl => exact ho.1.2
  | spray_delete_min n => exact ho.1
  | fraser_remove _ _ => exact ho
  | naive_delete_min => exact ho

/-- On an empty list the spray reports that. -/
theorem Seq.spray_reports (h : Seq m brk P) (hk : liveKeys m = ∅) (hn : ¬Naive n seed)
    (hlt : SCANHEIGHT n < levelmax) :
    Eventually Next (Reported ⟨m, brk⟩) ⟨⟨m, brk⟩, seed, .spSeed n⟩ := by
  refine h.delete_min (fun hn' => absurd hn' hn) (fun hn' => absurd hn' hn)
    (fun _ hle => absurd hlt (not_lt.mpr hle)) (fun _ y m' _ hy _ _ => ?_) fun _ _ => .now ⟨rfl, rfl⟩
  have hmem : (m y).val ∈ liveKeys m := h.shape.mem_liveKeys.mpr ⟨y, hy, rfl⟩
  rw [hk] at hmem
  exact hmem.elim

/-- `naive_delete_min` increments the tail and returns 1 with nothing written to `v`, or reads through
a null pointer. -/
theorem Seq.naive_fails (h : Seq m brk P) (hk : liveKeys m = ∅) (hn : Naive n seed) :
    Eventually Next (fun c => c.pc = .ret (.deleted true none) ∨ c.pc = .crashed)
      ⟨⟨m, brk⟩, seed, .spSeed n⟩ := by
  refine h.delete_min (fun _ y _ hy => ?_) (fun _ _ => ?_) (fun hno => absurd hn hno)
    (fun hno => absurd hn hno) fun hno => absurd hn hno
  · rw [hk] at hy
    exact hy.1.elim
  · by_cases hd : (m tail).deleted = 0
    · exact h.naive_tail hd (.now (Or.inl rfl))
    · exact h.naive_crash hd (.now (Or.inr rfl))

/-- Every sound call returns. -/
theorem Seq.sound_returns {h : List (Op × Answer)} {op : Op} (hs : Seq m brk P)
    (ho : Sound h ⟨m, brk⟩ seed op) :
    Eventually Next (fun c => ∃ a, c.pc = .ret a) ⟨⟨m, brk⟩, seed, start op⟩ := by
  cases op with
  | fraser_insert v lvl =>
    exact hs.insert ho.1 ho.2 (fun _ _ _ _ => .now ⟨_, rfl⟩) fun _ _ _ _ => .now ⟨_, rfl⟩
  | sl_seq_add v lvl =>
    exact hs.seq_add ho.1.1.le ho.1.2 (fun hno => absurd ho.2 hno)
      (fun _ _ _ _ _ _ _ => .now ⟨_, rfl⟩) fun _ _ => .now ⟨_, rfl⟩
  | spray_delete_min n =>
    exact hs.delete_min (fun _ _ _ _ _ _ => .now ⟨_, rfl⟩) (fun hn hk => absurd hn (ho.2.1 hk))
      (fun hn hle => absurd (ho.2.2 hn) (not_lt.mpr hle)) (fun _ _ _ _ _ _ _ => .now ⟨_, rfl⟩)
      fun _ _ => .now ⟨_, rfl⟩
  | fraser_remove _ _ => exact ho.elim
  | naive_delete_min => exact ho.elim

/-- A call that is sound with both seeds, and draws the same with both where `delete_min` finds a key. -/
structure Meets (s : Shared) (σ τ : ℕ) (op : Op) : Prop where
  left : Sound [] s σ op
  right : Sound [] s τ op
  draws : ∀ n, op = .spray_delete_min n → (liveKeys s.mem).Nonempty → SameDraws n σ τ

/-- With seed `σ` each of the calls returns if it meets the condition, and with seed `τ` the same calls have
executions with the same answers and the same memory. -/
def SameResults : List Op → Shared → ℕ → ℕ → Prop
  | [], _, _, _ => True
  | op :: ops, s, σ, τ => Meets s σ τ op →
      Eventually Next (fun c => ∃ a τ', c.pc = .ret a ∧
        ReflTransGen Next ⟨s, τ, start op⟩ ⟨c.sh, τ', .ret a⟩ ∧ SameResults ops c.sh c.seed τ')
        ⟨s, σ, start op⟩

/-- One call with both seeds. -/
theorem Seq.meets_returns {s : Shared} {σ τ : ℕ} {op : Op} (hs : Seq s.mem s.brk P) (ho : Meets s σ τ op) :
    Eventually Next (fun c => ∃ a τ', c.pc = .ret a ∧
      ReflTransGen Next ⟨s, τ, start op⟩ ⟨c.sh, τ', .ret a⟩) ⟨s, σ, start op⟩ := by
  by_cases hempty : (∃ n, op = .spray_delete_min n) ∧ liveKeys s.mem = ∅
  · -- the spray reports the empty list, whatever is drawn
    obtain ⟨⟨n, rfl⟩, hk⟩ := hempty
    have hσ := ho.left.2.1 hk
    have hτ := ho.right.2.1 hk
    have hlt := ho.left.2.2 hσ
    obtain ⟨⟨s', τ', pc'⟩, hrun, hpc, hsh⟩ := (hs.spray_reports hk hτ hlt).exists_run
    dsimp only at hpc hsh
    rw [hpc, hsh] at hrun
    refine (hs.spray_reports hk hσ hlt).mono fun c hc => ⟨_, τ', hc.pc, ?_⟩
    rw [hc.sh]
    exact hrun
  · have hdrawn : Drawn σ τ (start op) := by
      refine drawn_start fun n he => ho.draws n he ?_
      exact Set.nonempty_iff_ne_empty.mpr fun hk => hempty ⟨⟨n, he⟩, hk⟩
    refine (hs.sound_returns ho.left).reached.mono fun c ⟨⟨a, hpc⟩, hrun⟩ => ?_
    obtain ⟨τ', hrun', -⟩ := hdrawn.run hrun
    exact ⟨a, τ', hpc, hpc ▸ hrun'⟩

/-- **Any number of calls with both seeds.** -/
theorem Seq.sameResults {s : Shared} {σ τ : ℕ} (hs : Seq s.mem s.brk P) (ops : List Op) :
    SameResults ops s σ τ := by
  induction ops generalizing s σ τ P with
  | nil => exact trivial
  | cons op ops ih =>
    intro ho
    refine (hs.meets_returns ho).reached.mono fun c ⟨⟨a, τ', hpc, hrun'⟩, hrun⟩ => ⟨a, τ', hpc, hrun', ?_⟩
    have hset := (hs.call (Sound.client ho.left)).of_final (fun t u ht => Settled.final ht.idle) hrun
      fun u => Settled.final (by rw [hpc]; rfl)
    obtain ⟨P', hP'⟩ := hset.seq a hpc
    exact ih hP'

end Empty

/-- In a history whose calls are sound every further sound call returns, and `delete_min` on an empty
list reports that, with nothing written, if it does not go the way of `naive_delete_min`.  The calls after
it then return what they return without it, as long as the advance of the seed makes no difference to what
they draw. -/
theorem empty_delete_min {h : List (Op × Answer)} {s : Shared} {seed : ℕ}
    (hh : History Sound h s seed) :
    (∀ op, Sound h s seed op →
      Eventually Next (fun c => ∃ a, c.pc = .ret a) ⟨s, seed, start op⟩) ∧
    ∀ n, SCANHEIGHT n < levelmax → liveKeys s.mem = ∅ →
      (Eventually Next (fun c => Reported s c ∧
        ∀ ops, SameResults ops s c.seed seed ∧ SameResults ops s seed c.seed)
        ⟨s, seed, start (.spray_delete_min n)⟩ ↔ ¬Naive n seed) := by
  obtain ⟨P, hP⟩ := hh.seq fun _ _ _ _ => Sound.client
  refine ⟨fun op ho => hP.sound_returns ho, fun n hlt hk => ⟨fun hrep hn => ?_, fun hn => ?_⟩⟩
  · obtain ⟨t, ht, hbad⟩ := hrep.exists_both (hP.naive_fails hk hn) (fun t u ht => ht.1.final)
      fun t u ht => Settled.final (by rcases ht with ht | ht <;> rw [ht] <;> rfl)
    rcases hbad with hbad | hbad <;> cases ht.1.pc.symm.trans hbad
  · exact (hP.spray_reports hk hn hlt).mono fun c hc =>
      ⟨hc, fun ops => ⟨hP.sameResults ops, hP.sameResults ops⟩⟩

/-- The spray takes 5 and leaves its node linked in; another `delete_min` then reports the empty list, and a
later one draws the same as without it. -/
theorem empty_delete_min_linked : ∃ s seed c,
    History Sound [(.spray_delete_min 2, .deleted true (some 5)), (.fraser_insert 5 1, .inserted true)] s seed ∧
    liveKeys s.mem = ∅ ∧ ((s.mem head).next 0).ptr ≠ tail ∧
    ReflTransGen Next ⟨s, seed, start (.spray_delete_min 2)⟩ c ∧ Reported s c ∧ SameDraws 2 c.seed seed ∧
    ∀ ops, SameResults ops s c.seed seed ∧ SameResults ops s seed c.seed := by
  set c₁ := perform true (.fraser_insert 5 1) 100 ⟨fresh, 1028, .idle⟩ with hc₁
  set c₂ := perform true (.spray_delete_min 2) 100 c₁ with hc₂
  set c₃ := perform true (.spray_delete_min 2) 100 c₂ with hc₃
  have h₀ : History Sound [] fresh 1028 := .nil 1028 fresh_fresh
  have h₁ : History Sound [(.fraser_insert 5 1, .inserted true)] c₁.sh c₁.seed :=
    .perform true 100 ⟨fresh, 1028, .idle⟩ h₀ ⟨by decide, by decide⟩ (by decide +kernel)
  have hk₁ : liveKeys c₁.sh.mem = {5} := by
    rw [hc₁]
    exact liveKeys_perform5 (by decide +kernel)
  have hsound₂ : Sound [(.fraser_insert 5 1, .inserted true)] c₁.sh c₁.seed (.spray_delete_min 2) := by
    refine ⟨by decide, fun hk => ?_, fun _ => by decide⟩
    rw [hk₁] at hk
    exact absurd hk (Set.singleton_ne_empty 5)
  have hanswer : (perform true (.spray_delete_min 2) 100 c₁).pc.answer = some (.deleted true (some 5)) := by
    decide +kernel
  have h₂ : History Sound [(.spray_delete_min 2, .deleted true (some 5)),
      (.fraser_insert 5 1, .inserted true)] c₂.sh c₂.seed :=
    .perform true 100 c₁ h₁ hsound₂ hanswer
  have hk₂ : liveKeys c₂.sh.mem = ∅ := by
    obtain ⟨P, hP⟩ := h₁.seq fun _ _ _ _ => Sound.client
    have hdel := perform_of_eventually true (.spray_delete_min 2) 100 c₁ hP.delete_key
      (fun _ _ hr => Settled.final hr.1) (by decide +kernel)
    rw [hc₂, (hdel.2 5 (Pc.answer_iff.mp hanswer)).2, hk₁, Set.sdiff_self]
  have hempty := ((empty_delete_min h₂).2 2 (by decide) hk₂).mpr (by decide +kernel)
  obtain ⟨hrep, hops⟩ := perform_of_eventually true (.spray_delete_min 2) 100 c₂ hempty
    (fun t u ht => ht.1.final) (by decide +kernel)
  exact ⟨c₂.sh, c₂.seed, c₃, h₂, hk₂, by decide +kernel, reaches_iterate true 100 _, hrep, by decide +kernel,
    hops⟩

/-- From the seed 37 the call on the empty list is reported and leaves memory as it was, but 5, inserted
afterwards, is found by the next spray only without that call. -/
theorem exists_other_answer : ∃ c, ReflTransGen Next ⟨fresh, 37, start (.spray_delete_min 2)⟩ c ∧
    Reported fresh c ∧
    (perform true (.spray_delete_min 2) 200 (perform true (.fraser_insert 5 1) 100 c)).pc.answer =
      some (.deleted false none) ∧
    (perform true (.spray_delete_min 2) 200
      (perform true (.fraser_insert 5 1) 100 ⟨fresh, 37, .idle⟩)).pc.answer = some (.deleted true (some 5)) := by
  have hrep := (Seq.initial fresh_fresh).spray_reports liveKeys_fresh (show ¬Naive 2 37 by decide) (by decide)
  exact ⟨perform true (.spray_delete_min 2) 100 ⟨fresh, 37, .idle⟩, reaches_iterate true 100 _,
    perform_of_eventually true (.spray_delete_min 2) 100 ⟨fresh, 37, .idle⟩ hrep (fun _ _ hr => hr.final)
      (by decide +kernel),
    by decide +kernel, by decide +kernel⟩

/-- With one thread `delete_min` on the list just made returns true, with nothing written to `v`, and
the next one reads through a null pointer. -/
theorem not_empty_delete_min : ∃ c, liveKeys fresh.mem = ∅ ∧
    ReflTransGen Next ⟨fresh, 1, start (.spray_delete_min 1)⟩ c ∧
    c.pc = .ret (.deleted true none) ∧
    Eventually Next (fun c => c.pc = .crashed) ⟨c.sh, c.seed, start (.spray_delete_min 1)⟩ := by
  have hP := Seq.initial fresh_fresh
  -- the way of `naive_delete_min` on a list of sentinels
  have key : ∀ {m : Mem} {brk : NodeId} {seed : ℕ} {Q : Config → Prop}, Seq m brk {head, tail} →
      Eventually Next Q ⟨⟨m, brk⟩, nextSeed seed, .nvInc tail⟩ →
      Eventually Next Q ⟨⟨m, brk⟩, seed, .spSeed 1⟩ := by
    intro m brk seed Q h hQ
    refine h.delete_min (fun _ y _ hy => ?_) (fun _ _ => hQ) (fun hno => absurd (Or.inl rfl) hno)
      (fun hno => absurd (Or.inl rfl) hno) fun hno => absurd (Or.inl rfl) hno
    rw [h.shape.liveKeys_sentinels] at hy
    exact hy.1.elim
  have hfirst : Eventually Next (fun c => c.pc = .ret (.deleted true none) ∧
      Eventually Next (fun c => c.pc = .crashed) ⟨c.sh, c.seed, .spSeed 1⟩)
      ⟨fresh, 1, .spSeed 1⟩ := by
    refine key hP (hP.naive_tail rfl (.now ⟨rfl, ?_⟩))
    exact key hP.tail_increment (hP.tail_increment.naive_crash (by decide) (.now rfl))
  obtain ⟨c, hrun, hc⟩ := hfirst.exists_run
  exact ⟨c, liveKeys_fresh, hrun, hc⟩

end ConcurrentPQ.Spray

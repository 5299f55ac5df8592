import ConcurrentPQ.Linden.Delete

/-!
# The invariant of the Linden queue

`Inv G s` says that memory has the shape of the list `G`, that every thread's assertion holds, that
no two threads insert the same node, and what is known of the nodes passed to `free_node`.

* `Inv.step` — **one step** of any thread keeps the invariant and has the effect of its event on the
  list;
* `Inv.of_run` — every state a run reaches satisfies it;
* `liveKeys`, `Shape.mem_liveKeys` — the live set read off memory, and off the list.
-/

namespace ConcurrentPQ.Linden

open ConcurrentPQ.Transition ConcurrentPQ.Segment

/-- The invariant of all reachable states. -/
structure Inv (G : Ghost) (s : State) : Prop where
  shape : Shape s.sh.mem s.sh.brk G
  ok : ∀ t, Ok s.sh.mem s.sh.brk G (s.thr t)
  distinct : ∀ t u, t ≠ u → own (s.thr t) ≠ NULL → own (s.thr t) ≠ own (s.thr u)
  freed : ∀ n ∈ s.sh.freed, Shed s.sh.mem G n ∨
    (n ∉ G.order ∧ firstNode ≤ n ∧ n < s.sh.brk ∧ ∀ t, own (s.thr t) ≠ n)

variable {max_offset : ℤ} {G G' : Ghost} {s s' : State} {t : Tid} {e : Event}

/-- A node being inserted was handed out by `alloc`. -/
theorem Ok.own_lt {m : Mem} {brk : NodeId} (hs : Shape m brk G) {pc : Pc} (h : Ok m brk G pc)
    (hne : own pc ≠ NULL) : firstNode ≤ own pc ∧ own pc < brk := by
  have hplaced : ∀ {f : Frame} {i : ℕ}, Placed m G f i → firstNode ≤ f.new ∧ f.new < brk :=
    fun hp => ⟨hp.ge, hs.lt_brk _ hp.mem⟩
  have hsite : ∀ {f : Frame} {site : Site}, SiteOk m brk G f site →
      firstNode ≤ f.new ∧ f.new < brk := by
    intro f site hp
    cases site with
    | retry => exact ⟨hp.claimed.ge, hp.claimed.lt⟩
    | upper i => exact hplaced hp.1
  cases pc with
  | insLevel f | dupClear f | dupFree f => exact ⟨h.ge, h.lt⟩
  | insInserting f | insClear f | insKey f | insVal f => exact ⟨h.1.ge, h.1.lt⟩
  | locNext f site x i | locKey f site x i y b | locMark f site x i y b => exact hsite h.1
  | dupKey f | dupMark f | dupPtr f | link0 f | cas0 f => exact ⟨h.1.claimed.ge, h.1.claimed.lt⟩
  | upLevel f i | upNew f i | upSucc f i | upStore f i | upCas f i => exact hplaced h.1
  | finish f => exact ⟨h.2, hs.lt_brk _ h.1⟩
  | _ => exact absurd rfl hne

theorem Shed.evolve {m m' : Mem} {w brk brk' : NodeId} (ev : Evolve w m G m' G')
    (hs : Shape m brk G) (hs' : Shape m' brk' G') {n : NodeId} (h : Shed m G n) : Shed m' G' n :=
  ⟨ev.dead h.1, fun j hj => ev.before_headPtr hs' (hs.head_mark_of_dead h.1) hj
    (h.2 0 (by decide)) (h.2 j hj)⟩

/-- The initial state: the list holds the head alone. -/
theorem Inv.initial (h : (lindenQueue max_offset).init s) : Inv ⟨[], head, []⟩ s := by
  obtain ⟨h, htail⟩ := h
  have hord : ∀ n, n ∈ (⟨[], head, []⟩ : Ghost).order ↔ n = head := fun n => by
    simp [Ghost.order]
  have hnext : ∀ i, i < NUM_LEVELS → ((s.sh.mem head).next i) = ref tail := h.head_next
  have hnext0 := hnext 0 (by decide)
  have hsrc : ∀ i, i < NUM_LEVELS → Source s.sh.mem ⟨[], head, []⟩ head i := fun i hi =>
    ⟨(hord head).mpr rfl, by rw [h.head_level]; exact hi, fun j hj => by
      rw [hnext j (lt_of_le_of_lt hj hi)]
      decide⟩
  refine ⟨?_, fun t => by rw [h.idle t]; trivial, fun t u _ hne => ?_, fun n hn => ?_⟩
  · constructor
    case nodup => decide
    case null_notMem => decide
    case lt_brk => exact fun n hn => (hord n).mp hn ▸ lt_of_lt_of_le (by decide) h.brk
    case brk_ge => exact h.brk
    case dead_shape => exact Or.inl ⟨rfl, rfl⟩
    case live_seg =>
      show succ0 s.sh.mem head = tail
      rw [succ0, hnext0]
    case dead_mark => exact fun n hn => absurd hn List.not_mem_nil
    case bound_mark => show ((s.sh.mem head).next 0).mark = false; rw [hnext0]
    case live_mark => exact fun n hn => absurd hn List.not_mem_nil
    case sorted => exact List.Pairwise.nil
    case keys => exact fun n hn hne => absurd ((hord n).mp hn) hne
    case tail_k => exact h.tail_k
    case tail_mark => exact htail
    case head_inserting => exact h.head_inserting
    case head_source => exact hsrc
    case level_pos => intro n hn; rw [(hord n).mp hn, h.head_level]; decide
    case links =>
      intro n hn i hi
      rw [(hord n).mp hn] at hi ⊢
      rw [h.head_level] at hi
      rw [hnext i hi]
      exact Or.inr (Or.inl rfl)
    case upper_mark =>
      intro n hn i _ hi
      rw [(hord n).mp hn] at hi ⊢
      rw [h.head_level] at hi
      rw [hnext i hi]
    case passed =>
      intro n hne hb
      have : n = head := by simpa [Ghost.gone] using hb.left_mem
      exact absurd this hne
  · rw [h.idle t] at hne
    exact absurd rfl hne
  · rw [h.freed] at hn
    cases hn

/-- A step that only moves thread `t` from `pc` to `pc'` and takes the shared state from `r` on keeps
the invariant, if the access is sound. -/
theorem Inv.of_sound (h : Inv G s) {r : Shared × Pc} (hS : Sound s.sh G (s.thr t) r G') :
    Inv G' ⟨r.1, Function.update s.thr t r.2⟩ := by
  have hs := h.shape
  have hlt : ∀ {u}, own (s.thr u) ≠ NULL → own (s.thr u) < s.sh.brk := fun hne =>
    ((h.ok _).own_lt hs hne).2
  have hother : ∀ {u}, u ≠ t → own (s.thr u) ≠ NULL → own r.2 ≠ own (s.thr u) := by
    intro u hu hne
    rcases hS.owned with ho | ho | ⟨ho, -⟩
    · rw [ho]; exact (h.distinct u t hu hne).symm
    · rw [ho]; exact hne.symm
    · rw [ho]; exact Nat.ne_of_gt (hlt hne)
  refine ⟨hS.shape, fun u => ?_, fun u v huv => ?_, fun n hn => ?_⟩
  · dsimp only
    rcases eq_or_ne u t with rfl | hu
    · rw [Function.update_self]
      exact hS.ok
    · rw [Function.update_of_ne hu]
      exact (h.ok u).evolve hS.evolve hs hS.shape hS.brk fun hne => h.distinct u t hu hne
  · dsimp only
    rcases eq_or_ne u t with rfl | hu
    · rw [Function.update_self, Function.update_of_ne huv.symm]
      intro hne he
      exact hother huv.symm (he ▸ hne) he
    · rw [Function.update_of_ne hu]
      intro hne
      rcases eq_or_ne v t with rfl | hv
      · rw [Function.update_self]
        exact (hother hu hne).symm
      · rw [Function.update_of_ne hv]
        exact h.distinct u v huv hne
  · dsimp only at hn ⊢
    have hold : n ∈ s.sh.freed → Shed r.1.mem G' n ∨ (n ∉ G'.order ∧ firstNode ≤ n ∧
        n < r.1.brk ∧ ∀ u, own (Function.update s.thr t r.2 u) ≠ n) := by
      intro hn
      refine (h.freed n hn).imp (Shed.evolve hS.evolve hs hS.shape) ?_
      rintro ⟨hno, hge, hlb, hown⟩
      refine ⟨(hS.evolve.fresh n hno (hown t).symm).2, hge, hlb.trans_le hS.brk, fun u => ?_⟩
      rcases eq_or_ne u t with rfl | hu
      · rw [Function.update_self]
        rcases hS.owned with ho | ho | ⟨ho, -⟩
        · rw [ho]; exact hown u
        · rw [ho]; exact (ne_null_of_ge hge).symm
        · rw [ho]; exact Nat.ne_of_gt hlb
      · rw [Function.update_of_ne hu]
        exact hown u
    rcases hS.freed with hf | ⟨x, hf, hm, rfl, hx⟩
    · exact hold (hf ▸ hn)
    · rw [hf] at hn
      rcases List.mem_cons.mp hn with rfl | hn
      · rw [hm]
        refine hx.imp id ?_
        rintro ⟨rfl, hne, hno, hnull⟩
        obtain ⟨hge, hlb⟩ := (h.ok t).own_lt hs hne
        refine ⟨hno, hge, hlb.trans_le hS.brk, fun u => ?_⟩
        rcases eq_or_ne u t with rfl | hu
        · rw [Function.update_self, hnull]
          exact hne.symm
        · rw [Function.update_of_ne hu]
          exact (h.distinct t u hu.symm hne).symm
      · exact hold hn

/-- What one step does to the list. -/
structure Effect (s : State) (G : Ghost) (t : Tid) (e : Event) (s' : State) (G' : Ghost) :
    Prop where
  evolve : Evolve (own (s.thr t)) s.sh.mem G s'.sh.mem G'
  live : LiveStep (own (s.thr t)) s.sh.mem s'.sh.mem G G' e
  frame : ∀ u, u ≠ t → s'.thr u = s.thr u

theorem Inv.call (h : Inv G s) (hidle : s.thr t = .idle) {op : Op} (hop : Admissible op) :
    Inv G { s with thr := Function.update s.thr t (start op) } := by
  have hown : own (start op) = NULL := by cases op <;> rfl
  have hother : ∀ u, own (Function.update s.thr t (start op) u) = own (s.thr u) := by
    intro u
    rcases eq_or_ne u t with rfl | hu
    · rw [Function.update_self, hown, hidle]; rfl
    · rw [Function.update_of_ne hu]
  refine ⟨h.shape, fun u => ?_, fun u v huv => ?_, fun n hn => ?_⟩
  · dsimp only
    rcases eq_or_ne u t with rfl | hu
    · rw [Function.update_self]
      cases op with
      | insert v lvl => exact ⟨⟨hop.1, hop.2.1⟩, rfl, hop.2.2⟩
      | delete_min => trivial
    · rw [Function.update_of_ne hu]
      exact h.ok u
  · dsimp only
    rw [hother, hother]
    exact h.distinct u v huv
  · refine (h.freed n hn).imp id fun ⟨h1, h2, h3, h4⟩ => ⟨h1, h2, h3, fun u => ?_⟩
    dsimp only
    rw [hother]
    exact h4 u

/-- **The step lemma.** -/
theorem Inv.step (h : Inv G s) (hstep : Step max_offset s t e s') :
    ∃ G', Inv G' s' ∧ Effect s G t e s' G' := by
  cases hstep with
  | call hidle hop =>
    refine ⟨G, h.call hidle hop, ?_, rfl, fun u hu => Function.update_of_ne hu ..⟩
    rw [hidle]
    exact .refl h.shape (show NULL ≠ tail by decide)
  | access hbusy =>
    obtain ⟨htarget, G', hS⟩ := Ok.step max_offset h.shape (h.ok t) hbusy
    have hadv : advance max_offset s t = ⟨(exec s.sh (code max_offset (s.thr t))).1,
        Function.update s.thr t (exec s.sh (code max_offset (s.thr t))).2⟩ := by
      rw [advance, if_neg htarget]
    rw [hadv]
    exact ⟨G', h.of_sound hS, hS.evolve, hS.live, fun u hu => Function.update_of_ne hu ..⟩

/-- **Every state a run reaches satisfies the invariant.** -/
theorem Inv.of_run {tr : List (Entry State Tid Event)}
    (hrun : Run (lindenQueue max_offset) tr s) : ∃ G, Inv G s :=
  hrun.invariant (I := fun s => ∃ G, Inv G s) (fun _ h => ⟨_, .initial h⟩)
    fun _ _ _ _ ⟨_, h⟩ hstep => (h.step hstep).imp fun _ h' => h'.1

/-! ### The level-0 chain and the live set, read off memory -/

/-- The nodes from the head up to, and without, the tail along `next[0]`, marks stripped. -/
inductive OnChain (m : Mem) : NodeId → Prop
  | head : OnChain m head
  | next {n : NodeId} : OnChain m n → succ0 m n ≠ tail → OnChain m (succ0 m n)

/-- The keys of the nodes between head and tail whose level-0 predecessor pointer is unmarked. -/
def liveKeys (m : Mem) : Set ℕ :=
  {k | ∃ p, OnChain m p ∧ ((m p).next 0).mark = false ∧ succ0 m p ≠ tail ∧ (m (succ0 m p)).k = k}

variable {m : Mem} {brk : NodeId}

theorem Shape.order_of_onChain (h : Shape m brk G) {n : NodeId} (hn : OnChain m n) :
    n ∈ G.order := by
  induction hn with
  | head => exact h.head_mem
  | next _ ht ih => exact ((h.succ0_cases ih).resolve_right ht).1

theorem onChain_of_seg {a b : NodeId} {l : List NodeId} (h : Seg (succ0 m) a l b)
    (ha : OnChain m a) (ht : tail ∉ l ++ [b]) : ∀ n ∈ l ++ [b], OnChain m n := by
  induction l generalizing a with
  | nil =>
    intro n hn
    obtain rfl : n = b := by simpa using hn
    exact h ▸ ha
  | cons x l ih =>
    obtain ⟨rfl, h⟩ := h
    rw [List.cons_append, List.mem_cons, not_or] at ht
    intro n hn
    rcases List.mem_cons.mp hn with rfl | hn
    · exact ha
    · refine ih h (ha.next fun he => ht.2 ?_) ht.2 n hn
      rw [← he]
      cases l with
      | nil => rw [h]; exact List.mem_cons_self
      | cons y l => rw [h.1]; exact List.mem_cons_self

/-- The last deleted node is on the chain. -/
theorem Shape.bound_onChain (h : Shape m brk G) : OnChain m G.bound := by
  rcases h.dead_shape with ⟨-, hb⟩ | ⟨D, a, hd, hseg, hh⟩
  · rw [hb]; exact .head
  · -- the head points into the deleted nodes; follow them to the end
    have ht : tail ∉ D ++ [G.bound] := fun hm => h.tail_notMem (G.gone_subset (by
      rw [Ghost.gone, hd, List.cons_append]
      exact List.mem_cons_of_mem _ hm))
    have hstart : OnChain m (succ0 m head) := OnChain.head.next fun he => ht (he ▸ hh)
    rcases List.mem_append.mp hh with hD | hb
    · obtain ⟨l₁, l₂, rfl⟩ := List.append_of_mem hD
      have h2 : Seg (succ0 m) (succ0 m head) (succ0 m head :: l₂) G.bound :=
        ⟨rfl, (seg_append_cons.mp hseg).2⟩
      refine onChain_of_seg h2 hstart (fun hm => ht ?_) _ (by simp)
      rw [List.append_assoc]
      exact List.mem_append_right _ hm
    · rw [← List.mem_singleton.mp hb]
      exact hstart

theorem Shape.live_onChain (h : Shape m brk G) {n : NodeId} (hn : n ∈ G.live) : OnChain m n := by
  have hseg : Seg (succ0 m) G.bound (G.bound :: G.live) tail := ⟨rfl, h.live_seg⟩
  have hmem : n ∈ G.bound :: G.live := List.mem_cons_of_mem _ hn
  obtain ⟨l₁, l₂, hl⟩ := List.append_of_mem hmem
  rw [hl] at hseg
  refine onChain_of_seg (seg_append_cons.mp hseg).1 h.bound_onChain (fun ht => ?_) n (by simp)
  refine h.tail_notMem (G.mem_order.mpr (Or.inr (List.mem_cons.mp ?_)))
  rw [hl]
  have : l₁ ++ n :: l₂ = (l₁ ++ [n]) ++ l₂ := by simp
  rw [this]
  exact List.mem_append_left _ ht

/-- The live set is the set of the keys of the live nodes. -/
theorem Shape.mem_liveKeys (h : Shape m brk G) {k : ℕ} :
    k ∈ liveKeys m ↔ ∃ n ∈ G.live, (m n).k = k := by
  constructor
  · rintro ⟨p, hp, hm, ht, hk⟩
    have hl := h.succ0_live (h.bound_or_live (h.order_of_onChain hp) hm)
    exact ⟨_, hl.resolve_right ht, hk⟩
  · rintro ⟨n, hn, hk⟩
    -- the predecessor of `n` is the last deleted node or a live one
    obtain ⟨l₁, l₂, hl⟩ := List.append_of_mem hn
    have hseg : Seg (succ0 m) G.bound (G.bound :: G.live) tail := ⟨rfl, h.live_seg⟩
    obtain ⟨p, hp, hpn⟩ : ∃ p, (p = G.bound ∨ p ∈ G.live) ∧ succ0 m p = n := by
      rw [hl, ← List.cons_append] at hseg
      obtain ⟨hpre, -⟩ := seg_append_cons.mp hseg
      rcases List.eq_nil_or_concat l₁ with rfl | ⟨l, p, rfl⟩
      · exact ⟨G.bound, Or.inl rfl, hpre.2⟩
      · rw [List.concat_eq_append, ← List.cons_append, seg_concat] at hpre
        exact ⟨p, Or.inr (by rw [hl]; simp), hpre.2⟩
    refine ⟨p, ?_, ?_, ?_, ?_⟩
    · rcases hp with rfl | hp
      · exact h.bound_onChain
      · exact h.live_onChain hp
    · rcases hp with rfl | hp
      · exact h.bound_mark
      · exact h.live_mark p hp
    · rw [hpn]
      exact h.ne_tail (G.mem_order.mpr (Or.inr (Or.inr hn)))
    · rw [hpn, hk]

/-- Different live nodes have different keys. -/
theorem Shape.live_inj (h : Shape m brk G) {a b : NodeId} (ha : a ∈ G.live) (hb : b ∈ G.live)
    (hk : (m a).k = (m b).k) : a = b := by
  by_contra hne
  have hlt := h.sorted
  rcases before_total ha hb with he | hab | hba
  · exact hne he
  · have := List.pairwise_pair.mp (hlt.sublist hab)
    omega
  · have := List.pairwise_pair.mp (hlt.sublist hba)
    omega

end ConcurrentPQ.Linden

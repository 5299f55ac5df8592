import ConcurrentPQ.Linden.Invariant
import Mathlib.Logic.Relation

/-!
# Memory reclamation in the Linden queue

`deletemin` frees the nodes the head has passed.  They stay out of reach as long as every link leads
forward in the level-0 order.  The one access that can break this is the store `new->next[i] =
succs[i]`: `succs[i]` may be the last deleted node, behind which `new` was inserted, and that node
carries no mark the test above the store could see.

* `OnPath` — the descending search paths from the head;
* `Forward`, `OkAhead` — links lead forward, and what the inserting threads know to keep it so;
* `StoresAhead` — the condition: `succs[i]` lies behind `new`;
* `freed_neverFound` — **freed nodes are never found** in runs whose steps all meet the condition;
* `freed_found` — a run in which a freed node is found.
-/

namespace ConcurrentPQ.Linden

open ConcurrentPQ.Transition ConcurrentPQ.Segment

/-- The descending search paths from the head: they follow `next[i]`, marks stripped, and `i` never
increases. -/
inductive OnPath (m : Mem) : NodeId → ℕ → Prop
  | head {i : ℕ} : i < NUM_LEVELS → OnPath m head i
  | next {n : NodeId} {i : ℕ} : OnPath m n i → n ≠ tail → OnPath m ((m n).next i).ptr i
  | down {n : NodeId} {i j : ℕ} : OnPath m n i → j ≤ i → OnPath m n j

/-- Following `next[0]` from `a`, marks stripped, leads to `b`. -/
def Reaches (m : Mem) : NodeId → NodeId → Prop :=
  Relation.TransGen fun a b => a ≠ tail ∧ succ0 m a = b

/-- The condition on a step: when `insert` stores `succs[i]` into `new->next[i]`, the node
`succs[i]` lies behind `new` on level 0. -/
def StoresAhead (x : Entry State Tid Event) : Prop :=
  ∀ f i, x.pre.thr x.who = .upStore f i → Reaches x.pre.sh.mem f.new (f.succs i)

/-! ### Links lead forward -/

/-- Every upper link of a node other than the head leads forward. -/
def Forward (m : Mem) (G : Ghost) : Prop :=
  ∀ n ∈ G.order, n ≠ head → ∀ i, 0 < i → i < (m n).level → ((m n).next i).ptr ≠ NULL →
    Before G.all n ((m n).next i).ptr

/-- The predecessors recorded above level `i` were found on a search for the key. -/
def Searched (m : Mem) (G : Ghost) (f : Frame) (i : ℕ) : Prop :=
  ∀ j, i < j → j < NUM_LEVELS → SearchFrom m G f.k (f.preds j)

/-- The recorded upper predecessors stand before the new node. -/
def Ahead (G : Ghost) (f : Frame) : Prop :=
  ∀ j, 0 < j → j < NUM_LEVELS → Before G.all (f.preds j) f.new

/-- What an inserting thread knows about its recorded predecessors. -/
def OkAhead (m : Mem) (G : Ghost) : Pc → Prop
  | .locNext f _ _ i => Searched m G f i
  | .locKey f _ _ i x_next d | .locMark f _ _ i x_next d => Searched m G f i ∧
      (i = 0 → d = false → x_next = f.new → Ahead G f)
  | .dupKey f | .dupMark f | .dupPtr f | .link0 f | .cas0 f => Searched m G f 0
  | .upLevel f _ | .upNew f _ | .upSucc f _ | .upStore f _ | .upCas f _ => Ahead G f
  | _ => True

variable {m m' : Mem} {brk brk' : NodeId} {G G' : Ghost} {w : NodeId} {f : Frame}

theorem Searched.evolve (e : Evolve w m G m' G') {i : ℕ} (h : Searched m G f i) :
    Searched m' G' f i := fun j hj hl => (h j hj hl).evolve e

theorem Ahead.evolve (e : Evolve w m G m' G') (h : Ahead G f) : Ahead G' f :=
  fun j hj hl => (h j hj hl).mono e.all

theorem OkAhead.evolve (e : Evolve w m G m' G') {pc : Pc} (h : OkAhead m G pc) :
    OkAhead m' G' pc := by
  cases pc with
  | locNext f site x i => exact Searched.evolve e h
  | locKey f site x i y d | locMark f site x i y d =>
    exact ⟨h.1.evolve e, fun h1 h2 h3 => (h.2 h1 h2 h3).evolve e⟩
  | dupKey f | dupMark f | dupPtr f | link0 f | cas0 f => exact Searched.evolve e h
  | upLevel f i | upNew f i | upSucc f i | upStore f i | upCas f i => exact Ahead.evolve e h
  | _ => trivial

/-- A node where a search for the key of a live node may stand comes before that node. -/
theorem SearchFrom.before (hs : Shape m brk G) {x n : NodeId} (hn : n ∈ G.live)
    (h : SearchFrom m G (m n).k x) : Before G.all x n := by
  have hgone : ∀ {y}, y ∈ G.gone → Before G.all y n := by
    intro y hy
    refine (before_append hy hn).mono ?_
    rw [Ghost.all, G.order_eq]
    exact List.sublist_append_left _ _
  rcases h with hg | ⟨hx, hk⟩
  · exact hgone hg
  · rcases G.mem_order.mp hx with hd | rfl | hl
    · exact hgone (List.mem_append_left _ hd)
    · exact hgone G.bound_mem
    · have hsub : G.live.Sublist G.all := by
        rw [Ghost.all, G.order_eq, List.append_assoc]
        exact (List.sublist_append_left _ _).trans (List.sublist_append_right _ _)
      rcases before_total hl hn with rfl | hb | hb
      · exact absurd hk (lt_irrefl _)
      · exact hb.mono hsub
      · have := List.pairwise_pair.mp (hs.sorted.sublist hb)
        omega

/-! ### The thread's own accesses -/

theorem Searched.record {i : ℕ} {x x_next : NodeId} (h : Searched m G f i)
    (hx : SearchFrom m G f.k x) {j : ℕ} (hj : i ≤ j) (hl : j < NUM_LEVELS) :
    SearchFrom m G f.k ((f.record i x x_next).preds j) := by
  rcases eq_or_lt_of_le hj with rfl | hj
  · simpa [Frame.record] using hx
  · simpa [Frame.record, Nat.ne_of_gt hj] using h j hj hl

theorem OkAhead.locBody {site : Site} {i : ℕ} {x_next : NodeId} {d : Bool}
    (h : Searched m G f i) : OkAhead m G (locBody f site i x_next d) := by
  unfold Linden.locBody
  split <;> exact h

theorem OkAhead.locDown {site : Site} {x x_next : NodeId} {i : ℕ} (h : Searched m G f i)
    (hx : SearchFrom m G f.k x) (hnew : i = 0 → x_next = f.new → Ahead G f) :
    OkAhead m G (locDown f site x i x_next) := by
  unfold Linden.locDown
  split
  · rename_i hi
    subst hi
    cases site with
    | retry => exact fun j hj hl => h.record hx hj.le hl
    | upper k =>
      rw [Linden.located]
      split
      · trivial
      · rename_i hne
        have heq : x_next = f.new := by simpa [Frame.record] using hne
        intro j hj hl
        have := hnew rfl heq j hj hl
        simpa [Frame.record, Nat.ne_of_gt hj] using this
  · exact fun j hj hl => h.record hx (by omega) hl

/-- The new node, read through an unmarked level-0 pointer, is live. -/
theorem Ahead.of_unmarked (hs : Shape m brk G) {x : NodeId} (hx : x ∈ G.order)
    (hm : ((m x).next 0).mark = false) (he : succ0 m x = f.new) (hne : f.new ≠ tail)
    (hk : (m f.new).k = f.k) (h : Searched m G f 0) : Ahead G f := by
  intro j hj hl
  have hlive := (hs.succ0_live (hs.bound_or_live hx hm)).resolve_right (he ▸ hne)
  rw [he] at hlive
  exact SearchFrom.before hs hlive (hk ▸ h j hj hl)

theorem OkAhead.delLoop (d : DelFrame) (nxt : Ref) : OkAhead m G (delLoop d nxt) := by
  unfold Linden.delLoop
  split <;> trivial

theorem OkAhead.delSkip (d : DelFrame) : OkAhead m G (delSkip d) := by
  unfold Linden.delSkip
  split
  · exact .delLoop _ _
  · trivial

theorem OkAhead.rcTest (d : DelFrame) (cur : NodeId) : OkAhead m G (rcTest d cur) := by
  unfold Linden.rcTest
  split <;> trivial

theorem OkAhead.rsDown (d : DelFrame) (i : ℕ) (pred : Ref) : OkAhead m G (rsDown d i pred) := by
  unfold Linden.rsDown
  split
  · trivial
  · exact .rcTest _ _

/-- What the access at `pc` leaves its own thread knowing. -/
theorem OkAhead.step {max_offset : ℤ} {s : Shared} {pc : Pc} (hs : Shape s.mem s.brk G)
    (h : Ok s.mem s.brk G pc) (hf : OkAhead s.mem G pc)
    (hS : Sound s G pc (exec s (code max_offset pc)) G') :
    OkAhead (exec s (code max_offset pc)).1.mem G' (exec s (code max_offset pc)).2 := by
  have e := hS.evolve
  have hev : ∀ {q}, OkAhead s.mem G q → OkAhead (exec s (code max_offset pc)).1.mem G' q :=
    fun hp => hp.evolve e
  cases pc with
  | insVal f => exact fun j h1 h2 => absurd h1 (Nat.not_lt.mpr (Nat.le_sub_one_of_lt h2))
  | locNext f site x i =>
    refine hev ⟨hf, fun hi hd he => ?_⟩
    subst hi
    have hx := h.2.source.mem
    have hnew : f.new ∈ G.all := he ▸ hs.succ0_mem_all hx
    cases site with
    | retry =>
      exact absurd hnew fun hn => (G.mem_all.mp hn).elim h.1.claimed.notMem
        (ne_tail_of_ge h.1.claimed.ge)
    | upper j => exact .of_unmarked hs hx hd he (ne_tail_of_ge h.1.1.ge) h.1.1.key hf
  | locKey f site x i x_next d =>
    refine hev ?_
    dsimp only [code, exec]
    split
    · exact .locBody hf.1
    · exact hf
  | locMark f site x i x_next d =>
    refine hev ?_
    dsimp only [code, exec]
    split
    · exact .locBody hf.1
    · rename_i hc
      refine .locDown hf.1 h.2.1.from_ fun hi he => hf.2 hi ?_ he
      by_contra hd
      exact hc (Or.inr ⟨hi, by simpa using hd⟩)
  | dupKey f =>
    refine hev ?_
    dsimp only [code, exec]
    split <;> exact hf
  | dupMark f =>
    refine hev ?_
    dsimp only [code, exec]
    split <;> exact hf
  | dupPtr f =>
    refine hev ?_
    dsimp only [code, exec]
    split
    · trivial
    · exact hf
  | link0 f => exact hev hf
  | cas0 f =>
    have hlive := hS.live
    have hs' := hS.shape
    have hf' := hev (q := .cas0 f) hf
    dsimp only [code, exec, event] at hlive hs' hf' ⊢
    split
    · rename_i he
      rw [if_pos he] at hlive hs' hf'
      rw [if_pos he] at hlive
      obtain ⟨⟨p, hspl⟩, -, hk⟩ := hlive
      have hnl : f.new ∈ G'.live := hspl.live_mem.mpr (Or.inl rfl)
      exact fun j hj hl => SearchFrom.before hs' hnl (hk ▸ hf' j hj hl)
    · exact fun j h1 h2 => absurd h1 (Nat.not_lt.mpr (Nat.le_sub_one_of_lt h2))
  | upLevel f i =>
    refine hev ?_
    dsimp only [code, exec]
    split
    · exact hf
    · trivial
  | upNew f i =>
    refine hev ?_
    dsimp only [code, exec]
    split
    · trivial
    · exact hf
  | upSucc f i =>
    refine hev ?_
    dsimp only [code, exec]
    split
    · trivial
    · exact hf
  | upStore f i => exact hev hf
  | upCas f i =>
    have hf' := hev (q := .upCas f i) hf
    dsimp only [code, exec] at hf' ⊢
    split
    · rename_i he
      rw [if_pos he] at hf'
      exact hf'
    · exact fun j h1 h2 => absurd h1 (Nat.not_lt.mpr (Nat.le_sub_one_of_lt h2))
  | delLoad d =>
    dsimp only [code, exec]
    split
    · trivial
    · split
      · trivial
      · exact .delSkip _
  | delInserting d => exact .delSkip _
  | delFao d => exact .delLoop _ _
  | delVal d | delCheck d | delSwing d =>
    dsimp only [code, exec]
    split <;> trivial
  | rsTest d i pred hd cur =>
    dsimp only [code, exec]
    split
    · trivial
    · exact .rsDown _ _ _
  | rsWalk d i pred hd cur =>
    dsimp only [code, exec]
    split <;> trivial
  | rsCas d i pred hd cur =>
    dsimp only [code, exec]
    split
    · exact .rsDown _ _ _
    · trivial
  | rcFree d cur nxt => exact .rcTest _ _
  | idle | crashed | insAlloc _ _ _ | insLevel _ | insInserting _ | insClear _ | insKey _
  | dupClear _ | dupFree _ | finish _ | delObs | rsHead _ _ _ | rsCur _ _ _ _ | rsStep _ _ _ _
  | rcLoad _ _ | ret _ => trivial

/-- The list gains at most the node whose level-0 CAS succeeds. -/
theorem Sound.order_cases {s : Shared} {pc : Pc} {r : Shared × Pc} (hS : Sound s G pc r G')
    {n : NodeId} (hn : n ∈ G'.order) : n ∈ G.order ∨ ∃ f, pc = .cas0 f ∧ n = f.new := by
  have hlive := hS.live
  cases pc with
  | cas0 f =>
    dsimp only [event] at hlive
    split at hlive
    · obtain ⟨⟨p, hspl⟩, -⟩ := hlive
      exact (hspl.order_mem.mp hn).symm.imp id fun hn => ⟨f, rfl, hn⟩
    · obtain rfl : G' = G := hlive
      exact Or.inl hn
  | dupPtr f =>
    dsimp only [event] at hlive
    split at hlive
    · obtain ⟨rfl, -⟩ := hlive
      exact Or.inl hn
    · obtain rfl : G' = G := hlive
      exact Or.inl hn
  | delFao d =>
    dsimp only [event] at hlive
    split at hlive
    · obtain rfl : G' = G := hlive
      exact Or.inl hn
    · exact Or.inl (hlive.2 ▸ hn)
  | _ =>
    obtain rfl : G' = G := hlive
    exact Or.inl hn

/-- The upper links an access changes: those `insert` stores and those its CAS writes. -/
theorem upper_links (max_offset : ℤ) {s : Shared} {pc : Pc} (h : Ok s.mem s.brk G pc)
    {n : NodeId} (hn : n ∈ G.order) (hne : n ≠ head) {i : ℕ} (hi : 0 < i) :
    ((exec s (code max_offset pc)).1.mem n).next i = (s.mem n).next i ∨
    (∃ f, pc = .upStore f i ∧ n = f.new ∧
      ((exec s (code max_offset pc)).1.mem n).next i = ref (f.succs i)) ∨
    (∃ f, pc = .upCas f i ∧ n = f.preds i ∧
      ((exec s (code max_offset pc)).1.mem n).next i = ref f.new) := by
  have hi0 : i ≠ 0 := Nat.ne_of_gt hi
  cases pc with
  | insLevel f =>
    refine Or.inl (congrArg (fun x => x.next i) (modify_ne _ _ n _ ?_))
    rintro rfl
    exact h.notMem hn
  | insInserting f | insClear f | insKey f | insVal f =>
    refine Or.inl (congrArg (fun x => x.next i) (modify_ne _ _ n _ ?_))
    rintro rfl
    exact h.1.notMem hn
  | dupClear f =>
    refine Or.inl (congrArg (fun x => x.next i) (modify_ne _ _ n _ ?_))
    rintro rfl
    exact h.notMem hn
  | link0 f => exact Or.inl (setNext_level_ne _ _ _ _ _ _ hi0)
  | cas0 f =>
    dsimp only [code, exec]
    split
    · exact Or.inl (setNext_level_ne _ _ _ _ _ _ hi0)
    · exact Or.inl rfl
  | upStore f j =>
    dsimp only [code, exec]
    rw [setNext_next]
    split
    · rename_i he
      obtain ⟨rfl, rfl⟩ := he
      exact Or.inr (Or.inl ⟨f, rfl, rfl, rfl⟩)
    · exact Or.inl rfl
  | upCas f j =>
    dsimp only [code, exec]
    split
    · dsimp only
      rw [setNext_next]
      split
      · rename_i he
        obtain ⟨rfl, rfl⟩ := he
        exact Or.inr (Or.inr ⟨f, rfl, rfl, rfl⟩)
      · exact Or.inl rfl
    · exact Or.inl rfl
  | finish f =>
    refine Or.inl ?_
    dsimp only [code, exec]
    by_cases he : n = f.new
    · rw [he, modify_same]
    · rw [modify_ne _ _ _ _ he]
  | delFao d => exact Or.inl (setNext_level_ne _ _ _ _ _ _ hi0)
  | delSwing d =>
    dsimp only [code, exec]
    split
    · exact Or.inl (setNext_level_ne _ _ _ _ _ _ hi0)
    · exact Or.inl rfl
  | rsCas d j pred hd cur =>
    dsimp only [code, exec]
    split
    · refine Or.inl ?_
      dsimp only
      rw [setNext_node_ne _ _ _ _ _ hne]
    · exact Or.inl rfl
  | _ => exact Or.inl rfl

/-- Following `next[0]` from a node of the list other than the head leads forward. -/
theorem Reaches.before (hs : Shape m brk G) {a b : NodeId} (h : Reaches m a b)
    (ha : a ∈ G.order) (hne : a ≠ head) : Before G.all a b := by
  have key : Before G.all a b ∧ (b ∈ G.order ∧ b ≠ head ∨ b = tail) := by
    induction h with
    | single hb =>
      obtain ⟨-, rfl⟩ := hb
      exact ⟨hs.before_succ0 ha hne, hs.succ0_cases ha⟩
    | tail _ hb ih =>
      obtain ⟨ht, rfl⟩ := hb
      obtain ⟨hbef, hc⟩ := ih
      obtain ⟨hbo, hbh⟩ := hc.resolve_right ht
      exact ⟨hbef.trans hs.nodup (hs.before_succ0 hbo hbh), hs.succ0_cases hbo⟩
  exact key.1

/-- **One access keeps links leading forward**, if it meets the condition. -/
theorem Forward.step {max_offset : ℤ} {s : Shared} {pc : Pc} (hs : Shape s.mem s.brk G)
    (h : Ok s.mem s.brk G pc) (ha : OkAhead s.mem G pc) (hfw : Forward s.mem G)
    (hc : ∀ f i, pc = .upStore f i → Reaches s.mem f.new (f.succs i))
    (hS : Sound s G pc (exec s (code max_offset pc)) G') :
    Forward (exec s (code max_offset pc)).1.mem G' := by
  intro n hn hne i hi hlv hnn
  rcases hS.order_cases hn with hn | ⟨f, rfl, rfl⟩
  · rw [(hS.evolve.data n hn).2.2] at hlv
    rcases upper_links max_offset h hn hne hi with he | ⟨f, rfl, rfl, he⟩ |
      ⟨f, rfl, rfl, he⟩
    · rw [he] at hnn ⊢
      exact (hfw n hn hne i hi hlv hnn).mono hS.evolve.all
    · rw [he]
      exact ((hc f i rfl).before hs hn hne).mono hS.evolve.all
    · rw [he]
      exact (ha i hi (h.1.lt_levels h.2.2.1)).mono hS.evolve.all
  · -- the node just spliced in has no upper links yet
    refine absurd ?_ hnn
    have hclear := h.1.clear i hi
    dsimp only [code, exec] at hlv ⊢
    split at hlv
    · rename_i he
      dsimp only at hlv
      rw [setNext_level, h.1.level] at hlv
      rw [if_pos he]
      dsimp only
      rw [setNext_level_ne _ _ _ _ _ _ (Nat.ne_of_gt hi), hclear hlv]
    · rename_i he
      dsimp only at hlv
      rw [h.1.level] at hlv
      rw [if_neg he]
      dsimp only
      rw [hclear hlv]

/-! ### Runs -/

/-- The invariant of runs whose steps all meet the condition. -/
structure AheadInv (G : Ghost) (s : State) : Prop where
  inv : Inv G s
  forward : Forward s.sh.mem G
  ahead : ∀ t, OkAhead s.sh.mem G (s.thr t)

variable {max_offset : ℤ} {s s' : State} {t : Tid} {e : Event}

theorem AheadInv.step (h : AheadInv G s) (hstep : Step max_offset s t e s')
    (hc : StoresAhead ⟨s, t, e, s'⟩) : ∃ G', AheadInv G' s' := by
  cases hstep with
  | call hidle hop =>
    refine ⟨G, h.inv.call hidle hop, h.forward, fun u => ?_⟩
    dsimp only
    rcases eq_or_ne u t with rfl | hu
    · rw [Function.update_self]
      rename_i op
      cases op <;> trivial
    · rw [Function.update_of_ne hu]
      exact h.ahead u
  | access hbusy =>
    have hs := h.inv.shape
    have hok := h.inv.ok t
    obtain ⟨htarget, G', hS⟩ := Ok.step max_offset hs hok hbusy
    have hadv : advance max_offset s t = ⟨(exec s.sh (code max_offset (s.thr t))).1,
        Function.update s.thr t (exec s.sh (code max_offset (s.thr t))).2⟩ := by
      rw [advance, if_neg htarget]
    rw [hadv]
    refine ⟨G', h.inv.of_sound hS, ?_, fun u => ?_⟩
    · exact Forward.step hs hok (h.ahead t) h.forward hc hS
    · dsimp only
      rcases eq_or_ne u t with rfl | hu
      · rw [Function.update_self]
        exact OkAhead.step hs hok (h.ahead u) hS
      · rw [Function.update_of_ne hu]
        exact (h.ahead u).evolve hS.evolve

/-- Where a descending search path stands. -/
theorem OnPath.source (hs : Shape m brk G) {n : NodeId} {i : ℕ} (h : OnPath m n i) :
    n = tail ∨ Source m G n i := by
  induction h with
  | head hi => exact Or.inr (hs.head_source _ hi)
  | next _ hne ih => exact (hs.load_target (ih.resolve_left hne)).imp id And.right
  | down _ hj ih => exact ih.imp id fun h => h.down hj

/-- A node all of the head's pointers have passed stays behind every descending search path. -/
theorem Shed.before_path (hs : Shape m brk G) (hfw : Forward m G) {x : NodeId}
    (hx : Shed m G x) {n : NodeId} {i : ℕ} (h : OnPath m n i) :
    n = head ∨ Before G.all x n := by
  induction h with
  | head _ => exact Or.inl rfl
  | down _ _ ih => exact ih
  | @next n i hp hne ih =>
    have hsrc := (hp.source hs).resolve_left hne
    refine Or.inr ?_
    rcases eq_or_ne n head with rfl | hnh
    · refine hx.2 i (lt_of_lt_of_le hsrc.lt ?_)
      exact (hs.level_pos head hs.head_mem).2
    · refine (ih.resolve_left hnh).trans hs.nodup ?_
      rcases Nat.eq_zero_or_pos i with rfl | hi
      · exact hs.before_succ0 hsrc.mem hnh
      · exact hfw n hsrc.mem hnh i hi hsrc.lt (hsrc.nonnull i le_rfl)

theorem AheadInv.of_run {tr : List (Entry State Tid Event)}
    (hrun : Run (lindenQueue max_offset) tr s) (hc : ∀ x ∈ tr, StoresAhead x) :
    ∃ G, AheadInv G s := by
  refine hrun.invariant_of (I := fun s => ∃ G, AheadInv G s) ?_ ?_ hc
  · refine fun s h => ⟨_, .initial h, ?_, fun t => by rw [h.1.idle t]; trivial⟩
    intro n hn hne
    exact absurd (by simpa [Ghost.order] using hn) hne
  · rintro s t e s' ⟨G, h⟩ hst hx
    exact h.step hst hx

/-- No search path leads to a node passed to `free_node`. -/
theorem AheadInv.not_onPath (h : AheadInv G s) {n : NodeId} (hn : n ∈ s.sh.freed) (i : ℕ) :
    ¬OnPath s.sh.mem n i := by
  intro hp
  have hs := h.inv.shape
  rcases h.inv.freed n hn with hshed | ⟨hno, hge, -⟩
  · rcases hshed.before_path hs h.forward hp with he | hb
    · exact hshed.1.2 he
    · exact Before.irrefl hs.nodup hb
  · rcases hp.source hs with he | hsrc
    · exact ne_tail_of_ge hge he
    · exact hno hsrc.mem

/-- Nodes passed to `free_node` are remembered. -/
theorem freed_subset_exec {π : Type} (r : Shared) (i : Instr π) :
    r.freed ⊆ (exec r i).1.freed := by
  cases i with
  | freeNode n c => exact List.subset_cons_self n r.freed
  | casNext n i old new c =>
    dsimp only [exec]
    split <;> exact List.Subset.refl _
  | _ => exact List.Subset.refl _

/-- Only the recycling loop of `deletemin` shows a free. -/
theorem event_eq_freed {pc : Pc} {n : NodeId} (h : event m pc = .freed n) :
    ∃ d nxt, pc = .rcFree d n nxt := by
  cases pc with
  | rcFree d cur nxt => exact ⟨d, nxt, by rw [Event.freed.inj h]⟩
  | cas0 f | dupPtr f | delFao d => dsimp only [event] at h; split at h <;> cases h
  | _ => cases h

theorem mem_freed_of_event {tr : List (Entry State Tid Event)}
    (hrun : Run (lindenQueue max_offset) tr s) :
    ∀ x ∈ tr, ∀ n, x.ev = .freed n → n ∈ s.sh.freed := by
  refine hrun.history (I := fun tr s => ∀ x ∈ tr, ∀ n, x.ev = .freed n → n ∈ s.sh.freed)
    (fun _ _ x hx => absurd hx List.not_mem_nil) ?_
  intro tr s t e s' hr ih hst x hx n hn
  cases hst with
  | call hidle hop =>
    rcases List.mem_cons.mp hx with rfl | hx
    · cases hn
    · exact ih x hx n hn
  | access hbusy =>
    obtain ⟨G, hinv⟩ := Inv.of_run hr
    obtain ⟨htarget, -⟩ := Ok.step max_offset hinv.shape (hinv.ok t) hbusy
    rw [advance, if_neg htarget]
    rcases List.mem_cons.mp hx with rfl | hx
    · obtain ⟨d, nxt, hpc⟩ := event_eq_freed hn
      rw [hpc]
      exact List.mem_cons_self
    · exact freed_subset_exec _ _ (ih x hx n hn)

/-- No node freed by `deletemin` in the run lies on a descending search path. -/
def NeverFound (tr : List (Entry State Tid Event)) (s : State) : Prop :=
  ∀ x ∈ tr, ∀ n, x.ev = .freed n → ∀ i, ¬OnPath s.sh.mem n i

/-- **Freed nodes are never found.**  In a run in which every `insert` stores only links that lead
forward, no state reached has a descending search path to a node `deletemin` has freed. -/
theorem freed_neverFound (max_offset : ℤ) {tr : List (Entry State Tid Event)} {s : State}
    (hrun : Run (lindenQueue max_offset) tr s) (hc : ∀ x ∈ tr, StoresAhead x) :
    NeverFound tr s := by
  obtain ⟨G, h⟩ := AheadInv.of_run hrun hc
  exact fun x hx n hn i => h.not_onPath (mem_freed_of_event hrun x hx n hn) i

/-- A check that is enough for `StoresAhead`: `succs[i]` is the level-0 successor of `new`. -/
def storesNext (x : Entry State Tid Event) : Bool :=
  match x.pre.thr x.who with
  | .upStore f i => decide (f.new ≠ tail ∧ succ0 x.pre.sh.mem f.new = f.succs i)
  | _ => true

theorem storesAhead_of_storesNext {x : Entry State Tid Event} (h : storesNext x = true) :
    StoresAhead x := by
  intro f i hf
  rw [storesNext, hf] at h
  exact .single (of_decide_eq_true h)

/-- A run that meets the condition: two keys are inserted and removed again, and the first node is
freed. -/
theorem exists_storesAhead : ∃ tr s, Run (lindenQueue 0) tr s ∧ (∃ x ∈ tr, x.ev = .freed 3) ∧
    ∀ x ∈ tr, StoresAhead x := by
  obtain ⟨tr, s, hrun, hc⟩ := exists_run_of_schedule 0
    (turn 0 (some (.insert 5 2)) 113 ++ turn 0 (some (.insert 6 1)) 110 ++
      turn 0 (some .delete_min) 7 ++ turn 0 (some .delete_min) 109)
    (fun c => c.1.all storesNext && c.1.any fun x => decide (x.ev = .freed 3))
    (by decide +kernel)
  simp only [Bool.and_eq_true, List.all_eq_true, List.any_eq_true, decide_eq_true_eq] at hc
  exact ⟨tr, s, hrun, hc.2, fun x hx => storesAhead_of_storesNext (hc.1 x hx)⟩

theorem freed_neverFound_two : ∃ tr s, Run (lindenQueue 0) tr s ∧
    (∃ x ∈ tr, x.ev = .freed 3) ∧ NeverFound tr s := by
  obtain ⟨tr, s, hrun, hfreed, hc⟩ := exists_storesAhead
  exact ⟨tr, s, hrun, hfreed, freed_neverFound 0 hrun hc⟩

/-! ### A run in which a freed node is found -/

/-- Thread 0 inserts 5 and 20 with two levels, then 10 with three levels and stops behind its level-0
CAS.  Thread 1 removes 5 and 10 and swings the head to the node of 10.  Thread 0 completes its
insertion, inserts 6 behind the node of 10 and then 8 with three levels, which takes the node of 10
for its successor on level 2.  The next `deletemin` frees that node. -/
def backLink : List Move :=
  turn 0 (some (.insert 5 2)) 113 ++ turn 0 (some (.insert 20 2)) 115 ++
  turn 0 (some (.insert 10 3)) 107 ++ turn 1 (some .delete_min) 7 ++
  turn 1 (some .delete_min) 109 ++ turn 0 none 13 ++ turn 0 (some (.insert 6 2)) 116 ++
  turn 0 (some (.insert 8 3)) 120 ++ turn 0 (some .delete_min) 105

set_option maxRecDepth 10000 in
theorem execute_backLink : (execute (move 0) backLink ([], fresh)).any (fun c =>
    c.1.any (fun x => decide (x.ev = .freed 5)) && decide (((c.2.sh.mem head).next 2).ptr = 7) &&
      decide (((c.2.sh.mem 7).next 2).ptr = 5) && decide (succ0 c.2.sh.mem 7 = 4) &&
      decide (succ0 c.2.sh.mem 4 = tail)) = true := by
  decide +kernel

/-- A node freed by `deletemin` is still found: from the head on level 2 over the node of 8. -/
theorem freed_found : ¬∀ (max_offset : ℤ) (tr : List (Entry State Tid Event)) (s : State),
    Run (lindenQueue max_offset) tr s → NeverFound tr s := by
  intro hall
  obtain ⟨tr, s, hrun, hbad⟩ := exists_run_of_schedule 0 _ _ execute_backLink
  simp only [Bool.and_eq_true, decide_eq_true_eq, List.any_eq_true] at hbad
  obtain ⟨⟨⟨⟨⟨x, hx, hfreed⟩, h7⟩, h5⟩, -⟩, -⟩ := hbad
  have hp7 : OnPath s.sh.mem 7 2 := h7 ▸ .next (.head (by decide)) (by decide)
  have hp5 : OnPath s.sh.mem 5 2 := h5 ▸ .next hp7 (by decide)
  exact hall 0 tr s hrun x hx 5 hfreed 2 hp5

end ConcurrentPQ.Linden

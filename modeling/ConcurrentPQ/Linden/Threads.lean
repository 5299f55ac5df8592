import ConcurrentPQ.Linden.Effects

/-!
# What the threads of a Linden queue know

`Ok m brk G pc` is the assertion attached to program counter `pc`: what the thread knows about its
locals, the nodes they name and the list `G`.

* `Prepared`, `Placed` — the new node of an `insert` before and behind its level-0 CAS;
* `Scan`, `Found` — what `locate_preds` has established on the way down and when it returns;
* `Walk`, `Swung`, `Sweep` — the traversal of `deletemin`, the state behind the swing of the head, and
  the progress of `restructure`;
* `Ok.evolve` — **stability**: no step of another thread invalidates an assertion.
-/

namespace ConcurrentPQ.Linden

open ConcurrentPQ.Segment

/-! ### Inserting threads -/

/-- The arguments of `insert`: a key between the sentinels, the key as value, a level in range. -/
structure Args (k v lvl : ℕ) : Prop where
  key : SENTINEL_KEYMIN < k ∧ k < pkey SENTINEL_KEYMAX
  val : v = k
  level : 1 ≤ lvl ∧ lvl ≤ NUM_LEVELS

/-- The thread owns `new`, which is not spliced in. -/
structure Claimed (brk : NodeId) (G : Ghost) (f : Frame) : Prop where
  args : Args f.k f.v f.lvl
  notMem : f.new ∉ G.order
  ge : firstNode ≤ f.new
  lt : f.new < brk

/-- The new node is initialised and not yet spliced in. -/
structure Prepared (m : Mem) (brk : NodeId) (G : Ghost) (f : Frame) : Prop where
  claimed : Claimed brk G f
  level : (m f.new).level = f.lvl
  inserting : (m f.new).inserting = true
  clear : ∀ i, 0 < i → i < f.lvl → (m f.new).next i = ref NULL
  key : (m f.new).k = f.k
  val : (m f.new).v = f.v

/-- The new node is spliced in and linked, or about to be linked, on the levels below `i`. -/
structure Placed (m : Mem) (G : Ghost) (f : Frame) (i : ℕ) : Prop where
  args : Args f.k f.v f.lvl
  mem : f.new ∈ G.order
  ge : firstNode ≤ f.new
  key : (m f.new).k = f.k
  level : (m f.new).level = f.lvl
  inserting : (m f.new).inserting = true
  pos : 0 < i
  le : i ≤ f.lvl
  nonnull : ∀ j, j < i → ((m f.new).next j).ptr ≠ NULL

/-- A node `locate_preds` may stand on when it looks for key `k`. -/
def SearchFrom (m : Mem) (G : Ghost) (k : ℕ) (x : NodeId) : Prop :=
  x ∈ G.gone ∨ (x ∈ G.order ∧ (m x).k < k)

/-- Level `j` of `preds` and `succs` has been recorded. -/
def Recorded (m : Mem) (G : Ghost) (f : Frame) (j : ℕ) : Prop :=
  Source m G (f.preds j) j ∧ Target m G (f.succs j) j

/-- `locate_preds` stands on `x` at level `i`. -/
structure Scan (m : Mem) (G : Ghost) (f : Frame) (x : NodeId) (i : ℕ) : Prop where
  lt : i < NUM_LEVELS
  source : Source m G x i
  from_ : SearchFrom m G f.k x
  done : ∀ j, i < j → j < NUM_LEVELS → Recorded m G f j

/-- `locate_preds` has returned. -/
structure Found (m : Mem) (G : Ghost) (f : Frame) : Prop where
  levels : ∀ j, j < NUM_LEVELS → Recorded m G f j
  pred : SearchFrom m G f.k (f.preds 0)
  succ : f.k ≤ (m (f.succs 0)).k

/-- The key is not the one of the recorded successor, or the recorded predecessor has moved on. -/
def Differs (m : Mem) (f : Frame) : Prop :=
  (m (f.succs 0)).k ≠ f.k ∨ (m (f.preds 0)).next 0 ≠ ref (f.succs 0)

/-- What holds of the new node while `locate_preds` runs. -/
def SiteOk (m : Mem) (brk : NodeId) (G : Ghost) (f : Frame) : Site → Prop
  | .retry => Prepared m brk G f
  | .upper i => Placed m G f i ∧ i < f.lvl

/-! ### Deleting threads -/

/-- The nodes from `a` on and before `stop` are completely inserted. -/
def Clear (m : Mem) (G : Ghost) (a stop : NodeId) : Prop :=
  ∀ n, Le G.all a n → Before G.all n stop → (m n).inserting = false

/-- The head has been swung past `a`. -/
def Passed (m : Mem) (G : Ghost) (a : NodeId) : Prop := Before G.all a (headPtr m 0)

/-- The traversal of `deletemin`: it stands on the head or a deleted node; and unless the head has
moved on, it has seen every node from `obs_head` on completely inserted, up to `newhead` if that is
set and up to `x` otherwise. -/
structure Walk (m : Mem) (G : Ghost) (d : DelFrame) : Prop where
  gone : d.x ∈ G.gone
  newhead : d.newhead = NULL ∨ G.Dead d.newhead
  obs : d.obs_head.mark = true → G.Dead d.obs_head.ptr ∧
    Le G.all d.obs_head.ptr (headPtr m 0) ∧ (Passed m G d.obs_head.ptr ∨
    ((d.x = head ∨ Le G.all d.obs_head.ptr d.x) ∧
      (d.newhead = NULL → Clear m G d.obs_head.ptr d.x) ∧
      (d.newhead ≠ NULL → Le G.all d.obs_head.ptr d.newhead ∧
        Clear m G d.obs_head.ptr d.newhead)))

/-- What the word `nxt` read from `x` tells, given that `x` is completely inserted. -/
def Follows (m : Mem) (G : Ghost) (d : DelFrame) (nxt : Ref) : Prop :=
  nxt.mark = true → G.Dead nxt.ptr ∧ (d.obs_head.mark = true → Passed m G d.obs_head.ptr ∨
    (Le G.all d.obs_head.ptr nxt.ptr ∧ ∀ n, Le G.all d.obs_head.ptr n → Before G.all n nxt.ptr →
      (n = d.x ∨ Before G.all n d.x)))

/-- A new head has been chosen. -/
structure Ready (m : Mem) (G : Ghost) (d : DelFrame) : Prop where
  newhead : G.Dead d.newhead
  obs : d.obs_head.mark = true → G.Dead d.obs_head.ptr ∧ (Passed m G d.obs_head.ptr ∨
    (Le G.all d.obs_head.ptr d.newhead ∧ Clear m G d.obs_head.ptr d.newhead))

/-- The head's level-0 pointer has been swung to `newhead`. -/
structure Swung (m : Mem) (G : Ghost) (d : DelFrame) : Prop where
  newhead : G.Dead d.newhead
  obs : G.Dead d.obs_head.ptr
  le : Le G.all d.obs_head.ptr d.newhead
  low : Le G.all d.newhead (headPtr m 0)

/-- `restructure` works on level `i`; above it the head's pointers have reached `newhead`. -/
structure Sweep (m : Mem) (G : Ghost) (d : DelFrame) (i : ℕ) (pred : Ref) : Prop where
  swung : Swung m G d
  pos : 0 < i
  lt : i < NUM_LEVELS
  unmarked : pred.mark = false
  source : Source m G pred.ptr i
  done : ∀ j, i < j → j < NUM_LEVELS → Le G.all d.newhead (headPtr m j)

/-- A word `restructure` has read on level `i`. -/
def Read (m : Mem) (G : Ghost) (i : ℕ) (r : Ref) : Prop := r.mark = false ∧ Target m G r.ptr i

/-- `restructure` has found the head pointer `h` to need a change. -/
def Stale (m : Mem) (G : Ghost) (h : Ref) : Prop :=
  h.ptr ∈ G.order ∧ ((m h.ptr).next 0).mark = true

/-- The recycling loop stands on `cur`; all of the head's pointers have reached `newhead`. -/
structure Recycling (m : Mem) (G : Ghost) (d : DelFrame) (cur : NodeId) : Prop where
  swung : Swung m G d
  heads : ∀ j, j < NUM_LEVELS → Le G.all d.newhead (headPtr m j)
  dead : G.Dead cur
  le : Le G.all cur d.newhead

/-! ### The assertions -/

/-- The node a thread is inserting, and null outside `insert`. -/
def own : Pc → NodeId
  | .insLevel f | .insInserting f | .insClear f | .insKey f | .insVal f
  | .locNext f _ _ _ | .locKey f _ _ _ _ _ | .locMark f _ _ _ _ _
  | .dupKey f | .dupMark f | .dupPtr f | .dupClear f | .dupFree f | .link0 f | .cas0 f
  | .upLevel f _ | .upNew f _ | .upSucc f _ | .upStore f _ | .upCas f _ | .finish f => f.new
  | _ => NULL

/-- The assertion at a program counter. -/
def Ok (m : Mem) (brk : NodeId) (G : Ghost) : Pc → Prop
  | .idle => True
  | .crashed => False
  | .insAlloc k v lvl => Args k v lvl
  | .insLevel f => Claimed brk G f
  | .insInserting f => Claimed brk G f ∧ (m f.new).level = f.lvl
  | .insClear f => Claimed brk G f ∧ (m f.new).level = f.lvl ∧ (m f.new).inserting = true
  | .insKey f => Claimed brk G f ∧ (m f.new).level = f.lvl ∧ (m f.new).inserting = true ∧
      ∀ i, 0 < i → i < f.lvl → (m f.new).next i = ref NULL
  | .insVal f => Claimed brk G f ∧ (m f.new).level = f.lvl ∧ (m f.new).inserting = true ∧
      (∀ i, 0 < i → i < f.lvl → (m f.new).next i = ref NULL) ∧ (m f.new).k = f.k
  | .locNext f site x i => SiteOk m brk G f site ∧ Scan m G f x i
  | .locKey f site x i x_next d => SiteOk m brk G f site ∧ Scan m G f x i ∧
      Target m G x_next i ∧ (i = 0 → d = true → x_next ∈ G.gone)
  | .locMark f site x i x_next d => SiteOk m brk G f site ∧ Scan m G f x i ∧
      Target m G x_next i ∧ (i = 0 → d = true → x_next ∈ G.gone) ∧ f.k ≤ (m x_next).k
  | .dupKey f => Prepared m brk G f ∧ Found m G f
  | .dupMark f | .dupPtr f => Prepared m brk G f ∧ Found m G f ∧ (m (f.succs 0)).k = f.k
  | .dupClear f | .dupFree f => Claimed brk G f
  | .link0 f => Prepared m brk G f ∧ Found m G f ∧ Differs m f
  | .cas0 f => Prepared m brk G f ∧ Found m G f ∧ Differs m f ∧
      (m f.new).next 0 = ref (f.succs 0)
  | .upLevel f i => Placed m G f i ∧ Found m G f
  | .upNew f i | .upSucc f i | .upStore f i => Placed m G f i ∧ Found m G f ∧ i < f.lvl
  | .upCas f i => Placed m G f i ∧ Found m G f ∧ i < f.lvl ∧ ((m f.new).next i).ptr ≠ NULL
  | .finish f => f.new ∈ G.order ∧ firstNode ≤ f.new
  | .delObs => True
  | .delLoad d => Walk m G d
  | .delInserting d => Walk m G d ∧ d.newhead = NULL ∧ succ0 m d.x ≠ tail ∧ Follows m G d d.nxt
  | .delFao d => Walk m G d ∧ (d.newhead = NULL → (m d.x).inserting = false) ∧ succ0 m d.x ≠ tail
  | .delVal d => Walk m G d ∧ d.x ≠ head
  | .delCheck d | .delSwing d => Ready m G d
  | .rsHead d i pred => Sweep m G d i pred
  | .rsCur d i pred h => Sweep m G d i pred ∧ Read m G i h ∧
      (Stale m G h ∨ Le G.all d.newhead (headPtr m i))
  | .rsTest d i pred h cur => Sweep m G d i pred ∧ Read m G i h ∧
      (Stale m G h ∨ Le G.all d.newhead (headPtr m i)) ∧ Read m G i cur
  | .rsWalk d i pred h cur => Sweep m G d i pred ∧ Read m G i h ∧ Stale m G h ∧ Read m G i cur
  | .rsStep d i pred h => Sweep m G d i pred ∧ Read m G i h ∧ Stale m G h
  | .rsCas d i pred h cur => Sweep m G d i pred ∧ Read m G i h ∧ Read m G i cur ∧
      Before G.all h.ptr cur.ptr ∧ Le G.all d.newhead cur.ptr
  | .rcLoad d cur => Recycling m G d cur ∧ cur ≠ d.newhead
  | .rcFree d cur nxt => Recycling m G d cur ∧ Before G.all cur d.newhead ∧
      G.Dead nxt ∧ Le G.all nxt d.newhead
  | .ret _ => True

/-! ### Stability -/

section Stability

variable {w : NodeId} {m m' : Mem} {G G' : Ghost} {brk brk' : NodeId} {f : Frame} {d : DelFrame}

theorem Claimed.evolve (e : Evolve w m G m' G') (hb : brk ≤ brk') (hw : f.new ≠ w)
    (h : Claimed brk G f) : Claimed brk' G' f :=
  ⟨h.args, (e.fresh _ h.notMem hw).2, h.ge, h.lt.trans_le hb⟩

theorem Claimed.mem_eq (e : Evolve w m G m' G') (hw : f.new ≠ w) (h : Claimed brk G f) :
    m' f.new = m f.new := (e.fresh _ h.notMem hw).1

theorem Prepared.evolve (e : Evolve w m G m' G') (hb : brk ≤ brk') (hw : f.new ≠ w)
    (h : Prepared m brk G f) : Prepared m' brk' G' f := by
  have hm := h.claimed.mem_eq e hw
  refine ⟨h.claimed.evolve e hb hw, ?_, ?_, ?_, ?_, ?_⟩ <;> rw [hm]
  exacts [h.level, h.inserting, h.clear, h.key, h.val]

theorem Placed.evolve (e : Evolve w m G m' G') (hw : f.new ≠ w) {i : ℕ} (h : Placed m G f i) :
    Placed m' G' f i where
  args := h.args
  mem := e.mem h.mem
  ge := h.ge
  key := by rw [(e.data _ h.mem).1]; exact h.key
  level := by rw [(e.data _ h.mem).2.2]; exact h.level
  inserting := by rw [e.inserting _ h.mem hw]; exact h.inserting
  pos := h.pos
  le := h.le
  nonnull j hj := e.nonnull _ h.mem j (h.nonnull j hj)

theorem SearchFrom.evolve (e : Evolve w m G m' G') {k : ℕ} {x : NodeId}
    (h : SearchFrom m G k x) : SearchFrom m' G' k x :=
  h.imp e.mem_gone fun h => ⟨e.mem h.1, by rw [(e.data x h.1).1]; exact h.2⟩

theorem Recorded.evolve (e : Evolve w m G m' G') {j : ℕ} (h : Recorded m G f j) :
    Recorded m' G' f j := ⟨e.source h.1, e.target h.2⟩

theorem Scan.evolve (e : Evolve w m G m' G') {x : NodeId} {i : ℕ} (h : Scan m G f x i) :
    Scan m' G' f x i :=
  ⟨h.lt, e.source h.source, h.from_.evolve e, fun j hj hl => (h.done j hj hl).evolve e⟩

theorem Found.succ_mem (hs : Shape m brk G) (h : Found m G f) : f.succs 0 ∈ G.all :=
  hs.target_mem_all (h.levels 0 (by decide)).2

theorem Found.evolve (e : Evolve w m G m' G') (hs : Shape m brk G) (h : Found m G f) :
    Found m' G' f :=
  ⟨fun j hj => (h.levels j hj).evolve e, h.pred.evolve e,
    by rw [e.key_eq hs (h.succ_mem hs)]; exact h.succ⟩

theorem Differs.evolve (e : Evolve w m G m' G') (hs : Shape m brk G) (hf : Found m G f)
    (h : Differs m f) : Differs m' f := by
  refine h.imp (fun h => ?_) fun h => ?_
  · rw [e.key_eq hs (hf.succ_mem hs)]; exact h
  · exact e.no_return _ (hf.levels 0 (by decide)).1.mem _ (hf.succ_mem hs) h

theorem SiteOk.evolve (e : Evolve w m G m' G') (hb : brk ≤ brk') (hw : f.new ≠ w) {site : Site}
    (h : SiteOk m brk G f site) : SiteOk m' brk' G' f site := by
  cases site with
  | retry => exact Prepared.evolve e hb hw h
  | upper i => exact ⟨h.1.evolve e hw, h.2⟩

theorem Clear.evolve (e : Evolve w m G m' G') (hs : Shape m brk G) (hs' : Shape m' brk' G')
    {a stop : NodeId} (hstop : stop ∈ G.gone) (h : Clear m G a stop) :
    Clear m' G' a stop := by
  intro n han hn
  have hn' := e.before_gone hs' hstop hn
  have hng : n ∈ G.gone := (hs.before_gone hn' hstop).left_mem
  refine e.finished n (G.gone_subset hng) (h n ?_ hn')
  rcases han with rfl | han
  · exact Or.inl rfl
  · exact Or.inr (e.before_gone hs' hng han)

theorem Passed.evolve (e : Evolve w m G m' G') (hs : Shape m brk G) (hs' : Shape m' brk' G')
    {a : NodeId} (ha : G.Dead a) (h : Passed m G a) : Passed m' G' a :=
  e.before_headPtr hs' (hs.head_mark_of_dead ha) (by decide) h h

theorem Walk.evolve (e : Evolve w m G m' G') (hs : Shape m brk G) (hs' : Shape m' brk' G')
    (h : Walk m G d) : Walk m' G' d := by
  refine ⟨e.mem_gone h.gone, h.newhead.imp id e.dead, fun hm => ?_⟩
  obtain ⟨hobs, hle, hrest⟩ := h.obs hm
  refine ⟨e.dead hobs, e.le_headPtr hs' (hs.head_mark_of_dead hobs) (by decide) hle hle,
    hrest.imp (Passed.evolve e hs hs' hobs) fun ⟨h1, h2, h3⟩ => ⟨?_, ?_, ?_⟩⟩
  · exact h1.imp id fun h1 => h1.mono e.all
  · exact fun hn => (h2 hn).evolve e hs hs' h.gone
  · intro hn
    have hnh := h.newhead.resolve_left hn
    exact ⟨(h3 hn).1.mono e.all, (h3 hn).2.evolve e hs hs' hnh.1⟩

theorem Follows.evolve (e : Evolve w m G m' G') (hs : Shape m brk G) (hs' : Shape m' brk' G')
    (hw : Walk m G d) {nxt : Ref} (h : Follows m G d nxt) : Follows m' G' d nxt := by
  intro hm
  obtain ⟨hdead, hrest⟩ := h hm
  refine ⟨e.dead hdead, fun ho => ?_⟩
  have hobs := (hw.obs ho).1
  refine (hrest ho).imp (Passed.evolve e hs hs' hobs) fun ⟨h1, h2⟩ => ⟨h1.mono e.all, ?_⟩
  intro n han hn
  have hn' := e.before_gone hs' hdead.1 hn
  have hng : n ∈ G.gone := (hs.before_gone hn' hdead.1).left_mem
  have han' : Le G.all d.obs_head.ptr n := han.imp id fun han => e.before_gone hs' hng han
  exact (h2 n han' hn').imp id fun hb => hb.mono e.all

theorem Ready.evolve (e : Evolve w m G m' G') (hs : Shape m brk G) (hs' : Shape m' brk' G')
    (h : Ready m G d) : Ready m' G' d := by
  refine ⟨e.dead h.newhead, fun hm => ?_⟩
  obtain ⟨hobs, hrest⟩ := h.obs hm
  exact ⟨e.dead hobs, hrest.imp (Passed.evolve e hs hs' hobs) fun ⟨h1, h2⟩ =>
    ⟨h1.mono e.all, h2.evolve e hs hs' h.newhead.1⟩⟩

theorem Swung.evolve (e : Evolve w m G m' G') (hs : Shape m brk G) (hs' : Shape m' brk' G')
    (h : Swung m G d) : Swung m' G' d :=
  ⟨e.dead h.newhead, e.dead h.obs, h.le.mono e.all,
    e.le_headPtr hs' (hs.head_mark_of_dead h.newhead) (by decide) h.low h.low⟩

theorem Swung.le_headPtr (e : Evolve w m G m' G') (hs : Shape m brk G) (hs' : Shape m' brk' G')
    (h : Swung m G d) {j : ℕ} (hj : j < NUM_LEVELS) (hle : Le G.all d.newhead (headPtr m j)) :
    Le G'.all d.newhead (headPtr m' j) :=
  e.le_headPtr hs' (hs.head_mark_of_dead h.newhead) hj h.low hle

theorem Sweep.evolve (e : Evolve w m G m' G') (hs : Shape m brk G) (hs' : Shape m' brk' G')
    {i : ℕ} {pred : Ref} (h : Sweep m G d i pred) : Sweep m' G' d i pred :=
  ⟨h.swung.evolve e hs hs', h.pos, h.lt, h.unmarked, e.source h.source,
    fun j hj hl => h.swung.le_headPtr e hs hs' hl (h.done j hj hl)⟩

theorem Read.evolve (e : Evolve w m G m' G') {i : ℕ} {r : Ref} (h : Read m G i r) :
    Read m' G' i r := ⟨h.1, e.target h.2⟩

theorem Stale.evolve (e : Evolve w m G m' G') {h : Ref} (hne : h.ptr ≠ head)
    (hs : Stale m G h) : Stale m' G' h :=
  ⟨e.mem hs.1, by rw [e.marked _ hs.1 hne hs.2]; exact hs.2⟩

theorem Recycling.evolve (e : Evolve w m G m' G') (hs : Shape m brk G) (hs' : Shape m' brk' G')
    {cur : NodeId} (h : Recycling m G d cur) : Recycling m' G' d cur :=
  ⟨h.swung.evolve e hs hs', fun j hj => h.swung.le_headPtr e hs hs' hj (h.heads j hj),
    e.dead h.dead, h.le.mono e.all⟩

/-- **Stability.**  A thread's assertion survives the steps of the other threads. -/
theorem Ok.evolve (e : Evolve w m G m' G') (hs : Shape m brk G) (hs' : Shape m' brk' G')
    (hb : brk ≤ brk') {pc : Pc} (hw : own pc ≠ NULL → own pc ≠ w) (h : Ok m brk G pc) :
    Ok m' brk' G' pc := by
  have hnew : ∀ {f : Frame}, own pc = f.new → firstNode ≤ f.new → f.new ≠ w := by
    intro f hf hge
    rw [← hf] at hge ⊢
    exact hw (Nat.ne_of_gt (lt_of_lt_of_le (by decide) hge))
  have hsite : ∀ {f : Frame} {site : Site}, own pc = f.new → SiteOk m brk G f site →
      SiteOk m' brk' G' f site := by
    intro f site hf hsite
    refine hsite.evolve e hb (hnew hf ?_)
    cases site with
    | retry => exact hsite.claimed.ge
    | upper i => exact hsite.1.ge
  cases pc with
  | idle => trivial
  | crashed => exact h
  | insAlloc k v lvl => exact h
  | insLevel f => exact Claimed.evolve e hb (hnew rfl h.ge) h
  | insInserting f =>
    have hn := hnew rfl h.1.ge
    refine ⟨h.1.evolve e hb hn, ?_⟩
    rw [h.1.mem_eq e hn]; exact h.2
  | insClear f =>
    have hn := hnew rfl h.1.ge
    refine ⟨h.1.evolve e hb hn, ?_⟩
    rw [h.1.mem_eq e hn]; exact h.2
  | insKey f =>
    have hn := hnew rfl h.1.ge
    refine ⟨h.1.evolve e hb hn, ?_⟩
    rw [h.1.mem_eq e hn]; exact h.2
  | insVal f =>
    have hn := hnew rfl h.1.ge
    refine ⟨h.1.evolve e hb hn, ?_⟩
    rw [h.1.mem_eq e hn]; exact h.2
  | locNext f site x i => exact ⟨hsite rfl h.1, h.2.evolve e⟩
  | locKey f site x i x_next dd =>
    exact ⟨hsite rfl h.1, h.2.1.evolve e, e.target h.2.2.1, fun hi hd =>
      e.mem_gone (h.2.2.2 hi hd)⟩
  | locMark f site x i x_next dd =>
    refine ⟨hsite rfl h.1, h.2.1.evolve e, e.target h.2.2.1, fun hi hd =>
      e.mem_gone (h.2.2.2.1 hi hd), ?_⟩
    rw [e.key_eq hs (hs.target_mem_all h.2.2.1)]
    exact h.2.2.2.2
  | dupKey f => exact ⟨h.1.evolve e hb (hnew rfl h.1.claimed.ge), h.2.evolve e hs⟩
  | dupMark f | dupPtr f =>
    refine ⟨h.1.evolve e hb (hnew rfl h.1.claimed.ge), h.2.1.evolve e hs, ?_⟩
    rw [e.key_eq hs (h.2.1.succ_mem hs)]
    exact h.2.2
  | dupClear f | dupFree f => exact Claimed.evolve e hb (hnew rfl h.ge) h
  | link0 f =>
    exact ⟨h.1.evolve e hb (hnew rfl h.1.claimed.ge), h.2.1.evolve e hs,
      h.2.2.evolve e hs h.2.1⟩
  | cas0 f =>
    have hn := hnew rfl h.1.claimed.ge
    refine ⟨h.1.evolve e hb hn, h.2.1.evolve e hs, h.2.2.1.evolve e hs h.2.1, ?_⟩
    rw [h.1.claimed.mem_eq e hn]
    exact h.2.2.2
  | upLevel f i => exact ⟨h.1.evolve e (hnew rfl h.1.ge), h.2.evolve e hs⟩
  | upNew f i | upSucc f i | upStore f i =>
    exact ⟨h.1.evolve e (hnew rfl h.1.ge), h.2.1.evolve e hs, h.2.2⟩
  | upCas f i =>
    exact ⟨h.1.evolve e (hnew rfl h.1.ge), h.2.1.evolve e hs, h.2.2.1,
      e.nonnull _ h.1.mem i h.2.2.2⟩
  | finish f => exact ⟨e.mem h.1, h.2⟩
  | delObs => trivial
  | delLoad d => exact Walk.evolve e hs hs' h
  | delInserting d =>
    exact ⟨h.1.evolve e hs hs', h.2.1, e.not_tail _ (G.gone_subset h.1.gone) h.2.2.1,
      h.2.2.2.evolve e hs hs' h.1⟩
  | delFao d =>
    have hx := G.gone_subset h.1.gone
    exact ⟨h.1.evolve e hs hs', fun hn => e.finished _ hx (h.2.1 hn), e.not_tail _ hx h.2.2⟩
  | delVal d => exact ⟨h.1.evolve e hs hs', h.2⟩
  | delCheck d | delSwing d => exact Ready.evolve e hs hs' h
  | rsHead d i pred => exact Sweep.evolve e hs hs' h
  | rsCur d i pred hd =>
    exact ⟨h.1.evolve e hs hs', h.2.1.evolve e, h.2.2.imp
      (Stale.evolve e (hs.target_ne_head h.2.1.2))
      (h.1.swung.le_headPtr e hs hs' h.1.lt)⟩
  | rsTest d i pred hd cur =>
    exact ⟨h.1.evolve e hs hs', h.2.1.evolve e, h.2.2.1.imp
      (Stale.evolve e (hs.target_ne_head h.2.1.2))
      (h.1.swung.le_headPtr e hs hs' h.1.lt), h.2.2.2.evolve e⟩
  | rsWalk d i pred hd cur =>
    exact ⟨h.1.evolve e hs hs', h.2.1.evolve e, h.2.2.1.evolve e (hs.target_ne_head h.2.1.2),
      h.2.2.2.evolve e⟩
  | rsStep d i pred hd =>
    exact ⟨h.1.evolve e hs hs', h.2.1.evolve e, h.2.2.evolve e (hs.target_ne_head h.2.1.2)⟩
  | rsCas d i pred hd cur =>
    exact ⟨h.1.evolve e hs hs', h.2.1.evolve e, h.2.2.1.evolve e, h.2.2.2.1.mono e.all,
      h.2.2.2.2.mono e.all⟩
  | rcLoad d cur => exact ⟨h.1.evolve e hs hs', h.2⟩
  | rcFree d cur nxt =>
    exact ⟨h.1.evolve e hs hs', h.2.1.mono e.all, e.dead h.2.2.1, h.2.2.2.mono e.all⟩
  | ret v => trivial

end Stability

end ConcurrentPQ.Linden

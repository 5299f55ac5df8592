import ConcurrentPQ.Lib.Eventually
import ConcurrentPQ.Linden.Program

/-!
# One thread, with assertions and a memory checker

The program of `Linden.Program` run by a single thread on node memory that a collector hands out and
takes back.  The `assert`s of the source are active, and a checker watches the memory: an access to a
node that is not in use, a release of such a node, and a node handed out while it is in use or still
referred to stop the thread in `Pc.crashed`, and so does a traversal that follows a `next` pointer of
the tail.

* `Collector`, `Lawful` — `critical_enter`, `critical_exit`, `gc_alloc` and `gc_free`, and what a user
  of them relies on;
* `Store`, `Config`, `Check`, `access`, `Next` — the machine;
* `Eventually.loadNext`, … — one rule for each instruction;
* `bump` — a collector that never reuses memory; `access_bump` — with it the machine performs the
  accesses of `exec`.
-/

namespace ConcurrentPQ.Linden

/-- The collector: the functions of `gc.c` that a queue calls.  `gc_alloc` and `gc_free` are given the
index of an allocator, one less than the level of the node. -/
structure Collector (α : Type) where
  enter : α → α
  exit : α → α
  alloc : ℕ → α → NodeId × α
  free : NodeId → ℕ → α → α

/-- **What a user of the collector relies on.**  `I b a U`: the collector is in state `a`, the thread is
inside a critical section or not as `b` says, and `U` are the nodes in use with their allocators.
`gc_alloc` hands out nodes that are not in use. -/
structure Lawful {α : Type} (C : Collector α) (I : Bool → α → List (NodeId × ℕ) → Prop) : Prop where
  enter : ∀ a U, I false a U → I true (C.enter a) U
  exit : ∀ a U, I true a U → I false (C.exit a) U
  alloc : ∀ a U c, I true a U → c < NUM_LEVELS → firstNode ≤ (C.alloc c a).1 ∧
    (∀ c', ((C.alloc c a).1, c') ∉ U) ∧ I true (C.alloc c a).2 (((C.alloc c a).1, c) :: U)
  free : ∀ a U n c, I true a U → (n, c) ∈ U → I true (C.free n c a) (U.erase (n, c))

/-- Node memory, the nodes in use with their allocators, and the state of the collector. -/
structure Store (α : Type) where
  mem : Mem
  used : List (NodeId × ℕ)
  col : α

/-- The only thread and the memory it works on. -/
structure Config (α : Type) where
  st : Store α
  pc : Pc

namespace Store

variable {α : Type}

/-- A node that may be accessed. -/
def Owned (s : Store α) (n : NodeId) : Prop := n = head ∨ n = tail ∨ n ∈ s.used.map Prod.fst

/-- A pointer of the head or of a node in use leads to `n`. -/
def Refers (s : Store α) (n : NodeId) : Prop :=
  ∃ x ∈ head :: s.used.map Prod.fst, ∃ i, i < (s.mem x).level ∧ ((s.mem x).next i).ptr = n

instance (s : Store α) (n : NodeId) : Decidable (s.Owned n) := inferInstanceAs (Decidable (_ ∨ _))

instance (s : Store α) (n : NodeId) : Decidable (s.Refers n) :=
  inferInstanceAs (Decidable (∃ x ∈ _, ∃ i, i < _ ∧ _))

end Store

/-- The thread is inside `insert` or `deletemin`. -/
def Pc.running : Pc → Bool
  | .idle | .crashed | .ret _ => false
  | _ => true

/-- The level `alloc_node` has drawn when it calls `gc_alloc`. -/
def Pc.drawn : Pc → ℕ
  | .insAlloc _ _ lvl => lvl
  | _ => 1

/-- The `assert`s of `insert`, `alloc_node`, `restructure` and `deletemin`; and `locate_preds` does not
follow a `next` pointer of the tail. -/
def Assert (m : Mem) : Pc → Prop
  | .insAlloc k _ lvl => (SENTINEL_KEYMIN < k ∧ k < SENTINEL_KEYMAX) ∧ 1 ≤ lvl ∧ lvl ≤ 32
  | .locKey _ _ x _ _ _ => x ≠ tail
  | .rsCas _ _ pred _ _ => is_marked_ref ((m pred.addr).next 0) = true
  | .rcFree _ cur _ => is_marked_ref ((m cur).next 0) = true
  | _ => True

instance (m : Mem) : DecidablePred (Assert m)
  | .insAlloc k _ lvl => inferInstanceAs (Decidable ((SENTINEL_KEYMIN < k ∧ k < SENTINEL_KEYMAX) ∧
      1 ≤ lvl ∧ lvl ≤ 32))
  | .locKey _ _ x _ _ _ => inferInstanceAs (Decidable (x ≠ tail))
  | .rsCas _ _ pred _ _ => inferInstanceAs (Decidable (is_marked_ref ((m pred.addr).next 0) = true))
  | .rcFree _ cur _ => inferInstanceAs (Decidable (is_marked_ref ((m cur).next 0) = true))
  | .idle | .crashed | .insLevel _ | .insInserting _ | .insClear _ | .insKey _ | .insVal _
  | .locNext _ _ _ _ | .locMark _ _ _ _ _ _ | .dupKey _ | .dupMark _ | .dupPtr _ | .dupClear _
  | .dupFree _ | .link0 _ | .cas0 _ | .upLevel _ _ | .upNew _ _ | .upSucc _ _ | .upStore _ _
  | .upCas _ _ | .finish _ | .delObs | .delLoad _ | .delInserting _ | .delFao _ | .delVal _
  | .delCheck _ | .delSwing _ | .rsHead _ _ _ | .rsCur _ _ _ _ | .rsTest _ _ _ _ _
  | .rsWalk _ _ _ _ _ | .rsStep _ _ _ _ | .rcLoad _ _ | .ret _ => .isTrue trivial

section Machine

variable {α : Type} (C : Collector α) (max_offset : ℤ)

/-- What the memory checker asks of an instruction. -/
def Allowed (s : Store α) (lvl : ℕ) : Instr Pc → Prop
  | .alloc _ => (C.alloc (lvl - 1) s.col).1 ∉ s.used.map Prod.fst ∧
      ¬s.Refers (C.alloc (lvl - 1) s.col).1
  | .freeNode n _ => (n, (s.mem n).level - 1) ∈ s.used
  | ins => s.Owned ins.target

instance (s : Store α) (lvl : ℕ) : DecidablePred (Allowed C s lvl)
  | .alloc _ => inferInstanceAs (Decidable (_ ∧ _))
  | .freeNode n _ => inferInstanceAs (Decidable ((n, (s.mem n).level - 1) ∈ s.used))
  | .loadNext n _ _ | .loadKey n _ | .loadVal n _ | .loadLevel n _ | .loadInserting n _
  | .storeNext n _ _ _ | .clearNext n _ _ | .storeKey n _ _ | .storeVal n _ _ | .storeLevel n _ _
  | .storeInserting n _ _ | .casNext n _ _ _ _ | .fetchOrNext n _ _ =>
      inferInstanceAs (Decidable (s.Owned n))
  | .done _ => inferInstanceAs (Decidable (s.Owned head))

/-- Perform one instruction. -/
def perform (s : Store α) (lvl : ℕ) : Instr Pc → Config α
  | .alloc c =>
      let r := C.alloc (lvl - 1) s.col
      ⟨⟨s.mem, (r.1, lvl - 1) :: s.used, r.2⟩, c r.1⟩
  | .freeNode n c =>
      let i := (s.mem n).level - 1
      ⟨⟨s.mem, s.used.erase (n, i), C.free n i s.col⟩, c⟩
  | ins =>
      let r := exec ⟨s.mem, NULL, []⟩ ins
      ⟨{ s with mem := r.1.mem }, r.2⟩

/-- The next access passes the assertions and the memory checker. -/
def Check (c : Config α) : Prop :=
  Assert c.st.mem c.pc ∧ Allowed C c.st c.pc.drawn (code max_offset c.pc)

instance (c : Config α) : Decidable (Check C max_offset c) := inferInstanceAs (Decidable (_ ∧ _))

/-- The next access of the thread. -/
def access (c : Config α) : Config α :=
  if Check C max_offset c then perform C c.st c.pc.drawn (code max_offset c.pc)
  else { c with pc := .crashed }

/-- One access. -/
def Next (c c' : Config α) : Prop := c.pc.running = true ∧ c' = access C max_offset c

/-- A call of the thread: `critical_enter` comes first. -/
def enter (s : Store α) (op : Op) : Config α := ⟨{ s with col := C.enter s.col }, start op⟩

/-- The call returns: `critical_exit` comes last. -/
def leave (s : Store α) : Store α := { s with col := C.exit s.col }

end Machine

section Rules

variable {α : Type} {C : Collector α} {max_offset : ℤ} {Q : Config α → Prop} {s : Store α}
  {pc pc' : Pc} {n : NodeId}

/-- Nothing follows the end of a call. -/
theorem Next.final {c c' : Config α} (h : c.pc.running = false) : ¬Next C max_offset c c' := fun hn => by
  rw [hn.1] at h
  cases h

/-- An access that passes all checks. -/
theorem Eventually.access (hrun : pc.running = true) (hcheck : Check C max_offset ⟨s, pc⟩)
    (hQ : Eventually (Next C max_offset) Q (perform C s pc.drawn (code max_offset pc))) :
    Eventually (Next C max_offset) Q ⟨s, pc⟩ := by
  have hacc : Linden.access C max_offset ⟨s, pc⟩ = perform C s pc.drawn (code max_offset pc) :=
    if_pos hcheck
  exact .next ⟨hrun, rfl⟩ (fun _ h => h.2) (hacc.symm ▸ hQ)

/-- An access that fails a check. -/
theorem Eventually.crash (hrun : pc.running = true) (hcheck : ¬Check C max_offset ⟨s, pc⟩)
    (hQ : Q ⟨s, .crashed⟩) : Eventually (Next C max_offset) Q ⟨s, pc⟩ := by
  have hacc : Linden.access C max_offset ⟨s, pc⟩ = ⟨s, .crashed⟩ := if_neg hcheck
  exact .next ⟨hrun, rfl⟩ (fun _ h => h.2) (hacc.symm ▸ .now hQ)

/-! One rule for each instruction that stays within memory. -/

theorem Eventually.loadNext {i : ℕ} {c : Ref → Pc} (hcode : code max_offset pc = .loadNext n i c)
    (hrun : pc.running = true) (ha : Assert s.mem pc) (hn : s.Owned n)
    (hQ : Eventually (Next C max_offset) Q ⟨s, c ((s.mem n).next i)⟩) :
    Eventually (Next C max_offset) Q ⟨s, pc⟩ := by
  refine Eventually.access hrun ⟨ha, ?_⟩ ?_
  · change Allowed C s pc.drawn (code max_offset pc)
    rw [hcode]
    exact hn
  · rw [hcode]
    exact hQ

theorem Eventually.loadKey {c : ℕ → Pc} (hcode : code max_offset pc = .loadKey n c)
    (hrun : pc.running = true) (ha : Assert s.mem pc) (hn : s.Owned n)
    (hQ : Eventually (Next C max_offset) Q ⟨s, c (s.mem n).k⟩) :
    Eventually (Next C max_offset) Q ⟨s, pc⟩ := by
  refine Eventually.access hrun ⟨ha, ?_⟩ ?_
  · change Allowed C s pc.drawn (code max_offset pc)
    rw [hcode]
    exact hn
  · rw [hcode]
    exact hQ

theorem Eventually.loadVal {c : ℕ → Pc} (hcode : code max_offset pc = .loadVal n c)
    (hrun : pc.running = true) (ha : Assert s.mem pc) (hn : s.Owned n)
    (hQ : Eventually (Next C max_offset) Q ⟨s, c (s.mem n).v⟩) :
    Eventually (Next C max_offset) Q ⟨s, pc⟩ := by
  refine Eventually.access hrun ⟨ha, ?_⟩ ?_
  · change Allowed C s pc.drawn (code max_offset pc)
    rw [hcode]
    exact hn
  · rw [hcode]
    exact hQ

theorem Eventually.loadLevel {c : ℕ → Pc} (hcode : code max_offset pc = .loadLevel n c)
    (hrun : pc.running = true) (ha : Assert s.mem pc) (hn : s.Owned n)
    (hQ : Eventually (Next C max_offset) Q ⟨s, c (s.mem n).level⟩) :
    Eventually (Next C max_offset) Q ⟨s, pc⟩ := by
  refine Eventually.access hrun ⟨ha, ?_⟩ ?_
  · change Allowed C s pc.drawn (code max_offset pc)
    rw [hcode]
    exact hn
  · rw [hcode]
    exact hQ

theorem Eventually.loadInserting {c : Bool → Pc} (hcode : code max_offset pc = .loadInserting n c)
    (hrun : pc.running = true) (ha : Assert s.mem pc) (hn : s.Owned n)
    (hQ : Eventually (Next C max_offset) Q ⟨s, c (s.mem n).inserting⟩) :
    Eventually (Next C max_offset) Q ⟨s, pc⟩ := by
  refine Eventually.access hrun ⟨ha, ?_⟩ ?_
  · change Allowed C s pc.drawn (code max_offset pc)
    rw [hcode]
    exact hn
  · rw [hcode]
    exact hQ

/-- An instruction that writes a node in use. -/
theorem Eventually.write {ins : Instr Pc} {m : Mem} (hcode : code max_offset pc = ins)
    (hrun : pc.running = true) (ha : Assert s.mem pc)
    (hok : Allowed C s pc.drawn ins)
    (hperf : perform C s pc.drawn ins = ⟨{ s with mem := m }, pc'⟩)
    (hQ : Eventually (Next C max_offset) Q ⟨{ s with mem := m }, pc'⟩) :
    Eventually (Next C max_offset) Q ⟨s, pc⟩ := by
  refine Eventually.access hrun ⟨ha, ?_⟩ ?_
  · change Allowed C s pc.drawn (code max_offset pc)
    rw [hcode]
    exact hok
  · rw [hcode, hperf]
    exact hQ

/-- A compare-and-swap that finds the word it expects. -/
theorem Eventually.casHit {i : ℕ} {old new : Ref} {c : Bool → Pc}
    (hcode : code max_offset pc = .casNext n i old new c) (hrun : pc.running = true)
    (ha : Assert s.mem pc) (hn : s.Owned n) (hold : (s.mem n).next i = old)
    (hQ : Eventually (Next C max_offset) Q ⟨{ s with mem := setNext s.mem n i new }, c true⟩) :
    Eventually (Next C max_offset) Q ⟨s, pc⟩ := by
  refine Eventually.write hcode hrun ha hn ?_ hQ
  change (⟨{ s with mem := (exec ⟨s.mem, NULL, []⟩ (.casNext n i old new c)).1.mem },
    (exec ⟨s.mem, NULL, []⟩ (.casNext n i old new c)).2⟩ : Config α) = _
  simp only [exec, if_pos hold]

/-- A node in use is released. -/
theorem Eventually.freeNode {c : Pc} (hcode : code max_offset pc = .freeNode n c)
    (hrun : pc.running = true) (ha : Assert s.mem pc) {i : ℕ} (hi : (s.mem n).level - 1 = i)
    (hn : (n, i) ∈ s.used)
    (hQ : Eventually (Next C max_offset) Q ⟨⟨s.mem, s.used.erase (n, i), C.free n i s.col⟩, c⟩) :
    Eventually (Next C max_offset) Q ⟨s, pc⟩ := by
  subst hi
  refine Eventually.access hrun ⟨ha, ?_⟩ ?_
  · change Allowed C s pc.drawn (code max_offset pc)
    rw [hcode]
    exact hn
  · rw [hcode]
    exact hQ

end Rules

/-! ### A collector that never reuses memory -/

/-- The nodes of `Linden.Program`: fresh addresses, and a record of what is released. -/
def bump : Collector (NodeId × List NodeId) where
  enter a := a
  exit a := a
  alloc _ a := (a.1, a.1 + 1, a.2)
  free n _ a := (a.1, n :: a.2)

theorem bump_lawful : Lawful bump fun _ a U => firstNode ≤ a.1 ∧ ∀ x ∈ U, x.1 < a.1 where
  enter _ _ h := h
  exit _ _ h := h
  alloc a U c h _ := by
    refine ⟨h.1, fun c' hc => Nat.lt_irrefl _ (h.2 _ hc), Nat.le_succ_of_le h.1, fun x hx => ?_⟩
    rcases List.mem_cons.mp hx with rfl | hx
    · exact Nat.lt_succ_self _
    · exact Nat.lt_succ_of_lt (h.2 x hx)
  free a U n c h _ := ⟨h.1, fun x hx => h.2 x (List.mem_of_mem_erase hx)⟩

/-- With `bump` an access that passes the checks is the access of `exec`. -/
theorem access_bump (max_offset : ℤ) (s : Store (NodeId × List NodeId)) (pc : Pc)
    (h : Check bump max_offset ⟨s, pc⟩) :
    let r := exec ⟨s.mem, s.col.1, s.col.2⟩ (code max_offset pc)
    let c := access bump max_offset ⟨s, pc⟩
    (⟨c.st.mem, c.st.col.1, c.st.col.2⟩, c.pc) = r := by
  have hacc : access bump max_offset ⟨s, pc⟩ = perform bump s pc.drawn (code max_offset pc) :=
    if_pos h
  dsimp only
  rw [hacc]
  generalize code max_offset pc = ins
  cases ins with
  | casNext n i old new c =>
    simp only [perform, exec]
    split <;> rfl
  | _ => rfl

end ConcurrentPQ.Linden

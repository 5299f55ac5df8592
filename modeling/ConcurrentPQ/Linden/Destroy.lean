import ConcurrentPQ.Lib.Eventually
import ConcurrentPQ.Linden.Prefix

/-!
# Destroying a Linden queue

`pq_destroy` runs along the level-0 chain from the head and passes each node to `free_node`, the head
like all others; then it passes the tail and the head to `free`.  `free_node` is `gc_free` with the
thread-local `ptst`, which the first `critical_enter` of a thread creates.

* `Release`, `Destroyer`, `destroy` — `pq_destroy`, step by step;
* `entered` — the thread has called an operation of the queue before;
* `Released` — what a safe destruction releases;
* `destroy_releases` — **what `pq_destroy` releases**;
* `not_destroyed` — **it is never safe.**
-/

namespace ConcurrentPQ.Linden

open ConcurrentPQ.Transition ConcurrentPQ.Segment

/-- A node is released through `free_node`, or through `free`. -/
inductive Release where
  | gc_free (n : NodeId)
  | free (n : NodeId)
  deriving DecidableEq

/-- Where `pq_destroy` stands: in front of the loop test, of the load of `next[0]`, of `free_node`,
and of `free(pq->tail)` and `free(pq->head)`. -/
inductive DestroySite where
  | test (cur : NodeId)
  | next (pred : NodeId)
  | node (pred cur : NodeId)
  | tail
  | head
  | done
  | crashed
  deriving DecidableEq

/-- The destroying thread: what it has released, the latest first, and where it stands. -/
structure Destroyer where
  released : List Release
  site : DestroySite

/-- The next step of `pq_destroy` on memory `m`; `ptst` tells whether the thread-local `ptst` has been
created.  A null pointer that is followed stops the thread in `crashed`. -/
def destroy (m : Mem) (ptst : Bool) (c : Destroyer) : Destroyer :=
  match c.site with
  | .test cur => { c with site := if cur ≠ tail then .next cur else .tail }
  | .next pred =>
      { c with site := if pred = NULL then .crashed
                       else .node pred (get_unmarked_ref ((m pred).next 0)).ptr }
  | .node pred cur =>
      if ptst then ⟨.gc_free pred :: c.released, .test cur⟩ else { c with site := .crashed }
  | .tail => ⟨.free tail :: c.released, .head⟩
  | .head => ⟨.free head :: c.released, .done⟩
  | .done | .crashed => c

/-- `pq_destroy` is called. -/
def Destroyer.start : Destroyer := ⟨[], .test head⟩

/-- One step of `pq_destroy`. -/
def Destroys (m : Mem) (ptst : Bool) (c c' : Destroyer) : Prop :=
  c.site ≠ .done ∧ c.site ≠ .crashed ∧ c' = destroy m ptst c

/-- Thread `d` has called `insert` or `deletemin`, and so has been in `critical_enter`. -/
def entered (tr : List (Entry State Tid Event)) (d : Tid) : Bool :=
  tr.any fun x => decide (x.who = d) && match x.ev with
    | .call _ => true
    | _ => false

/-- **What a safe destruction releases**, after the nodes of `freed` have been passed to `gc_free`: the
sentinels, which come from `malloc`, once and through `free` only; the other nodes that are linked in,
which come from `gc_alloc`, once and through `gc_free` only; and no node of `freed`. -/
structure Released (m : Mem) (freed : List NodeId) (r : List Release) : Prop where
  sentinel : ∀ n, n = head ∨ n = tail → r.count (.free n) = 1 ∧ .gc_free n ∉ r
  node : ∀ n, OnChain m n → n ≠ head → r.count (.gc_free n) = 1 ∧ .free n ∉ r
  freed : ∀ n ∈ freed, .gc_free n ∉ r ∧ .free n ∉ r

/-- `pq_destroy` returns, and has released the nodes as it should. -/
def Destroyed (m : Mem) (freed : List NodeId) (c : Destroyer) : Prop :=
  c.site = .done ∧ Released m freed c.released

section Destroy

variable {m : Mem} {ptst : Bool} {c : Destroyer} {r : List Release} {D V l : List NodeId}
  {b x : NodeId} {published : NodeId → Prop} {Q : Destroyer → Prop}

/-- A step of `pq_destroy` is determined. -/
theorem Destroys.next (hd : c.site ≠ .done) (hc : c.site ≠ .crashed)
    (hQ : Eventually (Destroys m ptst) Q (destroy m ptst c)) : Eventually (Destroys m ptst) Q c :=
  .next ⟨hd, hc, rfl⟩ (fun _ h => h.2.2) hQ

/-- One round of the loop. -/
theorem Destroys.round (hx : x ≠ tail) (hnull : x ≠ NULL)
    (hQ : Eventually (Destroys m true) Q ⟨.gc_free x :: r, .test (succ0 m x)⟩) :
    Eventually (Destroys m true) Q ⟨r, .test x⟩ := by
  refine Destroys.next (by simp) (by simp) ?_
  have htest : destroy m true ⟨r, .test x⟩ = ⟨r, .next x⟩ := by simp only [destroy, if_pos hx]
  rw [htest]
  refine Destroys.next (by simp) (by simp) ?_
  have hnext : destroy m true ⟨r, .next x⟩ = ⟨r, .node x (succ0 m x)⟩ := by
    simp only [destroy, if_neg hnull]
    rfl
  rw [hnext]
  exact Destroys.next (by simp) (by simp) hQ

/-- **What `pq_destroy` releases**: every node of the chain through `gc_free`, then the tail and, once
more, the head through `free`. -/
theorem Destroys.chain (hseg : Seg (succ0 m) x l tail) (hne : ∀ n ∈ l, n ≠ tail ∧ n ≠ NULL) :
    Eventually (Destroys m true)
      (fun c => c = ⟨.free head :: .free tail :: ((l.map Release.gc_free).reverse ++ r), .done⟩)
      ⟨r, .test x⟩ := by
  induction l generalizing x r with
  | nil =>
    obtain rfl : x = tail := hseg
    refine Destroys.next (by simp) (by simp) ?_
    refine Destroys.next (by simp [destroy]) (by simp [destroy]) ?_
    refine Destroys.next (by simp [destroy]) (by simp [destroy]) ?_
    exact .now rfl
  | cons y l ih =>
    obtain ⟨rfl, hseg⟩ := hseg
    obtain ⟨hy, hnull⟩ := hne x List.mem_cons_self
    refine Destroys.round hy hnull ?_
    have hrest := ih (r := .gc_free x :: r) hseg fun n hn => hne n (List.mem_cons_of_mem _ hn)
    rw [List.map_cons, List.reverse_cons, List.append_assoc, List.singleton_append]
    exact hrest

/-- Once the head has been passed to `gc_free`, the destruction is not safe any more. -/
theorem Destroys.not_safe (hr : .gc_free head ∈ c.released) {freed : List NodeId} :
    ¬Eventually (Destroys m ptst) (Destroyed m freed) c := by
  intro hev
  induction hev with
  | now h => exact (h.2.sentinel head (Or.inl rfl)).2 hr
  | @later c hex _ ih =>
    obtain ⟨c', hd, hc, rfl⟩ := hex
    refine ih _ ⟨hd, hc, rfl⟩ ?_
    obtain ⟨r, site⟩ := c
    cases site with
    | node pred cur =>
      simp only [destroy]
      split
      · exact List.mem_cons_of_mem _ hr
      · exact hr
    | tail => exact List.mem_cons_of_mem _ hr
    | head => exact List.mem_cons_of_mem _ hr
    | test cur => exact hr
    | next pred => exact hr
    | done => exact hr
    | crashed => exact hr

/-- A determined step does not lose what is sure to happen. -/
theorem Destroys.of_next (hd : c.site ≠ .done) (hc : c.site ≠ .crashed) {freed : List NodeId}
    (hev : Eventually (Destroys m ptst) (Destroyed m freed) c) :
    Eventually (Destroys m ptst) (Destroyed m freed) (destroy m ptst c) := by
  cases hev with
  | now h => exact absurd h.1 hd
  | later _ hall => exact hall _ ⟨hd, hc, rfl⟩

/-- **`pq_destroy` is never safe**: it comes to the head first. -/
theorem Destroyer.not_safe (m : Mem) (ptst : Bool) (freed : List NodeId) :
    ¬Eventually (Destroys m ptst) (Destroyed m freed) .start := by
  intro hev
  have h₁ : Eventually (Destroys m ptst) (Destroyed m freed) ⟨[], .next head⟩ :=
    Destroys.of_next (c := .start) (by decide) (by decide) hev
  have h₂ : Eventually (Destroys m ptst) (Destroyed m freed) ⟨[], .node head (succ0 m head)⟩ :=
    Destroys.of_next (by simp) (by simp) h₁
  have h₃ := Destroys.of_next (by simp) (by simp) h₂
  cases ptst with
  | true => exact Destroys.not_safe List.mem_cons_self h₃
  | false =>
    -- `free_node` reads through the null pointer `ptst`
    cases h₃ with
    | now h => exact absurd h.1 (by simp [destroy])
    | later hex _ =>
      obtain ⟨c, -, hc, -⟩ := hex
      exact hc rfl

end Destroy

/-! ### After a run -/

/-- The queue on any memory that `pq_init` leaves behind. -/
def anyQueue (max_offset : ℤ) : System State Tid Event :=
  { lindenQueue max_offset with init := Init }

/-- **A Linden queue is never destroyed safely.**  Whatever calls have been made, by whatever threads,
and whether the destroying thread is one of them: `pq_destroy` fails, or it passes the head, which
comes from `malloc`, to `gc_free`. -/
theorem not_destroyed (max_offset : ℤ) {tr : List (Entry State Tid Event)} {s : State}
    (_hrun : Run (anyQueue max_offset) tr s) (_hidle : ∀ t, s.thr t = .idle) (d : Tid) :
    ¬Eventually (Destroys s.sh.mem (entered tr d)) (Destroyed s.sh.mem s.sh.freed) .start :=
  Destroyer.not_safe s.sh.mem (entered tr d) s.sh.freed

theorem not_destroyed_fresh :
    ¬Eventually (Destroys fresh.sh.mem (entered [] 0)) (Destroyed fresh.sh.mem fresh.sh.freed)
      .start :=
  not_destroyed 0 (.start (S := anyQueue 0) (fresh_init 0).1) (fun _ => rfl) 0

/-- An empty queue, destroyed by a thread that has not used it. -/
theorem exists_not_destroyed : ¬∀ (max_offset : ℤ) (tr : List (Entry State Tid Event)) (s : State),
    Run (anyQueue max_offset) tr s → (∀ t, s.thr t = .idle) → ∀ d,
    Eventually (Destroys s.sh.mem (entered tr d)) (Destroyed s.sh.mem s.sh.freed) .start := by
  intro hall
  exact Destroyer.not_safe freshMem (entered [] 0) []
    (hall 0 [] fresh (.start (fresh_init 0).1) (fun _ => rfl) 0)

end ConcurrentPQ.Linden

import ConcurrentPQ.Spray.Marking
import ConcurrentPQ.Spray.Usage

/-!
# Pointers that are followed

`first->next[0]->deleted`, the last test of `naive_delete_min`, reads through a word that
`mark_node_ptrs` has just marked.  Every other access of a thread that has the list for itself goes
through a pointer that is neither null nor marked, to an entry of `next` below `toplevel`.

* `Instr.pointer`, `Proper` — the word an access follows, as it stands in the source;
* `Session` — the calls of one thread, with all configurations in which it accessed memory;
* `Leg`, `leg_exec`, `leg_exec_of_apart` — the way to that test;
* `Session.settles`, `Session.peek` — every call returns, and the word of the last test is marked;
* `Session.proper_but_peek` — the accesses that follow a proper pointer are the others;
* `proper_iff` — **all do if and only if no `delete_min` went the way of `naive_delete_min`**.
-/

namespace ConcurrentPQ.Spray

open ConcurrentPQ.Transition

/-! ### Calls of one thread -/

/-- The word an instruction follows. -/
def Instr.pointer {π : Type} : Instr π → Ref
  | .peekDeleted w _ => w
  | ins => ins.target

/-- The next access follows a pointer that is neither null nor marked, to an entry of `next` the node
has. -/
structure Proper (c : Config) : Prop where
  nonnull : (code c.pc).pointer.ptr ≠ NULL
  unmarked : (code c.pc).pointer.mark = false
  inRange : (code c.pc).inRange c.sh.mem = true

/-- The calls that are looked at: insertions of a key below `INT_MAX` with a level `get_rand_level` can
draw, and `delete_min` with fewer than `2^14` threads while there is a live key. -/
def Permitted (m : Mem) : Op → Prop
  | .fraser_insert v lvl => v < INT_MAX ∧ 1 ≤ lvl ∧ lvl ≤ levelmax
  | .spray_delete_min n => (0 < n ∧ n < 1 <<< 14) ∧ (liveKeys m).Nonempty
  | _ => False

/-- What one thread does from a new list on: its calls, each with the seed it began with, and the
configurations in which it accessed memory, the latest first. -/
inductive Session : List (Op × ℕ) → List Config → Config → Prop
  | start {s : Shared} (seed : ℕ) : Fresh s → Session [] [] ⟨s, seed, .idle⟩
  | call {ops : List (Op × ℕ)} {cs : List Config} {s : Shared} {seed : ℕ} {op : Op} :
      Session ops cs ⟨s, seed, .idle⟩ → Permitted s.mem op →
      Session ((op, seed) :: ops) cs ⟨s, seed, Spray.start op⟩
  | access {ops : List (Op × ℕ)} {cs : List Config} {c : Config} (any : Bool) :
      Session ops cs c → c.pc.busy = true → Session ops (c :: cs) (Spray.access any c)
  | ret {ops : List (Op × ℕ)} {cs : List Config} {s : Shared} {seed : ℕ} {a : Answer} :
      Session ops cs ⟨s, seed, .ret a⟩ → Session ops cs ⟨s, seed, .idle⟩

/-- `delete_min` went the way of `naive_delete_min`. -/
def NaiveCall : Op × ℕ → Prop
  | (.spray_delete_min n, seed) => Naive n seed
  | _ => False

/-! ### On the way to the last test -/

/-- How a thread stands to the last test: `spray_delete_min` has not drawn yet whether it goes there, it
lies before the thread, or the thread does not come to it. -/
inductive Leg where
  | open
  | ahead
  | apart
  deriving DecidableEq

/-- How a thread stands to the last test. -/
def Pc.leg : Pc → Leg
  | .spSeed _ => .open
  | .nvNext _ | .nvEnd _ | .nvDel _ | .nvInc _ | .nvTail _ | .nvVal _ | .nvPeek _ _ | .nvTest _ _ _
  | .mkTop (.naive _) _ | .mkNext (.naive _) _ _ | .mkCas (.naive _) _ _ _ => .ahead
  | _ => .apart

/-- The thread is at the last test. -/
def Pc.peeks : Pc → Bool
  | .nvTest _ _ _ => true
  | _ => false

section Route

variable {any : Bool} {s : Shared} {seed : ℕ} {pc : Pc} {f : Frame} {n left right : NodeId} {i : ℕ}

@[simp] theorem leg_search {site : Site} : (search f site).leg = .apart := rfl

@[simp] theorem leg_seDown {site : Site} : (seDown f site left right i).leg = .apart := by
  rw [seDown]
  split
  · cases site with
    | remove rs => cases rs <;> rfl
    | _ => rfl
  · rfl

@[simp] theorem leg_spStep {w : Walk} : (spStep w).leg = .apart := by
  rw [spStep]
  split <;> rfl

@[simp] theorem leg_sqTest {g : SeqFrame} : (sqTest g i).leg = .apart := by
  rw [sqTest]
  split <;> rfl

/-- The end of `mark_node_ptrs`. -/
theorem leg_mkDown {site : MarkSite} :
    (mkDown site n i).leg = (Pc.mkTop site n).leg := by
  rw [mkDown]
  cases site <;> split <;> rfl

theorem peeks_of_apart (h : pc.leg = .apart) : pc.peeks = false := by
  cases pc <;> first | rfl | cases h

/-- No way from elsewhere leads to the last test. -/
theorem leg_exec_of_apart (h : pc.leg = .apart) :
    (exec any s seed (code pc)).2.2.leg = .apart := by
  have hmark : ∀ site n, (Pc.mkTop site n).leg = .apart → (marked n site).leg = .apart := by
    intro site n hsite
    cases site with
    | naive v => cases hsite
    | _ => rfl
  cases pc with
  | spSeed n => cases h
  | mkTop site n =>
    simp only [code, exec]
    split
    · exact hmark site n h
    · cases site with
      | naive v => cases h
      | _ => rfl
  | mkNext site n i =>
    have hsite : (Pc.mkTop site n).leg = .apart := by
      cases site with
      | naive v => cases h
      | _ => rfl
    simp only [code, exec]
    split
    · rw [leg_mkDown, hsite]
    · cases site with
      | naive v => cases h
      | _ => rfl
  | mkCas site n i w =>
    have hsite : (Pc.mkTop site n).leg = .apart := by
      cases site with
      | naive v => cases h
      | _ => rfl
    have hnext : (Pc.mkNext site n i).leg = .apart := by
      cases site with
      | naive v => cases h
      | _ => rfl
    simp only [code, exec]
    split
    · simp only [if_true, leg_mkDown, hsite]
    · simp only [Bool.false_eq_true, if_false, hnext]
  | nvNext _ | nvEnd _ | nvDel _ | nvInc _ | nvTail _ | nvVal _ | nvPeek _ _ | nvTest _ _ _ => cases h
  | _ =>
    simp only [code, exec]
    first
      | exact leg_spStep
      | exact leg_sqTest
      | rfl
      | split_ifs <;> first | rfl | exact leg_seDown

variable (any s seed) in
/-- In `naive_delete_min` the way leads to the last test, unless the list turns out to be empty. -/
theorem leg_exec (h : pc.leg = .ahead) (hp : pc.peeks = false) :
    (exec any s seed (code pc)).2.2.leg = .ahead ∨
      (exec any s seed (code pc)).2.2 = .ret (.deleted true none) := by
  cases pc with
  | nvTest first v w => cases hp
  | mkTop site n =>
    cases site with
    | naive v =>
      refine Or.inl ?_
      simp only [code, exec]
      split <;> rfl
    | _ => cases h
  | mkNext site n i =>
    cases site with
    | naive v =>
      refine Or.inl ?_
      simp only [code, exec]
      split
      · rw [leg_mkDown]
        rfl
      · rfl
    | _ => cases h
  | mkCas site n i w =>
    cases site with
    | naive v =>
      refine Or.inl ?_
      simp only [code, exec]
      split
      · simp only [if_true, leg_mkDown]
        rfl
      · rfl
    | _ => cases h
  | nvTail first =>
    simp only [code, exec]
    split
    · exact Or.inl rfl
    · exact Or.inr rfl
  | nvNext _ | nvVal _ | nvPeek _ _ => exact Or.inl rfl
  | nvEnd _ | nvDel _ | nvInc _ =>
    refine Or.inl ?_
    simp only [code, exec]
    split <;> rfl
  | _ => cases h

/-- Only the read before it leads to the last test. -/
theorem peeks_exec (h : (exec any s seed (code pc)).2.2.peeks = true) :
    ∃ first v, pc = .nvPeek first v := by
  have hmark : ∀ site n i, (mkDown site n i).peeks = false := by
    intro site n i
    rw [mkDown]
    cases site <;> split <;> rfl
  cases hleg : pc.leg with
  | apart =>
    rw [peeks_of_apart (leg_exec_of_apart hleg)] at h
    cases h
  | «open» =>
    cases pc with
    | spSeed n =>
      simp only [code, exec] at h
      split at h <;> cases h
    | mkTop site n => cases site <;> cases hleg
    | mkNext site n i => cases site <;> cases hleg
    | mkCas site n i w => cases site <;> cases hleg
    | _ => cases hleg
  | ahead =>
    cases pc with
    | nvPeek first v => exact ⟨first, v, rfl⟩
    | nvNext _ | nvVal _ => cases h
    | nvEnd _ | nvDel _ | nvInc _ | nvTail _ =>
      simp only [code, exec] at h
      split at h <;> cases h
    | nvTest first v w =>
      simp only [code, exec] at h
      split_ifs at h <;> cases h
    | mkTop site n =>
      simp only [code, exec] at h
      split at h
      · cases site <;> cases h
      · cases h
    | mkNext site n i =>
      simp only [code, exec] at h
      split at h
      · rw [hmark] at h
        cases h
      · cases h
    | mkCas site n i w =>
      simp only [code, exec] at h
      split at h
      · simp only [if_true, hmark] at h
        cases h
      · cases h
    | _ => cases hleg

/-- The other instructions follow their target. -/
theorem pointer_eq_target (h : pc.peeks = false) : (code pc).pointer = (code pc).target := by
  cases pc with
  | nvTest first v w => cases h
  | _ => rfl

/-- An access that goes on has a good target. -/
theorem target_of_access {c : Config} (any : Bool) (hw : (access any c).pc ≠ .wild)
    (hc : (access any c).pc ≠ .crashed) :
    (code c.pc).target.ptr ≠ NULL ∧ (code c.pc).target.mark = false ∧
      (code c.pc).inRange c.sh.mem = true := by
  simp only [access] at hw hc
  split at hw
  · exact absurd rfl hw
  · next hmark =>
    rw [if_neg hmark] at hc
    split at hw
    · next hnull =>
      rw [if_pos hnull] at hc
      exact absurd rfl hc
    · next hnull =>
      split at hw
      · exact absurd rfl hw
      · next hrange =>
        exact ⟨hnull, Bool.eq_false_iff.mpr hmark, by simpa using hrange⟩

end Route

/-! ### Sessions -/

section Sessions

variable {ops : List (Op × ℕ)} {cs : List Config} {c : Config} {s : Shared} {seed : ℕ} {pc : Pc}
  {m : Mem} {brk : NodeId} {P : Set NodeId}

/-- A call has returned, not with the answer `naive_delete_min` gives on an empty list. -/
structure Done (c : Config) : Prop where
  pc : ∃ a, c.pc = .ret a ∧ a ≠ .deleted true none
  seq : ∃ P, Seq c.sh.mem c.sh.brk P

/-- A permitted call ends. -/
theorem Seq.permitted {op : Op} (h : Seq m brk P) (ho : Permitted m op) :
    Eventually Next Done ⟨⟨m, brk⟩, seed, Spray.start op⟩ := by
  cases op with
  | fraser_insert v lvl =>
    exact h.insert ho.1 ho.2
      (fun _ m' hs _ => .now ⟨⟨_, rfl, by simp⟩, _, hs⟩)
      fun _ m' hs _ => .now ⟨⟨_, rfl, by simp⟩, _, hs⟩
  | spray_delete_min n =>
    refine h.delete_min (fun _ y m' _ hs _ => .now ⟨⟨_, rfl, by simp⟩, _, hs⟩) (fun _ he => ?_)
      (fun _ hle => ?_) (fun _ y m' _ _ hs _ => .now ⟨⟨_, rfl, by simp⟩, _, hs⟩)
      fun _ _ => .now ⟨⟨_, rfl, by simp⟩, _, h⟩
    · have hlive := ho.2
      rw [he] at hlive
      exact absurd hlive Set.not_nonempty_empty
    · exact absurd (SCANHEIGHT_lt ho.1.2) (not_lt.mpr hle)
  | _ => exact ho.elim

/-- A thread that stands in no call does not come to the end of one. -/
theorem not_eventually_done (hb : c.pc.busy = false) (hr : ∀ a, c.pc ≠ .ret a) :
    ¬Eventually Next Done c := by
  intro h
  cases h with
  | now hd =>
    obtain ⟨⟨a, ha, _⟩, _⟩ := hd
    exact hr a ha
  | later hex _ =>
    obtain ⟨c', hc'⟩ := hex
    exact Settled.final hb hc'

/-- **Every call of a session ends**, and between the calls memory has its shape. -/
theorem Session.settles (h : Session ops cs c) :
    (c.pc = .idle ∧ ∃ P, Seq c.sh.mem c.sh.brk P) ∨ Eventually Next Done c := by
  induction h with
  | start seed hf => exact Or.inl ⟨rfl, _, .initial hf⟩
  | call _ ho ih =>
    rcases ih with ⟨-, P, hP⟩ | hev
    · exact Or.inr (hP.permitted ho)
    · exact absurd hev (not_eventually_done rfl (by simp))
  | @access ops cs c any _ hb ih =>
    rcases ih with ⟨hidle, -⟩ | hev
    · rw [hidle] at hb
      cases hb
    · cases hev with
      | now hd =>
        obtain ⟨⟨a, ha, _⟩, _⟩ := hd
        rw [ha] at hb
        cases hb
      | later _ hall => exact Or.inr (hall _ ⟨hb, any, rfl⟩)
  | ret _ ih =>
    rcases ih with ⟨hidle, -⟩ | hev
    · cases hidle
    · cases hev with
      | now hd => exact Or.inl ⟨rfl, hd.seq⟩
      | later hex _ =>
        obtain ⟨c', hc'⟩ := hex
        exact absurd hc' (Settled.final rfl)

/-- A thread in a call goes on. -/
theorem Session.target (h : Session ops cs c) (hb : c.pc.busy = true) :
    (code c.pc).target.ptr ≠ NULL ∧ (code c.pc).target.mark = false ∧
      (code c.pc).inRange c.sh.mem = true := by
  have hnext := (h.access true hb).settles
  refine target_of_access true (fun hw => ?_) fun hc => ?_
  · rcases hnext with ⟨hidle, -⟩ | hev
    · rw [hw] at hidle
      cases hidle
    · exact not_eventually_done (by rw [hw]; rfl) (by simp [hw]) hev
  · rcases hnext with ⟨hidle, -⟩ | hev
    · rw [hc] at hidle
      cases hidle
    · exact not_eventually_done (by rw [hc]; rfl) (by simp [hc]) hev

theorem Permitted.admissible {op : Op} (h : Permitted m op) : Admissible op := by
  cases op with
  | fraser_insert v lvl => exact h
  | spray_delete_min n => exact h.1
  | _ => exact h.elim

/-- A session is a run of the list in which one thread moves. -/
theorem Session.run (h : Session ops cs c) : ∃ tr s, Run sprayList tr s ∧ s.sh = c.sh ∧
    s.seed 0 = c.seed ∧ s.thr = Function.update (fun _ => .idle) 0 c.pc := by
  induction h with
  | @start s seed hf =>
    refine ⟨[], ⟨s, fun _ => seed, fun _ => .idle⟩, .start ⟨hf, fun _ => rfl⟩, rfl, rfl, ?_⟩
    funext t
    rw [Function.update_apply]
    split <;> rfl
  | @call ops cs s seed op _ ho ih =>
    obtain ⟨tr, s', hrun, hsh, hseed, hthr⟩ := ih
    have hidle : s'.thr 0 = .idle := by rw [hthr, Function.update_self]
    refine ⟨_, _, hrun.step (.call hidle ho.admissible), hsh, hseed, ?_⟩
    dsimp only
    rw [hthr, Function.update_idem]
  | @access ops cs c any _ hb ih =>
    obtain ⟨tr, s', hrun, hsh, hseed, hthr⟩ := ih
    have hpc : s'.thr 0 = c.pc := by rw [hthr, Function.update_self]
    have hc : (⟨s'.sh, s'.seed 0, s'.thr 0⟩ : Config) = c := by rw [hsh, hseed, hpc]
    refine ⟨_, _, hrun.step (.access any (by rw [hpc]; exact hb)), ?_, ?_, ?_⟩
    · rw [advance, hc]
    · rw [advance, hc]
      dsimp only
      rw [Function.update_self]
    · rw [advance, hc]
      dsimp only
      rw [hthr, Function.update_idem]
  | @ret ops cs s seed a _ ih =>
    obtain ⟨tr, s', hrun, hsh, hseed, hthr⟩ := ih
    have hret : s'.thr 0 = .ret a := by rw [hthr, Function.update_self]
    refine ⟨_, _, hrun.step (.ret hret), hsh, hseed, ?_⟩
    dsimp only
    rw [hthr, Function.update_idem]

/-- **The word the last test follows is marked.** -/
theorem Session.peek {first : NodeId} {v : ℕ} {w : Ref} (h : Session ops cs c)
    (hpc : c.pc = .nvTest first v w) : w.mark = true := by
  cases h with
  | start seed hf => cases hpc
  | @call ops cs s seed op _ ho =>
    cases op with
    | _ => cases hpc
  | ret _ => cases hpc
  | @access ops cs c any h hb =>
    obtain ⟨hnull, hmark, hrange⟩ := h.target hb
    obtain ⟨sh, seed, pc⟩ := c
    have hgood : Spray.access any ⟨sh, seed, pc⟩ = _ := access_good rfl hmark hnull hrange
    rw [hgood] at hpc
    have hpeeks : (exec any sh seed (code pc)).2.2.peeks = true := by
      rw [show (exec any sh seed (code pc)).2.2 = .nvTest first v w from hpc]
      rfl
    obtain ⟨first', v', rfl⟩ := peeks_exec hpeeks
    obtain ⟨rfl, rfl, rfl⟩ : first' = first ∧ v' = v ∧ (sh.mem first').next 0 = w := by
      simpa [code, exec] using hpc
    -- the pointers of the node have been marked
    obtain ⟨tr, s, hrun, rfl, -, hthr⟩ := h.run
    obtain ⟨P, Q, hinv, hatt⟩ := Attended.of_run hrun
    have hok := hinv.inv.ok 0
    rw [hthr, Function.update_self] at hok
    have hdoomed : Doomed s.sh.mem P first' := hok.1
    have hall : AllMarked s.sh.mem first' := by
      rcases hatt first' hdoomed.inner hdoomed.deleted with hall | ⟨t, ht⟩
      · exact hall
      · rw [hthr, Function.update_apply] at ht
        split at ht <;> cases ht
    exact hall 0 (hinv.inv.shape.top first' hdoomed.inner.mem).1

/-- **Which accesses follow a proper pointer**: all but the last test. -/
theorem Session.proper_but_peek (h : Session ops cs c) : ∀ x ∈ cs, (Proper x ↔ x.pc.peeks = false) := by
  induction h with
  | start _ _ => intro x hx; cases hx
  | call _ _ ih => exact ih
  | ret _ ih => exact ih
  | @access ops cs c any h hb ih =>
    intro x hx
    cases hx with
    | tail _ hx => exact ih x hx
    | head =>
      cases hp : c.pc.peeks with
      | false =>
        obtain ⟨hnull, hmark, hrange⟩ := h.target hb
        have heq := pointer_eq_target hp
        exact iff_of_true ⟨by rw [heq]; exact hnull, by rw [heq]; exact hmark, hrange⟩ rfl
      | true =>
        refine iff_of_false (fun hproper => ?_) (by decide)
        obtain ⟨sh, seed, pc⟩ := c
        cases pc with
        | nvTest first v w =>
          have hmark := h.peek rfl
          have hunmarked := hproper.unmarked
          exact Bool.false_ne_true (hunmarked.symm.trans hmark)
        | _ => cases hp

/-! ### Which calls come to the last test -/

/-- What the configurations of a session tell of its calls. -/
structure Routed (ops : List (Op × ℕ)) (cs : List Config) (c : Config) : Prop where
  seen : ∀ x ∈ cs, x.pc.peeks = true → ∃ p ∈ ops, NaiveCall p
  ahead : c.pc.leg = .ahead → ∃ p ∈ ops, NaiveCall p
  called : ∀ n, c.pc = .spSeed n → (.spray_delete_min n, c.seed) ∈ ops
  comes : (∃ p ∈ ops, NaiveCall p) → (∃ x ∈ cs, x.pc.peeks = true) ∨ c.pc.leg = .ahead ∨
    ∃ n, c.pc = .spSeed n ∧ Naive n c.seed

/-- A thread outside of all calls, or in one that does not go to the last test. -/
theorem Routed.apart (h : Routed ops cs c) {c' : Config} (hc : c.pc.leg = .apart)
    (hc' : c'.pc.leg = .apart) : Routed ops cs c' where
  seen := h.seen
  ahead ha := by rw [hc'] at ha; cases ha
  called n hn := by rw [hn] at hc'; cases hc'
  comes hex := by
    rcases h.comes hex with hseen | hahead | ⟨n, hn, -⟩
    · exact Or.inl hseen
    · rw [hc] at hahead
      cases hahead
    · rw [hn] at hc
      cases hc

/-- A call. -/
theorem Routed.call {op : Op} (h : Routed ops cs ⟨s, seed, .idle⟩) (ho : Permitted s.mem op) :
    Routed ((op, seed) :: ops) cs ⟨s, seed, Spray.start op⟩ := by
  have hcomes : (∃ p ∈ ops, NaiveCall p) → ∃ x ∈ cs, x.pc.peeks = true := by
    intro hex
    rcases h.comes hex with hseen | hahead | ⟨n, hn, -⟩
    · exact hseen
    · cases hahead
    · cases hn
  have hseen : ∀ x ∈ cs, x.pc.peeks = true → ∃ p ∈ (op, seed) :: ops, NaiveCall p := by
    intro x hx hp
    obtain ⟨p, hmem, hnaive⟩ := h.seen x hx hp
    exact ⟨p, List.mem_cons_of_mem _ hmem, hnaive⟩
  cases op with
  | fraser_insert v lvl =>
    refine ⟨hseen, fun ha => (by cases ha), fun n hn => (by cases hn), fun hex => Or.inl ?_⟩
    obtain ⟨p, hmem, hnaive⟩ := hex
    cases hmem with
    | head => exact hnaive.elim
    | tail _ hmem => exact hcomes ⟨p, hmem, hnaive⟩
  | spray_delete_min n =>
    refine ⟨hseen, fun ha => (by cases ha), fun n hn => ?_, fun hex => ?_⟩
    · cases hn
      exact List.mem_cons_self
    · obtain ⟨p, hmem, hnaive⟩ := hex
      cases hmem with
      | head => exact Or.inr (Or.inr ⟨n, rfl, hnaive⟩)
      | tail _ hmem => exact Or.inl (hcomes ⟨p, hmem, hnaive⟩)
  | _ => exact ho.elim

/-- An access. -/
theorem Routed.access {any : Bool} (h : Routed ops cs c) (hs : Session ops cs c)
    (hb : c.pc.busy = true) : Routed ops (c :: cs) (Spray.access any c) := by
  obtain ⟨hnull, hmark, hrange⟩ := hs.target hb
  have hnext := (hs.access any hb).settles
  obtain ⟨sh, seed, pc⟩ := c
  have hgood : Spray.access any ⟨sh, seed, pc⟩ = _ := access_good rfl hmark hnull hrange
  have hold : ∀ x ∈ cs, x.pc.peeks = true → ∃ p ∈ ops, NaiveCall p := h.seen
  cases hleg : pc.leg with
  | apart =>
    have hpeeks : pc.peeks = false := peeks_of_apart hleg
    have hadd : Routed ops (⟨sh, seed, pc⟩ :: cs) ⟨sh, seed, pc⟩ := by
      refine ⟨fun x hx hp => ?_, h.ahead, h.called, fun hex => ?_⟩
      · cases hx with
        | head =>
          rw [hpeeks] at hp
          cases hp
        | tail _ hx => exact hold x hx hp
      · rcases h.comes hex with ⟨x, hx, hp⟩ | hrest
        · exact Or.inl ⟨x, List.mem_cons_of_mem _ hx, hp⟩
        · exact Or.inr hrest
    refine hadd.apart hleg ?_
    rw [hgood]
    exact leg_exec_of_apart hleg
  | ahead =>
    have hnaive : ∃ p ∈ ops, NaiveCall p := h.ahead hleg
    cases hpeeks : pc.peeks with
    | true =>
      refine ⟨fun _ _ _ => hnaive, fun _ => hnaive, fun n hn => ?_,
        fun _ => Or.inl ⟨_, List.mem_cons_self, hpeeks⟩⟩
      cases pc with
      | nvTest first v w =>
        rw [hgood] at hn
        simp only [code, exec] at hn
        split_ifs at hn
      | _ => cases hpeeks
    | false =>
      have hstep : (Spray.access any ⟨sh, seed, pc⟩).pc.leg = .ahead := by
        rw [hgood] at hnext ⊢
        rcases leg_exec any sh seed hleg hpeeks with hahead | hret
        · exact hahead
        · rcases hnext with ⟨hidle, -⟩ | hev
          · rw [show _ = Pc.ret (.deleted true none) from hret] at hidle
            cases hidle
          · cases hev with
            | now hd =>
              obtain ⟨⟨a, ha, hne⟩, -⟩ := hd
              exact absurd (Pc.ret.inj (ha.symm.trans hret)) hne
            | later hex _ =>
              obtain ⟨c', hc'⟩ := hex
              exact absurd hc' (Settled.final (by rw [show _ = Pc.ret (.deleted true none) from hret]; rfl))
      refine ⟨fun _ _ _ => hnaive, fun _ => hnaive, fun n hn => ?_, fun _ => Or.inr (Or.inl hstep)⟩
      rw [hn] at hstep
      cases hstep
  | «open» =>
    obtain ⟨n, rfl⟩ : ∃ n, pc = .spSeed n := by
      cases pc with
      | spSeed n => exact ⟨n, rfl⟩
      | mkTop site n => cases site <;> cases hleg
      | mkNext site n i => cases site <;> cases hleg
      | mkCas site n i w => cases site <;> cases hleg
      | _ => cases hleg
    have hcall : (.spray_delete_min n, seed) ∈ ops := h.called n rfl
    have hseen : ∀ x ∈ ⟨sh, seed, .spSeed n⟩ :: cs, x.pc.peeks = true → ∃ p ∈ ops, NaiveCall p := by
      intro x hx hp
      cases hx with
      | head => cases hp
      | tail _ hx => exact hold x hx hp
    by_cases hn : Naive n seed
    · rw [access_spSeed_naive hn]
      exact ⟨hseen, fun _ => ⟨_, hcall, hn⟩, fun m hm => (by cases hm), fun _ => Or.inr (Or.inl rfl)⟩
    · rw [access_spSeed_spray hn]
      refine ⟨hseen, fun ha => (by cases ha), fun m hm => (by cases hm), fun hex => Or.inl ?_⟩
      rcases h.comes hex with ⟨x, hx, hp⟩ | hahead | ⟨m, hm, hnaive⟩
      · exact ⟨x, List.mem_cons_of_mem _ hx, hp⟩
      · cases hahead
      · cases hm
        exact absurd hnaive hn

theorem Session.routed (h : Session ops cs c) : Routed ops cs c := by
  induction h with
  | start _ _ =>
    refine ⟨fun x hx => (by cases hx), fun ha => (by cases ha), fun n hn => (by cases hn),
      fun hex => ?_⟩
    obtain ⟨p, hp, -⟩ := hex
    cases hp
  | call _ ho ih => exact ih.call ho
  | access any hs hb ih => exact ih.access hs hb
  | ret _ ih => exact ih.apart rfl rfl

end Sessions

/-! ### The result -/

/-- **All accesses of a session follow a proper pointer if no `delete_min` goes the way of
`naive_delete_min`**, and, when the calls have returned, only then. -/
theorem proper_iff (ops : List (Op × ℕ)) (cs : List Config) (c : Config) (h : Session ops cs c) :
    ((∀ p ∈ ops, ¬NaiveCall p) → ∀ x ∈ cs, Proper x) ∧
    (c.pc = .idle → ((∀ x ∈ cs, Proper x) ↔ ∀ p ∈ ops, ¬NaiveCall p)) := by
  have hproper := h.proper_but_peek
  have hrouted := h.routed
  have hall : (∀ p ∈ ops, ¬NaiveCall p) → ∀ x ∈ cs, Proper x := by
    intro hno x hx
    rw [hproper x hx, ← Bool.not_eq_true]
    intro hp
    obtain ⟨p, hmem, hnaive⟩ := hrouted.seen x hx hp
    exact hno p hmem hnaive
  refine ⟨hall, fun hidle => ⟨fun hgood p hmem hnaive => ?_, hall⟩⟩
  rcases hrouted.comes ⟨p, hmem, hnaive⟩ with ⟨x, hx, hp⟩ | hahead | ⟨n, hn, -⟩
  · have hfalse := (hproper x hx).mp (hgood x hx)
    rw [hp] at hfalse
    cases hfalse
  · rw [hidle] at hahead
    cases hahead
  · rw [hidle] at hn
    cases hn

/-- Accesses in turn, as long as the thread is in its call. -/
theorem Session.iterate {ops : List (Op × ℕ)} {cs : List Config} {c : Config} (any : Bool) (k : ℕ)
    (h : Session ops cs c) : ∃ cs', cs ⊆ cs' ∧ Session ops cs' ((Spray.access any)^[k] c) := by
  induction k generalizing cs c with
  | zero => exact ⟨cs, List.Subset.refl _, h⟩
  | succ k ih =>
    rw [Function.iterate_succ_apply]
    cases hb : c.pc.busy with
    | true =>
      obtain ⟨cs', hsub, h'⟩ := ih (h.access any hb)
      exact ⟨cs', fun x hx => hsub (List.mem_cons_of_mem _ hx), h'⟩
    | false =>
      rw [access_of_idle hb]
      exact ih h

/-- A call of which the end is known. -/
theorem Session.perform {ops : List (Op × ℕ)} {cs : List Config} {s : Shared} {seed : ℕ} {op : Op}
    (any : Bool) (k : ℕ) (h : Session ops cs ⟨s, seed, .idle⟩) (ho : Permitted s.mem op)
    (hret : ((Spray.access any)^[k] ⟨s, seed, Spray.start op⟩).pc matches .ret _) :
    ∃ cs', cs ⊆ cs' ∧ Session ((op, seed) :: ops) cs'
      ⟨((Spray.access any)^[k] ⟨s, seed, Spray.start op⟩).sh,
        ((Spray.access any)^[k] ⟨s, seed, Spray.start op⟩).seed, .idle⟩ := by
  obtain ⟨cs', hsub, h'⟩ := (h.call ho).iterate any k
  refine ⟨cs', hsub, ?_⟩
  generalize (Spray.access any)^[k] ⟨s, seed, Spray.start op⟩ = d at hret h' ⊢
  obtain ⟨s', seed', pc⟩ := d
  cases pc with
  | ret a => exact h'.ret
  | _ => cases hret

/-- The configuration in which the insertion of 5, with one level, returns. -/
def inserted5 : Config := (access true)^[60] ⟨fresh, 1, start (.fraser_insert 5 1)⟩

theorem inserted5_live : (liveKeys inserted5.sh.mem).Nonempty := by
  have hnext : succ inserted5.sh.mem 0 head = 3 := by decide +kernel
  have hthree : OnChain inserted5.sh.mem 3 := hnext ▸ OnChain.head.next (by rw [hnext]; decide)
  exact ⟨5, 3, hthree, by decide, by decide, by decide +kernel, by decide +kernel⟩

theorem inserted5_session :
    ∃ cs, Session [(.fraser_insert 5 1, 1)] cs ⟨inserted5.sh, inserted5.seed, .idle⟩ := by
  have hins : Permitted fresh.mem (.fraser_insert 5 1) := ⟨by decide, by decide⟩
  obtain ⟨cs, -, h⟩ := (Session.start 1 fresh_fresh).perform true 60 hins (by decide +kernel)
  rw [inserted5]
  exact ⟨cs, h⟩

/-- **One thread inserts 5 and takes it again**: the last test of `naive_delete_min` follows a marked
pointer. -/
theorem exists_not_proper : ∃ cs c, Session [(.spray_delete_min 1, inserted5.seed),
    (.fraser_insert 5 1, 1)] cs c ∧ ¬∀ x ∈ cs, Proper x := by
  obtain ⟨cs, h⟩ := inserted5_session
  have hdel : Permitted inserted5.sh.mem (.spray_delete_min 1) := ⟨by decide, inserted5_live⟩
  obtain ⟨cs', -, h'⟩ := (h.call hdel).iterate true 11
  have hbusy : ((access true)^[11]
      ⟨inserted5.sh, inserted5.seed, start (.spray_delete_min 1)⟩).pc.busy = true := by
    decide +kernel
  have hmark : (code ((access true)^[11]
      ⟨inserted5.sh, inserted5.seed, start (.spray_delete_min 1)⟩).pc).pointer.mark = true := by
    decide +kernel
  refine ⟨_, _, h'.access true hbusy, fun hall => ?_⟩
  have hunmarked := (hall _ List.mem_cons_self).unmarked
  exact Bool.false_ne_true (hunmarked.symm.trans hmark)

/-- One thread inserts 5, and a spray takes it and marks its node: all accesses follow proper pointers. -/
theorem proper_iff_sprayed5 : ∃ cs,
    Session [(.spray_delete_min 2, 26), (.fraser_insert 5 1, 26)] cs ⟨sprayed5.sh, sprayed5.seed, .idle⟩ ∧
    Marked sprayed5.sh.mem 0 (succ sprayed5.sh.mem 0 head) ∧ (∀ x ∈ cs, Proper x) ∧
    ((∀ x ∈ cs, Proper x) ↔
      ∀ p ∈ [(Op.spray_delete_min 2, 26), (Op.fraser_insert 5 1, 26)], ¬NaiveCall p) := by
  set c₁ := Spray.perform true (.fraser_insert 5 1) 100 ⟨fresh, 26, .idle⟩ with hc₁
  have hlive : (liveKeys c₁.sh.mem).Nonempty := by
    rw [hc₁, liveKeys_perform5 (by decide +kernel)]
    exact Set.singleton_nonempty 5
  have hseed : c₁.seed = 26 := by decide +kernel
  have hins : Permitted fresh.mem (.fraser_insert 5 1) := ⟨by decide, by decide⟩
  have hspray : Permitted c₁.sh.mem (.spray_delete_min 2) := ⟨by decide, hlive⟩
  obtain ⟨cs₁, -, h₁⟩ := (Session.start 26 fresh_fresh).perform true 100 hins (by decide +kernel)
  have h₁' : Session [(.fraser_insert 5 1, 26)] cs₁ ⟨c₁.sh, c₁.seed, .idle⟩ := h₁
  obtain ⟨cs, -, h₂⟩ := h₁'.perform true 100 hspray (by decide +kernel)
  have h₂' : Session [(.spray_delete_min 2, c₁.seed), (.fraser_insert 5 1, 26)] cs
      ⟨sprayed5.sh, sprayed5.seed, .idle⟩ := h₂
  rw [hseed] at h₂'
  have hno : ∀ p ∈ [(Op.spray_delete_min 2, 26), (Op.fraser_insert 5 1, 26)], ¬NaiveCall p := by
    rw [List.forall_mem_cons, List.forall_mem_singleton]
    exact ⟨show ¬Naive 2 26 by decide, id⟩
  obtain ⟨hall, hiff⟩ := proper_iff _ cs _ h₂'
  exact ⟨cs, h₂', by unfold Marked; decide +kernel, hall hno, hiff rfl⟩

end ConcurrentPQ.Spray

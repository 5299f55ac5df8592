import ConcurrentPQ.Spray.Queue

/-!
# What the draws decide

The seed of a thread decides nothing but the way of `spray_delete_min` and the lengths it scans.

* `SameDraws` — two seeds with the same way and the same lengths;
* `access_drawn` — the step lemma: two threads with such seeds make the same access;
* `Drawn.run` — **with such seeds a call has the same executions**.
-/

namespace ConcurrentPQ.Spray

open Relation

/-- A spray over `n` threads draws the same lengths with both seeds for its next `k` levels. -/
def SameLengths (n : ℕ) : ℕ → ℕ → ℕ → Prop
  | 0, _, _ => True
  | k + 1, σ, τ => nextSeed σ % (SCANMAX n + 1) = nextSeed τ % (SCANMAX n + 1) ∧
      SameLengths n k (nextSeed σ) (nextSeed τ)

/-- `spray_delete_min` goes the same way with both seeds, and its spray scans the same lengths. -/
def SameDraws (n σ τ : ℕ) : Prop :=
  (Naive n σ ↔ Naive n τ) ∧ (¬Naive n σ → SameLengths n (SCANHEIGHT n + 1) (nextSeed σ) (nextSeed τ))

instance SameLengths.decidable (n : ℕ) : ∀ k σ τ, Decidable (SameLengths n k σ τ)
  | 0, _, _ => isTrue trivial
  | k + 1, σ, τ =>
    have := SameLengths.decidable n k (nextSeed σ) (nextSeed τ)
    inferInstanceAs (Decidable (_ ∧ _))

instance (n σ τ : ℕ) : Decidable (SameDraws n σ τ) := inferInstanceAs (Decidable (_ ∧ _))

/-- The thread count of a spray, and the number of levels for which it has not drawn yet. -/
def Pc.due : Pc → Option (ℕ × ℕ)
  | .spDraw w => some (w.n, w.i + 1)
  | .spTest w | .spMove w | .spDel w | .spEnd w => some (w.n, w.i)
  | _ => none

/-- What a call still draws is the same with both seeds. -/
structure Drawn (σ τ : ℕ) (pc : Pc) : Prop where
  seed : ∀ n, pc = .spSeed n → SameDraws n σ τ
  levels : ∀ n k, pc.due = some (n, k) → SameLengths n k σ τ

/-- The thread is in `spray_delete_min` and may draw again. -/
def Pc.sprays : Pc → Bool
  | .spSeed _ | .spDraw _ | .spTest _ | .spMove _ | .spDel _ | .spEnd _ => true
  | _ => false

/-- The instruction makes use of the seed. -/
def Instr.draws {π : Type} : Instr π → Bool
  | .draw _ => true
  | _ => false

section Drawn

variable {any : Bool} {s : Shared} {σ τ seed : ℕ} {pc : Pc} {n : NodeId} {i : ℕ}

theorem SameLengths.symm {k m : ℕ} (h : SameLengths m k σ τ) : SameLengths m k τ σ := by
  induction k generalizing σ τ with
  | zero => exact trivial
  | succ k ih => exact ⟨h.1.symm, ih h.2⟩

theorem SameDraws.symm {m : ℕ} (h : SameDraws m σ τ) : SameDraws m τ σ :=
  ⟨h.1.symm, fun hn => (h.2 (mt h.1.mp hn)).symm⟩

theorem drawn_of_not_sprays (h : pc.sprays = false) : Drawn σ τ pc := by
  refine ⟨fun n he => ?_, fun n k he => ?_⟩
  · rw [he] at h
    cases h
  · cases pc <;> first | (cases h; done) | cases he

theorem drawn_of_due {m k : ℕ} (h : SameLengths m k σ τ) (hdue : pc.due = some (m, k)) : Drawn σ τ pc := by
  refine ⟨fun n he => ?_, fun n j he => ?_⟩
  · rw [he] at hdue
    cases hdue
  · rw [hdue] at he
    cases he
    exact h

theorem due_spStep {w : Walk} : (spStep w).due = some (w.n, w.i) := by
  rw [spStep]
  split <;> rfl

theorem sprays_marked {site : MarkSite} : (marked n site).sprays = false := by
  cases site <;> rfl

theorem sprays_mkDown {site : MarkSite} : (mkDown site n i).sprays = false := by
  rw [mkDown]
  split
  · exact sprays_marked
  · rfl

theorem sprays_seDown {f : Frame} {site : Site} {left right : NodeId} :
    (seDown f site left right i).sprays = false := by
  rw [seDown]
  split
  · cases site with
    | remove rs => cases rs <;> rfl
    | _ => rfl
  · rfl

theorem sprays_sqTest {f : SeqFrame} : (sqTest f i).sprays = false := by
  rw [sqTest]
  split <;> rfl

/-- No way leads back to the spray. -/
theorem sprays_exec (h : pc.sprays = false) : (exec any s seed (code pc)).2.2.sprays = false := by
  cases pc with
  | spSeed _ | spDraw _ | spTest _ | spMove _ | spDel _ | spEnd _ => cases h
  | mkTop site n | mkNext site n i =>
    simp only [code, exec]
    split
    · first | exact sprays_marked | exact sprays_mkDown
    · rfl
  | mkCas site n i w =>
    simp only [code, exec]
    split
    · simp only [if_true, sprays_mkDown]
    · rfl
  | _ =>
    simp only [code, exec]
    first
      | rw [sprays_sqTest]
      | rfl
      | split_ifs <;> first | rw [sprays_seDown] | rfl

/-- An instruction that does not draw makes nothing of the seed. -/
theorem exec_of_not_draws (any : Bool) (s : Shared) (σ τ : ℕ) {ins : Instr Pc} (h : ins.draws = false) :
    exec any s τ ins = ((exec any s σ ins).1, τ, (exec any s σ ins).2.2) ∧
      (exec any s σ ins).2.1 = σ := by
  cases ins with
  | draw c => cases h
  | casNext n i old new c =>
    rw [exec_casNext, exec_casNext]
    split
    · exact ⟨rfl, rfl⟩
    · exact ⟨rfl, rfl⟩
  | _ => exact ⟨rfl, rfl⟩

/-- Between two draws the spray keeps its level. -/
theorem drawn_exec (h : Drawn σ τ pc) (hd : (code pc).draws = false) :
    Drawn σ τ (exec any s σ (code pc)).2.2 := by
  cases pc with
  | spSeed _ | spDraw _ => cases hd
  | spTest w =>
    refine drawn_of_due (h.levels w.n w.i rfl) ?_
    simp only [code, exec]
    split
    · rfl
    · rfl
  | spMove w => exact drawn_of_due (h.levels w.n w.i rfl) rfl
  | spDel w =>
    refine drawn_of_due (h.levels w.n w.i rfl) ?_
    simp only [code, exec, due_spStep]
    split
    · rfl
    · rfl
  | spEnd w =>
    simp only [code, exec]
    split_ifs with hr hi hh
    · exact drawn_of_not_sprays rfl
    · exact drawn_of_not_sprays rfl
    · exact drawn_of_not_sprays rfl
    · refine drawn_of_due (h.levels w.n w.i rfl) ?_
      show some (w.n, w.i - 1 + 1) = some (w.n, w.i)
      rw [Nat.sub_add_cancel (Nat.pos_of_ne_zero hi)]
  | _ => exact drawn_of_not_sprays (sprays_exec rfl)

/-- The walk along a level of which a scan length has been drawn. -/
def Walk.scan (w : Walk) (len : ℕ) : Pc :=
  let r := skipDummies (dummyMax w.n) (1 <<< w.i) w.dummy len
  spStep { w with dummy := r.1, scanlen := r.2 }

theorem access_spDraw {w : Walk} : access any ⟨s, seed, .spDraw w⟩ =
    ⟨s, nextSeed seed, w.scan (nextSeed seed % (SCANMAX w.n + 1))⟩ := by
  rw [access_draw rfl, Walk.scan]

theorem due_scan {w : Walk} {len : ℕ} : (w.scan len).due = some (w.n, w.i) := by
  rw [Walk.scan, due_spStep]

theorem access_spSeed_naive {m : ℕ} (h : Naive m seed) :
    access any ⟨s, seed, .spSeed m⟩ = ⟨s, nextSeed seed, .nvNext head⟩ := by
  rw [access_draw rfl, if_pos (show m = 1 ∨ nextSeed seed % m = 0 from h)]

theorem access_spSeed_spray {m : ℕ} (h : ¬Naive m seed) :
    access any ⟨s, seed, .spSeed m⟩ = ⟨s, nextSeed seed, .spDraw ⟨m, head, SCANHEIGHT m, 0, 0⟩⟩ := by
  rw [access_draw rfl, if_neg (show ¬(m = 1 ∨ nextSeed seed % m = 0) from h)]

/-- The seeds `σ` and `τ` lead to the same access, and on with the seeds `σ'` and `τ'`. -/
theorem drawn_of_access {s' : Shared} {σ' τ' : ℕ} {pc' : Pc} (hσ : access any ⟨s, σ, pc⟩ = ⟨s', σ', pc'⟩)
    (hτ : access any ⟨s, τ, pc⟩ = ⟨s', τ', pc'⟩) (h : Drawn σ' τ' pc') :
    ∃ τ', access any ⟨s, τ, pc⟩ = ⟨(access any ⟨s, σ, pc⟩).sh, τ', (access any ⟨s, σ, pc⟩).pc⟩ ∧
      Drawn (access any ⟨s, σ, pc⟩).seed τ' (access any ⟨s, σ, pc⟩).pc := by
  rw [hσ]
  exact ⟨τ', hτ, h⟩

variable (any s) in
/-- **The step lemma**: with both seeds the next access does the same, and what is left to draw stays the
same. -/
theorem access_drawn (h : Drawn σ τ pc) :
    ∃ τ', access any ⟨s, τ, pc⟩ = ⟨(access any ⟨s, σ, pc⟩).sh, τ', (access any ⟨s, σ, pc⟩).pc⟩ ∧
      Drawn (access any ⟨s, σ, pc⟩).seed τ' (access any ⟨s, σ, pc⟩).pc := by
  cases hd : (code pc).draws with
  | false =>
    obtain ⟨hexec, hseed⟩ := exec_of_not_draws any s σ τ hd
    refine ⟨τ, ?_⟩
    unfold access
    dsimp only
    split_ifs
    · exact ⟨rfl, drawn_of_not_sprays rfl⟩
    · exact ⟨rfl, drawn_of_not_sprays rfl⟩
    · exact ⟨rfl, drawn_of_not_sprays rfl⟩
    · rw [hexec, hseed]
      exact ⟨rfl, drawn_exec h hd⟩
  | true =>
    cases pc with
    | spSeed n =>
      have hdraws := h.seed n rfl
      by_cases hn : Naive n σ
      · exact drawn_of_access (access_spSeed_naive hn) (access_spSeed_naive (hdraws.1.mp hn))
          (drawn_of_not_sprays rfl)
      · exact drawn_of_access (access_spSeed_spray hn) (access_spSeed_spray (mt hdraws.1.mpr hn))
          (drawn_of_due (hdraws.2 hn) rfl)
    | spDraw w =>
      obtain ⟨hlen, hrest⟩ := h.levels w.n (w.i + 1) rfl
      have hτ : access any ⟨s, τ, .spDraw w⟩ = ⟨s, nextSeed τ, w.scan (nextSeed σ % (SCANMAX w.n + 1))⟩ := by
        rw [access_spDraw, hlen]
      exact drawn_of_access access_spDraw hτ (drawn_of_due hrest due_scan)
    | _ => cases hd

/-- A call draws nothing else. -/
theorem drawn_start {op : Op} (h : ∀ n, op = .spray_delete_min n → SameDraws n σ τ) :
    Drawn σ τ (start op) := by
  cases op with
  | spray_delete_min n =>
    refine ⟨fun k he => ?_, fun _ _ he => by cases he⟩
    cases he
    exact h n rfl
  | _ => exact drawn_of_not_sprays rfl

/-- **The same executions**: what is reached with one seed is reached with the other, but for the seed. -/
theorem Drawn.run {c : Config} (h : Drawn σ τ pc) (hrun : ReflTransGen Next ⟨s, σ, pc⟩ c) :
    ∃ τ', ReflTransGen Next ⟨s, τ, pc⟩ ⟨c.sh, τ', c.pc⟩ ∧ Drawn c.seed τ' c.pc := by
  induction hrun with
  | refl => exact ⟨τ, .refl, h⟩
  | @tail c c' _ hstep ih =>
    obtain ⟨τ', hrun', hdrawn⟩ := ih
    obtain ⟨hbusy, any, rfl⟩ := hstep
    obtain ⟨τ'', haccess, hdrawn'⟩ := access_drawn any c.sh hdrawn
    exact ⟨τ'', hrun'.tail ⟨hbusy, any, haccess.symm⟩, hdrawn'⟩

end Drawn

end ConcurrentPQ.Spray

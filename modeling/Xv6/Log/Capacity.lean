import Xv6.Log.Crash
import Xv6.Log.Reservation

namespace Xv6.Log

open Lib.Transition

variable {P : Type} [DecidableEq P]

/-- Every operation passes at most `MAXOPBLOCKS` different blocks to `log_write`. -/
def logsAtMost (s : State P) : Act P → Bool
  | .logCheck p b _ | .logStore p b | .logWrite p b _ =>
    (s.pc p).op?.all fun op => b ∈ op.blocks || op.blocks.length < MAXOPBLOCKS
  | _ => true

/-- The different blocks logged since the last commit, read off the calls made. -/
def logged : List (Act P) → List Nat
  | [] => []
  | .logStore _ b :: τ => logBlock (logged τ) b
  | .logWrite _ b _ :: τ => logBlock (logged τ) b
  | .endCommit _ :: _ => []
  | _ :: τ => logged τ

/-- Each call of `log_write` in the run, and each block it appended, found fewer than
`LOGSIZE - 1` blocks in the transaction. -/
def roomy : List (Act P) → Bool
  | [] => true
  | .logCheck _ _ _ :: τ => (logged τ).length < LOGSIZE - 1 && roomy τ
  | .logStore _ b :: τ => (b ∈ logged τ || (logged τ).length < LOGSIZE - 1) && roomy τ
  | .logWrite _ _ _ :: τ => (logged τ).length < LOGSIZE - 1 && roomy τ
  | _ :: τ => roomy τ

section Logged

variable [Fintype P] {lg : LogArea} {s : State P} {τ : List (Act P)} {ok : State P → Act P → Prop}

def Cleared (s : State P) : Prop := ∃ p, s.pc p = .commit .clearHead ∨ s.pc p = .finish

omit [DecidableEq P] [Fintype P] in
theorem Cleared.inCommit (h : Cleared s) : ∃ p, (s.pc p).inCommit = 1 := by
  obtain ⟨p, hp | hp⟩ := h <;> exact ⟨p, by rw [hp]; rfl⟩

omit [Fintype P] in
theorem Cleared.setPc {s' : State P} {p : P} {c : Pc} (h : Cleared s) (hp : (s.pc p).inCommit = 0)
    (hpc : s'.pc = Function.update s.pc p c) : Cleared s' := by
  obtain ⟨q, hq⟩ := h
  have hne : q ≠ p := by
    rintro rfl
    obtain hq | hq := hq <;> rw [hq] at hp <;> cases hp
  refine ⟨q, ?_⟩
  rwa [hpc, Function.update_of_ne hne]

theorem Cleared.commitStep {p : P} {c : CommitPc} (h : Cleared s) (hcnt : Counts s)
    (hp : s.pc p = .commit c) : Cleared (commitStep lg s p c) := by
  obtain ⟨q, hq⟩ := h
  have hqp : q = p := by
    by_contra hne
    have h0 := hcnt.only_committer (p := p) (by rw [hp]; rfl) hne
    obtain hq | hq := hq <;> rw [hq] at h0 <;> cases h0
  subst hqp
  obtain hq | hq := hq <;> rw [hq] at hp <;> cases hp
  exact ⟨q, Or.inr (by rw [commitStep_pc, Function.update_self]; rfl)⟩

theorem lh_eq_logged (h : Run (machine P lg) ok τ s) :
    s.lh = logged τ ∨ s.lh = [] ∧ Cleared s := by
  have hboth : Inv s ∧ (s.lh = logged τ ∨ s.lh = [] ∧ Cleared s) := by
    refine h.induct (I := fun τ s => Inv s ∧ (s.lh = logged τ ∨ s.lh = [] ∧ Cleared s))
      (fun s (hi : Init s) => ⟨.init hi, Or.inl hi.2.2.1⟩) ?_
    rintro τ s a s' ⟨hinv, ih⟩ - hn
    have hs := step_of_next hn
    refine ⟨hinv.step hs, ?_⟩
    have hop : ∀ {p op}, (s.pc p).op? = some op → s.lh = logged τ := fun hp => by
      refine ih.resolve_right fun hc => ?_
      obtain ⟨q, hq⟩ := hc.2.inCommit
      rw [hinv.counts.no_op hq] at hp
      cases hp
    cases hs with
    | callBegin hp | sleep hp | spurious hp | start hp =>
      exact ih.imp_right fun hc => ⟨hc.1, hc.2.setPc (by rw [hp]; rfl) rfl⟩
    | logCheck hp | endLast hp | endOther hp => exact Or.inl (hop (by rw [hp]; rfl))
    | @logStore p op b v hp | @logWrite p op b v hp =>
      exact Or.inl (congrArg (logBlock · b) (hop (by rw [hp]; rfl)))
    | @commit p c hp =>
      obtain hl | ⟨hl, hc⟩ := ih
      · cases c with
        | installTrans tail =>
          cases htail : s.lh[tail]? with
          | some b => exact Or.inl (by simpa [commitStep, htail, logged] using hl)
          | none =>
            refine Or.inr ⟨by simp [commitStep, htail], p, Or.inl ?_⟩
            simp [commitStep, htail]
        | writeLog tail =>
          cases htail : s.lh[tail]? <;> exact Or.inl (by simpa [commitStep, htail, logged] using hl)
        | start | writeHead | clearHead => exact Or.inl hl
      · refine Or.inr ⟨?_, hc.commitStep hinv.counts hp⟩
        obtain hl' | hl' := commitStep_lh lg s p c
        · exact hl'.trans hl
        · exact hl'
    | @endCommit p hp => exact Or.inl (hinv.tidy.cleared p (Or.inr hp))
  exact hboth.2

theorem lh_eq_logged_of_op (h : Run (machine P lg) ok τ s) {p : P} {op : Op}
    (hp : (s.pc p).op? = some op) : s.lh = logged τ := by
  refine (lh_eq_logged h).resolve_right fun hc => ?_
  obtain ⟨q, hq⟩ := hc.2.inCommit
  rw [(Inv.of_reachable ⟨τ, h⟩).counts.no_op hq] at hp
  cases hp

theorem lh_eq_logged_of_commit (h : Run (machine P lg) ok τ s) {p : P} {c : CommitPc}
    (hp : s.pc p = .commit c) (hc : c ≠ .clearHead) : s.lh = logged τ := by
  refine (lh_eq_logged h).resolve_right fun hcl => ?_
  obtain ⟨q, hq⟩ := hcl.2
  have hqp : q = p := by
    by_contra hne
    have h0 := (Inv.of_reachable ⟨τ, h⟩).counts.only_committer (p := p) (by rw [hp]; rfl) hne
    obtain hq | hq := hq <;> rw [hq] at h0 <;> cases h0
  subst hqp
  obtain hq | hq := hq <;> rw [hq] at hp <;> cases hp
  exact hc rfl

omit [DecidableEq P] [Fintype P] in
theorem length_logged_le (hr : roomy τ) : (logged τ).length ≤ LOGSIZE - 1 := by
  have hstore : ∀ (l : List Nat) (b : Nat), l.length ≤ LOGSIZE - 1 →
      (b ∈ l ∨ l.length < LOGSIZE - 1) → (logBlock l b).length ≤ LOGSIZE - 1 := by
    intro l b hl hb
    unfold logBlock
    split
    · exact hl
    · next hmem =>
      have hlt := hb.resolve_left hmem
      simp only [List.length_append, List.length_singleton]
      omega
  induction τ with
  | nil => simp [logged]
  | cons a τ ih =>
    cases a with
    | logStore p b =>
      simp only [roomy, Bool.and_eq_true, Bool.or_eq_true, decide_eq_true_eq] at hr
      exact hstore _ _ (ih hr.2) hr.1
    | logWrite p b v =>
      simp only [roomy, Bool.and_eq_true, decide_eq_true_eq] at hr
      exact hstore _ _ (ih hr.2) (Or.inr hr.1)
    | logCheck p b v =>
      simp only [roomy, Bool.and_eq_true] at hr
      exact ih hr.2
    | endCommit p => exact Nat.zero_le _
    | callBegin p | beginOp p | spurious p | endOp p | commit p => exact ih hr

omit [DecidableEq P] [Fintype P] in
theorem logCheck_tooBig_iff (s : State P) :
    logCheck mkfsLogArea s = some .tooBig ↔ LOGSIZE - 1 ≤ s.lh.length := by
  have hiff : (LOGSIZE ≤ s.lh.length ∨ (mkfsLogArea.size : Int) - 1 ≤ s.lh.length) ↔
      LOGSIZE - 1 ≤ s.lh.length := by
    simp only [mkfsLogArea, LOGSIZE, MAXOPBLOCKS]
    omega
  rw [← hiff, logCheck]
  split
  · next hfull => exact iff_of_true rfl hfull
  · next hfull => split <;> exact iff_of_false (by simp) hfull

/-- A call of `log_write` by an operation panics exactly when the operations of the
transaction have already logged `LOGSIZE - 1` different blocks; as long as no call
came then, every logged block has its place inside the log area. -/
theorem log_capacity (h : Run (machine P mkfsLogArea) (logsAtMost · ·) τ s) (hr : roomy τ) :
    (∀ p op b v, s.pc p = .active op →
      (next mkfsLogArea s (.logCheck p b v) = .panic .tooBig ↔ LOGSIZE - 1 ≤ (logged τ).length) ∧
      (next mkfsLogArea s (.logWrite p b v) = .panic .tooBig ↔
        LOGSIZE - 1 ≤ (logged τ).length)) ∧
      ∀ i < s.lh.length, mkfsLogArea.Contains (mkfsLogArea.start + i + 1) := by
  constructor
  · intro p op b v hp
    have hl := lh_eq_logged_of_op h (congrArg Pc.op? hp : (s.pc p).op? = some op)
    rw [← hl, ← logCheck_tooBig_iff]
    simp only [next, hp]
    constructor <;> split <;> simp_all
  · intro i hi
    have hlen := length_logged_le hr
    have hle : s.lh.length ≤ LOGSIZE - 1 := by
      obtain hl | ⟨hl, -⟩ := lh_eq_logged h
      · rw [hl]
        exact hlen
      · simp [hl]
    apply mkfsLogArea.contains_data
    change i + 1 < LOGSIZE
    simp only [LOGSIZE, MAXOPBLOCKS] at *
    omega

end Logged

def logBlocks (p : Fin 3) (b n : Nat) : List (Act (Fin 3)) :=
  (List.range n).map fun i => Act.logWrite p (b + i) fun _ => 0

def threeOps (n₀ n₁ n₂ : Nat) : List (Act (Fin 3)) :=
  [.callBegin 0, .beginOp 0, .callBegin 1, .beginOp 1, .callBegin 2, .beginOp 2] ++
    (logBlocks 0 100 n₀ ++ logBlocks 1 110 n₁ ++ logBlocks 2 120 n₂)

def capacityRun (as : List (Act (Fin 3))) : Option (State (Fin 3)) :=
  perform (machine (Fin 3) mkfsLogArea) logsAtMost (State.boot (Fin 3) fun _ _ => 0) as

theorem run_of_capacityRun {as : List (Act (Fin 3))} {s : State (Fin 3)}
    (h : capacityRun as = some s) :
    Run (machine (Fin 3) mkfsLogArea) (logsAtMost · ·) as.reverse s := by
  have hr := (Run.start (M := machine (Fin 3) mkfsLogArea) (init_boot fun _ _ => 0)).perform h
  rwa [List.append_nil] at hr

def Pc.isActive (j : Pc) : Bool :=
  match j with
  | .active _ => true
  | _ => false

theorem Pc.isActive_iff {j : Pc} : j.isActive = true ↔ ∃ op, j = .active op := by
  cases j <;> simp [Pc.isActive]

theorem log_capacity_last_block :
    ∃ s, Run (machine (Fin 3) mkfsLogArea) (logsAtMost · ·) (threeOps 10 10 8).reverse s ∧
      next mkfsLogArea s (.logWrite 2 128 fun _ => 0) ≠ .panic .tooBig := by
  have h : (capacityRun (threeOps 10 10 8)).any fun s => (s.pc 2).isActive := by decide +kernel
  obtain ⟨s, hs, hp⟩ := (Option.any_eq_true _ _).mp h
  obtain ⟨op, hop⟩ := Pc.isActive_iff.mp hp
  have hrun := run_of_capacityRun hs
  refine ⟨s, hrun, fun hpanic => ?_⟩
  have hiff := ((log_capacity hrun (by decide +kernel)).1 2 op 128 (fun _ => 0) hop).2
  exact absurd (hiff.mp hpanic) (by decide +kernel)

/-- Ten blocks for each of three operations are admitted, but the thirtieth is refused; and two
calls that make their check at the same moment leave thirty blocks in a log that has room for
twenty-nine. The last one's place is behind the log area. `commit` does not get as far as to write
there: the thirty blocks pin all `NBUF` buffers and its first `bread` panics in `bget`. -/
theorem log_overflow :
    (∃ s, Reachable (machine (Fin 3) mkfsLogArea) (logsAtMost · ·) s ∧
      logsAtMost s (.logWrite 2 129 fun _ => 0) ∧
      next mkfsLogArea s (.logWrite 2 129 fun _ => 0) = .panic .tooBig) ∧
    ∃ s, Reachable (machine (Fin 3) mkfsLogArea) (logsAtMost · ·) s ∧
      ∃ i < s.lh.length, ¬ mkfsLogArea.Contains (mkfsLogArea.start + i + 1) := by
  constructor
  · have h : (capacityRun (threeOps 10 10 9)).any fun s =>
        logsAtMost s (.logWrite 2 129 fun _ => 0) &&
          (next mkfsLogArea s (.logWrite 2 129 fun _ => 0)).panics .tooBig := by decide +kernel
    obtain ⟨s, hs, hp⟩ := (Option.any_eq_true _ _).mp h
    rw [Bool.and_eq_true, Outcome.panics_iff] at hp
    exact ⟨s, ⟨_, run_of_capacityRun hs⟩, hp⟩
  · have h : (capacityRun (threeOps 10 9 9 ++
        [.logCheck 1 119 fun _ => 0, .logCheck 2 129 fun _ => 0, .logStore 1 119,
          .logStore 2 129])).any fun s => decide (29 < s.lh.length) := by decide +kernel
    obtain ⟨s, hs, hlen⟩ := (Option.any_eq_true _ _).mp h
    exact ⟨s, ⟨_, run_of_capacityRun hs⟩, 29, of_decide_eq_true hlen, by decide⟩

end Xv6.Log

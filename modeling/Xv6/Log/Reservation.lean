import Xv6.Log.Machine

namespace Xv6.Log

open Lib.Transition

namespace Pc

def op? : Pc → Option Op
  | .active op => some op
  | .logging op _ _ => some op
  | _ => none

def inOp (c : Pc) : Nat := if c.op?.isSome then 1 else 0

def inCommit : Pc → Nat
  | .commit _ => 1
  | .finish => 1
  | _ => 0

/-- The log blocks still set aside for the operation of a process. -/
def reserved (c : Pc) : Nat :=
  match c.op? with
  | some op => MAXOPBLOCKS - op.added
  | none => 0

@[simp] theorem op?_wakeup (c : Pc) : c.wakeup.op? = c.op? := by cases c <;> rfl

@[simp] theorem wakeup_wakeup (c : Pc) : c.wakeup.wakeup = c.wakeup := by cases c <;> rfl

@[simp] theorem inOp_wakeup (c : Pc) : c.wakeup.inOp = c.inOp := by simp [inOp]

@[simp] theorem inCommit_wakeup (c : Pc) : c.wakeup.inCommit = c.inCommit := by cases c <;> rfl

@[simp] theorem reserved_wakeup (c : Pc) : c.wakeup.reserved = c.reserved := by simp [reserved]

end Pc

def commitNext (lh : List Nat) : CommitPc → Pc
  | .start => if 0 < lh.length then .commit (.writeLog 0) else .finish
  | .writeLog tail =>
    match lh[tail]? with
    | some _ => .commit (.writeLog (tail + 1))
    | none => .commit .writeHead
  | .writeHead => .commit (.installTrans 0)
  | .installTrans tail =>
    match lh[tail]? with
    | some _ => .commit (.installTrans (tail + 1))
    | none => .commit .clearHead
  | .clearHead => .finish

variable {P : Type} [DecidableEq P] {lg : LogArea} {s s' : State P} {p : P}

theorem commitStep_pc (lg : LogArea) (s : State P) (p : P) (c : CommitPc) :
    (commitStep lg s p c).pc = Function.update s.pc p (commitNext s.lh c) := by
  cases c with
  | start | writeHead | clearHead => rfl
  | writeLog tail | installTrans tail =>
    cases h : s.lh[tail]? <;> simp [commitStep, commitNext, h, State.setPc]

theorem commitStep_outstanding (c : CommitPc) :
    (commitStep lg s p c).outstanding = s.outstanding := by
  cases c <;> simp only [commitStep] <;> (try split) <;> rfl

theorem commitStep_committing (c : CommitPc) :
    (commitStep lg s p c).committing = s.committing := by
  cases c <;> simp only [commitStep] <;> (try split) <;> rfl

theorem commitStep_lh (lg : LogArea) (s : State P) (p : P) (c : CommitPc) :
    (commitStep lg s p c).lh = s.lh ∨ (commitStep lg s p c).lh = [] := by
  cases c <;> simp only [commitStep] <;> (try split) <;> simp [State.setPc]

theorem commitStep_cleared {c : CommitPc}
    (h : s.pc p = .commit .clearHead ∨ s.pc p = .finish → s.lh = []) (hp : s.pc p = .commit c)
    (hc : commitNext s.lh c = .commit .clearHead ∨ commitNext s.lh c = .finish) :
    (commitStep lg s p c).lh = [] := by
  cases c with
  | start =>
    by_cases hl : 0 < s.lh.length
    · simp [commitNext, hl] at hc
    · exact List.length_eq_zero_iff.mp (Nat.eq_zero_of_not_pos hl)
  | writeLog tail => cases hl : s.lh[tail]? <;> simp [commitNext, hl] at hc
  | writeHead => simp [commitNext] at hc
  | installTrans tail =>
    cases hl : s.lh[tail]? with
    | none => simp [commitStep, hl]
    | some b => simp [commitNext, hl] at hc
  | clearHead => exact h (Or.inl hp)

@[simp] theorem op?_commitNext (lh : List Nat) (c : CommitPc) : (commitNext lh c).op? = none := by
  cases c <;> simp only [commitNext] <;> (try split) <;> rfl

@[simp] theorem inOp_commitNext (lh : List Nat) (c : CommitPc) : (commitNext lh c).inOp = 0 := by
  simp [Pc.inOp]

@[simp] theorem inCommit_commitNext (lh : List Nat) (c : CommitPc) :
    (commitNext lh c).inCommit = 1 := by
  cases c <;> simp only [commitNext] <;> (try split) <;> rfl

structure Tidy (s : State P) : Prop where
  nodup : s.lh.Nodup
  quiet : s.outstanding = 0 → s.committing = false → s.lh = []
  cleared : ∀ p, s.pc p = .commit .clearHead ∨ s.pc p = .finish → s.lh = []
  asleep : ∀ p, s.pc p = .asleep → MustWait s

theorem nodup_logBlock {lh : List Nat} (h : lh.Nodup) (b : Nat) : (logBlock lh b).Nodup := by
  unfold logBlock
  split
  · exact h
  · next hb => exact List.nodup_append.mpr ⟨h, List.nodup_singleton b, by simp; grind⟩

theorem length_le_logBlock (lh : List Nat) (b : Nat) : lh.length ≤ (logBlock lh b).length := by
  unfold logBlock
  split <;> simp

omit [DecidableEq P] in
theorem MustWait.mono (hw : MustWait s) (hc : s.committing = true → s'.committing = true)
    (hl : s.lh.length ≤ s'.lh.length) (ho : s.outstanding ≤ s'.outstanding) : MustWait s' := by
  rcases hw with hw | hw
  · exact Or.inl (hc hw)
  · refine Or.inr ?_
    simp only [MAXOPBLOCKS, LOGSIZE] at *
    omega

def total [Fintype P] (g : Pc → Nat) (pc : P → Pc) : Nat := ∑ p, g (pc p)

section Counts

variable [Fintype P]

theorem total_update (g : Pc → Nat) (pc : P → Pc) (p : P) (c : Pc) :
    total g (Function.update pc p c) + g (pc p) = total g pc + g c := sum_update pc g p c

omit [DecidableEq P] in
theorem le_total (g : Pc → Nat) (pc : P → Pc) (p : P) : g (pc p) ≤ total g pc := le_sum pc g p

omit [DecidableEq P] in
theorem total_wakeup {g : Pc → Nat} (hg : ∀ c : Pc, g c.wakeup = g c) (s : State P) :
    total g s.wakeup.pc = total g s.pc := Finset.sum_congr rfl fun p _ => hg (s.pc p)

structure Counts (s : State P) : Prop where
  outstanding : s.outstanding = (total Pc.inOp s.pc : Int)
  committing : total Pc.inCommit s.pc = if s.committing then 1 else 0
  exclusive : s.committing = true → s.outstanding = 0

omit [DecidableEq P] in
theorem Counts.init (h : Init s) : Counts s := by
  obtain ⟨ho, hc, -, hp, -⟩ := h
  refine ⟨?_, ?_, ?_⟩
  · simp [ho, total, hp, Pc.inOp, Pc.op?]
  · simp [hc, total, hp, Pc.inCommit]
  · simp [hc]

omit [DecidableEq P] in
theorem Counts.committer (h : Counts s) (hp : (s.pc p).inCommit = 1) : s.committing = true := by
  have hle := le_total Pc.inCommit s.pc p
  have hc := h.committing
  by_contra hn
  rw [if_neg hn] at hc
  omega

omit [DecidableEq P] in
theorem Counts.op (h : Counts s) {op : Op} (hp : (s.pc p).op? = some op) :
    s.committing = false ∧ 1 ≤ s.outstanding := by
  have hle := le_total Pc.inOp s.pc p
  have hone : (s.pc p).inOp = 1 := by simp [Pc.inOp, hp]
  have ho := h.outstanding
  have hpos : 1 ≤ s.outstanding := by omega
  refine ⟨?_, hpos⟩
  cases hc : s.committing with
  | false => rfl
  | true => have := h.exclusive hc; omega

omit [DecidableEq P] in
theorem Counts.no_op (h : Counts s) (hp : (s.pc p).inCommit = 1) (q : P) : (s.pc q).op? = none := by
  cases hq : (s.pc q).op? with
  | none => rfl
  | some op =>
    have hc := h.committer hp
    rw [(h.op hq).1] at hc
    cases hc

omit [DecidableEq P] in
theorem Counts.no_committer (h : Counts s) (hc : s.committing = false) (q : P) :
    (s.pc q).inCommit = 0 := by
  have h0 := h.committing
  have hle := le_total Pc.inCommit s.pc q
  rw [hc] at h0
  simp only [Bool.false_eq_true, if_false] at h0
  omega

omit [DecidableEq P] in
theorem Counts.exists_committer (h : Counts s) (hc : s.committing = true) :
    ∃ p, (s.pc p).inCommit = 1 := by
  have h1 := h.committing
  rw [hc, if_pos rfl] at h1
  obtain ⟨p, -, hp⟩ := Finset.exists_ne_zero_of_sum_ne_zero (h1.trans_ne one_ne_zero)
  refine ⟨p, ?_⟩
  cases hpc : s.pc p <;> simp [hpc, Pc.inCommit] at hp ⊢

theorem Counts.only_committer (h : Counts s) {q : P} (hp : (s.pc p).inCommit = 1) (hq : q ≠ p) :
    (s.pc q).inCommit = 0 := by
  have hu := total_update Pc.inCommit s.pc p .idle
  have hle := le_total Pc.inCommit (Function.update s.pc p .idle) q
  have h1 := h.committing
  rw [h.committer hp] at h1
  rw [Function.update_of_ne hq] at hle
  simp only [if_true, show Pc.idle.inCommit = 0 from rfl] at h1 hu
  omega

omit [DecidableEq P] in
theorem Counts.move (h : Counts s) {p : P} {c : Pc}
    (hop : total Pc.inOp s'.pc + (s.pc p).inOp = total Pc.inOp s.pc + c.inOp)
    (hcommit : total Pc.inCommit s'.pc + (s.pc p).inCommit = total Pc.inCommit s.pc + c.inCommit)
    (ho : s'.outstanding + (s.pc p).inOp = s.outstanding + c.inOp)
    (hc : (if s'.committing then 1 else 0) + (s.pc p).inCommit =
      (if s.committing then 1 else 0) + c.inCommit)
    (hx : s'.committing = true → s'.outstanding = 0) : Counts s' := by
  have h1 := h.outstanding
  have h2 := h.committing
  exact ⟨by omega, by omega, hx⟩

theorem total_wakeup_update {g : Pc → Nat} (hg : ∀ c : Pc, g c.wakeup = g c) (s : State P) (p : P)
    (c : Pc) : total g (Function.update s.wakeup.pc p c) + g (s.pc p) = total g s.pc + g c := by
  have h := total_update g s.wakeup.pc p c
  rwa [total_wakeup hg, show g (s.wakeup.pc p) = g (s.pc p) from hg _] at h

theorem Counts.step {a : Act P} (h : Counts s) (hs : Step lg s a s') : Counts s' := by
  cases hs with
  | callBegin hp | sleep hp _ | spurious hp | logCheck hp _ | logStore hp | logWrite hp _ =>
    exact h.move (total_update ..) (total_update ..) (by rw [hp]; rfl) (by rw [hp]; rfl) h.exclusive
  | start hp hw =>
    exact h.move (total_update ..) (total_update ..) (by rw [hp]; simp [Pc.inOp, Pc.op?])
      (by rw [hp]; rfl) (fun hc => absurd (Or.inl hc) hw)
  | endLast hp hc ho =>
    exact h.move (total_update ..) (total_update ..) (by rw [hp, ho]; rfl)
      (by rw [hp, hc]; rfl) (fun _ => rfl)
  | endOther hp hc ho =>
    refine h.move (total_wakeup_update Pc.inOp_wakeup _ _ _)
      (total_wakeup_update Pc.inCommit_wakeup _ _ _) ?_ (by rw [hp]; rfl) ?_
    · rw [hp]
      simp [State.wakeup, Pc.inOp, Pc.op?]
    · intro hc'
      exact absurd hc' (by simp [State.wakeup, hc])
  | @commit p c hp =>
    refine h.move (p := p) (c := commitNext s.lh c) ?_ ?_ ?_ ?_ ?_
    · rw [commitStep_pc]
      exact total_update ..
    · rw [commitStep_pc]
      exact total_update ..
    · rw [commitStep_outstanding, hp, inOp_commitNext]
      rfl
    · rw [commitStep_committing, hp, inCommit_commitNext]
      rfl
    · rw [commitStep_committing, commitStep_outstanding]
      exact h.exclusive
  | endCommit hp =>
    have hc := h.committer (by rw [hp]; rfl)
    refine h.move (total_wakeup_update Pc.inOp_wakeup _ _ _)
      (total_wakeup_update Pc.inCommit_wakeup _ _ _) (by rw [hp]; rfl) ?_ ?_
    · rw [hp, hc]
      rfl
    · intro hc'
      exact absurd hc' (by simp [State.wakeup])

/-- Every operation adds at most `MAXOPBLOCKS` blocks to the header. -/
def addsAtMost (s : State P) : Act P → Bool
  | .logStore p b | .logWrite p b _ =>
    (s.pc p).op?.all fun op => b ∈ s.lh || op.added < MAXOPBLOCKS
  | _ => true

/-- The blocks in the header and those still set aside fit into the log. -/
structure Room (s : State P) : Prop where
  room : s.lh.length + total Pc.reserved s.pc ≤ LOGSIZE
  added : ∀ p op, (s.pc p).op? = some op → op.added ≤ MAXOPBLOCKS

omit [DecidableEq P] in
theorem total_reserved_le (pc : P → Pc) :
    total Pc.reserved pc ≤ MAXOPBLOCKS * total Pc.inOp pc := by
  rw [total, total, Finset.mul_sum]
  refine Finset.sum_le_sum fun p _ => ?_
  unfold Pc.reserved Pc.inOp
  split
  · next h => simp [h]
  · simp

omit [DecidableEq P] in
theorem Room.init (h : Init s) : Room s := by
  obtain ⟨-, -, hl, hp, -⟩ := h
  refine ⟨by simp [hl, total, hp, Pc.reserved, Pc.op?], fun p op ho => ?_⟩
  rw [hp] at ho
  cases ho

theorem Room.move (h : Room s) {p : P} {c : Pc} (hl : s'.lh.length + c.reserved ≤
      s.lh.length + (s.pc p).reserved)
    (hpc : total Pc.reserved s'.pc + (s.pc p).reserved = total Pc.reserved s.pc + c.reserved)
    (hop : ∀ q, (s'.pc q).op? = (Function.update s.pc p c q).op?)
    (hc : ∀ op, c.op? = some op → op.added ≤ MAXOPBLOCKS) : Room s' := by
  have h1 := h.room
  refine ⟨by omega, fun q op hq => ?_⟩
  rw [hop] at hq
  by_cases hqp : q = p
  · subst hqp
    rw [Function.update_self] at hq
    exact hc op hq
  · rw [Function.update_of_ne hqp] at hq
    exact h.added q op hq

theorem Room.logStore (h : Room s) {op : Op} {b : Nat} {v : Block} (hp : (s.pc p).op? = some op)
    (hok : addsAtMost s (.logStore p b)) : Room (logStore s p op b v) := by
  have hok : b ∈ s.lh ∨ op.added < MAXOPBLOCKS := by simpa [addsAtMost, hp] using hok
  have hadd := h.added p op hp
  have hr : (s.pc p).reserved = MAXOPBLOCKS - op.added := by simp [Pc.reserved, hp]
  have hr' : (Pc.active (op.log s.lh b)).reserved =
      MAXOPBLOCKS - if b ∈ s.lh then op.added else op.added + 1 := rfl
  refine h.move (c := .active (op.log s.lh b)) ?_ (total_update ..) (fun _ => rfl) ?_
  · rw [hr, hr']
    by_cases hb : b ∈ s.lh
    · simp [Log.logStore, logBlock, hb]
    · have hlt := hok.resolve_left hb
      simp only [Log.logStore, logBlock, hb, if_false, State.setPc_lh, List.length_append,
        List.length_singleton]
      omega
  · rintro _ ⟨⟩
    by_cases hb : b ∈ s.lh
    · simpa [Op.log, hb] using hadd
    · have hlt := hok.resolve_left hb
      simp only [Op.log, hb, if_false]
      omega

theorem Room.step {a : Act P} (h : Room s) (hcnt : Counts s) (hok : addsAtMost s a)
    (hs : Step lg s a s') : Room s' := by
  cases hs with
  | callBegin hp | sleep hp _ | spurious hp =>
    exact h.move (by rw [hp]; exact le_rfl) (total_update ..) (fun _ => rfl) (by rintro _ ⟨⟩)
  | @start p hp hw =>
    have hroom : (s.lh.length : Int) + (s.outstanding + 1) * MAXOPBLOCKS ≤ LOGSIZE :=
      not_lt.mp fun hf => hw (Or.inr hf)
    have hle := total_reserved_le s.pc
    have ho := hcnt.outstanding
    have hu := total_update Pc.reserved s.pc p (.active .new)
    have hnew : (Pc.active .new).reserved = MAXOPBLOCKS := rfl
    rw [hp, hnew, show Pc.begin.reserved = 0 from rfl] at hu
    refine ⟨?_, fun q op hq => ?_⟩
    · simp only [State.setPc_lh, State.setPc_pc]
      simp only [MAXOPBLOCKS, LOGSIZE] at *
      omega
    · by_cases hqp : q = p
      · subst hqp
        rw [State.setPc_pc, Function.update_self] at hq
        cases hq
        exact Nat.zero_le _
      · rw [State.setPc_pc, Function.update_of_ne hqp] at hq
        exact h.added q op hq
  | @logCheck p op b v hp _ =>
    refine h.move (by rw [hp]; exact le_rfl) (total_update ..) (fun _ => rfl) ?_
    rintro _ ⟨⟩
    exact h.added p op (by rw [hp]; rfl)
  | @logStore p op b v hp | @logWrite p op b v hp _ =>
    have hp' : (s.pc p).op? = some op := by rw [hp]; rfl
    exact h.logStore hp' hok
  | endLast hp hc ho =>
    exact h.move (by rw [hp]; exact Nat.le_add_right _ _) (total_update ..) (fun _ => rfl)
      (by rintro _ ⟨⟩)
  | @endOther p op hp hc ho =>
    refine h.move (p := p) (c := .idle) (by rw [hp]; exact Nat.le_add_right _ _)
      (total_wakeup_update Pc.reserved_wakeup _ _ _) (fun q => ?_) (by rintro _ ⟨⟩)
    by_cases hqp : q = p
    · subst hqp; simp
    · simp [hqp, State.wakeup]
  | @commit p c hp =>
    refine h.move (p := p) (c := commitNext s.lh c) ?_ ?_ (fun q => ?_) (by simp)
    · have hr : (commitNext s.lh c).reserved = 0 := by simp [Pc.reserved]
      rw [hp, hr]
      rcases commitStep_lh lg s p c with hl | hl <;> simp [hl]
    · rw [commitStep_pc]
      exact total_update ..
    · rw [commitStep_pc]
  | @endCommit p hp =>
    refine h.move (p := p) (c := .idle) (by rw [hp]; exact le_rfl)
      (total_wakeup_update Pc.reserved_wakeup _ _ _) (fun q => ?_) (by rintro _ ⟨⟩)
    by_cases hqp : q = p
    · subst hqp; simp
    · simp [hqp, State.wakeup]

omit [DecidableEq P] [Fintype P] in
theorem Tidy.init (h : Init s) : Tidy s := by
  obtain ⟨-, -, hl, hp, -⟩ := h
  refine ⟨by simp [hl], fun _ _ => hl, fun _ _ => hl, fun p ha => ?_⟩
  rw [hp] at ha
  cases ha

omit [Fintype P] in
theorem asleep_wakeup {q : P} {c : Pc} (hc : c ≠ .asleep) :
    Function.update s.wakeup.pc p c q ≠ .asleep := by
  by_cases hq : q = p
  · subst hq
    rwa [Function.update_self]
  · rw [Function.update_of_ne hq]
    cases h : s.pc q <;> simp [State.wakeup, h, Pc.wakeup]

theorem Tidy.keep (h : Tidy s) {c : Pc} (hpc : s'.pc = Function.update s.pc p c)
    (hca : c = .asleep → MustWait s') (hcc : c.inCommit = 0)
    (hl : s'.lh = s.lh ∨ (∃ b, s'.lh = logBlock s.lh b) ∧ total Pc.inCommit s.pc = 0)
    (hq : s'.outstanding = 0 → s'.committing = false → s'.lh = [])
    (hc : s.committing = true → s'.committing = true) (ho : s.outstanding ≤ s'.outstanding) :
    Tidy s' := by
  have hlen : s.lh.length ≤ s'.lh.length := by
    rcases hl with hl | ⟨⟨b, hl⟩, -⟩
    · rw [hl]
    · rw [hl]
      exact length_le_logBlock _ _
  refine ⟨?_, hq, fun q hq' => ?_, fun q hq' => ?_⟩
  · rcases hl with hl | ⟨⟨b, hl⟩, -⟩
    · rw [hl]
      exact h.nodup
    · rw [hl]
      exact nodup_logBlock h.nodup b
  · have hqc : (s'.pc q).inCommit = 1 := by rcases hq' with e | e <;> rw [e] <;> rfl
    rw [hpc] at hq' hqc
    by_cases hqp : q = p
    · subst hqp
      rw [Function.update_self] at hqc
      omega
    · rw [Function.update_of_ne hqp] at hq' hqc
      rcases hl with hl | ⟨-, hl⟩
      · rw [hl]
        exact h.cleared q hq'
      · have := le_total Pc.inCommit s.pc q
        omega
  · rw [hpc] at hq'
    by_cases hqp : q = p
    · subst hqp
      rw [Function.update_self] at hq'
      exact hca hq'
    · rw [Function.update_of_ne hqp] at hq'
      exact (h.asleep q hq').mono hc hlen ho

theorem Tidy.step {a : Act P} (h : Tidy s) (hcnt : Counts s) (hs : Step lg s a s') : Tidy s' := by
  have hnone : ∀ {p op}, (s.pc p).op? = some op → total Pc.inCommit s.pc = 0 := fun hp => by
    rw [hcnt.committing, (hcnt.op hp).1]
    rfl
  cases hs with
  | callBegin hp | spurious hp | logCheck hp _ =>
    exact h.keep rfl (by simp) rfl (Or.inl rfl) h.quiet id le_rfl
  | sleep hp hw => exact h.keep rfl (fun _ => hw) rfl (Or.inl rfl) h.quiet id le_rfl
  | start hp hw =>
    refine h.keep rfl (by simp) rfl (Or.inl rfl) (fun ho => ?_) id ?_
    · have := hcnt.outstanding
      simp only [State.setPc_outstanding] at ho
      omega
    · exact Int.le_add_one le_rfl
  | @logStore p op b v hp | @logWrite p op b v hp _ =>
    have hp' : (s.pc p).op? = some op := by rw [hp]; rfl
    refine h.keep rfl (by simp) rfl (Or.inr ⟨⟨b, rfl⟩, hnone hp'⟩) (fun ho => ?_) id le_rfl
    have hpos := (hcnt.op hp').2
    simp only [logStore, State.setPc_outstanding] at ho
    omega
  | @endLast p op hp hc ho =>
    refine ⟨h.nodup, by simp, fun q hq => ?_, fun _ _ => Or.inl rfl⟩
    by_cases hqp : q = p
    · subst hqp
      simp at hq
    · simp only [State.setPc_pc, Function.update_of_ne hqp] at hq
      exact h.cleared q hq
  | @endOther p op hp hc ho =>
    refine ⟨h.nodup, fun ho' => ?_, fun q hq => ?_, fun q hq => absurd hq (asleep_wakeup (by simp))⟩
    · simp only [State.setPc_outstanding, State.wakeup] at ho'
      omega
    · have hqc : (Function.update s.wakeup.pc p .idle q).inCommit = 1 := by
        rcases hq with e | e <;> exact congrArg Pc.inCommit e
      by_cases hqp : q = p
      · subst hqp
        rw [Function.update_self] at hqc
        cases hqc
      · rw [Function.update_of_ne hqp, State.wakeup, Pc.inCommit_wakeup] at hqc
        have h0 := hnone (congrArg Pc.op? hp : (s.pc p).op? = some op)
        have := le_total Pc.inCommit s.pc q
        omega
  | @commit p c hp =>
    have hcom : s.committing = true := hcnt.committer (p := p) (by rw [hp]; rfl)
    refine ⟨?_, fun _ hc => ?_, fun q hq => ?_, fun _ _ => Or.inl ?_⟩
    · rcases commitStep_lh lg s p c with hl | hl
      · rw [hl]
        exact h.nodup
      · rw [hl]
        exact List.nodup_nil
    · rw [commitStep_committing, hcom] at hc
      cases hc
    · by_cases hqp : q = p
      · subst hqp
        rw [commitStep_pc, Function.update_self] at hq
        exact commitStep_cleared (h.cleared q) hp hq
      · rw [commitStep_pc, Function.update_of_ne hqp] at hq
        have hl := h.cleared q hq
        rcases commitStep_lh lg s p c with hl' | hl'
        · rw [hl', hl]
        · exact hl'
    · rw [commitStep_committing]
      exact hcom
  | @endCommit p hp =>
    have hl := h.cleared p (Or.inr hp)
    exact ⟨h.nodup, fun _ _ => hl, fun _ _ => hl, fun q hq => absurd hq (asleep_wakeup (by simp))⟩

structure Inv (s : State P) : Prop where
  counts : Counts s
  tidy : Tidy s

omit [DecidableEq P] in
theorem Inv.init (h : Init s) : Inv s := ⟨.init h, .init h⟩

theorem Inv.step {a : Act P} (h : Inv s) (hs : Step lg s a s') : Inv s' :=
  ⟨h.counts.step hs, h.tidy.step h.counts hs⟩

omit [DecidableEq P] in
theorem Inv.of_control (h : Inv s) (ho : s'.outstanding = s.outstanding)
    (hc : s'.committing = s.committing) (hl : s'.lh = s.lh) (hp : s'.pc = s.pc) : Inv s' := by
  obtain ⟨⟨h₁, h₂, h₃⟩, ⟨h₄, h₅, h₆, h₇⟩⟩ := h
  have hw : MustWait s' ↔ MustWait s := by simp only [MustWait, ho, hc, hl]
  refine ⟨⟨?_, ?_, ?_⟩, ⟨?_, ?_, ?_, fun p hpc => ?_⟩⟩
  · rw [ho, hp, h₁]
  · rw [hc, hp, h₂]
  · rw [ho, hc]
    exact h₃
  · rw [hl]
    exact h₄
  · rw [ho, hc, hl]
    exact h₅
  · rw [hp, hl]
    exact h₆
  · rw [hp] at hpc
    exact hw.mpr (h₇ p hpc)

theorem Inv.of_reachable {ok : State P → Act P → Prop} (h : Reachable (machine P lg) ok s) : Inv s :=
  h.invariant (fun _ => Inv.init) (fun _ _ _ hi _ hn => hi.step (step_of_next hn))

theorem Room.of_reachable (h : Reachable (machine P lg) (addsAtMost · ·) s) : Room s := by
  have hboth : Inv s ∧ Room s := h.invariant (I := fun s => Inv s ∧ Room s)
    (fun _ hi => ⟨.init hi, .init hi⟩)
    (fun _ _ _ hi hok hn => ⟨hi.1.step (step_of_next hn),
      hi.2.step hi.1.counts hok (step_of_next hn)⟩)
  exact hboth.2

theorem endOp_no_panic (h : Inv s) (p : P) :
    next lg s (.endOp p) ≠ .panic .logCommitting := by
  simp only [next]
  split
  · next op hp =>
    have hc := (h.counts.op (congrArg Pc.op? hp : (s.pc p).op? = some op)).1
    unfold endOp
    rw [hc]
    split <;> (try split) <;> simp_all
  · simp

omit [DecidableEq P] in
theorem logStore_index_lt (h : Room s) {op : Op} {b : Nat} {v : Block}
    (hp : s.pc p = .logging op b v) (hok : addsAtMost s (.logStore p b)) :
    s.lh.idxOf b < LOGSIZE := by
  have hp' : (s.pc p).op? = some op := by rw [hp]; rfl
  have hle := le_total Pc.reserved s.pc p
  have hr : (s.pc p).reserved = MAXOPBLOCKS - op.added := by simp [Pc.reserved, hp']
  have hroom := h.room
  by_cases hb : b ∈ s.lh
  · have := List.idxOf_lt_length_of_mem hb
    omega
  · have hlt : op.added < MAXOPBLOCKS := by simpa [addsAtMost, hp', hb] using hok
    rw [List.idxOf_eq_length hb]
    omega

/-- The reservation invariant of the log. -/
theorem log_reservation (h : Reachable (machine P lg) (addsAtMost · ·) s) :
    s.lh.length + ∑ p, (s.pc p).reserved ≤ LOGSIZE ∧
      (∀ p op, (s.pc p).op? = some op → op.added ≤ MAXOPBLOCKS) ∧
      (∀ p op b v, s.pc p = .logging op b v → addsAtMost s (.logStore p b) →
        s.lh.idxOf b < LOGSIZE) ∧
      s.lh.Nodup ∧
      (s.committing = true → s.outstanding = 0) ∧
      (s.outstanding = 0 → s.committing = false → s.lh = []) ∧
      (∀ p, next lg s (.endOp p) ≠ .panic .logCommitting) ∧
      (∀ p, s.pc p = .asleep → MustWait s) := by
  have hroom := Room.of_reachable h
  have hinv := Inv.of_reachable h
  exact ⟨hroom.room, hroom.added, fun _ _ _ _ hp hok => logStore_index_lt hroom hp hok,
    hinv.tidy.nodup, hinv.counts.exclusive, hinv.tidy.quiet, endOp_no_panic hinv, hinv.tidy.asleep⟩

end Counts

/-- One of two processes has logged its first block, with nine more set aside for it. -/
theorem log_reservation_first_block :
    ∃ s, Reachable (machine (Fin 2) ⟨2, LOGSIZE, by decide⟩) (addsAtMost · ·) s ∧ s.lh = [40] ∧
      s.lh.length + ∑ p, (s.pc p).reserved ≤ LOGSIZE := by
  have h₀ : Init (State.boot (Fin 2) fun _ _ => 0) := init_boot _
  have h₁ := (Run.start h₀ : Run (machine (Fin 2) ⟨2, LOGSIZE, by decide⟩) (addsAtMost · ·) _ _)
  have h₂ := (h₁.step (a := .callBegin 0) rfl rfl).step (a := .beginOp 0) rfl rfl
  have h₃ := h₂.step (a := .logWrite 0 40 fun _ => 7) rfl rfl
  exact ⟨_, ⟨_, h₃⟩, rfl, (log_reservation ⟨_, h₃⟩).1⟩

end Xv6.Log

import Xv6.Lib.Transition
import Xv6.Log.Commit

namespace Xv6.Log

open Lib.Transition

/-- An operation between its `begin_op` and its `end_op`: the blocks it has
passed to `log_write`, without repetition, and how many of them it added to the header. -/
structure Op where
  blocks : List Nat
  added : Nat

def Op.new : Op := ⟨[], 0⟩

/-- How far a running `commit()` has come; each position but the last of a loop
is followed by one block write. -/
inductive CommitPc where
  | start
  | writeLog (tail : Nat)
  | writeHead
  | installTrans (tail : Nat)
  | clearHead

inductive Pc where
  | idle
  /-- In `begin_op`, about to take `log.lock`. -/
  | begin
  /-- In `begin_op`, sleeping on `&log`. -/
  | asleep
  | active (op : Op)
  /-- In `log_write`, past its checks and about to take `log.lock`. -/
  | logging (op : Op) (b : Nat) (v : Block)
  /-- In `end_op`, running `commit()`. -/
  | commit (c : CommitPc)
  /-- In `end_op`, about to take `log.lock` for the second time. -/
  | finish

/-- `struct log` without its constant part, the processes using it, the block
contents seen through the buffer cache, and the disk. -/
structure State (P : Type) where
  outstanding : Int
  committing : Bool
  lh : List Nat
  pc : P → Pc
  mem : Disk
  disk : Disk

inductive Panic where
  | logCommitting
  | tooBig
  | outsideTrans
  deriving DecidableEq

inductive Act (P : Type) where
  | callBegin (p : P)
  | beginOp (p : P)
  /-- `kill` may wake a sleeper without reason. -/
  | spurious (p : P)
  /-- The two halves of `log_write`: its checks, made without the lock, and its locked section. -/
  | logCheck (p : P) (b : Nat) (v : Block)
  | logStore (p : P) (b : Nat)
  /-- The whole of `log_write` in one step. -/
  | logWrite (p : P) (b : Nat) (v : Block)
  | endOp (p : P)
  | commit (p : P)
  | endCommit (p : P)

variable {P : Type} [DecidableEq P]

def State.setPc (s : State P) (p : P) (c : Pc) : State P := { s with pc := Function.update s.pc p c }

section Fields

variable (s : State P) (p : P) (c : Pc)

@[simp] theorem State.setPc_outstanding : (s.setPc p c).outstanding = s.outstanding := rfl

@[simp] theorem State.setPc_committing : (s.setPc p c).committing = s.committing := rfl

@[simp] theorem State.setPc_lh : (s.setPc p c).lh = s.lh := rfl

@[simp] theorem State.setPc_pc : (s.setPc p c).pc = Function.update s.pc p c := rfl

@[simp] theorem State.setPc_mem : (s.setPc p c).mem = s.mem := rfl

@[simp] theorem State.setPc_disk : (s.setPc p c).disk = s.disk := rfl

end Fields

/-- `wakeup(&log)`. -/
def Pc.wakeup : Pc → Pc
  | .asleep => .begin
  | c => c

def State.wakeup (s : State P) : State P := { s with pc := fun p => (s.pc p).wakeup }

/-- One pass of the loop of `begin_op`, under `log.lock`. -/
def beginOp (s : State P) (p : P) : State P :=
  if s.committing then s.setPc p .asleep
  else if (s.lh.length : Int) + (s.outstanding + 1) * MAXOPBLOCKS > LOGSIZE then s.setPc p .asleep
  else { s with outstanding := s.outstanding + 1 }.setPc p (.active .new)

/-- The checks `log_write` makes before taking the lock. -/
def logCheck (lg : LogArea) (s : State P) : Option Panic :=
  if LOGSIZE ≤ s.lh.length ∨ (lg.size : Int) - 1 ≤ s.lh.length then some .tooBig
  else if s.outstanding < 1 then some .outsideTrans
  else none

/-- The operation after it has logged block `b`. -/
def Op.log (op : Op) (lh : List Nat) (b : Nat) : Op where
  blocks := if b ∈ op.blocks then op.blocks else op.blocks ++ [b]
  added := if b ∈ lh then op.added else op.added + 1

/-- `lh.block` after the locked section of `log_write`: the block is absorbed or appended. -/
def logBlock (lh : List Nat) (b : Nat) : List Nat := if b ∈ lh then lh else lh ++ [b]

/-- The locked section of `log_write`, for a buffer of block `b` whose data is now `v`. -/
def logStore (s : State P) (p : P) (op : Op) (b : Nat) (v : Block) : State P :=
  { s with lh := logBlock s.lh b, mem := Function.update s.mem b v }.setPc p
    (.active (op.log s.lh b))

/-- The first locked section of `end_op`. -/
def endOp (s : State P) (p : P) : Outcome (State P) Panic :=
  if s.committing then .panic .logCommitting
  else if s.outstanding - 1 = 0 then
    .done ({ s with outstanding := s.outstanding - 1, committing := true }.setPc p (.commit .start))
  else .done ({ s with outstanding := s.outstanding - 1 }.wakeup.setPc p .idle)

/-- One step of `commit()`, which runs without the lock. -/
def commitStep (lg : LogArea) (s : State P) (p : P) : CommitPc → State P
  | .start => s.setPc p (if 0 < s.lh.length then .commit (.writeLog 0) else .finish)
  | .writeLog tail =>
    match s.lh[tail]? with
    | some b =>
      { s with disk := Function.update s.disk (lg.start + tail + 1) (s.mem b) }.setPc p
        (.commit (.writeLog (tail + 1)))
    | none => s.setPc p (.commit .writeHead)
  | .writeHead =>
    { s with disk := Function.update s.disk lg.start (putHead s.lh (s.disk lg.start)) }.setPc p
      (.commit (.installTrans 0))
  | .installTrans tail =>
    match s.lh[tail]? with
    | some b =>
      { s with
        mem := Function.update s.mem b (s.disk (lg.start + tail + 1))
        disk := Function.update s.disk b (s.disk (lg.start + tail + 1)) }.setPc p
        (.commit (.installTrans (tail + 1)))
    | none => { s with lh := [] }.setPc p (.commit .clearHead)
  | .clearHead =>
    { s with disk := Function.update s.disk lg.start (putHead s.lh (s.disk lg.start)) }.setPc p
      .finish

def next (lg : LogArea) (s : State P) : Act P → Outcome (State P) Panic
  | .callBegin p =>
    match s.pc p with
    | .idle => .done (s.setPc p .begin)
    | _ => .blocked
  | .beginOp p =>
    match s.pc p with
    | .begin => .done (beginOp s p)
    | _ => .blocked
  | .spurious p =>
    match s.pc p with
    | .asleep => .done (s.setPc p .begin)
    | _ => .blocked
  | .logCheck p b v =>
    match s.pc p with
    | .active op =>
      match logCheck lg s with
      | some e => .panic e
      | none => .done (s.setPc p (.logging op b v))
    | _ => .blocked
  | .logStore p b =>
    match s.pc p with
    | .logging op b' v => if b = b' then .done (logStore s p op b v) else .blocked
    | _ => .blocked
  | .logWrite p b v =>
    match s.pc p with
    | .active op =>
      match logCheck lg s with
      | some e => .panic e
      | none => .done (logStore s p op b v)
    | _ => .blocked
  | .endOp p =>
    match s.pc p with
    | .active _ => endOp s p
    | _ => .blocked
  | .commit p =>
    match s.pc p with
    | .commit c => .done (commitStep lg s p c)
    | _ => .blocked
  | .endCommit p =>
    match s.pc p with
    | .finish => .done ({ s with committing := false }.wakeup.setPc p .idle)
    | _ => .blocked

/-- After `initlog` on a disk without a pending transaction. -/
def Init (s : State P) : Prop :=
  s.outstanding = 0 ∧ s.committing = false ∧ s.lh = [] ∧ (∀ p, s.pc p = .idle) ∧ s.mem = s.disk

def State.boot (P : Type) (disk : Disk) : State P := ⟨0, false, [], fun _ => .idle, disk, disk⟩

omit [DecidableEq P] in
theorem init_boot (disk : Disk) : Init (State.boot P disk) := ⟨rfl, rfl, rfl, fun _ => rfl, rfl⟩

def machine (P : Type) [DecidableEq P] (lg : LogArea) : Machine (State P) (Act P) Panic :=
  ⟨Init, next lg⟩

/-- The test on which `begin_op` goes to sleep. -/
def MustWait (s : State P) : Prop :=
  s.committing = true ∨ (s.lh.length : Int) + (s.outstanding + 1) * MAXOPBLOCKS > LOGSIZE

inductive Step (lg : LogArea) (s : State P) : Act P → State P → Prop where
  | callBegin {p : P} (h : s.pc p = .idle) : Step lg s (.callBegin p) (s.setPc p .begin)
  | sleep {p : P} (h : s.pc p = .begin) (hw : MustWait s) :
      Step lg s (.beginOp p) (s.setPc p .asleep)
  | start {p : P} (h : s.pc p = .begin) (hw : ¬ MustWait s) :
      Step lg s (.beginOp p)
        ({ s with outstanding := s.outstanding + 1 }.setPc p (.active .new))
  | spurious {p : P} (h : s.pc p = .asleep) : Step lg s (.spurious p) (s.setPc p .begin)
  | logCheck {p : P} {op : Op} {b : Nat} {v : Block} (h : s.pc p = .active op)
      (hc : logCheck lg s = none) : Step lg s (.logCheck p b v) (s.setPc p (.logging op b v))
  | logStore {p : P} {op : Op} {b : Nat} {v : Block} (h : s.pc p = .logging op b v) :
      Step lg s (.logStore p b) (logStore s p op b v)
  | logWrite {p : P} {op : Op} {b : Nat} {v : Block} (h : s.pc p = .active op)
      (hc : Log.logCheck lg s = none) : Step lg s (.logWrite p b v) (Log.logStore s p op b v)
  | endLast {p : P} {op : Op} (h : s.pc p = .active op) (hc : s.committing = false)
      (ho : s.outstanding = 1) :
      Step lg s (.endOp p) ({ s with outstanding := 0, committing := true }.setPc p (.commit .start))
  | endOther {p : P} {op : Op} (h : s.pc p = .active op) (hc : s.committing = false)
      (ho : s.outstanding ≠ 1) :
      Step lg s (.endOp p) ({ s with outstanding := s.outstanding - 1 }.wakeup.setPc p .idle)
  | commit {p : P} {c : CommitPc} (h : s.pc p = .commit c) :
      Step lg s (.commit p) (commitStep lg s p c)
  | endCommit {p : P} (h : s.pc p = .finish) :
      Step lg s (.endCommit p) ({ s with committing := false }.wakeup.setPc p .idle)

theorem step_beginOp {lg : LogArea} {s : State P} {p : P} (h : s.pc p = .begin) :
    Step lg s (.beginOp p) (beginOp s p) := by
  unfold beginOp
  split
  · next hc => exact .sleep h (Or.inl hc)
  · next hc =>
    split
    · next hf => exact .sleep h (Or.inr hf)
    · next hf => exact .start h (fun hw => hw.elim hc hf)

theorem step_endOp {lg : LogArea} {s s' : State P} {p : P} {op : Op} (h : s.pc p = .active op)
    (hn : endOp s p = .done s') : Step lg s (.endOp p) s' := by
  unfold endOp at hn
  split at hn
  · cases hn
  · next hc =>
    have hc' : s.committing = false := by simpa using hc
    split at hn
    · next ho =>
      cases hn
      have ho' : s.outstanding = 1 := by omega
      rw [ho]
      exact .endLast h hc' ho'
    · next ho =>
      cases hn
      exact .endOther h hc' (by omega)

theorem step_of_next {lg : LogArea} {s s' : State P} {a : Act P} (h : next lg s a = .done s') :
    Step lg s a s' := by
  cases a with
  | callBegin p =>
    simp only [next] at h
    split at h <;> cases h
    next hp => exact .callBegin hp
  | beginOp p =>
    simp only [next] at h
    split at h <;> cases h
    next hp => exact step_beginOp hp
  | spurious p =>
    simp only [next] at h
    split at h <;> cases h
    next hp => exact .spurious hp
  | logCheck p b v =>
    simp only [next] at h
    split at h
    · next hp =>
      split at h <;> cases h
      next hc => exact .logCheck hp hc
    · cases h
  | logStore p b =>
    simp only [next] at h
    split at h
    · next hp =>
      split at h <;> cases h
      next hb => subst hb; exact .logStore hp
    · cases h
  | logWrite p b v =>
    simp only [next] at h
    split at h
    · next hp =>
      split at h <;> cases h
      next hc => exact .logWrite hp hc
    · cases h
  | endOp p =>
    simp only [next] at h
    split at h
    · next hp => exact step_endOp hp h
    · cases h
  | commit p =>
    simp only [next] at h
    split at h <;> cases h
    next hp => exact .commit hp
  | endCommit p =>
    simp only [next] at h
    split at h <;> cases h
    next hp => exact .endCommit hp

end Xv6.Log

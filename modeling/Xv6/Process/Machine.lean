import Xv6.Lib.Transition
import Xv6.Param

namespace Xv6.Process

open Lib.Transition

abbrev Slot := Fin NPROC

/-- The order in which the loops over `proc[]` visit the table. -/
def slots : List Slot := List.finRange NPROC

/-- `userinit` is the first to call `allocproc`. -/
def initproc : Slot := 0

inductive ProcState where
  | unused
  | sleeping
  | runnable
  | running
  | zombie
  deriving DecidableEq

inductive Chan where
  | proc (p : Slot)
  | other (n : Nat)
  deriving DecidableEq

/-- The fields of `struct proc` that `allocproc`, `fork`, `exit`, `wait`, `kill` and the
scheduler use. -/
structure Proc where
  state : ProcState
  parent : Option Slot
  chan : Option Chan
  killed : Bool
  xstate : Int32
  pid : Int32
  sz : Nat
  ofile : Fin NOFILE → Option (Fin NFILE)

def Proc.free : Proc := ⟨.unused, none, none, false, 0, 0, 0, fun _ => none⟩

/-- `freeproc`, which leaves `ofile` alone. -/
def Proc.freeproc (x : Proc) : Proc :=
  { x with
    state := .unused, parent := none, chan := none, killed := false, xstate := 0, pid := 0, sz := 0 }

inductive Job where
  | alloc
  | kill (pid : Int32)
  | wakeup (chan : Chan)

inductive Pc where
  | user
  /-- Spinning in `acquire` for the lock of slot `l`, to go on at `k`. -/
  | spin (l : Slot) (k : Pc)
  | visit (j : Job) (i : Slot) (todo : List Slot)
  | waitScan (addr : Nat) (havekids : Bool) (todo : List Slot)
  | waitFound (addr : Nat) (i : Slot) (todo : List Slot)
  /-- In `wait`, to return `ret`; `status` is what `copyout` has stored. -/
  | waitDone (ret : Int32) (status : Option Int32)
  | waitWoken (addr : Nat)
  | exitWake (status : Int32)
  | exitRead (status : Int32)
  /-- Spinning in `exit` for the lock of `original_parent`. -/
  | exitLock (status : Int32) (op : Slot)
  | reparent (status : Int32) (op : Slot) (todo : List Slot)
  | reparentFound (status : Int32) (op : Slot) (i : Slot) (todo : List Slot)
  /-- In `sched` with `p->state` set, to go on at `k` when the scheduler switches back. -/
  | sched (k : Pc)
  /-- Switched away from in `exit`. -/
  | dead
  | sleep (chan : Chan)
  | woken
  | yield (k : Pc)
  /-- Switched to by the scheduler after a `yield` at `k`, or for the first time in `forkret`. -/
  | resume (k : Pc)

inductive Cpu where
  | scan (todo : List Slot)
  | found (i : Slot) (todo : List Slot)
  | run (p : Slot) (todo : List Slot)
  /-- Back in the scheduler after `swtch`. -/
  | back (p : Slot) (todo : List Slot)

/-- The process table, the kernel threads and the CPUs. A lock is owned by a CPU, as in
`struct spinlock`. The last two fields are not in the source: they number the processes
in the order of their creation, and tell for each slot the number of the last one in it. -/
structure State (C : Type) where
  proc : Slot → Proc
  lock : Slot → Option C
  pc : Slot → Pc
  cpu : C → Cpu
  nextpid : Int32
  births : Nat
  birth : Slot → Nat

inductive Panic where
  | acquire
  | release
  | wakeup1
  | schedLock
  | schedLocks
  | schedRunning
  | initExiting
  | zombieExit
  | kerneltrap
  deriving DecidableEq

inductive Syscall where
  | fork
  | exit (status : Int32)
  | wait (addr : Nat)
  | kill (pid : Int32)
  | sleep (chan : Chan)
  | wakeup (chan : Chan)
  /-- `sbrk` and `exec`, as far as they change `p->sz`. -/
  | resize (sz : Nat)
  /-- `open`, `dup`, `pipe` and `close`, as far as they change `p->ofile`. -/
  | files (ofile : Fin NOFILE → Option (Fin NFILE))

inductive Choice where
  | go
  | call (x : Syscall)
  | timer
  /-- The process does in user space what `usertrap` answers by killing it. -/
  | fault
  | noTrapframe
  | noPagetable
  | noCopy
  /-- `copyout` fails in `wait`. -/
  | badAddr

structure Act (C : Type) where
  cpu : C
  choice : Choice

variable {C : Type} [DecidableEq C]

namespace State

@[simps] def setProc (s : State C) (i : Slot) (x : Proc) : State C :=
  { s with proc := Function.update s.proc i x }

@[simps] def setPc (s : State C) (p : Slot) (k : Pc) : State C :=
  { s with pc := Function.update s.pc p k }

@[simps] def setCpu (s : State C) (c : C) (u : Cpu) : State C :=
  { s with cpu := Function.update s.cpu c u }

@[simps] def setLock (s : State C) (l : Slot) (o : Option C) : State C :=
  { s with lock := Function.update s.lock l o }

end State

/-- `acquire`, tried once. -/
def acquire (s : State C) (c : C) (l : Slot) : Outcome (State C) Panic :=
  match s.lock l with
  | none => .done (s.setLock l (some c))
  | some c' => if c' = c then .panic .acquire else .blocked

/-- `release`, as the last action of a step that changes the state to `s`. -/
def release (s : State C) (c : C) (l : Slot) : Outcome (State C) Panic :=
  if s.lock l = some c then .done (s.setLock l none) else .panic .release

/-- The tests at the beginning of `sched`, and the switch to the scheduler. -/
def sched (s : State C) (c : C) (p : Slot) (todo : List Slot) : Outcome (State C) Panic :=
  if s.lock p ≠ some c then .panic .schedLock
  else if ∃ l, l ≠ p ∧ s.lock l = some c then .panic .schedLocks
  else if (s.proc p).state = .running then .panic .schedRunning
  else .done (s.setCpu c (.back p todo))

/-- `wakeup1`, on the fields of slot `i`. -/
def Proc.wakeup1 (x : Proc) (i : Slot) : Proc :=
  if x.chan = some (.proc i) ∧ x.state = .sleeping then { x with state := .runnable } else x

/-- The body of the loop of `kill`. -/
def Proc.kill (x : Proc) : Proc :=
  { x with killed := true, state := if x.state = .sleeping then .runnable else x.state }

/-- The body of the loop of `wakeup`. -/
def Proc.wakeup (x : Proc) (chan : Chan) : Proc :=
  if x.state = .sleeping ∧ x.chan = some chan then { x with state := .runnable } else x

/-- What `fork` copies from the process `x` to the slot `np` it has got. -/
def Proc.forkTo (x np : Proc) (p : Slot) : Proc :=
  { np with
    sz := x.sz, parent := some p, ofile := fun fd => (x.ofile fd).or (np.ofile fd)
    state := .runnable }

def Job.next (j : Job) : List Slot → Pc
  | [] => .user
  | i :: todo => .spin i (.visit j i todo)

def Syscall.enter (p : Slot) : Syscall → Pc
  | .fork => Job.alloc.next slots
  | .exit status => .spin initproc (.exitWake status)
  | .wait addr => .spin p (.waitScan addr false slots)
  | .kill pid => (Job.kill pid).next slots
  | .sleep chan => .spin p (.sleep chan)
  | .wakeup chan => (Job.wakeup chan).next slots
  | .resize _ | .files _ => .user

def Syscall.own (x : Proc) : Syscall → Proc
  | .exit _ => { x with ofile := fun _ => none }
  | .resize sz => { x with sz := sz }
  | .files ofile => { x with ofile := ofile }
  | _ => x

def syscall (s : State C) (p : Slot) (x : Syscall) : Outcome (State C) Panic :=
  match x, decide (p = initproc) with
  | .exit _, true => .panic .initExiting
  | _, _ => .done ((s.setProc p (x.own (s.proc p))).setPc p (x.enter p))

/-- `fork` by `p` once `allocproc` has locked the unused slot `i`: all of it up to the
`release` with which each of its ways ends. -/
def forkFrom (s : State C) (c : C) (p i : Slot) (a : Choice) : Outcome (State C) Panic :=
  let s' := { s with nextpid := s.nextpid + 1 }
  let x := { s.proc i with pid := s.nextpid }
  match a with
  | .noTrapframe => release ((s'.setProc i x).setPc p .user) c i
  | .noPagetable | .noCopy => release ((s'.setProc i x.freeproc).setPc p .user) c i
  | _ =>
    let s' := { s' with births := s.births + 1, birth := Function.update s.birth i s.births }
    let s' := s'.setProc i ((s.proc p).forkTo x p)
    release ((s'.setPc i (.resume .user)).setPc p .user) c i

/-- One visit of a loop that locks every slot, up to the `release`. -/
def visit (s : State C) (c : C) (p : Slot) (a : Choice) (i : Slot) (todo : List Slot) :
    Job → Outcome (State C) Panic
  | .alloc =>
    if (s.proc i).state = .unused then forkFrom s c p i a
    else release (s.setPc p (Job.alloc.next todo)) c i
  | .kill pid =>
    if (s.proc i).pid = pid then release ((s.setProc i (s.proc i).kill).setPc p .user) c i
    else release (s.setPc p ((Job.kill pid).next todo)) c i
  | .wakeup chan =>
    release ((s.setProc i ((s.proc i).wakeup chan)).setPc p ((Job.wakeup chan).next todo)) c i

/-- The loop of `wait` over the table, which reads `np->parent` without a lock. -/
def waitScan (s : State C) (c : C) (p : Slot) (addr : Nat) (havekids : Bool) :
    List Slot → Outcome (State C) Panic
  | [] =>
    if !havekids || (s.proc p).killed then release (s.setPc p .user) c p
    else
      .done ((s.setProc p { s.proc p with chan := some (.proc p), state := .sleeping }).setPc p
        (.sched (.waitWoken addr)))
  | i :: todo =>
    if (s.proc i).parent = some p then .done (s.setPc p (.spin i (.waitFound addr i todo)))
    else .done (s.setPc p (.waitScan addr havekids todo))

/-- `wait` with a locked child `i`. -/
def waitFound (s : State C) (c : C) (p : Slot) (a : Choice) (addr : Nat) (i : Slot)
    (todo : List Slot) : Outcome (State C) Panic :=
  if (s.proc i).state = .zombie then
    let x := s.proc i
    match a, decide (addr = 0) with
    | .badAddr, false => release (s.setPc p (.waitDone (-1) none)) c i
    | _, null =>
      release ((s.setProc i x.freeproc).setPc p
        (.waitDone x.pid (bif null then none else some x.xstate))) c i
  else release (s.setPc p (.waitScan addr true todo)) c i

/-- The loop of `reparent`, which reads `pp->parent` without a lock, and the end of `exit`. -/
def reparent (s : State C) (c : C) (p : Slot) (status : Int32) (op : Slot) :
    List Slot → Outcome (State C) Panic
  | [] =>
    if s.lock op ≠ some c then .panic .wakeup1
    else
      let s' := s.setProc op ((s.proc op).wakeup1 op)
      release ((s'.setProc p { s'.proc p with xstate := status, state := .zombie }).setPc p
        (.sched .dead)) c op
  | i :: todo =>
    if (s.proc i).parent = some p then .done (s.setPc p (.spin i (.reparentFound status op i todo)))
    else .done (s.setPc p (.reparent status op todo))

def Pc.interruptible : Pc → Bool
  | .user | .exitLock _ _ => true
  | .spin _ (.visit _ _ _) | .spin _ (.waitScan _ _ _) | .spin _ (.exitWake _)
  | .spin _ (.exitRead _) | .spin _ (.sleep _) => true
  | _ => false

/-- The next step of process `p` on CPU `c`. -/
def procStep (s : State C) (c : C) (p : Slot) (rest : List Slot) (a : Choice) :
    Pc → Outcome (State C) Panic
  | .user =>
    match a with
    | .call x => syscall s p x
    | .fault => .done (s.setProc p { s.proc p with killed := true })
    | _ => .blocked
  | .spin l k => acquire (s.setPc p k) c l
  | .visit j i todo => visit s c p a i todo j
  | .waitScan addr havekids todo => waitScan s c p addr havekids todo
  | .waitFound addr i todo => waitFound s c p a addr i todo
  | .waitDone _ _ => release (s.setPc p .user) c p
  | .waitWoken addr =>
    .done ((s.setProc p { s.proc p with chan := none }).setPc p (.waitScan addr false slots))
  | .exitWake status =>
    if s.lock initproc ≠ some c then .panic .wakeup1
    else
      release ((s.setProc initproc ((s.proc initproc).wakeup1 initproc)).setPc p
        (.spin p (.exitRead status))) c initproc
  | .exitRead status =>
    match (s.proc p).parent with
    | none => .panic .kerneltrap
    | some op => release (s.setPc p (.exitLock status op)) c p
  | .exitLock status op => acquire (s.setPc p (.spin p (.reparent status op slots))) c op
  | .reparent status op todo => reparent s c p status op todo
  | .reparentFound status op i todo =>
    release ((s.setProc i { s.proc i with parent := some initproc }).setPc p
      (.reparent status op todo)) c i
  | .sched k => sched (s.setPc p k) c p rest
  | .dead => .panic .zombieExit
  | .sleep chan =>
    .done ((s.setProc p { s.proc p with chan := some chan, state := .sleeping }).setPc p
      (.sched .woken))
  | .woken => release ((s.setProc p { s.proc p with chan := none }).setPc p .user) c p
  | .yield k =>
    .done ((s.setProc p { s.proc p with state := .runnable }).setPc p (.sched (.resume k)))
  | .resume k => release (s.setPc p k) c p

/-- The next step of CPU `c`: of its scheduler, or of the process it runs. -/
def next (s : State C) (a : Act C) : Outcome (State C) Panic :=
  match s.cpu a.cpu with
  | .scan [] => .done (s.setCpu a.cpu (.scan slots))
  | .scan (i :: todo) => acquire (s.setCpu a.cpu (.found i todo)) a.cpu i
  | .found i todo =>
    if (s.proc i).state = .runnable then
      .done ((s.setProc i { s.proc i with state := .running }).setCpu a.cpu (.run i todo))
    else release (s.setCpu a.cpu (.scan todo)) a.cpu i
  | .run p todo =>
    match a.choice with
    | .timer =>
      if (s.pc p).interruptible then .done (s.setPc p (.spin p (.yield (s.pc p)))) else .blocked
    | choice => procStep s a.cpu p todo choice (s.pc p)
  | .back p todo => release (s.setCpu a.cpu (.scan todo)) a.cpu p

def State.boot (C : Type) : State C where
  proc := Function.update (fun _ => .free) initproc
    { Proc.free with state := .runnable, pid := 1, sz := PGSIZE }
  lock := fun _ => none
  pc := Function.update (fun _ => .user) initproc (.resume .user)
  cpu := fun _ => .scan []
  nextpid := 2
  births := 1
  birth := fun _ => 0

/-- The process system after `userinit`, on the CPUs `C`. -/
def machine (C : Type) [DecidableEq C] : Machine (State C) (Act C) Panic :=
  ⟨(· = State.boot C), next⟩

end Xv6.Process

import Xv6.Lib.Holder
import Xv6.Lib.Transition

namespace Xv6.Sleep

open Lib.Transition

variable {N : Nat} {D : Type}

/-- What is protected by a spin-lock `lk` and waited for on a channel: processes that enter sleep
while the data are `blocked`, and a process that leaves wakes them up. -/
structure Monitor (N : Nat) (D : Type) where
  init : D
  blocked : D → Bool
  take : Fin N → D → D
  give : D → D

/-- `struct sleeplock`, without its spin-lock. -/
structure Sleeplock where
  locked : Bool
  pid : Nat

/-- `acquiresleep` and `releasesleep` as entering and leaving. -/
def sleeplock (pid : Fin N → Nat) : Monitor N Sleeplock where
  init := ⟨false, 0⟩
  blocked lk := lk.locked
  take p _ := ⟨true, pid p⟩
  give _ := ⟨false, 0⟩

inductive ProcState where
  | runnable
  | running
  | sleeping
  deriving DecidableEq

inductive Pc (N : Nat) where
  | outside
  | inside
  /-- In `acquiresleep`, spinning for `lk`. -/
  | acquire
  /-- At the head of its loop, with `lk`. -/
  | test
  /-- In `sleep`, with `lk` and spinning for `p->lock`. -/
  | sleep
  /-- In `sleep`, with both. -/
  | sleepRelease
  /-- In `sleep`, with `p->lock` only. -/
  | sleepSet
  /-- In `sched`, before the scheduler releases `p->lock`. -/
  | sched
  | asleep
  /-- Back from `sched`, with `p->lock`. -/
  | awake
  /-- At the end of `acquiresleep`, with `lk`. -/
  | entered
  /-- In `releasesleep`, spinning for `lk`. -/
  | leave
  /-- In `releasesleep`, with `lk`. -/
  | give
  /-- In `wakeup`, with `lk`, before `acquire(&proc[i].lock)`. -/
  | scan (i : Nat)
  /-- In `wakeup`, with `lk` and `proc[i].lock`. -/
  | visit (i : Fin N)
  /-- In `kill(pid)`, before `acquire(&proc[i].lock)`. -/
  | killScan (pid i : Nat) (inside : Bool)
  /-- In `kill(pid)`, with `proc[i].lock`. -/
  | killVisit (pid : Nat) (i : Fin N) (inside : Bool)
  deriving DecidableEq

namespace Pc

/-- The process has `lk`. -/
def holdsLk : Pc N → Bool
  | test | sleep | sleepRelease | entered | give | scan _ | visit _ => true
  | _ => false

/-- Process `p`, which is here, has the `p->lock` of `q`. -/
def holdsLock (q : Fin N) (x : Fin N × Pc N) : Bool :=
  match x.2 with
  | sleepRelease | sleepSet | sched | awake => x.1 = q
  | visit i | killVisit _ i _ => i = q
  | _ => false

def owns : Pc N → Bool
  | entered | inside | leave | give | killScan _ _ true | killVisit _ _ true => true
  | _ => false

/-- The process is in `wakeup` and has visited `q`. -/
def visited (q : Fin N) : Pc N → Bool
  | scan i => q.val < i
  | visit i => q.val < i.val
  | _ => false

/-- The process is in `wakeup`. -/
def scanning : Pc N → Bool
  | scan _ | visit _ => true
  | _ => false

/-- After `kill`. -/
def back (inside : Bool) : Pc N := if inside then .inside else .outside

end Pc

/-- `lk` and `plock` are the holders of the spin-locks; `chan p` tells whether `p->chan` is the
channel. -/
structure State (N : Nat) (D : Type) where
  data : D
  lk : Option (Fin N)
  plock : Fin N → Option (Fin N)
  state : Fin N → ProcState
  chan : Fin N → Bool
  killed : Fin N → Bool
  pc : Fin N → Pc N

namespace State

def goto (s : State N D) (p : Fin N) (c : Pc N) : State N D :=
  { s with pc := Function.update s.pc p c }

def setLk (s : State N D) (o : Option (Fin N)) : State N D := { s with lk := o }

def setPlock (s : State N D) (q : Fin N) (o : Option (Fin N)) : State N D :=
  { s with plock := Function.update s.plock q o }

def setState (s : State N D) (q : Fin N) (x : ProcState) : State N D :=
  { s with state := Function.update s.state q x }

def setChan (s : State N D) (q : Fin N) (b : Bool) : State N D :=
  { s with chan := Function.update s.chan q b }

def setKilled (s : State N D) (q : Fin N) : State N D :=
  { s with killed := Function.update s.killed q true }

def setData (s : State N D) (d : D) : State N D := { s with data := d }

/-- `if(p->state == SLEEPING && p->chan == chan) p->state = RUNNABLE` -/
def wake (s : State N D) (q : Fin N) : State N D :=
  if s.state q = .sleeping ∧ s.chan q = true then s.setState q .runnable else s

/-- What `kill` does to its victim. -/
def kill (s : State N D) (q : Fin N) : State N D :=
  if s.state q = .sleeping then (s.setKilled q).setState q .runnable else s.setKilled q

end State

inductive Act (N : Nat) where
  | enter (p : Fin N)
  | leave (p : Fin N)
  | kill (p : Fin N) (pid : Nat)
  | run (p : Fin N)

/-- `acquire(lk)` by `p`. -/
def acquire (s : State N D) (p : Fin N) (c : Pc N) : Outcome (State N D) Empty :=
  if s.lk = none then .done ((s.setLk (some p)).goto p c) else .blocked

/-- `acquire(&proc[q].lock)` by `p`. -/
def acquireProc (s : State N D) (p q : Fin N) (c : Pc N) : Outcome (State N D) Empty :=
  if s.plock q = none then .done ((s.setPlock q (some p)).goto p c) else .blocked

/-- The next thing process `p` does, or the scheduler for it. -/
def runStep (M : Monitor N D) (pid : Fin N → Nat) (s : State N D) (p : Fin N) :
    Outcome (State N D) Empty :=
  match s.pc p with
  | .outside | .inside => .blocked
  | .acquire => acquire s p .test
  | .test =>
    if M.blocked s.data then .done (s.goto p .sleep)
    else .done ((s.setData (M.take p s.data)).goto p .entered)
  | .sleep => acquireProc s p p .sleepRelease
  | .sleepRelease => .done ((s.setLk none).goto p .sleepSet)
  | .sleepSet => .done (((s.setChan p true).setState p .sleeping).goto p .sched)
  | .sched => .done ((s.setPlock p none).goto p .asleep)
  | .asleep =>
    if s.state p = .runnable then acquireProc (s.setState p .running) p p .awake else .blocked
  | .awake => .done (((s.setChan p false).setPlock p none).goto p .acquire)
  | .entered => .done ((s.setLk none).goto p .inside)
  | .leave => acquire s p .give
  | .give => .done ((s.setData (M.give s.data)).goto p (.scan 0))
  | .scan i =>
    if h : i < N then acquireProc s p ⟨i, h⟩ (.visit ⟨i, h⟩)
    else .done ((s.setLk none).goto p .outside)
  | .visit i => .done (((s.wake i).setPlock i none).goto p (.scan (i.val + 1)))
  | .killScan v i b =>
    if h : i < N then acquireProc s p ⟨i, h⟩ (.killVisit v ⟨i, h⟩ b)
    else .done (s.goto p (.back b))
  | .killVisit v i b =>
    if pid i = v then .done (((s.kill i).setPlock i none).goto p (.back b))
    else .done ((s.setPlock i none).goto p (.killScan v (i.val + 1) b))

def next (M : Monitor N D) (pid : Fin N → Nat) (s : State N D) : Act N → Outcome (State N D) Empty
  | .enter p => if s.pc p = .outside then .done (s.goto p .acquire) else .blocked
  | .leave p =>
    if s.pc p = .inside ∨ s.pc p = .outside then .done (s.goto p .leave) else .blocked
  | .kill p v =>
    if s.pc p = .inside then .done (s.goto p (.killScan v 0 true))
    else if s.pc p = .outside then .done (s.goto p (.killScan v 0 false))
    else .blocked
  | .run p => runStep M pid s p

def boot (M : Monitor N D) : State N D where
  data := M.init
  lk := none
  plock _ := none
  state _ := .running
  chan _ := false
  killed _ := false
  pc _ := .outside

def machine (M : Monitor N D) (pid : Fin N → Nat) : Machine (State N D) (Act N) Empty where
  init s := s = boot M
  next := next M pid

def proper (s : State N D) : Act N → Bool
  | .leave p => s.pc p = .inside
  | _ => true

end Xv6.Sleep

import Xv6.Lib.Ring
import Xv6.Lib.Transition

namespace Xv6.Pipe

open Lib Lib.Transition

def PIPESIZE : Nat := 512

instance : NeZero PIPESIZE := ⟨by decide⟩

inductive Chan where
  | nread
  | nwrite
  deriving DecidableEq

variable {N : Nat}

/-- Where a process is in `pipe.c`. -/
inductive Pc (N : Nat) where
  | idle
  /-- Spinning in `acquire(&pi->lock)`, to go on at `k`. -/
  | acquire (k : Pc N)
  /-- At the head of the loop of `pipewrite`, with `i` bytes stored and `buf` left. -/
  | write (i : Nat) (buf : List UInt8)
  /-- At the head of the first loop of `piperead`. -/
  | read (n : Nat)
  /-- At the head of the second loop of `piperead`. -/
  | copy (i n : Nat)
  | close (writable : Bool)
  /-- In `wakeup(chan)`, with the processes it has still to visit, to go on at `k`. -/
  | wake (chan : Chan) (todo : List (Fin N)) (k : Pc N)
  /-- In `sleep(chan, &pi->lock)`, before `acquire(&p->lock)`. -/
  | sleep (chan : Chan) (k : Pc N)
  /-- In `sleep` with `p->lock` in place of `pi->lock`. -/
  | sleepSet (chan : Chan) (k : Pc N)
  /-- Switched away from in `sleep`. -/
  | asleep (k : Pc N)
  /-- At the end of `pipewrite` or `piperead` for `n` bytes, to release `pi->lock` and to
  return `r`. -/
  | ret (writable : Bool) (n : Nat) (r : Int)
  /-- At the end of `pipeclose`. -/
  | closed

/-- A pipe and the processes that use it. `chan p` is the channel of a process in state
`SLEEPING`. `readRef` and `writeRef` tell whether the two open files of the pipe are
referenced. The last two fields are not in the source: the bytes stored by writers and the
bytes handed to readers so far, in the order in which that was done. -/
structure State (N : Nat) where
  ring : Ring UInt8 PIPESIZE
  readopen : Bool
  writeopen : Bool
  freed : Bool
  lock : Option (Fin N)
  pc : Fin N → Pc N
  chan : Fin N → Option Chan
  killed : Fin N → Bool
  readRef : Bool
  writeRef : Bool
  accepted : List UInt8
  delivered : List UInt8

inductive Panic where
  | acquire
  | release
  deriving DecidableEq

inductive Choice where
  | go
  | write (buf : List UInt8)
  | read (n : Nat)
  | close (writable : Bool)
  | fresh
  /-- `copyin` or `copyout` fails. -/
  | badAddr

inductive Act (N : Nat) where
  | step (p : Fin N) (choice : Choice)
  | kill (p : Fin N)

namespace State

@[simps] def setPc (s : State N) (p : Fin N) (k : Pc N) : State N :=
  { s with pc := Function.update s.pc p k }

@[simps] def setLock (s : State N) (o : Option (Fin N)) : State N := { s with lock := o }

@[simps] def setChan (s : State N) (p : Fin N) (o : Option Chan) : State N :=
  { s with chan := Function.update s.chan p o }

@[simps] def setKilled (s : State N) (p : Fin N) (b : Bool) : State N :=
  { s with killed := Function.update s.killed p b }

end State

/-- The process is in `pipewrite`, or in `piperead`, with the file for that end open. -/
def Pc.uses (writable : Bool) : Pc N → Bool
  | .write _ _ => writable
  | .read _ | .copy _ _ => !writable
  | .ret w _ _ => w == writable
  | .acquire k | .wake _ _ k | .sleep _ k | .sleepSet _ k | .asleep k => k.uses writable
  | .idle | .close _ | .closed => false

/-- `p->lock` is held, so that `wakeup` and `kill` have to wait. -/
def Pc.locked : Pc N → Bool
  | .sleepSet _ _ => true
  | _ => false

def procs : List (Fin N) := List.finRange N

/-- `release(&pi->lock)` by `p`, as the last action of a step that changes the state to `s`. -/
def release (s : State N) (p : Fin N) : Outcome (State N) Panic :=
  if s.lock = some p then .done (s.setLock none) else .panic .release

/-- What a process outside `pipe.c` does. -/
def call (s : State N) (p : Fin N) : Choice → Outcome (State N) Panic
  | .write buf => if s.writeRef then .done (s.setPc p (.acquire (.write 0 buf))) else .blocked
  | .read n => if s.readRef then .done (s.setPc p (.acquire (.read n))) else .blocked
  | .close true =>
    if s.writeRef ∧ ∀ q, (s.pc q).uses true = false then
      .done ({ s with writeRef := false }.setPc p (.acquire (.close true)))
    else .blocked
  | .close false =>
    if s.readRef ∧ ∀ q, (s.pc q).uses false = false then
      .done ({ s with readRef := false }.setPc p (.acquire (.close false)))
    else .blocked
  | .fresh => .done (s.setKilled p false)
  | .go | .badAddr => .blocked

/-- One round of the loop of `pipewrite`. -/
def pipewrite (s : State N) (p : Fin N) (a : Choice) (i : Nat) : List UInt8 → State N
  | [] => s.setPc p (.wake .nread procs (.ret true i i))
  | ch :: buf =>
    let n := i + (ch :: buf).length
    if s.ring.isFull then
      if !s.readopen || s.killed p then s.setPc p (.ret true n (-1))
      else s.setPc p (.wake .nread procs (.sleep .nwrite (.write i (ch :: buf))))
    else
      match a with
      | .badAddr => s.setPc p (.wake .nread procs (.ret true n i))
      | _ =>
        { s with ring := s.ring.push ch, accepted := s.accepted ++ [ch] }.setPc p
          (.write (i + 1) buf)

/-- One round of the first loop of `piperead`. -/
def piperead (s : State N) (p : Fin N) (n : Nat) : State N :=
  if s.ring.isEmpty && s.writeopen then
    if s.killed p then s.setPc p (.ret false n (-1)) else s.setPc p (.sleep .nread (.read n))
  else s.setPc p (.copy 0 n)

/-- One round of the second loop of `piperead`. -/
def copy (s : State N) (p : Fin N) (a : Choice) (i n : Nat) : State N :=
  if i < n ∧ s.ring.isEmpty = false then
    match a with
    | .badAddr => { s with ring := s.ring.pop }.setPc p (.wake .nwrite procs (.ret false n i))
    | _ =>
      { s with ring := s.ring.pop, delivered := s.delivered ++ [s.ring.front] }.setPc p
        (.copy (i + 1) n)
  else s.setPc p (.wake .nwrite procs (.ret false n i))

def pipeclose (s : State N) (p : Fin N) : Bool → State N
  | true => { s with writeopen := false }.setPc p (.wake .nread procs .closed)
  | false => { s with readopen := false }.setPc p (.wake .nwrite procs .closed)

/-- The next step of process `p`. -/
def step (s : State N) (p : Fin N) (a : Choice) : Pc N → Outcome (State N) Panic
  | .idle => call s p a
  | .acquire k =>
    match s.lock with
    | none => .done ((s.setLock (some p)).setPc p k)
    | some q => if q = p then .panic .acquire else .blocked
  | .write i buf => .done (pipewrite s p a i buf)
  | .read n => .done (piperead s p n)
  | .copy i n => .done (copy s p a i n)
  | .close writable => .done (pipeclose s p writable)
  | .wake _ [] k => .done (s.setPc p k)
  | .wake chan (q :: todo) k =>
    if (s.pc q).locked then .blocked
    else
      let s' := if s.chan q = some chan then s.setChan q none else s
      .done (s'.setPc p (.wake chan todo k))
  | .sleep chan k => release (s.setPc p (.sleepSet chan k)) p
  | .sleepSet chan k => .done ((s.setChan p (some chan)).setPc p (.asleep k))
  | .asleep k => if s.chan p = none then .done (s.setPc p (.acquire k)) else .blocked
  | .ret _ _ _ => release (s.setPc p .idle) p
  | .closed => release ({ s with freed := !s.readopen && !s.writeopen }.setPc p .idle) p

def next (s : State N) : Act N → Outcome (State N) Panic
  | .step p a => step s p a (s.pc p)
  | .kill p =>
    if (s.pc p).locked then .blocked else .done ((s.setKilled p true).setChan p none)

/-- The pipe that `pipealloc` makes, on a page with arbitrary contents. -/
def State.alloc (N : Nat) (cell : Fin PIPESIZE → UInt8) : State N where
  ring := ⟨cell, 0, 0⟩
  readopen := true
  writeopen := true
  freed := false
  lock := none
  pc := fun _ => .idle
  chan := fun _ => none
  killed := fun _ => false
  readRef := true
  writeRef := true
  accepted := []
  delivered := []

/-- The pipe and up to `N` processes. -/
def machine (N : Nat) : Machine (State N) (Act N) Panic :=
  ⟨fun s => ∃ cell, s = State.alloc N cell, next⟩

end Xv6.Pipe

import Xv6.Lib.Holder
import Xv6.Lib.Pointers
import Xv6.Lib.Transition
import Xv6.Param

namespace Xv6.Bcache

open Lib.Transition

variable {N : Nat}

/-- An index into `bcache.buf`. -/
abbrev Slot := Fin NBUF

/-- What `prev` and `next` point to: a buffer, or `bcache.head`. -/
abbrev Node := Option Slot

/-- `struct buf` without its data and its pointers, with the caller that has its sleep-lock. -/
structure Buf (N : Nat) where
  valid : Bool
  dev : UInt32
  blockno : UInt32
  lock : Option (Fin N)
  refcnt : UInt32

/-- `b->dev == dev && b->blockno == blockno` -/
def Buf.caches (x : Buf N) (dev blockno : UInt32) : Bool := x.dev = dev && x.blockno = blockno

/-- Where a caller is between `bget` and `brelse`, with its buffer and with the block that it has
asked for. -/
inductive Pc where
  | idle
  /-- In `bget`, past `release(&bcache.lock)`. -/
  | acquiresleep (i : Slot) (dev blockno : UInt32)
  | holds (i : Slot) (dev blockno : UInt32)
  /-- In `brelse`, past `releasesleep`. -/
  | unref (i : Slot) (dev blockno : UInt32)
  deriving DecidableEq

/-- The buffer cache with its callers; a process that has several buffers is several callers.
`pins` is not in the source: how many calls of `bpin` have not been undone. -/
structure State (N : Nat) where
  prev : Node → Node
  next : Node → Node
  buf : Slot → Buf N
  pc : Fin N → Pc
  pins : Slot → Nat

namespace State

def setPrev (s : State N) (x y : Node) : State N := { s with prev := Function.update s.prev x y }

def setNext (s : State N) (x y : Node) : State N := { s with next := Function.update s.next x y }

def setBuf (s : State N) (i : Slot) (x : Buf N) : State N :=
  { s with buf := Function.update s.buf i x }

def setRefcnt (s : State N) (i : Slot) (n : UInt32) : State N :=
  s.setBuf i { s.buf i with refcnt := n }

def setLock (s : State N) (i : Slot) (o : Option (Fin N)) : State N :=
  s.setBuf i { s.buf i with lock := o }

def setPins (s : State N) (i : Slot) (n : Nat) : State N :=
  { s with pins := Function.update s.pins i n }

def goto (s : State N) (p : Fin N) (c : Pc) : State N := { s with pc := Function.update s.pc p c }

/-- Put a buffer behind `bcache.head`. -/
def push (s : State N) (i : Slot) : State N :=
  let s := s.setNext (some i) (s.next none)
  let s := s.setPrev (some i) none
  let s := s.setPrev (s.next none) (some i)
  s.setNext none (some i)

def unlink (s : State N) (i : Slot) : State N :=
  let s := s.setPrev (s.next (some i)) (s.prev (some i))
  s.setNext (s.prev (some i)) (s.next (some i))

section Fields

variable {s : State N} {i j : Slot} {p : Fin N}

@[simp] theorem goto_buf (c : Pc) : (s.goto p c).buf = s.buf := rfl

@[simp] theorem goto_pc (c : Pc) : (s.goto p c).pc = Function.update s.pc p c := rfl

@[simp] theorem setPins_buf (n : Nat) : (s.setPins i n).buf = s.buf := rfl

theorem setBuf_self (x : Buf N) : (s.setBuf i x).buf i = x := Function.update_self ..

theorem setBuf_ne (x : Buf N) (h : j ≠ i) : (s.setBuf i x).buf j = s.buf j :=
  Function.update_of_ne h ..

theorem setRefcnt_self (n : UInt32) :
    (s.setRefcnt i n).buf i = { s.buf i with refcnt := n } :=
  setBuf_self _

theorem setRefcnt_ne (n : UInt32) (h : j ≠ i) : (s.setRefcnt i n).buf j = s.buf j := setBuf_ne _ h

theorem setLock_self (o : Option (Fin N)) : (s.setLock i o).buf i = { s.buf i with lock := o } :=
  setBuf_self _

theorem setLock_ne (o : Option (Fin N)) (h : j ≠ i) : (s.setLock i o).buf j = s.buf j :=
  setBuf_ne _ h

end Fields

end State

/-- The buffers of static memory, whose pointers `binit` finds in any state. -/
def raw (N : Nat) (prev next : Node → Node) : State N where
  prev := prev
  next := next
  buf _ := ⟨false, 0, 0, none, 0⟩
  pc _ := .idle
  pins _ := 0

def binit (N : Nat) (prev next : Node → Node) : State N :=
  (List.finRange NBUF).foldl State.push (((raw N prev next).setPrev none none).setNext none none)

/-- The loops of `bget`: the first buffer that passes the test on the way from a node to
`bcache.head`. -/
def scan (follow : Node → Node) (test : Slot → Bool) : Nat → Node → Option Slot
  | 0, _ => none
  | _ + 1, none => none
  | fuel + 1, some i => if test i then some i else scan follow test fuel (follow (some i))

/-- `holdingsleep`: the process of `p` has the lock. -/
def holdingsleep (pid : Fin N → Nat) (x : Buf N) (p : Fin N) : Bool :=
  match x.lock with
  | none => false
  | some q => pid q = pid p

inductive Panic where
  | noBuffers
  | brelse
  deriving DecidableEq

inductive Act (N : Nat) where
  /-- `bget` up to `acquiresleep`. -/
  | bget (p : Fin N) (dev blockno : UInt32)
  /-- The end of `bget`. -/
  | acquiresleep (p : Fin N)
  /-- `brelse` up to `acquire(&bcache.lock)`. -/
  | brelse (p : Fin N)
  /-- The end of `brelse`. -/
  | unref (p : Fin N)
  | bpin (i : Slot)
  /-- `bunpin`, for a buffer with a `bpin` that has not been undone. -/
  | bunpin (i : Slot)

/-- What `bget` does with `bcache.lock`. -/
def bget (s : State N) (p : Fin N) (dev blockno : UInt32) : Outcome (State N) Panic :=
  match scan s.next (fun i => (s.buf i).caches dev blockno) NBUF (s.next none) with
  | some i =>
    .done ((s.setRefcnt i ((s.buf i).refcnt + 1)).goto p (.acquiresleep i dev blockno))
  | none =>
    match scan s.prev (fun i => (s.buf i).refcnt = 0) NBUF (s.prev none) with
    | some i =>
      .done ((s.setBuf i ⟨false, dev, blockno, (s.buf i).lock, 1⟩).goto p
        (.acquiresleep i dev blockno))
    | none => .panic .noBuffers

/-- What `brelse` does with `bcache.lock`. -/
def unref (s : State N) (i : Slot) : State N :=
  let s := s.setRefcnt i ((s.buf i).refcnt - 1)
  if (s.buf i).refcnt = 0 then (s.unlink i).push i else s

def next (pid : Fin N → Nat) (s : State N) : Act N → Outcome (State N) Panic
  | .bget p dev blockno => if s.pc p = .idle then bget s p dev blockno else .blocked
  | .acquiresleep p =>
    match s.pc p with
    | .acquiresleep i dev blockno =>
      if (s.buf i).lock = none then .done ((s.setLock i (some p)).goto p (.holds i dev blockno))
      else .blocked
    | _ => .blocked
  | .brelse p =>
    match s.pc p with
    | .holds i dev blockno =>
      if holdingsleep pid (s.buf i) p then .done ((s.setLock i none).goto p (.unref i dev blockno))
      else .panic .brelse
    | _ => .blocked
  | .unref p =>
    match s.pc p with
    | .unref i _ _ => .done ((unref s i).goto p .idle)
    | _ => .blocked
  | .bpin i => .done ((s.setRefcnt i ((s.buf i).refcnt + 1)).setPins i (s.pins i + 1))
  | .bunpin i =>
    if 0 < s.pins i then
      .done ((s.setRefcnt i ((s.buf i).refcnt - 1)).setPins i (s.pins i - 1))
    else .blocked

/-- The buffer cache from `binit` on. -/
def machine (N : Nat) (pid : Fin N → Nat) : Machine (State N) (Act N) Panic where
  init s := ∃ prev next, s = binit N prev next
  next := next pid

def Pc.ref : Pc → Option (Slot × UInt32 × UInt32)
  | .idle => none
  | .acquiresleep i dev blockno | .holds i dev blockno | .unref i dev blockno =>
    some (i, dev, blockno)

/-- The caller has the sleep-lock of buffer `i`. -/
def Pc.holding (i : Slot) : Pc → Bool
  | .holds j _ _ => j = i
  | _ => false

/-- How many references to buffer `i` a caller has. -/
def Pc.uses (i : Slot) (c : Pc) : Nat := if c.ref.map Prod.fst = some i then 1 else 0

/-- How many calls of `bget` and `bpin` for buffer `i` have not been undone. -/
def State.references (s : State N) (i : Slot) : Nat := s.pins i + ∑ p, (s.pc p).uses i

/-- There is room in `refcnt` for one more reference to any buffer. -/
def roomy (s : State N) (_ : Act N) : Prop := ∀ i, s.references i + 1 < 2 ^ 32

end Xv6.Bcache

import Xv6.Lib.Circular
import Xv6.Lib.Holder
import Xv6.Lib.Transition

namespace Xv6.Disk

open Lib Lib.Transition

def NUM : Nat := 8

instance : NeZero NUM := ⟨by decide⟩

/-- The three descriptors of a request, `idx` in the source. -/
structure Idx where
  first : Fin NUM
  second : Fin NUM
  third : Fin NUM
  deriving DecidableEq

def Idx.toList (x : Idx) : List (Fin NUM) := [x.first, x.second, x.third]

inductive Target (B : Type) where
  | null
  | header (write : Bool)
  | data (b : B)
  /-- `disk.info[i].status`. -/
  | status (i : Fin NUM)
  deriving DecidableEq

structure Desc (B : Type) where
  addr : Target B
  /-- `VRING_DESC_F_NEXT` -/
  hasNext : Bool
  /-- `VRING_DESC_F_WRITE`: the device writes. -/
  deviceWrites : Bool
  next : Nat

variable {B : Type} {N : Nat}

/-- Where a thread is in `virtio_disk.c`. -/
inductive Pc (B : Type) where
  | idle
  /-- In `virtio_disk_rw`, spinning in `acquire(&disk.vdisk_lock)` before the first loop. -/
  | lock (b : B) (write : Bool)
  | alloc (b : B) (write : Bool)
  /-- Asleep on `&disk.free[0]`. -/
  | sleepFree (b : B) (write : Bool)
  | format (b : B) (write : Bool) (x : Idx)
  /-- Before `disk.avail[1] = disk.avail[1] + 1`. -/
  | notify (b : B) (x : Idx)
  | wait (b : B) (x : Idx)
  /-- Asleep on `b`. -/
  | sleepBuf (b : B) (x : Idx)
  /-- Woken up, spinning for the lock in `sleep`. -/
  | relock (b : B) (x : Idx)
  /-- In `virtio_disk_intr`, spinning for the lock. -/
  | intr
  /-- At the head of the loop of `virtio_disk_intr`. -/
  | intrLoop

/-- The driver, the part of memory it shares with the device, and the device. `seen` and
`working` belong to the device: how far it has read the ring of available requests, and the
chains it has taken and not finished. The last six fields are not in the source: the heads
of chains made available, taken, posted by the device and handled by the driver so far, and
how often the latest request with a given head was posted and had its buffer cleared. -/
structure State (B : Type) (N : Nat) where
  free : Fin NUM → Bool
  desc : Fin NUM → Desc B
  avail : Fin NUM → Fin NUM
  availIdx : UInt16
  used : Fin NUM → Fin NUM
  usedId : UInt16
  usedIdx : Fin NUM
  buf : Fin NUM → Option B
  status : Fin NUM → Nat
  disk : B → Bool
  lock : Option (Fin N)
  pc : Fin N → Pc B
  seen : UInt16
  working : List (Fin NUM)
  published : List (Fin NUM)
  taken : List (Fin NUM)
  posted : List (Fin NUM)
  handled : List (Fin NUM)
  posts : Fin NUM → Nat
  clears : Fin NUM → Nat

inductive Panic where
  /-- "virtio_disk_intr 1" and "virtio_disk_intr 2", in `free_desc`. -/
  | intr1
  | intr2
  | intrStatus
  /-- `disk.info[id].b` is a null pointer. -/
  | nullBuf
  deriving DecidableEq

def slot (n : UInt16) : Fin NUM := Fin.ofNat NUM n.toNat

/-- The buffer of a thread in `virtio_disk_rw`. -/
def Pc.buffer : Pc B → Option B
  | .lock b _ | .alloc b _ | .sleepFree b _ | .format b _ _ | .notify b _ | .wait b _
  | .sleepBuf b _ | .relock b _ => some b
  | .idle | .intr | .intrLoop => none

/-- The descriptors of a thread in `virtio_disk_rw`. -/
def Pc.idx : Pc B → Option Idx
  | .format _ _ x | .notify _ x | .wait _ x | .sleepBuf _ x | .relock _ x => some x
  | .idle | .lock _ _ | .alloc _ _ | .sleepFree _ _ | .intr | .intrLoop => none

def Pc.woken : Pc B → Pc B
  | .sleepFree b write => .lock b write
  | .sleepBuf b x => .relock b x
  | k => k

namespace State

@[simps] def setPc (s : State B N) (p : Fin N) (k : Pc B) : State B N :=
  { s with pc := Function.update s.pc p k }

@[simps] def setLock (s : State B N) (o : Option (Fin N)) : State B N := { s with lock := o }

/-- `wakeup(&disk.free[0])`. -/
@[simps] def wakeFree (s : State B N) : State B N :=
  { s with
    pc := fun q =>
      match s.pc q with
      | .sleepFree b write => .lock b write
      | k => k }

/-- `wakeup(b)`. -/
@[simps] def wakeBuf [DecidableEq B] (s : State B N) (b : B) : State B N :=
  { s with
    pc := fun q =>
      match s.pc q with
      | .sleepBuf c x => if c = b then .relock c x else .sleepBuf c x
      | k => k }

end State

def allocDesc (free : Fin NUM → Bool) : Option (Fin NUM) := (List.finRange NUM).find? free

def markUsed (s : State B N) (i : Fin NUM) : State B N :=
  { s with free := Function.update s.free i false }

def freeDesc (s : State B N) (i : Nat) : Except Panic (State B N) :=
  if h : i < NUM then
    if s.free ⟨i, h⟩ then .error .intr2
    else
      .ok { s.wakeFree with
        desc := Function.update s.desc ⟨i, h⟩ { s.desc ⟨i, h⟩ with addr := .null }
        free := Function.update s.free ⟨i, h⟩ true }
  else .error .intr1

/-- `free_chain`. A chain that came back to itself would panic. -/
def freeChain : (fuel : Nat) → State B N → Nat → Except Panic (State B N)
  | 0, _, _ => .error .intr2
  | fuel + 1, s, i => do
    let s ← freeDesc s i
    if h : i < NUM then
      if (s.desc ⟨i, h⟩).hasNext then freeChain fuel s (s.desc ⟨i, h⟩).next else return s
    else return s

def alloc3Desc (s : State B N) : Except Panic (State B N × Option Idx) :=
  match allocDesc s.free with
  | none => return (s, none)
  | some i =>
    let s₁ := markUsed s i
    match allocDesc s₁.free with
    | none => do
      let s ← freeDesc s₁ i
      return (s, none)
    | some j =>
      let s₂ := markUsed s₁ j
      match allocDesc s₂.free with
      | none => do
        let s ← freeDesc s₂ i
        let s ← freeDesc s j
        return (s, none)
      | some k => return (markUsed s₂ k, some ⟨i, j, k⟩)

variable [DecidableEq B]

/-- The descriptors, `disk.info` and the slot of the ring for a request. -/
def formatRequest (s : State B N) (b : B) (write : Bool) (x : Idx) : State B N :=
  let d₁ := Function.update s.desc x.first ⟨.header write, true, false, x.second⟩
  let d₂ := Function.update d₁ x.second ⟨.data b, true, !write, x.third⟩
  let d₃ := Function.update d₂ x.third ⟨.status x.first, false, true, 0⟩
  { s with
    desc := d₃
    status := Function.update s.status x.first 0
    disk := Function.update s.disk b true
    buf := Function.update s.buf x.first (some b)
    avail := Function.update s.avail (slot s.availIdx) x.first
    posts := Function.update s.posts x.first 0
    clears := Function.update s.clears x.first 0 }

inductive Act (B : Type) (N : Nat) where
  /-- A thread that holds the sleep-lock of `b` calls `virtio_disk_rw`. -/
  | rw (p : Fin N) (b : B) (write : Bool)
  | intr (p : Fin N)
  /-- `kill` makes a sleeper run, whatever it sleeps on. -/
  | kill (p : Fin N)
  | go (p : Fin N)
  | take
  | post (h : Fin NUM) (status : Nat)

/-- What a thread does next in `virtio_disk.c`. -/
def threadStep (s : State B N) (p : Fin N) : Outcome (State B N) Panic :=
  match s.pc p with
  | .idle => .blocked
  | .lock b write =>
    if s.lock = none then .done ((s.setLock (some p)).setPc p (.alloc b write)) else .blocked
  | .alloc b write =>
    match alloc3Desc s with
    | .error e => .panic e
    | .ok (s, some x) => .done (s.setPc p (.format b write x))
    | .ok (s, none) => .done ((s.setLock none).setPc p (.sleepFree b write))
  | .sleepFree _ _ => .blocked
  | .format b write x => .done ((formatRequest s b write x).setPc p (.notify b x))
  | .notify b x =>
    .done ({ s with
      availIdx := s.availIdx + 1, published := s.published ++ [x.first] }.setPc p (.wait b x))
  | .wait b x =>
    if s.disk b then .done ((s.setLock none).setPc p (.sleepBuf b x))
    else
      match freeChain (NUM + 1) { s with buf := Function.update s.buf x.first none } x.first with
      | .error e => .panic e
      | .ok s => .done ((s.setLock none).setPc p .idle)
  | .sleepBuf _ _ => .blocked
  | .relock b x =>
    if s.lock = none then .done ((s.setLock (some p)).setPc p (.wait b x)) else .blocked
  | .intr => if s.lock = none then .done ((s.setLock (some p)).setPc p .intrLoop) else .blocked
  | .intrLoop =>
    if s.usedIdx ≠ slot s.usedId then
      let id := s.used s.usedIdx
      if s.status id ≠ 0 then .panic .intrStatus
      else
        match s.buf id with
        | none => .panic .nullBuf
        | some b =>
          .done { s.wakeBuf b with
            disk := Function.update s.disk b false
            usedIdx := s.usedIdx + 1
            handled := s.handled ++ [id]
            clears := Function.update s.clears id (s.clears id + 1) }
    else .done ((s.setLock none).setPc p .idle)

def next (s : State B N) : Act B N → Outcome (State B N) Panic
  | .rw p b write =>
    match s.pc p with
    | .idle => if ∀ q, (s.pc q).buffer ≠ some b then .done (s.setPc p (.lock b write)) else .blocked
    | _ => .blocked
  | .intr p =>
    match s.pc p with
    | .idle => .done (s.setPc p .intr)
    | _ => .blocked
  | .kill p => .done (s.setPc p (s.pc p).woken)
  | .go p => threadStep s p
  | .take =>
    if s.seen ≠ s.availIdx then
      let h := s.avail (slot s.seen)
      .done { s with seen := s.seen + 1, working := h :: s.working, taken := s.taken ++ [h] }
    else .blocked
  | .post h status =>
    if h ∈ s.working then
      .done { s with
        working := s.working.erase h
        status := Function.update s.status h status
        used := Function.update s.used (slot s.usedId) h
        usedId := s.usedId + 1
        posted := s.posted ++ [h]
        posts := Function.update s.posts h (s.posts h + 1) }
    else .blocked

/-- The state that `virtio_disk_init` leaves. -/
structure Init (s : State B N) : Prop where
  free : ∀ i, s.free i = true
  availIdx : s.availIdx = 0
  usedId : s.usedId = 0
  usedIdx : s.usedIdx = 0
  lock : s.lock = none
  pc : ∀ p, s.pc p = .idle
  seen : s.seen = 0
  working : s.working = []
  published : s.published = []
  taken : s.taken = []
  posted : s.posted = []
  handled : s.handled = []

def machine (B : Type) (N : Nat) [DecidableEq B] : Machine (State B N) (Act B N) Panic where
  init := Init
  next := next

end Xv6.Disk

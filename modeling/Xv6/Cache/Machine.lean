import Xv6.Log.Machine

namespace Xv6.Cache

open Lib.Transition
open Log (LogArea)

abbrev Proc := Fin NPROC

/-- An index into `bcache.buf`. -/
abbrev Slot := Fin NBUF

/-- `struct buf`, with the owner of its sleep-lock. -/
structure Buf where
  valid : Bool
  dev : Nat
  blockno : Nat
  lock : Option Proc
  refcnt : UInt32
  data : Block

/-- What a process is doing in `bread` or `brelse`, outside `bcache.lock`. -/
inductive Io where
  | ready
  /-- In `bget`, past `b->refcnt++`. -/
  | acquiresleep (i : Slot)
  /-- In `brelse`, past `releasesleep`. -/
  | brelse (i : Slot)

/-- The two buffers that `write_log`, `install_trans` and the functions for the header use. -/
inductive Reg where
  | dst
  | src
  deriving DecidableEq

inductive Instr where
  | bread (r : Reg) (b : Nat)
  /-- `memmove(dst->data, src->data, BSIZE); bwrite(dst);` -/
  | copy
  /-- Copy `log.lh` to `dst`, and `bwrite(dst)`. -/
  | putHead
  /-- Copy `dst` to `log.lh`. -/
  | getHead
  /-- `bunpin(dst)` -/
  | bunpin
  | brelse (r : Reg)

/-- How far `recover_from_log` has come. -/
inductive BootPc where
  | readHead
  | installTrans (tail : Nat)
  | clearHead
  | done

/-- The log, the buffer cache and the processes that use them. `log.mem` and `dirty` are
not in the source: `log.mem` remembers for each block the contents last passed to
`log_write`, and `dirty` which buffers their holders have modified since. No step reads them. -/
structure State where
  log : Log.State Proc
  buf : Slot → Buf
  /-- The list from `bcache.head.next` to `bcache.head.prev`. -/
  lru : List Slot
  io : Proc → Io
  code : Proc → List Instr
  reg : Proc → Reg → Slot
  boot : Option BootPc
  dirty : Slot → Bool

inductive Panic where
  | log (e : Log.Panic)
  | noBuffers
  | bwrite
  | brelse
  deriving DecidableEq

inductive Act where
  | callBegin (p : Proc)
  | beginOp (p : Proc)
  | spurious (p : Proc)
  | bread (p : Proc) (b : Nat)
  /-- The end of `bread`: `acquiresleep` has the lock, and the data are read if need be. -/
  | acquire (p : Proc)
  | modify (p : Proc) (i : Slot) (v : Block)
  /-- `log_write` of buffer `i`, which holds block `b` with the contents `v`. -/
  | logWrite (p : Proc) (i : Slot) (b : Nat) (v : Block)
  | brelse (p : Proc) (i : Slot)
  /-- The end of `brelse`, under `bcache.lock`. -/
  | unref (p : Proc)
  | endOp (p : Proc)
  /-- The next step of `commit()` or of `recover_from_log()`. -/
  | exec (p : Proc)
  | endCommit (p : Proc)

namespace State

@[simps] def setBuf (s : State) (i : Slot) (x : Buf) : State :=
  { s with buf := Function.update s.buf i x }

@[simps] def setIo (s : State) (p : Proc) (x : Io) : State :=
  { s with io := Function.update s.io p x }

@[simps] def setCode (s : State) (p : Proc) (x : List Instr) : State :=
  { s with code := Function.update s.code p x }

@[simps] def setReg (s : State) (p : Proc) (r : Reg) (i : Slot) : State :=
  { s with reg := Function.update s.reg p (Function.update (s.reg p) r i) }

@[simps] def setLog (s : State) (x : Log.State Proc) : State := { s with log := x }

@[simps] def setDirty (s : State) (i : Slot) (x : Bool) : State :=
  { s with dirty := Function.update s.dirty i x }

/-- The contents `v` of a block reach the disk. -/
@[simps!] def writeDisk (s : State) (b : Nat) (v : Block) : State :=
  s.setLog { s.log with disk := Function.update s.log.disk b v }

end State

def Buf.Caches (x : Buf) (b : Nat) : Prop := x.dev = ROOTDEV ∧ x.blockno = b

instance (x : Buf) (b : Nat) : Decidable (x.Caches b) := inferInstanceAs (Decidable (_ ∧ _))

/-- The locked section of `bget`: the buffer and its new fields. -/
def bget (s : State) (b : Nat) : Option (Slot × Buf) :=
  match s.lru.find? fun i => (s.buf i).Caches b with
  | some i => some (i, { s.buf i with refcnt := (s.buf i).refcnt + 1 })
  | none =>
    match s.lru.reverse.find? fun i => (s.buf i).refcnt = 0 with
    | some i =>
      some (i, { s.buf i with dev := ROOTDEV, blockno := b, valid := false, refcnt := 1 })
    | none => none

/-- The buffer once process `p` has its sleep-lock and `bread` has filled it. -/
def Buf.fill (x : Buf) (p : Proc) (disk : Disk) : Buf :=
  if x.valid then { x with lock := some p }
  else { x with lock := some p, data := disk x.blockno, valid := true }

def acquiresleep (s : State) (p : Proc) (i : Slot) : Outcome State Panic :=
  match (s.buf i).lock with
  | some _ => .blocked
  | none =>
    .done (((s.setBuf i ((s.buf i).fill p s.log.disk)).setIo p .ready).setDirty i false)

/-- `releasesleep` in `brelse`. -/
def releasesleep (s : State) (p : Proc) (i : Slot) : Outcome State Panic :=
  if (s.buf i).lock = some p then
    .done ((s.setBuf i { s.buf i with lock := none }).setIo p (.brelse i))
  else .panic .brelse

/-- The locked section of `brelse`. -/
def unref (s : State) (p : Proc) (i : Slot) : State :=
  let x := { s.buf i with refcnt := (s.buf i).refcnt - 1 }
  let s' := { s with lru := if x.refcnt = 0 then i :: s.lru.erase i else s.lru }
  (s'.setBuf i x).setIo p .ready

/-- `log_write`, with `bpin` if the block is new in the log. -/
def logWrite (lg : LogArea) (s : State) (p : Proc) (op : Log.Op) (i : Slot) (b : Nat) (v : Block) :
    Outcome State Panic :=
  match Log.logCheck lg s.log with
  | some e => .panic (.log e)
  | none =>
    let x := { s.buf i with
      refcnt := if b ∈ s.log.lh then (s.buf i).refcnt else (s.buf i).refcnt + 1 }
    .done (((s.setBuf i x).setDirty i false).setLog (Log.logStore s.log p op b v))

/-- The body of the loop of `write_log`. -/
def writeLogBody (lg : LogArea) (tail b : Nat) : List Instr :=
  [.bread .dst (lg.start + tail + 1), .bread .src b, .copy, .brelse .src, .brelse .dst]

/-- The body of the loop of `install_trans`. -/
def installTransBody (lg : LogArea) (tail b : Nat) : List Instr :=
  [.bread .src (lg.start + tail + 1), .bread .dst b, .copy, .bunpin, .brelse .src, .brelse .dst]

def writeHeadBody (lg : LogArea) : List Instr := [.bread .dst lg.start, .putHead, .brelse .dst]

def readHeadBody (lg : LogArea) : List Instr := [.bread .dst lg.start, .getHead, .brelse .dst]

/-- `commit()` at the beginning of a function or of a round of its loop. -/
def commitEnter (lg : LogArea) (s : State) (p : Proc) : Log.CommitPc → State
  | .start => s.setLog (Log.commitStep lg s.log p .start)
  | .writeLog tail =>
    match s.log.lh[tail]? with
    | some b => s.setCode p (writeLogBody lg tail b)
    | none => s.setLog (s.log.setPc p (.commit .writeHead))
  | .writeHead | .clearHead => s.setCode p (writeHeadBody lg)
  | .installTrans tail =>
    match s.log.lh[tail]? with
    | some b => s.setCode p (installTransBody lg tail b)
    | none => s.setLog ({ s.log with lh := [] }.setPc p (.commit .clearHead))

/-- The same for `recover_from_log()`. -/
def bootEnter (lg : LogArea) (s : State) (p : Proc) : BootPc → State
  | .readHead => s.setCode p (readHeadBody lg)
  | .installTrans tail =>
    match s.log.lh[tail]? with
    | some b => s.setCode p (installTransBody lg tail b)
    | none => { s with log := { s.log with lh := [] }, boot := some .clearHead }
  | .clearHead => s.setCode p (writeHeadBody lg)
  | .done => { s with boot := none }

/-- The position in `commit()` after its next write. -/
def commitAfter : Log.Pc → Log.Pc
  | .commit (.writeLog tail) => .commit (.writeLog (tail + 1))
  | .commit .writeHead => .commit (.installTrans 0)
  | .commit (.installTrans tail) => .commit (.installTrans (tail + 1))
  | .commit .clearHead => .finish
  | c => c

def bootAfter : BootPc → BootPc
  | .readHead => .installTrans 0
  | .installTrans tail => .installTrans (tail + 1)
  | .clearHead => .done
  | .done => .done

def advance (s : State) (p : Proc) : State :=
  match s.boot with
  | some c => { s with boot := some (bootAfter c) }
  | none => s.setLog (s.log.setPc p (commitAfter (s.log.pc p)))

/-- `bwrite` of the destination after its data have been set to `v`. -/
def bwrite (s : State) (p : Proc) (v : Block) : Outcome State Panic :=
  let i := s.reg p .dst
  if (s.buf i).lock = some p then
    .done (advance ((s.setBuf i { s.buf i with data := v }).writeDisk (s.buf i).blockno v) p)
  else .panic .bwrite

/-- One call inside one of the bodies; `s` has it removed from the code already. -/
def instr (s : State) (p : Proc) : Instr → Outcome State Panic
  | .bread r b =>
    match bget s b with
    | some (i, x) => .done (((s.setBuf i x).setReg p r i).setIo p (.acquiresleep i))
    | none => .panic .noBuffers
  | .copy => bwrite s p (s.buf (s.reg p .src)).data
  | .putHead => bwrite s p (Log.putHead s.log.lh (s.buf (s.reg p .dst)).data)
  | .getHead =>
    .done (advance (s.setLog { s.log with lh := Log.readHead (s.buf (s.reg p .dst)).data }) p)
  | .bunpin =>
    let i := s.reg p .dst
    .done (s.setBuf i { s.buf i with refcnt := (s.buf i).refcnt - 1 })
  | .brelse r => releasesleep s p (s.reg p r)

def exec (lg : LogArea) (s : State) (p : Proc) : Outcome State Panic :=
  match s.io p, s.code p with
  | .ready, c :: rest => instr (s.setCode p rest) p c
  | .ready, [] =>
    match s.boot, s.log.pc p with
    | some c, _ => if p = 0 then .done (bootEnter lg s p c) else .blocked
    | none, .commit c => .done (commitEnter lg s p c)
    | none, _ => .blocked
  | _, _ => .blocked

def State.free (s : State) (p : Proc) : Bool :=
  match s.boot, s.io p, s.code p with
  | none, .ready, [] => true
  | _, _, _ => false

def State.inCall (s : State) (p : Proc) : Bool :=
  match s.log.pc p with
  | .idle | .active _ => s.free p
  | _ => false

def lift (s : State) : Outcome (Log.State Proc) Log.Panic → Outcome State Panic
  | .blocked => .blocked
  | .done l => .done (s.setLog l)
  | .panic e => .panic (.log e)

def next (lg : LogArea) (s : State) : Act → Outcome State Panic
  | .callBegin p => if s.free p then lift s (Log.next lg s.log (.callBegin p)) else .blocked
  | .beginOp p => if s.free p then lift s (Log.next lg s.log (.beginOp p)) else .blocked
  | .spurious p => if s.free p then lift s (Log.next lg s.log (.spurious p)) else .blocked
  | .endOp p => if s.free p then lift s (Log.next lg s.log (.endOp p)) else .blocked
  | .endCommit p => if s.free p then lift s (Log.next lg s.log (.endCommit p)) else .blocked
  | .bread p b =>
    if s.inCall p then
      match bget s b with
      | some (i, x) => .done ((s.setBuf i x).setIo p (.acquiresleep i))
      | none => .panic .noBuffers
    else .blocked
  | .acquire p =>
    match s.io p with
    | .acquiresleep i => acquiresleep s p i
    | _ => .blocked
  | .modify p i v =>
    if s.inCall p ∧ (s.buf i).lock = some p then
      .done ((s.setBuf i { s.buf i with data := v }).setDirty i true)
    else .blocked
  | .logWrite p i b v =>
    match s.log.pc p with
    | .active op =>
      if s.free p ∧ (s.buf i).lock = some p ∧ (s.buf i).blockno = b ∧ (s.buf i).data = v then
        logWrite lg s p op i b v
      else .blocked
    | _ => .blocked
  | .brelse p i => if s.inCall p then releasesleep s p i else .blocked
  | .unref p =>
    match s.io p with
    | .brelse i => .done (unref s p i)
    | _ => .blocked
  | .exec p => exec lg s p

/-- After `binit()`, with the first process about to call `recover_from_log()`. -/
def State.init (disk : Disk) : State where
  log := Log.State.boot Proc disk
  buf := fun _ => ⟨false, 0, 0, none, 0, fun _ => 0⟩
  lru := (List.finRange NBUF).reverse
  io := fun _ => .ready
  code := fun _ => []
  reg := fun _ _ => ⟨0, NBUF_pos⟩
  boot := some .readHead
  dirty := fun _ => false

/-- The machine from `binit()` on, started on the given disk. -/
def machine (lg : LogArea) (disk : Disk) : Machine State Act Panic :=
  ⟨(· = State.init disk), next lg⟩

end Xv6.Cache

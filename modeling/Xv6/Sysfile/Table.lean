import Xv6.Fs.Volume

namespace Xv6.Sysfile

open Fs Lib.Command

inductive FdType where
  | none
  | pipe
  | inode
  | device
  deriving DecidableEq

/-- `struct file`. A pipe is given by the address of its page. -/
structure File where
  type : FdType
  ref : Nat
  readable : Bool
  writable : Bool
  pipe : Nat
  ip : Fin NINODE
  off : UInt32
  major : Int16

namespace File

def withRef (x : File) (n : Nat) : File := { x with ref := n }

def closed (x : File) : File := { x with ref := 0, type := .none }

/-- An end of the pipe at page `a`. -/
def asPipe (x : File) (a : Nat) (w : Bool) : File :=
  { x with type := .pipe, readable := !w, writable := w, pipe := a }

def advance (x : File) (n : Nat) : File := { x with off := x.off + UInt32.ofNat n }

end File

structure Pipe where
  readopen : Bool
  writeopen : Bool

inductive ProcState where
  | unused
  | live
  | zombie
  deriving DecidableEq

structure Proc where
  state : ProcState
  ofile : Fin NOFILE → Option (Fin NFILE)
  cwd : Option (Fin NINODE)

namespace Proc

def setOfile (q : Proc) (fd : Fin NOFILE) (o : Option (Fin NFILE)) : Proc :=
  { q with ofile := Function.update q.ofile fd o }

def setCwd (q : Proc) (o : Option (Fin NINODE)) : Proc := { q with cwd := o }

def setState (q : Proc) (st : ProcState) : Proc := { q with state := st }

end Proc

/-- The tables behind the system calls on files. `others` are the pages that `kalloc()` has
given to other parts of the kernel. -/
structure Tables where
  ftable : Fin NFILE → File
  proc : Fin NPROC → Proc
  freelist : List Nat
  others : List Nat
  pipe : Nat → Pipe

structure Kernel extends Tables where
  vol : Vol

abbrev KM := Cmd Kernel Panic

def onVol {α : Type} (c : VolM α) : KM α := zoom Kernel.vol (fun v k => { k with vol := v }) c

def onTables (g : Tables → Tables) : KM Unit := modify fun k => { k with toTables := g k.toTables }

namespace Tables

def setFile (t : Tables) (f : Fin NFILE) (x : File) : Tables :=
  { t with ftable := Function.update t.ftable f x }

def setProc (t : Tables) (p : Fin NPROC) (x : Proc) : Tables :=
  { t with proc := Function.update t.proc p x }

def setOfile (t : Tables) (p : Fin NPROC) (fd : Fin NOFILE) (o : Option (Fin NFILE)) : Tables :=
  t.setProc p ((t.proc p).setOfile fd o)

def setPipe (t : Tables) (a : Nat) (x : Pipe) : Tables :=
  { t with pipe := Function.update t.pipe a x }

end Tables

/-- What a process does between `begin_op()` and `end_op()`. -/
def transaction {α : Type} (c : KM α) : KM α := do
  onVol Vol.beginOp
  let a ← c
  onVol Vol.endOp
  pure a

def kalloc : KM (Option Nat) := do
  let k ← get
  match k.freelist with
  | [] => pure none
  | a :: rest =>
    onTables fun t => { t with freelist := rest }
    pure (some a)

def kfree (a : Nat) : KM Unit := onTables fun t => { t with freelist := a :: t.freelist }

def filealloc : KM (Option (Fin NFILE)) := do
  let k ← get
  match (List.finRange NFILE).find? fun f => (k.ftable f).ref = 0 with
  | none => pure none
  | some f =>
    onTables fun t => t.setFile f ((t.ftable f).withRef 1)
    pure (some f)

/-- Increment ref count for file `f`. -/
def filedup (f : Fin NFILE) : KM Unit := do
  let k ← get
  if (k.ftable f).ref < 1 then throw .filedup
  else onTables fun t => t.setFile f ((t.ftable f).withRef ((t.ftable f).ref + 1))

def pipeclose (a : Nat) (writable : Bool) : KM Unit := do
  onTables fun t =>
    t.setPipe a (if writable then ⟨(t.pipe a).readopen, false⟩ else ⟨false, (t.pipe a).writeopen⟩)
  let k ← get
  if (k.pipe a).readopen = false ∧ (k.pipe a).writeopen = false then kfree a

/-- Close file `f`. (Decrement ref count, close when reaches 0.) -/
def fileclose (f : Fin NFILE) : KM Unit := do
  let k ← get
  let ff := k.ftable f
  if ff.ref < 1 then throw .fileclose
  else if 0 < ff.ref - 1 then onTables fun t => t.setFile f (ff.withRef (ff.ref - 1))
  else
    onTables fun t => t.setFile f ff.closed
    match ff.type with
    | .pipe => pipeclose ff.pipe ff.writable
    | .inode | .device => transaction (onVol (iput ff.ip))
    | .none => pure ()

/-- The `bad` exit of `pipealloc`, before a page is there. -/
def pipeallocBad (files : List (Fin NFILE)) : KM (Option (Fin NFILE × Fin NFILE)) := do
  files.forM fileclose
  pure none

def pipealloc : KM (Option (Fin NFILE × Fin NFILE)) := do
  match ← filealloc with
  | none => pipeallocBad []
  | some f₀ =>
    match ← filealloc with
    | none => pipeallocBad [f₀]
    | some f₁ =>
      match ← kalloc with
      | none => pipeallocBad [f₀, f₁]
      | some a =>
        onTables fun t => t.setPipe a ⟨true, true⟩
        onTables fun t => t.setFile f₀ ((t.ftable f₀).asPipe a false)
        onTables fun t => t.setFile f₁ ((t.ftable f₁).asPipe a true)
        pure (some (f₀, f₁))

def fdalloc (p : Fin NPROC) (f : Fin NFILE) : KM (Option (Fin NOFILE)) := do
  let k ← get
  match (List.finRange NOFILE).find? fun fd => (k.proc p).ofile fd = none with
  | none => pure none
  | some fd =>
    onTables fun t => t.setOfile p fd (some f)
    pure (some fd)

end Xv6.Sysfile

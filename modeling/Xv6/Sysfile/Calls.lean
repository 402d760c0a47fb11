import Xv6.Elf
import Xv6.Lib.Transition
import Xv6.Sysfile.Table

namespace Xv6.Sysfile

open Fs Lib.Command Lib.Transition Lib.Record

def O_RDONLY : UInt32 := 0x000

def O_WRONLY : UInt32 := 0x001

def O_RDWR : UInt32 := 0x002

def O_CREATE : UInt32 := 0x200

def O_TRUNC : UInt32 := 0x400

/-- The major number of the console, the only device with functions in `devsw`. -/
def CONSOLE : Int16 := 1

/-- `"."` and `".."`. -/
def dot : List UInt8 := [46]

def dotdot : List UInt8 := [46, 46]

/-- A path as `argstr` gives it, none if it fails. -/
abbrev Path := Option (List UInt8)

/-- Create the path `new` as a link to the same inode as `old`. -/
def linkInode (cwd : Fin NINODE) (old new : List UInt8) : VolM Int := do
  match ← namei cwd old with
  | none => pure (-1)
  | some ip =>
    Vol.ilock ip
    let v ← get
    if (v.inode ip).type = T_DIR then
      iunlockput ip
      pure (-1)
    else
      onFs (edit ip fun din => { din with nlink := din.nlink + 1 })
      onFs (iupdate ip)
      iunlock ip
      match ← nameiparent cwd new with
      | none => bad ip
      | some (dp, name) =>
        Vol.ilock dp
        let v ← get
        if (v.inode dp).dev ≠ (v.inode ip).dev then
          iunlockput dp
          bad ip
        else if ← dirlink dp name (v.inode ip).inum then
          iunlockput dp
          iput ip
          pure 0
        else
          iunlockput dp
          bad ip
where
  bad (ip : Fin NINODE) : VolM Int := do
    Vol.ilock ip
    onFs (edit ip fun din => { din with nlink := din.nlink - 1 })
    onFs (iupdate ip)
    iunlockput ip
    pure (-1)

/-- `ip->type == T_DIR && !isdirempty(ip)`. -/
def isFullDir (ip : Fin NINODE) : VolM Bool := do
  let v ← get
  if (v.inode ip).type = T_DIR then
    let empty ← onFs (isdirempty ip)
    pure !empty
  else
    pure false

/-- The last part of `sys_unlink`: the entry of `dp` at `off` is cleared, and the inode it named
has one link less. -/
def removeEntry (dp ip : Fin NINODE) (off : Nat) : VolM Int := do
  let v ← get
  let r ← onFs (writei (kernelSrc (List.replicate 16 0)) dp (UInt32.ofNat off) 16)
  if r ≠ 16 then throw .unlinkWritei
  else
    if (v.inode ip).type = T_DIR then
      onFs (edit dp fun din => { din with nlink := din.nlink - 1 })
      onFs (iupdate dp)
    iunlockput dp
    onFs (edit ip fun din => { din with nlink := din.nlink - 1 })
    onFs (iupdate ip)
    iunlockput ip
    pure 0

def unlinkInode (cwd : Fin NINODE) (path : List UInt8) : VolM Int := do
  match ← nameiparent cwd path with
  | none => pure (-1)
  | some (dp, name) =>
    Vol.ilock dp
    -- Cannot unlink "." or "..".
    if namecmp name dot = 0 ∨ namecmp name dotdot = 0 then bad dp
    else
      match ← onFs (dirlookup dp name) with
      | none => bad dp
      | some (ip, off) =>
        Vol.ilock ip
        let v ← get
        if (v.inode ip).nlink < 1 then throw .unlinkNlink
        else if ← isFullDir ip then
          iunlockput ip
          bad dp
        else removeEntry dp ip off
where
  bad (dp : Fin NINODE) : VolM Int := do
    iunlockput dp
    pure (-1)

/-- Put a new inode into the directory `dp`, and `.` and `..` into the new one if it is a
directory. -/
def createEntries (dp ip : Fin NINODE) (name : List UInt8) (type : Int16) : VolM Unit := do
  if type = T_DIR then
    onFs (edit dp fun din => { din with nlink := din.nlink + 1 })
    onFs (iupdate dp)
    let v ← get
    if !(← dirlink ip dot (v.inode ip).inum) then throw .createDots
    if !(← dirlink ip dotdot (v.inode dp).inum) then throw .createDots
  let v ← get
  if !(← dirlink dp name (v.inode ip).inum) then throw .createDirlink

def create (cwd : Fin NINODE) (path : List UInt8) (type major minor : Int16) :
    VolM (Option (Fin NINODE)) := do
  match ← nameiparent cwd path with
  | none => pure none
  | some (dp, name) =>
    Vol.ilock dp
    match ← onFs (dirlookup dp name) with
    | some (ip, _) =>
      iunlockput dp
      Vol.ilock ip
      let v ← get
      if type = T_FILE ∧ ((v.inode ip).type = T_FILE ∨ (v.inode ip).type = T_DEVICE) then
        pure (some ip)
      else
        iunlockput ip
        pure none
    | none =>
      let v ← get
      let ip ← onFs (ialloc (v.inode dp).dev type)
      Vol.ilock ip
      onFs (edit ip fun din => { din with major := major, minor := minor, nlink := 1 })
      onFs (iupdate ip)
      createEntries dp ip name type
      iunlockput dp
      pure (some ip)

/-- The first half of `sys_open`: the inode to open, locked. -/
def openInode (cwd : Fin NINODE) (path : List UInt8) (omode : UInt32) :
    VolM (Option (Fin NINODE)) := do
  if omode &&& O_CREATE ≠ 0 then create cwd path T_FILE 0 0
  else
    match ← namei cwd path with
    | none => pure none
    | some ip =>
      Vol.ilock ip
      let v ← get
      if (v.inode ip).type = T_DIR ∧ omode ≠ O_RDONLY then
        iunlockput ip
        pure none
      else
        pure (some ip)

/-- What `sys_open` stores in the new file. -/
def File.opened (f : File) (ip : Fin NINODE) (i : Inode) (omode : UInt32) : File :=
  { f with
    type := if i.type = T_DEVICE then .device else .inode
    major := if i.type = T_DEVICE then i.major else f.major
    off := if i.type = T_DEVICE then f.off else 0
    ip := ip
    readable := omode &&& O_WRONLY = 0
    writable := omode &&& O_WRONLY ≠ 0 ∨ omode &&& O_RDWR ≠ 0 }

/-- The second half of `sys_open`, with the inode locked. -/
def openFile (p : Fin NPROC) (ip : Fin NINODE) (omode : UInt32) : KM Int := do
  let i := (← get).vol.inode ip
  if i.type = T_DEVICE ∧ (i.major < 0 ∨ Int16.ofNat NDEV ≤ i.major) then
    onVol (iunlockput ip)
    pure (-1)
  else
    match ← filealloc with
    | none =>
      onVol (iunlockput ip)
      pure (-1)
    | some f =>
      match ← fdalloc p f with
      | none =>
        fileclose f
        onVol (iunlockput ip)
        pure (-1)
      | some fd =>
        onTables fun t => t.setFile f ((t.ftable f).opened ip i omode)
        if omode &&& O_TRUNC ≠ 0 ∧ i.type = T_FILE then onVol (onFs (itrunc ip))
        onVol (iunlock ip)
        pure fd.val

def cwdOf (k : Kernel) (p : Fin NPROC) : Fin NINODE := (k.proc p).cwd.getD ⟨0, by decide⟩

def sysOpen (p : Fin NPROC) (path : Path) (omode : UInt32) : KM Int := do
  match path with
  | none => pure (-1)
  | some path =>
    transaction do
      let k ← get
      match ← onVol (openInode (cwdOf k p) path omode) with
      | none => pure (-1)
      | some ip => openFile p ip omode

/-- `sys_mkdir` and `sys_mknod`. -/
def sysMake (p : Fin NPROC) (path : Path) (type major minor : Int16) : KM Int :=
  transaction do
    let k ← get
    match path with
    | none => pure (-1)
    | some path =>
      match ← onVol (create (cwdOf k p) path type major minor) with
      | none => pure (-1)
      | some ip =>
        onVol (iunlockput ip)
        pure 0

def sysMkdir (p : Fin NPROC) (path : Path) : KM Int := sysMake p path T_DIR 0 0

def sysMknod (p : Fin NPROC) (path : Path) (major minor : Int16) : KM Int :=
  sysMake p path T_DEVICE major minor

def sysLink (p : Fin NPROC) (old new : Path) : KM Int := do
  match old, new with
  | some old, some new =>
    transaction do
      let k ← get
      onVol (linkInode (cwdOf k p) old new)
  | _, _ => pure (-1)

def sysUnlink (p : Fin NPROC) (path : Path) : KM Int := do
  match path with
  | none => pure (-1)
  | some path =>
    transaction do
      let k ← get
      onVol (unlinkInode (cwdOf k p) path)

/-- The directory that `sys_chdir` changes to; the old one is put. -/
def chdirInode (cwd : Fin NINODE) (path : List UInt8) : VolM (Option (Fin NINODE)) := do
  match ← namei cwd path with
  | none => pure none
  | some ip =>
    Vol.ilock ip
    let v ← get
    if (v.inode ip).type ≠ T_DIR then
      iunlockput ip
      pure none
    else
      iunlock ip
      iput cwd
      pure (some ip)

def sysChdir (p : Fin NPROC) (path : Path) : KM Int := do
  let k ← get
  let r ← transaction do
    match path with
    | none => pure none
    | some path => onVol (chdirInode (cwdOf k p) path)
  match r with
  | none => pure (-1)
  | some ip =>
    onTables fun t => t.setProc p ((t.proc p).setCwd (some ip))
    pure 0

def argfd (k : Kernel) (p : Fin NPROC) (fd : Int) : Option (Fin NOFILE × Fin NFILE) :=
  if h : 0 ≤ fd ∧ fd.toNat < NOFILE then
    ((k.proc p).ofile ⟨fd.toNat, h.2⟩).map fun f => (⟨fd.toNat, h.2⟩, f)
  else none

def sysDup (p : Fin NPROC) (fd : Int) : KM Int := do
  let k ← get
  match argfd k p fd with
  | none => pure (-1)
  | some (_, f) =>
    match ← fdalloc p f with
    | none => pure (-1)
    | some fd =>
      filedup f
      pure fd.val

def sysClose (p : Fin NPROC) (fd : Int) : KM Int := do
  let k ← get
  match argfd k p fd with
  | none => pure (-1)
  | some (fd, f) =>
    onTables fun t => t.setOfile p fd none
    fileclose f
    pure 0

/-- `fileread`. What a pipe or a device returns is `other`. -/
def fileread (f : Fin NFILE) (dst : Nat → Nat → Bool) (n : UInt32) (other : Int) : KM Int := do
  let k ← get
  let ff := k.ftable f
  if ff.readable = false then pure (-1)
  else
    match ff.type with
    | .pipe => pure other
    | .device => if ff.major = CONSOLE then pure other else pure (-1)
    | .inode =>
      onVol (Vol.ilock ff.ip)
      let bs ← onVol (onFs (readi dst ff.ip ff.off n))
      onTables fun t => t.setFile f (ff.advance bs.length)
      onVol (iunlock ff.ip)
      pure bs.length
    | .none => throw .fileread

/-- The largest number of bytes `filewrite` writes in one operation. -/
def maxChunk : Nat := (MAXOPBLOCKS - 1 - 1 - 2) / 2 * BSIZE

/-- One turn of the loop of `filewrite`. -/
def writeChunk (f : Fin NFILE) (src : Source) (n1 : Nat) : KM Int :=
  transaction do
    let k ← get
    let ff := k.ftable f
    onVol (Vol.ilock ff.ip)
    let r ← onVol (onFs (writei src ff.ip ff.off (UInt32.ofNat n1)))
    if 0 < r then
      onTables fun t => t.setFile f (ff.advance r.toNat)
    onVol (iunlock ff.ip)
    pure r

/-- The loop of `filewrite`, `i` bytes into the buffer. -/
def writeChunks (f : Fin NFILE) (src : Source) (n : Nat) : Nat → Nat → KM Nat
  | 0, i => pure i
  | fuel + 1, i => do
    if i < n then
      let n1 := min (n - i) maxChunk
      let r ← writeChunk f (fun j => src (i + j)) n1
      if r < 0 then pure i
      else if r ≠ n1 then throw .shortFilewrite
      else writeChunks f src n fuel (i + n1)
    else pure i

def filewrite (f : Fin NFILE) (src : Source) (n : Int) (other : Int) : KM Int := do
  let k ← get
  let ff := k.ftable f
  if ff.writable = false then pure (-1)
  else
    match ff.type with
    | .pipe => pure other
    | .device => if ff.major = CONSOLE then pure other else pure (-1)
    | .inode =>
      let i ← writeChunks f src n.toNat n.toNat 0
      pure (if (i : Int) = n then n else -1)
    | .none => throw .filewrite

def sysRead (p : Fin NPROC) (fd : Int) (dst : Nat → Nat → Bool) (n : UInt32) (other : Int) :
    KM Int := do
  let k ← get
  match argfd k p fd with
  | none => pure (-1)
  | some (_, f) => fileread f dst n other

def sysWrite (p : Fin NPROC) (fd : Int) (src : Source) (n other : Int) : KM Int := do
  let k ← get
  match argfd k p fd with
  | none => pure (-1)
  | some (_, f) => filewrite f src n other

/-- `sys_fstat`. Whether `copyout` fails changes only what is returned. -/
def sysFstat (p : Fin NPROC) (fd : Int) (copied : Bool) : KM Int := do
  let k ← get
  match argfd k p fd with
  | none => pure (-1)
  | some (_, f) =>
    match (k.ftable f).type with
    | .inode | .device =>
      onVol (Vol.ilock (k.ftable f).ip)
      onVol (iunlock (k.ftable f).ip)
      pure (if copied then 0 else -1)
    | _ => pure (-1)

/-- `sys_pipe`. `copied` says whether the descriptors could be stored in user memory. -/
def sysPipe (p : Fin NPROC) (copied : Bool) : KM Int := do
  match ← pipealloc with
  | none => pure (-1)
  | some (rf, wf) =>
    match ← fdalloc p rf with
    | none =>
      fileclose rf
      fileclose wf
      pure (-1)
    | some fd₀ =>
      match ← fdalloc p wf with
      | none =>
        onTables fun t => t.setOfile p fd₀ none
        fileclose rf
        fileclose wf
        pure (-1)
      | some fd₁ =>
        if copied then pure 0
        else
          onTables fun t => t.setOfile p fd₀ none
          onTables fun t => t.setOfile p fd₁ none
          fileclose rf
          fileclose wf
          pure (-1)

/-- What the memory management answers during `exec`: whether there is a page table, whether the
`i`th call of `uvmalloc` succeeds, whether the page at an offset of a segment is mapped, and
whether the part after the file has been read succeeds. -/
structure ExecEnv where
  pagetable : Bool
  grows : Nat → Bool
  mapped : Nat → Nat → Bool
  starts : Bool

/-- `loadseg`, from byte `i` of the segment on: false if the file is too short. -/
def loadseg (ip : Fin NINODE) (mapped : Nat → Bool) (offset sz : Nat) : Nat → Nat → FsM Bool
  | 0, _ => pure true
  | fuel + 1, i => do
    if i < sz then
      if mapped i then
        let n := min (sz - i) PGSIZE
        let bs ← readi kernelDst ip (UInt32.ofNat (offset + i)) (UInt32.ofNat n)
        if bs.length ≠ n then pure false
        else loadseg ip mapped offset sz fuel (i + PGSIZE)
      else throw .loadsegAddress
    else pure true

/-- The loop of `exec` over the program headers: false where it goes to `bad`. -/
def loadSegments (ip : Fin NINODE) (env : ExecEnv) (elf : Elfhdr) : Nat → Nat → FsM Bool
  | 0, _ => pure true
  | fuel + 1, i => do
    if i < elf.phnum then
      let bs ← readi kernelDst ip (UInt32.ofNat (elf.phoff + 56 * i)) 56
      if bs.length ≠ 56 then pure false
      else
        let ph := Proghdr.ofBytes bs
        if ph.type ≠ ELF_PROG_LOAD then loadSegments ip env elf fuel (i + 1)
        else if ph.memsz < ph.filesz then pure false
        else if 2 ^ 64 ≤ ph.vaddr + ph.memsz then pure false
        else if env.grows i = false then pure false
        else if ph.vaddr % PGSIZE ≠ 0 then pure false
        else if ← loadseg ip (env.mapped i) ph.off (ph.filesz % 2 ^ 32) (ph.filesz % 2 ^ 32) 0 then
          loadSegments ip env elf fuel (i + 1)
        else pure false
    else pure true

/-- What `exec` reads of the file; false where it goes to `bad`. -/
def loadImage (ip : Fin NINODE) (env : ExecEnv) : FsM Bool := do
  let bs ← readi kernelDst ip 0 64
  if bs.length ≠ 64 then pure false
  else
    let elf := Elfhdr.ofBytes bs
    if elf.magic ≠ ELF_MAGIC then pure false
    else if env.pagetable = false then pure false
    else loadSegments ip env elf elf.phnum 0

/-- `exec`, up to the choice of the new memory: 0 stands for success. -/
def sysExec (p : Fin NPROC) (path : Path) (env : ExecEnv) : KM Int := do
  match path with
  | none => pure (-1)
  | some path =>
    let loaded ← transaction do
      let k ← get
      match ← onVol (namei (cwdOf k p) path) with
      | none => pure false
      | some ip =>
        onVol (Vol.ilock ip)
        let ok ← onVol (onFs (loadImage ip env))
        onVol (iunlockput ip)
        pure ok
    pure (if loaded && env.starts then 0 else -1)

/-- The part of `fork` that concerns files: the child `np` gets the descriptors of `p`. -/
def copyFiles (p np : Fin NPROC) : KM Unit := do
  (List.finRange NOFILE).forM fun i => do
    let k ← get
    match (k.proc p).ofile i with
    | none => pure ()
    | some f =>
      filedup f
      onTables fun t => t.setOfile np i (some f)

/-- `fork`. `room` says whether there is memory for the child. -/
def fork (p : Fin NPROC) (room : Bool) : KM Int := do
  let k ← get
  match (List.finRange NPROC).find? fun np => (k.proc np).state = .unused with
  | none => pure (-1)
  | some np =>
    if room then
      copyFiles p np
      let ip ← onVol (onFs (idup (cwdOf k p)))
      onTables fun t => t.setProc np (((t.proc np).setCwd (some ip)).setState .live)
      pure np.val
    else pure (-1)

def closeFiles (p : Fin NPROC) : KM Unit := do
  (List.finRange NOFILE).forM fun fd => do
    let k ← get
    match (k.proc p).ofile fd with
    | none => pure ()
    | some f =>
      fileclose f
      onTables fun t => t.setOfile p fd none

/-- The part of `exit` that concerns files. The first process never exits. -/
def exit (p : Fin NPROC) : KM Int := do
  if p = ⟨0, by decide⟩ then throw .initExiting
  else
    closeFiles p
    let k ← get
    transaction (onVol (iput (cwdOf k p)))
    onTables fun t => t.setProc p (((t.proc p).setCwd none).setState .zombie)
    pure 0

/-- `wait` frees the slot of a child that has exited. -/
def wait (child : Fin NPROC) : KM Int := do
  let k ← get
  if (k.proc child).state = .zombie then
    onTables fun t => t.setProc child ((t.proc child).setState .unused)
    pure child.val
  else pure (-1)

inductive Call where
  | open (path : Path) (omode : UInt32)
  | mkdir (path : Path)
  | mknod (path : Path) (major minor : Int16)
  | link (old new : Path)
  | unlink (path : Path)
  | chdir (path : Path)
  | dup (fd : Int)
  | close (fd : Int)
  | read (fd : Int) (dst : Nat → Nat → Bool) (n : UInt32) (other : Int)
  | write (fd : Int) (src : Source) (n other : Int)
  | fstat (fd : Int) (copied : Bool)
  | pipe (copied : Bool)
  | exec (path : Path) (env : ExecEnv)
  | fork (room : Bool)
  | exit
  | wait (child : Fin NPROC)

def syscall (p : Fin NPROC) : Call → KM Int
  | .open path omode => sysOpen p path omode
  | .mkdir path => sysMkdir p path
  | .mknod path major minor => sysMknod p path major minor
  | .link old new => sysLink p old new
  | .unlink path => sysUnlink p path
  | .chdir path => sysChdir p path
  | .dup fd => sysDup p fd
  | .close fd => sysClose p fd
  | .read fd dst n other => sysRead p fd dst n other
  | .write fd src n other => sysWrite p fd src n other
  | .fstat fd copied => sysFstat p fd copied
  | .pipe copied => sysPipe p copied
  | .exec path env => sysExec p path env
  | .fork room => fork p room
  | .exit => exit p
  | .wait child => wait child

inductive Act where
  | call (p : Fin NPROC) (c : Call)
  | take
  | give (a : Nat)

def next (k : Kernel) : Act → Outcome Kernel Panic
  | .call p c =>
    if (k.proc p).state = .live then
      match syscall p c k with
      | .ok (_, k) => .done k
      | .error .asleep => .blocked
      | .error e => .panic e
    else .blocked
  | .take =>
    match k.freelist with
    | [] => .blocked
    | a :: rest => .done { k with freelist := rest, others := a :: k.others }
  | .give a =>
    if a ∈ k.others then
      .done { k with freelist := a :: k.freelist, others := k.others.erase a }
    else .blocked

/-- The state after `userinit`: the first process has the root directory as its current
directory, and nothing else is open. -/
structure Booted (pages : List Nat) (k : Kernel) : Prop where
  nodup : pages.Nodup
  root : ∃ ip, k.proc ⟨0, by decide⟩ = ⟨.live, fun _ => none, some ip⟩ ∧
    (k.vol.inode ip).dev = ROOTDEV ∧ (k.vol.inode ip).inum = ROOTINO ∧
    ∀ jp, (k.vol.inode jp).ref = if jp = ip then 1 else 0
  proc : ∀ p, p.val ≠ 0 → k.proc p = ⟨.unused, fun _ => none, none⟩
  file : ∀ f, (k.ftable f).ref = 0 ∧ (k.ftable f).type = .none
  locked : ∀ ip, k.vol.locked ip = false
  outstanding : k.vol.fs.outstanding = 0
  logged : k.vol.fs.logged = []
  freelist : k.freelist = pages
  others : k.others = []

/-- The kernel that starts with the free pages `pages`. -/
def machine (pages : List Nat) : Machine Kernel Act Panic where
  init := Booted pages
  next := next

end Xv6.Sysfile

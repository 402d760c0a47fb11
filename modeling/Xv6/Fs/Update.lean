import Xv6.Fs.Inode

namespace Xv6.Fs

open Lib.Command

def beginOp : FsM Unit := do
  let s ← get
  if LOGSIZE < s.logged.length + (s.outstanding + 1) * MAXOPBLOCKS then throw .asleep
  else modify fun s => { s with outstanding := s.outstanding + 1 }

def endOp : FsM Unit :=
  modify fun s =>
    { s with
      outstanding := s.outstanding - 1
      logged := if s.outstanding - 1 = 0 then [] else s.logged }

def markFree (bp : Block) (bi : Nat) : Block :=
  bp.splice (bi / 8) [bp.get (bi / 8) &&& ~~~bitMask bi]

def bfree (b : Nat) : FsM Unit := do
  let s ← get
  let bno := BBLOCK b s.sb.bmapstart.toNat
  let bp ← bread bno
  if isFree bp (b % BPB) then throw .freeingFreeBlock
  else
    modify fun s => s.setBlock bno (markFree bp (b % BPB))
    logWrite bno

def iupdate (ip : Fin NINODE) : FsM Unit := do
  let s ← get
  let i := s.icache ip
  let bno := IBLOCK i.inum s.sb.inodestart.toNat
  let bp ← bread bno
  modify fun s => s.setBlock bno (bp.setDinode (i.inum % IPB) i.toDinode)
  logWrite bno

/-- The loop of `ialloc`, from inode `inum` on. -/
def iallocFrom (dev : Nat) (type : Int16) : Nat → Nat → FsM (Fin NINODE)
  | 0, _ => throw .iallocNoInodes
  | fuel + 1, inum => do
    let s ← get
    if inum < s.sb.ninodes.toNat then
      let bno := IBLOCK inum s.sb.inodestart.toNat
      let bp ← bread bno
      if (bp.dinode (inum % IPB)).type = 0 then
        modify fun s => s.setBlock bno (bp.setDinode (inum % IPB) { Dinode.zero with type := type })
        logWrite bno
        iget dev inum
      else
        iallocFrom dev type fuel (inum + 1)
    else
      throw .iallocNoInodes

/-- Allocate an inode on device `dev`. Mark it as allocated by giving it type `type`. -/
def ialloc (dev : Nat) (type : Int16) : FsM (Fin NINODE) := do
  let s ← get
  iallocFrom dev type s.sb.ninodes.toNat 1

/-- Increment the reference count of `ip`. -/
def idup (ip : Fin NINODE) : FsM (Fin NINODE) := do
  modify fun s => s.setInode ip { s.icache ip with ref := (s.icache ip).ref + 1 }
  pure ip

def edit (ip : Fin NINODE) (f : Dinode → Dinode) : FsM Unit :=
  modify fun s => s.setInode ip { s.icache ip with toDinode := f (s.icache ip).toDinode }

/-- Free the block of a slot of `addrs`, if it has one. -/
def truncSlot (ip : Fin NINODE) (k : Fin (NDIRECT + 1)) : FsM Unit := do
  let s ← get
  if (s.icache ip).addrs k ≠ 0 then
    bfree ((s.icache ip).addrs k).toNat
    edit ip fun din => din.setAddr k 0

def truncEntries (bp : Block) : FsM Unit :=
  (List.range NINDIRECT).forM fun j => do
    if bp.field 4 j ≠ 0 then bfree (bp.field 4 j)

def itrunc (ip : Fin NINODE) : FsM Unit := do
  (List.finRange NDIRECT).forM fun i => truncSlot ip i.castSucc
  let s ← get
  if (s.icache ip).addrs Dinode.indirect ≠ 0 then
    let bp ← bread ((s.icache ip).addrs Dinode.indirect).toNat
    truncEntries bp
    truncSlot ip Dinode.indirect
  edit ip fun din => { din with size := 0 }
  iupdate ip

/-- Where `writei` reads from: the byte at each position, none where the page is not mapped. -/
abbrev Source := Nat → Option UInt8

def kernelSrc (bs : List UInt8) : Source := fun k => some (bs.getD k 0)

/-- `either_copyin`: the bytes copied, fewer than `m` if an unmapped page is met. -/
def copyin (src : Source) (tot m : Nat) : List UInt8 :=
  (((List.range m).map fun j => src (tot + j)).takeWhile Option.isSome).map fun o => o.getD 0

/-- The loop of `writei`, one block at a time; `tot` when it is left. -/
def writeLoop (src : Source) (ip : Fin NINODE) (off n : Nat) : Nat → Nat → FsM Nat
  | 0, tot => pure tot
  | fuel + 1, tot => do
    if tot < n then
      let b ← bmap ip ((off + tot) / BSIZE)
      let m := min (n - tot) (BSIZE - (off + tot) % BSIZE)
      let bs := copyin src tot m
      modify fun s => s.setBlock b ((s.data b).splice ((off + tot) % BSIZE) bs)
      if bs.length < m then
        pure tot
      else
        logWrite b
        writeLoop src ip off n fuel (tot + m)
    else
      pure tot

def writei (src : Source) (ip : Fin NINODE) (off n : UInt32) : FsM Int := do
  let s ← get
  if (s.icache ip).size < off ∨ off + n < off then
    pure (-1)
  else if UInt32.ofNat (MAXFILE * BSIZE) < off + n then
    pure (-1)
  else
    let tot ← writeLoop src ip off.toNat n.toNat n.toNat 0
    if 0 < n then
      edit ip fun din => if din.size < off + UInt32.ofNat tot
        then { din with size := off + UInt32.ofNat tot } else din
      iupdate ip
    pure n.toNat

/-- Is the directory `dp` empty except for `.` and `..`? The search starts at byte `off`. -/
def isdiremptyFrom (dp : Fin NINODE) : Nat → Nat → FsM Bool
  | 0, _ => pure true
  | fuel + 1, off => do
    let s ← get
    if off < (s.icache dp).size.toNat then
      let bs ← readi kernelDst dp (UInt32.ofNat off) 16
      if bs.length ≠ 16 then throw .isdiremptyReadi
      else if (Dirent.ofBytes bs).inum ≠ 0 then pure false
      else isdiremptyFrom dp fuel (off + 16)
    else pure true

def isdirempty (dp : Fin NINODE) : FsM Bool := do
  let s ← get
  isdiremptyFrom dp ((s.icache dp).size.toNat / 16 + 1) 32

/-- The search of `dirlink` for an empty entry, from byte `off` on. -/
def emptyEntryFrom (dp : Fin NINODE) : Nat → Nat → FsM Nat
  | 0, off => pure off
  | fuel + 1, off => do
    let s ← get
    if off < (s.icache dp).size.toNat then
      let bs ← readi kernelDst dp (UInt32.ofNat off) 16
      if bs.length ≠ 16 then throw .dirlinkRead
      else if (Dirent.ofBytes bs).inum = 0 then pure off
      else emptyEntryFrom dp fuel (off + 16)
    else pure off

/-- The entry that `dirlink` stores. -/
def newEntry (name : List UInt8) (inum : Nat) : Dirent where
  inum := UInt16.ofNat inum
  name := strncpy name DIRSIZ
  length_name := length_strncpy name DIRSIZ

/-- The second half of `dirlink`: store a new entry in the first empty one, or at the end. -/
def addEntry (dp : Fin NINODE) (name : List UInt8) (inum : Nat) : FsM Unit := do
  let s ← get
  let off ← emptyEntryFrom dp ((s.icache dp).size.toNat / 16 + 1) 0
  let r ← writei (kernelSrc (newEntry name inum).toBytes) dp (UInt32.ofNat off) 16
  if r ≠ 16 then throw .dirlink

def skipelem (path : List UInt8) : Option (List UInt8 × List UInt8) :=
  let path := path.dropWhile (· = 47)
  if path = [] then none
  else
    let rest := path.dropWhile (· ≠ 47)
    some ((path.takeWhile (· ≠ 47)).take DIRSIZ, rest.dropWhile (· = 47))

end Xv6.Fs

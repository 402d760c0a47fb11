import Xv6.CString
import Xv6.Fs.Layout
import Xv6.Lib.Command
import Xv6.Log.Commit

namespace Xv6.Fs

open Lib.Command Lib.WriteTrace

/-- `struct inode`, the in-memory copy of an inode. -/
structure Inode extends Dinode where
  dev : Nat
  inum : Nat
  ref : Nat
  valid : Bool

inductive Panic
  | invalidFileSystem
  | tooBigTransaction
  | logWriteOutsideOfTrans
  | ballocOutOfBlocks
  | freeingFreeBlock
  | iallocNoInodes
  | igetNoInodes
  | ilock
  | ilockNoType
  | iunlock
  | bmapOutOfRange
  | dirlookupNotDir
  | dirlookupRead
  | dirlinkRead
  | dirlink
  | isdiremptyReadi
  | unlinkNlink
  | unlinkWritei
  | createDots
  | createDirlink
  | filedup
  | fileclose
  | fileread
  | filewrite
  | shortFilewrite
  | loadsegAddress
  | initExiting
  | asleep
  deriving DecidableEq, Repr

/-- What the file system works on: the super block, each block as `bread` gives
it, `log.outstanding`, `log.lh.block` and the inode cache. -/
structure State where
  sb : Superblock
  data : Disk
  outstanding : Nat
  logged : List Nat
  icache : Fin NINODE → Inode

abbrev FsM := Cmd State Panic

namespace State

def setBlock (s : State) (b : Nat) (x : Block) : State :=
  { s with data := Function.update s.data b x }

def setInode (s : State) (ip : Fin NINODE) (i : Inode) : State :=
  { s with icache := Function.update s.icache ip i }

end State

/-- The inode cache after `iinit`. -/
def noInode : Inode := { Dinode.zero with dev := 0, inum := 0, ref := 0, valid := false }

/-- Read the super block and recover from the log. -/
def fsinit (d : Disk) : Except Panic State :=
  let sb := Superblock.ofBytes ((d 1).slice 0 32)
  if sb.magic ≠ FSMAGIC then .error .invalidFileSystem
  else
    -- the size of the log plays no role in recovery
    let log : Log.LogArea := ⟨sb.logstart.toNat, max sb.nlog.toNat 1, by omega⟩
    .ok ⟨sb, exec (Log.recoverFromLog log) d, 0, [], fun _ => noInode⟩

def bread (b : Nat) : FsM Block := do
  let s ← get
  pure (s.data b)

def logWrite (b : Nat) : FsM Unit := do
  let s ← get
  if LOGSIZE ≤ s.logged.length ∨ s.sb.nlog.toNat ≤ s.logged.length + 1 then
    throw .tooBigTransaction
  else if s.outstanding < 1 then
    throw .logWriteOutsideOfTrans
  else if b ∈ s.logged then
    pure ()
  else
    modify fun s => { s with logged := s.logged ++ [b] }

def bzero (b : Nat) : FsM Unit := do
  modify fun s => s.setBlock b Block.zeroes
  logWrite b

def bitMask (bi : Nat) : UInt8 := 1 <<< UInt8.ofNat (bi % 8)

/-- `(bp->data[bi/8] & m) == 0`. -/
def isFree (bp : Block) (bi : Nat) : Bool := bp.get (bi / 8) &&& bitMask bi == 0

def markUsed (bp : Block) (bi : Nat) : Block :=
  bp.splice (bi / 8) [bp.get (bi / 8) ||| bitMask bi]

/-- The inner loop of `balloc`, over the bits of one block of the free map. -/
def freeBit (bp : Block) (b size : Nat) : Option Nat :=
  ((List.range BPB).takeWhile fun bi => b + bi < size).find? (isFree bp)

/-- The outer loop of `balloc`, from the bit of block `b` on. -/
def ballocFrom : Nat → Nat → FsM Nat
  | 0, _ => throw .ballocOutOfBlocks
  | fuel + 1, b => do
    let sb := (← get).sb
    if b < sb.size.toNat then
      let bno := BBLOCK b sb.bmapstart.toNat
      let bp ← bread bno
      match freeBit bp b sb.size.toNat with
      | some bi =>
        modify fun s => s.setBlock bno (markUsed bp bi)
        logWrite bno
        bzero (b + bi)
        pure (b + bi)
      | none => ballocFrom fuel (b + BPB)
    else
      throw .ballocOutOfBlocks

def balloc : FsM Nat := do
  let s ← get
  ballocFrom (s.sb.size.toNat / BPB + 1) 0

/-- Find the inode with number `inum` on device `dev` and return the in-memory
copy. Neither locks the inode nor reads it from disk. -/
def iget (dev inum : Nat) : FsM (Fin NINODE) := do
  let s ← get
  match (List.finRange NINODE).find? fun ip =>
      0 < (s.icache ip).ref ∧ (s.icache ip).dev = dev ∧ (s.icache ip).inum = inum with
  | some ip =>
    modify fun s => s.setInode ip { s.icache ip with ref := (s.icache ip).ref + 1 }
    pure ip
  | none =>
    match (List.finRange NINODE).find? fun ip => (s.icache ip).ref = 0 with
    | some ip =>
      modify fun s =>
        s.setInode ip { s.icache ip with dev := dev, inum := inum, ref := 1, valid := false }
      pure ip
    | none => throw .igetNoInodes

def ilock (ip : Fin NINODE) : FsM Unit := do
  let s ← get
  let i := s.icache ip
  if i.ref < 1 then
    throw .ilock
  else if i.valid then
    pure ()
  else
    let bp ← bread (IBLOCK i.inum s.sb.inodestart.toNat)
    let dip := bp.dinode (i.inum % IPB)
    modify fun s => s.setInode ip { i with toDinode := dip, valid := true }
    if dip.type = 0 then throw .ilockNoType

/-- Return the disk block address of the `bn`th block in inode `ip`. If there is
no such block, `bmap` allocates one. -/
def bmap (ip : Fin NINODE) (bn : Nat) : FsM Nat := do
  if h : bn < NDIRECT then
    direct ⟨bn, by omega⟩
  else if bn - NDIRECT < NINDIRECT then
    -- Load indirect block, allocating if necessary.
    let ind ← direct Dinode.indirect
    let bp ← bread ind
    let addr := bp.field 4 (bn - NDIRECT)
    if addr = 0 then
      let a ← balloc
      modify fun s => s.setBlock ind ((s.data ind).setField 4 (bn - NDIRECT) a)
      logWrite ind
      pure a
    else
      pure addr
  else
    throw .bmapOutOfRange
where
  direct (k : Fin (NDIRECT + 1)) : FsM Nat := do
    let s ← get
    if (s.icache ip).addrs k = 0 then
      let a ← balloc
      modify fun s =>
        s.setInode ip { s.icache ip with toDinode := (s.icache ip).toDinode.setAddr k a }
      pure a
    else
      pure ((s.icache ip).addrs k).toNat

/-- The loop of `readi`: the bytes from `off + tot` on, one block at a time. The
destination takes the `m` bytes at `tot` if `dst tot m`. -/
def readLoop (dst : Nat → Nat → Bool) (ip : Fin NINODE) (off n : Nat) :
    Nat → Nat → FsM (List UInt8)
  | 0, _ => pure []
  | fuel + 1, tot => do
    if tot < n then
      let b ← bmap ip ((off + tot) / BSIZE)
      let bp ← bread b
      let m := min (n - tot) (BSIZE - (off + tot) % BSIZE)
      if dst tot m then
        let rest ← readLoop dst ip off n fuel (tot + m)
        pure (bp.slice ((off + tot) % BSIZE) m ++ rest)
      else
        pure []
    else
      pure []

/-- Read data from inode: the bytes copied out, `tot` of them. -/
def readi (dst : Nat → Nat → Bool) (ip : Fin NINODE) (off n : UInt32) : FsM (List UInt8) := do
  let s ← get
  let size := (s.icache ip).size
  if size < off ∨ off + n < off then
    pure []
  else
    let n := if size < off + n then size - off else n
    readLoop dst ip off.toNat n.toNat n.toNat 0

def kernelDst : Nat → Nat → Bool := fun _ _ => true

theorem kernelDst_accepts (tot m : Nat) : kernelDst tot m := rfl

def namecmp (s t : List UInt8) : Int := strncmp s t DIRSIZ

/-- The test `dirlookup` makes on an entry. -/
def Dirent.Matches (de : Dirent) (name : List UInt8) : Prop :=
  de.inum ≠ 0 ∧ namecmp name de.name = 0

instance (de : Dirent) (name : List UInt8) : Decidable (de.Matches name) :=
  inferInstanceAs (Decidable (_ ∧ _))

/-- The loop of `dirlookup`, from byte `off` of the directory on. -/
def dirlookupFrom (dp : Fin NINODE) (name : List UInt8) :
    Nat → Nat → FsM (Option (Fin NINODE × Nat))
  | 0, _ => pure none
  | fuel + 1, off => do
    let s ← get
    if off < (s.icache dp).size.toNat then
      let bs ← readi kernelDst dp (UInt32.ofNat off) 16
      if bs.length ≠ 16 then
        throw .dirlookupRead
      else
        let de := Dirent.ofBytes bs
        if de.Matches name then
          let ip ← iget (s.icache dp).dev de.inum.toNat
          pure (some (ip, off))
        else
          dirlookupFrom dp name fuel (off + 16)
    else
      pure none

def dirlookup (dp : Fin NINODE) (name : List UInt8) : FsM (Option (Fin NINODE × Nat)) := do
  let s ← get
  if (s.icache dp).type ≠ T_DIR then
    throw .dirlookupNotDir
  else
    dirlookupFrom dp name ((s.icache dp).size.toNat / 16 + 1) 0

end Xv6.Fs

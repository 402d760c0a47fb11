import Xv6.CString
import Xv6.Fs.Inode

namespace Xv6.Mkfs

open Fs Lib.Command

def NINODES : Nat := 200

-- Disk layout:
-- [ boot block | sb block | log | inode blocks | free bit map | data blocks ]

def nbitmap : Nat := FSSIZE / (BSIZE * 8) + 1

def ninodeblocks : Nat := NINODES / IPB + 1

def nlog : Nat := LOGSIZE

def inodestart : Nat := 2 + nlog

def bmapstart : Nat := 2 + nlog + ninodeblocks

/-- Number of meta blocks (boot, sb, `nlog`, inode, bitmap). -/
def nmeta : Nat := 2 + nlog + ninodeblocks + nbitmap

def nblocks : Nat := FSSIZE - nmeta

def sb : Superblock where
  magic := FSMAGIC
  size := UInt32.ofNat FSSIZE
  nblocks := UInt32.ofNat nblocks
  ninodes := UInt32.ofNat NINODES
  nlog := UInt32.ofNat nlog
  logstart := 2
  inodestart := UInt32.ofNat inodestart
  bmapstart := UInt32.ofNat bmapstart

/-- Where `mkfs` stops without success: a `read` of the image that comes back
short, or a failed assertion. -/
inductive Exit
  | read
  | rootino
  | slashInName
  | fileTooBig
  | tooManyBlocks
  deriving DecidableEq, Repr

/-- The image file, `length` sectors long, and the two counters. -/
structure Image where
  disk : Disk
  length : Nat
  freeinode : Nat
  freeblock : Nat

abbrev M := Cmd Image Exit

def wsect (sec : Nat) (buf : Block) : M Unit :=
  modify fun s =>
    { s with disk := Function.update s.disk sec buf, length := max s.length (sec + 1) }

def rsect (sec : Nat) : M Block := do
  let s ← get
  if sec < s.length then pure (s.disk sec) else throw .read

def winode (inum : Nat) (din : Dinode) : M Unit := do
  let buf ← rsect (IBLOCK inum inodestart)
  wsect (IBLOCK inum inodestart) (buf.setDinode (inum % IPB) din)

def rinode (inum : Nat) : M Dinode := do
  let buf ← rsect (IBLOCK inum inodestart)
  pure (buf.dinode (inum % IPB))

def ialloc (type : Int16) : M Nat := do
  let s ← get
  modify fun s => { s with freeinode := s.freeinode + 1 }
  winode s.freeinode { Dinode.zero with type := type, nlink := 1 }
  pure s.freeinode

/-- The free map in which the first `used` blocks are marked. -/
def bitmap (used : Nat) : Block := (List.range used).foldl markUsed Block.zeroes

def balloc (used : Nat) : M Unit :=
  if used < BSIZE * 8 then wsect bmapstart (bitmap used) else throw .tooManyBlocks

/-- `freeblock++`. -/
def nextBlock : M Nat := do
  let s ← get
  modify fun s => { s with freeblock := s.freeblock + 1 }
  pure s.freeblock

/-- The address in `addrs[k]`, a new one if it is zero. -/
def directBlock (din : Dinode) (k : Fin (NDIRECT + 1)) : M (Nat × Dinode) :=
  if din.addrs k = 0 then do
    let b ← nextBlock
    pure (b, din.setAddr k b)
  else
    pure ((din.addrs k).toNat, din)

/-- The address in entry `k` of the indirect block `ind`, a new one if it is zero. -/
def indirectBlock (din : Dinode) (ind k : Nat) : M (Nat × Dinode) := do
  let indirect ← rsect ind
  if indirect.field 4 k = 0 then
    let b ← nextBlock
    wsect ind (indirect.setField 4 k b)
    pure (b, din)
  else
    pure (indirect.field 4 k, din)

/-- The block `x` for file block `fbn`, allocated if there is none. -/
def fileBlock (din : Dinode) (fbn : Nat) : M (Nat × Dinode) :=
  if h : fbn < NDIRECT then
    directBlock din ⟨fbn, Nat.lt_succ_of_lt h⟩
  else do
    let (ind, din) ← directBlock din Dinode.indirect
    indirectBlock din ind (fbn - NDIRECT)

/-- One pass of the loop of `iappend`: store bytes that all go to the block of
`off`. -/
def storeChunk (din : Dinode) (off : Nat) (p : List UInt8) : M Dinode := do
  let fbn := off / BSIZE
  let (x, din) ← fileBlock din fbn
  let buf ← rsect x
  wsect x (buf.splice (off - fbn * BSIZE) p)
  pure din

/-- The loop of `iappend`, with the bytes `p` still to be stored at `off`. -/
def appendLoop : Nat → Dinode → Nat → List UInt8 → M (Dinode × Nat)
  | 0, din, off, _ => pure (din, off)
  | fuel + 1, din, off, p =>
    if p = [] then
      pure (din, off)
    else if off / BSIZE < MAXFILE then do
      let n1 := min p.length ((off / BSIZE + 1) * BSIZE - off)
      let din ← storeChunk din off (p.take n1)
      appendLoop fuel din (off + n1) (p.drop n1)
    else
      throw .fileTooBig

def iappend (inum : Nat) (p : List UInt8) : M Unit := do
  let din ← rinode inum
  let (din, off) ← appendLoop p.length din din.size.toNat p
  winode inum { din with size := UInt32.ofNat off }

def ascii (s : String) : List UInt8 := s.toList.map fun c => UInt8.ofNat c.toNat

/-- An argument of `mkfs` after the image, and what the calls of `read` return for
that file before the last one. -/
structure Input where
  path : List UInt8
  noNul : 0 ∉ path
  chunks : List (List UInt8)
  chunk_pos : ∀ c ∈ chunks, 0 < c.length
  chunk_le : ∀ c ∈ chunks, c.length ≤ BSIZE

namespace Input

def bytes (f : Input) : List UInt8 := f.chunks.flatten

/-- Get rid of `user/`. -/
def shortname (f : Input) : List UInt8 :=
  if strncmp f.path (ascii "user/") 5 = 0 then f.path.drop 5 else f.path

/-- Skip leading `_` in name when writing to file system. -/
def name (f : Input) : List UInt8 :=
  if f.shortname.head? = some 95 then f.shortname.tail else f.shortname

end Input

/-- Write zeroes to the first `n` sectors. -/
def clear (n : Nat) : M Unit := (List.range n).forM fun i => wsect i Block.zeroes

/-- A directory entry, filled in by `strncpy`. -/
def entry (inum : Nat) (name : List UInt8) : Dirent :=
  ⟨UInt16.ofNat inum, strncpy name DIRSIZ, length_strncpy name DIRSIZ⟩

def addFile (rootino : Nat) (f : Input) : M Unit :=
  if 47 ∈ f.shortname then throw .slashInName
  else do
    let inum ← ialloc T_FILE
    iappend rootino (entry inum f.name).toBytes
    f.chunks.forM (iappend inum)

/-- The root directory with its entries `.` and `..`. -/
def makeRoot : M Nat := do
  let rootino ← ialloc T_DIR
  if rootino ≠ ROOTINO then throw .rootino
  else
    iappend rootino (entry rootino (ascii ".")).toBytes
    iappend rootino (entry rootino (ascii "..")).toBytes
    pure rootino

def fixRoot (rootino : Nat) : M Unit := do
  let din ← rinode rootino
  let off := din.size.toNat
  winode rootino { din with size := UInt32.ofNat ((off / BSIZE + 1) * BSIZE) }

def main (files : List Input) : M Unit := do
  clear FSSIZE
  wsect 1 (Block.zeroes.splice 0 sb.toBytes)
  let rootino ← makeRoot
  files.forM (addFile rootino)
  fixRoot rootino
  let s ← get
  balloc s.freeblock

/-- The image file when `mkfs` has just opened it. -/
def empty : Image := ⟨fun _ => Block.zeroes, 0, 1, nmeta⟩

end Xv6.Mkfs

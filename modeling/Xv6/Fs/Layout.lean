import Xv6.Block
import Xv6.Lib.Record

namespace Xv6.Fs

open Lib.Record

def ROOTINO : Nat := 1

def NDIRECT : Nat := 12

def NINDIRECT : Nat := BSIZE / 4

def MAXFILE : Nat := NDIRECT + NINDIRECT

def T_DIR : Int16 := 1

def T_FILE : Int16 := 2

def T_DEVICE : Int16 := 3

/-- `struct superblock`. -/
@[ext] structure Superblock where
  magic : UInt32
  size : UInt32
  nblocks : UInt32
  ninodes : UInt32
  nlog : UInt32
  logstart : UInt32
  inodestart : UInt32
  bmapstart : UInt32

def FSMAGIC : UInt32 := 0x10203040

namespace Superblock

def toBytes (sb : Superblock) : List UInt8 :=
  encode [(4, sb.magic.toNat), (4, sb.size.toNat), (4, sb.nblocks.toNat), (4, sb.ninodes.toNat),
    (4, sb.nlog.toNat), (4, sb.logstart.toNat), (4, sb.inodestart.toNat), (4, sb.bmapstart.toNat)]

def ofBytes (bs : List UInt8) : Superblock :=
  let f := fun i => UInt32.ofNat ((decode (List.replicate 8 4) bs).getD i 0)
  ⟨f 0, f 1, f 2, f 3, f 4, f 5, f 6, f 7⟩

theorem length_toBytes (sb : Superblock) : sb.toBytes.length = 32 := by
  simp [toBytes, length_encode]

theorem ofBytes_toBytes (sb : Superblock) : ofBytes sb.toBytes = sb := by
  have h := decode_encode [(4, sb.magic.toNat), (4, sb.size.toNat), (4, sb.nblocks.toNat),
    (4, sb.ninodes.toNat), (4, sb.nlog.toNat), (4, sb.logstart.toNat), (4, sb.inodestart.toNat),
    (4, sb.bmapstart.toNat)]
  simp only [List.map_cons, List.map_nil] at h
  simp only [ofBytes, toBytes, List.replicate]
  rw [h]
  ext <;> simp

end Superblock

/-- `struct dinode`, the on-disk inode. -/
@[ext] structure Dinode where
  type : Int16
  major : Int16
  minor : Int16
  nlink : Int16
  size : UInt32
  addrs : Fin (NDIRECT + 1) → UInt32

namespace Dinode

/-- The slot of the indirect block in `addrs`. -/
def indirect : Fin (NDIRECT + 1) := Fin.last NDIRECT

def zero : Dinode := ⟨0, 0, 0, 0, 0, fun _ => 0⟩

def setAddr (d : Dinode) (k : Fin (NDIRECT + 1)) (a : Nat) : Dinode :=
  { d with addrs := Function.update d.addrs k (UInt32.ofNat a) }

def fields (d : Dinode) : List (Nat × Nat) :=
  [(2, d.type.toUInt16.toNat), (2, d.major.toUInt16.toNat), (2, d.minor.toUInt16.toNat),
    (2, d.nlink.toUInt16.toNat), (4, d.size.toNat)] ++ List.ofFn fun k => (4, (d.addrs k).toNat)

def toBytes (d : Dinode) : List UInt8 := encode d.fields

def widths : List Nat := [2, 2, 2, 2, 4] ++ List.replicate (NDIRECT + 1) 4

def ofBytes (bs : List UInt8) : Dinode :=
  let f := decode widths bs
  { type := (UInt16.ofNat (f.getD 0 0)).toInt16
    major := (UInt16.ofNat (f.getD 1 0)).toInt16
    minor := (UInt16.ofNat (f.getD 2 0)).toInt16
    nlink := (UInt16.ofNat (f.getD 3 0)).toInt16
    size := UInt32.ofNat (f.getD 4 0)
    addrs := fun k => UInt32.ofNat (f.getD (5 + k) 0) }

theorem map_fst_fields (d : Dinode) : d.fields.map Prod.fst = widths := by
  rw [fields, List.map_append, List.map_ofFn, widths, Function.comp_def, List.ofFn_const]
  rfl

theorem length_toBytes (d : Dinode) : d.toBytes.length = 64 := by
  rw [toBytes, length_encode, map_fst_fields]
  rfl

theorem ofBytes_toBytes (d : Dinode) : ofBytes d.toBytes = d := by
  have h : decode widths d.toBytes = d.fields.map fun f => f.2 % 256 ^ f.1 := by
    rw [← d.map_fst_fields]
    exact decode_encode d.fields
  have ha : ∀ k : Fin (NDIRECT + 1), (d.fields.map fun f => f.2 % 256 ^ f.1).getD (5 + k) 0 =
      (d.addrs k).toNat := by
    intro k
    have hk : 5 + k.val - 5 = k.val := by omega
    rw [fields, List.map_append, List.getD_eq_getElem?_getD,
      List.getElem?_append_right (Nat.le_add_right 5 k), List.map_ofFn]
    simp [-List.ofFn_succ, hk, Nat.le_of_lt_succ k.isLt]
  simp only [ofBytes, h]
  ext k
  case addrs => simp only [ha, UInt32.ofNat_toNat]
  all_goals simp [fields, Int16.toInt16_toUInt16]

end Dinode

def IPB : Nat := BSIZE / 64

/-- Block containing inode `i`. -/
def IBLOCK (i inodestart : Nat) : Nat := i / IPB + inodestart

def BPB : Nat := BSIZE * 8

/-- Block of free map containing bit for block `b`. -/
def BBLOCK (b bmapstart : Nat) : Nat := b / BPB + bmapstart

def DIRSIZ : Nat := 14

/-- `struct dirent`; a directory is a file containing a sequence of them. -/
@[ext] structure Dirent where
  inum : UInt16
  name : List UInt8
  length_name : name.length = DIRSIZ

namespace Dirent

def toBytes (de : Dirent) : List UInt8 := bytesOfNat 2 de.inum.toNat ++ de.name

def ofBytes (bs : List UInt8) : Dirent where
  inum := UInt16.ofNat (natOfList (bs.take 2))
  name := List.ofFn fun k : Fin DIRSIZ => bs.getD (2 + k) 0
  length_name := List.length_ofFn

@[simp] theorem length_toBytes (de : Dirent) : de.toBytes.length = 16 := by
  simp [toBytes, de.length_name, DIRSIZ]

theorem ofBytes_toBytes (de : Dirent) : ofBytes de.toBytes = de := by
  have hl : (bytesOfNat 2 de.inum.toNat).length = 2 := length_bytesOfNat _ _
  ext1
  · simp [ofBytes, toBytes, List.take_left' hl, natOfList_bytesOfNat]
  · apply List.ext_getElem
    · rw [(ofBytes _).length_name, de.length_name]
    · intro k hk hk'
      simp [ofBytes, toBytes, List.getD_eq_getElem?_getD, List.getElem?_append_right, hl, hk']

end Dirent

end Xv6.Fs

namespace Xv6.Block

open Fs

/-- `((struct dinode*)data)[i]` of a block of inodes. -/
def dinode (b : Block) (i : Nat) : Dinode := Dinode.ofBytes (b.slice (64 * i) 64)

def setDinode (b : Block) (i : Nat) (d : Dinode) : Block := b.splice (64 * i) d.toBytes

theorem dinode_setDinode_self (b : Block) {i : Nat} (d : Dinode) (h : i < IPB) :
    (b.setDinode i d).dinode i = d := by
  have hb : 64 * i + d.toBytes.length ≤ BSIZE := by
    rw [d.length_toBytes]
    change i < 16 at h
    change _ ≤ 1024
    omega
  have hs := b.slice_splice_self hb
  rw [d.length_toBytes] at hs
  rw [dinode, setDinode, hs, d.ofBytes_toBytes]

theorem dinode_setDinode_ne (b : Block) {i j : Nat} (d : Dinode) (h : j ≠ i) :
    (b.setDinode i d).dinode j = b.dinode j := by
  rw [dinode, setDinode, slice_splice_disjoint b (by rw [d.length_toBytes]; omega), dinode]

end Xv6.Block

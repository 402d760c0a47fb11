import Xv6.Lib.Record

namespace Xv6

open Lib.Record

/-- The fields of `struct elfhdr` and `struct proghdr` that `exec` looks at. -/
structure Elfhdr where
  magic : Nat
  entry : Nat
  phoff : Nat
  phnum : Nat

structure Proghdr where
  type : Nat
  off : Nat
  vaddr : Nat
  filesz : Nat
  memsz : Nat
  deriving DecidableEq

def ELF_MAGIC : Nat := 0x464C457F

def ELF_PROG_LOAD : Nat := 1

/-- The number in the `w` bytes from `start` on. -/
def numAt (bs : List UInt8) (start w : Nat) : Nat := natOfList ((bs.drop start).take w)

def Elfhdr.ofBytes (bs : List UInt8) : Elfhdr :=
  ⟨numAt bs 0 4, numAt bs 24 8, numAt bs 32 8, numAt bs 56 2⟩

def Proghdr.ofBytes (bs : List UInt8) : Proghdr :=
  ⟨numAt bs 0 4, numAt bs 8 8, numAt bs 16 8, numAt bs 32 8, numAt bs 40 8⟩

theorem numAt_lt (bs : List UInt8) (start w : Nat) : numAt bs start w < 256 ^ w := by
  have hlt := Lib.Bytes.natOfBytes_lt (fun j => ((bs.drop start).take w).getD j 0)
    ((bs.drop start).take w).length
  exact hlt.trans_le (Nat.pow_le_pow_right (by decide) (List.length_take_le w _))

end Xv6

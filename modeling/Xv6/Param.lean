import Mathlib.Tactic

namespace Xv6

def NPROC : Nat := 64

instance : NeZero NPROC := ⟨by decide⟩

def NCPU : Nat := 8

instance : NeZero NCPU := ⟨by decide⟩

def NOFILE : Nat := 16

def NFILE : Nat := 100

def NINODE : Nat := 50

theorem NINODE_pos : 0 < NINODE := by decide

def NDEV : Nat := 10

def ROOTDEV : Nat := 1

def MAXOPBLOCKS : Nat := 10

def LOGSIZE : Nat := MAXOPBLOCKS * 3

def NBUF : Nat := MAXOPBLOCKS * 3

theorem NBUF_pos : 0 < NBUF := by decide

theorem one_lt_NBUF : 1 < NBUF := by decide

def FSSIZE : Nat := 1000

def BSIZE : Nat := 1024

def PGSIZE : Nat := 4096

end Xv6

import Xv6.Block
import Xv6.Lib.WriteTrace

namespace Xv6.Log

open Lib.WriteTrace

/-- Where the on-disk log lies: the header block `start`, followed by
`size - 1` blocks for the logged data. -/
structure LogArea where
  start : Nat
  size : Nat
  size_pos : 0 < size

namespace LogArea

def Contains (lg : LogArea) (b : Nat) : Prop := lg.start ≤ b ∧ b < lg.start + lg.size

instance (lg : LogArea) (b : Nat) : Decidable (lg.Contains b) := inferInstanceAs (Decidable (_ ∧ _))

theorem contains_start (lg : LogArea) : lg.Contains lg.start :=
  ⟨le_rfl, Nat.lt_add_of_pos_right lg.size_pos⟩

theorem contains_data (lg : LogArea) {tail : Nat} (h : tail + 1 < lg.size) :
    lg.Contains (lg.start + tail + 1) := ⟨by omega, by omega⟩

end LogArea

/-- `struct logheader`, used for both the on-disk header block and to keep
track in memory of logged block numbers before commit. Only `block[0..n)` is
kept, so `n` is the length of the list. -/
structure LogHeader where
  block : List Nat
  length_le : block.length ≤ LOGSIZE
  isUint : ∀ b ∈ block, b < 2 ^ 32

namespace LogHeader

def n (lh : LogHeader) : Nat := lh.block.length

end LogHeader

/-- The value of a C `int` stored in four bytes. -/
def intOfWord (w : Nat) : Int := if w < 2 ^ 31 then w else w - 2 ^ 32

/-- The block numbers `read_head` takes from a header block: word 0 is `n`,
the `n` words after it are `block[0..n)`. -/
def readHead (b : Block) : List Nat :=
  (List.range (intOfWord (b.field 4 0)).toNat).map fun i => b.field 4 (i + 1)

/-- Store `block[i..)` into the words from `i + 1` on. -/
def putBlocks (b : Block) : Nat → List Nat → Block
  | _, [] => b
  | i, x :: xs => putBlocks (b.setField 4 (i + 1) x) (i + 1) xs

/-- The header block after `hb->n = log.lh.n` and the copying of `block[0..n)`,
where `bs` is `log.lh.block[0..n)`. -/
def putHead (bs : List Nat) (b : Block) : Block := putBlocks (b.setField 4 0 bs.length) 0 bs

/-- Copy modified blocks from cache to log; `cache b` is what `bread` returns for
a block the transaction holds in the cache. -/
def writeLog (lg : LogArea) (cache : Nat → Block) : Nat → List Nat → Prog Nat Block
  | _, [] => skip
  | tail, b :: bs =>
    seq (write (lg.start + tail + 1) fun _ => cache b) (writeLog lg cache (tail + 1) bs)

def writeHead (lg : LogArea) (bs : List Nat) : Prog Nat Block :=
  write lg.start fun d => putHead bs (d lg.start)

def installTrans (lg : LogArea) : Nat → List Nat → Prog Nat Block
  | _, [] => skip
  | tail, b :: bs =>
    seq (write b fun d => d (lg.start + tail + 1)) (installTrans lg (tail + 1) bs)

def commit (lg : LogArea) (lh : LogHeader) (cache : Nat → Block) : Prog Nat Block :=
  if 0 < lh.n then
    seq (writeLog lg cache 0 lh.block)
      (seq (writeHead lg lh.block) (seq (installTrans lg 0 lh.block) (writeHead lg [])))
  else skip

def recoverFromLog (lg : LogArea) : Prog Nat Block := fun d =>
  seq (installTrans lg 0 (readHead (d lg.start))) (writeHead lg []) d

theorem field_putBlocks_of_le (b : Block) (i : Nat) (xs : List Nat) {j : Nat} (h : j ≤ i) :
    (putBlocks b i xs).field 4 j = b.field 4 j := by
  induction xs generalizing b i with
  | nil => rfl
  | cons x xs ih =>
    rw [putBlocks, ih _ _ (by omega), Block.field_setField_ne _ _ (by omega)]

theorem field_putBlocks (b : Block) (i : Nat) (xs : List Nat) (hlen : i + xs.length < 256)
    (hx : ∀ x ∈ xs, x < 2 ^ 32) (k : Nat) (hk : k < xs.length) :
    (putBlocks b i xs).field 4 (i + k + 1) = xs[k] := by
  induction xs generalizing b i k with
  | nil => simp at hk
  | cons x xs ih =>
    simp only [List.length_cons] at hlen hk
    cases k with
    | zero =>
      rw [putBlocks, field_putBlocks_of_le _ _ _ (by omega),
        Block.field_setField_self _ _ (by simp only [BSIZE]; omega)]
      exact Nat.mod_eq_of_lt (hx x (by simp))
    | succ k =>
      have h := ih (b.setField 4 (i + 1) x) (i + 1) (by omega)
        (fun y hy => hx y (by simp [hy])) k (by omega)
      rw [putBlocks, List.getElem_cons_succ, ← h]
      congr 1
      omega

theorem readHead_putHead (lh : LogHeader) (b : Block) :
    readHead (putHead lh.block b) = lh.block := by
  have hlen : lh.block.length ≤ 30 := lh.length_le
  have hn : (putHead lh.block b).field 4 0 = lh.block.length := by
    rw [putHead, field_putBlocks_of_le _ _ _ le_rfl,
      Block.field_setField_self _ _ (by simp [BSIZE])]
    omega
  have hi : (intOfWord lh.block.length).toNat = lh.block.length := by
    rw [intOfWord, if_pos (by omega), Int.toNat_natCast]
  apply List.ext_getElem
  · simp only [readHead, List.length_map, List.length_range, hn, hi]
  · intro k hk hk'
    simp only [readHead, List.getElem_map, List.getElem_range]
    have h := field_putBlocks (b.setField 4 0 lh.block.length) 0 lh.block (by omega) lh.isUint k hk'
    rw [Nat.zero_add] at h
    exact h

end Xv6.Log

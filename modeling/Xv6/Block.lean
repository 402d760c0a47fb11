import Xv6.Lib.Bytes
import Xv6.Param

namespace Xv6

open Lib.Bytes

/-- The contents of one disk block, `uchar data[BSIZE]`. -/
abbrev Block := Fin BSIZE → UInt8

abbrev Disk := Nat → Block

namespace Block

def get (b : Block) (k : Nat) : UInt8 := if h : k < BSIZE then b ⟨k, h⟩ else 0

def field (w : Nat) (b : Block) (i : Nat) : Nat := natOfBytes (fun j => b.get (w * i + j)) w

def setField (w : Nat) (b : Block) (i v : Nat) : Block :=
  fun k => if k.val / w = i then byteOfNat v (k.val % w) else b k

theorem field_setField_self {w : Nat} (b : Block) {i : Nat} (v : Nat) (h : w * (i + 1) ≤ BSIZE) :
    (b.setField w i v).field w i = v % 256 ^ w := by
  have e : ∀ j < w, (b.setField w i v).get (w * i + j) = byteOfNat v j := by
    intro j hj
    have hk : w * i + j < BSIZE := by rw [Nat.mul_succ] at h; omega
    have hd : (w * i + j) / w = i := by
      rw [Nat.mul_add_div (by omega), Nat.div_eq_of_lt hj, Nat.add_zero]
    have hm : (w * i + j) % w = j := by rw [Nat.mul_add_mod, Nat.mod_eq_of_lt hj]
    simp [get, hk, setField, hd, hm]
  rw [field, natOfBytes_congr e, natOfBytes_byteOfNat]

theorem field_setField_ne {w : Nat} (b : Block) {i j : Nat} (v : Nat) (h : j ≠ i) :
    (b.setField w i v).field w j = b.field w j := by
  apply natOfBytes_congr
  intro k hk
  have hd : (w * j + k) / w ≠ i := by
    rw [Nat.mul_add_div (by omega), Nat.div_eq_of_lt hk, Nat.add_zero]
    exact h
  simp only [get, setField, hd, if_false]

def slice (b : Block) (off n : Nat) : List UInt8 := (List.range n).map fun j => b.get (off + j)

/-- The block after a copy of `bs` to its bytes from `off` on. -/
def splice (b : Block) (off : Nat) (bs : List UInt8) : Block :=
  fun k => if off ≤ k.val ∧ k.val < off + bs.length then bs.getD (k.val - off) 0 else b k

def zeroes : Block := fun _ => 0

@[simp] theorem get_zeroes (k : Nat) : zeroes.get k = 0 := by simp [get, zeroes]

@[simp] theorem length_slice (b : Block) (off n : Nat) : (b.slice off n).length = n := by
  simp [slice]

theorem get_splice (b : Block) (off : Nat) (bs : List UInt8) {k : Nat} (h : k < BSIZE) :
    (b.splice off bs).get k =
      if off ≤ k ∧ k < off + bs.length then bs.getD (k - off) 0 else b.get k := by
  simp [get, splice, h]

theorem slice_splice_self (b : Block) {off : Nat} {bs : List UInt8}
    (h : off + bs.length ≤ BSIZE) : (b.splice off bs).slice off bs.length = bs := by
  apply List.ext_getElem
  · simp
  · intro j hj hj'
    have hk : off + j < BSIZE := by omega
    simp [slice, get_splice b off bs hk, List.getD, hj']

theorem slice_splice_disjoint (b : Block) {off off' n : Nat} {bs : List UInt8}
    (h : off' + n ≤ off ∨ off + bs.length ≤ off') :
    (b.splice off bs).slice off' n = b.slice off' n := by
  apply List.map_congr_left
  intro j hj
  have hj' : j < n := List.mem_range.mp hj
  by_cases hk : off' + j < BSIZE
  · rw [get_splice b off bs hk, if_neg (by omega)]
  · simp [get, hk]

end Block

end Xv6

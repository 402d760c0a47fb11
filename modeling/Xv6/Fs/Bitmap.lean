import Xv6.Fs.Inode

namespace Xv6.Fs

theorem or_and_distrib (x a b : UInt8) : (x ||| a) &&& b = x &&& b ||| a &&& b := by
  apply UInt8.toNat_inj.mp
  simp only [UInt8.toNat_and, UInt8.toNat_or, Nat.and_or_distrib_right]

theorem bitMask_and_eq_zero (i j : Nat) : bitMask i &&& bitMask j = 0 ↔ i % 8 ≠ j % 8 := by
  have h : ∀ i j : Fin 8,
      ((1 : UInt8) <<< UInt8.ofNat i &&& 1 <<< UInt8.ofNat j = 0) ↔ i ≠ j := by decide
  have := h ⟨i % 8, Nat.mod_lt i (by decide)⟩ ⟨j % 8, Nat.mod_lt j (by decide)⟩
  rw [bitMask, bitMask, this, ne_eq, Fin.mk.injEq]

theorem isFree_iff (bp : Block) (b : Nat) : isFree bp b ↔ bp.get (b / 8) &&& bitMask b = 0 :=
  beq_iff_eq

theorem isFree_zeroes (b : Nat) : isFree Block.zeroes b := by
  rw [isFree_iff, Block.get_zeroes, UInt8.zero_and]

theorem isFree_markUsed (bp : Block) {b : Nat} (hb : b < BPB) (bi : Nat) :
    isFree (markUsed bp bi) b ↔ isFree bp b ∧ b ≠ bi := by
  have hk : b / 8 < BSIZE := by
    change b < 8192 at hb
    change b / 8 < 1024
    omega
  rw [isFree_iff, isFree_iff, markUsed, Block.get_splice _ _ _ hk]
  by_cases hbyte : b / 8 = bi / 8
  · rw [if_pos (by simp [hbyte]), ← hbyte, Nat.sub_self]
    change (bp.get (b / 8) ||| bitMask bi) &&& bitMask b = 0 ↔ _
    rw [or_and_distrib, UInt8.or_eq_zero_iff, bitMask_and_eq_zero]
    have : bi % 8 ≠ b % 8 ↔ b ≠ bi := by omega
    rw [this]
  · have hne : b ≠ bi := fun e => hbyte (by rw [e])
    rw [if_neg (by simp only [List.length_singleton]; omega)]
    exact ⟨fun h => ⟨h, hne⟩, And.left⟩

end Xv6.Fs

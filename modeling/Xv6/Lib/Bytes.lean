import Mathlib.Data.Nat.ModEq
import Mathlib.Tactic

namespace Xv6.Lib.Bytes

def natOfBytes (g : Nat → UInt8) : Nat → Nat
  | 0 => 0
  | w + 1 => natOfBytes g w + 256 ^ w * (g w).toNat

def byteOfNat (v j : Nat) : UInt8 := UInt8.ofNat (v / 256 ^ j)

theorem natOfBytes_congr {g h : Nat → UInt8} {w : Nat} (e : ∀ j < w, g j = h j) :
    natOfBytes g w = natOfBytes h w := by
  induction w with
  | zero => rfl
  | succ w ih =>
    simp only [natOfBytes]
    rw [ih (fun j hj => e j (by omega)), e w (by omega)]

theorem natOfBytes_lt (g : Nat → UInt8) (w : Nat) : natOfBytes g w < 256 ^ w := by
  induction w with
  | zero => simp [natOfBytes]
  | succ w ih =>
    have hb : (g w).toNat ≤ 255 := by have := (g w).toNat_lt; omega
    have hm : 256 ^ w * (g w).toNat ≤ 256 ^ w * 255 := Nat.mul_le_mul_left _ hb
    simp only [natOfBytes, pow_succ]
    omega

theorem natOfBytes_byteOfNat (v w : Nat) : natOfBytes (byteOfNat v) w = v % 256 ^ w := by
  induction w with
  | zero => simp [natOfBytes, Nat.mod_one]
  | succ w ih =>
    have hb : (byteOfNat v w).toNat = v / 256 ^ w % 256 := by simp [byteOfNat]
    rw [natOfBytes, ih, hb, Nat.mod_pow_succ]

theorem byteOfNat_natOfBytes (g : Nat → UInt8) {w j : Nat} (hj : j < w) :
    byteOfNat (natOfBytes g w) j = g j := by
  induction w with
  | zero => omega
  | succ w ih =>
    have hlt := natOfBytes_lt g w
    have hpos : 0 < 256 ^ w := Nat.pow_pos (by decide)
    rw [natOfBytes]
    by_cases hjw : j = w
    · subst hjw
      rw [byteOfNat, Nat.add_mul_div_left _ _ hpos, Nat.div_eq_of_lt hlt, Nat.zero_add]
      exact UInt8.ofNat_toNat
    · have hsplit : 256 ^ w * (g w).toNat = 256 ^ j * (256 * (256 ^ (w - j - 1) * (g w).toNat)) := by
        rw [← Nat.mul_assoc 256, ← Nat.pow_succ', ← Nat.mul_assoc, ← Nat.pow_add]
        congr 2
        omega
      rw [← ih (by omega), byteOfNat, byteOfNat, hsplit, Nat.add_mul_div_left _ _ (Nat.pow_pos (by decide))]
      apply UInt8.toNat_inj.mp
      simp

theorem toNat_add_one {x : UInt32} (h : x.toNat + 1 < 2 ^ 32) : (x + 1).toNat = x.toNat + 1 := by
  rw [UInt32.toNat_add, UInt32.toNat_one, Nat.mod_eq_of_lt h]

theorem toNat_sub_one {x : UInt32} (h : 0 < x.toNat) : (x - 1).toNat = x.toNat - 1 :=
  UInt32.toNat_sub_of_le _ _ (UInt32.le_iff_toNat_le.mpr h)

theorem toNat_toUInt32 (n : Int32) :
    (n.toUInt32.toNat : Int) = if 0 ≤ n.toInt then n.toInt else n.toInt + 2 ^ 32 := by
  have h : n.toInt = if 2 * n.toUInt32.toNat < 2 ^ 32 then (n.toUInt32.toNat : Int)
      else (n.toUInt32.toNat : Int) - 2 ^ 32 := BitVec.toInt_eq_toNat_cond n.toBitVec
  have := n.toUInt32.toNat_lt
  split at h
  · rw [if_pos (by omega), h]
  · rw [if_neg (by omega), h]
    omega

end Xv6.Lib.Bytes

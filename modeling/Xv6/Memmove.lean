import Mathlib.Logic.Function.Basic
import Mathlib.Tactic

namespace Xv6.Memmove

abbrev Memory := Nat → UInt8

def copyUp : (n d s : Nat) → Memory → Memory
  | 0, _, _, m => m
  | n + 1, d, s, m => copyUp n ((d + 1) % 2 ^ 64) ((s + 1) % 2 ^ 64) (Function.update m d (m s))

def copyDown : (n d s : Nat) → Memory → Memory
  | 0, _, _, m => m
  | n + 1, d, s, m =>
    let d := (d + (2 ^ 64 - 1)) % 2 ^ 64
    let s := (s + (2 ^ 64 - 1)) % 2 ^ 64
    copyDown n d s (Function.update m d (m s))

namespace Kernel

/-- `memmove` of the kernel, whose length is a `uint`: what it returns, and the memory. -/
def memmove (dst src : Nat) (n : UInt32) (m : Memory) : Nat × Memory :=
  let s := src
  let d := dst
  if s < d ∧ (s + n.toNat) % 2 ^ 64 > d then
    (dst, copyDown n.toNat ((d + n.toNat) % 2 ^ 64) ((s + n.toNat) % 2 ^ 64) m)
  else (dst, copyUp n.toNat d s m)

end Kernel

namespace User

/-- A pointer plus an `int`. -/
def offset (p : Nat) (n : Int32) : Nat := ((p + n.toInt) % 2 ^ 64).toNat

/-- `memmove` of the user library, whose length is an `int`. -/
def memmove (vdst vsrc : Nat) (n : Int32) (m : Memory) : Nat × Memory :=
  let dst := vdst
  let src := vsrc
  if src > dst then (vdst, copyUp n.toInt.toNat dst src m)
  else (vdst, copyDown n.toInt.toNat (offset dst n) (offset src n) m)

end User

def moved (dst src n : Nat) (m : Memory) : Memory :=
  fun a => if dst ≤ a ∧ a < dst + n then m (src + (a - dst)) else m a

variable {d s n : Nat}

theorem moved_zero (d s : Nat) (m : Memory) : moved d s 0 m = m := by
  funext a
  rw [moved, if_neg (by omega)]

theorem moved_update_first (h : d ≤ s ∨ s + (n + 1) ≤ d) (m : Memory) :
    moved (d + 1) (s + 1) n (Function.update m d (m s)) = moved d s (n + 1) m := by
  funext a
  rw [moved, moved]
  by_cases hin : d + 1 ≤ a ∧ a < d + 1 + n
  · have hsrc : s + 1 + (a - (d + 1)) = s + (a - d) := by omega
    have hne : s + (a - d) ≠ d := by omega
    rw [if_pos hin, if_pos (by omega), hsrc, Function.update_of_ne hne]
  · rw [if_neg hin]
    by_cases ha : a = d
    · subst ha
      rw [if_pos (by omega), Function.update_self, Nat.sub_self, Nat.add_zero]
    · rw [if_neg (by omega), Function.update_of_ne ha]

theorem moved_update_last (h : s ≤ d ∨ d + (n + 1) ≤ s) (m : Memory) :
    moved d s n (Function.update m (d + n) (m (s + n))) = moved d s (n + 1) m := by
  funext a
  rw [moved, moved]
  by_cases hin : d ≤ a ∧ a < d + n
  · have hne : s + (a - d) ≠ d + n := by omega
    rw [if_pos hin, if_pos (by omega), Function.update_of_ne hne]
  · rw [if_neg hin]
    by_cases ha : a = d + n
    · subst ha
      rw [if_pos (by omega), Function.update_self, Nat.add_sub_cancel_left]
    · rw [if_neg (by omega), Function.update_of_ne ha]

theorem copyUp_eq (hd : d + n < 2 ^ 64) (hs : s + n < 2 ^ 64) (h : d ≤ s ∨ s + n ≤ d) (m : Memory) :
    copyUp n d s m = moved d s n m := by
  induction n generalizing d s m with
  | zero => exact (moved_zero d s m).symm
  | succ n ih =>
    have hd' : (d + 1) % 2 ^ 64 = d + 1 := Nat.mod_eq_of_lt (by omega)
    have hs' : (s + 1) % 2 ^ 64 = s + 1 := Nat.mod_eq_of_lt (by omega)
    rw [copyUp, hd', hs', ih (by omega) (by omega) (by omega), moved_update_first h]

theorem copyDown_eq (hd : d + n < 2 ^ 64) (hs : s + n < 2 ^ 64) (h : s ≤ d ∨ d + n ≤ s) (m : Memory) :
    copyDown n (d + n) (s + n) m = moved d s n m := by
  induction n generalizing m with
  | zero => exact (moved_zero d s m).symm
  | succ n ih =>
    have hd' : (d + (n + 1) + (2 ^ 64 - 1)) % 2 ^ 64 = d + n := by omega
    have hs' : (s + (n + 1) + (2 ^ 64 - 1)) % 2 ^ 64 = s + n := by omega
    rw [copyDown, hd', hs', ih (by omega) (by omega) (by omega), moved_update_last h]

theorem Kernel.memmove_eq {n : UInt32} (hd : d + n.toNat < 2 ^ 64) (hs : s + n.toNat < 2 ^ 64)
    (m : Memory) : Kernel.memmove d s n m = (d, moved d s n.toNat m) := by
  have hd' : (d + n.toNat) % 2 ^ 64 = d + n.toNat := Nat.mod_eq_of_lt hd
  have hs' : (s + n.toNat) % 2 ^ 64 = s + n.toNat := Nat.mod_eq_of_lt hs
  rw [Kernel.memmove, hd', hs']
  split
  next h => rw [copyDown_eq hd hs (by omega)]
  next h => rw [copyUp_eq hd hs (by omega)]

theorem User.offset_eq {p : Nat} {n : Int32} (hn : 0 ≤ n.toInt) (hp : p + n.toInt.toNat < 2 ^ 64) :
    User.offset p n = p + n.toInt.toNat := by
  rw [User.offset]
  omega

theorem User.memmove_eq {n : Int32} (hn : 0 ≤ n.toInt) (hd : d + n.toInt.toNat < 2 ^ 64)
    (hs : s + n.toInt.toNat < 2 ^ 64) (m : Memory) :
    User.memmove d s n m = (d, moved d s n.toInt.toNat m) := by
  rw [User.memmove, User.offset_eq hn hd, User.offset_eq hn hs]
  split
  next h => rw [copyUp_eq hd hs (by omega)]
  next h => rw [copyDown_eq hd hs (by omega)]

/-- For a length that both functions can be given, both move the bytes as if at once, so they agree;
and the kernel's does so for every length of its own. -/
theorem memmove_any_overlap (m : Memory) (dst src : Nat) :
    (∀ n : UInt32, dst + n.toNat < 2 ^ 64 → src + n.toNat < 2 ^ 64 →
      ∃ m', Kernel.memmove dst src n m = (dst, m') ∧
        (∀ i, i < n.toNat → m' (dst + i) = m (src + i)) ∧
        ∀ a, ¬(dst ≤ a ∧ a < dst + n.toNat) → m' a = m a) ∧
    (∀ n : Int32, 0 ≤ n.toInt → dst + n.toInt < 2 ^ 64 → src + n.toInt < 2 ^ 64 →
      ∃ m', User.memmove dst src n m = (dst, m') ∧
        (∀ i : Nat, i < n.toInt → m' (dst + i) = m (src + i)) ∧
        ∀ a : Nat, ¬(dst ≤ a ∧ a < dst + n.toInt) → m' a = m a) ∧
    ∀ (k : UInt32) (n : Int32), (k.toNat : Int) = n.toInt → dst + k.toNat < 2 ^ 64 →
      src + k.toNat < 2 ^ 64 → Kernel.memmove dst src k m = User.memmove dst src n m := by
  have hmoved : ∀ n i, i < n → moved dst src n m (dst + i) = m (src + i) := by
    intro n i hi
    rw [moved, if_pos (by omega), Nat.add_sub_cancel_left]
  have hother : ∀ n a, ¬(dst ≤ a ∧ a < dst + n) → moved dst src n m a = m a := by
    intro n a ha
    rw [moved, if_neg ha]
  refine ⟨fun n hd hs => ?_, fun n hn hd hs => ?_, fun k n hkn hd hs => ?_⟩
  · exact ⟨_, Kernel.memmove_eq hd hs m, hmoved n.toNat, hother n.toNat⟩
  · refine ⟨_, User.memmove_eq hn (by omega) (by omega) m, fun i hi => ?_, fun a ha => ?_⟩
    · exact hmoved _ i (by omega)
    · exact hother _ a (by omega)
  · have hlen : n.toInt.toNat = k.toNat := by omega
    rw [Kernel.memmove_eq hd hs, User.memmove_eq (by omega) (by omega) (by omega), hlen]

/-- Four bytes are moved up by one. -/
theorem memmove_any_overlap_shifted :
    ∃ m', Kernel.memmove 0x1001 0x1000 4 (fun a => UInt8.ofNat a) = (0x1001, m') ∧
      User.memmove 0x1001 0x1000 4 (fun a => UInt8.ofNat a) = (0x1001, m') ∧ m' 0x1004 = 3 := by
  obtain ⟨hkernel, -, hagree⟩ := memmove_any_overlap (fun a => UInt8.ofNat a) 0x1001 0x1000
  obtain ⟨m', hrun, hcopy, -⟩ := hkernel 4 (by decide) (by decide)
  have hsame := hagree 4 4 (by decide) (by decide) (by decide)
  exact ⟨m', hrun, hsame.symm.trans hrun, hcopy 3 (by decide)⟩

end Xv6.Memmove

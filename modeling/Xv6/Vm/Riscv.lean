import Xv6.Param
import Mathlib.Tactic

namespace Xv6

/-! The page-table macros of `riscv.h` and the addresses of `memlayout.h`. A 64-bit
word is a natural number, with `% 2 ^ 64` where an operation can overflow. -/

def PGSHIFT : Nat := 12

def PGROUNDUP (sz : Nat) : Nat := ((sz + PGSIZE - 1) % 2 ^ 64) &&& (2 ^ 64 - PGSIZE)

def PGROUNDDOWN (a : Nat) : Nat := a &&& (2 ^ 64 - PGSIZE)

def PTE_V : Nat := 1 <<< 0

def PTE_R : Nat := 1 <<< 1

def PTE_W : Nat := 1 <<< 2

def PTE_X : Nat := 1 <<< 3

def PTE_U : Nat := 1 <<< 4

def PA2PTE (pa : Nat) : Nat := pa >>> 12 <<< 10

def PTE2PA (pte : Nat) : Nat := (pte >>> 10 <<< 12) % 2 ^ 64

def PTE_FLAGS (pte : Nat) : Nat := pte &&& 0x3FF

/-- The bits of `m` are cleared, as in `pte &= ~m`. -/
def clearBits (pte m : Nat) : Nat := pte ^^^ (pte &&& m)

def PXSHIFT (level : Nat) : Nat := PGSHIFT + 9 * level

instance neZeroPageTable : NeZero 512 := ⟨by decide⟩

def PX (level va : Nat) : Fin 512 :=
  ⟨(va >>> PXSHIFT level) &&& 0x1FF, Nat.lt_of_le_of_lt Nat.and_le_right (by decide)⟩

def MAXVA : Nat := 1 <<< (9 + 9 + 9 + 12 - 1)

def KERNBASE : Nat := 0x80000000

def PHYSTOP : Nat := KERNBASE + 128 * 1024 * 1024

def TRAMPOLINE : Nat := MAXVA - PGSIZE

def TRAPFRAME : Nat := TRAMPOLINE - PGSIZE

theorem and_pageMask {x : Nat} (h : x < 2 ^ 64) :
    x &&& (2 ^ 64 - PGSIZE) = x / PGSIZE * PGSIZE := by
  have hmask : 2 ^ 64 - PGSIZE = (2 ^ 52 - 1) <<< 12 := by decide
  have hround : x / PGSIZE * PGSIZE = x >>> 12 <<< 12 := by
    rw [Nat.shiftRight_eq_div_pow, Nat.shiftLeft_eq]
    rfl
  rw [hmask, hround]
  apply Nat.eq_of_testBit_eq
  intro i
  simp only [Nat.testBit_and, Nat.testBit_shiftLeft, Nat.testBit_shiftRight,
    Nat.testBit_two_pow_sub_one]
  by_cases hlo : 12 ≤ i
  · by_cases hhi : i < 64
    · have : i - 12 < 52 := by omega
      simp [hlo, this]
    · have hx : x.testBit i = false := by
        apply Nat.testBit_lt_two_pow
        calc x < 2 ^ 64 := h
          _ ≤ 2 ^ i := Nat.pow_le_pow_right (by decide) (by omega)
      simp [hlo, hx]
  · simp [hlo]

theorem PGROUNDDOWN_eq {a : Nat} (h : a < 2 ^ 64) : PGROUNDDOWN a = a / 4096 * 4096 :=
  and_pageMask h

theorem PGROUNDUP_eq {sz : Nat} (h : sz < 2 ^ 63) : PGROUNDUP sz = (sz + 4095) / 4096 * 4096 := by
  have hlt : sz + 4096 - 1 < 2 ^ 64 := by omega
  change ((sz + 4096 - 1) % 2 ^ 64) &&& (2 ^ 64 - PGSIZE) = _
  rw [Nat.mod_eq_of_lt hlt, and_pageMask hlt]
  rfl

theorem PX_val (level va : Nat) : (PX level va).val = va / 2 ^ (12 + 9 * level) % 512 := by
  change va >>> (12 + 9 * level) &&& (2 ^ 9 - 1) = _
  rw [Nat.and_two_pow_sub_one_eq_mod, Nat.shiftRight_eq_div_pow]

theorem PTE_FLAGS_eq (pte : Nat) : PTE_FLAGS pte = pte % 1024 :=
  Nat.and_two_pow_sub_one_eq_mod pte 10

theorem PTE_FLAGS_lt (pte : Nat) : PTE_FLAGS pte < 1024 := by
  rw [PTE_FLAGS_eq]
  exact Nat.mod_lt _ (by decide)

theorem and_flags (pte : Nat) {m : Nat} (hm : m < 1024) : pte &&& m = PTE_FLAGS pte &&& m := by
  apply Nat.eq_of_testBit_eq
  intro i
  rw [PTE_FLAGS_eq, show (1024 : Nat) = 2 ^ 10 from rfl, Nat.testBit_and, Nat.testBit_and,
    Nat.testBit_mod_two_pow]
  by_cases hi : i < 10
  · simp [hi]
  · have hbit : m.testBit i = false := by
      apply Nat.testBit_lt_two_pow
      calc m < 2 ^ 10 := hm
        _ ≤ 2 ^ i := Nat.pow_le_pow_right (by decide) (by omega)
    simp [hbit]

theorem clearBits_and (pte m k : Nat) : clearBits pte m &&& k = clearBits (pte &&& k) m := by
  apply Nat.eq_of_testBit_eq
  intro i
  simp only [clearBits, Nat.testBit_and, Nat.testBit_xor]
  cases pte.testBit i <;> cases m.testBit i <;> cases k.testBit i <;> rfl

theorem PTE_FLAGS_clearBits (pte m : Nat) :
    PTE_FLAGS (clearBits pte m) = clearBits (PTE_FLAGS pte) m :=
  clearBits_and pte m 0x3FF

theorem PTE2PA_clearBits (pte : Nat) {m : Nat} (hm : m < 1024) :
    PTE2PA (clearBits pte m) = PTE2PA pte := by
  have hand : (pte &&& m) >>> 10 = 0 := by
    rw [Nat.shiftRight_eq_div_pow]
    exact Nat.div_eq_of_lt (Nat.lt_of_le_of_lt Nat.and_le_right hm)
  have hshift : clearBits pte m >>> 10 = pte >>> 10 := by
    rw [clearBits, Nat.shiftRight_xor_distrib, hand, Nat.xor_zero]
  rw [PTE2PA, PTE2PA, hshift]

theorem PA2PTE_or {pa : Nat} {perm : Nat} (hperm : perm < 1024) :
    PA2PTE pa ||| perm ||| PTE_V = pa / 4096 * 1024 + (perm ||| PTE_V) := by
  have hor : perm ||| PTE_V < 2 ^ 10 := Nat.or_lt_two_pow hperm (by decide)
  rw [Nat.or_assoc, PA2PTE, ← Nat.shiftLeft_add_eq_or_of_lt hor, Nat.shiftLeft_eq,
    Nat.shiftRight_eq_div_pow]

section Entry

variable {pa perm : Nat} (hperm : perm < 1024)

include hperm

theorem PTE_FLAGS_entry : PTE_FLAGS (PA2PTE pa ||| perm ||| PTE_V) = perm ||| PTE_V := by
  have hor : perm ||| PTE_V < 2 ^ 10 := Nat.or_lt_two_pow hperm (by decide)
  rw [PA2PTE_or hperm, PTE_FLAGS_eq]
  omega

theorem PTE2PA_entry (hpa : pa % 4096 = 0) (hlt : pa < 2 ^ 64) :
    PTE2PA (PA2PTE pa ||| perm ||| PTE_V) = pa := by
  have hor : perm ||| PTE_V < 2 ^ 10 := Nat.or_lt_two_pow hperm (by decide)
  rw [PA2PTE_or hperm, PTE2PA, Nat.shiftRight_eq_div_pow, Nat.shiftLeft_eq]
  omega

theorem entry_valid : (PA2PTE pa ||| perm ||| PTE_V) &&& PTE_V ≠ 0 := by
  rw [and_flags _ (by decide), PTE_FLAGS_entry hperm, Nat.and_or_distrib_right]
  intro h
  have := (Nat.or_eq_zero_iff.mp h).2
  exact absurd this (by decide)

end Entry

theorem PA2PTE_valid (pa : Nat) : (PA2PTE pa ||| PTE_V) &&& PTE_V ≠ 0 := by
  have h : (PA2PTE pa ||| 0 ||| PTE_V) &&& PTE_V ≠ 0 := entry_valid (by decide)
  rwa [Nat.or_zero] at h

theorem PA2PTE_plain (pa : Nat) : (PA2PTE pa ||| PTE_V) &&& (PTE_R ||| PTE_W ||| PTE_X) = 0 := by
  have h : PTE_FLAGS (PA2PTE pa ||| 0 ||| PTE_V) = 0 ||| PTE_V := PTE_FLAGS_entry (by decide)
  rw [Nat.or_zero] at h
  rw [and_flags _ (by decide), h]
  rfl

end Xv6

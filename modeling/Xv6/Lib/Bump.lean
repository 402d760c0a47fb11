import Mathlib.Logic.Function.Basic
import Mathlib.Tactic

namespace Xv6.Lib.Bump

variable {κ : Type}

structure Assigned (A : κ → Nat) (lo hi : Nat) : Prop where
  range : ∀ k, A k ≠ 0 → lo ≤ A k ∧ A k < hi
  inj : ∀ k l, A k = A l → A k ≠ 0 → k = l

theorem Assigned.empty {A : κ → Nat} (h : ∀ k, A k = 0) (lo hi : Nat) : Assigned A lo hi where
  range k hk := absurd (h k) hk
  inj k _ _ hk := absurd (h k) hk

theorem Assigned.alloc [DecidableEq κ] {A : κ → Nat} {lo hi : Nat} (h : Assigned A lo hi)
    (hlo : lo ≤ hi) (k : κ) : Assigned (Function.update A k hi) lo (hi + 1) where
  range l hl := by
    by_cases e : l = k
    · subst e
      rw [Function.update_self]
      omega
    · rw [Function.update_of_ne e] at hl ⊢
      have := h.range l hl
      omega
  inj l m hlm hl := by
    by_cases el : l = k <;> by_cases em : m = k
    · rw [el, em]
    · subst el
      rw [Function.update_self] at hl
      rw [Function.update_self, Function.update_of_ne em] at hlm
      have := h.range m (by omega)
      omega
    · subst em
      rw [Function.update_self, Function.update_of_ne el] at hlm
      rw [Function.update_of_ne el] at hl
      have := h.range l hl
      omega
    · rw [Function.update_of_ne el, Function.update_of_ne em] at hlm
      rw [Function.update_of_ne el] at hl
      exact h.inj l m hlm hl

end Xv6.Lib.Bump

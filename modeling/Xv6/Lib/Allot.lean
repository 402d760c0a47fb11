import Mathlib.Logic.Function.Basic
import Mathlib.Tactic

namespace Xv6.Lib.Allot

variable {κ : Type} {area free free' : Nat → Prop} {f g : κ → Nat} {b : Nat} {x : κ}

structure Owned (area free : Nat → Prop) (f : κ → Nat) : Prop where
  pos : ∀ b, area b → b ≠ 0
  range : ∀ x, f x ≠ 0 → area (f x)
  inj : ∀ x y, f x ≠ 0 → f x = f y → x = y
  free_iff : ∀ b, area b → (free b ↔ ∀ x, f x ≠ b)

namespace Owned

theorem ne_of_free (h : Owned area free f) (hb : free b) {x : κ} (hx : f x ≠ 0) : f x ≠ b := by
  intro he
  have harea := h.range x hx
  rw [he] at harea
  exact (h.free_iff b harea).mp hb x he

theorem congr (h : Owned area free f) (hg : g = f) (hfree : ∀ c, area c → (free' c ↔ free c)) :
    Owned area free' g := by
  subst hg
  exact ⟨h.pos, h.range, h.inj, fun c hc => (hfree c hc).trans (h.free_iff c hc)⟩

theorem put [DecidableEq κ] (h : Owned area free f) (hb : area b) (hfree : free b) (hx : f x = 0)
    (hfree' : ∀ c, area c → (free' c ↔ free c ∧ c ≠ b)) :
    Owned area free' (Function.update f x b) := by
  have hno := (h.free_iff b hb).mp hfree
  refine ⟨h.pos, fun y hy => ?_, fun y z hy hyz => ?_, fun c hc => ?_⟩
  · by_cases hyx : y = x
    · rw [hyx, Function.update_self]
      exact hb
    · rw [Function.update_of_ne hyx] at hy ⊢
      exact h.range y hy
  · by_cases hyx : y = x <;> by_cases hzx : z = x
    · rw [hyx, hzx]
    · rw [hyx, Function.update_self, Function.update_of_ne hzx] at hyz
      exact absurd hyz.symm (hno z)
    · rw [hzx, Function.update_self, Function.update_of_ne hyx] at hyz
      exact absurd hyz (hno y)
    · rw [Function.update_of_ne hyx] at hy
      rw [Function.update_of_ne hyx, Function.update_of_ne hzx] at hyz
      exact h.inj y z hy hyz
  · rw [hfree' c hc, h.free_iff c hc]
    constructor
    · rintro ⟨hc', hne⟩ y
      by_cases hyx : y = x
      · rw [hyx, Function.update_self]
        exact hne.symm
      · rw [Function.update_of_ne hyx]
        exact hc' y
    · intro hc'
      refine ⟨fun y hy => ?_, fun hcb => ?_⟩
      · have hyx : y ≠ x := by
          rintro rfl
          exact h.pos c hc (hy.symm.trans hx)
        exact hc' y ((Function.update_of_ne hyx ..).trans hy)
      · exact hc' x ((Function.update_self ..).trans hcb.symm)

end Owned

end Xv6.Lib.Allot

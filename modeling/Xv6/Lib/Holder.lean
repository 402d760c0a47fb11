import Mathlib.Logic.Function.Basic
import Mathlib.Tactic

namespace Xv6.Lib.Holder

variable {P K : Type}

/-- The holder of a lock is the one thread at a place of the code where `f` says that it
holds the lock. -/
def Holds (lock : Option P) (f : K → Bool) (pc : P → K) : Prop :=
  ∀ p, lock = some p ↔ f (pc p) = true

variable {lock : Option P} {f : K → Bool} {pc : P → K} {p q : P} {k : K}

theorem Holds.lock_eq (h : Holds lock f pc) (hf : f (pc p) = true) : lock = some p := (h p).mpr hf

theorem Holds.unique (h : Holds lock f pc) (hp : f (pc p) = true) (hq : f (pc q) = true) : p = q := by
  have hp := h.lock_eq hp
  rw [h.lock_eq hq] at hp
  exact (Option.some.inj hp).symm

theorem Holds.free (h : Holds lock f pc) (hl : lock = none) (q : P) : f (pc q) = false := by
  cases hq : f (pc q) with
  | false => rfl
  | true =>
    rw [h.lock_eq hq] at hl
    cases hl

theorem Holds.init (h : ∀ q, f (pc q) = false) : Holds none f pc := by
  intro q
  rw [h q]
  simp

variable [DecidableEq P]

theorem Holds.step (h : Holds lock f pc) (hk : f k = f (pc p)) :
    Holds lock f (Function.update pc p k) := by
  intro q
  by_cases hq : q = p
  · subst hq
    rw [Function.update_self, hk]
    exact h q
  · rw [Function.update_of_ne hq]
    exact h q

theorem Holds.acquire (h : Holds lock f pc) (hl : lock = none) (hk : f k = true) :
    Holds (some p) f (Function.update pc p k) := by
  intro q
  by_cases hq : q = p
  · subst hq
    rw [Function.update_self, hk]
    simp
  · rw [Function.update_of_ne hq, h.free hl q]
    simpa using Ne.symm hq

theorem Holds.release (h : Holds lock f pc) (hp : f (pc p) = true) (hk : f k = false) :
    Holds none f (Function.update pc p k) := by
  refine Holds.init fun q => ?_
  by_cases hq : q = p
  · subst hq
    rw [Function.update_self, hk]
  · rw [Function.update_of_ne hq]
    cases hf : f (pc q) with
    | false => rfl
    | true => exact absurd (h.unique hf hp) hq

end Xv6.Lib.Holder

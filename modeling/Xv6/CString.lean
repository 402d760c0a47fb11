import Mathlib.Tactic

namespace Xv6

/-- `strncmp(p, q, n)`. A string is the list of its bytes; what is read past the
end of the list is the terminating NUL. -/
def strncmp : List UInt8 → List UInt8 → Nat → Int
  | _, _, 0 => 0
  | p, q, n + 1 =>
    if p.headD 0 ≠ 0 ∧ p.headD 0 = q.headD 0 then strncmp p.tail q.tail n
    else (p.headD 0).toNat - (q.headD 0).toNat

/-- The `n` bytes `strncpy(s, t, n)` stores at `s`. -/
def strncpy (t : List UInt8) : Nat → List UInt8
  | 0 => []
  | n + 1 => if t.headD 0 = 0 then List.replicate (n + 1) 0 else t.headD 0 :: strncpy t.tail n

@[simp] theorem length_strncpy (t : List UInt8) (n : Nat) : (strncpy t n).length = n := by
  induction n generalizing t with
  | zero => rfl
  | succ n ih =>
    rw [strncpy]
    split
    · exact List.length_replicate
    · rw [List.length_cons, ih]

theorem strncmp_strncpy {s t : List UInt8} (hs : 0 ∉ s) (ht : 0 ∉ t) (n : Nat) :
    strncmp s (strncpy t n) n = 0 ↔ s.take n = t.take n := by
  induction n generalizing s t with
  | zero => simp [strncmp]
  | succ n ih =>
    cases t with
    | nil =>
      cases s with
      | nil => simp [strncmp, strncpy, List.replicate_succ]
      | cons a s =>
        have ha : a ≠ 0 := fun h => hs (by simp [h])
        have hn : a.toNat ≠ 0 := fun h => ha (UInt8.toNat_inj.mp h)
        simp [strncmp, strncpy, List.replicate_succ, ha, hn]
    | cons b t =>
      have hb : b ≠ 0 := fun h => ht (by simp [h])
      have hc : strncpy (b :: t) (n + 1) = b :: strncpy t n := by simp [strncpy, hb]
      have hbn : b.toNat ≠ 0 := fun h => hb (UInt8.toNat_inj.mp h)
      cases s with
      | nil => simp [strncmp, hc, hbn]
      | cons a s =>
        have ha : a ≠ 0 := fun h => hs (by simp [h])
        have ih' := ih (s := s) (t := t) (fun h => hs (List.mem_cons_of_mem a h))
          (fun h => ht (List.mem_cons_of_mem b h))
        rw [hc, strncmp]
        by_cases hab : a = b
        · subst hab
          simpa [ha] using ih'
        · have hne : (a.toNat : Int) - b.toNat ≠ 0 := fun h => hab (UInt8.toNat_inj.mp (by omega))
          simpa [ha, hab] using hne

end Xv6

import Mathlib.Data.Nat.Prime.Basic
import Mathlib.Tactic

namespace Xv6.Primes

/-- The elements of a stream that no earlier one of them divides, in order. -/
def sieved (xs : List Int) : List Int :=
  xs.foldl (fun out x => if ∃ p ∈ out, p ∣ x then out else out ++ [x]) []

def kept (p : Int) (xs : List Int) : List Int := xs.filter fun x => ¬ p ∣ x

theorem length_kept_le (p : Int) (xs : List Int) : (kept p xs).length ≤ xs.length :=
  List.length_filter_le _ xs

theorem foldl_kept (p : Int) (out xs : List Int) :
    xs.foldl (fun out x => if ∃ q ∈ out, q ∣ x then out else out ++ [x]) (p :: out) =
      p :: (kept p xs).foldl (fun out x => if ∃ q ∈ out, q ∣ x then out else out ++ [x]) out := by
  induction xs generalizing out with
  | nil => rfl
  | cons x xs ih =>
    by_cases hp : p ∣ x
    · have hkept : kept p (x :: xs) = kept p xs := List.filter_cons_of_neg (by simpa using hp)
      rw [List.foldl_cons, if_pos ⟨p, List.mem_cons_self, hp⟩, ih, hkept]
    · have hkept : kept p (x :: xs) = x :: kept p xs := List.filter_cons_of_pos (by simpa using hp)
      have hiff : (∃ q ∈ p :: out, q ∣ x) ↔ ∃ q ∈ out, q ∣ x := by simp [hp]
      rw [List.foldl_cons, hkept, List.foldl_cons]
      by_cases hout : ∃ q ∈ out, q ∣ x
      · rw [if_pos (hiff.mpr hout), if_pos hout, ih]
      · rw [if_neg (mt hiff.mp hout), if_neg hout, List.cons_append, ih]

theorem sieved_cons (p : Int) (xs : List Int) : sieved (p :: xs) = p :: sieved (kept p xs) := by
  rw [sieved, List.foldl_cons, if_neg (by simp)]
  exact foldl_kept p [] xs

/-- The stream `2, 3, …, n`. -/
def upto (n : Nat) : List Int := (List.range' 2 (n - 1)).map Nat.cast

/-- The primes up to `n`. -/
def primesUpto (n : Nat) : List Int := ((List.range (n + 1)).filter Nat.Prime).map Nat.cast

theorem mem_primesUpto (n : Nat) (x : Int) :
    x ∈ primesUpto n ↔ ∃ p : Nat, p ≤ n ∧ p.Prime ∧ (p : Int) = x := by
  simp [primesUpto, and_assoc]

theorem exists_dvd_iff {n : Nat} (hn : 1 ≤ n) :
    (∃ p ∈ primesUpto n, p ∣ ((n + 1 : Nat) : Int)) ↔ ¬ (n + 1).Prime := by
  constructor
  · rintro ⟨_, hp, hdvd⟩ hprime
    obtain ⟨p, hle, hpp, rfl⟩ := (mem_primesUpto n _).mp hp
    have hone := (Nat.dvd_prime hprime).mp (Int.natCast_dvd_natCast.mp hdvd)
    have := hpp.one_lt
    omega
  · intro hprime
    have hne : n + 1 ≠ 1 := by omega
    have hfac := Nat.minFac_dvd (n + 1)
    have hlt : (n + 1).minFac < n + 1 :=
      lt_of_le_of_ne (Nat.minFac_le (Nat.succ_pos n)) fun he => hprime (he ▸ Nat.minFac_prime hne)
    refine ⟨(n + 1).minFac, ?_, Int.natCast_dvd_natCast.mpr hfac⟩
    exact (mem_primesUpto n _).mpr ⟨_, Nat.lt_succ_iff.mp hlt, Nat.minFac_prime hne, rfl⟩

theorem sieved_upto (n : Nat) : sieved (upto n) = primesUpto n := by
  induction n with
  | zero => decide
  | succ n ih =>
    obtain rfl | hn := Nat.eq_zero_or_pos n
    · decide
    · have hup : upto (n + 1) = upto n ++ [((n + 1 : Nat) : Int)] := by
        have hlen : n + 1 - 1 = n - 1 + 1 := by omega
        have hlast : 2 + (n - 1) = n + 1 := by omega
        rw [upto, hlen, List.range'_1_concat, List.map_append, hlast]
        rfl
      have hprimes : primesUpto (n + 1) =
          primesUpto n ++ if (n + 1).Prime then [((n + 1 : Nat) : Int)] else [] := by
        rw [primesUpto, List.range_succ, List.filter_append, List.map_append]
        by_cases hp : (n + 1).Prime <;> simp [hp, primesUpto]
      rw [hup, sieved, List.foldl_append]
      change (if ∃ p ∈ sieved (upto n), p ∣ ((n + 1 : Nat) : Int) then sieved (upto n)
        else sieved (upto n) ++ [((n + 1 : Nat) : Int)]) = _
      rw [ih, hprimes]
      by_cases hp : (n + 1).Prime
      · rw [if_neg (mt (exists_dvd_iff hn).mp (not_not.mpr hp)), if_pos hp]
      · rw [if_pos ((exists_dvd_iff hn).mpr hp), if_neg hp, List.append_nil]

end Xv6.Primes

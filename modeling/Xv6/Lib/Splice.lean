import Mathlib.Data.List.Basic

namespace Xv6.Lib.Splice

variable {α : Type} {xs bs : List α} {off : Nat}

/-- The list `xs` with `bs` from position `off` on in the place of what was there. -/
def splice (xs : List α) (off : Nat) (bs : List α) : List α :=
  xs.take off ++ bs ++ xs.drop (off + bs.length)

theorem length_splice (bs : List α) (h : off ≤ xs.length) :
    (splice xs off bs).length = max xs.length (off + bs.length) := by
  simp only [splice, List.length_append, List.length_take, List.length_drop]
  omega

theorem getElem?_splice (h : off ≤ xs.length) (k : Nat) :
    (splice xs off bs)[k]? = if off ≤ k ∧ k < off + bs.length then bs[k - off]? else xs[k]? := by
  have htake : (xs.take off).length = off := by
    rw [List.length_take]
    omega
  rw [splice, List.append_assoc]
  by_cases h1 : k < off
  · rw [if_neg (by omega), List.getElem?_append_left (by omega), List.getElem?_take_of_lt h1]
  · rw [List.getElem?_append_right (by omega), htake]
    by_cases h2 : k < off + bs.length
    · rw [if_pos ⟨by omega, h2⟩, List.getElem?_append_left (by omega)]
    · rw [if_neg (by omega), List.getElem?_append_right (by omega), List.getElem?_drop]
      congr 1
      omega

theorem eq_splice {l : List α} (h : off ≤ xs.length)
    (hl : ∀ k, l[k]? = if off ≤ k ∧ k < off + bs.length then bs[k - off]? else xs[k]?) :
    l = splice xs off bs := by
  apply List.ext_getElem?
  intro k
  rw [hl, getElem?_splice h]

theorem splice_nil : splice xs off [] = xs := by
  simp [splice]

theorem splice_append {bs' : List α} (h : off ≤ xs.length) :
    splice (splice xs off bs) (off + bs.length) bs' = splice xs off (bs ++ bs') := by
  have hl := length_splice bs h
  apply eq_splice h
  intro k
  rw [getElem?_splice (by omega), getElem?_splice h, List.length_append]
  by_cases h1 : off + bs.length ≤ k ∧ k < off + bs.length + bs'.length
  · rw [if_pos h1, if_pos (by omega), List.getElem?_append_right (by omega)]
    congr 1
    omega
  · rw [if_neg h1]
    by_cases h2 : off ≤ k ∧ k < off + bs.length
    · rw [if_pos h2, if_pos (by omega), List.getElem?_append_left (by omega)]
    · rw [if_neg h2, if_neg (by omega)]

theorem slice_splice_self (h : off ≤ xs.length) :
    ((splice xs off bs).drop off).take bs.length = bs := by
  have htake : (xs.take off).length = off := by
    rw [List.length_take]
    omega
  rw [splice, List.append_assoc, List.drop_append_of_le_length (by omega),
    List.drop_of_length_le (by omega), List.nil_append, List.take_left]

theorem slice_splice_below {a n : Nat} (h : off ≤ xs.length) (ha : a + n ≤ off) :
    ((splice xs off bs).drop a).take n = (xs.drop a).take n := by
  apply List.ext_getElem?
  intro k
  by_cases hk : k < n
  · rw [List.getElem?_take_of_lt hk, List.getElem?_take_of_lt hk, List.getElem?_drop,
      List.getElem?_drop, getElem?_splice h, if_neg (by omega)]
  · rw [List.getElem?_take_eq_none (by omega), List.getElem?_take_eq_none (by omega)]

end Xv6.Lib.Splice

import Mathlib.Data.ZMod.Defs
import Mathlib.Tactic

namespace Xv6.Lib

open scoped Fin.CommRing

structure Circular (α : Type) (cap : Nat) where
  cell : Fin cap → α
  head : Fin cap
  tail : Fin cap

namespace Circular

variable {α : Type} {cap : Nat} [NeZero cap]

def isEmpty (q : Circular α cap) : Bool := q.tail = q.head

def isFull (q : Circular α cap) : Bool := q.tail + 1 = q.head

def put (q : Circular α cap) (x : α) : Circular α cap :=
  { q with cell := Function.update q.cell q.tail x, tail := q.tail + 1 }

def front (q : Circular α cap) : α := q.cell q.head

def take (q : Circular α cap) : Circular α cap := { q with head := q.head + 1 }

def size (q : Circular α cap) : Nat := (q.tail - q.head).val

def contents (q : Circular α cap) : List α :=
  (List.range q.size).map fun k => q.cell (q.head + Fin.ofNat cap k)

theorem ofNat_size (q : Circular α cap) : Fin.ofNat cap q.size = q.tail - q.head := by
  apply Fin.ext
  exact Nat.mod_eq_of_lt (q.tail - q.head).isLt

theorem tail_eq (q : Circular α cap) : q.tail = q.head + Fin.ofNat cap q.size := by
  rw [ofNat_size, add_sub_cancel]

theorem isEmpty_iff (q : Circular α cap) : q.isEmpty ↔ q.size = 0 := by
  rw [isEmpty, decide_eq_true_eq, size, Fin.val_eq_zero_iff, sub_eq_zero]

omit [NeZero cap] in
theorem size_lt (q : Circular α cap) : q.size < cap := (q.tail - q.head).isLt

theorem ofNat_succ (k : Nat) : Fin.ofNat cap (k + 1) = Fin.ofNat cap k + 1 := by
  apply Fin.ext
  rw [Fin.val_add]
  exact Nat.add_mod k 1 cap

theorem ofNat_inj {j k : Nat} (hj : j < cap) (hk : k < cap) :
    Fin.ofNat cap j = Fin.ofNat cap k ↔ j = k := by
  rw [Fin.ext_iff]
  change j % cap = k % cap ↔ _
  rw [Nat.mod_eq_of_lt hj, Nat.mod_eq_of_lt hk]

theorem isFull_iff (q : Circular α cap) : q.isFull ↔ q.size + 1 = cap := by
  have hlt := q.size_lt
  have hnext : q.tail + 1 = q.head ↔ Fin.ofNat cap (q.size + 1) = 0 := by
    rw [ofNat_succ, ofNat_size, sub_add_eq_add_sub, sub_eq_zero]
  have hval : Fin.ofNat cap (q.size + 1) = 0 ↔ (q.size + 1) % cap = 0 := by
    rw [← Fin.val_eq_zero_iff]
    rfl
  rw [isFull, decide_eq_true_eq, hnext, hval]
  constructor
  · intro h
    have := Nat.le_of_dvd (by omega) (Nat.dvd_of_mod_eq_zero h)
    omega
  · intro h
    rw [h, Nat.mod_self]

theorem size_put {q : Circular α cap} (h : q.isFull = false) (x : α) :
    (q.put x).size = q.size + 1 := by
  have hlt := q.size_lt
  have hne : q.size + 1 ≠ cap := by
    intro e
    rw [q.isFull_iff.mpr e] at h
    cases h
  have hsub : (q.put x).tail - (q.put x).head = Fin.ofNat cap (q.size + 1) := by
    rw [ofNat_succ, ofNat_size, sub_add_eq_add_sub]
    rfl
  rw [size, hsub]
  exact Nat.mod_eq_of_lt (by omega)

theorem size_take {q : Circular α cap} (h : q.isEmpty = false) : q.take.size + 1 = q.size := by
  have hlt := q.size_lt
  have hpos : q.size ≠ 0 := by
    intro e
    rw [q.isEmpty_iff.mpr e] at h
    cases h
  obtain ⟨k, hk⟩ := Nat.exists_eq_succ_of_ne_zero hpos
  have hsub : q.take.tail - q.take.head = Fin.ofNat cap k := by
    have := q.ofNat_size
    rw [hk, ofNat_succ] at this
    rw [← add_sub_cancel_right (Fin.ofNat cap k) 1, this, sub_sub]
    rfl
  rw [size, hsub, hk]
  exact congrArg (· + 1) (Nat.mod_eq_of_lt (by omega))

theorem contents_stage (q : Circular α cap) (x : α) :
    (Circular.mk (Function.update q.cell q.tail x) q.head q.tail).contents = q.contents := by
  have hlt := q.size_lt
  refine List.map_congr_left fun k hk => ?_
  have hk : k < q.size := List.mem_range.mp hk
  apply Function.update_of_ne
  rw [q.tail_eq, Ne, add_right_inj, ofNat_inj (hk.trans hlt) hlt]
  exact hk.ne

theorem contents_put {q : Circular α cap} (h : q.isFull = false) (x : α) :
    (q.put x).contents = q.contents ++ [x] := by
  have hlast : (q.put x).cell (q.head + Fin.ofNat cap q.size) = x := by
    rw [← q.tail_eq]
    exact Function.update_self ..
  have hhead : (q.put x).head = q.head := rfl
  rw [contents, size_put h, List.range_succ, List.map_append, List.map_singleton, hhead, hlast]
  congr 1
  exact q.contents_stage x

theorem contents_take {q : Circular α cap} (h : q.isEmpty = false) :
    q.contents = q.front :: q.take.contents := by
  rw [contents, ← size_take h, List.range_succ_eq_map, List.map_cons, List.map_map]
  congr 1
  · simp [front]
  · refine List.map_congr_left fun k _ => ?_
    change q.cell (q.head + Fin.ofNat cap (k + 1)) = q.cell (q.head + 1 + Fin.ofNat cap k)
    rw [ofNat_succ, add_assoc, add_comm 1]

theorem contents_eq_nil {q : Circular α cap} (h : q.isEmpty) : q.contents = [] := by
  rw [contents, q.isEmpty_iff.mp h]
  rfl

end Circular

end Xv6.Lib

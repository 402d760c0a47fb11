import Mathlib.Tactic

namespace Xv6.Lib

/-- A queue in an array of `cap` cells, with the numbers of elements that have been read and
written so far in 32 bits. -/
structure Ring (α : Type) (cap : Nat) where
  cell : Fin cap → α
  nread : UInt32
  nwrite : UInt32

namespace Ring

variable {α : Type} {cap : Nat} [NeZero cap]

/-- The cell of element number `n`. -/
def index (cap : Nat) [NeZero cap] (n : UInt32) : Fin cap := Fin.ofNat cap n.toNat

def isEmpty (r : Ring α cap) : Bool := r.nread = r.nwrite

def isFull (r : Ring α cap) : Bool := r.nwrite = r.nread + UInt32.ofNat cap

def push (r : Ring α cap) (x : α) : Ring α cap :=
  { r with cell := Function.update r.cell (index cap r.nwrite) x, nwrite := r.nwrite + 1 }

def front (r : Ring α cap) : α := r.cell (index cap r.nread)

def pop (r : Ring α cap) : Ring α cap := { r with nread := r.nread + 1 }

def size (r : Ring α cap) : Nat := (r.nwrite - r.nread).toNat

/-- The elements between `nread` and `nwrite`, the oldest first. -/
def contents (r : Ring α cap) : List α :=
  (List.range r.size).map fun k => r.cell (index cap (r.nread + UInt32.ofNat k))

omit [NeZero cap] in
theorem isEmpty_iff (r : Ring α cap) : r.isEmpty ↔ r.size = 0 := by
  have := r.nread.toNat_lt
  have := r.nwrite.toNat_lt
  simp only [isEmpty, size, decide_eq_true_eq, ← UInt32.toNat_inj, UInt32.toNat_sub]
  omega

omit [NeZero cap] in
theorem isFull_iff (hlt : cap < 2 ^ 32) (r : Ring α cap) : r.isFull ↔ r.size = cap := by
  have := r.nread.toNat_lt
  have := r.nwrite.toNat_lt
  simp only [isFull, size, decide_eq_true_eq, ← UInt32.toNat_inj, UInt32.toNat_sub,
    UInt32.toNat_add, UInt32.toNat_ofNat']
  omega

theorem index_add (hd : cap ∣ 2 ^ 32) (n : UInt32) (k : Nat) :
    index cap (n + UInt32.ofNat k) = Fin.ofNat cap (n.toNat + k) := by
  apply Fin.ext
  simp only [index, Fin.ofNat, UInt32.toNat_add, UInt32.toNat_ofNat']
  rw [Nat.mod_mod_of_dvd _ hd, Nat.add_mod, Nat.mod_mod_of_dvd _ hd, ← Nat.add_mod]

theorem index_inj (hd : cap ∣ 2 ^ 32) (n : UInt32) {j k : Nat} (hj : j < cap) (hk : k < cap) :
    index cap (n + UInt32.ofNat j) = index cap (n + UInt32.ofNat k) ↔ j = k := by
  rw [index_add hd, index_add hd, Fin.ext_iff]
  simp only [Fin.ofNat]
  constructor
  · intro h
    have hmod : j ≡ k [MOD cap] := Nat.ModEq.add_left_cancel' n.toNat h
    rwa [Nat.ModEq, Nat.mod_eq_of_lt hj, Nat.mod_eq_of_lt hk] at hmod
  · rintro rfl
    rfl

omit [NeZero cap] in
theorem nwrite_eq (r : Ring α cap) : r.nwrite = r.nread + UInt32.ofNat r.size := by
  have := r.nread.toNat_lt
  have := r.nwrite.toNat_lt
  simp only [size, ← UInt32.toNat_inj, UInt32.toNat_sub, UInt32.toNat_add, UInt32.toNat_ofNat']
  omega

theorem size_push (hlt : cap < 2 ^ 32) {r : Ring α cap} (h : r.size < cap) (x : α) :
    (r.push x).size = r.size + 1 := by
  have := r.nread.toNat_lt
  have := r.nwrite.toNat_lt
  simp only [size, push, UInt32.toNat_sub, UInt32.toNat_add, UInt32.toNat_one] at h ⊢
  omega

omit [NeZero cap] in
theorem size_pop {r : Ring α cap} (h : r.isEmpty = false) : r.pop.size + 1 = r.size := by
  have hpos : r.size ≠ 0 := by
    intro he
    rw [r.isEmpty_iff.mpr he] at h
    cases h
  have := r.nread.toNat_lt
  have := r.nwrite.toNat_lt
  simp only [size, pop, UInt32.toNat_sub, UInt32.toNat_add, UInt32.toNat_one] at hpos ⊢
  omega

theorem contents_push (hd : cap ∣ 2 ^ 32) (hlt : cap < 2 ^ 32) {r : Ring α cap}
    (h : r.size < cap) (x : α) : (r.push x).contents = r.contents ++ [x] := by
  have hcell : ∀ k < r.size, (r.push x).cell (index cap (r.nread + UInt32.ofNat k)) =
      r.cell (index cap (r.nread + UInt32.ofNat k)) := by
    intro k hk
    apply Function.update_of_ne
    rw [r.nwrite_eq, Ne, index_inj hd _ (hk.trans h) h]
    exact hk.ne
  have hlast : (r.push x).cell (index cap (r.nread + UInt32.ofNat r.size)) = x := by
    rw [← r.nwrite_eq]
    exact Function.update_self ..
  have hread : (r.push x).nread = r.nread := rfl
  rw [contents, size_push hlt h, List.range_succ, List.map_append, List.map_singleton, hread, hlast]
  congr 1
  refine List.map_congr_left fun k hk => hcell k ?_
  simpa using hk

theorem contents_pop {r : Ring α cap} (h : r.isEmpty = false) :
    r.contents = r.front :: r.pop.contents := by
  have hsize := size_pop h
  have hnum : ∀ k, r.pop.nread + UInt32.ofNat k = r.nread + UInt32.ofNat (k + 1) := by
    intro k
    simp only [pop, UInt32.ofNat_add]
    rw [UInt32.add_assoc, UInt32.add_comm 1]
    rfl
  rw [contents, ← hsize, List.range_succ_eq_map, List.map_cons, List.map_map]
  congr 1
  · simp [front]
  · refine List.map_congr_left fun k _ => ?_
    rw [hnum]
    rfl

def unpush (r : Ring α cap) : Ring α cap := { r with nwrite := r.nwrite - 1 }

def last (r : Ring α cap) : α := r.cell (index cap (r.nwrite - 1))

omit [NeZero cap] in
theorem size_unpush {r : Ring α cap} (h : r.isEmpty = false) : r.unpush.size + 1 = r.size := by
  have hpos : r.size ≠ 0 := by
    intro he
    rw [r.isEmpty_iff.mpr he] at h
    cases h
  have := r.nread.toNat_lt
  have := r.nwrite.toNat_lt
  simp only [size, unpush, UInt32.toNat_sub, UInt32.toNat_one] at hpos ⊢
  omega

theorem contents_unpush {r : Ring α cap} (h : r.isEmpty = false) :
    r.contents = r.unpush.contents ++ [r.last] := by
  have hlast : r.nread + UInt32.ofNat r.unpush.size = r.nwrite - 1 := r.unpush.nwrite_eq.symm
  rw [contents, ← size_unpush h, List.range_succ, List.map_append, List.map_singleton, hlast]
  rfl

end Ring

end Xv6.Lib

import Xv6.Bcache.Machine

namespace Xv6.Bcache

open Lib.Pointers

variable {N : Nat} {s : State N} {xs ys : List Slot} {i j : Slot}

structure Listed (s : State N) (xs : List Slot) : Prop where
  ring : Doubly s.next s.prev none (xs.map some)
  all : ∀ i, i ∈ xs

theorem not_mem_map_some (h : i ∉ xs) : some i ∉ none :: xs.map some := by
  simpa using h

theorem Listed.nodup (h : Listed s xs) : xs.Nodup :=
  List.Nodup.of_map some (List.nodup_cons.mp h.ring.nodup).2

theorem Listed.length_le (h : Listed s xs) : xs.length ≤ NBUF := by
  have := h.nodup.length_le_card
  rwa [Fintype.card_fin] at this

theorem push_ring (h : Doubly s.next s.prev none (xs.map some)) (hi : i ∉ xs) :
    Doubly (s.push i).next (s.push i).prev none ((i :: xs).map some) := by
  have hne : (none : Node) ≠ some i := nofun
  have hpush := h.push (not_mem_map_some hi)
  have hhead : (s.push i).prev =
      Function.update (Function.update s.prev (some i) none) (s.next none) (some i) := by
    simp only [State.push, State.setNext, State.setPrev, Function.update_of_ne hne]
  rw [hhead]
  exact hpush

theorem unlink_ring (h : Doubly s.next s.prev none ((xs ++ i :: ys).map some)) :
    Doubly (s.unlink i).next (s.unlink i).prev none ((xs ++ ys).map some) := by
  have hprev : (s.unlink i).next = Function.update s.next (s.prev (some i)) (s.next (some i)) := by
    have hkeep : Function.update s.prev (s.next (some i)) (s.prev (some i)) (some i) =
        s.prev (some i) := by
      by_cases he : some i = s.next (some i)
      · rw [← he, Function.update_self]
      · exact Function.update_of_ne he ..
    simp only [State.unlink, State.setNext, State.setPrev, hkeep]
  rw [List.map_append, List.map_cons] at h
  rw [hprev, List.map_append]
  exact h.remove

theorem Listed.move (h : Listed s (xs ++ i :: ys)) :
    Listed ((s.unlink i).push i) (i :: (xs ++ ys)) := by
  have hi : i ∉ xs ++ ys := (List.nodup_middle.mp h.nodup).notMem
  refine ⟨push_ring (unlink_ring h.ring) hi, fun j => ?_⟩
  have hj := h.all j
  simp only [List.mem_append, List.mem_cons] at hj ⊢
  tauto

theorem foldl_push_ring (ys : List Slot) (h : Doubly s.next s.prev none (xs.map some))
    (hd : (xs.reverse ++ ys).Nodup) :
    Doubly (ys.foldl State.push s).next (ys.foldl State.push s).prev none
      ((ys.reverse ++ xs).map some) := by
  induction ys generalizing s xs with
  | nil => exact h
  | cons y ys ih =>
    have hy : y ∉ xs := by
      have := (List.nodup_middle.mp hd).notMem
      simp only [List.mem_append, List.mem_reverse, not_or] at this
      exact this.1
    have hd' : ((y :: xs).reverse ++ ys).Nodup := by
      rw [List.reverse_cons, List.append_assoc]
      exact hd
    have := ih (push_ring h hy) hd'
    rw [List.reverse_cons, List.append_assoc]
    exact this

theorem foldl_push (ys : List Slot) (s : State N) :
    (ys.foldl State.push s).buf = s.buf ∧ (ys.foldl State.push s).pc = s.pc ∧
      (ys.foldl State.push s).pins = s.pins := by
  induction ys generalizing s with
  | nil => exact ⟨rfl, rfl, rfl⟩
  | cons y ys ih => exact ih (s.push y)

theorem binit_listed (N : Nat) (prev next : Node → Node) :
    Listed (binit N prev next) (List.finRange NBUF).reverse := by
  constructor
  · have hnext : (((raw N prev next).setPrev none none).setNext none none).next none = none := by
      simp [State.setNext]
    have hprev : (((raw N prev next).setPrev none none).setNext none none).prev none = none := by
      simp [State.setNext, State.setPrev]
    have hone : Doubly _ _ none (([] : List Slot).map some) := Doubly.single hnext hprev
    have := foldl_push_ring (List.finRange NBUF) hone (List.nodup_finRange NBUF)
    rwa [List.append_nil] at this
  · intro i
    exact List.mem_reverse.mpr (List.mem_finRange i)

theorem scan_eq_find {follow : Node → Node} {a : Node} (test : Slot → Bool) {fuel : Nat}
    (h : Links follow a (xs.map some) none) (hf : xs.length ≤ fuel) :
    scan follow test fuel (follow a) = xs.find? test := by
  induction xs generalizing a fuel with
  | nil =>
    have h : follow a = none := h
    rw [h]
    cases fuel <;> rfl
  | cons x xs ih =>
    obtain ⟨ha, hx⟩ := h
    cases fuel with
    | zero => simp at hf
    | succ fuel =>
      rw [ha, scan, List.find?_cons]
      cases htest : test x with
      | true => rfl
      | false => exact ih hx (by simpa using hf)

theorem Listed.scan_next (h : Listed s xs) (test : Slot → Bool) :
    scan s.next test NBUF (s.next none) = xs.find? test :=
  scan_eq_find test h.ring.next_links h.length_le

end Xv6.Bcache

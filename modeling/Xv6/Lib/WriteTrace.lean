import Mathlib.Logic.Function.Basic
import Mathlib.Tactic

namespace Xv6.Lib.WriteTrace

variable {A B : Type} [DecidableEq A]

abbrev Prog (A B : Type) := (A → B) → List (A × B)

def apply (ws : List (A × B)) (d : A → B) : A → B :=
  ws.foldl (fun d w => Function.update d w.1 w.2) d

def exec (p : Prog A B) (d : A → B) : A → B := apply (p d) d

/-- The store left behind when the program is cut off after `k` writes. -/
def crash (k : Nat) (p : Prog A B) (d : A → B) : A → B := apply ((p d).take k) d

def skip : Prog A B := fun _ => []

def write (a : A) (f : (A → B) → B) : Prog A B := fun d => [(a, f d)]

def seq (p q : Prog A B) : Prog A B := fun d => p d ++ q (exec p d)

@[simp] theorem apply_nil (d : A → B) : apply [] d = d := rfl

@[simp] theorem apply_cons (w : A × B) (ws : List (A × B)) (d : A → B) :
    apply (w :: ws) d = apply ws (Function.update d w.1 w.2) := rfl

theorem apply_append (ws vs : List (A × B)) (d : A → B) :
    apply (ws ++ vs) d = apply vs (apply ws d) := List.foldl_append

theorem apply_of_notMem {ws : List (A × B)} {a : A} (h : ∀ w ∈ ws, w.1 ≠ a) (d : A → B) :
    apply ws d a = d a := by
  induction ws generalizing d with
  | nil => rfl
  | cons w ws ih =>
    obtain ⟨hw, hws⟩ := List.forall_mem_cons.mp h
    rw [apply_cons, ih hws, Function.update_of_ne hw.symm]

theorem map_apply_zip {as : List A} {bs : List B} (hlen : as.length = bs.length) (hnd : as.Nodup)
    (d : A → B) : as.map (apply (as.zip bs) d) = bs := by
  induction as generalizing bs d with
  | nil => rw [List.length_eq_zero_iff.mp hlen.symm, List.map_nil]
  | cons a as ih =>
    cases bs with
    | nil => cases hlen
    | cons b bs =>
      obtain ⟨ha, hnd⟩ := List.nodup_cons.mp hnd
      have hself : ∀ w ∈ as.zip bs, w.1 ≠ a := by
        rintro ⟨a', b'⟩ hw rfl
        exact ha (List.of_mem_zip hw).1
      rw [List.zip_cons_cons, List.map_cons, apply_cons, ih (Nat.succ.inj hlen) hnd,
        apply_of_notMem hself, Function.update_self]

@[simp] theorem exec_skip (d : A → B) : exec skip d = d := rfl

@[simp] theorem exec_write (a : A) (f : (A → B) → B) (d : A → B) :
    exec (write a f) d = Function.update d a (f d) := rfl

theorem exec_seq (p q : Prog A B) (d : A → B) : exec (seq p q) d = exec q (exec p d) :=
  apply_append _ _ _

theorem crash_of_length_le {k : Nat} {p : Prog A B} {d : A → B} (h : (p d).length ≤ k) :
    crash k p d = exec p d := by
  rw [crash, List.take_of_length_le h, exec]

theorem crash_seq (k : Nat) (p q : Prog A B) (d : A → B) :
    crash k (seq p q) d =
      if k ≤ (p d).length then crash k p d else crash (k - (p d).length) q (exec p d) := by
  split
  · next h => rw [crash, seq, List.take_append_of_le_length h, crash]
  · next h =>
    have hk : (p d).length ≤ k := by omega
    rw [crash, seq, List.take_append, List.take_of_length_le hk, apply_append]
    rfl

theorem crash_induction {P : (A → B) → Prop} {p q : Prog A B} {d : A → B}
    (hp : ∀ k, P (crash k p d)) (hq : ∀ k, P (crash k q (exec p d))) (k : Nat) :
    P (crash k (seq p q) d) := by
  rw [crash_seq]
  split
  · exact hp k
  · exact hq _

theorem crash_write {P : (A → B) → Prop} {a : A} {f : (A → B) → B} {d : A → B}
    (h : P d) (h' : P (Function.update d a (f d))) (k : Nat) : P (crash k (write a f) d) := by
  cases k with
  | zero => exact h
  | succ k => simpa [crash, write] using h'

end Xv6.Lib.WriteTrace

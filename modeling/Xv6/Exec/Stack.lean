import Xv6.Exec.Load

namespace Xv6.Exec

open Lib.Bytes Lib.Command Lib.Record Vm

variable {s s' s'' : Phys} {root np sp v lo hi : Nat} {free kernel : List Nat}
  {argv : List (List UInt8)}

def room (n : Nat) : Nat := (n + 15) / 16 * 16

def need (argv : List (List UInt8)) : Nat := (argv.map fun arg => room (arg.length + 1)).sum

/-- Where the strings go, from `sp` on down. -/
def slots (sp : Nat) : List (List UInt8) → List Nat
  | [] => []
  | arg :: argv => (sp - room (arg.length + 1)) :: slots (sp - room (arg.length + 1)) argv

def Fits (argv : List (List UInt8)) : Prop := need argv + room ((argv.length + 1) * 8) ≤ PGSIZE

theorem le_room (n : Nat) : n ≤ room n := by
  rw [room]
  omega

theorem room_mod (n : Nat) : room n % 16 = 0 := Nat.mul_mod_left _ 16

theorem need_cons (arg : List UInt8) (argv : List (List UInt8)) :
    need (arg :: argv) = room (arg.length + 1) + need argv := by
  rw [need, List.map_cons, List.sum_cons]
  rfl

theorem need_mod (argv : List (List UInt8)) : need argv % 16 = 0 := by
  induction argv with
  | nil => rfl
  | cons arg argv ih =>
    have := room_mod (arg.length + 1)
    rw [need_cons]
    omega

theorem length_slots (sp : Nat) (argv : List (List UInt8)) : (slots sp argv).length = argv.length := by
  induction argv generalizing sp with
  | nil => rfl
  | cons arg argv ih => rw [slots, List.length_cons, ih, List.length_cons]

theorem pushDown_eq {n : Nat} (hal : sp % 16 = 0) (hn : n ≤ sp) (hsp : sp < 2 ^ 63) :
    pushDown sp n = sp - room n := by
  have hmod : (sp + (2 ^ 64 - n)) % 2 ^ 64 = sp - n := by omega
  rw [pushDown, hmod, room]
  omega

structure Touched (root np lo hi : Nat) (s s' : Phys) : Prop where
  freelist : s'.freelist = s.freelist
  frame : ∀ a, (∀ v, v < np → pageAt s.mem root v ≠ a) → s'.mem a = s.mem a
  entry : ∀ v, entry s'.mem root v = entry s.mem root v
  byte : ∀ u, u < np * 4096 → ¬(lo ≤ u ∧ u < hi) → userByte s' root u = userByte s root u

theorem Touched.refl (root np lo hi : Nat) (s : Phys) : Touched root np lo hi s s :=
  ⟨rfl, fun _ _ => rfl, fun _ => rfl, fun _ _ _ => rfl⟩

theorem Touched.trans {lo' hi' : Nat} (h : Touched root np lo hi s s')
    (h' : Touched root np lo' hi' s' s'') {l r : Nat} (hl : l ≤ lo) (hl' : l ≤ lo') (hr : hi ≤ r)
    (hr' : hi' ≤ r) : Touched root np l r s s'' := by
  refine ⟨h'.freelist.trans h.freelist, fun a ha => ?_, fun v => (h'.entry v).trans (h.entry v),
    fun u hu hout => ?_⟩
  · rw [h'.frame a (fun v hv => ?_), h.frame a ha]
    rw [pageAt, h.entry]
    exact ha v hv
  · rw [h'.byte u hu (by omega), h.byte u hu (by omega)]

theorem touched_of_wrote {va len : Nat} {f : Nat → UInt8} (h : Wrote root np va len f s s')
    (hlo : lo ≤ va) (hhi : va + len ≤ hi) : Touched root np lo hi s s' := by
  refine ⟨h.freelist, h.frame, h.entry, fun u hu hout => ?_⟩
  rw [h.byte u hu, if_neg (by omega)]

theorem Touched.wrote (h : Touched root np lo hi s s') :
    Wrote root np lo (hi - lo) (fun k => userByte s' root (lo + k)) s s' := by
  refine ⟨h.freelist, h.frame, h.entry, fun u hu => ?_⟩
  split
  next hin => rw [show lo + (u - lo) = u by omega]
  next hout => exact h.byte u hu (by omega)

def HasString (s : Phys) (root a : Nat) (arg : List UInt8) : Prop :=
  ∀ k, k < arg.length + 1 → userByte s root (a + k) = (arg ++ [0]).getD k 0

def HasStrings (s : Phys) (root : Nat) (ptrs : List Nat) (argv : List (List UInt8)) : Prop :=
  List.Forall₂ (fun a arg => a % 16 = 0 ∧ HasString s root a arg) ptrs argv

theorem HasString.touched {a : Nat} {arg : List UInt8} (h : HasString s root a arg)
    (ht : Touched root np lo hi s s') (hend : a + (arg.length + 1) ≤ np * 4096) (ha : hi ≤ a) :
    HasString s' root a arg := by
  intro k hk
  rw [ht.byte _ (by omega) (by omega)]
  exact h k hk

theorem HasStrings.touched (h : HasStrings s root (slots sp argv) argv)
    (ht : Touched root np lo hi s s') (hend : sp ≤ np * 4096) (hneed : hi + need argv ≤ sp) :
    HasStrings s' root (slots sp argv) argv := by
  induction argv generalizing sp with
  | nil => exact .nil
  | cons arg argv ih =>
    have hroom := le_room (arg.length + 1)
    rw [need_cons] at hneed
    cases h with
    | cons hfirst hrest =>
      refine .cons ⟨hfirst.1, hfirst.2.touched ht (by omega) (by omega)⟩ (ih hrest (by omega) (by omega))

variable [KernelImage]

theorem pushArgs_meets {ustack : List Nat} (h : UserTable kernel s root free (v + 1))
    (hacc : Accessible s root v) (hv : 1 ≤ v) (hal : sp % 16 = 0) (hlo : v * 4096 ≤ sp)
    (hhi : sp ≤ v * 4096 + 4096) (hargs : ∀ arg ∈ argv, arg.length < 4096)
    (hcount : ustack.length + argv.length ≤ MAXARG) :
    Meets (pushArgs root (v * 4096) argv sp ustack) s
      (fun r s' => Touched root (v + 1) (v * 4096) sp s s' ∧
        if v * 4096 + need argv ≤ sp
        then r = some (sp - need argv, ustack ++ slots sp argv) ∧
          HasStrings s' root (slots sp argv) argv
        else r = none)
      (fun _ => False) := by
  induction argv generalizing s sp ustack with
  | nil =>
    refine Meets.pure ⟨.refl root _ _ _ s, ?_⟩
    rw [if_pos (by rw [need]; simpa using hlo)]
    exact ⟨by simp [need, slots], .nil⟩
  | cons arg argv ih =>
    have hmem := h.space.le_memory
    have hlen := hargs arg List.mem_cons_self
    have hroom := le_room (arg.length + 1)
    have hrm := room_mod (arg.length + 1)
    rw [List.length_cons] at hcount
    rw [pushArgs, if_neg (by omega), pushDown_eq hal (by omega) (by omega)]
    dsimp only
    split
    next hbelow =>
      refine Meets.pure ⟨.refl root _ _ _ s, ?_⟩
      rw [need_cons, if_neg (by omega)]
    next hfit =>
      have hend : sp - room (arg.length + 1) + (arg ++ [0]).length ≤ v * 4096 + 4096 := by
        rw [List.length_append, List.length_singleton]
        omega
      refine Meets.seq (copyout_meets h (by rw [Nat.succ_mul]; exact hend) fun u hu hu' => ?_) ?_
      · obtain rfl : u = v := by
          rw [List.length_append, List.length_singleton] at hu'
          omega
        exact hacc
      · rintro _ s₁ ⟨rfl, hw⟩
        rw [List.length_append, List.length_singleton] at hw
        rw [if_pos rfl]
        have ht₁ : Touched root (v + 1) (sp - room (arg.length + 1)) sp s s₁ :=
          touched_of_wrote hw le_rfl (by omega)
        have hstring : HasString s₁ root (sp - room (arg.length + 1)) arg := by
          intro k hk
          have hlt : sp - room (arg.length + 1) + k < (v + 1) * 4096 := by
            rw [Nat.succ_mul]
            omega
          rw [hw.byte _ hlt, if_pos ⟨Nat.le_add_right .., Nat.add_lt_add_left hk _⟩, Nat.add_sub_cancel_left]
        refine (ih (h.wrote hw) (by rw [Accessible, hw.entry]; exact hacc) (by omega) (by omega) (by omega)
          (fun arg hm => hargs arg (List.mem_cons_of_mem _ hm)) ?_).post ?_
        · rw [List.length_append, List.length_singleton]
          omega
        · rintro r s₂ ⟨ht₂, hr⟩
          refine ⟨ht₁.trans ht₂ (by omega) le_rfl le_rfl (by omega), ?_⟩
          rw [need_cons]
          split at hr
          next hc =>
            have hcond : v * 4096 + (room (arg.length + 1) + need argv) ≤ sp := by
              have hpos : 0 < v * 4096 := Nat.mul_pos hv (by decide)
              generalize v * 4096 = base at hc hpos
              omega
            rw [if_pos hcond]
            refine ⟨?_, .cons ⟨by omega, hstring.touched ht₂ ?_ le_rfl⟩ hr.2⟩
            · rw [hr.1, slots, Nat.sub_add_eq, List.append_assoc]
              rfl
            · rw [Nat.succ_mul]
              omega
          next hc =>
            rw [if_neg (by omega)]
            exact hr

def userWord (s : Phys) (root va : Nat) : Nat := natOfBytes (fun j => userByte s root (va + j)) 8

omit [KernelImage] in
theorem getD_flatMap (ws : List Nat) {i j : Nat} (hi : i < ws.length) (hj : j < 8) :
    (ws.flatMap (bytesOfNat 8)).getD (8 * i + j) 0 = byteOfNat (ws.getD i 0) j := by
  induction ws generalizing i with
  | nil => simp at hi
  | cons w ws ih =>
    rw [List.flatMap_cons, List.getD_eq_getElem?_getD, List.getElem?_append, length_bytesOfNat]
    cases i with
    | zero => simp [hj, bytesOfNat]
    | succ i =>
      have hlt : i < ws.length := by simpa using hi
      rw [if_neg (by omega), ← List.getD_eq_getElem?_getD, show 8 * (i + 1) + j - 8 = 8 * i + j by omega,
        ih hlt]
      rfl

omit [KernelImage] in
theorem length_flatMap (ws : List Nat) : (ws.flatMap (bytesOfNat 8)).length = ws.length * 8 := by
  induction ws with
  | nil => rfl
  | cons w ws ih =>
    rw [List.flatMap_cons, List.length_append, length_bytesOfNat, ih, List.length_cons]
    omega

omit [KernelImage] in
theorem userWord_of_wrote {va len : Nat} {ws : List Nat} {i : Nat}
    (h : Wrote root np va len ((ws.flatMap (bytesOfNat 8)).getD · 0) s s')
    (hlen : len = ws.length * 8) (hend : va + len ≤ np * 4096) (hi : i < ws.length)
    (hw : ws.getD i 0 < 2 ^ 64) : userWord s' root (va + 8 * i) = ws.getD i 0 := by
  have hbyte : ∀ j, j < 8 → userByte s' root (va + 8 * i + j) = byteOfNat (ws.getD i 0) j := by
    intro j hj
    rw [h.byte _ (by omega), if_pos (by omega), ← getD_flatMap ws hi hj]
    congr 1
    omega
  rw [userWord, natOfBytes_congr hbyte, natOfBytes_byteOfNat]
  exact Nat.mod_eq_of_lt hw

def pieces (sp : Nat) (ptrs : List Nat) (argv : List (List UInt8)) : List (Nat × Nat) :=
  (sp, (argv.length + 1) * 8) :: List.zipWith (fun a arg => (a, arg.length + 1)) ptrs argv

/-- The arguments are on the stack page below `sz`, where a new program expects them. -/
structure ArgStack (s : Phys) (root sz : Nat) (argv : List (List UInt8)) (sp : Nat)
    (ptrs : List Nat) : Prop where
  aligned : sp % 16 = 0
  pointers : ∀ i, i < argv.length → userWord s root (sp + 8 * i) = ptrs.getD i 0
  null : userWord s root (sp + 8 * argv.length) = 0
  strings : HasStrings s root ptrs argv
  disjoint : (pieces sp ptrs argv).Pairwise fun x y => x.1 + x.2 ≤ y.1 ∨ y.1 + y.2 ≤ x.1
  within : ∀ x ∈ pieces sp ptrs argv, sz - PGSIZE ≤ x.1 ∧ x.1 + x.2 ≤ sz

omit [KernelImage] in
theorem slots_bounds (hneed : need argv ≤ sp) :
    ∀ x ∈ List.zipWith (fun a arg => (a, List.length arg + 1)) (slots sp argv) argv,
      sp - need argv ≤ x.1 ∧ x.1 + x.2 ≤ sp := by
  induction argv generalizing sp with
  | nil => simp [slots]
  | cons arg argv ih =>
    have hroom := le_room (arg.length + 1)
    rw [need_cons] at hneed ⊢
    intro x hx
    rw [slots, List.zipWith_cons_cons, List.mem_cons] at hx
    obtain rfl | hx := hx
    · dsimp only
      omega
    · have := ih (by omega) x hx
      omega

omit [KernelImage] in
theorem slots_disjoint (hneed : need argv ≤ sp) :
    (List.zipWith (fun a arg => (a, List.length arg + 1)) (slots sp argv) argv).Pairwise
      fun x y => x.1 + x.2 ≤ y.1 ∨ y.1 + y.2 ≤ x.1 := by
  induction argv generalizing sp with
  | nil => simp [slots]
  | cons arg argv ih =>
    rw [need_cons] at hneed
    rw [slots, List.zipWith_cons_cons, List.pairwise_cons]
    refine ⟨fun x hx => .inr ?_, ih (by omega)⟩
    exact (slots_bounds (by omega) x hx).2

omit [KernelImage] in
theorem slots_lt {bound : Nat} (hsp : sp < bound) {a : Nat} (ha : a ∈ slots sp argv) : a < bound := by
  induction argv generalizing sp with
  | nil => simp [slots] at ha
  | cons arg argv ih =>
    rw [slots, List.mem_cons] at ha
    obtain rfl | ha := ha
    · omega
    · exact ih (by omega) ha

theorem pushStack_meets (h : UserTable kernel s root free (v + 1)) (hacc : Accessible s root v)
    (hv : 1 ≤ v) (hargs : ∀ arg ∈ argv, arg.length < 4096) (hcount : argv.length ≤ MAXARG) :
    Meets (pushStack root (v * 4096 + 4096) argv) s
      (fun r s' => Touched root (v + 1) (v * 4096) (v * 4096 + 4096) s s' ∧
        match r with
        | none => ¬Fits argv
        | some sp => Fits argv ∧
          ArgStack s' root (v * 4096 + 4096) argv sp (slots (v * 4096 + 4096) argv))
      (fun _ => False) := by
  have hbase : v * 4096 + 4096 - PGSIZE = v * 4096 := Nat.add_sub_cancel ..
  have hmem := h.space.le_memory
  rw [pushStack, hbase]
  refine Meets.seq (pushArgs_meets h hacc hv (by omega) (by omega) le_rfl hargs
    (by simpa using hcount)) ?_
  rintro r s₁ ⟨ht, hr⟩
  split at hr
  next hfit =>
    obtain ⟨rfl, hstrings⟩ := hr
    have hnm := need_mod argv
    have hrm := room_mod ((argv.length + 1) * 8)
    have hroom := le_room ((argv.length + 1) * 8)
    have hmax : (argv.length + 1) * 8 ≤ 264 := by
      change argv.length ≤ 32 at hcount
      omega
    have hlen : ([] ++ slots (v * 4096 + 4096) argv).length = argv.length := by
      rw [List.nil_append, length_slots]
    dsimp only
    rw [hlen, pushDown_eq (by omega) (by omega) (by omega), List.nil_append]
    generalize hsp : v * 4096 + 4096 - need argv - room ((argv.length + 1) * 8) = sp
    split
    next hbelow =>
      refine Meets.pure ⟨ht, fun hf => ?_⟩
      change _ ≤ 4096 at hf
      omega
    next habove =>
      have hwords : (slots (v * 4096 + 4096) argv ++ [0]).length = argv.length + 1 := by
        rw [List.length_append, length_slots, List.length_singleton]
      have hbytes : ((slots (v * 4096 + 4096) argv ++ [0]).flatMap (bytesOfNat 8)).length =
          (argv.length + 1) * 8 := by
        rw [length_flatMap, hwords]
      have htable := h.wrote ht.wrote
      refine Meets.seq (copyout_meets htable (by rw [hbytes, Nat.succ_mul]; omega) fun u hu hu' => ?_) ?_
      · rw [hbytes] at hu'
        obtain rfl : u = v := by omega
        rw [Accessible, ht.entry]
        exact hacc
      · rintro _ s₂ ⟨rfl, hw⟩
        rw [hbytes] at hw
        have ht₂ : Touched root (v + 1) sp (v * 4096 + 4096 - need argv) s₁ s₂ :=
          touched_of_wrote hw le_rfl (by omega)
        have hword : ∀ i, i < argv.length + 1 → userWord s₂ root (sp + 8 * i) =
            (slots (v * 4096 + 4096) argv ++ [0]).getD i 0 := by
          intro i hi
          refine userWord_of_wrote hw (by rw [hwords]) (by rw [Nat.succ_mul]; omega) (by omega) ?_
          have hin : i < (slots (v * 4096 + 4096) argv ++ [0]).length := by omega
          rw [List.getD_eq_getElem?_getD, List.getElem?_eq_getElem hin, Option.getD_some]
          obtain hm | hm := List.mem_append.mp (List.getElem_mem hin)
          · exact slots_lt (by omega) hm
          · rw [List.mem_singleton.mp hm]
            decide
        have hall : Touched root (v + 1) (v * 4096) (v * 4096 + 4096) s s₂ :=
          ht.trans ht₂ le_rfl (Nat.not_lt.mp habove) le_rfl (Nat.sub_le ..)
        rw [if_pos rfl]
        refine Meets.pure ⟨hall, ?_, by omega, fun i hi => ?_, ?_, ?_, ?_, ?_⟩
        · change _ ≤ 4096
          omega
        · rw [hword i (by omega), List.getD_eq_getElem?_getD,
            List.getElem?_append_left (by rw [length_slots]; exact hi), ← List.getD_eq_getElem?_getD]
        · rw [hword _ (by omega), List.getD_eq_getElem?_getD,
            List.getElem?_append_right (by rw [length_slots])]
          simp [length_slots]
        · exact hstrings.touched ht₂ (by rw [Nat.succ_mul]) (by omega)
        · rw [pieces, List.pairwise_cons]
          refine ⟨fun x hx => .inl ?_, slots_disjoint (by omega)⟩
          have := slots_bounds (by omega) x hx
          dsimp only
          omega
        · rw [hbase]
          intro x hx
          rw [pieces, List.mem_cons] at hx
          obtain rfl | hx := hx
          · dsimp only
            omega
          · have := slots_bounds (by omega) x hx
            omega
  next hfit =>
    subst hr
    refine Meets.pure ⟨ht, fun hf => hfit ?_⟩
    change _ ≤ 4096 at hf
    omega

end Xv6.Exec

import Xv6.Bcache.List
import Xv6.Lib.Bytes

namespace Xv6.Bcache

open Lib.Bytes Lib.Holder Lib.Pointers Lib.Transition

variable {N : Nat} {pid : Fin N → Nat} {s s' : State N} {xs : List Slot} {i j : Slot} {p q : Fin N}
  {c : Pc} {dev blockno : UInt32}

theorem uses_of_ref (h : c.ref = some (j, dev, blockno)) (i : Slot) :
    c.uses i = if j = i then 1 else 0 := by
  simp [Pc.uses, h]

theorem references_goto (s : State N) (p : Fin N) (c : Pc) (i : Slot) :
    (s.goto p c).references i + (s.pc p).uses i = s.references i + c.uses i := by
  have hsum := sum_update s.pc (Pc.uses i) p c
  simp only [State.references, State.goto]
  omega

theorem references_pos (h : (s.pc p).ref = some (i, dev, blockno)) : 0 < s.references i := by
  have hle := le_sum s.pc (Pc.uses i) p
  rw [uses_of_ref h, if_pos rfl] at hle
  rw [State.references]
  omega

def State.named (s : State N) (dev blockno : UInt32) (i : Slot) : Bool :=
  (s.buf i).caches dev blockno

theorem named_iff : s.named dev blockno i = true ↔
    (s.buf i).dev = dev ∧ (s.buf i).blockno = blockno := by
  simp [State.named, Buf.caches]

structure Inv (s : State N) (xs : List Slot) : Prop where
  listed : Listed s xs
  unique : ∀ i j, (s.buf i).dev = (s.buf j).dev → (s.buf i).blockno = (s.buf j).blockno →
    i = j ∨ (s.buf i).dev = 0
  first : ∀ p i dev blockno, (s.pc p).ref = some (i, dev, blockno) →
    xs.find? (s.named dev blockno) = some i
  count : ∀ i, (s.buf i).refcnt.toNat = s.references i
  lock : ∀ i, Holds (s.buf i).lock (Pc.holding i) s.pc

theorem binit_inv (N : Nat) (prev next : Node → Node) :
    Inv (binit N prev next) (List.finRange NBUF).reverse := by
  obtain ⟨hbuf, hpc, hpins⟩ := foldl_push (List.finRange NBUF)
    (((raw N prev next).setPrev none none).setNext none none)
  change (binit N prev next).buf = fun _ => ⟨false, 0, 0, none, 0⟩ at hbuf
  change (binit N prev next).pc = fun _ => .idle at hpc
  change (binit N prev next).pins = fun _ => 0 at hpins
  refine ⟨binit_listed N prev next, ?_, ?_, ?_, ?_⟩
  · intro i j _ _
    rw [hbuf]
    exact .inr rfl
  · intro p i dev blockno h
    rw [hpc] at h
    cases h
  · intro i
    rw [State.references, hbuf, hpc, hpins]
    simp [Pc.uses, Pc.ref]
  · intro i
    rw [hbuf, hpc]
    exact Holds.init fun q => rfl

theorem Inv.named_of_ref (h : Inv s xs) (hr : (s.pc p).ref = some (i, dev, blockno)) :
    s.named dev blockno i = true :=
  List.find?_some (h.first p i dev blockno hr)

theorem Inv.ne_of_free (h : Inv s xs) (hfree : (s.buf i).refcnt = 0)
    (hr : (s.pc p).ref = some (j, dev, blockno)) : j ≠ i := by
  rintro rfl
  have hpos := references_pos hr
  rw [← h.count j, hfree] at hpos
  exact absurd hpos (by decide)

structure SameNames (s s' : State N) : Prop where
  next : s'.next = s.next
  prev : s'.prev = s.prev
  dev : ∀ i, (s'.buf i).dev = (s.buf i).dev
  blockno : ∀ i, (s'.buf i).blockno = (s.buf i).blockno

theorem SameNames.named (h : SameNames s s') (dev blockno : UInt32) :
    s'.named dev blockno = s.named dev blockno := by
  funext i
  rw [State.named, State.named, Buf.caches, Buf.caches, h.dev, h.blockno]

theorem setBuf_sameNames {x : Buf N} (hd : x.dev = (s.buf i).dev)
    (hb : x.blockno = (s.buf i).blockno) : SameNames s (s.setBuf i x) := by
  refine ⟨rfl, rfl, fun j => ?_, fun j => ?_⟩
  · by_cases hj : j = i
    · subst hj
      rw [State.setBuf_self, hd]
    · rw [State.setBuf_ne x hj]
  · by_cases hj : j = i
    · subst hj
      rw [State.setBuf_self, hb]
    · rw [State.setBuf_ne x hj]

theorem SameNames.goto (h : SameNames s s') (p : Fin N) (c : Pc) : SameNames s (s'.goto p c) :=
  ⟨h.next, h.prev, h.dev, h.blockno⟩

theorem SameNames.setPins (h : SameNames s s') (i : Slot) (n : Nat) :
    SameNames s (s'.setPins i n) :=
  ⟨h.next, h.prev, h.dev, h.blockno⟩

theorem Inv.keep (h : Inv s xs) (hs : SameNames s s')
    (hfirst : ∀ p i dev blockno, (s'.pc p).ref = some (i, dev, blockno) →
      xs.find? (s.named dev blockno) = some i)
    (hcount : ∀ i, (s'.buf i).refcnt.toNat = s'.references i)
    (hlock : ∀ i, Holds (s'.buf i).lock (Pc.holding i) s'.pc) : Inv s' xs := by
  refine ⟨⟨?_, h.listed.all⟩, fun i j hd hb => ?_, fun p i dev blockno hr => ?_, hcount, hlock⟩
  · rw [hs.next, hs.prev]
    exact h.listed.ring
  · rw [hs.dev] at hd ⊢
    rw [hs.dev] at hd
    rw [hs.blockno, hs.blockno] at hb
    exact h.unique i j hd hb
  · rw [hs.named]
    exact hfirst p i dev blockno hr

theorem ref_goto {t : State N} (hr : ((t.goto p c).pc q).ref = some (i, dev, blockno)) :
    q = p ∧ c.ref = some (i, dev, blockno) ∨ (t.pc q).ref = some (i, dev, blockno) := by
  by_cases hq : q = p
  · subst hq
    rw [State.goto_pc, Function.update_self] at hr
    exact .inl ⟨rfl, hr⟩
  · rw [State.goto_pc, Function.update_of_ne hq] at hr
    exact .inr hr

section Lock

variable {k : Pc}

theorem setLock_sameNames {o : Option (Fin N)} : SameNames s (s.setLock i o) :=
  setBuf_sameNames rfl rfl

theorem Inv.setLock (h : Inv s xs) {o : Option (Fin N)} (hc : c.ref = (s.pc p).ref)
    (hi : Holds o (Pc.holding i) (Function.update s.pc p c))
    (hne : ∀ j, j ≠ i → Pc.holding j c = Pc.holding j (s.pc p)) :
    Inv ((s.setLock i o).goto p c) xs := by
  refine h.keep (setLock_sameNames.goto p c) (fun q j dev blockno hr => ?_) (fun j => ?_) (fun j => ?_)
  · obtain ⟨rfl, hnew⟩ | hold := ref_goto hr
    · rw [hc] at hnew
      exact h.first q j dev blockno hnew
    · exact h.first q j dev blockno hold
  · have hgoto := references_goto s p c j
    have huses : c.uses j = (s.pc p).uses j := by rw [Pc.uses, hc, Pc.uses]
    have hrefs : ((s.setLock i o).goto p c).references j = s.references j := by
      change (s.goto p c).references j = s.references j
      omega
    rw [hrefs, ← h.count j]
    by_cases hj : j = i
    · subst hj
      rw [State.goto_buf, State.setLock_self]
    · rw [State.goto_buf, State.setLock_ne o hj]
  · by_cases hj : j = i
    · subst hj
      rw [State.goto_buf, State.setLock_self]
      exact hi
    · rw [State.goto_buf, State.setLock_ne o hj]
      exact (h.lock j).step (hne j hj)

theorem Inv.acquiresleep (h : Inv s xs) (hp : s.pc p = .acquiresleep i dev blockno)
    (hl : (s.buf i).lock = none) :
    Inv ((s.setLock i (some p)).goto p (.holds i dev blockno)) xs := by
  refine h.setLock (by rw [hp]; rfl) ((h.lock i).acquire hl (by simp [Pc.holding])) ?_
  intro j hj
  rw [hp]
  simpa [Pc.holding] using Ne.symm hj

theorem Inv.brelse (h : Inv s xs) (hp : s.pc p = .holds i dev blockno) :
    Inv ((s.setLock i none).goto p (.unref i dev blockno)) xs := by
  have hholding : Pc.holding i (s.pc p) = true := by simp [hp, Pc.holding]
  refine h.setLock (by rw [hp]; rfl) ((h.lock i).release hholding rfl) ?_
  intro j hj
  rw [hp]
  simpa [Pc.holding] using Ne.symm hj

end Lock

section Refcnt

variable {n : UInt32}

theorem setRefcnt_sameNames : SameNames s (s.setRefcnt i n) := setBuf_sameNames rfl rfl

theorem setRefcnt_lock (j : Slot) : ((s.setRefcnt i n).buf j).lock = (s.buf j).lock := by
  by_cases hj : j = i
  · subst hj
    rw [State.setRefcnt_self]
  · rw [State.setRefcnt_ne n hj]

theorem Inv.setRefcnt_count (h : Inv s xs) {refs : Slot → Nat} (hi : n.toNat = refs i)
    (hne : ∀ j, j ≠ i → refs j = s.references j) (j : Slot) :
    ((s.setRefcnt i n).buf j).refcnt.toNat = refs j := by
  by_cases hj : j = i
  · subst hj
    rw [State.setRefcnt_self, ← hi]
  · rw [State.setRefcnt_ne n hj, hne j hj, h.count j]

theorem Inv.setRefcnt (h : Inv s xs) (hnew : ∀ j dev blockno, c.ref = some (j, dev, blockno) →
      xs.find? (s.named dev blockno) = some j)
    (hi : n.toNat = (s.goto p c).references i)
    (hne : ∀ j, j ≠ i → (s.goto p c).references j = s.references j)
    (hlock : ∀ j, Pc.holding j c = Pc.holding j (s.pc p)) :
    Inv ((s.setRefcnt i n).goto p c) xs := by
  refine h.keep (setRefcnt_sameNames.goto p c) (fun q j dev blockno hr => ?_)
    (h.setRefcnt_count hi hne) (fun j => ?_)
  · obtain ⟨rfl, hc⟩ | hold := ref_goto hr
    · exact hnew j dev blockno hc
    · exact h.first q j dev blockno hold
  · rw [State.goto_buf, setRefcnt_lock]
    exact (h.lock j).step (hlock j)

theorem Inv.hit (h : Inv s xs) (hroom : ∀ i, s.references i + 1 < 2 ^ 32) (hp : s.pc p = .idle)
    (hfind : xs.find? (s.named dev blockno) = some i) :
    Inv ((s.setRefcnt i ((s.buf i).refcnt + 1)).goto p (.acquiresleep i dev blockno)) xs := by
  have hgoto := references_goto s p (.acquiresleep i dev blockno)
  have huses : ∀ j, (Pc.acquiresleep i dev blockno).uses j = if i = j then 1 else 0 :=
    uses_of_ref rfl
  have hidle : ∀ j, (s.pc p).uses j = 0 := by
    intro j
    rw [hp]
    rfl
  refine h.setRefcnt ?_ ?_ ?_ ?_
  · rintro j dev' blockno' hr
    cases hr
    exact hfind
  · have hi := hgoto i
    have hcount := h.count i
    rw [huses, if_pos rfl, hidle] at hi
    rw [toNat_add_one (by rw [hcount]; exact hroom i)]
    omega
  · intro j hj
    have hj' := hgoto j
    rw [huses, if_neg (Ne.symm hj), hidle] at hj'
    omega
  · intro j
    rw [hp]
    rfl

theorem Inv.setPins (h : Inv s xs) {m : Nat} (hn : n.toNat + s.pins i = s.references i + m) :
    Inv ((s.setRefcnt i n).setPins i m) xs := by
  refine h.keep (setRefcnt_sameNames.setPins i m) h.first (h.setRefcnt_count ?_ ?_) (fun j => ?_)
  · have hself : ((s.setRefcnt i n).setPins i m).pins i = m := Function.update_self ..
    rw [State.references, hself]
    rw [State.references] at hn
    change _ = m + ∑ p, (s.pc p).uses i
    omega
  · intro j hj
    have hother : ((s.setRefcnt i n).setPins i m).pins j = s.pins j := Function.update_of_ne hj ..
    rw [State.references, hother]
    rfl
  · rw [State.setPins_buf, setRefcnt_lock]
    exact h.lock j

theorem Inv.bpin (h : Inv s xs) (hroom : ∀ i, s.references i + 1 < 2 ^ 32) (i : Slot) :
    Inv ((s.setRefcnt i ((s.buf i).refcnt + 1)).setPins i (s.pins i + 1)) xs := by
  apply h.setPins
  have hcount := h.count i
  rw [toNat_add_one (by rw [hcount]; exact hroom i)]
  omega

theorem Inv.bunpin (h : Inv s xs) (hpin : 0 < s.pins i) :
    Inv ((s.setRefcnt i ((s.buf i).refcnt - 1)).setPins i (s.pins i - 1)) xs := by
  apply h.setPins
  have hcount := h.count i
  have hle : s.pins i ≤ s.references i := Nat.le_add_right ..
  rw [toNat_sub_one (by omega)]
  omega

end Refcnt

end Xv6.Bcache

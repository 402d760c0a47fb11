import Xv6.Fs.Inode

namespace Xv6.Fs

open Lib.Command

def addrOf (d : Disk) (din : Dinode) (bn : Nat) : Nat :=
  if h : bn < NDIRECT then (din.addrs ⟨bn, Nat.lt_succ_of_lt h⟩).toNat
  else if din.addrs Dinode.indirect = 0 then 0
  else (d (din.addrs Dinode.indirect).toNat).field 4 (bn - NDIRECT)

structure Stores (d : Disk) (din : Dinode) (c : List UInt8) : Prop where
  le_size : c.length ≤ din.size.toNat
  le_max : c.length ≤ MAXFILE * BSIZE
  addr_ne : ∀ bn, bn * BSIZE < c.length → addrOf d din bn ≠ 0
  byte : ∀ k < c.length, (d (addrOf d din (k / BSIZE))).get (k % BSIZE) = c.getD k 0

variable {s : State} {ip : Fin NINODE} {c : List UInt8}

theorem direct_eq {k : Fin (NDIRECT + 1)} (h : (s.icache ip).addrs k ≠ 0) :
    bmap.direct ip k s = .ok (((s.icache ip).addrs k).toNat, s) := by
  rw [bmap.direct, get_bind, if_neg h]
  rfl

theorem bmap_eq {bn : Nat} (h : addrOf s.data (s.icache ip).toDinode bn ≠ 0) (hb : bn < MAXFILE) :
    bmap ip bn s = .ok (addrOf s.data (s.icache ip).toDinode bn, s) := by
  unfold addrOf at h ⊢
  unfold bmap
  by_cases hd : bn < NDIRECT
  · have ha : (s.icache ip).addrs ⟨bn, by omega⟩ ≠ 0 := by
      intro h0
      simp [hd, h0] at h
    simpa only [hd, dif_pos] using direct_eq ha
  · simp only [hd, dif_neg, not_false_eq_true] at h ⊢
    have ha : (s.icache ip).addrs Dinode.indirect ≠ 0 := by
      intro h0
      simp [h0] at h
    have hn : bn - NDIRECT < NINDIRECT := by
      unfold MAXFILE at hb
      omega
    rw [if_neg ha] at h ⊢
    rw [if_pos hn, bind_of_ok (direct_eq ha), bread, bind_assoc, get_bind, pure_bind, if_neg h]
    rfl

theorem div_BSIZE_add {x j : Nat} (h : x % BSIZE + j < BSIZE) : (x + j) / BSIZE = x / BSIZE := by
  change x % 1024 + j < 1024 at h
  change (x + j) / 1024 = x / 1024
  omega

theorem mod_BSIZE_add {x j : Nat} (h : x % BSIZE + j < BSIZE) :
    (x + j) % BSIZE = x % BSIZE + j := by
  change x % 1024 + j < 1024 at h
  change (x + j) % 1024 = x % 1024 + j
  omega

theorem mod_BSIZE_lt (x : Nat) : x % BSIZE < BSIZE := Nat.mod_lt x (by decide)

theorem div_mul_BSIZE_le (x : Nat) : x / BSIZE * BSIZE ≤ x := Nat.div_mul_le_self x BSIZE

theorem Stores.slice {d : Disk} {din : Dinode} (h : Stores d din c) {x m : Nat}
    (hm : m ≤ BSIZE - x % BSIZE) (hx : x + m ≤ c.length) :
    (d (addrOf d din (x / BSIZE))).slice (x % BSIZE) m = (c.drop x).take m := by
  apply List.ext_getElem
  · simp only [Block.length_slice, List.length_take, List.length_drop]
    omega
  · intro j hj hj'
    have hjm : j < m := by simpa using hj
    have hin : x % BSIZE + j < BSIZE := by omega
    have hl : x + j < c.length := by omega
    have hb := h.byte (x + j) hl
    rw [div_BSIZE_add hin, mod_BSIZE_add hin] at hb
    simp [Block.slice, hb, hl]

theorem readLoop_eq (h : Stores s.data (s.icache ip).toDinode c) {dst : Nat → Nat → Bool}
    (hdst : ∀ tot m, dst tot m) {off n : Nat} (hn : off + n ≤ c.length) (fuel tot : Nat)
    (hf : n ≤ tot + fuel) :
    readLoop dst ip off n fuel tot s = .ok ((c.drop (off + tot)).take (n - tot), s) := by
  induction fuel generalizing tot with
  | zero =>
    have h0 : n - tot = 0 := by omega
    rw [readLoop, h0, List.take_zero]
    rfl
  | succ fuel ih =>
    rw [readLoop]
    by_cases ht : tot < n
    · have hx : (off + tot) / BSIZE * BSIZE < c.length := by
        have := div_mul_BSIZE_le (off + tot)
        omega
      have hlt : (off + tot) / BSIZE < MAXFILE := by
        have := h.le_max
        exact Nat.div_lt_of_lt_mul (by rw [Nat.mul_comm]; omega)
      set m := min (n - tot) (BSIZE - (off + tot) % BSIZE) with hm
      have hpos : 0 < m := by
        have := mod_BSIZE_lt (off + tot)
        omega
      have hs := h.slice (x := off + tot) (m := m) (by omega) (by omega)
      rw [if_pos ht, bind_of_ok (bmap_eq (h.addr_ne _ hx) hlt), bread, bind_assoc, get_bind,
        pure_bind, if_pos (hdst tot m), bind_of_ok (ih (tot + m) (by omega)), hs]
      have hsplit : n - tot = m + (n - (tot + m)) := by omega
      rw [hsplit, List.take_add, List.drop_drop, Nat.add_assoc]
      rfl
    · have h0 : n - tot = 0 := by omega
      rw [if_neg ht, h0, List.take_zero]
      rfl

theorem readi_eq (h : Stores s.data (s.icache ip).toDinode c) {dst : Nat → Nat → Bool}
    (hdst : ∀ tot m, dst tot m) {off n : UInt32} (hw : off.toNat + n.toNat < 2 ^ 32)
    (hn : min (off.toNat + n.toNat) (s.icache ip).size.toNat ≤ c.length) :
    readi dst ip off n s = .ok ((c.drop off.toNat).take n.toNat, s) := by
  have hsum : (off + n).toNat = off.toNat + n.toNat := by
    rw [UInt32.toNat_add, Nat.mod_eq_of_lt hw]
  have hle := h.le_size
  rw [readi, get_bind]
  by_cases hoff : (s.icache ip).size < off
  · have : (s.icache ip).size.toNat < off.toNat := UInt32.lt_iff_toNat_lt.mp hoff
    rw [if_pos (Or.inl hoff), List.drop_eq_nil_of_le (by omega), List.take_nil]
    rfl
  · have hge : off.toNat ≤ (s.icache ip).size.toNat := by
      rw [UInt32.lt_iff_toNat_lt] at hoff
      omega
    have hwrap : ¬ off + n < off := by
      rw [UInt32.lt_iff_toNat_lt, hsum]
      omega
    rw [if_neg (by rintro (h | h) <;> contradiction)]
    by_cases hsz : (s.icache ip).size < off + n
    · rw [UInt32.lt_iff_toNat_lt, hsum] at hsz
      have hm : ((s.icache ip).size - off).toNat = (s.icache ip).size.toNat - off.toNat :=
        UInt32.toNat_sub_of_le _ _ (UInt32.le_iff_toNat_le.mpr hge)
      have hc : c.length = (s.icache ip).size.toNat := by omega
      rw [if_pos (by rw [UInt32.lt_iff_toNat_lt, hsum]; exact hsz), hm,
        readLoop_eq h hdst (by omega) _ 0 (by omega)]
      have ht : (c.drop off.toNat).take ((s.icache ip).size.toNat - off.toNat) =
          (c.drop off.toNat).take n.toNat := by
        rw [List.take_of_length_le (by simp; omega), List.take_of_length_le (by simp; omega)]
      rw [Nat.add_zero, Nat.sub_zero, ht]
    · rw [if_neg hsz]
      rw [UInt32.lt_iff_toNat_lt, hsum] at hsz
      rw [readLoop_eq h hdst (by omega) _ 0 (by omega)]
      simp

theorem iget_new {dev inum : Nat}
    (hno : ∀ ip, ¬ (0 < (s.icache ip).ref ∧ (s.icache ip).dev = dev ∧ (s.icache ip).inum = inum))
    {e : Fin NINODE} (he : (s.icache e).ref = 0) :
    ∃ ip, (s.icache ip).ref = 0 ∧ iget dev inum s = .ok (ip, s.setInode ip
      { s.icache ip with dev := dev, inum := inum, ref := 1, valid := false }) := by
  have hnone : ((List.finRange NINODE).find? fun ip =>
      0 < (s.icache ip).ref ∧ (s.icache ip).dev = dev ∧ (s.icache ip).inum = inum) = none := by
    apply List.find?_eq_none.mpr
    intro ip _
    simpa using hno ip
  have hsome : ((List.finRange NINODE).find? fun ip => decide ((s.icache ip).ref = 0)).isSome := by
    apply List.find?_isSome.mpr
    exact ⟨e, List.mem_finRange e, by simpa using he⟩
  obtain ⟨ip, hip⟩ := Option.isSome_iff_exists.mp hsome
  refine ⟨ip, by simpa using List.find?_some hip, ?_⟩
  rw [iget, get_bind, hnone, hip]
  rfl

theorem iget_cached {dev inum : Nat} {ip : Fin NINODE}
    (hip : 0 < (s.icache ip).ref ∧ (s.icache ip).dev = dev ∧ (s.icache ip).inum = inum)
    (huniq : ∀ jp, 0 < (s.icache jp).ref ∧ (s.icache jp).dev = dev ∧ (s.icache jp).inum = inum →
      jp = ip) :
    iget dev inum s =
      .ok (ip, s.setInode ip { s.icache ip with ref := (s.icache ip).ref + 1 }) := by
  have hsome : ((List.finRange NINODE).find? fun ip => decide
      (0 < (s.icache ip).ref ∧ (s.icache ip).dev = dev ∧ (s.icache ip).inum = inum)).isSome := by
    apply List.find?_isSome.mpr
    exact ⟨ip, List.mem_finRange ip, by simpa using hip⟩
  obtain ⟨jp, hjp⟩ := Option.isSome_iff_exists.mp hsome
  obtain rfl : jp = ip := huniq jp (by simpa using List.find?_some hjp)
  rw [iget, get_bind, hjp]
  rfl

theorem ilock_load {din : Dinode} (href : 0 < (s.icache ip).ref)
    (hv : (s.icache ip).valid = false)
    (hdin : (s.data (IBLOCK (s.icache ip).inum s.sb.inodestart.toNat)).dinode
      ((s.icache ip).inum % IPB) = din) (ht : din.type ≠ 0) :
    ilock ip s = .ok ((), s.setInode ip { s.icache ip with toDinode := din, valid := true }) := by
  subst hdin
  rw [ilock, get_bind, if_neg (by omega), hv, if_neg (by simp), bread, bind_assoc, get_bind,
    pure_bind, modify_bind, if_neg ht]
  rfl

theorem iget_ilock_new {dev inum : Nat} {din : Dinode}
    (hno : ∀ ip, ¬ (0 < (s.icache ip).ref ∧ (s.icache ip).dev = dev ∧ (s.icache ip).inum = inum))
    {e : Fin NINODE} (he : (s.icache e).ref = 0)
    (hdin : (s.data (IBLOCK inum s.sb.inodestart.toNat)).dinode (inum % IPB) = din)
    (ht : din.type ≠ 0) :
    ∃ ip s₁ s₂, iget dev inum s = .ok (ip, s₁) ∧ ilock ip s₁ = .ok ((), s₂) ∧
      s₂.data = s.data ∧ s₂.sb = s.sb ∧ s₂.icache ip = ⟨din, dev, inum, 1, true⟩ ∧
      ∀ jp, jp ≠ ip → s₂.icache jp = s.icache jp := by
  obtain ⟨ip, -, hget⟩ := iget_new hno he
  set s₁ := s.setInode ip
    { s.icache ip with dev := dev, inum := inum, ref := 1, valid := false } with hs₁
  have hip : s₁.icache ip =
      { s.icache ip with dev := dev, inum := inum, ref := 1, valid := false } :=
    Function.update_self _ _ _
  have hlock : ilock ip s₁ = .ok ((), s₁.setInode ip
      { s₁.icache ip with toDinode := din, valid := true }) := by
    apply ilock_load
    · rw [hip]
      exact Nat.one_pos
    · rw [hip]
    · rw [hip]
      exact hdin
    · exact ht
  refine ⟨ip, s₁, _, hget, hlock, rfl, rfl, ?_, ?_⟩
  · rw [hip]
    exact Function.update_self _ _ _
  · intro jp hjp
    exact (Function.update_of_ne hjp _ _).trans (Function.update_of_ne hjp _ _)

theorem ilock_valid (href : 0 < (s.icache ip).ref) (hv : (s.icache ip).valid = true) :
    ilock ip s = .ok ((), s) := by
  rw [ilock, get_bind, if_neg (by omega), if_pos hv]
  rfl

def dirBytes (es : List Dirent) : List UInt8 := es.flatMap Dirent.toBytes

theorem length_dirBytes (es : List Dirent) : (dirBytes es).length = 16 * es.length := by
  simp [dirBytes, List.length_flatMap, Nat.mul_comm]

theorem drop_dirBytes (es : List Dirent) (k : Nat) :
    (dirBytes es).drop (16 * k) = dirBytes (es.drop k) := by
  induction es generalizing k with
  | nil => simp [dirBytes]
  | cons e es ih =>
    cases k with
    | zero => rfl
    | succ k =>
      have hl : e.toBytes.length = 16 := e.length_toBytes
      have hk : 16 * (k + 1) = e.toBytes.length + 16 * k := by omega
      have he : dirBytes (e :: es) = e.toBytes ++ dirBytes es := rfl
      rw [he, hk, ← List.drop_drop, List.drop_left, ih, List.drop_succ_cons]

theorem entry_dirBytes {es : List Dirent} {k : Nat} (hk : k < es.length) :
    ((dirBytes es).drop (16 * k)).take 16 = es[k].toBytes := by
  rw [drop_dirBytes, List.drop_eq_getElem_cons hk]
  exact List.take_left' es[k].length_toBytes

section Directory

variable {dp : Fin NINODE} {es : List Dirent} {name : List UInt8}

theorem readi_entry (h : Stores s.data (s.icache dp).toDinode (dirBytes es)) {k : Nat}
    (hk : k < es.length) :
    readi kernelDst dp (UInt32.ofNat (16 * k)) 16 s = .ok (es[k].toBytes, s) := by
  have hmax : (dirBytes es).length ≤ 268 * 1024 := h.le_max
  rw [length_dirBytes] at hmax
  have hoff : (UInt32.ofNat (16 * k)).toNat = 16 * k := by
    rw [UInt32.toNat_ofNat', Nat.mod_eq_of_lt (by omega)]
  have h16 : (16 : UInt32).toNat = 16 := rfl
  rw [readi_eq h kernelDst_accepts (by omega) (by rw [length_dirBytes]; omega), hoff, h16,
    entry_dirBytes hk]

theorem dirlookupFrom_eq (h : Stores s.data (s.icache dp).toDinode (dirBytes es)) {k : Nat}
    (hk : k < es.length) (hm : es[k].Matches name)
    (hfirst : ∀ j (hj : j < k), ¬ es[j].Matches name) (j fuel : Nat) (hj : j ≤ k)
    (hf : k < j + fuel) :
    dirlookupFrom dp name fuel (16 * j) s =
      (do let ip ← iget (s.icache dp).dev es[k].inum.toNat; pure (some (ip, 16 * k))) s := by
  have hle := h.le_size
  rw [length_dirBytes] at hle
  induction fuel generalizing j with
  | zero => omega
  | succ fuel ih =>
    have hlt : j < es.length := by omega
    rw [dirlookupFrom, get_bind, if_pos (by omega), bind_of_ok (readi_entry h hlt),
      if_neg (by simp), es[j].ofBytes_toBytes]
    by_cases hjk : j = k
    · subst hjk
      rw [if_pos hm]
    · have hnot : ¬ es[j].Matches name := hfirst j (by omega)
      rw [if_neg hnot]
      exact ih (j + 1) (by omega) (by omega)

theorem dirlookup_eq (h : Stores s.data (s.icache dp).toDinode (dirBytes es))
    (ht : (s.icache dp).type = T_DIR) {k : Nat} (hk : k < es.length) (hm : es[k].Matches name)
    (hfirst : ∀ j (hj : j < k), ¬ es[j].Matches name) :
    dirlookup dp name s =
      (do let ip ← iget (s.icache dp).dev es[k].inum.toNat; pure (some (ip, 16 * k))) s := by
  have hle := h.le_size
  rw [length_dirBytes] at hle
  rw [dirlookup, get_bind, if_neg (not_not_intro ht)]
  exact dirlookupFrom_eq h hk hm hfirst 0 _ (Nat.zero_le k) (by omega)

end Directory

end Xv6.Fs

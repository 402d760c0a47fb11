import Xv6.Fs.Content
import Xv6.Lib.Bump

namespace Xv6.Fs

/-- The places of a file that hold a block address: one for each block of data,
and one for the indirect block. -/
inductive Slot
  | block (bn : Nat)
  | indirect
  deriving DecidableEq

def slotAddr (d : Disk) (din : Dinode) : Slot → Nat
  | .block bn => addrOf d din bn
  | .indirect => (din.addrs Dinode.indirect).toNat

def Slot.Needed (len : Nat) : Slot → Prop
  | .block bn => bn * BSIZE < len
  | .indirect => NDIRECT * BSIZE < len

def blocksFor (len : Nat) : Nat :=
  (len + BSIZE - 1) / BSIZE + if NDIRECT * BSIZE < len then 1 else 0

theorem blocksFor_zero : blocksFor 0 = 0 := by decide

theorem needed_block_div (len : Nat) : (Slot.block (len / BSIZE)).Needed len ↔ len % BSIZE ≠ 0 := by
  change len / 1024 * 1024 < len ↔ len % 1024 ≠ 0
  omega

theorem needed_succ (len : Nat) (t : Slot) :
    t.Needed (len + 1) ↔
      t = .block (len / BSIZE) ∨ (t = .indirect ∧ NDIRECT ≤ len / BSIZE) ∨ t.Needed len := by
  cases t with
  | block bn =>
    simp only [Slot.Needed, Slot.block.injEq, reduceCtorEq, false_and, false_or]
    change bn * 1024 < len + 1 ↔ bn = len / 1024 ∨ bn * 1024 < len
    omega
  | indirect =>
    simp only [Slot.Needed, reduceCtorEq, true_and, false_or]
    change 12 * 1024 < len + 1 ↔ 12 ≤ len / 1024 ∨ 12 * 1024 < len
    omega

theorem needed_add {len n : Nat} (hn : 0 < n) (h : len % BSIZE + n ≤ BSIZE) :
    Slot.Needed (len + n) = Slot.Needed (len + 1) := by
  change len % 1024 + n ≤ 1024 at h
  funext t
  cases t with
  | block bn =>
    change (bn * 1024 < len + n) = (bn * 1024 < len + 1)
    exact propext (by omega)
  | indirect =>
    change (12 * 1024 < len + n) = (12 * 1024 < len + 1)
    exact propext (by omega)

theorem blocksFor_add {len n : Nat} (hn : 0 < n) (h : len % BSIZE + n ≤ BSIZE) :
    blocksFor (len + n) = blocksFor (len + 1) := by
  change len % 1024 + n ≤ 1024 at h
  change (len + n + 1024 - 1) / 1024 + (if 12 * 1024 < len + n then 1 else 0) =
    (len + 1 + 1024 - 1) / 1024 + (if 12 * 1024 < len + 1 then 1 else 0)
  split_ifs <;> omega

theorem blocksFor_succ (len : Nat) : blocksFor (len + 1) = blocksFor len +
    (if len % BSIZE = 0 then 1 else 0) + (if len = NDIRECT * BSIZE then 1 else 0) := by
  change (len + 1 + 1024 - 1) / 1024 + (if 12 * 1024 < len + 1 then 1 else 0) =
    (len + 1024 - 1) / 1024 + (if 12 * 1024 < len then 1 else 0) +
      (if len % 1024 = 0 then 1 else 0) + (if len = 12 * 1024 then 1 else 0)
  split_ifs <;> omega

theorem blocksFor_mono {a b : Nat} (h : a ≤ b) : blocksFor a ≤ blocksFor b := by
  change (a + 1024 - 1) / 1024 + (if 12 * 1024 < a then 1 else 0) ≤
    (b + 1024 - 1) / 1024 + (if 12 * 1024 < b then 1 else 0)
  split_ifs <;> omega

structure FileAt (d : Disk) (din : Dinode) (U : Slot → Prop) (c : List UInt8) : Prop where
  ne_zero_iff : ∀ t, slotAddr d din t ≠ 0 ↔ U t
  byte : ∀ bn, U (.block bn) → ∀ k < BSIZE,
    (d (addrOf d din bn)).get k = c.getD (bn * BSIZE + k) 0

variable {d d' : Disk} {din : Dinode} {U : Slot → Prop} {c : List UInt8}

theorem slotAddr_congr (h : ∀ a, a = (din.addrs Dinode.indirect).toNat → a ≠ 0 → d' a = d a) :
    slotAddr d' din = slotAddr d din := by
  funext t
  cases t with
  | indirect => rfl
  | block bn =>
    simp only [slotAddr, addrOf]
    split
    · rfl
    · split
      · rfl
      · next h0 =>
        rw [h _ rfl]
        intro h1
        exact h0 (UInt32.toNat_inj.mp h1)

theorem slotAddr_addrs {din' : Dinode} (h : din'.addrs = din.addrs) :
    slotAddr d din' = slotAddr d din := by
  funext t
  cases t <;> simp only [slotAddr, addrOf, h]

theorem FileAt.of_addrs {din' : Dinode} (h : FileAt d din U c) (ha : din'.addrs = din.addrs) :
    FileAt d din' U c := by
  have he : slotAddr d din' = slotAddr d din := slotAddr_addrs ha
  constructor
  · rw [he]
    exact h.ne_zero_iff
  · intro bn hbn k hk
    rw [show addrOf d din' bn = addrOf d din bn from congrFun he (.block bn)]
    exact h.byte bn hbn k hk

theorem FileAt.frame (h : FileAt d din U c)
    (hd : ∀ t, U t → d' (slotAddr d din t) = d (slotAddr d din t)) :
    slotAddr d' din = slotAddr d din ∧ FileAt d' din U c := by
  have he : slotAddr d' din = slotAddr d din := by
    apply slotAddr_congr
    rintro a rfl ha
    exact hd .indirect ((h.ne_zero_iff .indirect).mp ha)
  refine ⟨he, ⟨fun t => ?_, fun bn hbn k hk => ?_⟩⟩
  · rw [he]
    exact h.ne_zero_iff t
  · have hb : addrOf d' din bn = addrOf d din bn := congrFun he (.block bn)
    rw [hb, ← h.byte bn hbn k hk]
    exact congrArg (fun b => b.get k) (hd (.block bn) hbn)

theorem FileAt.stores (h : FileAt d din (Slot.Needed c.length) c) (hsize : c.length ≤ din.size.toNat)
    (hmax : c.length ≤ MAXFILE * BSIZE) : Stores d din c where
  le_size := hsize
  le_max := hmax
  addr_ne bn hbn := (h.ne_zero_iff (.block bn)).mpr hbn
  byte k hk := by
    have hbn : (Slot.block (k / BSIZE)).Needed c.length :=
      lt_of_le_of_lt (div_mul_BSIZE_le k) hk
    rw [h.byte (k / BSIZE) hbn (k % BSIZE) (mod_BSIZE_lt k), Nat.div_add_mod']

def slotOf (k : Fin (NDIRECT + 1)) : Slot := if k.val < NDIRECT then .block k else .indirect

theorem slotAddr_slotOf (d : Disk) (din : Dinode) (k : Fin (NDIRECT + 1)) :
    slotAddr d din (slotOf k) = (din.addrs k).toNat := by
  unfold slotOf
  split
  next hk => simp [slotAddr, addrOf, hk]
  next hk =>
    have : k = Dinode.indirect := Fin.ext (by simp [Dinode.indirect]; omega)
    rw [this]
    rfl

theorem field_zeroes (w i : Nat) : Block.zeroes.field w i = 0 := by
  have h := Lib.Bytes.natOfBytes_byteOfNat 0 w
  rw [Nat.zero_mod] at h
  rw [← h]
  apply Lib.Bytes.natOfBytes_congr
  intro j _
  simp [Lib.Bytes.byteOfNat]

theorem slotAddr_setAddr {k : Fin (NDIRECT + 1)} {b : Nat} (hk : din.addrs k = 0)
    (hb' : b < 2 ^ 32) (hz : d b = Block.zeroes) :
    slotAddr d (din.setAddr k b) = Function.update (slotAddr d din) (slotOf k) b := by
  have hbn : (UInt32.ofNat b).toNat = b := by rw [UInt32.toNat_ofNat', Nat.mod_eq_of_lt hb']
  have hself : ((din.setAddr k b).addrs k).toNat = b := by simp [Dinode.setAddr, hbn]
  funext t
  by_cases ht : t = slotOf k
  · subst ht
    rw [Function.update_self, slotAddr_slotOf, hself]
  · rw [Function.update_of_ne ht]
    have hother : ∀ l, l ≠ k → (din.setAddr k b).addrs l = din.addrs l :=
      fun l hl => Function.update_of_ne hl _ _
    by_cases hi : k = Dinode.indirect
    · -- the new indirect block is empty, as the missing one was
      subst hi
      cases t with
      | indirect => exact absurd rfl ht
      | block bn =>
        simp only [slotAddr, addrOf]
        split
        next hlt =>
          rw [hother]
          simp only [Dinode.indirect, ne_eq, Fin.ext_iff, Fin.val_last]
          omega
        next hge =>
          rw [hself, hz, field_zeroes, ite_self]
    · have hind : (din.setAddr k b).addrs Dinode.indirect = din.addrs Dinode.indirect :=
        hother _ (Ne.symm hi)
      cases t with
      | indirect => simp only [slotAddr, hind]
      | block bn =>
        simp only [slotAddr, addrOf, hind]
        split
        next hlt =>
          rw [hother]
          rintro rfl
          exact ht (by simp [slotOf, hlt])
        next hge => rfl

theorem slotAddr_setField {a bn b : Nat} (ha : (din.addrs Dinode.indirect).toNat = a) (ha0 : a ≠ 0)
    (hbn : NDIRECT ≤ bn) (hmax : bn < MAXFILE) (hb' : b < 2 ^ 32)
    (hd : d' a = (d a).setField 4 (bn - NDIRECT) b) :
    slotAddr d' din = Function.update (slotAddr d din) (.block bn) b := by
  have hne : din.addrs Dinode.indirect ≠ 0 := by
    intro h
    rw [h] at ha
    exact ha0 ha.symm
  funext t
  cases t with
  | indirect => rfl
  | block bn' =>
    by_cases he : bn' = bn
    · subst he
      have hle : 4 * (bn' - NDIRECT + 1) ≤ BSIZE := by
        change bn' < 268 at hmax
        change 12 ≤ bn' at hbn
        change 4 * (bn' - 12 + 1) ≤ 1024
        omega
      have hlt : ¬ bn' < NDIRECT := by omega
      simp only [Function.update_self, slotAddr, addrOf, hlt, dif_neg, not_false_eq_true, ha,
        if_neg hne, hd]
      rw [Block.field_setField_self _ _ hle, Nat.mod_eq_of_lt]
      exact hb'
    · rw [Function.update_of_ne (by simpa using he)]
      simp only [slotAddr, addrOf, ha, if_neg hne, hd]
      split
      next => rfl
      next hge => rw [Block.field_setField_ne _ _ (by omega)]

theorem getD_append_of_lt {c p : List UInt8} {i : Nat} (h : i < c.length) :
    (c ++ p).getD i 0 = c.getD i 0 := by
  rw [List.getD_eq_getElem?_getD, List.getElem?_append_left h, List.getD_eq_getElem?_getD]

theorem getD_append_of_ge {c p : List UInt8} {i : Nat} (h : c.length ≤ i) :
    (c ++ p).getD i 0 = p.getD (i - c.length) 0 := by
  rw [List.getD_eq_getElem?_getD, List.getElem?_append_right h, List.getD_eq_getElem?_getD]

theorem getD_of_ge {c : List UInt8} {i : Nat} (h : c.length ≤ i) : c.getD i 0 = 0 := by
  rw [List.getD_eq_getElem?_getD, List.getElem?_eq_none h]
  rfl

theorem FileAt.alloc {din' : Dinode} {t : Slot} {b : Nat} (h : FileAt d din U c) (hb : b ≠ 0)
    (hslot : slotAddr d' din' = Function.update (slotAddr d din) t b)
    (hend : ∀ bn, t = .block bn → c.length ≤ bn * BSIZE ∧ d' b = Block.zeroes)
    (hd : ∀ bn, U (.block bn) → d' (addrOf d din bn) = d (addrOf d din bn)) :
    FileAt d' din' (fun u => u = t ∨ U u) c := by
  constructor
  · intro u
    rw [hslot]
    by_cases hu : u = t
    · subst hu
      simp [hb]
    · simp [hu, h.ne_zero_iff u]
  · intro bn hbn k hk
    have he : addrOf d' din' bn = Function.update (slotAddr d din) t b (.block bn) :=
      congrFun hslot (.block bn)
    rw [he]
    by_cases hu : Slot.block bn = t
    · subst hu
      obtain ⟨hlen, hz⟩ := hend bn rfl
      rw [Function.update_self, hz, Block.get_zeroes, getD_of_ge (by omega)]
    · have hU : U (.block bn) := hbn.resolve_left hu
      rw [Function.update_of_ne hu, ← h.byte bn hU k hk]
      exact congrArg (fun x => x.get k) (hd bn hU)

theorem FileAt.append (h : FileAt d din U c) {p : List UInt8} {x : Nat}
    (hx : x = addrOf d din (c.length / BSIZE)) (hp : c.length % BSIZE + p.length ≤ BSIZE)
    (hinj : ∀ t, U t → t ≠ .block (c.length / BSIZE) → slotAddr d din t ≠ x) :
    slotAddr (Function.update d x ((d x).splice (c.length % BSIZE) p)) din = slotAddr d din ∧
      FileAt (Function.update d x ((d x).splice (c.length % BSIZE) p)) din U (c ++ p) := by
  set off := c.length with hoff
  have hdm : off / BSIZE * BSIZE + off % BSIZE = off := Nat.div_add_mod' off BSIZE
  have he : slotAddr (Function.update d x ((d x).splice (off % BSIZE) p)) din = slotAddr d din := by
    apply slotAddr_congr
    rintro a rfl ha
    have hne := hinj .indirect ((h.ne_zero_iff .indirect).mp ha) (by simp)
    exact Function.update_of_ne hne _ _
  refine ⟨he, ⟨fun t => ?_, fun bn hbn k hk => ?_⟩⟩
  · rw [he]
    exact h.ne_zero_iff t
  · have ha : addrOf (Function.update d x ((d x).splice (off % BSIZE) p)) din bn =
        addrOf d din bn := congrFun he (.block bn)
    have hold := h.byte bn hbn k hk
    rw [ha]
    by_cases hlast : bn = off / BSIZE
    · subst hlast
      rw [← hx, Function.update_self, Block.get_splice _ _ _ hk]
      rw [← hx] at hold
      split
      next hin =>
        rw [getD_append_of_ge (by omega)]
        congr 1
        omega
      next hout =>
        rw [hold]
        by_cases hlt : off / BSIZE * BSIZE + k < off
        · rw [getD_append_of_lt (by omega)]
        · rw [getD_of_ge (by omega), getD_of_ge (by rw [List.length_append]; omega)]
    · have hne : addrOf d din bn ≠ x := hinj (.block bn) hbn (by simpa using hlast)
      rw [Function.update_of_ne hne, hold]
      rcases Nat.lt_or_gt_of_ne hlast with hlt | hgt
      · have hmul : (bn + 1) * BSIZE ≤ off / BSIZE * BSIZE := Nat.mul_le_mul_right _ hlt
        rw [Nat.succ_mul] at hmul
        rw [getD_append_of_lt (by omega)]
      · have hmul : (off / BSIZE + 1) * BSIZE ≤ bn * BSIZE := Nat.mul_le_mul_right _ hgt
        rw [Nat.succ_mul] at hmul
        rw [getD_of_ge (by omega), getD_of_ge (by rw [List.length_append]; omega)]

end Xv6.Fs

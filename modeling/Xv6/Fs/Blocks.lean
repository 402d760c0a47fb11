import Xv6.Fs.Bitmap
import Xv6.Fs.Slots
import Xv6.Lib.Allot

namespace Xv6.Fs

open Lib.Allot

def dataStart (sb : Superblock) : Nat := sb.bmapstart.toNat + sb.size.toNat / BPB + 1

def InArea (sb : Superblock) (b : Nat) : Prop := dataStart sb ≤ b ∧ b < sb.size.toNat

def Free (sb : Superblock) (d : Disk) (b : Nat) : Prop :=
  isFree (d (BBLOCK b sb.bmapstart.toNat)) (b % BPB) = true

instance (sb : Superblock) (d : Disk) (b : Nat) : Decidable (Free sb d b) :=
  inferInstanceAs (Decidable (_ = true))

def Geometry (sb : Superblock) : Prop :=
  sb.inodestart.toNat + sb.ninodes.toNat / IPB + 1 ≤ sb.bmapstart.toNat

def InUse (sb : Superblock) (tbl : Nat → Dinode) (i : Nat) : Prop :=
  i < sb.ninodes.toNat ∧ (tbl i).type ≠ 0

instance (sb : Superblock) (tbl : Nat → Dinode) (i : Nat) : Decidable (InUse sb tbl i) :=
  inferInstanceAs (Decidable (_ ∧ _))

def addrIn (sb : Superblock) (d : Disk) (tbl : Nat → Dinode) (x : Nat × Slot) : Nat :=
  if InUse sb tbl x.1 then slotAddr d (tbl x.1) x.2 else 0

/-- The layout of a file system with the inodes `tbl`: every block in the data area is free or
belongs to one slot of one inode, the blocks before it are in use, and files have no holes. -/
structure Files (sb : Superblock) (d : Disk) (tbl : Nat → Dinode) : Prop where
  geometry : Geometry sb
  owned : Owned (InArea sb) (Free sb d) (addrIn sb d tbl)
  reserved : ∀ b < sb.size.toNat, b < dataStart sb → ¬ Free sb d b
  size_le : ∀ i, InUse sb tbl i → (tbl i).size.toNat ≤ MAXFILE * BSIZE
  full : ∀ i, InUse sb tbl i → ∀ bn, bn * BSIZE < (tbl i).size.toNat → addrOf d (tbl i) bn ≠ 0

/-- Byte `k` of a file, zero where it has no block. -/
def byteAt (d : Disk) (din : Dinode) (k : Nat) : UInt8 :=
  if addrOf d din (k / BSIZE) = 0 then 0 else (d (addrOf d din (k / BSIZE))).get (k % BSIZE)

section Blocks

variable {sb : Superblock} {d d' : Disk} {tbl tbl' : Nat → Dinode} {b i : Nat} {t : Slot}

theorem bmapstart_lt_dataStart (sb : Superblock) : sb.bmapstart.toNat < dataStart sb :=
  Nat.lt_succ_of_le (Nat.le_add_right ..)

theorem InArea.bmapstart_lt (h : InArea sb b) : sb.bmapstart.toNat < b :=
  (bmapstart_lt_dataStart sb).trans_le h.1

theorem InArea.pos (h : InArea sb b) : b ≠ 0 := Nat.ne_zero_of_lt h.bmapstart_lt

theorem BBLOCK_lt {c : Nat} (hc : c < sb.size.toNat) : BBLOCK c sb.bmapstart.toNat < dataStart sb := by
  have hd : c / BPB ≤ sb.size.toNat / BPB := Nat.div_le_div_right hc.le
  unfold BBLOCK dataStart
  omega

theorem InArea.ne_BBLOCK (h : InArea sb b) {c : Nat} (hc : c < sb.size.toNat) :
    b ≠ BBLOCK c sb.bmapstart.toNat := by
  have h1 : dataStart sb ≤ b := h.1
  have h2 := BBLOCK_lt hc
  omega

theorem Geometry.IBLOCK_lt (h : Geometry sb) (hi : i < sb.ninodes.toNat) :
    IBLOCK i sb.inodestart.toNat < sb.bmapstart.toNat := by
  have hdiv : i / IPB ≤ sb.ninodes.toNat / IPB := Nat.div_le_div_right hi.le
  unfold Geometry at h
  unfold IBLOCK
  omega

theorem addrIn_eq (h : InUse sb tbl i) (t : Slot) : addrIn sb d tbl (i, t) = slotAddr d (tbl i) t :=
  if_pos h

theorem Files.area (h : Files sb d tbl) (hi : InUse sb tbl i) (ht : slotAddr d (tbl i) t ≠ 0) :
    InArea sb (slotAddr d (tbl i) t) := by
  have := h.owned.range (i, t)
  rw [addrIn_eq hi] at this
  exact this ht

theorem Files.inj (h : Files sb d tbl) {j : Nat} {u : Slot} (hi : InUse sb tbl i)
    (hj : InUse sb tbl j) (ht : slotAddr d (tbl i) t ≠ 0)
    (he : slotAddr d (tbl i) t = slotAddr d (tbl j) u) : i = j ∧ t = u := by
  have := h.owned.inj (i, t) (j, u)
  rw [addrIn_eq hi, addrIn_eq hj] at this
  exact Prod.mk.inj (this ht he)

theorem Files.ne_free (h : Files sb d tbl) (hb : Free sb d b) (hi : InUse sb tbl i)
    (ht : slotAddr d (tbl i) t ≠ 0) : slotAddr d (tbl i) t ≠ b := by
  have := h.owned.ne_of_free hb (x := (i, t))
  rw [addrIn_eq hi] at this
  exact this ht

def grant (sb : Superblock) (d : Disk) (b : Nat) : Disk :=
  Function.update (Function.update d (BBLOCK b sb.bmapstart.toNat)
    (markUsed (d (BBLOCK b sb.bmapstart.toNat)) (b % BPB))) b Block.zeroes

theorem grant_self (sb : Superblock) (d : Disk) (b : Nat) : grant sb d b b = Block.zeroes :=
  Function.update_self ..

theorem grant_of_ne {c : Nat} (hb : c ≠ b) (hm : c ≠ BBLOCK b sb.bmapstart.toNat) :
    grant sb d b c = d c :=
  (Function.update_of_ne hb ..).trans (Function.update_of_ne hm ..)

theorem mod_BPB_eq_iff {m c : Nat} (h : BBLOCK c m = BBLOCK b m) : c % BPB = b % BPB ↔ c = b := by
  constructor
  · intro hmod
    have hdiv : c / BPB = b / BPB := by
      unfold BBLOCK at h
      omega
    rw [← Nat.div_add_mod c BPB, ← Nat.div_add_mod b BPB, hdiv, hmod]
  · rintro rfl
    rfl

theorem free_grant_of_ne {c : Nat} (hne : BBLOCK c sb.bmapstart.toNat ≠ b) :
    Free sb (grant sb d b) c ↔ Free sb d c ∧ c ≠ b := by
  have hlt : c % BPB < BPB := Nat.mod_lt c (by decide)
  rw [Free, Free, grant, Function.update_of_ne hne]
  by_cases hm : BBLOCK c sb.bmapstart.toNat = BBLOCK b sb.bmapstart.toNat
  · rw [hm, Function.update_self]
    have hbits := isFree_markUsed (d (BBLOCK b sb.bmapstart.toNat)) hlt (b % BPB)
    rw [hbits]
    rw [ne_eq, mod_BPB_eq_iff hm]
  · rw [Function.update_of_ne hm]
    have hcb : c ≠ b := by
      rintro rfl
      exact hm rfl
    exact ⟨fun h => ⟨h, hcb⟩, And.left⟩

theorem free_grant (hb : InArea sb b) {c : Nat} (hc : c < sb.size.toNat) :
    Free sb (grant sb d b) c ↔ Free sb d c ∧ c ≠ b :=
  free_grant_of_ne (hb.ne_BBLOCK hc).symm

theorem Files.area_of_free (h : Files sb d tbl) (hb : b < sb.size.toNat) (hf : Free sb d b) :
    InArea sb b := by
  refine ⟨?_, hb⟩
  by_contra hlt
  exact h.reserved b hb (by omega) hf

structure Gain (sb : Superblock) (d d' : Disk) (tbl : Nat → Dinode) (i : Nat) (din : Dinode)
    (t : Slot) (b : Nat) : Prop where
  slots : slotAddr d' din = Function.update (slotAddr d (tbl i)) t b
  others : ∀ j, InUse sb tbl j → j ≠ i → slotAddr d' (tbl j) = slotAddr d (tbl j)
  free : ∀ c < sb.size.toNat, Free sb d' c ↔ Free sb d c ∧ c ≠ b
  blocks : ∀ j, InUse sb tbl j → ∀ bn, addrOf d (tbl j) bn ≠ 0 →
    d' (addrOf d (tbl j) bn) = d (addrOf d (tbl j) bn)
  zero : ∀ bn, t = .block bn → d' b = Block.zeroes
  low : ∀ c < sb.bmapstart.toNat, d' c = d c
  addrs : din = { tbl i with addrs := din.addrs }

namespace Gain

variable {din : Dinode} (g : Gain sb d d' tbl i din t b)

include g

theorem type_eq : din.type = (tbl i).type := by
  rw [g.addrs]

theorem size_eq : din.size = (tbl i).size := by
  rw [g.addrs]

theorem inUse_iff (j : Nat) : InUse sb (Function.update tbl i din) j ↔ InUse sb tbl j := by
  unfold InUse
  by_cases hj : j = i
  · rw [hj, Function.update_self, g.type_eq]
  · rw [Function.update_of_ne hj]

theorem addrIn_eq_update (hi : InUse sb tbl i) :
    addrIn sb d' (Function.update tbl i din) = Function.update (addrIn sb d tbl) (i, t) b := by
  funext ⟨j, u⟩
  by_cases hj : InUse sb tbl j
  · rw [addrIn_eq ((g.inUse_iff j).mpr hj)]
    by_cases hji : j = i
    · subst hji
      rw [Function.update_self, g.slots]
      by_cases hu : u = t
      · rw [hu, Function.update_self, Function.update_self]
      · rw [Function.update_of_ne hu, Function.update_of_ne (fun he => hu (Prod.mk.inj he).2),
          addrIn_eq hj]
    · rw [Function.update_of_ne hji, g.others j hj hji,
        Function.update_of_ne (fun he => hji (Prod.mk.inj he).1), addrIn_eq hj]
  · have hji : j ≠ i := fun he => hj (he ▸ hi)
    rw [addrIn, if_neg fun hn => hj ((g.inUse_iff j).mp hn),
      Function.update_of_ne (fun he => hji (Prod.mk.inj he).1), addrIn, if_neg hj]

theorem addrOf_keep {bn : Nat} (h0 : slotAddr d (tbl i) t = 0) (h : addrOf d (tbl i) bn ≠ 0) :
    addrOf d' din bn = addrOf d (tbl i) bn := by
  have hs := congrFun g.slots (.block bn)
  have hne : Slot.block bn ≠ t := by
    rintro rfl
    exact h h0
  rw [Function.update_of_ne hne] at hs
  exact hs

theorem files (h : Files sb d tbl) (hi : InUse sb tbl i) (hb : InArea sb b) (hfree : Free sb d b)
    (h0 : slotAddr d (tbl i) t = 0) : Files sb d' (Function.update tbl i din) := by
  refine ⟨h.geometry, ?_, fun c hc hlt hf => ?_, fun j hj => ?_, fun j hj bn hbn => ?_⟩
  · rw [g.addrIn_eq_update hi]
    exact h.owned.put hb hfree ((addrIn_eq hi t).trans h0) fun c hc => g.free c hc.2
  · exact h.reserved c hc hlt ((g.free c hc).mp hf).1
  · have hj' := (g.inUse_iff j).mp hj
    by_cases hji : j = i
    · subst hji
      rw [Function.update_self, g.size_eq]
      exact h.size_le j hj'
    · rw [Function.update_of_ne hji]
      exact h.size_le j hj'
  · have hj' := (g.inUse_iff j).mp hj
    by_cases hji : j = i
    · subst hji
      rw [Function.update_self] at hbn ⊢
      rw [g.size_eq] at hbn
      have hold := h.full j hj' bn hbn
      rw [g.addrOf_keep h0 hold]
      exact hold
    · rw [Function.update_of_ne hji] at hbn ⊢
      have hs := congrFun (g.others j hj' hji) (.block bn)
      change addrOf d' (tbl j) bn = addrOf d (tbl j) bn at hs
      rw [hs]
      exact h.full j hj' bn hbn

theorem byteAt_eq (hi : InUse sb tbl i) (h0 : slotAddr d (tbl i) t = 0) {j : Nat}
    (hj : InUse sb tbl j) (k : Nat) :
    byteAt d' (Function.update tbl i din j) k = byteAt d (tbl j) k := by
  -- a file whose block is where it was
  have hsame : ∀ {e : Dinode}, addrOf d' e (k / BSIZE) = addrOf d (tbl j) (k / BSIZE) →
      byteAt d' e k = byteAt d (tbl j) k := by
    intro e he
    rw [byteAt, byteAt, he]
    split
    · rfl
    next hne => rw [g.blocks j hj _ hne]
  by_cases hji : j = i
  · subst hji
    rw [Function.update_self]
    by_cases ht : Slot.block (k / BSIZE) = t
    · subst ht
      have hs := congrFun g.slots (.block (k / BSIZE))
      rw [Function.update_self] at hs
      change addrOf d' din (k / BSIZE) = b at hs
      have h0' : addrOf d (tbl j) (k / BSIZE) = 0 := h0
      rw [byteAt, byteAt, hs, h0', g.zero _ rfl, Block.get_zeroes, if_pos rfl, ite_self]
    · have hs := congrFun g.slots (.block (k / BSIZE))
      rw [Function.update_of_ne ht] at hs
      exact hsame hs
  · rw [Function.update_of_ne hji]
    exact hsame (congrFun (g.others j hj hji) (.block (k / BSIZE)))

end Gain

theorem Files.slotAddr_grant (h : Files sb d tbl) (hb : InArea sb b) (hf : Free sb d b) {j : Nat}
    (hj : InUse sb tbl j) : slotAddr (grant sb d b) (tbl j) = slotAddr d (tbl j) := by
  apply slotAddr_congr
  rintro a rfl ha
  have ha' : slotAddr d (tbl j) .indirect ≠ 0 := ha
  exact grant_of_ne (h.ne_free hf hj ha') ((h.area hj ha').ne_BBLOCK hb.2)

theorem Files.grant_block (h : Files sb d tbl) (hb : InArea sb b) (hf : Free sb d b) {j : Nat}
    (hj : InUse sb tbl j) {bn : Nat} (hne : addrOf d (tbl j) bn ≠ 0) :
    grant sb d b (addrOf d (tbl j) bn) = d (addrOf d (tbl j) bn) := by
  have hne' : slotAddr d (tbl j) (.block bn) ≠ 0 := hne
  exact grant_of_ne (h.ne_free hf hj hne') ((h.area hj hne').ne_BBLOCK hb.2)

theorem grant_low (hb : InArea sb b) {c : Nat} (hc : c < sb.bmapstart.toNat) :
    grant sb d b c = d c := by
  have h1 := hb.bmapstart_lt
  have h2 : sb.bmapstart.toNat ≤ BBLOCK b sb.bmapstart.toNat := Nat.le_add_left ..
  exact grant_of_ne (by omega) (by omega)

theorem Files.gain_direct (h : Files sb d tbl) (hi : InUse sb tbl i) (hb : InArea sb b)
    (hf : Free sb d b) {k : Fin (NDIRECT + 1)} (hk : (tbl i).addrs k = 0) :
    Gain sb d (grant sb d b) tbl i ((tbl i).setAddr k b) (slotOf k) b where
  slots := by
    have hb' : b < 2 ^ 32 := hb.2.trans (UInt32.toNat_lt sb.size)
    rw [slotAddr_setAddr hk hb' (grant_self ..), h.slotAddr_grant hb hf hi]
  others j hj _ := h.slotAddr_grant hb hf hj
  free c hc := free_grant hb hc
  blocks j hj bn hne := h.grant_block hb hf hj hne
  zero _ _ := grant_self ..
  low c hc := grant_low hb hc
  addrs := rfl

theorem Files.gain_entry (h : Files sb d tbl) (hi : InUse sb tbl i) (hb : InArea sb b)
    (hf : Free sb d b) {a bn : Nat} (ha : ((tbl i).addrs Dinode.indirect).toNat = a) (ha0 : a ≠ 0)
    (hbn : NDIRECT ≤ bn) (hmax : bn < MAXFILE) :
    Gain sb d (Function.update (grant sb d b) a ((d a).setField 4 (bn - NDIRECT) b)) tbl i (tbl i)
      (.block bn) b := by
  have hai : slotAddr d (tbl i) .indirect = a := ha
  have ha0' : slotAddr d (tbl i) .indirect ≠ 0 := by rwa [hai]
  have harea : InArea sb a := hai ▸ h.area hi ha0'
  have hab : a ≠ b := hai ▸ h.ne_free hf hi ha0'
  have hgrant : grant sb d b a = d a := grant_of_ne hab (harea.ne_BBLOCK hb.2)
  refine ⟨?_, fun j hj hji => ?_, fun c hc => ?_, fun j hj bn' hne => ?_, fun _ _ => ?_,
    fun c hc => ?_, rfl⟩
  · have hb' : b < 2 ^ 32 := hb.2.trans (UInt32.toNat_lt sb.size)
    have hself : Function.update (grant sb d b) a ((d a).setField 4 (bn - NDIRECT) b) a =
        (grant sb d b a).setField 4 (bn - NDIRECT) b := by
      rw [Function.update_self, hgrant]
    rw [slotAddr_setField ha ha0 hbn hmax hb' hself, h.slotAddr_grant hb hf hi]
  · rw [← h.slotAddr_grant hb hf hj]
    apply slotAddr_congr
    rintro c rfl hc
    refine Function.update_of_ne ?_ ..
    intro he
    have he' : slotAddr d (tbl i) .indirect = slotAddr d (tbl j) .indirect := hai.trans he.symm
    exact hji (h.inj hi hj ha0' he').1.symm
  · have hne : BBLOCK c sb.bmapstart.toNat ≠ a := (harea.ne_BBLOCK hc).symm
    rw [← free_grant (d := d) hb hc, Free, Free, Function.update_of_ne hne]
  · have hne' : slotAddr d (tbl j) (.block bn') ≠ 0 := hne
    rw [Function.update_of_ne, h.grant_block hb hf hj hne]
    intro he
    have he' : slotAddr d (tbl i) .indirect = slotAddr d (tbl j) (.block bn') := hai.trans he.symm
    exact absurd (h.inj hi hj ha0' he').2 (by simp)
  · rw [Function.update_of_ne hab.symm]
    exact grant_self ..
  · have h1 := harea.bmapstart_lt
    rw [Function.update_of_ne (by omega)]
    exact grant_low hb hc

theorem free_update (hb : InArea sb b) {c : Nat} (hc : c < sb.size.toNat) (x : Block) :
    Free sb (Function.update d b x) c ↔ Free sb d c := by
  rw [Free, Free, Function.update_of_ne (hb.ne_BBLOCK hc).symm]

theorem Files.store (h : Files sb d tbl) (hi : InUse sb tbl i) {bn : Nat}
    (hne : addrOf d (tbl i) bn ≠ 0) (x : Block) :
    Files sb (Function.update d (addrOf d (tbl i) bn) x) tbl ∧
      ∀ j, InUse sb tbl j →
        slotAddr (Function.update d (addrOf d (tbl i) bn) x) (tbl j) = slotAddr d (tbl j) := by
  have hne' : slotAddr d (tbl i) (.block bn) ≠ 0 := hne
  have harea : InArea sb (addrOf d (tbl i) bn) := h.area hi hne'
  have hslots : ∀ j, InUse sb tbl j →
      slotAddr (Function.update d (addrOf d (tbl i) bn) x) (tbl j) = slotAddr d (tbl j) := by
    intro j hj
    apply slotAddr_congr
    rintro c rfl hc
    refine Function.update_of_ne ?_ ..
    intro he
    have he' : slotAddr d (tbl i) (.block bn) = slotAddr d (tbl j) .indirect := he.symm
    exact absurd (h.inj hi hj hne' he').2 (by simp)
  have haddr : addrIn sb (Function.update d (addrOf d (tbl i) bn) x) tbl = addrIn sb d tbl := by
    funext ⟨j, u⟩
    unfold addrIn
    split
    next hj => rw [hslots j hj]
    · rfl
  refine ⟨⟨h.geometry, h.owned.congr haddr fun c hc => free_update harea hc.2 x,
    fun c hc hlt hf => ?_, h.size_le, fun j hj bn' hbn' => ?_⟩, hslots⟩
  · exact h.reserved c hc hlt ((free_update harea hc x).mp hf)
  · have hs := congrFun (hslots j hj) (.block bn')
    change addrOf _ (tbl j) bn' = addrOf d (tbl j) bn' at hs
    rw [hs]
    exact h.full j hj bn' hbn'

theorem Files.byteAt_store (h : Files sb d tbl) (hi : InUse sb tbl i) {bn : Nat}
    (hne : addrOf d (tbl i) bn ≠ 0) (x : Block) {j : Nat} (hj : InUse sb tbl j) (k : Nat) :
    byteAt (Function.update d (addrOf d (tbl i) bn) x) (tbl j) k =
      if j = i ∧ k / BSIZE = bn then x.get (k % BSIZE) else byteAt d (tbl j) k := by
  have hne' : slotAddr d (tbl i) (.block bn) ≠ 0 := hne
  have hs := congrFun ((h.store hi hne x).2 j hj) (.block (k / BSIZE))
  change addrOf _ (tbl j) (k / BSIZE) = addrOf d (tbl j) (k / BSIZE) at hs
  rw [byteAt, hs]
  by_cases hk : j = i ∧ k / BSIZE = bn
  · rw [if_pos hk]
    obtain ⟨rfl, rfl⟩ := hk
    rw [if_neg hne, Function.update_self]
  · rw [if_neg hk, byteAt]
    split
    · rfl
    next h0 =>
      rw [Function.update_of_ne]
      intro he
      have h0' : slotAddr d (tbl j) (.block (k / BSIZE)) ≠ 0 := h0
      have he' : slotAddr d (tbl j) (.block (k / BSIZE)) = slotAddr d (tbl i) (.block bn) := he
      obtain ⟨hji, ht⟩ := h.inj hj hi h0' he'
      exact hk ⟨hji, Slot.block.inj ht⟩

theorem Files.setFields (h : Files sb d tbl) {din : Dinode} (ha : din.addrs = (tbl i).addrs)
    (htype : din.type = 0 ↔ (tbl i).type = 0)
    (hsize : din.type ≠ 0 → din.size.toNat ≤ MAXFILE * BSIZE)
    (hfull : din.type ≠ 0 → ∀ bn, bn * BSIZE < din.size.toNat → addrOf d (tbl i) bn ≠ 0) :
    Files sb d (Function.update tbl i din) := by
  have hiff : ∀ j, InUse sb (Function.update tbl i din) j ↔ InUse sb tbl j := by
    intro j
    unfold InUse
    by_cases hj : j = i
    · rw [hj, Function.update_self, ne_eq, htype]
    · rw [Function.update_of_ne hj]
  have hslots : ∀ j, slotAddr d (Function.update tbl i din j) = slotAddr d (tbl j) := by
    intro j
    by_cases hj : j = i
    · rw [hj, Function.update_self]
      exact slotAddr_addrs ha
    · rw [Function.update_of_ne hj]
  have haddr : addrIn sb d (Function.update tbl i din) = addrIn sb d tbl := by
    funext ⟨j, u⟩
    unfold addrIn
    rw [hslots]
    exact if_congr (hiff j) rfl rfl
  refine ⟨h.geometry, h.owned.congr haddr fun _ _ => Iff.rfl, h.reserved, fun j hj => ?_,
    fun j hj bn hbn => ?_⟩
  · by_cases hji : j = i
    · subst hji
      have ht := hj.2
      rw [Function.update_self] at ht ⊢
      exact hsize ht
    · rw [Function.update_of_ne hji]
      exact h.size_le j ((hiff j).mp hj)
  · have hs := congrFun (hslots j) (.block bn)
    change addrOf d _ bn = addrOf d (tbl j) bn at hs
    rw [hs]
    by_cases hji : j = i
    · subst hji
      have ht := hj.2
      rw [Function.update_self] at ht hbn
      exact hfull ht bn hbn
    · rw [Function.update_of_ne hji] at hbn
      exact h.full j ((hiff j).mp hj) bn hbn

theorem Files.frame (h : Files sb d tbl) (hd : ∀ c, sb.bmapstart.toNat ≤ c → d' c = d c) :
    Files sb d' tbl ∧ ∀ j, InUse sb tbl j → slotAddr d' (tbl j) = slotAddr d (tbl j) ∧
      ∀ k, byteAt d' (tbl j) k = byteAt d (tbl j) k := by
  have hslots : ∀ j, InUse sb tbl j → slotAddr d' (tbl j) = slotAddr d (tbl j) := by
    intro j hj
    apply slotAddr_congr
    rintro c rfl hc
    have hc' : slotAddr d (tbl j) .indirect ≠ 0 := hc
    exact hd _ (h.area hj hc').bmapstart_lt.le
  have hfree : ∀ c, Free sb d' c ↔ Free sb d c := by
    intro c
    have hbno : sb.bmapstart.toNat ≤ BBLOCK c sb.bmapstart.toNat := Nat.le_add_left ..
    rw [Free, Free, hd _ hbno]
  have haddr : addrIn sb d' tbl = addrIn sb d tbl := by
    funext ⟨j, u⟩
    unfold addrIn
    split
    next hj => rw [hslots j hj]
    · rfl
  have hblock : ∀ j, InUse sb tbl j → ∀ bn, addrOf d' (tbl j) bn = addrOf d (tbl j) bn :=
    fun j hj bn => congrFun (hslots j hj) (.block bn)
  refine ⟨⟨h.geometry, h.owned.congr haddr fun c _ => hfree c, fun c hc hlt hf => ?_, h.size_le,
    fun j hj bn hbn => ?_⟩, fun j hj => ⟨hslots j hj, fun k => ?_⟩⟩
  · exact h.reserved c hc hlt ((hfree c).mp hf)
  · rw [hblock j hj]
    exact h.full j hj bn hbn
  · rw [byteAt, byteAt, hblock j hj]
    split
    · rfl
    next hne =>
      have harea : InArea sb (addrOf d (tbl j) (k / BSIZE)) :=
        h.area (t := .block (k / BSIZE)) hj hne
      rw [hd _ harea.bmapstart_lt.le]

theorem byteAt_addrs {din din' : Dinode} (ha : din'.addrs = din.addrs) (k : Nat) :
    byteAt d din' k = byteAt d din k := by
  have hs := congrFun (slotAddr_addrs (d := d) ha) (.block (k / BSIZE))
  change addrOf d din' (k / BSIZE) = addrOf d din (k / BSIZE) at hs
  rw [byteAt, byteAt, hs]

end Blocks

end Xv6.Fs

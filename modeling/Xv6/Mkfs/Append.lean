import Xv6.Fs.Slots
import Xv6.Mkfs.Image

namespace Xv6.Mkfs

open Fs Lib.Command Lib.Bump

/-- The files laid out in the data area: inode `i` has the slots `U i` and the
content `c i`, no block has two owners, and the blocks from `freeblock` on are
untouched. -/
structure Laid (s : Image) (ino : Nat → Dinode) (U : Nat → Slot → Prop) (c : Nat → List UInt8) :
    Prop where
  length_eq : s.length = FSSIZE
  nmeta_le : nmeta ≤ s.freeblock
  assigned : Assigned (fun k : Nat × Slot => slotAddr s.disk (ino k.1) k.2) nmeta s.freeblock
  file : ∀ i, FileAt s.disk (ino i) (U i) (c i)
  fresh : ∀ b, s.freeblock ≤ b → s.disk b = Block.zeroes

def needs (c : Nat → List UInt8) (i : Nat) : Slot → Prop := Slot.Needed (c i).length

structure SameMeta (s s' : Image) : Prop where
  disk : ∀ b < nmeta, s'.disk b = s.disk b
  freeinode : s'.freeinode = s.freeinode

theorem SameMeta.refl (s : Image) : SameMeta s s := ⟨fun _ _ => rfl, rfl⟩

theorem SameMeta.trans {s s' s'' : Image} (h : SameMeta s s') (h' : SameMeta s' s'') :
    SameMeta s s'' :=
  ⟨fun b hb => (h'.disk b hb).trans (h.disk b hb), h'.freeinode.trans h.freeinode⟩

variable {s s' : Image} {ino : Nat → Dinode} {U : Nat → Slot → Prop} {c : Nat → List UInt8} {i : Nat}

theorem nmeta_pos : 0 < nmeta := by decide

namespace Laid

theorem slot_range (h : Laid s ino U c) {j : Nat} {t : Slot} (ht : U j t) :
    nmeta ≤ slotAddr s.disk (ino j) t ∧ slotAddr s.disk (ino j) t < s.freeblock :=
  h.assigned.range (j, t) (((h.file j).ne_zero_iff t).mpr ht)

theorem slot_ne (h : Laid s ino U c) {j : Nat} {t u : Slot} (ht : U j t) (hne : (j, t) ≠ (i, u)) :
    slotAddr s.disk (ino j) t ≠ slotAddr s.disk (ino i) u := fun he =>
  hne (h.assigned.inj (j, t) (i, u) he (((h.file j).ne_zero_iff t).mpr ht))

theorem congr (h : Laid s ino U c) {ino' : Nat → Dinode}
    (hd : ∀ b, nmeta ≤ b → s'.disk b = s.disk b) (hl : s'.length = s.length)
    (hf : s'.freeblock = s.freeblock) (ha : ∀ j, (ino' j).addrs = (ino j).addrs) :
    Laid s' ino' U c := by
  have hfile : ∀ j, slotAddr s'.disk (ino' j) = slotAddr s.disk (ino j) ∧
      FileAt s'.disk (ino' j) (U j) (c j) := by
    intro j
    have hown : ∀ t, U j t → s'.disk (slotAddr s.disk (ino j) t) =
        s.disk (slotAddr s.disk (ino j) t) := fun t ht => hd _ (h.slot_range ht).1
    obtain ⟨hslot, hfile⟩ := (h.file j).frame hown
    exact ⟨(slotAddr_addrs (ha j)).trans hslot, hfile.of_addrs (ha j)⟩
  constructor
  · rw [hl, h.length_eq]
  · rw [hf]
    exact h.nmeta_le
  · have he : (fun k : Nat × Slot => slotAddr s'.disk (ino' k.1) k.2) =
        fun k : Nat × Slot => slotAddr s.disk (ino k.1) k.2 := by
      funext k
      rw [(hfile k.1).1]
    rw [he, hf]
    exact h.assigned
  · exact fun j => (hfile j).2
  · intro b hb
    rw [hd b (by have := h.nmeta_le; omega), h.fresh b (by omega)]

theorem alloc (h : Laid s ino U c) {din' : Dinode} {t : Slot}
    (hslot : slotAddr s'.disk din' = Function.update (slotAddr s.disk (ino i)) t s.freeblock)
    (hend : ∀ bn, t = .block bn → (c i).length ≤ bn * BSIZE)
    (hd : ∀ b, b ≠ slotAddr s.disk (ino i) .indirect → s'.disk b = s.disk b)
    (hl : s'.length = s.length) (hf : s'.freeblock = s.freeblock + 1) :
    Laid s' (Function.update ino i din') (Function.update U i fun u => u = t ∨ U i u) c := by
  have hfb : s.freeblock ≠ 0 := by
    have := h.nmeta_le
    have := nmeta_pos
    omega
  have hind : slotAddr s.disk (ino i) .indirect < s.freeblock := by
    by_cases h0 : slotAddr s.disk (ino i) .indirect = 0
    · omega
    · exact (h.assigned.range (i, .indirect) h0).2
  have hframe : ∀ j, j ≠ i → slotAddr s'.disk (ino j) = slotAddr s.disk (ino j) ∧
      FileAt s'.disk (ino j) (U j) (c j) := by
    intro j hj
    apply (h.file j).frame
    intro u hu
    exact hd _ (h.slot_ne hu (by simp [hj]))
  constructor
  · rw [hl, h.length_eq]
  · have := h.nmeta_le
    omega
  · rw [hf]
    have he : (fun k : Nat × Slot => slotAddr s'.disk (Function.update ino i din' k.1) k.2) =
        Function.update (fun k : Nat × Slot => slotAddr s.disk (ino k.1) k.2) (i, t)
          s.freeblock := by
      funext ⟨j, u⟩
      by_cases hj : j = i
      · subst hj
        have := congrFun hslot u
        by_cases hu : u = t
        · subst hu
          simpa using this
        · simpa [hu] using this
      · simpa [hj] using congrFun (hframe j hj).1 u
    rw [he]
    exact h.assigned.alloc h.nmeta_le (i, t)
  · intro j
    by_cases hj : j = i
    · subst hj
      rw [Function.update_self, Function.update_self]
      refine (h.file j).alloc hfb hslot (fun bn ht => ⟨hend bn ht, ?_⟩) (fun bn hbn => ?_)
      · rw [hd _ (by omega), h.fresh _ le_rfl]
      · exact hd _ (h.slot_ne hbn (by simp))
    · rw [Function.update_of_ne hj, Function.update_of_ne hj]
      exact (hframe j hj).2
  · intro b hb
    rw [hd b (by omega), h.fresh b (by omega)]

theorem write (h : Laid s ino U c) {p : List UInt8} {x : Nat}
    (hU : U i (.block ((c i).length / BSIZE)))
    (hx : x = addrOf s.disk (ino i) ((c i).length / BSIZE))
    (hp : (c i).length % BSIZE + p.length ≤ BSIZE)
    (hs : s'.disk = Function.update s.disk x ((s.disk x).splice ((c i).length % BSIZE) p))
    (hl : s'.length = s.length) (hf : s'.freeblock = s.freeblock) :
    Laid s' ino U (Function.update c i (c i ++ p)) := by
  have hlt : x < s.freeblock := by
    rw [hx]
    exact (h.slot_range hU).2
  have hfile : ∀ j, slotAddr s'.disk (ino j) = slotAddr s.disk (ino j) ∧
      FileAt s'.disk (ino j) (U j) (Function.update c i (c i ++ p) j) := by
    intro j
    rw [hs]
    by_cases hj : j = i
    · subst hj
      rw [Function.update_self]
      apply (h.file j).append hx hp
      intro t ht hne
      rw [hx]
      exact h.slot_ne (i := j) (u := .block ((c j).length / BSIZE)) ht (by simpa using hne)
    · rw [Function.update_of_ne hj]
      apply (h.file j).frame
      intro t ht
      apply Function.update_of_ne
      rw [hx]
      exact h.slot_ne (u := .block ((c i).length / BSIZE)) ht (by simp [hj])
  constructor
  · rw [hl, h.length_eq]
  · rw [hf]
    exact h.nmeta_le
  · have he : (fun k : Nat × Slot => slotAddr s'.disk (ino k.1) k.2) =
        fun k : Nat × Slot => slotAddr s.disk (ino k.1) k.2 := by
      funext k
      rw [(hfile k.1).1]
    rw [he, hf]
    exact h.assigned
  · exact fun j => (hfile j).2
  · intro b hb
    rw [hs, Function.update_of_ne (by omega), h.fresh b (by omega)]

end Laid

theorem rsect_meets {x : Nat} {Q : Block → Image → Prop} {E : Exit → Prop}
    (hQ : x < s.length → Q (s.disk x) s) (hE : s.length ≤ x → E .read) :
    Meets (rsect x) s Q E := by
  apply Meets.bind
  apply Meets.get
  by_cases hx : x < s.length
  · rw [if_pos hx]
    exact Meets.pure (hQ hx)
  · rw [if_neg hx]
    exact Meets.throw (hE (by omega))

structure MapsSlot (s : Image) (ino : Nat → Dinode) (U : Nat → Slot → Prop) (c : Nat → List UInt8)
    (i : Nat) (t : Slot) (x : Nat) (din : Dinode) (s' : Image) : Prop where
  laid : Laid s' (Function.update ino i din) (Function.update U i fun u => u = t ∨ U i u) c
  addr : x = slotAddr s'.disk din t
  same : SameMeta s s'
  type_eq : din.type = (ino i).type
  old : U i t → s'.freeblock = s.freeblock
  new : ¬ U i t → x = s.freeblock ∧ s'.freeblock = s.freeblock + 1

theorem MapsSlot.of_has {t : Slot} (h : Laid s ino U c) (ht : U i t) :
    MapsSlot s ino U c i t (slotAddr s.disk (ino i) t) (ino i) s where
  laid := by
    have hU : Function.update U i (fun u => u = t ∨ U i u) = U := by
      funext j
      by_cases hj : j = i
      · subst hj
        funext u
        rw [Function.update_self]
        exact propext ⟨fun h => h.elim (fun e => e ▸ ht) id, Or.inr⟩
      · rw [Function.update_of_ne hj]
    rw [hU, Function.update_eq_self]
    exact h
  addr := rfl
  same := SameMeta.refl s
  type_eq := rfl
  old _ := rfl
  new hn := absurd ht hn

theorem directBlock_meets (h : Laid s ino U c) (hle : s.freeblock ≤ FSSIZE) (k : Fin (NDIRECT + 1))
    (hend : ∀ bn, slotOf k = .block bn → ¬ U i (slotOf k) → (c i).length ≤ bn * BSIZE) :
    Meets (directBlock (ino i) k) s (fun r s' => MapsSlot s ino U c i (slotOf k) r.1 r.2 s')
      (fun _ => False) := by
  have haddr := slotAddr_slotOf s.disk (ino i) k
  have hiff := (h.file i).ne_zero_iff (slotOf k)
  unfold directBlock
  by_cases h0 : (ino i).addrs k = 0
  · have hU : ¬ U i (slotOf k) := by
      rw [← hiff, haddr, h0]
      simp
    rw [if_pos h0]
    apply Meets.bind
    apply Meets.bind
    apply Meets.get
    apply Meets.bind
    apply Meets.modify
    apply Meets.pure
    apply Meets.pure
    have hslot : slotAddr s.disk ((ino i).setAddr k s.freeblock) =
        Function.update (slotAddr s.disk (ino i)) (slotOf k) s.freeblock :=
      slotAddr_setAddr h0 (by have : FSSIZE = 1000 := rfl; omega) (h.fresh _ le_rfl)
    refine ⟨h.alloc hslot (fun bn hbn => hend bn hbn hU) (fun _ _ => rfl) rfl rfl, ?_,
      ⟨fun _ _ => rfl, rfl⟩, rfl, fun ht => absurd ht hU, fun _ => ⟨rfl, rfl⟩⟩
    change _ = slotAddr s.disk ((ino i).setAddr k s.freeblock) (slotOf k)
    rw [hslot, Function.update_self]
  · have hU : U i (slotOf k) := by
      rw [← hiff, haddr]
      exact fun e => h0 (UInt32.toNat_inj.mp e)
    rw [if_neg h0, ← haddr]
    exact Meets.pure (MapsSlot.of_has h hU)

theorem addrOf_of_ge {d : Disk} {din : Dinode} {bn : Nat} (hge : NDIRECT ≤ bn)
    (hne : din.addrs Dinode.indirect ≠ 0) :
    addrOf d din bn = (d (din.addrs Dinode.indirect).toNat).field 4 (bn - NDIRECT) := by
  rw [addrOf, dif_neg (by omega), if_neg hne]

theorem indirectBlock_meets (h : Laid s ino U c) (hle : s.freeblock ≤ FSSIZE) {bn ind : Nat}
    (hge : NDIRECT ≤ bn) (hmax : bn < MAXFILE) (hU : U i .indirect)
    (hind : ind = slotAddr s.disk (ino i) .indirect)
    (hend : ¬ U i (.block bn) → (c i).length ≤ bn * BSIZE) :
    Meets (indirectBlock (ino i) ind (bn - NDIRECT)) s
      (fun r s' => MapsSlot s ino U c i (.block bn) r.1 r.2 s') (fun _ => False) := by
  have hrange := h.slot_range hU
  rw [← hind] at hrange
  have hpos := nmeta_pos
  have hne : (ino i).addrs Dinode.indirect ≠ 0 := by
    intro h0
    have : slotAddr s.disk (ino i) .indirect = 0 := by simp [slotAddr, h0]
    omega
  have hfield : (s.disk ind).field 4 (bn - NDIRECT) = slotAddr s.disk (ino i) (.block bn) := by
    rw [hind]
    exact (addrOf_of_ge hge hne).symm
  have hiff := (h.file i).ne_zero_iff (.block bn)
  apply Meets.bind
  apply rsect_meets
  · intro hlt
    rw [hfield]
    by_cases h0 : slotAddr s.disk (ino i) (.block bn) = 0
    · have hUb : ¬ U i (.block bn) := fun hb => (hiff.mpr hb) h0
      rw [if_pos h0]
      apply Meets.bind
      apply Meets.bind
      apply Meets.get
      apply Meets.bind
      apply Meets.modify
      apply Meets.pure
      apply Meets.bind
      apply Meets.modify
      apply Meets.pure
      have hslot : slotAddr (Function.update s.disk ind
            ((s.disk ind).setField 4 (bn - NDIRECT) s.freeblock)) (ino i) =
          Function.update (slotAddr s.disk (ino i)) (.block bn) s.freeblock :=
        slotAddr_setField hind.symm (by omega) hge hmax (by have : FSSIZE = 1000 := rfl; omega)
          (Function.update_self _ _ _)
      have hlen : max s.length (ind + 1) = s.length := by omega
      refine ⟨h.alloc hslot (fun bn' hbn' => ?_) (fun b hb => ?_) hlen rfl, ?_, ⟨fun b hb => ?_, rfl⟩,
        rfl, fun hb => absurd hb hUb, fun _ => ⟨rfl, rfl⟩⟩
      · obtain rfl : bn = bn' := by simpa using hbn'
        exact hend hUb
      · exact Function.update_of_ne (by rw [hind]; exact hb) _ _
      · exact (Function.update_self _ _ _).symm.trans (congrFun hslot _).symm
      · exact Function.update_of_ne (by omega) _ _
    · rw [if_neg h0]
      exact Meets.pure (MapsSlot.of_has h (hiff.mp h0))
  · intro hge'
    have := h.length_eq
    omega

structure MapsBlock (s : Image) (ino : Nat → Dinode) (c : Nat → List UInt8) (i x : Nat)
    (din : Dinode) (s' : Image) : Prop where
  laid : Laid s' (Function.update ino i din)
    (Function.update (needs c) i (Slot.Needed ((c i).length + 1))) c
  addr : x = addrOf s'.disk din ((c i).length / BSIZE)
  same : SameMeta s s'
  type_eq : din.type = (ino i).type
  count : s'.freeblock + blocksFor (c i).length = s.freeblock + blocksFor ((c i).length + 1)
  le : s'.freeblock ≤ FSSIZE ∨ s'.freeblock = x + 1

theorem fileBlock_meets (h : Laid s ino (needs c) c) (hle : s.freeblock ≤ FSSIZE)
    (hmax : (c i).length / BSIZE < MAXFILE) :
    Meets (fileBlock (ino i) ((c i).length / BSIZE)) s
      (fun r s' => MapsBlock s ino c i r.1 r.2 s')
      (fun _ => FSSIZE + blocksFor (c i).length < s.freeblock + blocksFor ((c i).length + 1)) := by
  set len := (c i).length with hlen
  have hcount := blocksFor_succ len
  have hblock := needed_block_div len
  have hend : ∀ bn, Slot.block (len / BSIZE) = .block bn → ¬ needs c i (.block (len / BSIZE)) →
      len ≤ bn * BSIZE := by
    rintro bn hbn hn
    obtain rfl : len / BSIZE = bn := by simpa using hbn
    exact Nat.le_of_not_lt hn
  unfold fileBlock
  by_cases hd : len / BSIZE < NDIRECT
  · have hslot : slotOf ⟨len / BSIZE, by omega⟩ = .block (len / BSIZE) := by simp [slotOf, hd]
    have hne : len ≠ NDIRECT * BSIZE := by
      change len / 1024 < 12 at hd
      change len ≠ 12 * 1024
      omega
    rw [dif_pos hd]
    refine (directBlock_meets h hle ⟨len / BSIZE, by omega⟩ (by rw [hslot]; exact hend)).mono
      (fun r s' hm => ?_) (fun _ hf => hf.elim)
    rw [hslot] at hm
    have hU : (fun u => u = Slot.block (len / BSIZE) ∨ needs c i u) = Slot.Needed (len + 1) := by
      funext u
      refine propext (Iff.trans ?_ (needed_succ len u).symm)
      have : ¬ NDIRECT ≤ len / BSIZE := by omega
      simp [this, needs, ← hlen]
    refine ⟨hU ▸ hm.laid, hm.addr, hm.same, hm.type_eq, ?_, ?_⟩
    · rw [← hlen, hcount, if_neg hne]
      by_cases hb : len % BSIZE = 0
      · have := (hm.new (fun hn => (hblock.mp hn) hb)).2
        rw [if_pos hb]
        omega
      · have := hm.old (hblock.mpr hb)
        rw [if_neg hb]
        omega
    · by_cases hb : len % BSIZE = 0
      · obtain ⟨hx, hs⟩ := hm.new (fun hn => (hblock.mp hn) hb)
        right
        rw [hs, hx]
      · have := hm.old (hblock.mpr hb)
        left
        omega
  · have hslot : slotOf Dinode.indirect = .indirect := by simp [slotOf, Dinode.indirect]
    have hge : NDIRECT ≤ len / BSIZE := by omega
    have hindirect : needs c i .indirect ↔ len ≠ NDIRECT * BSIZE := by
      change 12 ≤ len / 1024 at hge
      change 12 * 1024 < len ↔ len ≠ 12 * 1024
      omega
    rw [dif_neg hd]
    apply Meets.bind
    refine (directBlock_meets h hle Dinode.indirect (by simp [hslot])).mono (fun r s₁ hm => ?_)
      (fun _ hf => hf.elim)
    rw [hslot] at hm
    obtain ⟨ind, din₁⟩ := r
    have hU : (fun u => u = Slot.block (len / BSIZE) ∨ u = Slot.indirect ∨ needs c i u) =
        Slot.Needed (len + 1) := by
      funext u
      refine propext (Iff.trans ?_ (needed_succ len u).symm)
      simp [hge, needs, ← hlen]
    by_cases hle₁ : s₁.freeblock ≤ FSSIZE
    · have hino : Function.update ino i din₁ i = din₁ := Function.update_self _ _ _
      have hU₁ : ∀ u, Function.update (needs c) i (fun u => u = .indirect ∨ needs c i u) i u ↔
          u = .indirect ∨ needs c i u := by simp
      have hind : ind = slotAddr s₁.disk (Function.update ino i din₁ i) .indirect := by
        rw [hino]
        exact hm.addr
      have hstep := indirectBlock_meets hm.laid hle₁ hge hmax ((hU₁ _).mpr (Or.inl rfl)) hind
        (fun hn => hend _ rfl fun hb => hn ((hU₁ _).mpr (Or.inr hb)))
      rw [hino] at hstep
      refine hstep.mono (fun r s₂ hb => ?_) (fun _ hf => hf.elim)
      have hhas : Function.update (needs c) i (fun u => u = .indirect ∨ needs c i u) i
          (.block (len / BSIZE)) ↔ len % BSIZE ≠ 0 := by
        rw [hU₁, ← hblock]
        simp [needs, ← hlen]
      refine ⟨?_, hb.addr, hm.same.trans hb.same, ?_, ?_, ?_⟩
      · have hlaid := hb.laid
        rw [Function.update_idem, Function.update_idem] at hlaid
        simp only [Function.update_self] at hlaid
        rw [hU] at hlaid
        exact hlaid
      · rw [hb.type_eq, hino]
        exact hm.type_eq
      · rw [← hlen, hcount]
        have hold : len % BSIZE ≠ 0 → len ≠ NDIRECT * BSIZE := by
          change len % 1024 ≠ 0 → len ≠ 12 * 1024
          omega
        by_cases hl : len % BSIZE = 0
        · have h₂ := (hb.new (fun hn => (hhas.mp hn) hl)).2
          rw [if_pos hl]
          by_cases hf : len = NDIRECT * BSIZE
          · have h₁ := (hm.new (fun hn => (hindirect.mp hn) hf)).2
            rw [if_pos hf]
            omega
          · have h₁ := hm.old (hindirect.mpr hf)
            rw [if_neg hf]
            omega
        · have h₁ := hm.old (hindirect.mpr (hold hl))
          have h₂ := hb.old (hhas.mpr hl)
          rw [if_neg hl, if_neg (hold hl)]
          omega
      · by_cases hl : len % BSIZE = 0
        · obtain ⟨hx, h₂⟩ := hb.new (fun hn => (hhas.mp hn) hl)
          right
          rw [h₂, hx]
        · have h₂ := hb.old (hhas.mpr hl)
          left
          omega
    · -- the new indirect block lies past the end of the image, where it cannot be read
      have hnot : ¬ needs c i .indirect := by
        intro hn
        have := hm.old hn
        omega
      obtain ⟨hx, hs⟩ := hm.new hnot
      have hf : len = NDIRECT * BSIZE := by
        by_contra hf
        exact hnot (hindirect.mpr hf)
      have hl : len % BSIZE = 0 := by
        rw [hf]
        exact Nat.mul_mod_left _ _
      rw [if_pos hl, if_pos hf] at hcount
      apply Meets.bind
      apply rsect_meets
      · intro hlt
        have := hm.laid.length_eq
        change ind = s.freeblock at hx
        omega
      · intro _
        omega

theorem length_take_chunk {p : List UInt8} (hp : p ≠ []) (off : Nat) {n1 : Nat}
    (hn : n1 = min p.length ((off / BSIZE + 1) * BSIZE - off)) :
    (p.take n1).length = n1 ∧ 0 < n1 ∧ off % BSIZE + n1 ≤ BSIZE := by
  have hpos : 0 < p.length := List.length_pos_iff.mpr hp
  change n1 = min p.length ((off / 1024 + 1) * 1024 - off) at hn
  change _ ∧ _ ∧ off % 1024 + n1 ≤ 1024
  rw [List.length_take]
  omega

structure Appends (s : Image) (ino : Nat → Dinode) (c : Nat → List UInt8) (i : Nat) (p : List UInt8)
    (K : Nat) (din : Dinode) (s' : Image) : Prop where
  laid : Laid s' (Function.update ino i din) (needs (Function.update c i (c i ++ p)))
    (Function.update c i (c i ++ p))
  same : SameMeta s s'
  type_eq : din.type = (ino i).type
  count : s'.freeblock = K + blocksFor ((c i).length + p.length)
  le : s'.freeblock ≤ FSSIZE
  le_max : (c i).length + p.length ≤ MAXFILE * BSIZE

theorem Appends.nil (h : Laid s ino (needs c) c) {K : Nat}
    (hK : s.freeblock = K + blocksFor (c i).length) (hle : s.freeblock ≤ FSSIZE)
    (hmax : (c i).length ≤ MAXFILE * BSIZE) : Appends s ino c i [] K (ino i) s where
  laid := by
    rw [List.append_nil, Function.update_eq_self, Function.update_eq_self]
    exact h
  same := SameMeta.refl s
  type_eq := rfl
  count := hK
  le := hle
  le_max := hmax

theorem Appends.trans {p q : List UInt8} {K : Nat} {din din' : Dinode} {s'' : Image}
    (h : Appends s ino c i p K din s')
    (h' : Appends s' (Function.update ino i din) (Function.update c i (c i ++ p)) i q K din' s'') :
    Appends s ino c i (p ++ q) K din' s'' where
  laid := by
    have hl := h'.laid
    rw [Function.update_idem, Function.update_self, Function.update_idem] at hl
    rw [← List.append_assoc]
    exact hl
  same := h.same.trans h'.same
  type_eq := by rw [h'.type_eq, Function.update_self, h.type_eq]
  count := by
    rw [h'.count, Function.update_self, List.length_append, List.length_append, Nat.add_assoc]
  le := h'.le
  le_max := by
    have := h'.le_max
    rw [Function.update_self, List.length_append] at this
    rw [List.length_append]
    omega

theorem storeChunk_meets {p : List UInt8} (h : Laid s ino (needs c) c) {K : Nat}
    (hK : s.freeblock = K + blocksFor (c i).length) (hle : s.freeblock ≤ FSSIZE) (hp : 0 < p.length)
    (hfit : (c i).length % BSIZE + p.length ≤ BSIZE) (hmax : (c i).length / BSIZE < MAXFILE) :
    Meets (storeChunk (ino i) (c i).length p) s (fun din s' => Appends s ino c i p K din s')
      (fun _ => FSSIZE < K + blocksFor ((c i).length + p.length)) := by
  have hblocks := blocksFor_add hp hfit
  have hmod : (c i).length - (c i).length / BSIZE * BSIZE = (c i).length % BSIZE := by
    have := Nat.div_add_mod' (c i).length BSIZE
    omega
  apply Meets.bind
  refine (fileBlock_meets h hle hmax).mono (fun r s₁ hm => ?_) (fun _ he => by omega)
  obtain ⟨x, din⟩ := r
  have hcount := hm.count
  have hneed : Function.update (needs c) i (Slot.Needed ((c i).length + 1)) i
      (.block ((c i).length / BSIZE)) := by
    rw [Function.update_self, needed_succ]
    exact Or.inl rfl
  have hx : x = addrOf s₁.disk (Function.update ino i din i) ((c i).length / BSIZE) := by
    rw [Function.update_self]
    exact hm.addr
  have hrange : nmeta ≤ x ∧ x < s₁.freeblock := by
    rw [hx]
    exact hm.laid.slot_range hneed
  apply Meets.bind
  apply rsect_meets
  · intro hlt
    rw [hm.laid.length_eq] at hlt
    apply Meets.bind
    apply Meets.modify
    apply Meets.pure
    have hU : Function.update (needs c) i (Slot.Needed ((c i).length + 1)) =
        needs (Function.update c i (c i ++ p)) := by
      funext j
      by_cases hj : j = i
      · subst hj
        rw [Function.update_self, needs, Function.update_self, List.length_append,
          needed_add hp hfit]
      · rw [Function.update_of_ne hj, needs, needs, Function.update_of_ne hj]
    refine ⟨?_, hm.same.trans ⟨fun b hb => Function.update_of_ne (by omega) _ _, rfl⟩, hm.type_eq,
      ?_, ?_, ?_⟩
    · rw [← hU]
      refine hm.laid.write hneed hx hfit ?_ ?_ rfl
      · rw [hmod]
      · change max s₁.length (x + 1) = s₁.length
        rw [hm.laid.length_eq]
        omega
    · change s₁.freeblock = _
      omega
    · change s₁.freeblock ≤ FSSIZE
      rcases hm.le with hle₁ | hle₁
      · exact hle₁
      · change s₁.freeblock = x + 1 at hle₁
        omega
    · have hmul : ((c i).length / BSIZE + 1) * BSIZE ≤ MAXFILE * BSIZE :=
        Nat.mul_le_mul_right _ hmax
      rw [Nat.succ_mul] at hmul
      have := Nat.div_add_mod' (c i).length BSIZE
      omega
  · intro hge
    rw [hm.laid.length_eq] at hge
    omega

theorem appendLoop_meets (fuel : Nat) {p : List UInt8} (hf : p.length ≤ fuel)
    (h : Laid s ino (needs c) c) {K : Nat} (hK : s.freeblock = K + blocksFor (c i).length)
    (hle : s.freeblock ≤ FSSIZE) (hmax : (c i).length ≤ MAXFILE * BSIZE) :
    Meets (appendLoop fuel (ino i) (c i).length p) s
      (fun r s' => r.2 = (c i).length + p.length ∧ Appends s ino c i p K r.1 s')
      (fun _ => MAXFILE * BSIZE < (c i).length + p.length ∨
        FSSIZE < K + blocksFor ((c i).length + p.length)) := by
  -- the induction follows the loop; the file grows by a part of a block each time
  induction fuel generalizing p s ino c with
  | zero =>
    obtain rfl : p = [] := List.length_eq_zero_iff.mp (by omega)
    exact Meets.pure ⟨rfl, Appends.nil h hK hle hmax⟩
  | succ fuel ih =>
    unfold appendLoop
    by_cases hp : p = []
    · subst hp
      rw [if_pos rfl]
      exact Meets.pure ⟨rfl, Appends.nil h hK hle hmax⟩
    · rw [if_neg hp]
      by_cases hlt : (c i).length / BSIZE < MAXFILE
      · rw [if_pos hlt]
        set n1 := min p.length (((c i).length / BSIZE + 1) * BSIZE - (c i).length) with hn1
        obtain ⟨htake, hpos, hfit⟩ := length_take_chunk hp (c i).length hn1
        have hsum : n1 + (p.drop n1).length = p.length := by
          rw [List.length_drop]
          omega
        apply Meets.bind
        refine (storeChunk_meets h hK hle (by omega) (by omega) hlt).mono (fun din s₁ hm => ?_)
          (fun _ he => Or.inr ?_)
        · have hc : (Function.update c i (c i ++ p.take n1) i).length = (c i).length + n1 := by
            rw [Function.update_self, List.length_append, htake]
          have hrest := ih (p := p.drop n1) (by omega) hm.laid (by rw [hc, hm.count, htake]) hm.le
            (by rw [hc, ← htake]; exact hm.le_max)
          rw [hc, Function.update_self, Nat.add_assoc, hsum] at hrest
          refine hrest.mono (fun r s₂ hr => ⟨hr.1, ?_⟩) (fun _ he => he)
          have := hm.trans hr.2
          rwa [List.take_append_drop] at this
        · have hmono : blocksFor ((c i).length + (p.take n1).length) ≤
              blocksFor ((c i).length + p.length) := blocksFor_mono (by omega)
          omega
      · rw [if_neg hlt]
        apply Meets.throw
        have hge : MAXFILE * BSIZE ≤ (c i).length :=
          (Nat.le_div_iff_mul_le (by decide)).mp (Nat.le_of_not_lt hlt)
        have hpos : 0 < p.length := List.length_pos_iff.mpr hp
        omega

end Xv6.Mkfs

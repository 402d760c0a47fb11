import Xv6.Fs.Write
import Xv6.Lib.Splice

namespace Xv6.Fs

open Lib.Command Lib.Splice

def content (d : Disk) (din : Dinode) : List UInt8 :=
  (List.range din.size.toNat).map (byteAt d din)

@[simp] theorem length_content (d : Disk) (din : Dinode) :
    (content d din).length = din.size.toNat := by
  rw [content, List.length_map, List.length_range]

theorem getElem?_content {d : Disk} {din : Dinode} {k : Nat} (hk : k < din.size.toNat) :
    (content d din)[k]? = some (byteAt d din k) := by
  rw [content, List.getElem?_map, List.getElem?_range hk]
  rfl

theorem content_congr {d d' : Disk} {din din' : Dinode} (hs : din'.size = din.size)
    (hb : ∀ k < din.size.toNat, byteAt d' din' k = byteAt d din k) :
    content d' din' = content d din := by
  rw [content, content, hs]
  apply List.map_congr_left
  intro k hk
  exact hb k (List.mem_range.mp hk)

section Content

variable {s : State} {tbl : Nat → Dinode} {D : Set Nat} {ip : Fin NINODE} {i : Nat} {src : Source}

theorem Files.stores {sb : Superblock} {d : Disk} (h : Files sb d tbl) (hi : InUse sb tbl i) :
    Stores d (tbl i) (content d (tbl i)) where
  le_size := (length_content ..).le
  le_max := (length_content ..).trans_le (h.size_le i hi)
  addr_ne bn hbn := h.full i hi bn (hbn.trans_eq (length_content ..))
  byte k hk := by
    have hlt := hk.trans_eq (length_content ..)
    have hne := h.full i hi (k / BSIZE) (lt_of_le_of_lt (div_mul_BSIZE_le k) hlt)
    rw [List.getD_eq_getElem?_getD, getElem?_content hlt, Option.getD_some, byteAt, if_neg hne]

theorem Laid.readi (h : Laid s tbl D) (ho : Holds s tbl ip i) {dst : Nat → Nat → Bool}
    (hdst : ∀ tot m, dst tot m) (off n : UInt32) :
    Fs.readi dst ip off n s = .ok (if off.toNat + n.toNat < 2 ^ 32 then
      ((content s.data (tbl i)).drop off.toNat).take n.toNat else [], s) := by
  have hdin := h.dinode ho
  split
  next hw =>
    have hst := h.files.stores ho.inUse
    rw [← hdin] at hst ⊢
    refine readi_eq hst hdst hw ?_
    rw [length_content]
    exact min_le_right ..
  next hw =>
    have hoff := UInt32.toNat_lt off
    have hn := UInt32.toNat_lt n
    have hsum : (off + n).toNat = off.toNat + n.toNat - 2 ^ 32 := by
      rw [UInt32.toNat_add]
      omega
    rw [Fs.readi, get_bind, if_pos (Or.inr _)]
    · rfl
    · rw [UInt32.lt_iff_toNat_lt, hsum]
      omega

theorem Written.holds {len off n r hi : Nat} {s' : State} {tbl' : Nat → Dinode}
    (w : Written ip i len D src off n r hi s tbl s' tbl') (ho : Holds s tbl ip i) :
    Holds s' tbl' ip i := by
  refine ⟨?_, ?_, ?_, w.sb ▸ ho.inUse.1, ?_⟩
  · rw [w.icache, State.setDinode_ref]
    exact ho.ref
  · rw [w.icache, State.setDinode_valid]
    exact ho.valid
  · rw [w.icache, State.setDinode_inum]
    exact ho.inum
  · rw [w.fields]
    exact ho.inUse.2

theorem Written.inUse {len off n r hi : Nat} {s' : State} {tbl' : Nat → Dinode}
    (w : Written ip i len D src off n r hi s tbl s' tbl') (j : Nat) :
    InUse s'.sb tbl' j ↔ InUse s.sb tbl j := by
  unfold InUse
  rw [w.sb]
  by_cases hj : j = i
  · rw [hj, w.fields]
  · rw [w.others j hj]

theorem Written.content_other {len off n r hi : Nat} {s' : State} {tbl' : Nat → Dinode}
    (w : Written ip i len D src off n r hi s tbl s' tbl') {j : Nat} (hj : InUse s.sb tbl j)
    (hji : j ≠ i) : content s'.data (tbl' j) = content s.data (tbl j) := by
  apply content_congr
  · rw [w.others j hji]
  · intro k _
    rw [w.bytes j hj k, if_neg fun h => hji h.1]

theorem Written.complete {len off n r hi : Nat} {s' : State} {tbl' : Nat → Dinode}
    (w : Written ip i len D src off n r hi s tbl s' tbl') (hsrc : ∀ k < n, (src k).isSome) :
    r = n ∧ hi = n := by
  have h1 := w.le_hi
  have h2 := w.hi_le
  rcases w.stop with h | ⟨hlt, hnone⟩
  · omega
  · have hsome := hsrc hi hlt
    rw [hnone] at hsome
    cases hsome

theorem Written.content_self {len off : Nat} {bs : List UInt8} {s' : State}
    {tbl' : Nat → Dinode} (w : Written ip i len D src off bs.length bs.length bs.length s tbl s' tbl')
    (hi : InUse s.sb tbl i) (hoff : off ≤ (tbl i).size.toNat)
    (hsrc : ∀ k (hk : k < bs.length), src k = some bs[k]) :
    content s'.data (tbl' i) = splice (content s.data (tbl i)) off bs := by
  have hsize := w.size
  apply eq_splice (by rwa [length_content])
  intro k
  by_cases hk : k < (tbl' i).size.toNat
  · rw [getElem?_content hk, w.bytes i hi k]
    by_cases hin : off ≤ k ∧ k < off + bs.length
    · rw [if_pos ⟨rfl, hin⟩, if_pos hin, hsrc (k - off) (by omega),
        List.getElem?_eq_getElem (by omega)]
      rfl
    · rw [if_neg (by omega), if_neg hin, getElem?_content (by omega)]
  · rw [List.getElem?_eq_none (by rw [length_content]; omega), if_neg (by omega),
      List.getElem?_eq_none (by rw [length_content]; omega)]

end Content

def emptyFile : Dinode := { Dinode.zero with type := T_FILE, nlink := 1 }

def tinyVolume (size : UInt32) : State where
  sb := ⟨FSMAGIC, size, 4, 2, 30, 2, 2, 3⟩
  data b :=
    if b = 2 then Block.zeroes.setDinode 1 emptyFile
    else if b = 3 then Block.zeroes.splice 0 [0x0f]
    else Block.zeroes
  outstanding := 1
  logged := []
  icache ip :=
    if ip.val = 0 then { emptyFile with dev := ROOTDEV, inum := 1, ref := 1, valid := true }
    else noInode

def smallTable (i : Nat) : Dinode := (Block.zeroes.setDinode 1 emptyFile).dinode (i % IPB)

theorem smallTable_one : smallTable 1 = emptyFile := Block.dinode_setDinode_self _ _ (by decide)

theorem tinyVolume_inUse {size : UInt32} {i : Nat}
    (h : InUse (tinyVolume size).sb smallTable i) : i = 1 := by
  have hlt : i < 2 := h.1
  have hne : i ≠ 0 := by
    rintro rfl
    exact h.2 (by decide +kernel)
  omega

theorem slotAddr_emptyFile (d : Disk) (t : Slot) : slotAddr d emptyFile t = 0 := by
  cases t with
  | indirect => rfl
  | block bn =>
    change addrOf d emptyFile bn = 0
    rw [addrOf]
    split
    · rfl
    · exact if_pos rfl

theorem tinyVolume_laid {size : UInt32} (hsize : size = 4 ∨ size = 8) :
    Laid (tinyVolume size) smallTable ∅ := by
  have haddr : addrIn (tinyVolume size).sb (tinyVolume size).data smallTable = fun _ => 0 := by
    funext ⟨i, t⟩
    unfold addrIn
    split
    next hi =>
      rw [tinyVolume_inUse hi, smallTable_one]
      exact slotAddr_emptyFile ..
    · rfl
  have hfree : ∀ b < 8, Free (tinyVolume size).sb (tinyVolume size).data b ↔ 4 ≤ b := by
    rcases hsize with rfl | rfl <;> decide +kernel
  have hstart : dataStart (tinyVolume size).sb = 4 := by
    rcases hsize with rfl | rfl <;> decide
  have hgeo : Geometry (tinyVolume size).sb := by
    unfold Geometry
    rcases hsize with rfl | rfl <;> decide
  have hle : size.toNat ≤ 8 := by
    rcases hsize with rfl | rfl <;> decide
  have href : ∀ ip : Fin NINODE, 0 < ((tinyVolume size).icache ip).ref → ip.val = 0 := by
    rcases hsize with rfl | rfl <;> decide +kernel
  have hentry : ∀ ip : Fin NINODE, ip.val = 0 → (tinyVolume size).icache ip =
      { emptyFile with dev := ROOTDEV, inum := 1, ref := 1, valid := true } := fun ip h => if_pos h
  refine ⟨⟨hgeo, ⟨fun b hb => hb.pos, ?_, ?_, ?_⟩, ?_, ?_, ?_⟩, ?_, ?_, ?_, ?_, ?_⟩
  · intro x hx
    rw [haddr] at hx
    exact absurd rfl hx
  · intro x y hx
    rw [haddr] at hx
    exact absurd rfl hx
  · intro b hb
    have hlow : 4 ≤ b := hstart ▸ hb.1
    rw [haddr, hfree b (hb.2.trans_le hle)]
    exact ⟨fun _ _ => hb.pos.symm, fun _ => hlow⟩
  · intro b hb hlt
    rw [hfree b (lt_of_lt_of_le hb hle)]
    exact Nat.not_le.mpr (hstart ▸ hlt)
  · intro i hi
    rw [tinyVolume_inUse hi, smallTable_one]
    exact Nat.zero_le _
  · intro i hi bn hbn
    rw [tinyVolume_inUse hi, smallTable_one] at hbn
    exact absurd hbn (Nat.not_lt_zero _)
  · intro ip h
    rw [hentry ip (href ip h)]
  · intro ip h
    rw [hentry ip (href ip h)]
    exact one_lt_two
  · intro ip h _
    rw [hentry ip (href ip h)]
    exact smallTable_one.symm
  · intro ip jp h h' _
    exact Fin.ext ((href ip h).trans (href jp h').symm)
  · intro i hi _
    have hb : IBLOCK i (tinyVolume size).sb.inodestart.toNat = 2 := by
      have hlt : i < 2 := hi
      change i / 16 + 2 = 2
      omega
    rw [hb]
    rfl

theorem tinyVolume_holds (size : UInt32) : Holds (tinyVolume size) smallTable ⟨0, by decide⟩ 1 where
  ref := Nat.one_pos
  valid := rfl
  inum := rfl
  inUse := ⟨one_lt_two, by rw [smallTable_one]; decide⟩

def smallVolume : State := tinyVolume 8

theorem smallVolume_laid : Laid smallVolume smallTable ∅ := tinyVolume_laid (Or.inr rfl)

theorem smallVolume_holds : Holds smallVolume smallTable ⟨0, by decide⟩ 1 := tinyVolume_holds 8

theorem smallVolume_room : Room smallVolume.sb smallVolume.data (smallTable 1) 2 := by
  rw [smallTable_one, Room]
  have hmiss : missing smallVolume.data emptyFile 2 = {.block 0} := by
    unfold missing
    rw [Finset.filter_true_of_mem fun t _ => slotAddr_emptyFile _ t]
    decide
  have hfree : freeBlocks smallVolume.sb smallVolume.data = {4, 5, 6, 7} := by
    decide +kernel
  rw [hmiss, hfree]
  decide

section Results

variable {s : State} {tbl : Nat → Dinode} {D : Set Nat} {ip : Fin NINODE} {i : Nat} {src : Source}

/-- A file is an array of bytes. -/
theorem writei_splices_content (bs : List UInt8) (off : UInt32) (h : Laid s tbl D)
    (ho : Holds s tbl ip i) (hoff : off.toNat ≤ (content s.data (tbl i)).length)
    (hmax : off.toNat + bs.length ≤ MAXFILE * BSIZE)
    (hsrc : ∀ k (hk : k < bs.length), src k = some bs[k]) :
    Meets (writei src ip off (UInt32.ofNat bs.length)) s
      (fun r s' => r = bs.length ∧ ∃ tbl', Laid s' tbl' D ∧ Holds s' tbl' ip i ∧
        content s'.data (tbl' i) = splice (content s.data (tbl i)) off.toNat bs ∧
        (∀ j, InUse s.sb tbl j → j ≠ i → content s'.data (tbl' j) = content s.data (tbl j)) ∧
        ∀ dst, (∀ tot m, dst tot m) → ∀ off' n', Fs.readi dst ip off' n' s' =
          .ok (if off'.toNat + n'.toNat < 2 ^ 32 then
            ((content s'.data (tbl' i)).drop off'.toNat).take n'.toNat else [], s'))
      (Stops s.sb s.outstanding (load s (tbl i) + 2 * blocksLeft off.toNat bs.length 0)
        (Room s.sb s.data (tbl i) (off.toNat + bs.length))) := by
  have hn : (UInt32.ofNat bs.length).toNat = bs.length := by
    change off.toNat + bs.length ≤ 274432 at hmax
    rw [UInt32.toNat_ofNat', Nat.mod_eq_of_lt (by omega)]
  rw [length_content] at hoff
  have hf : Fits (tbl i) off (UInt32.ofNat bs.length) := ⟨hoff, by rwa [hn]⟩
  refine (writei_meets src h ho hf (B := load s (tbl i) + 2 * blocksLeft off.toNat bs.length 0)
    le_rfl ?_ ?_).post ?_
  · rw [hn]
    exact id
  · rw [hn]
    exact Nat.le_add_right ..
  · rintro r' s' ⟨rfl, r, hi, tbl', w, -⟩
    rw [hn] at w ⊢
    have hsome : ∀ k < bs.length, (src k).isSome := fun k hk => by rw [hsrc k hk]; rfl
    obtain ⟨rfl, rfl⟩ := w.complete hsome
    have ho' := w.holds ho
    exact ⟨rfl, tbl', w.laid, ho', w.content_self ho.inUse hoff hsrc,
      fun j hj hji => w.content_other hj hji, fun dst hdst off' n' => w.laid.readi ho' hdst off' n'⟩

theorem writei_splices_content_small : ∃ s',
    writei (kernelSrc [104, 105]) ⟨0, by decide⟩ 0 2 smallVolume = .ok (2, s') ∧
      readi kernelDst ⟨0, by decide⟩ 0 9 s' = .ok ([104, 105], s') := by
  have hsrc : ∀ k (hk : k < [104, 105].length), kernelSrc [104, 105] k = some [104, 105][k] := by
    decide
  have hnil : content smallVolume.data (smallTable 1) = [] := by
    rw [smallTable_one]
    rfl
  have hload : load smallVolume (smallTable 1) = 2 := by
    rw [smallTable_one]
    rfl
  obtain ⟨r, s', hw, rfl, tbl', -, -, hc, -, hread⟩ :=
    (writei_splices_content [104, 105] 0 smallVolume_laid smallVolume_holds (Nat.zero_le _)
      (by decide) hsrc).ok
      (not_stops (by rw [hload]; decide) (by rw [hload]; decide) le_rfl smallVolume_room)
  refine ⟨s', hw, ?_⟩
  rw [hread kernelDst kernelDst_accepts 0 9, hc, hnil]
  rfl

theorem blocksLeft_chunk (h : Files s.sb s.data tbl) (hi : InUse s.sb tbl i) {off n : Nat}
    (hoff : off ≤ (tbl i).size.toNat) (hn : n ≤ 3 * BSIZE) :
    2 * blocksLeft off n 0 ≤
      7 + if 0 < n ∧ addrOf s.data (tbl i) (off / BSIZE) ≠ 0 then 1 else 0 := by
  unfold blocksLeft
  split
  next hpos =>
    by_cases hmod : off % BSIZE = 0
    · change off % 1024 = 0 at hmod
      change n ≤ 3 * 1024 at hn
      change 2 * ((off + n - 1) / 1024 - (off + 0) / 1024 + 1) ≤ _
      omega
    · have hlt : off / BSIZE * BSIZE < (tbl i).size.toNat := by
        have hdm := Nat.div_add_mod' off BSIZE
        omega
      rw [if_pos ⟨hpos, h.full i hi _ hlt⟩]
      change n ≤ 3 * 1024 at hn
      change 2 * ((off + n - 1) / 1024 - (off + 0) / 1024 + 1) ≤ _
      omega
  · omega

theorem chunk_load (h : Laid s tbl D) (hi : InUse s.sb tbl i) {off n : UInt32}
    (hf : Fits (tbl i) off n) (hn : n.toNat ≤ 3 * BSIZE) :
    load s (tbl i) + 2 * blocksLeft off.toNat n.toNat 0 ≤ s.logged.length + 9 +
      if 0 < n.toNat ∧ addrOf s.data (tbl i) (off.toNat / BSIZE) ≠ 0 then 1 else 0 := by
  have h1 := blocksLeft_chunk h.files hi hf.1 hn
  have h2 := owed_le s.sb s.logged (slotAddr s.data (tbl i) .indirect)
  rw [load]
  omega

theorem writei_chunk (h : Laid s tbl D) (ho : Holds s tbl ip i) {off n : UInt32}
    (hn : n.toNat ≤ (MAXOPBLOCKS - 1 - 1 - 2) / 2 * BSIZE) :
    Meets (writei src ip off n) s
      (fun _ s' => s'.logged.length ≤ s.logged.length + MAXOPBLOCKS)
      (fun e => e = .tooBigTransaction → LOGSIZE < s.logged.length + MAXOPBLOCKS ∨
        s.sb.nlog.toNat ≤ s.logged.length + MAXOPBLOCKS) := by
  by_cases hf : Fits (tbl i) off n
  · refine (writei_meets src h ho hf le_rfl (id : Room s.sb s.data (tbl i) _ → _)
      (chunk_load h ho.inUse hf hn)).mono ?_ ?_
    · rintro r s' ⟨-, r, hi, tbl', -, hlen⟩
      exact hlen
    · rintro e he rfl
      change LOGSIZE ≤ s.logged.length + 9 ∨ s.sb.nlog.toNat ≤ s.logged.length + 9 + 1 at he
      change LOGSIZE < s.logged.length + 10 ∨ s.sb.nlog.toNat ≤ s.logged.length + 10
      omega
  · exact Meets.of_eq (writei_refuses h ho hf) (Nat.le_add_right ..)

def State.clearLog (s : State) : State := { s with logged := [] }

/-- A `writei` of a chunk of `filewrite` logs at most `MAXOPBLOCKS` distinct blocks, whatever the
source and the free map; where the log has space for so many, it does not overflow. -/
theorem writei_logs_at_most (h : Laid s tbl D) (ho : Holds s tbl ip i) {off n : UInt32}
    (hn : n.toNat ≤ (MAXOPBLOCKS - 1 - 1 - 2) / 2 * BSIZE) :
    (∀ r s', writei src ip off n s.clearLog = .ok (r, s') → s'.logged.length ≤ MAXOPBLOCKS) ∧
      Meets (writei src ip off n) s
        (fun _ s' => s'.logged.length ≤ s.logged.length + MAXOPBLOCKS)
        (fun e => e = .tooBigTransaction → LOGSIZE < s.logged.length + MAXOPBLOCKS ∨
          s.sb.nlog.toNat ≤ s.logged.length + MAXOPBLOCKS) := by
  refine ⟨fun r s' hw => ?_, writei_chunk h ho hn⟩
  have h' : Laid s.clearLog tbl D := h.of_eq rfl rfl rfl
  have hlen := (writei_chunk h' ⟨ho.ref, ho.valid, ho.inum, ho.inUse⟩ hn).of_ok hw
  exact hlen.trans (Nat.zero_add MAXOPBLOCKS).le

theorem writei_logs_at_most_small : ∃ r s',
    writei (kernelSrc [104, 105]) ⟨0, by decide⟩ 0 2 smallVolume = .ok (r, s') ∧
      s'.logged.length ≤ 10 := by
  have hf : Fits (smallTable 1) 0 2 := by
    rw [smallTable_one]
    decide
  have hload := chunk_load smallVolume_laid smallVolume_holds.inUse hf (by decide)
  obtain ⟨r, s', hw, -⟩ := (writei_meets (kernelSrc [104, 105]) smallVolume_laid smallVolume_holds hf
    le_rfl id hload).ok (not_stops (by decide) (by decide) le_rfl smallVolume_room)
  exact ⟨r, s', hw, (writei_logs_at_most smallVolume_laid smallVolume_holds (by decide)).1 r s' hw⟩

end Results

end Xv6.Fs

import Xv6.Fs.Write

namespace Xv6.Fs

open Lib.Command

/-- Every block that is not in the log is as `home` has it on disk. -/
def Unlogged (home : Disk) (s : State) : Prop := ∀ b, b ∉ s.logged → s.data b = home b

def Logs {α : Type} (home : Disk) (c : FsM α) : Prop :=
  ∀ s, Unlogged home s → Meets c s (fun _ s' => Unlogged home s') fun _ => True

section Logs

variable {α β : Type} {home : Disk}

theorem Logs.pure (a : α) : Logs home (Pure.pure a) := fun _ h => Meets.pure h

theorem Logs.throw (e : Panic) : Logs home (throw e : FsM α) := fun _ _ => Meets.throw trivial

theorem Logs.bind {c : FsM α} {f : α → FsM β} (hc : Logs home c) (hf : ∀ a, Logs home (f a)) :
    Logs home (c >>= f) := by
  intro s h
  apply (hc s h).seq
  intro a s₁ h₁
  exact hf a s₁ h₁

theorem Logs.get_bind {f : State → FsM β} (hf : ∀ s, Logs home (f s)) :
    Logs home (MonadState.get >>= f) := by
  intro s h
  apply Meets.bind
  exact Meets.get (hf s s h)

theorem Logs.set {g : State → State} (hd : ∀ s, (g s).data = s.data)
    (hl : ∀ s, (g s).logged = s.logged) : Logs home (modify g) := by
  intro s h
  apply Meets.modify
  intro b hb
  rw [hl] at hb
  rw [hd]
  exact h b hb

theorem Logs.set_bind {g : State → State} {f : FsM β} (hd : ∀ s, (g s).data = s.data)
    (hl : ∀ s, (g s).logged = s.logged) (hf : Logs home f) : Logs home (do modify g; f) :=
  (Logs.set hd hl).bind fun _ => hf

theorem logWrite_logged (b : Nat) (s : State) :
    Meets (logWrite b) s (fun _ s' => s'.data = s.data ∧ b ∈ s'.logged ∧ s.logged ⊆ s'.logged)
      fun _ => True := by
  apply Meets.bind
  apply Meets.get
  split
  · exact Meets.throw trivial
  · split
    · exact Meets.throw trivial
    · split
      next hb => exact Meets.pure ⟨rfl, hb, fun _ hx => hx⟩
      · apply Meets.modify
        exact ⟨rfl, List.mem_append_right _ (List.mem_singleton_self b),
          fun _ hx => List.mem_append_left _ hx⟩

theorem Logs.set_logWrite {b : Nat} {x : State → Block} {f : Unit → FsM β}
    (hf : ∀ u, Logs home (f u)) :
    Logs home (do modify fun s => s.setBlock b (x s); logWrite b >>= f) := by
  intro s h
  apply Meets.bind
  apply Meets.modify
  apply (logWrite_logged b _).seq
  rintro u s₁ ⟨hd, hb, hl⟩
  refine hf u s₁ fun c hc => ?_
  have hcb : c ≠ b := fun he => hc (he ▸ hb)
  rw [hd]
  exact (Function.update_of_ne hcb ..).trans (h c fun hc' => hc (hl hc'))

theorem Logs.set_logWrite_end {b : Nat} {x : State → Block} :
    Logs home (do modify fun s => s.setBlock b (x s); logWrite b) := by
  have h : Logs home (do modify fun s => s.setBlock b (x s); logWrite b >>= Pure.pure) :=
    Logs.set_logWrite fun u => Logs.pure u
  rwa [bind_pure] at h

theorem bzero_logs (b : Nat) : Logs home (bzero b) := Logs.set_logWrite_end

theorem bread_bind_logs {b : Nat} {f : Block → FsM β} (hf : ∀ x, Logs home (f x)) :
    Logs home (bread b >>= f) :=
  Logs.bind (Logs.get_bind fun _ => Logs.pure _) hf

theorem ballocFrom_logs (fuel b : Nat) : Logs home (ballocFrom fuel b) := by
  induction fuel generalizing b with
  | zero => exact Logs.throw _
  | succ fuel ih =>
    refine Logs.get_bind fun s => ?_
    dsimp only
    split
    · refine bread_bind_logs fun bp => ?_
      split
      · refine Logs.set_logWrite fun _ => ?_
        exact (bzero_logs _).bind fun _ => Logs.pure _
      · exact ih _
    · exact Logs.throw _

theorem balloc_logs : Logs home balloc := Logs.get_bind fun _ => ballocFrom_logs _ _

theorem direct_logs (ip : Fin NINODE) (k : Fin (NDIRECT + 1)) : Logs home (bmap.direct ip k) := by
  refine Logs.get_bind fun s => ?_
  split
  · refine balloc_logs.bind fun a => ?_
    exact Logs.set_bind (fun _ => rfl) (fun _ => rfl) (Logs.pure _)
  · exact Logs.pure _

theorem bmap_logs (ip : Fin NINODE) (bn : Nat) : Logs home (bmap ip bn) := by
  unfold bmap
  split
  · exact direct_logs ip _
  · split
    · refine (direct_logs ip _).bind fun ind => ?_
      refine bread_bind_logs fun bp => ?_
      dsimp only
      split
      · refine balloc_logs.bind fun a => ?_
        exact Logs.set_logWrite fun _ => Logs.pure _
      · exact Logs.pure _
    · exact Logs.throw _

theorem iupdate_logs (ip : Fin NINODE) : Logs home (iupdate ip) := by
  refine Logs.get_bind fun s => ?_
  exact bread_bind_logs fun bp => Logs.set_logWrite_end

end Logs

/-- The first byte of the source that is not mapped is the first one of all, or it goes to the
beginning of a block. -/
def EndsAtBlock (src : Source) (off n : Nat) : Prop :=
  ∀ j < n, src j = none → (∀ i < j, (src i).isSome) → j = 0 ∨ (off + j) % BSIZE = 0

theorem block_splice_nil (b : Block) (off : Nat) : b.splice off [] = b := by
  funext k
  refine if_neg ?_
  rw [List.length_nil]
  omega

section Copyin

variable {src : Source} {off n tot m : Nat}

theorem length_copyin_of_isSome (h : ∀ i < tot + m, (src i).isSome) :
    (copyin src tot m).length = m := by
  by_contra hne
  have hlt := lt_of_le_of_ne (length_copyin_le src tot m) hne
  have hnone := h _ (Nat.add_lt_add_left hlt tot)
  rw [copyin_stop src hlt] at hnone
  cases hnone

theorem EndsAtBlock.copyin_eq_nil (h : EndsAtBlock src off n)
    (hm : m = min (n - tot) (BSIZE - (off + tot) % BSIZE)) (hsome : ∀ i < tot, (src i).isSome)
    (hstart : tot = 0 ∨ (off + tot) % BSIZE = 0) (hlt : (copyin src tot m).length < m) :
    copyin src tot m = [] := by
  have hj := h (tot + (copyin src tot m).length) (by omega) (copyin_stop src hlt) fun i hi => by
    by_cases hit : i < tot
    · exact hsome i hit
    · exact copyin_isSome src (Nat.le_of_not_lt hit) hi
  rw [← List.length_eq_zero_iff]
  rw [← Nat.add_assoc] at hj
  simp only [BSIZE] at hj hm hstart
  omega

end Copyin

theorem writeLoop_logs {home : Disk} {src : Source} {off n : Nat} (hsrc : EndsAtBlock src off n)
    (ip : Fin NINODE) (fuel tot : Nat) (htot : tot = 0 ∨ (off + tot) % BSIZE = 0 ∨ n ≤ tot)
    (hsome : ∀ i < tot, (src i).isSome) : Logs home (writeLoop src ip off n fuel tot) := by
  induction fuel generalizing tot with
  | zero => exact Logs.pure _
  | succ fuel ih =>
    rw [writeLoop]
    split
    next hlt =>
      refine (bmap_logs ip _).bind fun b => ?_
      set m := min (n - tot) (BSIZE - (off + tot) % BSIZE) with hm
      have hstart : tot = 0 ∨ (off + tot) % BSIZE = 0 := by omega
      dsimp only
      rcases (length_copyin_le src tot m).lt_or_eq with hshort | hall
      · -- nothing is copied, and the block is as it was
        intro s hs
        apply Meets.bind
        apply Meets.modify
        rw [if_pos hshort, hsrc.copyin_eq_nil hm hsome hstart hshort, block_splice_nil,
          State.setBlock, Function.update_eq_self]
        exact Meets.pure hs
      · -- the whole piece is copied, and the block is logged
        rw [if_neg (by rw [hall]; exact lt_irrefl m)]
        refine Logs.set_logWrite fun _ => ih _ ?_ fun i hi => ?_
        · simp only [BSIZE] at hm ⊢
          omega
        · by_cases hit : i < tot
          · exact hsome i hit
          · exact copyin_isSome src (Nat.le_of_not_lt hit) (by rwa [hall])
    · exact Logs.pure _

/-- `writei` refuses a request whose end overflows, or is behind the largest file. -/
def Refused (off n : UInt32) : Prop := off + n < off ∨ UInt32.ofNat (MAXFILE * BSIZE) < off + n

instance (off n : UInt32) : Decidable (Refused off n) := inferInstanceAs (Decidable (_ ∨ _))

theorem writei_logs {home : Disk} {src : Source} {off n : UInt32}
    (hsrc : Refused off n ∨ EndsAtBlock src off.toNat n.toNat) (ip : Fin NINODE) :
    Logs home (writei src ip off n) := by
  refine Logs.get_bind fun s => ?_
  split
  · exact Logs.pure _
  next hsize =>
    split
    · exact Logs.pure _
    next hmax =>
      have hsrc : EndsAtBlock src off.toNat n.toNat :=
        hsrc.resolve_left (not_or.mpr ⟨fun h => hsize (.inr h), hmax⟩)
      refine (writeLoop_logs hsrc ip _ 0 (Or.inl rfl) fun i hi => absurd hi (by omega)).bind
        fun tot => ?_
      dsimp only
      split
      · refine Logs.set_bind (fun _ => rfl) (fun _ => rfl) ?_
        exact (iupdate_logs ip).bind fun _ => Logs.pure _
      · exact Logs.pure _

section Half

def lowBlock : Nat := 0x01010101

/-- A file whose block `q` is block 51, with all bytes `x`; those below it are `lowBlock`. -/
def halfFile (q : Nat) (x : UInt8) : State where
  sb := ⟨FSMAGIC, 1000, 941, 200, 30, 2, 32, 45⟩
  data b := if b = 52 then Block.setField 4 (fun _ => 1) (q - NDIRECT) 51 else fun _ => x
  outstanding := 1
  logged := []
  icache _ :=
    { Dinode.zero with
      type := T_FILE, nlink := 1, size := UInt32.ofNat (MAXFILE * BSIZE)
      addrs := fun k => if k.val = NDIRECT then 52 else if k.val = q then 51 else 0x01010101
      dev := ROOTDEV, inum := 2, ref := 1, valid := true }

variable {src : Source} {ip : Fin NINODE} {off n j q tot : Nat} {x y : UInt8} {s : State}

structure Half (q : Nat) (x : UInt8) (s : State) : Prop where
  sb : s.sb = (halfFile q x).sb
  outstanding : s.outstanding = 1
  icache : s.icache = (halfFile q x).icache
  data : ∀ b, b ≠ lowBlock → s.data b = (halfFile q x).data b
  logged : s.logged = [] ∨ s.logged = [lowBlock]

theorem Half.addr (h : Half q x s) {bn : Nat} (hbn : bn < MAXFILE) (hle : bn ≤ q) :
    addrOf s.data (s.icache ip).toDinode bn = if bn = q then 51 else lowBlock := by
  have hones : ∀ i < NINDIRECT, Block.field 4 (fun _ => 1) i = lowBlock := by
    intro i hi
    have hget : ∀ j < 4, Block.get (fun _ => 1) (4 * i + j) = 1 := fun j hj =>
      dif_pos (by simp only [NINDIRECT, BSIZE] at hi ⊢; omega)
    rw [Block.field, Lib.Bytes.natOfBytes_congr hget]
    rfl
  rw [h.icache, addrOf]
  by_cases hd : bn < NDIRECT
  · rw [dif_pos hd]
    have hne : bn ≠ NDIRECT := hd.ne
    simp only [halfFile, hne, if_false]
    split <;> rfl
  · have h52 : ((halfFile q x).icache ip).addrs Dinode.indirect = 52 := rfl
    rw [dif_neg hd, h52, if_neg (by decide), h.data _ (by decide)]
    change Block.field 4 (Block.setField 4 (fun _ => 1) (q - NDIRECT) 51) (bn - NDIRECT) = _
    have hlo : 12 ≤ bn := Nat.le_of_not_lt hd
    have hhi : bn - 12 < 256 := by
      change bn < 268 at hbn
      omega
    by_cases hq : bn = q
    · subst hq
      rw [if_pos rfl, Block.field_setField_self _ _ (by change 4 * (bn - 12 + 1) ≤ 1024; omega)]
      rfl
    · have hne : bn - NDIRECT ≠ q - NDIRECT := by
        change bn - 12 ≠ q - 12
        omega
      rw [if_neg hq, Block.field_setField_ne _ _ hne]
      exact hones _ hhi

theorem logWrite_room (b : Nat) (hout : s.outstanding = 1) (hlog : s.sb.nlog.toNat = 30)
    (hlen : s.logged.length ≤ 1) :
    Meets (logWrite b) s
      (fun _ s' => s' = s ∧ b ∈ s.logged ∨ s' = { s with logged := s.logged ++ [b] } ∧ b ∉ s.logged)
      fun _ => False := by
  apply Meets.bind
  apply Meets.get
  rw [if_neg (by rw [hlog]; simp only [LOGSIZE, MAXOPBLOCKS]; omega),
    if_neg (by rw [hout]; decide)]
  split
  next hin => exact Meets.pure (.inl ⟨rfl, hin⟩)
  next hno => exact Meets.modify (.inr ⟨rfl, hno⟩)

theorem Half.nlog (h : Half q x s) : s.sb.nlog.toNat = 30 := by
  rw [h.sb]
  rfl

theorem length_le_of_low (h : s.logged = [] ∨ s.logged = [lowBlock]) : s.logged.length ≤ 1 := by
  rcases h with h | h <;> simp [h]

theorem Half.logWrite (h : Half q x s) :
    Meets (logWrite lowBlock) s (fun _ s' => Half q x s') fun _ => False := by
  refine (logWrite_room _ h.outstanding h.nlog (length_le_of_low h.logged)).post ?_
  rintro _ s' (⟨rfl, -⟩ | ⟨rfl, hno⟩)
  · exact h
  · have hl : s.logged = [] :=
      h.logged.resolve_right fun he => hno (by rw [he]; exact List.mem_singleton_self _)
    exact ⟨h.sb, h.outstanding, h.icache, h.data, .inr (by simp [hl])⟩

theorem Half.setBlock (h : Half q x s) (d : Block) : Half q x (s.setBlock lowBlock d) :=
  ⟨h.sb, h.outstanding, h.icache, fun b hb => (Function.update_of_ne hb ..).trans (h.data b hb),
    h.logged⟩

theorem Half.writeLoop (h : Half q x s) (hnone : src j = none) (hsome : ∀ i < j, (src i).isSome)
    (hlast : src (j - 1) = some y) (hxy : y ≠ x) (hjn : j < n) (hmid : (off + j) % BSIZE ≠ 0)
    (hq : (off + j) / BSIZE = q) (hmax : off + n ≤ MAXFILE * BSIZE) {fuel : Nat}
    (hfuel : n - tot ≤ fuel) (htot : tot < j) (hstart : tot = 0 ∨ (off + tot) % BSIZE = 0) :
    Meets (writeLoop src ip off n fuel tot) s (fun _ s' => s'.sb = s.sb ∧ s'.outstanding = 1 ∧
      s'.icache = s.icache ∧ s'.data 51 ≠ (halfFile q x).data 51 ∧
      (s'.logged = [] ∨ s'.logged = [lowBlock])) fun _ => False := by
  induction fuel generalizing s tot with
  | zero => omega
  | succ fuel ih =>
    have hbn : (off + tot) / BSIZE < MAXFILE := by
      simp only [BSIZE, MAXFILE, NDIRECT, NINDIRECT] at hmax ⊢
      omega
    have hle : (off + tot) / BSIZE ≤ q := hq ▸ Nat.div_le_div_right (by omega)
    have haddr : addrOf s.data (s.icache ip).toDinode _ = _ := h.addr hbn hle
    have hne : addrOf s.data (s.icache ip).toDinode ((off + tot) / BSIZE) ≠ 0 := by
      rw [haddr]
      split <;> decide
    rw [Fs.writeLoop, if_pos (by omega)]
    apply (Meets.of_eq (Q := fun b s' => b = _ ∧ s' = s) (bmap_eq hne hbn) ⟨rfl, rfl⟩).seq
    rintro b s₁ ⟨rfl, rfl⟩
    rw [haddr]
    set m := min (n - tot) (BSIZE - (off + tot) % BSIZE) with hm
    dsimp only
    apply Meets.bind
    apply Meets.modify
    simp only [BSIZE] at hm hmid hq hstart
    by_cases hbq : (off + tot) / BSIZE = q
    · -- the block in which the source ends
      have hblock : (off + tot) / 1024 = q := hbq
      have hcopied : j - 1 - tot < (copyin src tot m).length := by
        by_contra hle
        have hlt : (copyin src tot m).length < m := by omega
        have hs := hsome (tot + (copyin src tot m).length) (by omega)
        rw [copyin_stop src hlt] at hs
        cases hs
      have hshort : (copyin src tot m).length < m := by
        by_contra hge
        have hbyte : src (tot + (j - tot)) = _ := copyin_byte src (m := m) (by omega)
        rw [Nat.add_sub_cancel' htot.le, hnone] at hbyte
        cases hbyte
      rw [if_pos hshort, if_pos hbq]
      refine Meets.pure ⟨rfl, h.outstanding, rfl, fun he => hxy ?_, h.logged⟩
      have hbyte := copyin_byte src hcopied
      rw [show tot + (j - 1 - tot) = j - 1 by omega, hlast] at hbyte
      have hk : (off + tot) % BSIZE + (j - 1 - tot) < BSIZE := by
        simp only [BSIZE]
        omega
      have hget := congrArg (fun d => Block.get d ((off + tot) % BSIZE + (j - 1 - tot))) he
      simp only [State.setBlock, Function.update_self] at hget
      rw [Block.get_splice _ _ _ hk, if_pos ⟨by omega, by omega⟩, Nat.add_sub_cancel_left,
        ← Option.some.inj hbyte] at hget
      rw [hget]
      simp [halfFile, Block.get, hk]
    · -- a block before it, which is stored as a whole
      have hblock : (off + tot) / 1024 ≠ q := hbq
      have hlow : (off + tot) / 1024 ≤ q := hle
      have hall : (copyin src tot m).length = m :=
        length_copyin_of_isSome fun i hi => hsome i (by omega)
      rw [if_neg (by omega), if_neg hbq]
      apply (h.setBlock _).logWrite.seq
      intro _ s₂ h₂
      refine (ih h₂ (by omega) (by omega) (.inr ?_)).post ?_
      · simp only [BSIZE]
        omega
      · rintro _ s₃ ⟨hsb, ho, hi, hd⟩
        exact ⟨by rw [hsb, h₂.sb, h.sb], ho, by rw [hi, h₂.icache, h.icache], hd⟩

theorem iupdate_other {c : Nat} (hc : IBLOCK (s.icache ip).inum s.sb.inodestart.toNat ≠ c)
    (hno : c ∉ s.logged) (hout : s.outstanding = 1) (hlog : s.sb.nlog.toNat = 30)
    (hlen : s.logged.length ≤ 1) :
    Meets (iupdate ip) s (fun _ s' => s'.data c = s.data c ∧ c ∉ s'.logged) fun _ => False := by
  apply Meets.bind
  apply Meets.get
  apply Meets.bind
  apply Meets.bind
  apply Meets.get
  apply Meets.pure
  apply Meets.bind
  apply Meets.modify
  refine Meets.post (logWrite_room _ (by exact hout) (by exact hlog) (by exact hlen)) ?_
  rintro _ s' (⟨rfl, -⟩ | ⟨rfl, -⟩)
  · exact ⟨Function.update_of_ne hc.symm .., hno⟩
  · refine ⟨Function.update_of_ne hc.symm .., fun hin => ?_⟩
    rcases List.mem_append.mp hin with hin | hin
    · exact hno hin
    · exact hc (List.mem_singleton.mp hin).symm

theorem add_le_of_not_refused {off n : UInt32} (h : ¬Refused off n) :
    off.toNat + n.toNat ≤ MAXFILE * BSIZE := by
  obtain ⟨hover, hmax⟩ := not_or.mp h
  rw [UInt32.lt_iff_toNat_lt, UInt32.toNat_add] at hover hmax
  change ¬274432 < _ at hmax
  change _ ≤ 274432
  have := off.toNat_lt
  have := n.toNat_lt
  omega

theorem writei_half {off n : UInt32} (hacc : ¬Refused off n) (hnone : src j = none)
    (hsome : ∀ i < j, (src i).isSome) (hlast : src (j - 1) = some y) (hxy : y ≠ x) (hpos : 0 < j)
    (hjn : j < n.toNat) (hmid : (off.toNat + j) % BSIZE ≠ 0)
    (hq : (off.toNat + j) / BSIZE = q) :
    Meets (writei src ip off n) (halfFile q x)
      (fun _ s' => s'.data 51 ≠ (halfFile q x).data 51 ∧ 51 ∉ s'.logged) fun _ => False := by
  have hmax := add_le_of_not_refused hacc
  obtain ⟨hover, hfile⟩ := not_or.mp hacc
  have hsize : ¬((halfFile q x).icache ip).size < off := by
    rw [UInt32.lt_iff_toNat_lt]
    change ¬274432 < _
    change _ ≤ 274432 at hmax
    omega
  have hhalf : Half q x (halfFile q x) := ⟨rfl, rfl, rfl, fun _ _ => rfl, .inl rfl⟩
  apply Meets.bind
  apply Meets.get
  rw [if_neg (not_or.mpr ⟨hsize, hover⟩), if_neg hfile]
  refine (hhalf.writeLoop hnone hsome hlast hxy hjn hmid hq hmax (by omega) hpos (.inl rfl)).seq ?_
  rintro tot s' ⟨hsb, hout, hi, hd, hl⟩
  have hno : 51 ∉ s'.logged := by
    rcases hl with hl | hl <;> rw [hl] <;> decide
  dsimp only
  split
  · apply Meets.bind
    apply Meets.modify
    refine Meets.seq (iupdate_other (c := 51) ?_ (by exact hno) (by exact hout) ?_
      (length_le_of_low (by exact hl))) ?_
    · simp only [State.setInode, Function.update_self, hsb, hi]
      exact (by decide : IBLOCK 2 32 ≠ 51)
    · simp only [State.setInode, hsb]
      rfl
    rintro _ s₁ ⟨hsame, hno₁⟩
    exact Meets.pure ⟨by rw [hsame]; exact hd, hno₁⟩
  · exact Meets.pure ⟨hd, hno⟩

end Half

end Xv6.Fs

import Xv6.Fs.Laid

namespace Xv6.Fs

open Lib.Command

section Copyin

variable (src : Source)

theorem copyin_succ (tot m : Nat) : copyin src tot (m + 1) =
    match src tot with
    | some x => x :: copyin src (tot + 1) m
    | none => [] := by
  have hshift : (List.range (m + 1)).map (fun j => src (tot + j)) =
      src tot :: (List.range m).map fun j => src (tot + 1 + j) := by
    rw [List.range_succ_eq_map, List.map_cons, List.map_map, Nat.add_zero]
    congr 1
    apply List.map_congr_left
    intro j _
    exact congrArg src (by omega)
  rw [copyin, hshift]
  cases src tot with
  | none => rfl
  | some x => rfl

theorem length_copyin_le (tot m : Nat) : (copyin src tot m).length ≤ m := by
  induction m generalizing tot with
  | zero => exact le_rfl
  | succ m ih =>
    rw [copyin_succ]
    cases src tot with
    | none => exact Nat.zero_le _
    | some x => exact Nat.succ_le_succ (ih (tot + 1))

theorem copyin_byte {tot m j : Nat} (hj : j < (copyin src tot m).length) :
    src (tot + j) = some ((copyin src tot m).getD j 0) := by
  induction m generalizing tot j with
  | zero => exact absurd hj (Nat.not_lt_zero j)
  | succ m ih =>
    rw [copyin_succ] at hj ⊢
    cases hx : src tot with
    | none =>
      rw [hx] at hj
      exact absurd hj (Nat.not_lt_zero j)
    | some x =>
      rw [hx] at hj
      cases j with
      | zero => exact hx
      | succ j =>
        have hbyte := ih (Nat.lt_of_succ_lt_succ hj)
        rw [Nat.add_assoc, Nat.add_comm 1 j] at hbyte
        exact hbyte

theorem copyin_stop {tot m : Nat} (h : (copyin src tot m).length < m) :
    src (tot + (copyin src tot m).length) = none := by
  induction m generalizing tot with
  | zero => exact absurd h (Nat.not_lt_zero _)
  | succ m ih =>
    rw [copyin_succ] at h ⊢
    cases hx : src tot with
    | none => exact hx
    | some x =>
      rw [hx] at h
      have hnone := ih (Nat.lt_of_succ_lt_succ h)
      rw [List.length_cons, Nat.add_comm _ 1, ← Nat.add_assoc]
      exact hnone

theorem copyin_isSome {tot m k : Nat} (hk : tot ≤ k) (hk' : k < tot + (copyin src tot m).length) :
    (src k).isSome := by
  obtain ⟨j, rfl⟩ := Nat.exists_eq_add_of_le hk
  rw [copyin_byte src (Nat.lt_of_add_lt_add_left hk')]
  rfl

end Copyin

/-- The file of inode `i` has been written between the positions `lo` and `hi` of the source,
which goes to byte `off` of the file, and no other byte of any file has changed. -/
structure Wrote (ip : Fin NINODE) (i len : Nat) (D : Set Nat) (src : Source) (off lo hi : Nat)
    (s : State) (tbl : Nat → Dinode) (s' : State) (tbl' : Nat → Dinode) : Prop where
  laid : Laid s' tbl' D
  grows : Grows ip i len s tbl s' tbl'
  bytes : ∀ j, InUse s.sb tbl j → ∀ k, byteAt s'.data (tbl' j) k =
    if j = i ∧ off + lo ≤ k ∧ k < off + hi then (src (k - off)).getD 0 else byteAt s.data (tbl j) k

section Store

variable {s s₁ s₂ : State} {tbl tbl₁ tbl₂ : Nat → Dinode} {D : Set Nat} {ip : Fin NINODE}
  {i len off lo mid hi : Nat} {src : Source}

theorem Wrote.refl (h : Laid s tbl D) (ho : Holds s tbl ip i) :
    Wrote ip i len D src off lo lo s tbl s tbl := by
  refine ⟨h, Grows.refl h ho, fun j hj k => ?_⟩
  rw [if_neg (by omega)]

theorem Wrote.trans (w : Wrote ip i len D src off lo mid s tbl s₁ tbl₁)
    (w' : Wrote ip i len D src off mid hi s₁ tbl₁ s₂ tbl₂) (hlo : lo ≤ mid) (hhi : mid ≤ hi) :
    Wrote ip i len D src off lo hi s tbl s₂ tbl₂ := by
  refine ⟨w'.laid, w.grows.trans w'.grows, fun j hj k => ?_⟩
  rw [w'.bytes j ((w.grows.inUse j).mpr hj), w.bytes j hj]
  by_cases h2 : j = i ∧ off + mid ≤ k ∧ k < off + hi
  · rw [if_pos h2, if_pos (by omega)]
  · rw [if_neg h2]
    by_cases h1 : j = i ∧ off + lo ≤ k ∧ k < off + mid
    · rw [if_pos h1, if_pos (by omega)]
    · rw [if_neg h1, if_neg (by omega)]

theorem Laid.store (len : Nat) (h : Laid s tbl D) (ho : Holds s tbl ip i) {bn a : Nat}
    (ha : addrOf s.data (tbl i) bn = a) (ha0 : a ≠ 0) (x : Block) :
    Laid (s.setBlock a x) tbl D ∧ Grows ip i len s tbl (s.setBlock a x) tbl ∧
      ∀ j, InUse s.sb tbl j → ∀ k, byteAt (s.setBlock a x).data (tbl j) k =
        if j = i ∧ k / BSIZE = bn then x.get (k % BSIZE) else byteAt s.data (tbl j) k := by
  subst ha
  have hne' : slotAddr s.data (tbl i) (.block bn) ≠ 0 := ha0
  have harea : InArea s.sb (addrOf s.data (tbl i) bn) := h.files.area ho.inUse hne'
  obtain ⟨hfiles, hslots⟩ := h.files.store ho.inUse ha0 x
  refine ⟨⟨hfiles, h.dev, h.inum, h.valid, h.unique, fun j hj hjD => ?_⟩, ?_,
    fun j hj k => h.files.byteAt_store ho.inUse ha0 x hj k⟩
  · have hlt : IBLOCK j s.sb.inodestart.toNat < s.sb.bmapstart.toNat := h.files.geometry.IBLOCK_lt hj
    have hlow := harea.bmapstart_lt
    have hd : (s.setBlock (addrOf s.data (tbl i) bn) x).data (IBLOCK j s.sb.inodestart.toNat) =
        s.data (IBLOCK j s.sb.inodestart.toNat) := Function.update_of_ne (by omega) ..
    change ((s.setBlock _ x).data (IBLOCK j s.sb.inodestart.toNat)).dinode (j % IPB) = tbl j
    rw [hd]
    exact h.disk j hj hjD
  · refine ⟨rfl, rfl, (congrArg State.icache (h.setDinode_self ho)).symm, fun _ _ => rfl, rfl,
      fun t _ => congrFun (hslots i ho.inUse) t, fun hr => ?_⟩
    exact (room_congr rfl (hslots i ho.inUse) fun c hc => free_update harea hc x).mpr hr

theorem Laid.piece (len : Nat) (src : Source) (h : Laid s tbl D) (ho : Holds s tbl ip i) {tot m a : Nat}
    (ha : addrOf s.data (tbl i) ((off + tot) / BSIZE) = a) (ha0 : a ≠ 0)
    (hm : m ≤ BSIZE - (off + tot) % BSIZE) :
    Wrote ip i len D src off tot (tot + (copyin src tot m).length) s tbl
      (s.setBlock a ((s.data a).splice ((off + tot) % BSIZE) (copyin src tot m))) tbl := by
  obtain ⟨hlaid, hgrows, hbytes⟩ := h.store len ho ha ha0
    ((s.data a).splice ((off + tot) % BSIZE) (copyin src tot m))
  refine ⟨hlaid, hgrows, fun j hj k => ?_⟩
  have hlen := length_copyin_le src tot m
  have hdm := Nat.div_add_mod k BSIZE
  have hdm' := Nat.div_add_mod (off + tot) BSIZE
  have hmod := mod_BSIZE_lt (off + tot)
  rw [hbytes j hj k]
  by_cases hk : j = i ∧ k / BSIZE = (off + tot) / BSIZE
  · rw [if_pos hk, Block.get_splice _ _ _ (mod_BSIZE_lt k)]
    rw [← hk.2] at hdm'
    by_cases hin : (off + tot) % BSIZE ≤ k % BSIZE ∧
        k % BSIZE < (off + tot) % BSIZE + (copyin src tot m).length
    · have hpos : k - off = tot + (k % BSIZE - (off + tot) % BSIZE) := by omega
      rw [if_pos hin, if_pos ⟨hk.1, by omega, by omega⟩, hpos, copyin_byte src (m := m) (by omega)]
      rfl
    · rw [if_neg hin, if_neg (by omega), byteAt, hk.1, hk.2, ha, if_neg ha0]
  · rw [if_neg hk, if_neg]
    rintro ⟨hji, hlo, hhi⟩
    refine hk ⟨hji, ?_⟩
    have hj' : k = off + tot + (k - (off + tot)) := by omega
    rw [hj', div_BSIZE_add (by omega)]

theorem Wrote.log (w : Wrote ip i len D src off lo hi s tbl s₁ tbl₁) (b : Nat) :
    Wrote ip i len D src off lo hi s tbl (s₁.log b) tbl₁ where
  laid := w.laid.of_eq rfl rfl rfl
  grows := ⟨w.grows.sb, w.grows.outstanding, w.grows.icache, w.grows.others, w.grows.addrs,
    w.grows.keep, w.grows.room⟩
  bytes := w.bytes

theorem Mapped.wrote {bn a : Nat} (hm : Mapped ip i len bn D s tbl a s₁ tbl₁) :
    Wrote ip i len D src off lo lo s tbl s₁ tbl₁ := by
  refine ⟨hm.laid, hm.grows, fun j hj k => ?_⟩
  rw [if_neg (by omega)]
  exact hm.bytes j hj k

end Store

/-- The number of blocks that a write of `n` bytes at `off` has still to go through. -/
def blocksLeft (off n tot : Nat) : Nat :=
  if tot < n then (off + n - 1) / BSIZE - (off + tot) / BSIZE + 1 else 0

theorem blocksLeft_next (off : Nat) {n tot : Nat} (h : tot < n) :
    blocksLeft off n (tot + min (n - tot) (BSIZE - (off + tot) % BSIZE)) + 1 ≤
      blocksLeft off n tot := by
  unfold blocksLeft
  rw [if_pos h]
  split
  next h' =>
    change (off + n - 1) / 1024 - (off + (tot + min (n - tot) (1024 - (off + tot) % 1024))) / 1024 + 1
      + 1 ≤ (off + n - 1) / 1024 - (off + tot) / 1024 + 1
    change tot + min (n - tot) (1024 - (off + tot) % 1024) < n at h'
    omega
  · omega

structure Copied (ip : Fin NINODE) (i len : Nat) (D : Set Nat) (src : Source) (off n lo r hi : Nat)
    (s : State) (tbl : Nat → Dinode) (s' : State) (tbl' : Nat → Dinode) : Prop where
  wrote : Wrote ip i len D src off lo hi s tbl s' tbl'
  lo_le : lo ≤ r
  le_hi : r ≤ hi
  hi_le : hi ≤ n
  mapped : ∀ k, lo ≤ k → k < hi → (src k).isSome
  stop : r = n ∨ hi < n ∧ src hi = none
  blocks : lo < r → ∀ bn, (off + lo) / BSIZE ≤ bn → bn * BSIZE < off + r →
    addrOf s'.data (tbl' i) bn ≠ 0

section Loop

variable {s : State} {tbl : Nat → Dinode} {D : Set Nat} {ip : Fin NINODE} {i len off n B : Nat}
  {src : Source} {room : Prop}

theorem Copied.nil (h : Laid s tbl D) (ho : Holds s tbl ip i) {tot : Nat} (ht : tot = n) :
    Copied ip i len D src off n tot tot tot s tbl s tbl where
  wrote := Wrote.refl h ho
  lo_le := le_rfl
  le_hi := le_rfl
  hi_le := ht.le
  mapped k _ _ := by omega
  stop := Or.inl ht
  blocks hlt := absurd hlt (lt_irrefl tot)

theorem Copied.cons {s₁ s₂ : State} {tbl₁ tbl₂ : Nat → Dinode} {tot r hi : Nat} (ht : tot < n)
    (w : Wrote ip i len D src off tot (tot + min (n - tot) (BSIZE - (off + tot) % BSIZE)) s tbl
      s₁ tbl₁)
    (hmap : ∀ k, tot ≤ k → k < tot + min (n - tot) (BSIZE - (off + tot) % BSIZE) → (src k).isSome)
    (haddr : addrOf s₁.data (tbl₁ i) ((off + tot) / BSIZE) ≠ 0)
    (c : Copied ip i len D src off n (tot + min (n - tot) (BSIZE - (off + tot) % BSIZE)) r hi
      s₁ tbl₁ s₂ tbl₂) : Copied ip i len D src off n tot r hi s tbl s₂ tbl₂ := by
  have hle := c.lo_le
  have hhi := c.le_hi
  refine ⟨w.trans c.wrote (by omega) (by omega), by omega, hhi, c.hi_le, fun k hk hk' => ?_, c.stop,
    fun _ bn hbn hr => ?_⟩
  · by_cases hm : k < tot + min (n - tot) (BSIZE - (off + tot) % BSIZE)
    · exact hmap k hk hm
    · exact c.mapped k (by omega) hk'
  · by_cases he : bn = (off + tot) / BSIZE
    · have hkeep : addrOf s₂.data (tbl₂ i) ((off + tot) / BSIZE) =
          addrOf s₁.data (tbl₁ i) ((off + tot) / BSIZE) :=
        c.wrote.grows.keep (.block ((off + tot) / BSIZE)) haddr
      rw [he, hkeep]
      exact haddr
    · have hrn := c.hi_le
      change bn * 1024 < off + r at hr
      change (off + tot) / 1024 ≤ bn at hbn
      change ¬ bn = (off + tot) / 1024 at he
      refine c.blocks ?_ bn ?_ hr
      · change tot + min (n - tot) (1024 - (off + tot) % 1024) < r
        omega
      · change (off + (tot + min (n - tot) (1024 - (off + tot) % 1024))) / 1024 ≤ bn
        omega

theorem writeLoop_meets (src : Source) (h : Laid s tbl D) (ho : Holds s tbl ip i) (hD : i ∈ D)
    (hmax : off + n ≤ MAXFILE * BSIZE) (hlen : off + n ≤ len) (fuel : Nat) {tot : Nat}
    (htot : tot ≤ n) (hfuel : n ≤ tot + fuel)
    (hroom : room → Room s.sb s.data (tbl i) len)
    (hB : load s (tbl i) + 2 * blocksLeft off n tot ≤
      B + if tot < n ∧ addrOf s.data (tbl i) ((off + tot) / BSIZE) ≠ 0 then 1 else 0) :
    Meets (writeLoop src ip off n fuel tot) s
      (fun r s' => ∃ hi tbl', Copied ip i len D src off n tot r hi s tbl s' tbl' ∧
        load s' (tbl' i) ≤ B)
      (Stops s.sb s.outstanding B room) := by
  induction fuel generalizing s tbl tot with
  | zero =>
    apply Meets.pure
    rw [if_neg (by omega)] at hB
    exact ⟨tot, tbl, Copied.nil h ho (by omega), by omega⟩
  | succ fuel ih =>
    rw [writeLoop]
    split
    next hlt =>
      have hbn : (off + tot) / BSIZE < MAXFILE :=
        Nat.div_lt_of_lt_mul (by rw [Nat.mul_comm]; omega)
      have hneed : (off + tot) / BSIZE * BSIZE < len := by
        have := div_mul_BSIZE_le (off + tot)
        omega
      have hnext := blocksLeft_next off hlt
      have hB' : load s (tbl i) + 2 ≤
          B + if addrOf s.data (tbl i) ((off + tot) / BSIZE) = 0 then 0 else 1 := by
        by_cases h0 : addrOf s.data (tbl i) ((off + tot) / BSIZE) = 0
        · rw [if_pos h0]
          rw [if_neg (by tauto)] at hB
          omega
        · rw [if_neg h0]
          rw [if_pos ⟨hlt, h0⟩] at hB
          omega
      apply (bmap_meets h ho hD hbn hneed hroom hB').seq
      rintro a s₁ ⟨tbl₁, hm, hcost⟩
      have ho₁ := hm.grows.holds ho
      have hload : load s₁ (tbl₁ i) ≤ B := by omega
      have hlog : s₁.logged.length ≤ load s₁ (tbl₁ i) := Nat.le_add_right ..
      have w₁ := hm.laid.piece len src ho₁ hm.addr hm.ne
        (m := min (n - tot) (BSIZE - (off + tot) % BSIZE)) (by omega)
      have hkeep := w₁.grows.keep (.block ((off + tot) / BSIZE))
      have w := hm.wrote.trans w₁ le_rfl (by omega)
      have hlen' := length_copyin_le src tot (min (n - tot) (BSIZE - (off + tot) % BSIZE))
      have hmap : ∀ k, tot ≤ k →
          k < tot + (copyin src tot (min (n - tot) (BSIZE - (off + tot) % BSIZE))).length →
          (src k).isSome := fun k => copyin_isSome src
      dsimp only
      apply Meets.bind
      apply Meets.modify
      split
      next hshort =>
        -- the rest of the source is not mapped
        apply Meets.pure
        exact ⟨_, tbl₁, ⟨w, le_rfl, Nat.le_add_right .., by omega, hmap,
          Or.inr ⟨by omega, copyin_stop src hshort⟩, fun hlt => absurd hlt (lt_irrefl tot)⟩, hload⟩
      next hfull =>
        have hall : (copyin src tot (min (n - tot) (BSIZE - (off + tot) % BSIZE))).length =
            min (n - tot) (BSIZE - (off + tot) % BSIZE) := by omega
        rw [hall] at w hmap
        set s₂ := s₁.setBlock a ((s₁.data a).splice ((off + tot) % BSIZE)
          (copyin src tot (min (n - tot) (BSIZE - (off + tot) % BSIZE)))) with hs₂
        have hE : Stops s.sb s.outstanding B room = Stops s₂.sb s₂.outstanding B room := by
          rw [w.grows.sb, w.grows.outstanding]
        rw [hE]
        apply (logWrite_meets (s := s₂) a (hlog.trans hload)).seq
        rintro _ s₃ rfl
        have w' := w.log a
        have haddr : addrOf s₂.data (tbl₁ i) ((off + tot) / BSIZE) ≠ 0 := by
          have ha : slotAddr s₁.data (tbl₁ i) (.block ((off + tot) / BSIZE)) = a := hm.addr
          rw [ha] at hkeep
          exact (hkeep hm.ne).trans_ne hm.ne
        have hload₂ : load (s₂.log a) (tbl₁ i) ≤
            load s₁ (tbl₁ i) + if a ∈ s₁.logged then 0 else 1 := load_log s₂ (tbl₁ i) a
        have hmod := mod_BSIZE_lt (off + tot)
        refine (ih w'.laid (w'.grows.holds ho) (by omega) (by omega)
          (fun hr => w'.grows.room (hroom hr)) ?_).post ?_
        · split at hB
          next hex =>
            rw [if_neg hex.2] at hcost
            omega
          next hex => omega
        · rintro r s₄ ⟨hi, tbl₄, c, hc⟩
          exact ⟨hi, tbl₄, Copied.cons hlt w' hmap haddr c, hc⟩
    next hge =>
      apply Meets.pure
      rw [if_neg (by omega)] at hB
      exact ⟨tot, tbl, Copied.nil h ho (by omega), by omega⟩

end Loop

section Iupdate

variable {s : State} {tbl : Nat → Dinode} {D : Set Nat} {ip : Fin NINODE} {i : Nat}

def State.flush (s : State) (i : Nat) (din : Dinode) : State :=
  (s.setBlock (IBLOCK i s.sb.inodestart.toNat)
    ((s.data (IBLOCK i s.sb.inodestart.toNat)).setDinode (i % IPB) din)).log
      (IBLOCK i s.sb.inodestart.toNat)

theorem iupdate_meets (h : Laid s tbl D) (ho : Holds s tbl ip i) {B : Nat} {room : Prop}
    (hB : s.logged.length ≤ B) :
    Meets (iupdate ip) s (fun _ s' => s' = s.flush i (tbl i))
      (Stops s.sb s.outstanding B room) := by
  apply Meets.bind
  apply Meets.get
  dsimp only
  rw [bread, bind_assoc]
  apply Meets.bind
  apply Meets.get
  rw [pure_bind, ho.inum, h.dinode ho]
  apply Meets.bind
  apply Meets.modify
  exact logWrite_meets (s := s.setBlock _ _) _ hB

theorem IBLOCK_inj {i j m : Nat} (hb : IBLOCK i m = IBLOCK j m) (hm : i % IPB = j % IPB) :
    i = j := by
  have hdiv : i / IPB = j / IPB := by
    unfold IBLOCK at hb
    omega
  rw [← Nat.div_add_mod i IPB, ← Nat.div_add_mod j IPB, hdiv, hm]

theorem Laid.flush (h : Laid s tbl (insert i D)) (hi : i < s.sb.ninodes.toNat) :
    Laid (s.flush i (tbl i)) tbl D ∧ ∀ j, InUse s.sb tbl j →
      ∀ k, byteAt (s.flush i (tbl i)).data (tbl j) k = byteAt s.data (tbl j) k := by
  have hlow := h.files.geometry.IBLOCK_lt hi
  have hd : ∀ c, s.sb.bmapstart.toNat ≤ c → (s.flush i (tbl i)).data c = s.data c :=
    fun c hc => Function.update_of_ne (by omega) ..
  obtain ⟨hfiles, hsame⟩ := h.files.frame hd
  refine ⟨⟨hfiles, h.dev, h.inum, h.valid, h.unique, fun j hj hjD => ?_⟩,
    fun j hj => (hsame j hj).2⟩
  have hj' : j < s.sb.ninodes.toNat := hj
  have hmod : i % IPB < IPB := Nat.mod_lt i (by decide)
  change (Function.update s.data (IBLOCK i s.sb.inodestart.toNat) _
    (IBLOCK j s.sb.inodestart.toNat)).dinode (j % IPB) = tbl j
  by_cases hji : j = i
  · rw [hji, Function.update_self, Block.dinode_setDinode_self _ _ hmod]
  · have hold := h.disk j hj' (by simp [hji, hjD])
    by_cases hb : IBLOCK j s.sb.inodestart.toNat = IBLOCK i s.sb.inodestart.toNat
    · have hne : j % IPB ≠ i % IPB := fun hm => hji (IBLOCK_inj hb hm)
      rw [hb, Function.update_self, Block.dinode_setDinode_ne _ _ hne, ← hb]
      exact hold
    · rw [Function.update_of_ne hb]
      exact hold

theorem Laid.room_flush (len : Nat) (h : Laid s tbl D) (ho : Holds s tbl ip i)
    (hi : i < s.sb.ninodes.toNat) (hr : Room s.sb s.data (tbl i) len) :
    Room s.sb (s.flush i (tbl i)).data (tbl i) len := by
  have hlow := h.files.geometry.IBLOCK_lt hi
  have hd : ∀ c, s.sb.bmapstart.toNat ≤ c → (s.flush i (tbl i)).data c = s.data c :=
    fun c hc => Function.update_of_ne (by omega) ..
  refine (room_congr rfl ((h.files.frame hd).2 i ho.inUse).1 fun c _ => ?_).mpr hr
  have hbno : s.sb.bmapstart.toNat ≤ BBLOCK c s.sb.bmapstart.toNat := Nat.le_add_left ..
  rw [Free, Free, hd _ hbno]

end Iupdate

/-- The arguments that `writei` does not refuse. -/
def Fits (din : Dinode) (off n : UInt32) : Prop :=
  off.toNat ≤ din.size.toNat ∧ off.toNat + n.toNat ≤ MAXFILE * BSIZE

instance (din : Dinode) (off n : UInt32) : Decidable (Fits din off n) :=
  inferInstanceAs (Decidable (_ ∧ _))

structure Written (ip : Fin NINODE) (i len : Nat) (D : Set Nat) (src : Source) (off n r hi : Nat)
    (s : State) (tbl : Nat → Dinode) (s' : State) (tbl' : Nat → Dinode) : Prop where
  laid : Laid s' tbl' D
  sb : s'.sb = s.sb
  outstanding : s'.outstanding = s.outstanding
  icache : s'.icache = (s.setDinode ip (tbl' i)).icache
  others : ∀ j, j ≠ i → tbl' j = tbl j
  fields : tbl' i = { tbl i with size := (tbl' i).size, addrs := (tbl' i).addrs }
  size : (tbl' i).size.toNat = max (tbl i).size.toNat (off + r)
  bytes : ∀ j, InUse s.sb tbl j → ∀ k, byteAt s'.data (tbl' j) k =
    if j = i ∧ off ≤ k ∧ k < off + hi then (src (k - off)).getD 0 else byteAt s.data (tbl j) k
  room : Room s.sb s.data (tbl i) len → Room s'.sb s'.data (tbl' i) len
  le_hi : r ≤ hi
  hi_le : hi ≤ n
  mapped : ∀ k < hi, (src k).isSome
  stop : r = n ∨ hi < n ∧ src hi = none

section Writei

variable {s : State} {tbl : Nat → Dinode} {D : Set Nat} {ip : Fin NINODE} {i : Nat} {src : Source}
  {off n : UInt32}

theorem MAXFILE_BSIZE : (UInt32.ofNat (MAXFILE * BSIZE)).toNat = 274432 := by decide

theorem writei_refuses (h : Laid s tbl D) (ho : Holds s tbl ip i) (hf : ¬ Fits (tbl i) off n) :
    writei src ip off n s = .ok (-1, s) := by
  rw [writei, get_bind, h.dinode ho]
  split
  · rfl
  next hno =>
    rw [if_pos]
    · rfl
    · have hmax := MAXFILE_BSIZE
      have hsum := UInt32.toNat_add off n
      simp only [UInt32.lt_iff_toNat_lt, hmax, hsum] at hno ⊢
      have h1 := UInt32.toNat_lt off
      have h2 := UInt32.toNat_lt n
      unfold Fits at hf
      change ¬(_ ∧ _ ≤ 274432) at hf
      omega

def grown (off : UInt32) (tot : Nat) (din : Dinode) : Dinode :=
  if din.size < off + UInt32.ofNat tot then { din with size := off + UInt32.ofNat tot } else din

theorem grown_size (din : Dinode) {tot : Nat} (h : off.toNat + tot ≤ MAXFILE * BSIZE) :
    (grown off tot din).size.toNat = max din.size.toNat (off.toNat + tot) := by
  change off.toNat + tot ≤ 274432 at h
  have hsum : (off + UInt32.ofNat tot).toNat = off.toNat + tot := by
    rw [UInt32.toNat_add, UInt32.toNat_ofNat', Nat.mod_eq_of_lt (b := 2 ^ 32) (by omega),
      Nat.mod_eq_of_lt (by omega)]
  unfold grown
  split
  next hlt =>
    rw [UInt32.lt_iff_toNat_lt, hsum] at hlt
    exact hsum.trans (max_eq_right hlt.le).symm
  next hlt =>
    rw [UInt32.lt_iff_toNat_lt, hsum] at hlt
    exact (max_eq_left (by omega)).symm

theorem grown_addrs (off : UInt32) (tot : Nat) (din : Dinode) :
    (grown off tot din).addrs = din.addrs := by
  unfold grown
  split <;> rfl

theorem grown_eq (off : UInt32) (tot : Nat) (din : Dinode) :
    grown off tot din = { din with size := (grown off tot din).size } := by
  unfold grown
  split <;> rfl

theorem Holds.setDinode (ho : Holds s tbl ip i) {din : Dinode} (hty : din.type = (tbl i).type) :
    Holds (s.setDinode ip din) (Function.update tbl i din) ip i := by
  refine ⟨?_, ?_, ?_, ho.inUse.1, ?_⟩
  · rw [State.setDinode_ref]
    exact ho.ref
  · rw [State.setDinode_valid]
    exact ho.valid
  · rw [State.setDinode_inum]
    exact ho.inum
  · rw [Function.update_self, hty]
    exact ho.inUse.2

theorem setDinode_setDinode (s : State) (ip : Fin NINODE) (din din' : Dinode) :
    ((s.setDinode ip din).setDinode ip din').icache = (s.setDinode ip din').icache := by
  funext jp
  by_cases hj : jp = ip
  · rw [hj, State.setDinode_self, State.setDinode_self, State.setDinode_self]
  · rw [State.setDinode_of_ne _ _ _ hj, State.setDinode_of_ne _ _ _ hj,
      State.setDinode_of_ne _ _ _ hj]

theorem setDinode_congr {s' : State} (h : s'.icache = s.icache) (ip : Fin NINODE) (din : Dinode) :
    (s'.setDinode ip din).icache = (s.setDinode ip din).icache := by
  change Function.update s'.icache ip { s'.icache ip with toDinode := din } = _
  rw [h]
  rfl

theorem Copied.grown {s₁ : State} {tbl₁ : Nat → Dinode} {r hi len : Nat}
    (c : Copied ip i len (insert i D) src off.toNat n.toNat 0 r hi s tbl s₁ tbl₁)
    (ho : Holds s tbl ip i) (hf : Fits (tbl i) off n) (hfiles : Files s.sb s.data tbl) :
    Laid (s₁.setDinode ip (Fs.grown off r (tbl₁ i)))
      (Function.update tbl₁ i (Fs.grown off r (tbl₁ i))) (insert i D) := by
  have g := c.wrote.grows
  have ho₁ := g.holds ho
  have hr : off.toNat + r ≤ MAXFILE * BSIZE := by
    have h1 := c.le_hi
    have h2 := c.hi_le
    have h3 := hf.2
    omega
  have hsize := grown_size (tbl₁ i) hr
  rw [g.size] at hsize
  have hold : (tbl i).size.toNat ≤ MAXFILE * BSIZE := hfiles.size_le i ho.inUse
  refine c.wrote.laid.change ho₁ (Set.mem_insert i D) rfl rfl ?_ fun _ _ => rfl
  apply c.wrote.laid.files.setFields (grown_addrs ..)
  · rw [grown_eq]
  · intro _
    rw [hsize]
    exact max_le hold hr
  · intro _ bn hbn
    rw [hsize, lt_max_iff] at hbn
    by_cases hb : bn * BSIZE < (tbl i).size.toNat
    · have hne := hfiles.full i ho.inUse bn hb
      have hkeep : addrOf s₁.data (tbl₁ i) bn = addrOf s.data (tbl i) bn := g.keep (.block bn) hne
      rw [hkeep]
      exact hne
    · -- past the old end, so the loop has been there
      have hlt := hbn.resolve_left hb
      have hoff := hf.1
      refine c.blocks (by omega) bn ?_ hlt
      change (off.toNat + 0) / 1024 ≤ bn
      change ¬ bn * 1024 < (tbl i).size.toNat at hb
      omega

theorem writei_meets (src : Source) (h : Laid s tbl D) (ho : Holds s tbl ip i) (hf : Fits (tbl i) off n) {B : Nat}
    {room : Prop} {len : Nat} (hlen : off.toNat + n.toNat ≤ len)
    (hroom : room → Room s.sb s.data (tbl i) len)
    (hB : load s (tbl i) + 2 * blocksLeft off.toNat n.toNat 0 ≤ B +
      if 0 < n.toNat ∧ addrOf s.data (tbl i) (off.toNat / BSIZE) ≠ 0 then 1 else 0) :
    Meets (writei src ip off n) s
      (fun r' s' => r' = n.toNat ∧ ∃ r hi tbl',
        Written ip i len D src off.toNat n.toNat r hi s tbl s' tbl' ∧ s'.logged.length ≤ B + 1)
      (Stops s.sb s.outstanding B room) := by
  have hmax : off.toNat + n.toNat ≤ 274432 := hf.2
  have hsum : (off + n).toNat = off.toNat + n.toNat := by
    rw [UInt32.toNat_add, Nat.mod_eq_of_lt (by omega)]
  apply Meets.bind
  apply Meets.get
  rw [h.dinode ho, if_neg, if_neg]
  rotate_left
  · rw [UInt32.lt_iff_toNat_lt, MAXFILE_BSIZE, hsum]
    omega
  · rw [UInt32.lt_iff_toNat_lt, UInt32.lt_iff_toNat_lt, hsum]
    have := hf.1
    omega
  by_cases hn : 0 < n
  · apply (writeLoop_meets (D := insert i D) src
      (h.mono (Set.subset_insert i D)) ho (Set.mem_insert i D) hf.2 hlen n.toNat (Nat.zero_le _)
      (by omega) hroom hB).seq
    rintro r s₁ ⟨hi, tbl₁, c, hload⟩
    have g := c.wrote.grows
    have ho₁ := g.holds ho
    have hlog : s₁.logged.length ≤ load s₁ (tbl₁ i) := Nat.le_add_right ..
    have hlaid := c.grown ho hf h.files
    have hty : (grown off r (tbl₁ i)).type = (tbl₁ i).type := by rw [grown_eq]
    have ho₂ := ho₁.setDinode hty
    dsimp only
    rw [if_pos hn, edit]
    apply Meets.bind
    apply Meets.modify
    rw [c.wrote.laid.dinode ho₁]
    have hE : Stops s.sb s.outstanding B room = Stops s₁.sb s₁.outstanding B room := by
      rw [g.sb, g.outstanding]
    rw [hE]
    apply (iupdate_meets (s := s₁.setDinode ip (grown off r (tbl₁ i))) hlaid ho₂
      (hlog.trans hload)).seq
    rintro _ s₂ rfl
    apply Meets.pure
    obtain ⟨hflush, hsame⟩ := hlaid.flush (g.sb ▸ ho.inUse.1)
    rw [Function.update_self] at hflush hsame ⊢
    have hr : off.toNat + r ≤ MAXFILE * BSIZE := by
      have h1 := c.le_hi
      have h2 := c.hi_le
      have h3 := hf.2
      omega
    refine ⟨rfl, r, hi, _, ⟨hflush, g.sb, g.outstanding, ?_, fun j hj => ?_, ?_, ?_, fun j hj k => ?_,
      fun hr => ?_, c.le_hi, c.hi_le, fun k hk => c.mapped k (Nat.zero_le k) hk, c.stop⟩, ?_⟩
    · rw [Function.update_self]
      exact (setDinode_congr g.icache ip _).trans (setDinode_setDinode s ip _ _)
    · rw [Function.update_of_ne hj]
      exact g.others j hj
    · rw [Function.update_self, grown_eq, g.addrs]
    · rw [Function.update_self, grown_size _ hr, g.size]
    · have hj₂ : InUse s₁.sb (Function.update tbl₁ i (grown off r (tbl₁ i))) j := by
        refine ⟨g.sb ▸ hj.1, ?_⟩
        by_cases hji : j = i
        · rw [hji]
          exact ho₂.inUse.2
        · rw [Function.update_of_ne hji, g.others j hji]
          exact hj.2
      have haddrs : (Function.update tbl₁ i (grown off r (tbl₁ i)) j).addrs = (tbl₁ j).addrs := by
        by_cases hji : j = i
        · rw [hji, Function.update_self, grown_addrs]
        · rw [Function.update_of_ne hji]
      rw [hsame j hj₂ k]
      exact (byteAt_addrs haddrs k).trans (c.wrote.bytes j hj k)
    · have hroom₁ := hlaid.room_flush len ho₂ (g.sb ▸ ho.inUse.1)
      rw [Function.update_self] at hroom₁ ⊢
      apply hroom₁
      exact (room_congr rfl (slotAddr_addrs (grown_addrs ..)) fun _ _ => Iff.rfl).mpr (g.room hr)
    · exact (length_addLog_le ..).trans (Nat.succ_le_succ (hlog.trans hload))
  · -- nothing to write, and nothing written
    have hn0 : n.toNat = 0 := by
      rw [UInt32.lt_iff_toNat_lt] at hn
      exact Nat.eq_zero_of_not_pos hn
    rw [hn0]
    apply Meets.bind
    apply Meets.pure
    dsimp only
    rw [if_neg hn]
    apply Meets.pure
    have hlog : s.logged.length ≤ load s (tbl i) := Nat.le_add_right ..
    have hoff := hf.1
    refine ⟨rfl, 0, 0, tbl, ⟨h, rfl, rfl, (congrArg State.icache (h.setDinode_self ho)).symm,
      fun _ _ => rfl, rfl, by omega, fun j _ k => (if_neg (by omega)).symm, id, le_rfl, le_rfl,
      fun k hk => by omega, Or.inl rfl⟩, ?_⟩
    rw [hn0, if_neg (by omega)] at hB
    omega

end Writei

end Xv6.Fs

import Xv6.Fs.Alloc

namespace Xv6.Fs

open Lib.Command

/-- The slots a file of `len` bytes needs. -/
def slots (len : Nat) : Finset Slot :=
  (Finset.range ((len + BSIZE - 1) / BSIZE)).image Slot.block ∪
    if NDIRECT * BSIZE < len then {Slot.indirect} else ∅

theorem mem_slots {len : Nat} {t : Slot} : t ∈ slots len ↔ t.Needed len := by
  unfold slots
  cases t with
  | block bn =>
    have hsplit : Slot.block bn ∉ (if NDIRECT * BSIZE < len then {Slot.indirect} else ∅ : Finset Slot) := by
      split <;> simp
    rw [Finset.mem_union, or_iff_left hsplit, Finset.mem_image]
    constructor
    · rintro ⟨x, hx, hxb⟩
      have hlt := Finset.mem_range.mp hx
      rw [Slot.block.inj hxb] at hlt
      change bn < (len + 1024 - 1) / 1024 at hlt
      change bn * 1024 < len
      omega
    · intro h
      refine ⟨bn, Finset.mem_range.mpr ?_, rfl⟩
      change bn * 1024 < len at h
      change bn < (len + 1024 - 1) / 1024
      omega
  | indirect =>
    have himage : Slot.indirect ∉
        (Finset.range ((len + BSIZE - 1) / BSIZE)).image Slot.block := by simp
    rw [Finset.mem_union, or_iff_right himage, Slot.Needed]
    split
    next hlt => simp [hlt]
    next hlt => simp [hlt]

/-- The blocks that a file lacks to hold `len` bytes. -/
def missing (d : Disk) (din : Dinode) (len : Nat) : Finset Slot :=
  (slots len).filter fun t => slotAddr d din t = 0

def freeBlocks (sb : Superblock) (d : Disk) : Finset Nat :=
  (Finset.range sb.size.toNat).filter (Free sb d)

/-- The disk has the blocks that a file lacks to hold `len` bytes. -/
def Room (sb : Superblock) (d : Disk) (din : Dinode) (len : Nat) : Prop :=
  (missing d din len).card ≤ (freeBlocks sb d).card

theorem room_congr {sb sb' : Superblock} {d d' : Disk} {din din' : Dinode} {len : Nat}
    (hsb : sb' = sb) (hs : slotAddr d' din' = slotAddr d din)
    (hf : ∀ c < sb.size.toNat, Free sb d' c ↔ Free sb d c) :
    Room sb' d' din' len ↔ Room sb d din len := by
  subst hsb
  have hfree : freeBlocks sb' d' = freeBlocks sb' d := by
    apply Finset.filter_congr
    intro c hc
    exact hf c (Finset.mem_range.mp hc)
  rw [Room, Room, hfree, missing, missing, hs]

/-- The file system in memory: the inodes are `tbl`, and those not in `D` are so on disk. An entry
of the cache that is in use and valid holds its inode, and no two entries hold one inode. -/
structure Laid (s : State) (tbl : Nat → Dinode) (D : Set Nat) : Prop where
  files : Files s.sb s.data tbl
  dev : ∀ ip, 0 < (s.icache ip).ref → (s.icache ip).dev = ROOTDEV
  inum : ∀ ip, 0 < (s.icache ip).ref → (s.icache ip).inum < s.sb.ninodes.toNat
  valid : ∀ ip, 0 < (s.icache ip).ref → (s.icache ip).valid →
    (s.icache ip).toDinode = tbl (s.icache ip).inum
  unique : ∀ ip jp, 0 < (s.icache ip).ref → 0 < (s.icache jp).ref →
    (s.icache ip).inum = (s.icache jp).inum → ip = jp
  disk : ∀ i < s.sb.ninodes.toNat, i ∉ D →
    (s.data (IBLOCK i s.sb.inodestart.toNat)).dinode (i % IPB) = tbl i

/-- The cache entry `ip` holds inode `i`, which is in use and has been read. -/
structure Holds (s : State) (tbl : Nat → Dinode) (ip : Fin NINODE) (i : Nat) : Prop where
  ref : 0 < (s.icache ip).ref
  valid : (s.icache ip).valid
  inum : (s.icache ip).inum = i
  inUse : InUse s.sb tbl i

/-- The cache entry `ip` refers to inode `i`, which is in use. -/
structure Refers (s : State) (tbl : Nat → Dinode) (ip : Fin NINODE) (i : Nat) : Prop where
  ref : 0 < (s.icache ip).ref
  inum : (s.icache ip).inum = i
  inUse : InUse s.sb tbl i

theorem Holds.refers {s : State} {tbl : Nat → Dinode} {ip : Fin NINODE} {i : Nat}
    (h : Holds s tbl ip i) : Refers s tbl ip i :=
  ⟨h.ref, h.inum, h.inUse⟩

def State.fetch (s : State) (ip : Fin NINODE) (din : Dinode) : State :=
  s.setInode ip { s.icache ip with toDinode := din, valid := true }

structure Grows (ip : Fin NINODE) (i len : Nat) (s : State) (tbl : Nat → Dinode) (s' : State)
    (tbl' : Nat → Dinode) : Prop where
  sb : s'.sb = s.sb
  outstanding : s'.outstanding = s.outstanding
  icache : s'.icache = (s.setDinode ip (tbl' i)).icache
  others : ∀ j, j ≠ i → tbl' j = tbl j
  addrs : tbl' i = { tbl i with addrs := (tbl' i).addrs }
  keep : ∀ t, slotAddr s.data (tbl i) t ≠ 0 →
    slotAddr s'.data (tbl' i) t = slotAddr s.data (tbl i) t
  room : Room s.sb s.data (tbl i) len → Room s'.sb s'.data (tbl' i) len

section Laid

variable {s s' : State} {tbl tbl' : Nat → Dinode} {D : Set Nat} {ip : Fin NINODE} {i len b : Nat}
  {t : Slot} {din : Dinode} {d' : Disk}

theorem Laid.dinode (h : Laid s tbl D) (ho : Holds s tbl ip i) :
    (s.icache ip).toDinode = tbl i := by
  rw [h.valid ip ho.ref ho.valid, ho.inum]

theorem Laid.mono (h : Laid s tbl D) {D' : Set Nat} (hD : D ⊆ D') : Laid s tbl D' where
  files := h.files
  dev := h.dev
  inum := h.inum
  valid := h.valid
  unique := h.unique
  disk i hi hD' := h.disk i hi fun hm => hD' (hD hm)

theorem Laid.of_eq (h : Laid s tbl D) (hsb : s'.sb = s.sb) (hd : s'.data = s.data)
    (hc : s'.icache = s.icache) : Laid s' tbl D := by
  refine ⟨?_, ?_, ?_, ?_, ?_, ?_⟩
  · rw [hsb, hd]
    exact h.files
  · rw [hc]
    exact h.dev
  · rw [hc, hsb]
    exact h.inum
  · rw [hc]
    exact h.valid
  · rw [hc]
    exact h.unique
  · rw [hsb, hd]
    exact h.disk

theorem Laid.setDinode_self (h : Laid s tbl D) (ho : Holds s tbl ip i) :
    s.setDinode ip (tbl i) = s := by
  rw [← h.dinode ho, State.setDinode, State.setInode, Function.update_eq_self]

namespace State

variable (s ip din)

theorem setDinode_of_ne {jp : Fin NINODE} (h : jp ≠ ip) :
    (s.setDinode ip din).icache jp = s.icache jp := Function.update_of_ne h ..

theorem setDinode_self :
    (s.setDinode ip din).icache ip = { s.icache ip with toDinode := din } :=
  Function.update_self ..

@[simp] theorem setDinode_ref (jp : Fin NINODE) :
    ((s.setDinode ip din).icache jp).ref = (s.icache jp).ref := by
  by_cases h : jp = ip
  · rw [h, setDinode_self]
  · rw [setDinode_of_ne _ _ _ h]

@[simp] theorem setDinode_valid (jp : Fin NINODE) :
    ((s.setDinode ip din).icache jp).valid = (s.icache jp).valid := by
  by_cases h : jp = ip
  · rw [h, setDinode_self]
  · rw [setDinode_of_ne _ _ _ h]

@[simp] theorem setDinode_inum (jp : Fin NINODE) :
    ((s.setDinode ip din).icache jp).inum = (s.icache jp).inum := by
  by_cases h : jp = ip
  · rw [h, setDinode_self]
  · rw [setDinode_of_ne _ _ _ h]

@[simp] theorem setDinode_dev (jp : Fin NINODE) :
    ((s.setDinode ip din).icache jp).dev = (s.icache jp).dev := by
  by_cases h : jp = ip
  · rw [h, setDinode_self]
  · rw [setDinode_of_ne _ _ _ h]

end State

theorem Laid.change (h : Laid s tbl D) (ho : Holds s tbl ip i) (hD : i ∈ D)
    (hsb : s'.sb = s.sb) (hcache : s'.icache = (s.setDinode ip din).icache)
    (hfiles : Files s.sb s'.data (Function.update tbl i din))
    (hlow : ∀ c < s.sb.bmapstart.toNat, s'.data c = s.data c) :
    Laid s' (Function.update tbl i din) D := by
  refine ⟨?_, ?_, ?_, ?_, ?_, ?_⟩
  · rw [hsb]
    exact hfiles
  · intro jp
    rw [hcache, State.setDinode_ref, State.setDinode_dev]
    exact h.dev jp
  · intro jp
    rw [hcache, hsb, State.setDinode_ref, State.setDinode_inum]
    exact h.inum jp
  · intro jp
    rw [hcache, State.setDinode_ref, State.setDinode_valid, State.setDinode_inum]
    intro href hval
    by_cases hj : jp = ip
    · rw [hj, State.setDinode_self, ho.inum, Function.update_self]
    · have hne : (s.icache jp).inum ≠ i := by
        intro he
        exact hj (h.unique jp ip href ho.ref (he.trans ho.inum.symm))
      rw [State.setDinode_of_ne _ _ _ hj, Function.update_of_ne hne]
      exact h.valid jp href hval
  · intro jp kp
    rw [hcache]
    simp only [State.setDinode_ref, State.setDinode_inum]
    exact h.unique jp kp
  · intro j hj hjD
    rw [hsb] at hj ⊢
    have hji : j ≠ i := by
      rintro rfl
      exact hjD hD
    rw [Function.update_of_ne hji, hlow _ (h.files.geometry.IBLOCK_lt hj)]
    exact h.disk j hj hjD

theorem Laid.ilock (h : Laid s tbl D) (hr : Refers s tbl ip i) (hD : i ∉ D) :
    Fs.ilock ip s = .ok ((), s.fetch ip (tbl i)) ∧ Laid (s.fetch ip (tbl i)) tbl D ∧
      Holds (s.fetch ip (tbl i)) tbl ip i := by
  have hself : (s.fetch ip (tbl i)).icache ip = { s.icache ip with toDinode := tbl i, valid := true } :=
    Function.update_self ..
  have hother : ∀ jp, jp ≠ ip → (s.fetch ip (tbl i)).icache jp = s.icache jp :=
    fun jp hj => Function.update_of_ne hj ..
  have href : ∀ jp, ((s.fetch ip (tbl i)).icache jp).ref = (s.icache jp).ref := by
    intro jp
    by_cases hj : jp = ip
    · rw [hj, hself]
    · rw [hother jp hj]
  have hinum : ∀ jp, ((s.fetch ip (tbl i)).icache jp).inum = (s.icache jp).inum := by
    intro jp
    by_cases hj : jp = ip
    · rw [hj, hself]
    · rw [hother jp hj]
  refine ⟨?_, ⟨h.files, fun jp => ?_, fun jp => ?_, fun jp => ?_, fun jp kp => ?_, h.disk⟩,
    ⟨?_, ?_, ?_, hr.inUse⟩⟩
  · by_cases hv : (s.icache ip).valid = true
    · have hsame : s.fetch ip (tbl i) = s := by
        have hdin := h.valid ip hr.ref hv
        rw [hr.inum] at hdin
        rw [← hdin, State.fetch, ← hv, State.setInode, Function.update_eq_self]
      rw [ilock_valid hr.ref hv, hsame]
    · apply ilock_load hr.ref (by simpa using hv)
      · rw [hr.inum]
        exact h.disk i hr.inUse.1 hD
      · exact hr.inUse.2
  · rw [href]
    intro hpos
    by_cases hj : jp = ip
    · rw [hj, hself]
      exact h.dev ip hr.ref
    · rw [hother jp hj]
      exact h.dev jp hpos
  · rw [href, hinum]
    exact h.inum jp
  · rw [href, hinum]
    intro hpos hval
    by_cases hj : jp = ip
    · rw [hj, hself, hr.inum]
    · rw [hother jp hj] at hval ⊢
      exact h.valid jp hpos hval
  · rw [href, href, hinum, hinum]
    exact h.unique jp kp
  · rw [href]
    exact hr.ref
  · rw [hself]
  · rw [hinum]
    exact hr.inum

theorem Grows.holds (g : Grows ip i len s tbl s' tbl') (ho : Holds s tbl ip i) :
    Holds s' tbl' ip i := by
  refine ⟨?_, ?_, ?_, ?_⟩
  · rw [g.icache, State.setDinode_ref]
    exact ho.ref
  · rw [g.icache, State.setDinode_valid]
    exact ho.valid
  · rw [g.icache, State.setDinode_inum]
    exact ho.inum
  · refine ⟨g.sb ▸ ho.inUse.1, ?_⟩
    rw [g.addrs]
    exact ho.inUse.2

theorem Grows.size (g : Grows ip i len s tbl s' tbl') : (tbl' i).size = (tbl i).size := by
  rw [g.addrs]

theorem Grows.inUse (g : Grows ip i len s tbl s' tbl') (j : Nat) :
    InUse s'.sb tbl' j ↔ InUse s.sb tbl j := by
  unfold InUse
  rw [g.sb]
  by_cases hj : j = i
  · rw [hj, g.addrs]
  · rw [g.others j hj]

theorem Grows.refl (h : Laid s tbl D) (ho : Holds s tbl ip i) : Grows ip i len s tbl s tbl := by
  refine ⟨rfl, rfl, ?_, fun _ _ => rfl, rfl, fun _ _ => rfl, id⟩
  rw [h.setDinode_self ho]

theorem Grows.trans {s₁ s₂ : State} {tbl₁ tbl₂ : Nat → Dinode} (g : Grows ip i len s tbl s₁ tbl₁)
    (g' : Grows ip i len s₁ tbl₁ s₂ tbl₂) : Grows ip i len s tbl s₂ tbl₂ where
  sb := g'.sb.trans g.sb
  outstanding := g'.outstanding.trans g.outstanding
  icache := by
    rw [g'.icache]
    funext jp
    by_cases hj : jp = ip
    · rw [hj, State.setDinode_self, State.setDinode_self, g.icache, State.setDinode_self]
    · rw [State.setDinode_of_ne _ _ _ hj, State.setDinode_of_ne _ _ _ hj, g.icache,
        State.setDinode_of_ne _ _ _ hj]
  others j hj := (g'.others j hj).trans (g.others j hj)
  addrs := by
    rw [g'.addrs, g.addrs]
  keep t ht := by
    have h₁ := g.keep t ht
    rw [← h₁] at ht
    exact (g'.keep t ht).trans h₁
  room hr := g'.room (g.room hr)

theorem Gain.room (g : Gain s.sb s.data d' tbl i din t b) (hb : InArea s.sb b)
    (hf : Free s.sb s.data b) (h0 : slotAddr s.data (tbl i) t = 0) (ht : t.Needed len)
    (hr : Room s.sb s.data (tbl i) len) : Room s.sb d' din len := by
  have hmiss : missing d' din len = (missing s.data (tbl i) len).erase t := by
    ext u
    rw [Finset.mem_erase, missing, missing, Finset.mem_filter, Finset.mem_filter, g.slots]
    by_cases hu : u = t
    · rw [hu, Function.update_self]
      exact ⟨fun h => absurd h.2 hb.pos, fun h => absurd rfl h.1⟩
    · rw [Function.update_of_ne hu]
      exact ⟨fun h => ⟨hu, h⟩, And.right⟩
  have hfree : freeBlocks s.sb d' = (freeBlocks s.sb s.data).erase b := by
    ext c
    rw [Finset.mem_erase, freeBlocks, freeBlocks, Finset.mem_filter, Finset.mem_filter,
      Finset.mem_range]
    constructor
    · rintro ⟨hc, hfc⟩
      have := (g.free c hc).mp hfc
      exact ⟨this.2, hc, this.1⟩
    · rintro ⟨hne, hc, hfc⟩
      exact ⟨hc, (g.free c hc).mpr ⟨hfc, hne⟩⟩
  have hmem : t ∈ missing s.data (tbl i) len := Finset.mem_filter.mpr ⟨mem_slots.mpr ht, h0⟩
  have hmem' : b ∈ freeBlocks s.sb s.data :=
    Finset.mem_filter.mpr ⟨Finset.mem_range.mpr hb.2, hf⟩
  rw [Room, hmiss, hfree, Finset.card_erase_of_mem hmem, Finset.card_erase_of_mem hmem']
  exact Nat.sub_le_sub_right hr 1

theorem not_room (h0 : slotAddr s.data (tbl i) t = 0) (ht : t.Needed len)
    (hfull : ∀ c < s.sb.size.toNat, ¬ Free s.sb s.data c) : ¬ Room s.sb s.data (tbl i) len := by
  have hmem : t ∈ missing s.data (tbl i) len := Finset.mem_filter.mpr ⟨mem_slots.mpr ht, h0⟩
  have hpos := Finset.card_pos.mpr ⟨t, hmem⟩
  have hzero : freeBlocks s.sb s.data = ∅ := by
    apply Finset.filter_eq_empty_iff.mpr
    intro c hc
    exact hfull c (Finset.mem_range.mp hc)
  rw [Room, hzero, Finset.card_empty]
  omega

theorem Gain.grows (s' : State) (g : Gain s.sb s.data s'.data tbl i din t b) (h : Laid s tbl D)
    (ho : Holds s tbl ip i) (hD : i ∈ D) (hb : InArea s.sb b) (hf : Free s.sb s.data b)
    (h0 : slotAddr s.data (tbl i) t = 0) (ht : t.Needed len) (hsb : s'.sb = s.sb)
    (hout : s'.outstanding = s.outstanding) (hcache : s'.icache = (s.setDinode ip din).icache) :
    Laid s' (Function.update tbl i din) D ∧
      Grows ip i len s tbl s' (Function.update tbl i din) := by
  refine ⟨h.change ho hD hsb hcache (g.files h.files ho.inUse hb hf h0) g.low, ?_⟩
  refine ⟨hsb, hout, ?_, fun j hj => Function.update_of_ne hj .., ?_, ?_, ?_⟩
  · rw [Function.update_self]
    exact hcache
  · rw [Function.update_self]
    exact g.addrs
  · intro u hu
    rw [Function.update_self, g.slots, Function.update_of_ne]
    rintro rfl
    exact hu h0
  · intro hr
    rw [Function.update_self, hsb]
    exact g.room hb hf h0 ht hr

end Laid

def owed (sb : Superblock) (l : List Nat) (a : Nat) : Nat :=
  if a = 0 then 2
  else (if a ∈ l then 0 else 1) + if BBLOCK a sb.bmapstart.toNat ∈ l then 0 else 1

def load (s : State) (din : Dinode) : Nat :=
  s.logged.length + owed s.sb s.logged (slotAddr s.data din .indirect)

section Load

variable {sb : Superblock} {l : List Nat} {a b : Nat}

theorem owed_le (sb : Superblock) (l : List Nat) (a : Nat) : owed sb l a ≤ 2 := by
  unfold owed
  split_ifs <;> omega

theorem owed_addLog (sb : Superblock) (l : List Nat) (a b : Nat) :
    owed sb (addLog l b) a ≤ owed sb l a := by
  unfold owed
  split
  · exact le_rfl
  · apply Nat.add_le_add
    · split_ifs with h1 h2
      · exact le_rfl
      · exact Nat.zero_le _
      next h2 => exact absurd (mem_addLog.mpr (Or.inr h2)) h1
      · exact le_rfl
    · split_ifs with h1 h2
      · exact le_rfl
      · exact Nat.zero_le _
      next h2 => exact absurd (mem_addLog.mpr (Or.inr h2)) h1
      · exact le_rfl

theorem owed_addLog_self (sb : Superblock) (l : List Nat) (ha : a ≠ 0) :
    (addLog l a).length + owed sb (addLog l a) a ≤ l.length + owed sb l a := by
  have hbit : (if BBLOCK a sb.bmapstart.toNat ∈ addLog l a then 0 else 1) ≤
      if BBLOCK a sb.bmapstart.toNat ∈ l then 0 else 1 := by
    split_ifs with h1 h2
    · exact le_rfl
    · exact Nat.zero_le _
    next h2 => exact absurd (mem_addLog.mpr (Or.inr h2)) h1
    · exact le_rfl
  rw [length_addLog, owed, owed, if_neg ha, if_neg ha, if_pos (mem_addLog.mpr (Or.inl rfl))]
  omega

theorem owed_eq_zero (ha : a ≠ 0) (h : a ∈ l) (hbit : BBLOCK a sb.bmapstart.toNat ∈ l) :
    owed sb l a = 0 := by
  rw [owed, if_neg ha, if_pos h, if_pos hbit]

theorem length_give_le (s : State) (b : Nat) : (s.give b).logged.length ≤ s.logged.length + 2 := by
  have h1 := length_addLog_le s.logged (BBLOCK b s.sb.bmapstart.toNat)
  have h2 := length_addLog_le (addLog s.logged (BBLOCK b s.sb.bmapstart.toNat)) b
  exact h2.trans (by omega)

theorem mem_give (s : State) (b : Nat) : b ∈ (s.give b).logged := mem_addLog.mpr (Or.inl rfl)

theorem mem_give_bit (s : State) (b : Nat) :
    BBLOCK b s.sb.bmapstart.toNat ∈ (s.give b).logged :=
  mem_addLog.mpr (Or.inr (mem_addLog.mpr (Or.inl rfl)))

theorem owed_give (s : State) (a b : Nat) :
    owed s.sb (s.give b).logged a ≤ owed s.sb s.logged a :=
  (owed_addLog ..).trans (owed_addLog ..)

end Load

section Bmap

variable {s : State} {tbl : Nat → Dinode} {D : Set Nat} {ip : Fin NINODE} {i len bn B : Nat}
  {room : Prop}

theorem direct_meets (room : Prop) (h : Laid s tbl D) {k : Fin (NDIRECT + 1)} (hk : (s.icache ip).addrs k = 0)
    (hB : s.logged.length + 1 ≤ B)
    (hroom : (∀ c < s.sb.size.toNat, ¬ Free s.sb s.data c) → ¬room) :
    Meets (bmap.direct ip k) s
      (fun a s' => InArea s.sb a ∧ Free s.sb s.data a ∧
        s' = (s.give a).setDinode ip ((s.icache ip).toDinode.setAddr k a))
      (Stops s.sb s.outstanding B room) := by
  rw [bmap.direct]
  apply Meets.bind
  apply Meets.get
  rw [if_pos hk]
  apply (balloc_meets hB hroom).seq
  rintro a s₁ ⟨hlt, hfree, rfl⟩
  apply Meets.bind
  apply Meets.modify
  apply Meets.pure
  exact ⟨h.files.area_of_free hlt hfree, hfree, rfl⟩

/-- What `bmap` leaves when it has found or allocated block `bn` at address `a`: no file has
changed in what it holds. -/
structure Mapped (ip : Fin NINODE) (i len bn : Nat) (D : Set Nat) (s : State) (tbl : Nat → Dinode)
    (a : Nat) (s' : State) (tbl' : Nat → Dinode) : Prop where
  laid : Laid s' tbl' D
  grows : Grows ip i len s tbl s' tbl'
  bytes : ∀ j, InUse s.sb tbl j → ∀ k, byteAt s'.data (tbl' j) k = byteAt s.data (tbl j) k
  addr : addrOf s'.data (tbl' i) bn = a
  ne : a ≠ 0

theorem needed_indirect (hbn : NDIRECT ≤ bn) (hlen : bn * BSIZE < len) :
    Slot.indirect.Needed len :=
  lt_of_le_of_lt (Nat.mul_le_mul_right BSIZE hbn) hlen

theorem entry_meets (ind : Nat) (h : Laid s tbl D) (ho : Holds s tbl ip i) (hD : i ∈ D)
    (hbn : NDIRECT ≤ bn) (hmax : bn < MAXFILE) (hlen : bn * BSIZE < len)
    (h0 : addrOf s.data (tbl i) bn = 0)
    (hind : slotAddr s.data (tbl i) .indirect = ind) (hind0 : ind ≠ 0)
    (hB : load s (tbl i) + 2 ≤ B) (hroom : room → Room s.sb s.data (tbl i) len) :
    Meets (do
        let bp ← bread ind
        let addr := bp.field 4 (bn - NDIRECT)
        if addr = 0 then
          let a ← balloc
          modify fun s => s.setBlock ind ((s.data ind).setField 4 (bn - NDIRECT) a)
          logWrite ind
          pure a
        else
          pure addr : FsM Nat) s
      (fun a s' => ∃ tbl', Mapped ip i len bn D s tbl a s' tbl' ∧ a ∈ s'.logged ∧
        load s' (tbl' i) ≤ load s (tbl i) + 2)
      (Stops s.sb s.outstanding B room) := by
  have hind' : slotAddr s.data (tbl i) .indirect ≠ 0 := by rwa [hind]
  have hentry : (s.data ind).field 4 (bn - NDIRECT) = 0 := by
    have hne : (tbl i).addrs Dinode.indirect ≠ 0 := fun he => hind' (congrArg UInt32.toNat he)
    rw [addrOf, dif_neg (by omega), if_neg hne] at h0
    exact hind ▸ h0
  have hlen0 : s.logged.length ≤ load s (tbl i) := Nat.le_add_right ..
  have h0' : slotAddr s.data (tbl i) (.block bn) = 0 := h0
  have hneed : (Slot.block bn).Needed len := hlen
  rw [bread, bind_assoc]
  apply Meets.bind
  apply Meets.get
  rw [pure_bind]
  dsimp only
  rw [if_pos hentry]
  apply (balloc_meets (B := B) (by omega)
    fun hfull hr => not_room h0' hneed hfull (hroom hr)).seq
  rintro a s₁ ⟨hlt, hfree, rfl⟩
  have harea := h.files.area_of_free hlt hfree
  have hai : InArea s.sb ind := hind ▸ h.files.area ho.inUse hind'
  have hne : ind ≠ a := hind ▸ h.files.ne_free hfree ho.inUse hind'
  have hdata : (s.give a).data ind = s.data ind := grant_of_ne hne (hai.ne_BBLOCK hlt)
  have g := h.files.gain_entry ho.inUse harea hfree hind hind0 hbn hmax
  have hgive := length_give_le s a
  apply Meets.bind
  apply Meets.modify
  rw [hdata]
  refine (logWrite_meets (B := B) ind ?_).seq ?_
  · change (s.give a).logged.length ≤ B
    omega
  rintro _ s₂ rfl
  apply Meets.pure
  obtain ⟨hlaid, hgrows⟩ := Gain.grows
    (((s.give a).setBlock ind ((s.data ind).setField 4 (bn - NDIRECT) a)).log ind) g h ho hD
    harea hfree h0' hneed rfl rfl (congrArg State.icache (h.setDinode_self ho)).symm
  have hbytes : ∀ j, InUse s.sb tbl j → ∀ k, _ := fun j hj k => g.byteAt_eq ho.inUse h0' hj k
  have hself := Function.update_eq_self i tbl
  rw [hself] at hlaid hgrows hbytes
  have haddr := congrFun g.slots (.block bn)
  rw [Function.update_self] at haddr
  refine ⟨tbl, ⟨hlaid, hgrows, hbytes, haddr, harea.pos⟩,
    mem_addLog.mpr (Or.inr (mem_give s a)), ?_⟩
  have hkeep := hgrows.keep .indirect hind'
  rw [load, hkeep, hind, load, hind]
  have h1 := owed_addLog_self s.sb (s.give a).logged hind0
  have h2 := owed_give s ind a
  change (addLog (s.give a).logged ind).length + owed s.sb (addLog (s.give a).logged ind) ind ≤ _
  omega

theorem bmap_new (h : Laid s tbl D) (ho : Holds s tbl ip i) (hD : i ∈ D) (hmax : bn < MAXFILE)
    (hlen : bn * BSIZE < len) (h0 : addrOf s.data (tbl i) bn = 0) (hB : load s (tbl i) + 2 ≤ B)
    (hroom : room → Room s.sb s.data (tbl i) len) :
    Meets (bmap ip bn) s
      (fun a s' => ∃ tbl', Mapped ip i len bn D s tbl a s' tbl' ∧ a ∈ s'.logged ∧
        load s' (tbl' i) ≤ load s (tbl i) + 2)
      (Stops s.sb s.outstanding B room) := by
  have hdin := h.dinode ho
  have hlen0 : s.logged.length ≤ load s (tbl i) := Nat.le_add_right ..
  unfold bmap
  split
  next hd =>
    -- the address goes into the inode
    have hk : (tbl i).addrs ⟨bn, by omega⟩ = 0 := by
      rw [addrOf, dif_pos hd] at h0
      exact UInt32.toNat_inj.mp h0
    have hslot : slotOf ⟨bn, by omega⟩ = .block bn := if_pos hd
    have h0' : slotAddr s.data (tbl i) (.block bn) = 0 := h0
    have hneed : (Slot.block bn).Needed len := hlen
    refine (direct_meets (B := B) room h (by rw [hdin]; exact hk) (by omega)
      fun hfull hr => not_room h0' hneed hfull (hroom hr)).post ?_
    rintro a s' ⟨harea, hfree, rfl⟩
    rw [hdin]
    have g := h.files.gain_direct ho.inUse harea hfree hk
    rw [hslot] at g
    obtain ⟨hlaid, hgrows⟩ := Gain.grows ((s.give a).setDinode ip
      ((tbl i).setAddr ⟨bn, by omega⟩ a)) g h ho hD harea hfree h0' hneed rfl rfl rfl
    have haddr := congrFun g.slots (.block bn)
    rw [Function.update_self] at haddr
    refine ⟨_, ⟨hlaid, hgrows, fun j hj k => g.byteAt_eq ho.inUse h0' hj k, ?_, harea.pos⟩,
      mem_give s a, ?_⟩
    · rw [Function.update_self]
      exact haddr
    · have hind := congrFun g.slots .indirect
      rw [Function.update_of_ne (by simp)] at hind
      rw [Function.update_self, load, load]
      change (s.give a).logged.length + owed s.sb (s.give a).logged
        (slotAddr (grant s.sb s.data a) _ .indirect) ≤ _
      rw [hind]
      have h1 := length_give_le s a
      have h2 := owed_give s (slotAddr s.data (tbl i) .indirect) a
      omega
  next hd =>
    have hlt : bn - NDIRECT < NINDIRECT := by
      unfold MAXFILE at hmax
      omega
    have hbn : NDIRECT ≤ bn := by omega
    rw [if_pos hlt]
    by_cases hind : slotAddr s.data (tbl i) .indirect = 0
    · -- the file gets an indirect block first
      have hk : (tbl i).addrs Dinode.indirect = 0 := UInt32.toNat_inj.mp hind
      have hneed := needed_indirect hbn hlen
      have howed : load s (tbl i) = s.logged.length + 2 := by rw [load, owed, if_pos hind]
      apply (direct_meets (B := B) room h (by rw [hdin]; exact hk) (by omega)
        fun hfull hr => not_room hind hneed hfull (hroom hr)).seq
      rintro x s₁ ⟨harea, hfree, hs₁⟩
      rw [hdin] at hs₁
      have g := h.files.gain_direct ho.inUse harea hfree hk
      have hslot : slotOf Dinode.indirect = .indirect := rfl
      rw [hslot] at g
      obtain ⟨hlaid, hgrows⟩ := Gain.grows ((s.give x).setDinode ip
        ((tbl i).setAddr Dinode.indirect x)) g h ho hD harea hfree hind hneed rfl rfl rfl
      have hx := congrFun g.slots .indirect
      have hblock := congrFun g.slots (.block bn)
      rw [Function.update_self] at hx
      rw [Function.update_of_ne (by simp)] at hblock
      rw [← hs₁] at hlaid hgrows
      set tbl₁ := Function.update tbl i ((tbl i).setAddr Dinode.indirect x) with htbl₁
      have htbl : tbl₁ i = (tbl i).setAddr Dinode.indirect x := Function.update_self ..
      have hdata : s₁.data = grant s.sb s.data x := congrArg State.data hs₁
      have hload : load s₁ (tbl₁ i) ≤ load s (tbl i) := by
        rw [load, htbl, hdata, hx, howed, owed_eq_zero harea.pos, hs₁]
        · exact length_give_le s x
        · rw [hs₁]
          exact mem_give s x
        · rw [hs₁]
          exact mem_give_bit s x
      have hroom' : room → Room s₁.sb s₁.data (tbl₁ i) len := fun hr => hgrows.room (hroom hr)
      have hrest := entry_meets (B := B) x hlaid (hgrows.holds ho) hD hbn hmax hlen
        (by rw [htbl, hdata]; exact hblock.trans h0) (by rw [htbl, hdata]; exact hx) harea.pos
        (by omega) hroom'
      rw [hgrows.sb, hgrows.outstanding] at hrest
      refine hrest.post ?_
      rintro a s₂ ⟨tbl₂, hm, hmem, hle⟩
      refine ⟨tbl₂, ⟨hm.laid, hgrows.trans hm.grows, fun j hj k => ?_, hm.addr, hm.ne⟩, hmem, by omega⟩
      rw [hm.bytes j ((hgrows.inUse j).mpr hj) k, hdata]
      exact g.byteAt_eq ho.inUse hind hj k
    · have hk : (s.icache ip).addrs Dinode.indirect ≠ 0 := by
        rw [hdin]
        exact fun he => hind (congrArg UInt32.toNat he)
      apply Meets.bind
      apply Meets.of_eq (direct_eq hk)
      rw [hdin]
      exact entry_meets _ h ho hD hbn hmax hlen h0 rfl hind hB hroom

theorem bmap_meets (h : Laid s tbl D) (ho : Holds s tbl ip i) (hD : i ∈ D) (hmax : bn < MAXFILE)
    (hlen : bn * BSIZE < len) (hroom : room → Room s.sb s.data (tbl i) len)
    (hB : load s (tbl i) + 2 ≤ B + if addrOf s.data (tbl i) bn = 0 then 0 else 1) :
    Meets (bmap ip bn) s
      (fun a s' => ∃ tbl', Mapped ip i len bn D s tbl a s' tbl' ∧
        load s' (tbl' i) + (if a ∈ s'.logged then 0 else 1) +
          (if addrOf s.data (tbl i) bn = 0 then 0 else 1) ≤ load s (tbl i) + 2)
      (Stops s.sb s.outstanding B room) := by
  by_cases h0 : addrOf s.data (tbl i) bn = 0
  · rw [if_pos h0, Nat.add_zero] at hB
    refine (bmap_new h ho hD hmax hlen h0 hB hroom).post ?_
    rintro a s' ⟨tbl', hm, hmem, hle⟩
    refine ⟨tbl', hm, ?_⟩
    rw [if_pos hmem, if_pos h0]
    exact hle
  · have hdin := h.dinode ho
    have heq : bmap ip bn s = .ok (addrOf s.data (tbl i) bn, s) := by
      rw [bmap_eq (by rw [hdin]; exact h0) hmax, hdin]
    refine Meets.of_eq heq ⟨tbl, ⟨h, Grows.refl h ho, fun _ _ _ => rfl, rfl, h0⟩, ?_⟩
    rw [if_neg h0]
    split <;> omega

theorem load_log (s : State) (din : Dinode) (b : Nat) :
    load (s.log b) din ≤ load s din + if b ∈ s.logged then 0 else 1 := by
  have h1 := length_addLog s.logged b
  have h2 := owed_addLog s.sb s.logged (slotAddr s.data din .indirect) b
  change (addLog s.logged b).length +
    owed s.sb (addLog s.logged b) (slotAddr s.data din .indirect) ≤ load s din + _
  rw [load]
  omega

end Bmap

end Xv6.Fs

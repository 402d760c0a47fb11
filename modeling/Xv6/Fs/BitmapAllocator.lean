import Xv6.Fs.Alloc

namespace Xv6.Fs.BitmapAllocator

open Lib.Command

/-- The value of `n` in an `int`. -/
def int (n : Int) : Int := n.bmod (2 ^ 32)

/-- The value of `n` in a `uint`. -/
def uint (n : Int) : Nat := (n % 2 ^ 32).toNat

/-- `BBLOCK(b, sb)`, for `b` an `int` in `balloc` and a `uint` in `bfree`. -/
def BBLOCK (b : Int) (sb : Superblock) : Nat := uint (b.tdiv BPB + sb.bmapstart.toNat)

def scanBits (bp : Block) (b : Int) (size : Nat) : Nat → Int → Option Int
  | 0, _ => none
  | fuel + 1, bi =>
    -- the sum is an `int`, the comparison with `sb.size` one of `uint`
    if bi < BPB ∧ uint (int (b + bi)) < size then
      if isFree bp bi.toNat then some bi else scanBits bp b size fuel (int (bi + 1))
    else none

def freeBit (bp : Block) (b : Int) (size : Nat) : Option Int := scanBits bp b size (BPB + 1) 0

def ballocFrom : Nat → Int → FsM Nat
  | 0, _ => throw .ballocOutOfBlocks
  | fuel + 1, b => do
    let sb := (← get).sb
    if uint b < sb.size.toNat then
      let bno := BBLOCK b sb
      let bp ← bread bno
      match freeBit bp b sb.size.toNat with
      | some bi =>
        modify fun s => s.setBlock bno (markUsed bp bi.toNat)
        logWrite bno
        bzero (uint (int (b + bi)))
        pure (uint (int (b + bi)))
      | none => ballocFrom fuel (int (b + BPB))
    else
      throw .ballocOutOfBlocks

def balloc : FsM Nat := do
  let s ← get
  ballocFrom (s.sb.size.toNat / BPB + 1) 0

def bfree (b : UInt32) : FsM Unit := do
  let s ← get
  let bno := BBLOCK b.toNat s.sb
  let bp ← bread bno
  let bi := b.toNat % BPB
  if isFree bp bi then throw .freeingFreeBlock
  else
    modify fun s => s.setBlock bno (markFree bp bi)
    logWrite bno

section Arithmetic

variable {n : Nat}

theorem int_of_lt (h : n < 2 ^ 31) : int n = n := by
  unfold int
  rw [Int.bmod_eq_of_le] <;> omega

theorem uint_of_lt (h : n < 2 ^ 32) : uint n = n := by
  unfold uint
  omega

theorem uint_int_of_lt (h : n < 2 ^ 32) : uint (int n) = n := by
  unfold uint int
  rw [show (2 : Int) ^ 32 = ((2 ^ 32 : Nat) : Int) from rfl, Int.bmod_emod]
  omega

theorem BBLOCK_of_lt {sb : Superblock} (h : Fs.BBLOCK n sb.bmapstart.toNat < 2 ^ 32) :
    BBLOCK n sb = Fs.BBLOCK n sb.bmapstart.toNat := by
  unfold BBLOCK
  rw [← Int.ofNat_tdiv, ← Int.natCast_add]
  exact uint_of_lt h

end Arithmetic

theorem scanBits_eq (bp : Block) {b size bi k : Nat} (hb : b < 2 ^ 31) (hk : bi + k = BPB) :
    scanBits bp b size (k + 1) bi =
      (((List.range' bi k).takeWhile fun bi => b + bi < size).find? (isFree bp)).map Nat.cast := by
  have hBPB : BPB = 8192 := rfl
  induction k generalizing bi with
  | zero =>
    have hbi : ¬ ((bi : Int) < BPB ∧ uint (int (b + bi)) < size) := by omega
    rw [scanBits, if_neg hbi]
    rfl
  | succ k ih =>
    have hsum : uint (int (b + bi)) = b + bi := by
      rw [← Int.natCast_add]
      exact uint_int_of_lt (by omega)
    have hnext : int ((bi : Int) + 1) = ((bi + 1 : Nat) : Int) := by
      rw [← Int.natCast_succ]
      exact int_of_lt (by omega)
    rw [scanBits, hsum, List.range'_succ]
    by_cases hlt : b + bi < size
    · rw [if_pos ⟨by omega, hlt⟩, List.takeWhile_cons_of_pos (by simpa using hlt), Int.toNat_natCast]
      cases hfree : isFree bp bi with
      | true => rw [if_pos rfl, List.find?_cons_of_pos hfree, Option.map_some]
      | false =>
        rw [if_neg Bool.false_ne_true, List.find?_cons_of_neg (by simp [hfree]), hnext]
        exact ih (by omega)
    · rw [if_neg fun h => hlt h.2, List.takeWhile_cons_of_neg (by simpa using hlt)]
      rfl

theorem freeBit_eq (bp : Block) {b : Nat} (size : Nat) (hb : b < 2 ^ 31) :
    freeBit bp b size = (Fs.freeBit bp b size).map Nat.cast := by
  rw [Fs.freeBit, List.range_eq_range']
  exact scanBits_eq bp hb (Nat.zero_add BPB)

def InMap (sb : Superblock) (x : Nat) : Prop :=
  ∃ c < sb.size.toNat, x = Fs.BBLOCK c sb.bmapstart.toNat

/-- The blocks of the map lie in the file system and are marked in use in it. -/
def Marked (s : State) : Prop :=
  ∀ x, InMap s.sb x → x < s.sb.size.toNat ∧ ¬ Free s.sb s.data x

section Exact

variable {s : State}

theorem ballocFrom_same (hsize : s.sb.size.toNat < 2 ^ 31) (hmap : Marked s) (fuel : Nat) {b : Nat}
    (hb : b < 2 ^ 32) : Same (ballocFrom fuel (int b)) (Fs.ballocFrom fuel b) s := by
  induction fuel generalizing b with
  | zero => exact Meets.throw rfl
  | succ fuel ih =>
    have hbu := uint_int_of_lt hb
    apply Meets.bind
    apply Meets.get
    dsimp only
    rw [ballocFrom, get_bind, hbu]
    by_cases hlt : b < s.sb.size.toNat
    · have hb' : b < 2 ^ 31 := hlt.trans hsize
      have hin := (hmap _ ⟨b, hlt, rfl⟩).1
      have hbno : BBLOCK b s.sb = Fs.BBLOCK b s.sb.bmapstart.toNat := BBLOCK_of_lt (by omega)
      rw [if_pos hlt, if_pos hlt, int_of_lt hb', hbno, bread, bind_assoc, bind_assoc, get_bind,
        pure_bind, freeBit_eq _ _ hb']
      apply Meets.bind
      apply Meets.get
      rw [pure_bind]
      cases hbit : Fs.freeBit (s.data (Fs.BBLOCK b s.sb.bmapstart.toNat)) b s.sb.size.toNat with
      | none =>
        -- the sum may leave the `int`s, and is then past the size as a `uint`
        have hBPB : BPB = 8192 := rfl
        rw [Option.map_none, ← Int.natCast_add]
        exact ih (by omega)
      | some bi =>
        have hsum := (freeBit_eq_some hbit).2.1
        have hu : uint (int ((b : Int) + bi)) = b + bi := by
          rw [← Int.natCast_add]
          exact uint_int_of_lt (by omega)
        rw [Option.map_some]
        dsimp only
        rw [hu, Int.toNat_natCast]
        exact Same.refl _ _
    · rw [if_neg hlt, if_neg hlt]
      exact Meets.throw rfl

theorem balloc_eq (hsize : s.sb.size.toNat < 2 ^ 31) (hmap : Marked s) :
    balloc s = Fs.balloc s := by
  rw [balloc, Fs.balloc, get_bind, get_bind]
  exact (ballocFrom_same hsize hmap _ (b := 0) (by decide)).eq

theorem bfree_eq (hsize : s.sb.size.toNat < 2 ^ 31) (hmap : Marked s) {b : UInt32}
    (hb : b.toNat < s.sb.size.toNat) : bfree b s = Fs.bfree b.toNat s := by
  have hin := (hmap _ ⟨b.toNat, hb, rfl⟩).1
  have hbno : BBLOCK b.toNat s.sb = Fs.BBLOCK b.toNat s.sb.bmapstart.toNat :=
    BBLOCK_of_lt (by omega)
  rw [bfree, Fs.bfree, get_bind, get_bind, hbno]

end Exact

section Bits

theorem and_or_complement {x m : UInt8} (h : x &&& m = 0) : (x ||| m) &&& ~~~m = x := by
  apply UInt8.toBitVec_inj.mp
  ext i hi
  have hbit := congrArg (fun y : UInt8 => y.toBitVec[i]) h
  simp only [UInt8.toBitVec_and, BitVec.getElem_and, UInt8.toBitVec_zero, BitVec.getElem_zero] at hbit
  simp only [UInt8.toBitVec_and, UInt8.toBitVec_or, UInt8.toBitVec_not, BitVec.getElem_and,
    BitVec.getElem_or, BitVec.getElem_not]
  cases hx : x.toBitVec[i] <;> cases hm : m.toBitVec[i] <;> simp_all

theorem get_splice_byte (bp : Block) (x : UInt8) {i k : Nat} (hk : k < BSIZE) :
    (bp.splice i [x]).get k = if k = i then x else bp.get k := by
  rw [Block.get_splice _ _ _ hk, List.length_singleton]
  by_cases h : k = i
  · rw [if_pos (by omega), if_pos h, h, Nat.sub_self]
    rfl
  · rw [if_neg (by omega), if_neg h]

theorem block_ext {bp bp' : Block} (h : ∀ k < BSIZE, bp.get k = bp'.get k) : bp = bp' := by
  funext k
  simpa [Block.get] using h k k.isLt

theorem markFree_markUsed {bp : Block} {bi : Nat} (h : isFree bp bi) :
    markFree (markUsed bp bi) bi = bp := by
  apply block_ext
  intro k hk
  rw [markFree, get_splice_byte _ _ hk]
  by_cases hbyte : k = bi / 8
  · subst hbyte
    rw [if_pos rfl, markUsed, get_splice_byte _ _ hk, if_pos rfl]
    exact and_or_complement ((isFree_iff bp bi).mp h)
  · rw [if_neg hbyte, markUsed, get_splice_byte _ _ hk, if_neg hbyte]

theorem and_complement_and (x m n : UInt8) (h : m &&& n = 0) : x &&& ~~~m &&& n = x &&& n := by
  apply UInt8.toBitVec_inj.mp
  ext i hi
  have hbit := congrArg (fun y : UInt8 => y.toBitVec[i]) h
  simp only [UInt8.toBitVec_and, BitVec.getElem_and, UInt8.toBitVec_zero, BitVec.getElem_zero] at hbit
  simp only [UInt8.toBitVec_and, UInt8.toBitVec_not, BitVec.getElem_and, BitVec.getElem_not]
  cases hn : n.toBitVec[i] <;> cases hm : m.toBitVec[i] <;> simp_all

theorem bitMask_congr {i j : Nat} (h : i % 8 = j % 8) : bitMask i = bitMask j := by
  rw [bitMask, bitMask, h]

theorem isFree_markFree (bp : Block) {b : Nat} (hb : b < BPB) (bi : Nat) :
    isFree (markFree bp bi) b ↔ isFree bp b ∨ b = bi := by
  have hk : b / 8 < BSIZE := by
    change b < 8192 at hb
    change b / 8 < 1024
    omega
  rw [isFree_iff, isFree_iff, markFree, get_splice_byte _ _ hk]
  by_cases hbyte : b / 8 = bi / 8
  · rw [if_pos hbyte, ← hbyte]
    by_cases hmod : bi % 8 = b % 8
    · rw [bitMask_congr hmod, UInt8.and_assoc]
      have hbi : b = bi := by omega
      simp [hbi]
    · rw [and_complement_and _ _ _ ((bitMask_and_eq_zero bi b).mpr hmod)]
      have hne : b ≠ bi := fun e => hmod (by rw [e])
      simp [hne]
  · have hne : b ≠ bi := fun e => hbyte (by rw [e])
    simp [hbyte, hne]

end Bits

/-- The disk after `bfree` of block `b`. -/
def release (sb : Superblock) (d : Disk) (b : Nat) : Disk :=
  Function.update d (Fs.BBLOCK b sb.bmapstart.toNat)
    (markFree (d (Fs.BBLOCK b sb.bmapstart.toNat)) (b % BPB))

def takeBack (s : State) (b : Nat) : State :=
  { s with
    data := release s.sb s.data b
    logged := addLog s.logged (Fs.BBLOCK b s.sb.bmapstart.toNat) }

section Release

variable {sb : Superblock} {d : Disk} {b c : Nat} {s : State}

theorem free_release : Free sb (release sb d b) c ↔ Free sb d c ∨ c = b := by
  have hlt : c % BPB < BPB := Nat.mod_lt c (by decide)
  rw [Free, Free, release]
  by_cases hm : Fs.BBLOCK c sb.bmapstart.toNat = Fs.BBLOCK b sb.bmapstart.toNat
  · rw [hm, Function.update_self, isFree_markFree _ hlt]
    have hiff : c % BPB = b % BPB ↔ c = b := mod_BPB_eq_iff hm
    rw [hiff]
  · rw [Function.update_of_ne hm]
    have hcb : c ≠ b := by
      rintro rfl
      exact hm rfl
    exact ⟨Or.inl, fun h => h.resolve_right hcb⟩

theorem release_grant (hfree : Free sb d b) (hb : Fs.BBLOCK b sb.bmapstart.toNat ≠ b) {x : Nat}
    (hx : x ≠ b) : release sb (grant sb d b) b x = d x := by
  have hmap : grant sb d b (Fs.BBLOCK b sb.bmapstart.toNat) =
      markUsed (d (Fs.BBLOCK b sb.bmapstart.toNat)) (b % BPB) := by
    rw [grant, Function.update_of_ne hb, Function.update_self]
  rw [release, hmap, markFree_markUsed hfree]
  by_cases hm : x = Fs.BBLOCK b sb.bmapstart.toNat
  · subst hm
    rw [Function.update_self]
  · rw [Function.update_of_ne hm, grant_of_ne hx hm]

def FreeStops (s : State) (b B : Nat) (e : Panic) : Prop :=
  e = .freeingFreeBlock ∧ Free s.sb s.data b ∨ Stops s.sb s.outstanding B True e

theorem bfree_meets {B : Nat} (hB : s.logged.length ≤ B) :
    Meets (Fs.bfree b) s (fun _ s' => s' = takeBack s b) (FreeStops s b B) := by
  apply Meets.bind
  apply Meets.get
  dsimp only
  rw [bread, bind_assoc]
  apply Meets.bind
  apply Meets.get
  rw [pure_bind]
  split
  next hfree => exact Meets.throw (Or.inl ⟨rfl, hfree⟩)
  · apply Meets.bind
    apply Meets.modify
    apply (logWrite_meets (s := s.setBlock (Fs.BBLOCK b s.sb.bmapstart.toNat)
      (markFree (s.data (Fs.BBLOCK b s.sb.bmapstart.toNat)) (b % BPB))) _ hB).mono
    · rintro _ s' rfl
      rfl
    · exact fun e he => Or.inr he

end Release

section Calls

variable {s s' : State} {b : Nat}

theorem Marked.not_inMap (hmap : Marked s) (hb : Free s.sb s.data b) : ¬ InMap s.sb b :=
  fun hin => (hmap b hin).2 hb

theorem Marked.free_grant (hmap : Marked s) (hb : Free s.sb s.data b) {c : Nat}
    (hc : InMap s.sb (Fs.BBLOCK c s.sb.bmapstart.toNat)) :
    Free s.sb (grant s.sb s.data b) c ↔ Free s.sb s.data c ∧ c ≠ b := by
  apply free_grant_of_ne
  intro e
  exact hmap.not_inMap hb (e ▸ hc)

theorem Marked.give (hmap : Marked s) (hb : Free s.sb s.data b) : Marked (s.give b) := by
  intro x hx
  obtain ⟨hlt, hused⟩ := hmap x hx
  refine ⟨hlt, fun hfree => hused ?_⟩
  exact ((hmap.free_grant hb ⟨x, hlt, rfl⟩).mp hfree).1

theorem Marked.takeBack (hmap : Marked s) (hb : ¬ InMap s.sb b) : Marked (takeBack s b) := by
  intro x hx
  obtain ⟨hlt, hused⟩ := hmap x hx
  refine ⟨hlt, fun hfree => ?_⟩
  rcases free_release.mp hfree with h | rfl
  · exact hused h
  · exact hb hx

theorem no_room {n : Nat} (h : ∀ c < n, ¬ Free s.sb s.data c) :
    ¬ ∃ c < n, Free s.sb s.data c := by
  rintro ⟨c, hc, hfree⟩
  exact h c hc hfree

/-- The calls of the allocator, and the transactions they are made in. -/
inductive Call
  | balloc
  | bfree (b : UInt32)
  | beginOp
  | endOp
  deriving DecidableEq, Repr

def Call.run : Call → FsM Unit
  | .balloc => do
    let _ ← BitmapAllocator.balloc
    pure ()
  | .bfree b => BitmapAllocator.bfree b
  | .beginOp => Fs.beginOp
  | .endOp => Fs.endOp

/-- What is freed is a block of the file system outside the map. -/
def Call.Fair (sb : Superblock) : Call → Prop
  | .bfree b => b.toNat < sb.size.toNat ∧ ¬ InMap sb b.toNat
  | _ => True

/-- The bits of the map that stand for no block are in `s'` as they are in `s`. -/
structure PastEndKept (s s' : State) : Prop where
  sb : s'.sb = s.sb
  marked : Marked s'
  bits : ∀ c, s.sb.size.toNat ≤ c → InMap s.sb (Fs.BBLOCK c s.sb.bmapstart.toNat) →
    (Free s.sb s'.data c ↔ Free s.sb s.data c)

theorem PastEndKept.give (h : PastEndKept s s') (hlt : b < s'.sb.size.toNat)
    (hb : Free s'.sb s'.data b) : PastEndKept s (s'.give b) where
  sb := h.sb
  marked := h.marked.give hb
  bits c hc hin := by
    have hcb : c ≠ b := by
      rw [h.sb] at hlt
      omega
    have hgrant := h.marked.free_grant (c := c) hb (by rwa [h.sb])
    rw [← h.bits c hc hin]
    rw [h.sb] at hgrant
    change Free s.sb (grant s'.sb s'.data b) c ↔ _
    rw [h.sb, hgrant]
    exact and_iff_left hcb

theorem PastEndKept.takeBack (h : PastEndKept s s') (hlt : b < s.sb.size.toNat)
    (hb : ¬ InMap s.sb b) : PastEndKept s (takeBack s' b) where
  sb := h.sb
  marked := h.marked.takeBack (by rwa [h.sb])
  bits c hc hin := by
    have hcb : c ≠ b := by omega
    rw [← h.bits c hc hin]
    change Free s.sb (release s'.sb s'.data b) c ↔ _
    rw [h.sb, free_release]
    exact or_iff_left hcb

theorem PastEndKept.step (h : PastEndKept s s') (hsize : s.sb.size.toNat < 2 ^ 31) {c : Call}
    (hc : c.Fair s.sb) : Meets c.run s' (fun _ s'' => PastEndKept s s'') fun _ => True := by
  have hsize' : s'.sb.size.toNat < 2 ^ 31 := by rwa [h.sb]
  cases c with
  | balloc =>
    apply Meets.bind
    apply Meets.of_run_eq (balloc_eq hsize' h.marked)
    apply (balloc_meets le_rfl no_room).mono
    · rintro b t ⟨hlt, hb, rfl⟩
      exact Meets.pure (h.give hlt hb)
    · exact fun _ _ => trivial
  | bfree b =>
    apply Meets.of_run_eq (bfree_eq hsize' h.marked (by rw [h.sb]; exact hc.1))
    apply (bfree_meets le_rfl).mono
    · rintro _ t rfl
      exact h.takeBack hc.1 hc.2
    · exact fun _ _ => trivial
  | beginOp =>
    apply Meets.bind
    apply Meets.get
    split
    · exact Meets.throw trivial
    · exact Meets.modify ⟨h.sb, h.marked, h.bits⟩
  | endOp => exact Meets.modify ⟨h.sb, h.marked, h.bits⟩

theorem past_end_kept (hsize : s.sb.size.toNat < 2 ^ 31) (hmap : Marked s) {calls : List Call}
    (hfair : ∀ c ∈ calls, c.Fair s.sb) :
    Meets (calls.forM Call.run) s (fun _ s' => PastEndKept s s') fun _ => True := by
  apply Meets.forM (fun _ s' => PastEndKept s s')
  · exact ⟨rfl, hmap, fun _ _ _ => Iff.rfl⟩
  · rintro done c rest s' rfl h
    exact h.step hsize (hfair c (by simp))

/-- The log has room for what `balloc` and `bfree` write. -/
structure LogRoom (s : State) : Prop where
  outstanding : 1 ≤ s.outstanding
  logsize : s.logged.length + 2 < LOGSIZE
  nlog : s.logged.length + 3 < s.sb.nlog.toNat

/-- What `balloc` does when it returns block `b`. -/
structure Allocated (s : State) (b : Nat) (s' : State) : Prop where
  lt : b < s.sb.size.toNat
  free : Free s.sb s.data b
  smallest : ∀ c < b, ¬ Free s.sb s.data c
  sets : ∀ c, InMap s.sb (Fs.BBLOCK c s.sb.bmapstart.toNat) →
    (Free s.sb s'.data c ↔ Free s.sb s.data c ∧ c ≠ b)
  zeroed : s'.data b = Block.zeroes
  others : ∀ x, x ≠ b → x ≠ Fs.BBLOCK b s.sb.bmapstart.toNat → s'.data x = s.data x
  sb : s'.sb = s.sb
  outstanding : s'.outstanding = s.outstanding
  icache : s'.icache = s.icache

theorem allocated_give (hmap : Marked s) (hlt : b < s.sb.size.toNat) (hb : Free s.sb s.data b)
    (hfirst : ∀ c < b, ¬ Free s.sb s.data c) : Allocated s b (s.give b) where
  lt := hlt
  free := hb
  smallest := hfirst
  sets _ hc := hmap.free_grant hb hc
  zeroed := grant_self ..
  others _ hx hm := grant_of_ne hx hm
  sb := rfl
  outstanding := rfl
  icache := rfl

theorem balloc_ok (hsize : s.sb.size.toNat < 2 ^ 31) (hmap : Marked s) (hlog : LogRoom s)
    (hfree : ∃ c < s.sb.size.toNat, Free s.sb s.data c) :
    ∃ b, balloc s = .ok (b, s.give b) ∧ b < s.sb.size.toNat ∧ Free s.sb s.data b ∧
      ∀ c < b, ¬ Free s.sb s.data c := by
  have hmeets := balloc_first_meets (s := s) le_rfl no_room
  have hroom := hlog.logsize
  have hnlog := hlog.nlog
  obtain ⟨b, s', hrun, hlt, hb, hfirst, rfl⟩ :=
    hmeets.ok (not_stops (by omega) (by omega) hlog.outstanding hfree)
  exact ⟨b, (balloc_eq hsize hmap).trans hrun, hlt, hb, hfirst⟩

theorem bfree_give_ok (hsize : s.sb.size.toNat < 2 ^ 31) (hmap : Marked s) (hlog : LogRoom s)
    {b : UInt32} (hlt : b.toNat < s.sb.size.toNat) (hb : Free s.sb s.data b.toNat) :
    bfree b (s.give b.toNat) = .ok ((), takeBack (s.give b.toNat) b.toNat) := by
  have hlen : (s.give b.toNat).logged.length ≤ s.logged.length + 2 := by
    have h1 := length_addLog_le s.logged (Fs.BBLOCK b.toNat s.sb.bmapstart.toNat)
    have h2 := length_addLog_le (addLog s.logged (Fs.BBLOCK b.toNat s.sb.bmapstart.toNat)) b.toNat
    change (addLog (addLog s.logged _) _).length ≤ _
    omega
  have hused : ¬ Free (s.give b.toNat).sb (s.give b.toNat).data b.toNat := fun h =>
    ((hmap.free_grant hb ⟨b.toNat, hlt, rfl⟩).mp h).2 rfl
  have hstops : ∀ e, ¬ FreeStops (s.give b.toNat) b.toNat (s.logged.length + 2) e := by
    rintro e (⟨-, h⟩ | h)
    · exact hused h
    · exact not_stops hlog.logsize hlog.nlog hlog.outstanding trivial e h
  obtain ⟨_, s', hrun, rfl⟩ := (bfree_meets hlen).ok hstops
  exact (bfree_eq (s := s.give b.toNat) hsize (hmap.give hb) hlt).trans hrun

/-- On a file system of fewer than 2^31 blocks whose map is marked in use in itself, `balloc`
gives out the first free block, `bfree` puts the map back, and no calls reach a bit past the end. -/
theorem bitmap_allocator (s : State) (hsize : s.sb.size.toNat < 2 ^ 31) (hmap : Marked s) :
    (LogRoom s → (∃ c < s.sb.size.toNat, Free s.sb s.data c) →
      ∃ (b : UInt32) (s' : State), balloc s = .ok (b.toNat, s') ∧ Allocated s b.toNat s' ∧
        ∃ s'', bfree b s' = .ok ((), s'') ∧ ∀ x, x ≠ b.toNat → s''.data x = s.data x) ∧
    ∀ calls : List Call, (∀ c ∈ calls, c.Fair s.sb) →
      Meets (calls.forM Call.run) s (fun _ s' => PastEndKept s s') fun _ => True := by
  constructor
  · intro hlog hfree
    obtain ⟨b, hrun, hlt, hb, hfirst⟩ := balloc_ok hsize hmap hlog hfree
    have hb32 : (UInt32.ofNat b).toNat = b := UInt32.toNat_ofNat_of_lt' (by
      change b < 2 ^ 32
      omega)
    have hself : Fs.BBLOCK b s.sb.bmapstart.toNat ≠ b := fun e =>
      hmap.not_inMap hb ⟨b, hlt, e.symm⟩
    refine ⟨UInt32.ofNat b, s.give b, ?_, ?_, takeBack (s.give b) b, ?_, ?_⟩
    · rw [hb32]
      exact hrun
    · rw [hb32]
      exact allocated_give hmap hlt hb hfirst
    · have hback := bfree_give_ok (b := UInt32.ofNat b) hsize hmap hlog (by rwa [hb32])
        (by rwa [hb32])
      rwa [hb32] at hback
    · intro x hx
      rw [hb32] at hx
      exact release_grant hb hself hx
  · intro calls hfair
    exact past_end_kept hsize hmap hfair

end Calls

def hundredBlocks (bytes : List UInt8) : State where
  sb := ⟨FSMAGIC, 100, 94, 8, 30, 2, 4, 5⟩
  data x := if x = 5 then Block.zeroes.splice 0 bytes else Block.zeroes
  outstanding := 1
  logged := []
  icache _ :=
    { type := 0, major := 0, minor := 0, nlink := 0, size := 0, addrs := fun _ => 0, dev := 0,
      inum := 0, ref := 0, valid := false }

theorem marked_hundredBlocks : Marked (hundredBlocks [0x3F]) := by
  rintro x ⟨c, hc, rfl⟩
  have hzero : c / BPB = 0 := by
    change c < 100 at hc
    change c / 8192 = 0
    omega
  change c / BPB + 5 < 100 ∧ ¬ Free (hundredBlocks [0x3F]).sb _ (c / BPB + 5)
  rw [hzero]
  decide

theorem bitmap_allocator_hundred :
    ∃ (b : UInt32) (s' : State), balloc (hundredBlocks [0x3F]) = .ok (b.toNat, s') ∧
      Allocated (hundredBlocks [0x3F]) b.toNat s' ∧ b.toNat = 6 := by
  have hlog : LogRoom (hundredBlocks [0x3F]) := ⟨by decide, by decide, by decide⟩
  obtain ⟨b, s', hrun, hall, -⟩ := (bitmap_allocator (hundredBlocks [0x3F]) (by decide)
    marked_hundredBlocks).1 hlog ⟨6, by decide, by decide⟩
  refine ⟨b, s', hrun, hall, ?_⟩
  have hused : ∀ c < 6, ¬ Free (hundredBlocks [0x3F]).sb (hundredBlocks [0x3F]).data c := by decide
  have hge : ¬ b.toNat < 6 := fun h => hused _ h hall.free
  have hle : ¬ 6 < b.toNat := fun h => hall.smallest 6 h (by decide)
  omega

/-- The result and the bit of block `c` after a call. -/
def seen (c : Nat) {α : Type} (r : Except Panic (α × State)) : Option (α × Bool) :=
  match r with
  | .ok (a, s) => some (a, decide (Free s.sb s.data c))
  | .error _ => none

theorem ok_of_seen {c : Nat} {α : Type} {r : Except Panic (α × State)} {a : α}
    (h : seen c r = some (a, true)) : ∃ s, r = .ok (a, s) ∧ Free s.sb s.data c := by
  unfold seen at h
  split at h
  next a' s =>
    obtain ⟨rfl, hfree⟩ := Prod.mk.inj (Option.some.inj h)
    exact ⟨s, rfl, of_decide_eq_true hfree⟩
  · exact nomatch h

def padded : State := hundredBlocks [0x3F, 0, 0, 0, 0, 0, 0, 0, 0, 0, 0, 0, 0, 1]

/-- When the map is not marked in use in itself, `balloc` zeroes the map and so clears other bits;
and `bfree` of a number past the end clears a bit past the end. -/
theorem bitmap_allocator_clears_map :
    (∃ s', balloc (hundredBlocks [0x1F]) = .ok (5, s') ∧ Free s'.sb s'.data 0 ∧
      ¬ Free (hundredBlocks [0x1F]).sb (hundredBlocks [0x1F]).data 0) ∧
    ∃ s', bfree 104 padded = .ok ((), s') ∧ Free s'.sb s'.data 104 ∧
      ¬ Free padded.sb padded.data 104 ∧ padded.sb.size.toNat ≤ 104 := by
  constructor
  · obtain ⟨s', hrun, hfree⟩ := ok_of_seen (c := 0) (a := 5)
      (r := balloc (hundredBlocks [0x1F])) (by decide +kernel)
    exact ⟨s', hrun, hfree, by decide⟩
  · obtain ⟨s', hrun, hfree⟩ := ok_of_seen (c := 104) (a := ()) (r := bfree 104 padded)
      (by decide +kernel)
    exact ⟨s', hrun, hfree, by decide, by decide⟩

end Xv6.Fs.BitmapAllocator

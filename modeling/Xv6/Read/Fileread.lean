import Xv6.Read.Deliver
import Xv6.Sysfile.Calls

namespace Xv6.Read

open Lib Lib.Bytes Lib.Command Fs Sysfile

def readLoop (mapped : Nat → Bool) (dst : Nat) (ip : Fin NINODE) (off n : Nat) :
    Nat → Nat → FsM (Nat × Stores)
  | 0, tot => pure (tot, [])
  | fuel + 1, tot => do
    if tot < n then
      let b ← bmap ip ((off + tot) / BSIZE)
      let bp ← bread b
      let m := min (n - tot) (BSIZE - (off + tot) % BSIZE)
      let out := copyout mapped (dst + tot) (bp.slice ((off + tot) % BSIZE) m)
      if out.2 then
        let rest ← readLoop mapped dst ip off n fuel (tot + m)
        pure (rest.1, out.1 ++ rest.2)
      else
        pure (tot, out.1)
    else
      pure (tot, [])

/-- `readi` with `user_dst` set. The count is unsigned. -/
def readi (mapped : Nat → Bool) (dst : Nat) (ip : Fin NINODE) (off n : UInt32) :
    FsM (Nat × Stores) := do
  let s ← get
  let size := (s.icache ip).size
  if size < off ∨ off + n < off then
    pure (0, [])
  else
    let n := if size < off + n then size - off else n
    readLoop mapped dst ip off.toNat n.toNat n.toNat 0

/-- What a read finds outside the file system: which pages of the process are mapped, and the
states of its pipe and of the console each time it gets their lock. -/
structure Around where
  mapped : Nat → Bool
  pipe : List PipeView
  cons : List ConsView

/-- The value and the stores of a read that has returned; otherwise the process is asleep. -/
def returned {β : Type} : Option (Result β) → KM (Int × Stores)
  | some out => pure (out.value, out.stores)
  | none => throw .asleep

/-- `fileread`: what it returns and what it has stored. The console is the one device that can be
read. -/
def fileread (env : Around) (f : Fin NFILE) (addr : Nat) (n : Int32) : KM (Int × Stores) := do
  let k ← get
  let ff := k.ftable f
  if ff.readable = false then pure (-1, [])
  else
    match ff.type with
    | .pipe => returned (piperead env.mapped addr n env.pipe)
    | .device =>
      if ff.major = CONSOLE then returned (consoleread env.mapped addr n env.cons)
      else pure (-1, [])
    | .inode =>
      onVol (Vol.ilock ff.ip)
      let r ← onVol (onFs (readi env.mapped addr ff.ip ff.off n.toUInt32))
      onTables fun t => t.setFile f (ff.advance r.1)
      onVol (iunlock ff.ip)
      pure (r.1, r.2)
    | .none => throw .fileread

theorem readLoop_bounds (mapped : Nat → Bool) (dst : Nat) (ip : Fin NINODE) (off n fuel tot : Nat)
    (htot : tot ≤ n) (s : State) :
    Meets (readLoop mapped dst ip off n fuel tot) s
      (fun r _ => r.1 ≤ n ∧ Within (dst + tot) (n - tot) r.2) (fun _ => True) := by
  induction fuel generalizing tot s with
  | zero => exact Meets.pure ⟨htot, .nil⟩
  | succ fuel ih =>
    rw [readLoop]
    split
    next hlt =>
      apply (Meets.any _ s).seq
      intro b s₁ _
      rw [bread, bind_assoc]
      apply Meets.bind
      refine Meets.get ?_
      rw [pure_bind]
      dsimp only
      set m := min (n - tot) (BSIZE - (off + tot) % BSIZE) with hm
      have hout := copyout_within mapped (dst + tot) ((s₁.data b).slice ((off + tot) % BSIZE) m)
      rw [Block.length_slice] at hout
      split
      · refine (ih (tot + m) (by omega) s₁).seq ?_
        rintro r s₂ ⟨hr, hin⟩
        refine Meets.pure ⟨hr, ?_⟩
        rw [← Nat.add_assoc] at hin
        exact (hout.append hin).mono (by omega)
      · exact Meets.pure ⟨htot, hout.mono (by omega)⟩
    next => exact Meets.pure ⟨htot, .nil⟩

theorem copyout_unmapped {mapped : Nat → Bool} {dst : Nat} {bs : List UInt8} (hbs : bs ≠ [])
    (h : reaches mapped dst = false) : copyout mapped dst bs = ([], false) := by
  rw [reaches] at h
  cases bs with
  | nil => exact absurd rfl hbs
  | cons b bs => simp [copyout, copyoutFrom, h]

theorem copyout_mapped {mapped : Nat → Bool} {dst : Nat} {bs : List UInt8} (hbs : bs ≠ [])
    (h : reaches mapped dst = true) : (copyout mapped dst bs).1 ≠ [] := by
  rw [reaches] at h
  have hpage : dst < dst / PGSIZE * PGSIZE + PGSIZE := Nat.lt_div_mul_add (by decide)
  have hroom : PGSIZE - (dst - dst / PGSIZE * PGSIZE) ≠ 0 := by
    have : dst / PGSIZE * PGSIZE ≤ dst := Nat.div_mul_le_self ..
    omega
  cases bs with
  | nil => exact absurd rfl hbs
  | cons b bs => simp [copyout, copyoutFrom, h, stored, hroom]

/-- The first turn of the loop decides whether anything is stored. -/
theorem readLoop_stores (mapped : Nat → Bool) (dst : Nat) (ip : Fin NINODE) (off : Nat) {n : Nat}
    (hn : 0 < n) (s : State) :
    Meets (readLoop mapped dst ip off n n 0) s
      (fun r _ => if reaches mapped dst then r.2 ≠ [] else r = (0, [])) (fun _ => True) := by
  obtain ⟨fuel, rfl⟩ := Nat.exists_eq_succ_of_ne_zero hn.ne'
  rw [readLoop, if_pos hn]
  apply (Meets.any _ s).seq
  intro b s₁ _
  rw [bread, bind_assoc]
  refine Meets.bind (Meets.get ?_)
  rw [pure_bind]
  dsimp only
  have hmod := Nat.mod_lt (off + 0) (show 0 < BSIZE by decide)
  have hbs : (s₁.data b).slice ((off + 0) % BSIZE)
      (min (fuel + 1 - 0) (BSIZE - (off + 0) % BSIZE)) ≠ [] := by
    rw [← List.length_pos_iff, Block.length_slice]
    omega
  rw [Nat.add_zero dst]
  cases hr : reaches mapped dst with
  | false =>
    rw [copyout_unmapped hbs hr]
    exact Meets.pure rfl
  | true =>
    have hout := copyout_mapped hbs hr
    split
    · refine (Meets.any _ s₁).seq fun rest s₂ _ => Meets.pure ?_
      exact List.append_ne_nil_of_left_ne_nil hout _
    · exact Meets.pure hout

/-- `readi` treats a negative count as a large one, unless the end wraps around. -/
def Overreads (mapped : Nat → Bool) (addr : Nat) (off size : UInt32) (n : Int32) : Prop :=
  n.toInt < 0 ∧ off.toNat + n.toInt < 0 ∧ off < size ∧ reaches mapped addr = true

theorem readi_bounds (mapped : Nat → Bool) (addr : Nat) (ip : Fin NINODE) (off : UInt32) (n : Int32)
    (s : State) :
    Meets (readi mapped addr ip off n.toUInt32) s
      (fun r _ => (Overreads mapped addr off (s.icache ip).size n ∧ r.2 ≠ []) ∨
        (¬Overreads mapped addr off (s.icache ip).size n ∧ r.1 ≤ n.toInt.toNat ∧
          Within addr n.toInt.toNat r.2)) (fun _ => True) := by
  rw [readi]
  refine Meets.bind (Meets.get ?_)
  dsimp only
  generalize (s.icache ip).size = size
  have hcount := toNat_toUInt32 n
  have := off.toNat_lt
  have := size.toNat_lt
  have := n.le_toInt
  have := n.toInt_lt
  split
  next hoff =>
    rw [UInt32.lt_iff_toNat_lt, UInt32.lt_iff_toNat_lt, UInt32.toNat_add] at hoff
    refine Meets.pure (.inr ⟨?_, Nat.zero_le _, .nil⟩)
    rintro ⟨hneg, hwrap, hin, -⟩
    rw [if_neg (by omega)] at hcount
    rw [UInt32.lt_iff_toNat_lt] at hin
    omega
  next hoff =>
    rw [not_or, UInt32.lt_iff_toNat_lt, UInt32.lt_iff_toNat_lt, UInt32.toNat_add] at hoff
    have hlen : (if size < off + n.toUInt32 then size - off else n.toUInt32).toNat =
        min (size.toNat - off.toNat) n.toUInt32.toNat := by
      have hle : off ≤ size := UInt32.le_iff_toNat_le.mpr (by omega)
      split
      next hsize =>
        rw [UInt32.lt_iff_toNat_lt, UInt32.toNat_add] at hsize
        rw [UInt32.toNat_sub_of_le _ _ hle]
        omega
      next hsize =>
        rw [UInt32.lt_iff_toNat_lt, UInt32.toNat_add] at hsize
        omega
    rw [hlen]
    by_cases hpos : 0 ≤ n.toInt
    · rw [if_pos hpos] at hcount
      refine (readLoop_bounds mapped addr ip off.toNat _ _ 0 (Nat.zero_le _) s).post ?_
      rintro r s' ⟨hr, hin⟩
      exact .inr ⟨fun h => absurd h.1 (by omega), hr.trans (by omega), hin.mono (by omega)⟩
    rw [if_neg hpos] at hcount
    by_cases hin : off < size
    · rw [UInt32.lt_iff_toNat_lt] at hin
      refine (readLoop_stores mapped addr ip off.toNat (by omega) s).post ?_
      intro r s' hr
      split at hr
      next hm => exact .inl ⟨⟨by omega, by omega, UInt32.lt_iff_toNat_lt.mpr hin, hm⟩, hr⟩
      next hm =>
        rw [hr]
        exact .inr ⟨fun h => hm h.2.2.2, Nat.zero_le _, .nil⟩
    · have hzero : min (size.toNat - off.toNat) n.toUInt32.toNat = 0 := by
        rw [UInt32.lt_iff_toNat_lt] at hin
        omega
      rw [hzero]
      exact Meets.pure (.inr ⟨fun h => hin h.2.2.1, Nat.zero_le _, .nil⟩)

/-- The size of a file as `ilock` finds it, in the cache or on disk. -/
def fileSize (s : State) (ip : Fin NINODE) : UInt32 :=
  let i := s.icache ip
  if i.valid then i.size
  else ((s.data (IBLOCK i.inum s.sb.inodestart.toNat)).dinode (i.inum % IPB)).size

theorem ilock_fileSize (ip : Fin NINODE) (v : Vol) :
    Meets (Vol.ilock ip) v (fun _ v' => (v'.fs.icache ip).size = fileSize v.fs ip)
      (fun _ => True) := by
  have hfs : Meets (Fs.ilock ip) v.fs (fun _ s' => (s'.icache ip).size = fileSize v.fs ip)
      (fun _ => True) := by
    rw [Fs.ilock]
    refine Meets.bind (Meets.get ?_)
    dsimp only
    split
    · exact Meets.throw trivial
    split
    next hv => exact Meets.pure (if_pos hv).symm
    next hv =>
      rw [bread, bind_assoc]
      refine Meets.bind (Meets.get ?_)
      rw [pure_bind]
      refine Meets.bind (Meets.modify ?_)
      split
      · exact Meets.throw trivial
      · refine Meets.pure (Eq.trans ?_ (if_neg hv).symm)
        simp [State.setInode]
  rw [Vol.ilock]
  refine Meets.bind (Meets.get ?_)
  split
  · exact Meets.throw trivial
  refine Meets.bind ?_
  rw [acquiresleep]
  refine Meets.bind (Meets.get ?_)
  split
  · exact Meets.throw trivial
  · exact Meets.modify (Meets.zoom hfs)

theorem returned_bounds {β : Type} {o : Option (Result β)} {addr : Nat} {n : Int32} (k : Kernel)
    (h : ∀ out, o = some out → Within addr n.toInt.toNat out.stores ∧ out.value ≤ n.toInt.toNat) :
    Meets (returned o) k
      (fun r _ => r.1 ≤ max n.toInt 0 ∧ Within addr n.toInt.toNat r.2) (fun _ => True) := by
  cases o with
  | none => exact Meets.throw trivial
  | some out =>
    obtain ⟨hin, hvalue⟩ := h out rfl
    exact Meets.pure ⟨by omega, hin⟩

theorem fileread_bounds {env : Around} {f : Fin NFILE} {addr : Nat} {n : Int32} {k : Kernel}
    (hread : (k.ftable f).readable = true) :
    Meets (fileread env f addr n) k
      (fun r _ => (((k.ftable f).type = .inode ∧ Overreads env.mapped addr (k.ftable f).off
          (fileSize k.vol.fs (k.ftable f).ip) n) ∧ r.2 ≠ []) ∨
        (¬((k.ftable f).type = .inode ∧ Overreads env.mapped addr (k.ftable f).off
          (fileSize k.vol.fs (k.ftable f).ip) n) ∧
          r.1 ≤ max n.toInt 0 ∧ Within addr n.toInt.toNat r.2)) (fun _ => True) := by
  rw [fileread]
  refine Meets.bind (Meets.get ?_)
  dsimp only
  rw [if_neg (by rw [hread]; decide)]
  split
  next htype =>
    refine (returned_bounds k fun _ => piperead_bounds).post fun r _ hr => .inr ⟨?_, hr⟩
    rw [htype]
    exact fun h => absurd h.1 (by decide)
  next htype =>
    have hno : ∀ P : Prop, ¬((k.ftable f).type = .inode ∧ P) := by
      rw [htype]
      exact fun P h => absurd h.1 (by decide)
    split
    · exact (returned_bounds k fun _ => consoleread_bounds).post fun r _ hr => .inr ⟨hno _, hr⟩
    · exact Meets.pure (.inr ⟨hno _, by dsimp only; omega, .nil⟩)
  next htype =>
    have hlock : Meets (onVol (Vol.ilock (k.ftable f).ip)) k (fun _ k₁ =>
        (k₁.vol.fs.icache (k.ftable f).ip).size = fileSize k.vol.fs (k.ftable f).ip)
        (fun _ => True) := Meets.zoom (ilock_fileSize ..)
    apply hlock.seq
    intro _ k₁ hsize
    have hread := readi_bounds env.mapped addr (k.ftable f).ip (k.ftable f).off n k₁.vol.fs
    rw [hsize] at hread
    have hread : Meets (onVol (onFs (readi env.mapped addr (k.ftable f).ip (k.ftable f).off
        n.toUInt32))) k₁ _ (fun _ => True) :=
      Meets.zoom (Q := fun r _ => _ ∧ r.2 ≠ [] ∨ _ ∧ r.1 ≤ n.toInt.toNat ∧ _) (Meets.zoom hread)
    apply hread.seq
    intro r k₂ hr
    apply (Meets.any _ k₂).seq
    intro _ k₃ _
    apply (Meets.any _ k₃).seq
    intro _ k₄ _
    refine Meets.pure (hr.imp (fun h => ⟨⟨htype, h.1⟩, h.2⟩) fun h => ?_)
    exact ⟨fun ho => h.1 ho.2, by dsimp only; omega, h.2.2⟩
  · exact Meets.throw trivial

/-- A read of a file that returns has returned at most `n` and stored at most `n` bytes, from `addr`
to `addr + n`, exactly if it is not one with a negative count before the end of an inode that does
not wrap around and whose destination is mapped. -/
theorem fileread_delivers_at_most {env : Around} {f : Fin NFILE} {addr : Nat} {n : Int32}
    {k k' : Kernel} {r : Int × Stores} (hread : (k.ftable f).readable = true)
    (hrun : fileread env f addr n k = .ok (r, k')) :
    (r.1 ≤ max n.toInt 0 ∧ r.2.length ≤ (max n.toInt 0).toNat ∧
        ∀ x ∈ r.2, addr ≤ x.1 ∧ (x.1 : Int) < addr + n.toInt) ↔
      0 ≤ n.toInt ∨ (k.ftable f).type ≠ .inode ∨ -n.toInt ≤ (k.ftable f).off.toNat ∨
        fileSize k.vol.fs (k.ftable f).ip ≤ (k.ftable f).off ∨
        reaches env.mapped addr = false := by
  have hiff : 0 ≤ n.toInt ∨ (k.ftable f).type ≠ .inode ∨ -n.toInt ≤ (k.ftable f).off.toNat ∨
      fileSize k.vol.fs (k.ftable f).ip ≤ (k.ftable f).off ∨ reaches env.mapped addr = false ↔
      ¬((k.ftable f).type = .inode ∧ Overreads env.mapped addr (k.ftable f).off
        (fileSize k.vol.fs (k.ftable f).ip) n) := by
    rw [Overreads, ← UInt32.not_lt, ← Bool.not_eq_true]
    have hoff : -n.toInt ≤ (k.ftable f).off.toNat ↔ ¬(k.ftable f).off.toNat + n.toInt < 0 := by omega
    rw [hoff, ← not_lt]
    tauto
  rw [hiff]
  obtain ⟨hover, hne⟩ | ⟨hno, hvalue, hin⟩ := (fileread_bounds hread).of_ok hrun
  · refine iff_of_false ?_ (not_not_intro hover)
    rintro ⟨-, hlen, -⟩
    have hneg := hover.2.1
    exact hne (List.length_eq_zero_iff.mp (by omega))
  · have hlen := hin.length_le
    refine iff_of_true ⟨hvalue, by omega, fun x hx => ?_⟩ hno
    have := hin.addrs x hx
    omega

def threeBytes : Kernel where
  ftable _ := ⟨.inode, 1, true, false, 0, ⟨0, NINODE_pos⟩, 0, 0⟩
  proc _ := ⟨.unused, fun _ => none, none⟩
  freelist := []
  others := []
  pipe _ := ⟨false, false⟩
  vol :=
    { fs :=
        { sb := ⟨FSMAGIC, 1000, 900, 200, 30, 2, 32, 45⟩
          data := fun _ => Block.zeroes
          outstanding := 0
          logged := []
          icache := fun _ =>
            { type := T_FILE, major := 0, minor := 0, nlink := 1, size := 3,
              addrs := fun _ => 100, dev := 1, inum := 5, ref := 1, valid := true } }
      locked := fun _ => false
      sizes := [] }

def anywhere : Around := ⟨fun _ => true, [], []⟩

def firstFile : Fin NFILE := ⟨0, by decide⟩

/-- What `fileread` returns, and how many bytes it has stored. -/
def outcome (env : Around) (addr : Nat) (n : Int32) (k : Kernel) : Option (Int × Nat) :=
  match fileread env firstFile addr n k with
  | .ok (r, _) => some (r.1, r.2.length)
  | .error _ => none

theorem fileread_delivers_at_most_two :
    (∃ r k', fileread anywhere firstFile 4096 2 threeBytes = .ok (r, k') ∧ r.1 ≤ 2 ∧ r.2.length ≤ 2) ∧
      outcome anywhere 4096 2 threeBytes = some (2, 2) := by
  have hrun : outcome anywhere 4096 2 threeBytes = some (2, 2) := by decide +kernel
  refine ⟨?_, hrun⟩
  cases hc : fileread anywhere firstFile 4096 2 threeBytes with
  | error e => simp [outcome, hc] at hrun
  | ok x =>
    obtain ⟨hvalue, hlen, -⟩ := (fileread_delivers_at_most rfl hc).mpr (.inl (by decide))
    exact ⟨x.1, x.2, rfl, hvalue, hlen⟩

/-- A count of -1 reads the whole file. -/
theorem fileread_negative_count :
    outcome anywhere 4096 (-1) threeBytes = some (3, 3) ∧ max (-1 : Int32).toInt 0 = 0 := by
  decide +kernel

end Xv6.Read

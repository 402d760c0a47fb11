import Xv6.Fs.Array
import Xv6.Sysfile.Calls

namespace Xv6.Sysfile

open Fs Lib.Command Lib.Splice

def writeSection (f : Fin NFILE) (src : Source) (n1 : Nat) : KM Int := do
  let k ← get
  let ff := k.ftable f
  onVol (Vol.ilock ff.ip)
  let r ← onVol (onFs (writei src ff.ip ff.off (UInt32.ofNat n1)))
  if 0 < r then
    onTables fun t => t.setFile f (ff.advance r.toNat)
  onVol (iunlock ff.ip)
  pure r

theorem writeChunk_eq (f : Fin NFILE) (src : Source) (n1 : Nat) :
    writeChunk f src n1 = transaction (writeSection f src n1) := rfl

namespace Kernel

def setVol (k : Kernel) (v : Vol) : Kernel := { k with vol := v }

def setFs (k : Kernel) (s : State) : Kernel := k.setVol { k.vol with fs := s }

def advance (k : Kernel) (f : Fin NFILE) (n : Nat) : Kernel :=
  { k with toTables := k.toTables.setFile f ((k.ftable f).advance n) }

/-- The inode `ip` is locked, and the file system is `s`. -/
def locking (k : Kernel) (s : State) (ip : Fin NINODE) : Kernel :=
  (k.setFs s).setVol ((k.setFs s).vol.setLocked ip true)

end Kernel

/-- The open file `f` is that of inode `i`, which nobody has locked. -/
structure Opened (k : Kernel) (tbl : Nat → Dinode) (f : Fin NFILE) (ip : Fin NINODE) (i : Nat) :
    Prop where
  laid : Laid k.vol.fs tbl ∅
  refers : Refers k.vol.fs tbl ip i
  unlocked : k.vol.locked ip = false
  ip_eq : (k.ftable f).ip = ip

section Section

variable {k : Kernel} {tbl : Nat → Dinode} {f : Fin NFILE} {ip : Fin NINODE} {i : Nat}
  {src : Source} {n1 : Nat}

theorem onVol_run {α : Type} {c : VolM α} {a : α} {v : Vol} (h : c k.vol = .ok (a, v)) :
    onVol c k = .ok (a, k.setVol v) := by
  rw [onVol, zoom, h]
  rfl

theorem onFs_run {α : Type} {c : FsM α} {a : α} {v : Vol} {s : State} (h : c v.fs = .ok (a, s)) :
    onFs c v = .ok (a, { v with fs := s }) := by
  rw [onFs, zoom, h]

theorem Opened.ilock (o : Opened k tbl f ip i) :
    onVol (Vol.ilock ip) k = .ok ((), k.locking (k.vol.fs.fetch ip (tbl i)) ip) := by
  obtain ⟨hlock, -, -⟩ := o.laid.ilock o.refers (Set.notMem_empty i)
  have hsleep : acquiresleep ip k.vol = .ok ((), k.vol.setLocked ip true) := by
    rw [acquiresleep, get_bind, o.unlocked]
    rfl
  have href : ¬ (k.vol.inode ip).ref < 1 := Nat.not_lt.mpr o.refers.ref
  have hrun : Vol.ilock ip k.vol =
      .ok ((), (k.locking (k.vol.fs.fetch ip (tbl i)) ip).vol) := by
    rw [Vol.ilock, get_bind, if_neg href, bind_of_ok hsleep]
    exact onFs_run (v := k.vol.setLocked ip true) hlock
  exact onVol_run hrun

theorem iunlock_run (hu : k.vol.locked ip = false) {s : State} (hr : 0 < (s.icache ip).ref) :
    onVol (iunlock ip) (k.locking s ip) = .ok ((), k.setFs s) := by
  have hlocked : (k.locking s ip).vol.locked ip = true := Function.update_self ..
  have hguard : ¬((k.locking s ip).vol.locked ip = false ∨
      ((k.locking s ip).vol.inode ip).ref < 1) := by
    rw [hlocked]
    rintro (h | h)
    · cases h
    · exact Nat.not_lt.mpr hr h
  have hback : ((k.locking s ip).vol.setLocked ip false) = (k.setFs s).vol := by
    have : Function.update (Function.update k.vol.locked ip true) ip false = k.vol.locked := by
      rw [Function.update_idem, ← hu, Function.update_eq_self]
    change Vol.mk s (Function.update (Function.update k.vol.locked ip true) ip false) k.vol.sizes = _
    rw [this]
    rfl
  have hrun : Fs.iunlock ip (k.locking s ip).vol = .ok ((), (k.setFs s).vol) := by
    rw [Fs.iunlock, get_bind, if_neg hguard, ← hback]
    rfl
  exact onVol_run hrun

theorem advance_zero (k : Kernel) (f : Fin NFILE) : k.advance f 0 = k := by
  have hoff : (k.ftable f).advance 0 = k.ftable f := by
    rw [File.advance, show UInt32.ofNat 0 = 0 from rfl, UInt32.add_zero]
  rw [Kernel.advance, hoff, Tables.setFile, Function.update_eq_self]

theorem writeSection_meets (src : Source) (o : Opened k tbl f ip i) (hn : n1 < 2 ^ 32)
    (hf : Fits (tbl i) (k.ftable f).off (UInt32.ofNat n1)) {len B : Nat} {room : Prop}
    (hlen : (k.ftable f).off.toNat + n1 ≤ len)
    (hroom : room → Room k.vol.fs.sb k.vol.fs.data (tbl i) len)
    (hB : load (k.vol.fs.fetch ip (tbl i)) (tbl i) + 2 * blocksLeft (k.ftable f).off.toNat n1 0 ≤
      B + if 0 < n1 ∧ addrOf k.vol.fs.data (tbl i) ((k.ftable f).off.toNat / BSIZE) ≠ 0
        then 1 else 0) :
    Meets (writeSection f src n1) k
      (fun r k' => r = n1 ∧ ∃ s' tbl' r₀ hi,
        Written ip i len ∅ src (k.ftable f).off.toNat n1 r₀ hi (k.vol.fs.fetch ip (tbl i)) tbl
          s' tbl' ∧
        s'.logged.length ≤ B + 1 ∧ k' = (k.setFs s').advance f n1)
      (Stops k.vol.fs.sb k.vol.fs.outstanding B room) := by
  obtain ⟨-, hlaid, hholds⟩ := o.laid.ilock o.refers (Set.notMem_empty i)
  have hn' : (UInt32.ofNat n1).toNat = n1 := by rw [UInt32.toNat_ofNat', Nat.mod_eq_of_lt hn]
  rw [writeSection]
  apply Meets.bind
  apply Meets.get
  dsimp only
  rw [o.ip_eq]
  apply Meets.bind
  apply Meets.of_eq o.ilock
  apply Meets.bind
  apply Meets.zoom
  apply Meets.zoom
  have hlen' : (k.ftable f).off.toNat + (UInt32.ofNat n1).toNat ≤ len := by rwa [hn']
  have hw := writei_meets src hlaid hholds hf hlen' hroom (by rwa [hn'])
  refine hw.post ?_
  rintro r s' ⟨rfl, r₀, hi, tbl', w, hlog⟩
  rw [hn'] at w ⊢
  have hpos : 0 < (s'.icache ip).ref := (w.holds hholds).ref
  split
  next h0 =>
    apply Meets.bind
    apply Meets.modify
    apply Meets.bind
    refine Meets.of_eq (iunlock_run (k := k.advance f n1) o.unlocked hpos) ?_
    apply Meets.pure
    exact ⟨rfl, s', tbl', r₀, hi, w, hlog, rfl⟩
  next h0 =>
    have hz : n1 = 0 := by omega
    apply Meets.bind
    refine Meets.of_eq (iunlock_run o.unlocked hpos) ?_
    apply Meets.pure
    refine ⟨rfl, s', tbl', r₀, hi, w, hlog, ?_⟩
    rw [hz, advance_zero]

theorem writeSection_refuses (o : Opened k tbl f ip i)
    (hf : ¬ Fits (tbl i) (k.ftable f).off (UInt32.ofNat n1)) :
    writeSection f src n1 k = .ok (-1, k.setFs (k.vol.fs.fetch ip (tbl i))) := by
  obtain ⟨-, hlaid, hholds⟩ := o.laid.ilock o.refers (Set.notMem_empty i)
  rw [writeSection, get_bind]
  dsimp only
  rw [o.ip_eq, bind_of_ok o.ilock,
    bind_of_ok (onVol_run (onFs_run (writei_refuses hlaid hholds hf))), if_neg (by decide)]
  exact bind_of_ok (iunlock_run o.unlocked hholds.ref)

end Section

namespace Kernel

def begun (k : Kernel) : Kernel :=
  k.setFs { k.vol.fs with outstanding := k.vol.fs.outstanding + 1 }

def ended (k : Kernel) : Kernel :=
  k.setVol
    { k.vol with
      fs :=
        { k.vol.fs with
          outstanding := k.vol.fs.outstanding - 1
          logged := if k.vol.fs.outstanding - 1 = 0 then [] else k.vol.fs.logged }
      sizes := k.vol.fs.logged.length :: k.vol.sizes }

structure Idle (k : Kernel) : Prop where
  outstanding : k.vol.fs.outstanding = 0
  logged : k.vol.fs.logged = []

end Kernel

section Chunk

variable {k : Kernel} {tbl : Nat → Dinode} {f : Fin NFILE} {ip : Fin NINODE} {i : Nat}
  {src : Source} {n1 : Nat}

theorem transaction_meets {α : Type} {c : KM α} {Q : α → Kernel → Prop} {E : Panic → Prop}
    (h : k.Idle) (hc : Meets c k.begun (fun a k' => Q a k'.ended) E) :
    Meets (transaction c) k Q E := by
  have hbegin : Vol.beginOp k.vol = .ok ((), k.begun.vol) := by
    have hspace : ¬ LOGSIZE < k.vol.fs.logged.length + (k.vol.fs.outstanding + 1) * MAXOPBLOCKS := by
      rw [h.outstanding, h.logged]
      decide
    apply onFs_run
    rw [Fs.beginOp, get_bind, if_neg hspace]
    rfl
  rw [transaction]
  apply Meets.bind
  apply Meets.of_eq (onVol_run hbegin)
  apply Meets.seq hc
  intro a k' hQ
  apply Meets.bind
  have hend : Vol.endOp k'.vol = .ok ((), k'.ended.vol) := rfl
  apply Meets.of_eq (onVol_run hend)
  exact Meets.pure hQ

theorem Opened.of_eq {k' : Kernel} (o : Opened k tbl f ip i) (hsb : k'.vol.fs.sb = k.vol.fs.sb)
    (hd : k'.vol.fs.data = k.vol.fs.data) (hc : k'.vol.fs.icache = k.vol.fs.icache)
    (hl : k'.vol.locked = k.vol.locked) (hip : (k'.ftable f).ip = (k.ftable f).ip) :
    Opened k' tbl f ip i where
  laid := o.laid.of_eq hsb hd hc
  refers := by
    refine ⟨?_, ?_, ?_⟩
    · rw [hc]
      exact o.refers.ref
    · rw [hc]
      exact o.refers.inum
    · rw [hsb]
      exact o.refers.inUse
  unlocked := by
    rw [hl]
    exact o.unlocked
  ip_eq := hip.trans o.ip_eq

theorem advance_file (k : Kernel) (f : Fin NFILE) (n : Nat) :
    (k.advance f n).ftable f = (k.ftable f).advance n := Function.update_self ..

theorem advance_nil (x : File) : x.advance ([] : List UInt8).length = x := by
  rw [List.length_nil, File.advance, show UInt32.ofNat 0 = 0 from rfl, UInt32.add_zero]

/-- The bytes `bs` have been written at the offset of the open file `f`, which has moved past them. -/
structure Moved (f : Fin NFILE) (ip : Fin NINODE) (i len : Nat) (bs : List UInt8) (k : Kernel)
    (tbl : Nat → Dinode) (k' : Kernel) (tbl' : Nat → Dinode) : Prop where
  opened : Opened k' tbl' f ip i
  idle : k'.Idle
  sb : k'.vol.fs.sb = k.vol.fs.sb
  file : k'.ftable f = (k.ftable f).advance bs.length
  inUse : ∀ j, InUse k'.vol.fs.sb tbl' j ↔ InUse k.vol.fs.sb tbl j
  content : content k'.vol.fs.data (tbl' i) =
    splice (content k.vol.fs.data (tbl i)) (k.ftable f).off.toNat bs
  others : ∀ j, InUse k.vol.fs.sb tbl j → j ≠ i →
    Fs.content k'.vol.fs.data (tbl' j) = Fs.content k.vol.fs.data (tbl j)
  room : Room k.vol.fs.sb k.vol.fs.data (tbl i) len →
    Room k'.vol.fs.sb k'.vol.fs.data (tbl' i) len

theorem Moved.refl (len : Nat) (o : Opened k tbl f ip i) (h : k.Idle) :
    Moved f ip i len [] k tbl k tbl where
  opened := o
  idle := h
  sb := rfl
  file := (advance_nil _).symm
  inUse _ := Iff.rfl
  content := splice_nil.symm
  others _ _ _ := rfl
  room := id

theorem writeChunk_meets (bs : List UInt8) (o : Opened k tbl f ip i) (h : k.Idle)
    (hn : bs.length ≤ maxChunk) (hf : Fits (tbl i) (k.ftable f).off (UInt32.ofNat bs.length))
    (hsrc : ∀ j (hj : j < bs.length), src j = some bs[j]) {len : Nat} {room : Prop}
    (hlen : (k.ftable f).off.toNat + bs.length ≤ len)
    (hroom : room → Room k.vol.fs.sb k.vol.fs.data (tbl i) len) :
    Meets (writeChunk f src bs.length) k
      (fun r k' => r = bs.length ∧ ∃ tbl', Moved f ip i len bs k tbl k' tbl')
      (Stops k.vol.fs.sb 1 9 room) := by
  have hn32 : bs.length < 2 ^ 32 := lt_of_le_of_lt hn (by decide)
  have hn' : (UInt32.ofNat bs.length).toNat = bs.length := by
    rw [UInt32.toNat_ofNat', Nat.mod_eq_of_lt hn32]
  have o₁ : Opened k.begun tbl f ip i := o.of_eq rfl rfl rfl rfl rfl
  obtain ⟨-, hlaid, hholds⟩ := o₁.laid.ilock o₁.refers (Set.notMem_empty i)
  have hload := chunk_load hlaid hholds.inUse hf (by rw [hn']; exact hn)
  have hlogged : (k.begun.vol.fs.fetch ip (tbl i)).logged = [] := h.logged
  have hout : k.begun.vol.fs.outstanding = 1 := by
    change k.vol.fs.outstanding + 1 = 1
    rw [h.outstanding]
  rw [hlogged, hn'] at hload
  rw [writeChunk_eq]
  apply transaction_meets h
  have hsec := writeSection_meets (B := 9) src o₁ hn32 hf hlen hroom hload
  rw [hout] at hsec
  refine hsec.post ?_
  rintro r k' ⟨rfl, s', tbl', r₀, hi, w, -, rfl⟩
  have hsome : ∀ j < bs.length, (src j).isSome := fun j hj => by rw [hsrc j hj]; rfl
  obtain ⟨rfl, rfl⟩ := w.complete hsome
  have ho' := w.holds hholds
  have hout' : s'.outstanding - 1 = 0 := by
    rw [w.outstanding]
    change k.begun.vol.fs.outstanding - 1 = 0
    rw [hout]
  refine ⟨rfl, tbl', ⟨w.laid.of_eq rfl rfl rfl, ⟨ho'.ref, ho'.inum, ho'.inUse⟩, o.unlocked, ?_⟩,
    ⟨hout', if_pos hout'⟩, w.sb, advance_file .., fun j => w.inUse j,
    w.content_self hholds.inUse hf.1 hsrc, fun j hj hji => w.content_other hj hji, w.room⟩
  have hip := congrArg File.ip (advance_file (k.begun.setFs s') f bs.length)
  exact hip.trans o.ip_eq

theorem writeChunk_refuses (len : Nat) {E : Panic → Prop} (o : Opened k tbl f ip i) (h : k.Idle)
    (hf : ¬ Fits (tbl i) (k.ftable f).off (UInt32.ofNat n1)) :
    Meets (writeChunk f src n1) k
      (fun r k' => r = -1 ∧ Moved f ip i len [] k tbl k' tbl) E := by
  have o₁ : Opened k.begun tbl f ip i := o.of_eq rfl rfl rfl rfl rfl
  obtain ⟨-, hlaid, hholds⟩ := o₁.laid.ilock o₁.refers (Set.notMem_empty i)
  have hout : k.vol.fs.outstanding + 1 - 1 = 0 := by rw [h.outstanding]
  rw [writeChunk_eq]
  apply transaction_meets h
  refine Meets.of_eq (writeSection_refuses o₁ hf) ⟨rfl, ?_⟩
  exact ⟨⟨hlaid.of_eq rfl rfl rfl, ⟨hholds.ref, hholds.inum, hholds.inUse⟩, o.unlocked, o.ip_eq⟩,
    ⟨hout, if_pos hout⟩, rfl, (advance_nil _).symm, fun _ => Iff.rfl, splice_nil.symm,
    fun _ _ _ => rfl, id⟩

theorem Moved.off {len : Nat} {bs : List UInt8} {k' : Kernel} {tbl' : Nat → Dinode}
    (m : Moved f ip i len bs k tbl k' tbl')
    (h : (k.ftable f).off.toNat + bs.length ≤ MAXFILE * BSIZE) :
    (k'.ftable f).off.toNat = (k.ftable f).off.toNat + bs.length := by
  change (k.ftable f).off.toNat + bs.length ≤ 274432 at h
  rw [m.file, File.advance, UInt32.toNat_add, UInt32.toNat_ofNat',
    Nat.mod_eq_of_lt (b := 2 ^ 32) (by omega), Nat.mod_eq_of_lt (by omega)]

theorem Moved.trans {len : Nat} {bs bs' : List UInt8} {k₁ k₂ : Kernel} {tbl₁ tbl₂ : Nat → Dinode}
    (m : Moved f ip i len bs k tbl k₁ tbl₁) (m' : Moved f ip i len bs' k₁ tbl₁ k₂ tbl₂)
    (h : (k.ftable f).off.toNat + bs.length ≤ MAXFILE * BSIZE)
    (hoff : (k.ftable f).off.toNat ≤ (tbl i).size.toNat) :
    Moved f ip i len (bs ++ bs') k tbl k₂ tbl₂ where
  opened := m'.opened
  idle := m'.idle
  sb := m'.sb.trans m.sb
  file := by
    rw [m'.file, m.file, List.length_append, File.advance, File.advance, File.advance,
      UInt32.ofNat_add, UInt32.add_assoc]
  inUse j := (m'.inUse j).trans (m.inUse j)
  content := by
    rw [m'.content, m.content, m.off h, splice_append (by rwa [length_content])]
  others j hj hji := (m'.others j ((m.inUse j).mpr hj) hji).trans (m.others j hj hji)
  room hr := m'.room (m.room hr)

theorem Moved.off_le {len : Nat} {bs : List UInt8} {k' : Kernel} {tbl' : Nat → Dinode}
    (m : Moved f ip i len bs k tbl k' tbl')
    (h : (k.ftable f).off.toNat + bs.length ≤ MAXFILE * BSIZE)
    (hoff : (k.ftable f).off.toNat ≤ (tbl i).size.toNat) :
    (k'.ftable f).off.toNat ≤ (tbl' i).size.toNat := by
  have hl := congrArg List.length m.content
  rw [length_content, length_splice _ (by rwa [length_content])] at hl
  rw [m.off h, hl]
  exact le_max_right ..

end Chunk

/-- How many of `n` bytes at `off` are written: all of them, or the chunks that end before the
largest size of a file. -/
def stored (off n : Nat) : Nat :=
  if off + n ≤ MAXFILE * BSIZE then n else (MAXFILE * BSIZE - off) / maxChunk * maxChunk

theorem stored_le {off : Nat} (h : off ≤ MAXFILE * BSIZE) (n : Nat) :
    stored off n ≤ n ∧ off + stored off n ≤ MAXFILE * BSIZE := by
  unfold stored
  change off ≤ 274432 at h
  change (if off + n ≤ 274432 then n else (274432 - off) / 3072 * 3072) ≤ n ∧
    off + (if off + n ≤ 274432 then n else (274432 - off) / 3072 * 3072) ≤ 274432
  split <;> omega

theorem stored_next {off n t : Nat} (ht : t ≤ stored off n) (hlt : t < n)
    (hwhole : t % maxChunk = 0 ∨ t = n) (hfit : off + t + min (n - t) maxChunk ≤ MAXFILE * BSIZE) :
    t + min (n - t) maxChunk ≤ stored off n ∧
      ((t + min (n - t) maxChunk) % maxChunk = 0 ∨ t + min (n - t) maxChunk = n) := by
  unfold stored at ht ⊢
  change off + t + min (n - t) 3072 ≤ 274432 at hfit
  change t % 3072 = 0 ∨ t = n at hwhole
  change t ≤ (if off + n ≤ 274432 then n else (274432 - off) / 3072 * 3072) at ht
  change t + min (n - t) 3072 ≤ (if off + n ≤ 274432 then n else (274432 - off) / 3072 * 3072) ∧
    ((t + min (n - t) 3072) % 3072 = 0 ∨ t + min (n - t) 3072 = n)
  split <;> omega

theorem stored_here {off n t : Nat} (ht : t ≤ stored off n) (hlt : t < n)
    (hwhole : t % maxChunk = 0 ∨ t = n) (hmax : off ≤ MAXFILE * BSIZE)
    (hfit : ¬ off + t + min (n - t) maxChunk ≤ MAXFILE * BSIZE) : t = stored off n := by
  unfold stored at ht ⊢
  change ¬ off + t + min (n - t) 3072 ≤ 274432 at hfit
  change t % 3072 = 0 ∨ t = n at hwhole
  change off ≤ 274432 at hmax
  change t ≤ (if off + n ≤ 274432 then n else (274432 - off) / 3072 * 3072) at ht
  change t = (if off + n ≤ 274432 then n else (274432 - off) / 3072 * 3072)
  split at ht
  next h => omega
  next h =>
    rw [if_neg h]
    omega

section Loop

variable {k : Kernel} {tbl : Nat → Dinode} {f : Fin NFILE} {ip : Fin NINODE} {i : Nat}
  {src : Source}

theorem writeChunks_meets {bs : List UInt8} (hsrc : ∀ j (hj : j < bs.length), src j = some bs[j])
    (off fuel : Nat) {t : Nat} (o : Opened k tbl f ip i) (h : k.Idle)
    (hoff : (k.ftable f).off.toNat = off + t) (hsize : off + t ≤ (tbl i).size.toNat)
    (hmax : off ≤ MAXFILE * BSIZE) (ht : t ≤ stored off bs.length)
    (hwhole : t % maxChunk = 0 ∨ t = bs.length) (hfuel : bs.length ≤ t + fuel) {len : Nat}
    {room : Prop} (hlen : off + stored off bs.length ≤ len)
    (hroom : room → Room k.vol.fs.sb k.vol.fs.data (tbl i) len) :
    Meets (writeChunks f src bs.length fuel t) k
      (fun r k' => r = stored off bs.length ∧ ∃ tbl',
        Moved f ip i len ((bs.drop t).take (stored off bs.length - t)) k tbl k' tbl')
      (Stops k.vol.fs.sb 1 9 room) := by
  obtain ⟨hle, hfit⟩ := stored_le hmax bs.length
  induction fuel generalizing k tbl t with
  | zero =>
    apply Meets.pure
    have hst : t = stored off bs.length := by omega
    refine ⟨hst, tbl, ?_⟩
    rw [← hst, Nat.sub_self, List.take_zero]
    exact Moved.refl len o h
  | succ fuel ih =>
    rw [writeChunks]
    split
    next hlt =>
      set n1 := min (bs.length - t) maxChunk with hn1
      have hn1pos : 0 < n1 := by
        have : 0 < maxChunk := by decide
        omega
      have hpiece : ((bs.drop t).take n1).length = n1 := by
        rw [List.length_take, List.length_drop]
        omega
      have hn1' : (UInt32.ofNat n1).toNat = n1 := by
        have : maxChunk < 2 ^ 32 := by decide
        rw [UInt32.toNat_ofNat', Nat.mod_eq_of_lt (by omega)]
      by_cases hf : Fits (tbl i) (k.ftable f).off (UInt32.ofNat n1)
      · have hmax' : off + t + n1 ≤ MAXFILE * BSIZE := by
          have := hf.2
          rwa [hoff, hn1'] at this
        obtain ⟨hnext, hwhole'⟩ := stored_next ht hlt hwhole hmax'
        have hsrc' : ∀ j (hj : j < ((bs.drop t).take n1).length),
            src (t + j) = some ((bs.drop t).take n1)[j] := by
          intro j hj
          rw [List.getElem_take, List.getElem_drop]
          exact hsrc (t + j) (by omega)
        have hlen' : (k.ftable f).off.toNat + ((bs.drop t).take n1).length ≤ len := by omega
        have hchunk := writeChunk_meets ((bs.drop t).take n1) o h (by omega) (by rwa [hpiece])
          hsrc' hlen' hroom
        rw [hpiece] at hchunk
        apply hchunk.seq
        rintro r k₁ ⟨rfl, tbl₁, m⟩
        rw [if_neg (by omega), if_neg (by simp)]
        have hoff₁ := m.off (by rw [hpiece, hoff]; exact hmax')
        have hsize₁ := m.off_le (by rw [hpiece, hoff]; exact hmax') (by rw [hoff]; exact hsize)
        rw [hoff₁, hpiece, hoff] at hsize₁
        rw [hpiece, hoff] at hoff₁
        have hrest := ih (k := k₁) (t := t + n1) m.opened m.idle (by omega) (by omega)
          hnext hwhole' (by omega) fun hr => m.room (hroom hr)
        rw [m.sb] at hrest
        refine hrest.post ?_
        rintro r k₂ ⟨rfl, tbl₂, m'⟩
        refine ⟨rfl, tbl₂, ?_⟩
        have hsplit : stored off bs.length - t = n1 + (stored off bs.length - (t + n1)) := by omega
        rw [hsplit, List.take_add, List.drop_drop]
        exact m.trans m' (by rw [hpiece, hoff]; exact hmax') (by rw [hoff]; exact hsize)
      · -- the chunk does not fit: this is as far as it goes
        have hmax' : ¬ off + t + n1 ≤ MAXFILE * BSIZE := by
          intro hle'
          apply hf
          refine ⟨by rw [hoff]; exact hsize, ?_⟩
          rw [hoff, hn1']
          exact hle'
        have hst := stored_here ht hlt hwhole hmax hmax'
        apply (writeChunk_refuses len o h hf).seq
        rintro r k₁ ⟨rfl, m⟩
        rw [if_pos (by decide)]
        apply Meets.pure
        refine ⟨hst, tbl, ?_⟩
        rw [← hst, Nat.sub_self, List.take_zero]
        exact m
    next hge =>
      apply Meets.pure
      have hst : t = stored off bs.length := by omega
      refine ⟨hst, tbl, ?_⟩
      rw [← hst, Nat.sub_self, List.take_zero]
      exact Moved.refl len o h

theorem filewrite_meets {bs : List UInt8} (hsrc : ∀ j (hj : j < bs.length), src j = some bs[j])
    (other : Int) (o : Opened k tbl f ip i) (h : k.Idle) (hw : (k.ftable f).writable = true)
    (hty : (k.ftable f).type = .inode) (hoff : (k.ftable f).off.toNat ≤ (tbl i).size.toNat)
    {len : Nat} {room : Prop}
    (hlen : (k.ftable f).off.toNat + stored (k.ftable f).off.toNat bs.length ≤ len)
    (hroom : room → Room k.vol.fs.sb k.vol.fs.data (tbl i) len) :
    Meets (filewrite f src bs.length other) k
      (fun r k' => r = (if (k.ftable f).off.toNat + bs.length ≤ MAXFILE * BSIZE then
          (bs.length : Int) else -1) ∧
        ∃ tbl', Moved f ip i len (bs.take (stored (k.ftable f).off.toNat bs.length)) k tbl k' tbl')
      (Stops k.vol.fs.sb 1 9 room) := by
  have hmax := hoff.trans (o.laid.files.size_le i o.refers.inUse)
  rw [filewrite]
  apply Meets.bind
  apply Meets.get
  dsimp only
  rw [if_neg (by rw [hw]; decide), hty]
  dsimp only
  rw [Int.toNat_natCast]
  apply (writeChunks_meets (t := 0) hsrc (k.ftable f).off.toNat bs.length o h rfl hoff hmax (Nat.zero_le _)
    (Or.inl (Nat.zero_mod _)) (by omega) hlen hroom).seq
  rintro r k' ⟨rfl, tbl', m⟩
  apply Meets.pure
  refine ⟨?_, tbl', m⟩
  by_cases hfit : (k.ftable f).off.toNat + bs.length ≤ MAXFILE * BSIZE
  · rw [stored, if_pos hfit, if_pos hfit, if_pos rfl]
  · have hlt : stored (k.ftable f).off.toNat bs.length ≠ bs.length := by
      have := (stored_le hmax bs.length).2
      intro he
      rw [he] at this
      exact hfit this
    rw [if_neg hfit, if_neg fun he => hlt (Int.ofNat_inj.mp he)]

theorem filewrite_past_end (src : Source) (len n : Nat) (other : Int) {E : Panic → Prop}
    (o : Opened k tbl f ip i) (h : k.Idle) (hw : (k.ftable f).writable = true)
    (hty : (k.ftable f).type = .inode) (hoff : ¬ (k.ftable f).off.toNat ≤ (tbl i).size.toNat) :
    Meets (filewrite f src n other) k
      (fun r k' => r ≤ 0 ∧ Moved f ip i len [] k tbl k' tbl) E := by
  rw [filewrite]
  apply Meets.bind
  apply Meets.get
  dsimp only
  rw [if_neg (by rw [hw]; decide), hty]
  dsimp only
  rw [Int.toNat_natCast]
  cases n with
  | zero =>
    apply Meets.bind
    apply Meets.pure
    exact Meets.pure ⟨le_rfl, Moved.refl len o h⟩
  | succ n =>
    rw [writeChunks, if_pos n.succ_pos]
    apply Meets.bind
    apply (writeChunk_refuses len o h fun hf => hoff hf.1).seq
    rintro r k' ⟨rfl, m⟩
    rw [if_pos (by decide)]
    apply Meets.pure
    apply Meets.pure
    rw [if_neg (by omega)]
    exact ⟨by decide, m⟩

end Loop

def tinyKernel (size : UInt32) : Kernel where
  ftable f :=
    if f.val = 0 then ⟨.inode, 1, true, true, 0, ⟨0, NINODE_pos⟩, 0, 0⟩
    else ⟨.none, 0, false, false, 0, ⟨0, NINODE_pos⟩, 0, 0⟩
  proc _ := ⟨.unused, fun _ => none, none⟩
  freelist := []
  others := []
  pipe _ := ⟨false, false⟩
  vol := ⟨{ tinyVolume size with outstanding := 0 }, fun _ => false, []⟩

theorem tinyKernel_opened {size : UInt32} (hsize : size = 4 ∨ size = 8) :
    Opened (tinyKernel size) smallTable ⟨0, by decide⟩ ⟨0, by decide⟩ 1 where
  laid := (tinyVolume_laid hsize).of_eq rfl rfl rfl
  refers := ⟨Nat.one_pos, rfl, (tinyVolume_holds size).inUse⟩
  unlocked := rfl
  ip_eq := rfl

theorem tinyKernel_idle (size : UInt32) : (tinyKernel size).Idle := ⟨rfl, rfl⟩

section Results

variable {k : Kernel} {tbl : Nat → Dinode} {f : Fin NFILE} {ip : Fin NINODE} {i : Nat}
  {src : Source}

/-- A write in chunks is one write: `filewrite` returns `n`, moves the offset by `n` and splices
the bytes into the file. If the file would become too large, it returns -1 and has done so with
the chunks that fit. It stops only where the disk has no room for the bytes that it stores, or
where the log area does not hold one operation. -/
theorem filewrite_is_splice (src : Source) (bs : List UInt8) (other : Int)
    (o : Opened k tbl f ip i) (h : k.Idle) (hw : (k.ftable f).writable = true) (hty : (k.ftable f).type = .inode)
    (hoff : (k.ftable f).off.toNat ≤ (content k.vol.fs.data (tbl i)).length)
    (hsrc : ∀ j (hj : j < bs.length), src j = some bs[j]) :
    Meets (filewrite f src bs.length other) k
      (fun r k' => ∃ tbl', Opened k' tbl' f ip i ∧
        (∀ j, InUse k.vol.fs.sb tbl j → j ≠ i →
          content k'.vol.fs.data (tbl' j) = content k.vol.fs.data (tbl j)) ∧
        if (k.ftable f).off.toNat + bs.length ≤ MAXFILE * BSIZE then
          r = bs.length ∧ (k'.ftable f).off.toNat = (k.ftable f).off.toNat + bs.length ∧
            content k'.vol.fs.data (tbl' i) =
              splice (content k.vol.fs.data (tbl i)) (k.ftable f).off.toNat bs
        else
          r = -1 ∧ ∃ m, m * maxChunk < bs.length ∧
            (k'.ftable f).off.toNat = (k.ftable f).off.toNat + m * maxChunk ∧
            content k'.vol.fs.data (tbl' i) =
              splice (content k.vol.fs.data (tbl i)) (k.ftable f).off.toNat (bs.take (m * maxChunk)))
      (fun e => e = .ballocOutOfBlocks ∧ ¬ Room k.vol.fs.sb k.vol.fs.data (tbl i)
          ((k.ftable f).off.toNat + stored (k.ftable f).off.toNat bs.length) ∨
        e = .tooBigTransaction ∧ k.vol.fs.sb.nlog.toNat ≤ MAXOPBLOCKS) := by
  rw [length_content] at hoff
  have hmax := hoff.trans (o.laid.files.size_le i o.refers.inUse)
  obtain ⟨hle, hfit⟩ := stored_le hmax bs.length
  refine (filewrite_meets hsrc other o h hw hty hoff le_rfl id).mono ?_ ?_
  · rintro r k' ⟨rfl, tbl', m⟩
    have hlen : (bs.take (stored (k.ftable f).off.toNat bs.length)).length =
        stored (k.ftable f).off.toNat bs.length := by
      rw [List.length_take, min_eq_left hle]
    have hoff' := m.off (by rwa [hlen])
    have hcontent := m.content
    rw [hlen] at hoff'
    refine ⟨tbl', m.opened, m.others, ?_⟩
    split
    next hfit' =>
      have hall : stored (k.ftable f).off.toNat bs.length = bs.length := if_pos hfit'
      rw [hall] at hoff' hcontent
      rw [List.take_length] at hcontent
      exact ⟨rfl, hoff', hcontent⟩
    next hfit' =>
      have hpart : stored (k.ftable f).off.toNat bs.length =
          (MAXFILE * BSIZE - (k.ftable f).off.toNat) / maxChunk * maxChunk := if_neg hfit'
      refine ⟨rfl, _, ?_, by rwa [hpart] at hoff', by rwa [hpart] at hcontent⟩
      rw [← hpart]
      omega
  · intro e he
    cases e
    case tooBigTransaction =>
      right
      change LOGSIZE ≤ 9 ∨ k.vol.fs.sb.nlog.toNat ≤ 10 at he
      exact ⟨rfl, he.resolve_left (by decide)⟩
    case ballocOutOfBlocks => exact Or.inl ⟨rfl, he⟩
    case logWriteOutsideOfTrans => exact absurd he (lt_irrefl 1)
    all_goals exact False.elim he

theorem filewrite_is_splice_two : ∃ k',
    filewrite ⟨0, by decide⟩ (kernelSrc [104, 105]) 2 0 (tinyKernel 8) = .ok (2, k') ∧
      (k'.ftable ⟨0, by decide⟩).off.toNat = 2 := by
  have hstored : stored ((tinyKernel 8).ftable ⟨0, by decide⟩).off.toNat 2 = 2 := by decide
  obtain ⟨r, k', hk, tbl', -, -, hres⟩ :=
    (filewrite_is_splice (kernelSrc [104, 105]) [104, 105] 0 (tinyKernel_opened (Or.inr rfl))
      (tinyKernel_idle 8) rfl rfl (Nat.zero_le _) (by decide)).ok (by
        rintro e (⟨-, he⟩ | ⟨-, he⟩)
        · change ¬ Room smallVolume.sb smallVolume.data (smallTable 1) (0 + stored _ 2) at he
          rw [hstored] at he
          exact he smallVolume_room
        · exact absurd he (by decide))
  rw [if_pos (by decide)] at hres
  obtain ⟨rfl, hoff, -⟩ := hres
  exact ⟨k', hk, hoff⟩

/-- On a full disk `filewrite` does not return. -/
theorem filewrite_full_disk :
    Opened (tinyKernel 4) smallTable ⟨0, by decide⟩ ⟨0, by decide⟩ 1 ∧ (tinyKernel 4).Idle ∧
      filewrite ⟨0, by decide⟩ (kernelSrc [7]) 1 0 (tinyKernel 4) = .error .ballocOutOfBlocks := by
  refine ⟨tinyKernel_opened (Or.inl rfl), tinyKernel_idle 4, ?_⟩
  have h : (match filewrite ⟨0, by decide⟩ (kernelSrc [7]) 1 0 (tinyKernel 4) with
    | .error e => decide (e = .ballocOutOfBlocks)
    | .ok _ => false) = true := by decide +kernel
  split at h
  next e he => rw [he, of_decide_eq_true h]
  · cases h

def bytesOf (src : Source) (n : Nat) : List UInt8 := (List.range n).map fun j => (src j).getD 0

theorem length_bytesOf (src : Source) (n : Nat) : (bytesOf src n).length = n := by
  rw [bytesOf, List.length_map, List.length_range]

theorem getElem_bytesOf {n : Nat} (hsrc : ∀ j < n, (src j).isSome) (j : Nat)
    (hj : j < (bytesOf src n).length) : src j = some (bytesOf src n)[j] := by
  have hlt : j < n := by rwa [length_bytesOf] at hj
  obtain ⟨x, hx⟩ := Option.isSome_iff_exists.mp (hsrc j hlt)
  simp only [bytesOf, List.getElem_map, List.getElem_range, hx, Option.getD_some]

end Results

end Xv6.Sysfile

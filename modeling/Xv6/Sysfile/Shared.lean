import Xv6.Lib.Holder
import Xv6.Sysfile.Write

namespace Xv6.Sysfile.Shared

open Fs Lib.Command Lib.Splice Lib.Transition

/-- Where a process is in `filewrite` or `fileread` of the shared file. In `filewrite`, `bs` is its
buffer, of which `j` bytes have been written, and `r` is what `writei` has returned. -/
inductive Pc where
  | idle
  | loop (bs : List UInt8) (j : Nat)
  | begun (bs : List UInt8) (j : Nat)
  | locked (bs : List UInt8) (j : Nat)
  | wrote (bs : List UInt8) (j : Nat) (r : Int)
  | moved (bs : List UInt8) (j : Nat) (r : Int)
  | unlocked (bs : List UInt8) (j : Nat) (r : Int)
  | reading (n : UInt32)
  | readLocked (n : UInt32)
  | readDone (m : Nat)
  | readMoved

namespace Pc

def holds : Pc → Bool
  | locked .. | wrote .. | moved .. | readLocked .. | readDone .. | readMoved => true
  | _ => false

def debt : Pc → Nat
  | wrote _ _ r => r.toNat
  | readDone m => m
  | _ => 0

end Pc

structure Piece (P : Type) where
  proc : P
  written : Bool
  off : Nat
  bytes : List UInt8

/-- Processes that share the open file. The last field is not in the source: the pieces moved so
far, the latest first. -/
structure State (P : Type) where
  kernel : Kernel
  pc : P → Pc
  pieces : List (Piece P)

inductive Act (P : Type) where
  | write (p : P) (bs : List UInt8)
  | read (p : P) (n : UInt32)
  | run (p : P)

section Machine

variable {P : Type} [DecidableEq P]

def State.goto (s : State P) (p : P) (c : Pc) : State P :=
  { s with pc := Function.update s.pc p c }

def State.set (s : State P) (k : Kernel) : State P := { s with kernel := k }

def State.record (s : State P) (x : Piece P) : State P := { s with pieces := x :: s.pieces }

def exec {α : Type} (s : State P) (c : KM α) (g : α → State P → State P) :
    Outcome (State P) Panic :=
  match c s.kernel with
  | .ok (a, k) => .done (g a (s.set k))
  | .error .asleep => .blocked
  | .error e => .panic e

def chunk (bs : List UInt8) (j : Nat) : Nat := min (bs.length - j) maxChunk

def runStep (f : Fin NFILE) (s : State P) (p : P) : Outcome (State P) Panic :=
  let ff := s.kernel.ftable f
  match s.pc p with
  | .idle => .blocked
  | .loop bs j =>
    if j < bs.length then exec s (onVol Vol.beginOp) fun _ s => s.goto p (.begun bs j)
    else .done (s.goto p .idle)
  | .begun bs j => exec s (onVol (Vol.ilock ff.ip)) fun _ s => s.goto p (.locked bs j)
  | .locked bs j =>
    exec s (onVol (onFs (writei (fun l => kernelSrc bs (j + l)) ff.ip ff.off
      (UInt32.ofNat (chunk bs j))))) fun r s =>
        let s := s.goto p (.wrote bs j r)
        if 0 < r then s.record ⟨p, true, ff.off.toNat, (bs.drop j).take r.toNat⟩ else s
  | .wrote bs j r => .done ((s.set (s.kernel.advance f r.toNat)).goto p (.moved bs j r))
  | .moved bs j r => exec s (onVol (iunlock ff.ip)) fun _ s => s.goto p (.unlocked bs j r)
  | .unlocked bs j r =>
    -- what `end_op` does is not seen by a kernel that panics
    if 0 ≤ r ∧ r ≠ chunk bs j then .panic .shortFilewrite
    else exec s (onVol Vol.endOp) fun _ s =>
      s.goto p (if r < 0 then .idle else .loop bs (j + chunk bs j))
  | .reading n => exec s (onVol (Vol.ilock ff.ip)) fun _ s => s.goto p (.readLocked n)
  | .readLocked n =>
    exec s (onVol (onFs (readi kernelDst ff.ip ff.off n))) fun bs s =>
      let s := s.goto p (.readDone bs.length)
      if 0 < bs.length then s.record ⟨p, false, ff.off.toNat, bs⟩ else s
  | .readDone m => .done ((s.set (s.kernel.advance f m)).goto p .readMoved)
  | .readMoved => exec s (onVol (iunlock ff.ip)) fun _ s => s.goto p .idle

def next (f : Fin NFILE) (s : State P) : Act P → Outcome (State P) Panic
  | .write p bs =>
    match s.pc p with
    | .idle => .done (s.goto p (.loop bs 0))
    | _ => .blocked
  | .read p n =>
    match s.pc p with
    | .idle => .done (s.goto p (.reading n))
    | _ => .blocked
  | .run p => runStep f s p

/-- The processes that share file `f` of kernel `k`. -/
def machine (P : Type) [DecidableEq P] (f : Fin NFILE) (k : Kernel) :
    Machine (State P) (Act P) Panic where
  init s := s = ⟨k, fun _ => .idle, []⟩
  next := next f

end Machine

section Pieces

variable {P : Type}

def total (xs : List (Piece P)) : Nat := (xs.map fun x => x.bytes.length).sum

/-- What a file that held `c` holds after the pieces have been written. -/
def replay (c : List UInt8) : List (Piece P) → List UInt8
  | [] => c
  | x :: xs => if x.written then splice (replay c xs) x.off x.bytes else replay c xs

def Placed (c : List UInt8) (off : Nat) : List (Piece P) → Prop
  | [] => True
  | x :: xs => x.off = off + total xs ∧ x.off ≤ (replay c xs).length ∧ Placed c off xs

theorem total_cons (x : Piece P) (xs : List (Piece P)) :
    total (x :: xs) = total xs + x.bytes.length := by
  rw [total, List.map_cons, List.sum_cons, Nat.add_comm, total]

theorem Placed.pairwise {c : List UInt8} {off : Nat} {xs : List (Piece P)} (h : Placed c off xs) :
    (∀ x ∈ xs, x.off + x.bytes.length ≤ off + total xs) ∧
      xs.Pairwise fun later earlier => earlier.off + earlier.bytes.length ≤ later.off := by
  induction xs with
  | nil => exact ⟨fun _ hx => (nomatch hx), List.Pairwise.nil⟩
  | cons x xs ih =>
    obtain ⟨hx, -, hxs⟩ := h
    obtain ⟨hle, hp⟩ := ih hxs
    rw [total_cons]
    constructor
    · intro y hy
      rcases List.mem_cons.mp hy with rfl | hy
      · omega
      · have := hle y hy
        omega
    · refine List.Pairwise.cons (fun y hy => ?_) hp
      rw [hx]
      exact hle y hy

theorem Placed.kept {c : List UInt8} {off : Nat} {xs : List (Piece P)} (h : Placed c off xs)
    {x : Piece P} (hx : x ∈ xs) (hw : x.written = true) :
    ((replay c xs).drop x.off).take x.bytes.length = x.bytes := by
  induction xs with
  | nil => cases hx
  | cons y xs ih =>
    obtain ⟨hy, hlen, hxs⟩ := h
    rw [replay]
    rcases List.mem_cons.mp hx with rfl | hx
    · rw [if_pos hw, slice_splice_self hlen]
    · split
      · rw [slice_splice_below hlen, ih hxs hx]
        rw [hy]
        exact hxs.pairwise.1 x hx
      · exact ih hxs hx

theorem Placed.off_eq {c : List UInt8} {off : Nat} {ys : List (Piece P)} {x : Piece P}
    {xs : List (Piece P)} (h : Placed c off (ys ++ x :: xs)) : x.off = off + total xs := by
  induction ys with
  | nil => exact h.1
  | cons y ys ih => exact ih h.2.2

end Pieces

structure Inv {P : Type} (f : Fin NFILE) (ip : Fin NINODE) (i off : Nat) (c : List UInt8)
    (s : State P) (tbl : Nat → Dinode) (holder : Option P) : Prop where
  laid : Laid s.kernel.vol.fs tbl ∅
  refers : Refers s.kernel.vol.fs tbl ip i
  ip_eq : (s.kernel.ftable f).ip = ip
  lock : Lib.Holder.Holds holder Pc.holds s.pc
  locked : s.kernel.vol.locked ip = holder.isSome
  valid : ∀ p, (s.pc p).holds = true → (s.kernel.vol.fs.icache ip).valid = true
  debt : (s.kernel.ftable f).off.toNat + holder.elim 0 (fun p => (s.pc p).debt) =
    off + total s.pieces
  bound : off + total s.pieces < 2 ^ 32
  placed : Placed c off s.pieces
  content : content s.kernel.vol.fs.data (tbl i) = replay c s.pieces

section Parts

variable {P : Type} {f : Fin NFILE} {ip : Fin NINODE} {i off : Nat} {c : List UInt8} {s : State P}
  {tbl : Nat → Dinode} {holder : Option P} {p : P} {k' : Kernel}

theorem exec_done {α : Type} {e : KM α} {g : α → State P → State P} {s' : State P}
    (h : exec s e g = .done s') : ∃ a k, e s.kernel = .ok (a, k) ∧ s' = g a (s.set k) := by
  unfold exec at h
  split at h
  next a k he =>
    cases h
    exact ⟨a, k, he, rfl⟩
  · cases h
  · cases h

theorem iunlock_ok {k : Kernel} {u : Unit} (hk : onVol (iunlock ip) k = .ok (u, k')) :
    k' = k.setVol (k.vol.setLocked ip false) := by
  rw [onVol, zoom, Fs.iunlock, get_bind] at hk
  split at hk
  next a v hv =>
    split at hv
    · cases hv
    · cases hv
      cases hk
      rfl
  · cases hk

theorem onFs_ok {α : Type} {e : FsM α} {k : Kernel} {a : α} (hk : onVol (onFs e) k = .ok (a, k')) :
    ∃ s', e k.vol.fs = .ok (a, s') ∧ k' = k.setFs s' := by
  rw [onVol, zoom, onFs, zoom] at hk
  split at hk
  next b v hv =>
    split at hv
    next b' s' hs =>
      cases hv
      cases hk
      exact ⟨s', hs, rfl⟩
    · cases hv
  · cases hk

theorem Inv.holds (h : Inv f ip i off c s tbl holder) (hp : (s.pc p).holds = true) :
    Holds s.kernel.vol.fs tbl ip i :=
  ⟨h.refers.ref, h.valid p hp, h.refers.inum, h.refers.inUse⟩

theorem Inv.off_eq (h : Inv f ip i off c s tbl holder) (hp : (s.pc p).holds = true) :
    (s.kernel.ftable f).off.toNat + (s.pc p).debt = off + total s.pieces := by
  have hdebt := h.debt
  rw [h.lock.lock_eq hp] at hdebt
  exact hdebt

theorem ilock_locked {k : Kernel} (hr : 0 < (k.vol.fs.icache ip).ref) (hl : k.vol.locked ip = true) :
    onVol (Vol.ilock ip) k = .error .asleep := by
  have hsleep : acquiresleep ip k.vol = .error .asleep := by
    rw [acquiresleep, get_bind, if_pos hl]
    rfl
  have href : ¬ (k.vol.inode ip).ref < 1 := Nat.not_lt.mpr hr
  have hrun : Vol.ilock ip k.vol = .error .asleep := by
    rw [Vol.ilock, get_bind, if_neg href, bind_of_error hsleep]
  rw [onVol, zoom, hrun]

end Parts

section Steps

variable {P : Type} [DecidableEq P] {f : Fin NFILE} {ip : Fin NINODE} {i off : Nat} {c : List UInt8}
  {s : State P} {tbl : Nat → Dinode} {holder : Option P} {p : P} {k' : Kernel} {pc' : Pc}

theorem elim_update (holder : Option P) (pc : P → Pc) (hd : pc'.debt = (pc p).debt) :
    holder.elim 0 (fun q => (Function.update pc p pc' q).debt) =
      holder.elim 0 (fun q => (pc q).debt) := by
  cases holder with
  | none => rfl
  | some q =>
    change (Function.update pc p pc' q).debt = (pc q).debt
    by_cases hq : q = p
    · rw [hq, Function.update_self, hd]
    · rw [Function.update_of_ne hq]

theorem Inv.move (h : Inv f ip i off c s tbl holder) (hsb : k'.vol.fs.sb = s.kernel.vol.fs.sb)
    (hd : k'.vol.fs.data = s.kernel.vol.fs.data) (hc : k'.vol.fs.icache = s.kernel.vol.fs.icache)
    (hl : k'.vol.locked = s.kernel.vol.locked) (hf : k'.ftable = s.kernel.ftable)
    (hh : pc'.holds = (s.pc p).holds) (hdebt : pc'.debt = (s.pc p).debt) :
    Inv f ip i off c ((s.set k').goto p pc') tbl holder where
  laid := h.laid.of_eq hsb hd hc
  refers := by
    refine ⟨?_, ?_, ?_⟩
    · exact hc ▸ h.refers.ref
    · exact hc ▸ h.refers.inum
    · exact hsb ▸ h.refers.inUse
  ip_eq := by
    change (k'.ftable f).ip = ip
    rw [hf]
    exact h.ip_eq
  lock := h.lock.step hh
  locked := by
    change k'.vol.locked ip = _
    rw [hl]
    exact h.locked
  valid q := by
    change (Function.update s.pc p pc' q).holds = true → (k'.vol.fs.icache ip).valid = true
    rw [hc]
    by_cases hq : q = p
    · rw [hq, Function.update_self, hh]
      exact h.valid p
    · rw [Function.update_of_ne hq]
      exact h.valid q
  debt := by
    change (k'.ftable f).off.toNat + holder.elim 0 (fun q => (Function.update s.pc p pc' q).debt) = _
    rw [hf, elim_update holder s.pc hdebt]
    exact h.debt
  bound := h.bound
  placed := h.placed
  content := by
    change Fs.content k'.vol.fs.data (tbl i) = _
    rw [hd]
    exact h.content

theorem Inv.goto (h : Inv f ip i off c s tbl holder) (hh : pc'.holds = (s.pc p).holds)
    (hdebt : pc'.debt = (s.pc p).debt) : Inv f ip i off c (s.goto p pc') tbl holder := by
  have hkeep : Inv f ip i off c ((s.set s.kernel).goto p pc') tbl holder :=
    h.move rfl rfl rfl rfl rfl hh hdebt
  exact hkeep

theorem Inv.ilock (h : Inv f ip i off c s tbl holder) {u : Unit}
    (hk : onVol (Vol.ilock ip) s.kernel = .ok (u, k')) (hh : pc'.holds = true)
    (hdebt : pc'.debt = 0) :
    Inv f ip i off c ((s.set k').goto p pc') tbl (some p) := by
  have hu : s.kernel.vol.locked ip = false := by
    by_contra hl
    rw [ilock_locked h.refers.ref (by simpa using hl)] at hk
    cases hk
  have hnone : holder = none := by
    have := h.locked
    rw [hu] at this
    exact Option.isSome_eq_false_iff.mp this.symm |> Option.isNone_iff_eq_none.mp
  have o : Opened s.kernel tbl f ip i := ⟨h.laid, h.refers, hu, h.ip_eq⟩
  rw [o.ilock] at hk
  cases hk
  obtain ⟨-, hlaid, hholds⟩ := h.laid.ilock h.refers (Set.notMem_empty i)
  have hold := h.debt
  rw [hnone] at hold
  refine ⟨hlaid, hholds.refers, h.ip_eq, h.lock.acquire hnone hh, Function.update_self .., ?_, ?_,
    h.bound, h.placed, h.content⟩
  · intro q _
    exact hholds.valid
  · change (s.kernel.ftable f).off.toNat + (Function.update s.pc p pc' p).debt = _
    rw [Function.update_self, hdebt]
    exact hold

theorem Inv.iunlock (h : Inv f ip i off c s tbl holder) {u : Unit}
    (hk : onVol (iunlock ip) s.kernel = .ok (u, k')) (hp : (s.pc p).holds = true)
    (hpd : (s.pc p).debt = 0) (hh : pc'.holds = false) :
    Inv f ip i off c ((s.set k').goto p pc') tbl none := by
  have hoff := h.off_eq hp
  rw [hpd] at hoff
  have hholder := h.lock.lock_eq hp
  have hlock := h.lock
  rw [hholder] at hlock
  obtain rfl := iunlock_ok hk
  have hrel := hlock.release hp hh
  refine ⟨h.laid, h.refers, h.ip_eq, hrel, Function.update_self .., ?_, hoff, h.bound, h.placed,
    h.content⟩
  intro q hq
  have hq' : (Function.update s.pc p pc' q).holds = true := hq
  rw [hrel.free rfl q] at hq'
  cases hq'

theorem Inv.advance (h : Inv f ip i off c s tbl holder) (hp : (s.pc p).holds = true)
    (hh : pc'.holds = true) (hdebt : pc'.debt = 0) :
    Inv f ip i off c ((s.set (s.kernel.advance f (s.pc p).debt)).goto p pc') tbl holder := by
  have hoff := h.off_eq hp
  have hbound := h.bound
  have hholder := h.lock.lock_eq hp
  have hfile := advance_file s.kernel f (s.pc p).debt
  refine ⟨h.laid, h.refers, ?_, h.lock.step (hh.trans hp.symm), h.locked, ?_, ?_, h.bound, h.placed,
    h.content⟩
  · change ((s.kernel.advance f (s.pc p).debt).ftable f).ip = ip
    rw [hfile]
    exact h.ip_eq
  · intro q _
    exact h.valid p hp
  · change ((s.kernel.advance f (s.pc p).debt).ftable f).off.toNat +
      holder.elim 0 (fun q => (Function.update s.pc p pc' q).debt) = off + total s.pieces
    rw [hfile, hholder]
    change ((s.kernel.ftable f).off + UInt32.ofNat (s.pc p).debt).toNat +
      (Function.update s.pc p pc' p).debt = off + total s.pieces
    rw [Function.update_self, hdebt, UInt32.toNat_add, UInt32.toNat_ofNat',
      Nat.mod_eq_of_lt (b := 2 ^ 32) (by omega), Nat.mod_eq_of_lt (by omega), hoff]
    rfl

theorem length_piece (bs : List UInt8) (j : Nat) :
    ((bs.drop j).take (chunk bs j)).length = chunk bs j := by
  rw [List.length_take, List.length_drop, chunk]
  omega

theorem kernelSrc_piece (bs : List UInt8) (j l : Nat)
    (hl : l < ((bs.drop j).take (chunk bs j)).length) :
    kernelSrc bs (j + l) = some ((bs.drop j).take (chunk bs j))[l] := by
  have hlt : j + l < bs.length := by
    rw [length_piece, chunk] at hl
    omega
  rw [kernelSrc, List.getElem_take, List.getElem_drop, List.getD_eq_getElem?_getD,
    List.getElem?_eq_getElem hlt, Option.getD_some]

theorem Inv.write (h : Inv f ip i off c s tbl holder) {bs : List UInt8} {j : Nat}
    (hp : s.pc p = .locked bs j) {r : Int} {s' : Fs.State}
    (hw : writei (fun l => kernelSrc bs (j + l)) ip (s.kernel.ftable f).off
      (UInt32.ofNat (chunk bs j)) s.kernel.vol.fs = .ok (r, s')) :
    ∃ tbl', Inv f ip i off c
      (if 0 < r then ((s.set (s.kernel.setFs s')).goto p (.wrote bs j r)).record
          ⟨p, true, (s.kernel.ftable f).off.toNat, (bs.drop j).take r.toNat⟩
        else (s.set (s.kernel.setFs s')).goto p (.wrote bs j r)) tbl' holder := by
  have hh : (s.pc p).holds = true := by rw [hp]; rfl
  have ho := h.holds hh
  have hoff := h.off_eq hh
  rw [hp] at hoff
  have hoff' : (s.kernel.ftable f).off.toNat = off + total s.pieces := hoff
  have hholder := h.lock.lock_eq hh
  have hn : (UInt32.ofNat (chunk bs j)).toNat = chunk bs j := by
    have hle : chunk bs j ≤ maxChunk := Nat.min_le_right ..
    have hlt : maxChunk < 2 ^ 32 := by decide
    rw [UInt32.toNat_ofNat', Nat.mod_eq_of_lt (by omega)]
  by_cases hf : Fits (tbl i) (s.kernel.ftable f).off (UInt32.ofNat (chunk bs j))
  · have hmeets := writei_meets (B := load s.kernel.vol.fs (tbl i) +
      2 * blocksLeft (s.kernel.ftable f).off.toNat (UInt32.ofNat (chunk bs j)).toNat 0)
      (fun l => kernelSrc bs (j + l)) h.laid ho hf le_rfl
      (id : Room s.kernel.vol.fs.sb s.kernel.vol.fs.data (tbl i) _ → _) (Nat.le_add_right ..)
    obtain ⟨rfl, r₀, hi, tbl', w, -⟩ := hmeets.of_ok hw
    obtain ⟨rfl, rfl⟩ := w.complete fun _ _ => rfl
    have hmax : (s.kernel.ftable f).off.toNat + chunk bs j ≤ 274432 := by
      have := hf.2
      rwa [hn] at this
    rw [hn] at w ⊢
    have ho' := w.holds ho
    have hcontent : Fs.content s'.data (tbl' i) =
        splice (replay c s.pieces) (s.kernel.ftable f).off.toNat ((bs.drop j).take (chunk bs j)) := by
      rw [← h.content]
      rw [← length_piece bs j] at w
      exact w.content_self ho.inUse hf.1 (kernelSrc_piece bs j)
    have hlen : (s.kernel.ftable f).off.toNat ≤ (replay c s.pieces).length := by
      rw [← h.content, length_content]
      exact hf.1
    have hvalid : ∀ q, (Function.update s.pc p (Pc.wrote bs j (chunk bs j)) q).holds = true →
        (s'.icache ip).valid = true := fun _ _ => ho'.valid
    have hlock : Lib.Holder.Holds holder Pc.holds
        (Function.update s.pc p (.wrote bs j (chunk bs j))) := h.lock.step (by rw [hp]; rfl)
    have hdebt : (Function.update s.pc p (Pc.wrote bs j (chunk bs j)) p).debt = chunk bs j := by
      rw [Function.update_self]
      rfl
    refine ⟨tbl', ?_⟩
    split
    next hpos =>
      rw [Int.toNat_natCast]
      refine ⟨w.laid, ho'.refers, h.ip_eq, hlock, h.locked, hvalid, ?_, ?_, ⟨hoff', hlen, h.placed⟩,
        hcontent⟩
      · change (s.kernel.ftable f).off.toNat + holder.elim 0 (fun q =>
          (Function.update s.pc p (Pc.wrote bs j (chunk bs j)) q).debt) = off + total (_ :: s.pieces)
        rw [total_cons, hholder, length_piece]
        change _ + (Function.update s.pc p (Pc.wrote bs j (chunk bs j)) p).debt = _
        omega
      · change off + total (_ :: s.pieces) < 2 ^ 32
        rw [total_cons, length_piece]
        omega
    next hzero =>
      have hz : chunk bs j = 0 := by omega
      refine ⟨w.laid, ho'.refers, h.ip_eq, hlock, h.locked, hvalid, ?_, h.bound, h.placed, ?_⟩
      · change (s.kernel.ftable f).off.toNat + holder.elim 0 (fun q =>
          (Function.update s.pc p (Pc.wrote bs j (chunk bs j)) q).debt) = off + total s.pieces
        rw [hholder]
        change _ + (Function.update s.pc p (Pc.wrote bs j (chunk bs j)) p).debt = _
        omega
      · rw [hz, List.take_zero, splice_nil] at hcontent
        exact hcontent
  · rw [writei_refuses h.laid ho hf] at hw
    cases hw
    rw [if_neg (by decide)]
    exact ⟨tbl, h.move rfl rfl rfl rfl rfl (by rw [hp]; rfl) (by rw [hp]; rfl)⟩

theorem Inv.read (h : Inv f ip i off c s tbl holder) {n : UInt32} (hp : s.pc p = .readLocked n)
    {bs : List UInt8} {s' : Fs.State}
    (hr : readi kernelDst ip (s.kernel.ftable f).off n s.kernel.vol.fs = .ok (bs, s')) :
    Inv f ip i off c
      (if 0 < bs.length then ((s.set (s.kernel.setFs s')).goto p (.readDone bs.length)).record
          ⟨p, false, (s.kernel.ftable f).off.toNat, bs⟩
        else (s.set (s.kernel.setFs s')).goto p (.readDone bs.length)) tbl holder := by
  have hh : (s.pc p).holds = true := by rw [hp]; rfl
  have ho := h.holds hh
  have hoff := h.off_eq hh
  rw [hp] at hoff
  have hoff' : (s.kernel.ftable f).off.toNat = off + total s.pieces := hoff
  have hholder := h.lock.lock_eq hh
  have hsize : (tbl i).size.toNat ≤ 274432 := h.laid.files.size_le i h.refers.inUse
  rw [h.laid.readi ho kernelDst_accepts] at hr
  obtain ⟨hbs, rfl⟩ := Prod.mk.inj (Except.ok.inj hr)
  split
  next hpos =>
    have hle : (s.kernel.ftable f).off.toNat + bs.length ≤ (tbl i).size.toNat := by
      split at hbs
      · rw [← hbs, List.length_take, List.length_drop, length_content] at hpos ⊢
        omega
      · rw [← hbs] at hpos
        exact absurd hpos (lt_irrefl 0)
    refine ⟨h.laid, h.refers, h.ip_eq, h.lock.step (by rw [hp]; rfl), h.locked,
      fun _ _ => ho.valid, ?_, ?_, ⟨hoff', ?_, h.placed⟩, h.content⟩
    · change (s.kernel.ftable f).off.toNat + holder.elim 0 (fun q =>
        (Function.update s.pc p (Pc.readDone bs.length) q).debt) = off + total (_ :: s.pieces)
      rw [total_cons, hholder]
      change _ + (Function.update s.pc p (Pc.readDone bs.length) p).debt = off + (_ + bs.length)
      rw [Function.update_self]
      change _ + bs.length = _
      omega
    · change off + total (_ :: s.pieces) < 2 ^ 32
      rw [total_cons]
      change off + (total s.pieces + bs.length) < _
      omega
    · change (s.kernel.ftable f).off.toNat ≤ (replay c s.pieces).length
      rw [← h.content, length_content]
      exact Nat.le_of_add_right_le hle
  next hzero =>
    have hz : bs.length = 0 := by omega
    rw [hz]
    exact h.move rfl rfl rfl rfl rfl (by rw [hp]; rfl) (by rw [hp]; rfl)

theorem Inv.runStep (h : Inv f ip i off c s tbl holder) {s' : State P}
    (hn : runStep f s p = .done s') : ∃ tbl' holder', Inv f ip i off c s' tbl' holder' := by
  simp only [Shared.runStep] at hn
  rw [h.ip_eq] at hn
  split at hn
  next => cases hn
  next bs j hp =>
    split at hn
    · obtain ⟨u, k, hk, rfl⟩ := exec_done hn
      obtain ⟨v, hv, rfl⟩ := onFs_ok hk
      rw [Fs.beginOp, get_bind] at hv
      split at hv
      · cases hv
      · cases hv
        exact ⟨tbl, holder, h.move rfl rfl rfl rfl rfl (by rw [hp]; rfl) (by rw [hp]; rfl)⟩
    · cases hn
      exact ⟨tbl, holder, h.goto (by rw [hp]; rfl) (by rw [hp]; rfl)⟩
  next bs j hp =>
    obtain ⟨u, k, hk, rfl⟩ := exec_done hn
    exact ⟨tbl, some p, h.ilock hk rfl rfl⟩
  next bs j hp =>
    obtain ⟨r, k, hk, rfl⟩ := exec_done hn
    obtain ⟨s₁, hw, rfl⟩ := onFs_ok hk
    obtain ⟨tbl', h'⟩ := h.write hp hw
    exact ⟨tbl', holder, h'⟩
  next bs j r hp =>
    cases hn
    have hdebt : (s.pc p).debt = r.toNat := by rw [hp]; rfl
    rw [← hdebt]
    exact ⟨tbl, holder, h.advance (by rw [hp]; rfl) rfl rfl⟩
  next bs j r hp =>
    obtain ⟨u, k, hk, rfl⟩ := exec_done hn
    exact ⟨tbl, none, h.iunlock hk (by rw [hp]; rfl) (by rw [hp]; rfl) rfl⟩
  next bs j r hp =>
    split at hn
    · cases hn
    · obtain ⟨u, k, hk, rfl⟩ := exec_done hn
      cases hk
      refine ⟨tbl, holder, h.move rfl rfl rfl rfl rfl ?_ ?_⟩
      · rw [hp]
        split <;> rfl
      · rw [hp]
        split <;> rfl
  next n hp =>
    obtain ⟨u, k, hk, rfl⟩ := exec_done hn
    exact ⟨tbl, some p, h.ilock hk rfl rfl⟩
  next n hp =>
    obtain ⟨r, k, hk, rfl⟩ := exec_done hn
    obtain ⟨s₁, hr, rfl⟩ := onFs_ok hk
    exact ⟨tbl, holder, h.read hp hr⟩
  next m hp =>
    cases hn
    have hdebt : (s.pc p).debt = m := by rw [hp]; rfl
    rw [← hdebt]
    exact ⟨tbl, holder, h.advance (by rw [hp]; rfl) rfl rfl⟩
  next hp =>
    obtain ⟨u, k, hk, rfl⟩ := exec_done hn
    exact ⟨tbl, none, h.iunlock hk (by rw [hp]; rfl) (by rw [hp]; rfl) rfl⟩

theorem Inv.step (h : Inv f ip i off c s tbl holder) {a : Act P} {s' : State P}
    (hn : next f s a = .done s') : ∃ tbl' holder', Inv f ip i off c s' tbl' holder' := by
  cases a with
  | write p bs =>
    simp only [next] at hn
    split at hn
    next hp =>
      cases hn
      exact ⟨tbl, holder, h.goto (by rw [hp]; rfl) (by rw [hp]; rfl)⟩
    · cases hn
  | read p n =>
    simp only [next] at hn
    split at hn
    next hp =>
      cases hn
      exact ⟨tbl, holder, h.goto (by rw [hp]; rfl) (by rw [hp]; rfl)⟩
    · cases hn
  | run p => exact h.runStep hn

theorem Inv.reachable {k : Kernel} (o : Opened k tbl f ip i)
    (h : Reachable (machine P f k) anyStep s) : ∃ tbl' holder,
      Inv f ip i (k.ftable f).off.toNat (Fs.content k.vol.fs.data (tbl i)) s tbl' holder := by
  refine h.invariant (I := fun s => ∃ tbl' holder, Inv f ip i (k.ftable f).off.toNat
    (Fs.content k.vol.fs.data (tbl i)) s tbl' holder) ?_ ?_
  · rintro s rfl
    refine ⟨tbl, none, o.laid, o.refers, o.ip_eq, Lib.Holder.Holds.init fun _ => rfl, o.unlocked, ?_,
      rfl, UInt32.toNat_lt _, trivial, rfl⟩
    intro q hq
    cases hq
  · rintro s a s' ⟨tbl', holder, hinv⟩ _ hn
    exact hinv.step hn

end Steps

section Results

variable {P : Type} [DecidableEq P]

/-- However the calls of processes that share an open file are interleaved, every piece read or
written starts where the one before it has ended, no chunk overwrites another, and the offset is
the first one plus all that has been moved whenever nobody has the inode locked. -/
theorem shared_file_loses_nothing {k : Kernel} {tbl : Nat → Dinode} {f : Fin NFILE}
    {ip : Fin NINODE} {i : Nat} (o : Opened k tbl f ip i) {s : State P}
    (h : Reachable (machine P f k) anyStep s) :
    (∀ ys x xs, s.pieces = ys ++ x :: xs → x.off = (k.ftable f).off.toNat + total xs) ∧
      (s.pieces.Pairwise fun later earlier => earlier.off + earlier.bytes.length ≤ later.off) ∧
      (∃ tbl', Laid s.kernel.vol.fs tbl' ∅ ∧ InUse s.kernel.vol.fs.sb tbl' i ∧
        content s.kernel.vol.fs.data (tbl' i) =
          replay (content k.vol.fs.data (tbl i)) s.pieces ∧
        ∀ x ∈ s.pieces, x.written = true →
          ((content s.kernel.vol.fs.data (tbl' i)).drop x.off).take x.bytes.length = x.bytes) ∧
      ((∀ p, (s.pc p).holds = false) →
        (s.kernel.ftable f).off.toNat = (k.ftable f).off.toNat + total s.pieces) := by
  obtain ⟨tbl', holder, hinv⟩ := Inv.reachable o h
  refine ⟨fun ys x xs hs => ?_, hinv.placed.pairwise.2, ⟨tbl', hinv.laid, hinv.refers.inUse,
    hinv.content, fun x hx hw => ?_⟩, fun hfree => ?_⟩
  · have hplaced := hinv.placed
    rw [hs] at hplaced
    exact hplaced.off_eq
  · rw [hinv.content]
    exact hinv.placed.kept hx hw
  · have hnone : holder = none := by
      cases hh : holder with
      | none => rfl
      | some p =>
        have hp := (hinv.lock p).mp hh
        rw [hfree p] at hp
        cases hp
    have hdebt := hinv.debt
    rw [hnone] at hdebt
    exact hdebt

def twoWriters : List (Act Bool) :=
  [.write false [1, 2], .write true [3, 4], .run false, .run true] ++
    List.replicate 4 (.run true) ++ List.replicate 5 (.run false) ++ [.run true]

theorem shared_file_loses_nothing_two : ∃ s : State Bool,
    Reachable (machine Bool ⟨0, by decide⟩ (tinyKernel 8)) anyStep s ∧
      s.pieces.map (fun x => (x.proc, x.off, x.bytes)) = [(false, 2, [1, 2]), (true, 0, [3, 4])] ∧
      (s.kernel.ftable ⟨0, by decide⟩).off.toNat = 4 := by
  have h : ((perform (machine Bool ⟨0, by decide⟩ (tinyKernel 8)) (fun _ _ => true)
      ⟨tinyKernel 8, fun _ => .idle, []⟩ twoWriters).any fun s =>
        decide (s.pieces.map (fun x => (x.proc, x.off, x.bytes)) =
          [(false, 2, [1, 2]), (true, 0, [3, 4])] ∧ ∀ p, (s.pc p).holds = false)) = true := by
    decide +kernel
  obtain ⟨s, hreach, hs⟩ := Reachable.of_perform (P := anyStep) h rfl fun _ _ _ => trivial
  obtain ⟨hpieces, hfree⟩ := of_decide_eq_true hs
  refine ⟨s, hreach, hpieces, ?_⟩
  have hoff := (shared_file_loses_nothing (tinyKernel_opened (Or.inr rfl)) hreach).2.2.2 hfree
  have htotal : total s.pieces = ((s.pieces.map (fun x => (x.proc, x.off, x.bytes))).map
      fun y => y.2.2.length).sum := by
    rw [List.map_map]
    rfl
  rw [hoff, htotal, hpieces]
  rfl

end Results

end Xv6.Sysfile.Shared

import Xv6.Fs.Inode
import Xv6.Lib.Transition

namespace Xv6.Icache

open Fs Lib.Transition

/-- What a process that frees an inode in `iput` does next. -/
inductive Stage where
  | truncate
  | clear
  | update
  | invalidate
  | unlock
  | drop
  deriving DecidableEq

/-- Where a process is; `r` is the reference that the call was given. -/
inductive Pc (M : Nat) where
  | idle
  /-- `ialloc` is about to look at inode `inum`. -/
  | search (dev : Nat) (type : Int16) (inum : Nat)
  /-- `ialloc` has marked the inode as allocated and is about to call `iget`. -/
  | claimed (dev inum gen : Nat)
  /-- `ilock` is in `acquiresleep`. -/
  | acquire (r : Fin M)
  /-- `ilock` has the lock and is about to test `valid`. -/
  | load (r : Fin M)
  | free (stage : Stage) (r : Fin M)
  deriving DecidableEq

/-- A reference to an entry of the cache. Processes that share an open file share its reference.
`late` and `gen` are not in the source: whether the reference was made while its inode was being
freed, and which allocation of its inode it comes from. -/
structure Ref (N : Nat) where
  entry : Fin NINODE
  holders : Fin N → Bool
  late : Bool
  gen : Option Nat

/-- The inode cache, the inodes on disk by device and number, and the processes. `gen` and `read`
are not in the source: how often an inode has been allocated, and the allocation that the fields
of an entry were read after. -/
structure State (N M : Nat) where
  cache : Fin NINODE → Inode
  lock : Fin NINODE → Option (Fin N × Fin M)
  disk : Nat × Nat → Dinode
  ref : Fin M → Option (Ref N)
  pc : Fin N → Pc M
  gen : Nat × Nat → Nat
  read : Fin NINODE → Nat

/-- `sleeping`: `acquiresleep` has to wait while `icache.lock` is held. -/
inductive Trap where
  | panic (e : Panic)
  | sleeping
  deriving DecidableEq

variable {N M : Nat}

namespace Ref

def setHolder (x : Ref N) (p : Fin N) (b : Bool) : Ref N :=
  { x with holders := Function.update x.holders p b }

end Ref

def key (i : Inode) : Nat × Nat := (i.dev, i.inum)

def withRef (i : Inode) (n : Nat) : Inode := { i with ref := n }

def withFields (i : Inode) (d : Dinode) : Inode := { i with toDinode := d }

def filled (i : Inode) (d : Dinode) : Inode := { i with toDinode := d, valid := true }

def invalidated (i : Inode) : Inode := { i with valid := false }

def recycled (i : Inode) (k : Nat × Nat) : Inode :=
  { i with dev := k.1, inum := k.2, ref := 1, valid := false }

def truncated (d : Dinode) : Dinode := { d with size := 0, addrs := fun _ => 0 }

def cleared (d : Dinode) : Dinode := { d with type := 0 }

/-- What `ialloc` writes to disk. -/
def allocated (type : Int16) : Dinode := { Dinode.zero with type := type }

namespace State

variable (s : State N M)

def entry (r : Fin M) : Option (Fin NINODE) := (s.ref r).map Ref.entry

def holds (r : Fin M) (p : Fin N) : Bool := (s.ref r).elim false fun x => x.holders p

def setPc (p : Fin N) (x : Pc M) : State N M := { s with pc := Function.update s.pc p x }

def setLock (ip : Fin NINODE) (o : Option (Fin N × Fin M)) : State N M :=
  { s with lock := Function.update s.lock ip o }

def setEntry (ip : Fin NINODE) (i : Inode) : State N M :=
  { s with cache := Function.update s.cache ip i }

def setRef (r : Fin M) (o : Option (Ref N)) : State N M :=
  { s with ref := Function.update s.ref r o }

def write (k : Nat × Nat) (d : Dinode) : State N M :=
  { s with disk := Function.update s.disk k d }

def Freed (ip : Fin NINODE) : Prop :=
  ∃ p r st, s.pc p = .free st r ∧ s.entry r = some ip

end State

instance : Fintype Stage :=
  ⟨{.truncate, .clear, .update, .invalidate, .unlock, .drop}, fun st => by cases st <;> decide⟩

instance (s : State N M) (ip : Fin NINODE) : Decidable (s.Freed ip) :=
  inferInstanceAs (Decidable (∃ _ _ _, _))

/-- A new reference of process `p` to an entry. -/
def newRef (s : State N M) (p : Fin N) (ip : Fin NINODE) (gen : Option Nat) : Ref N :=
  ⟨ip, fun q => decide (q = p), decide (s.Freed ip), gen⟩

/-- `iget`, which is one section of `icache.lock`. -/
def iget (s : State N M) (p : Fin N) (r : Fin M) (k : Nat × Nat) (gen : Option Nat) :
    Outcome (State N M) Trap :=
  match (List.finRange NINODE).find? fun ip => 0 < (s.cache ip).ref ∧ key (s.cache ip) = k with
  | some ip =>
    .done ((s.setEntry ip (withRef (s.cache ip) ((s.cache ip).ref + 1))).setRef r
      (some (newRef s p ip gen)))
  | none =>
    match (List.finRange NINODE).find? fun ip => (s.cache ip).ref = 0 with
    | some ip =>
      .done ((s.setEntry ip (recycled (s.cache ip) k)).setRef r (some (newRef s p ip gen)))
    | none => .panic (.panic .igetNoInodes)

/-- The last section of `iput`. -/
def dropRef (s : State N M) (r : Fin M) (ip : Fin NINODE) : State N M :=
  (s.setEntry ip (withRef (s.cache ip) ((s.cache ip).ref - 1))).setRef r none

/-- The first section of `iput`, or all of it. -/
def iput (s : State N M) (p : Fin N) (r : Fin M) (ip : Fin NINODE) : Outcome (State N M) Trap :=
  let i := s.cache ip
  if i.ref = 1 ∧ i.valid = true ∧ i.nlink = 0 then
    match s.lock ip with
    | none => .done ((s.setLock ip (some (p, r))).setPc p (.free .truncate r))
    | some _ => .panic .sleeping
  else .done (dropRef s r ip)

/-- What `iput` does to free the inode of an entry, one step at a time. -/
def freeStep (s : State N M) (p : Fin N) (r : Fin M) (ip : Fin NINODE) : Stage → State N M
  | .truncate =>
    let d := truncated (s.cache ip).toDinode
    ((s.setEntry ip (withFields (s.cache ip) d)).write (key (s.cache ip)) d).setPc p (.free .clear r)
  | .clear =>
    (s.setEntry ip (withFields (s.cache ip) (cleared (s.cache ip).toDinode))).setPc p
      (.free .update r)
  | .update => (s.write (key (s.cache ip)) (s.cache ip).toDinode).setPc p (.free .invalidate r)
  | .invalidate => (s.setEntry ip (invalidated (s.cache ip))).setPc p (.free .unlock r)
  | .unlock => (s.setLock ip none).setPc p (.free .drop r)
  | .drop => (dropRef s r ip).setPc p .idle

/-- `ilock` reads the fields if they are not valid. -/
def load (s : State N M) (p : Fin N) (ip : Fin NINODE) : Outcome (State N M) Trap :=
  let i := s.cache ip
  if i.valid then .done (s.setPc p .idle)
  else if (s.disk (key i)).type = 0 then .panic (.panic .ilockNoType)
  else
    .done { (s.setEntry ip (filled i (s.disk (key i)))).setPc p .idle with
      read := Function.update s.read ip (s.gen (key i)) }

/-- One turn of the loop of `ialloc`. -/
def search (ninodes : Nat) (s : State N M) (p : Fin N) (dev : Nat) (type : Int16) (inum : Nat) :
    Outcome (State N M) Trap :=
  if inum < ninodes then
    if (s.disk (dev, inum)).type = 0 then
      let g := s.gen (dev, inum) + 1
      .done { (s.write (dev, inum) (allocated type)).setPc p (.claimed dev inum g) with
        gen := Function.update s.gen (dev, inum) g }
    else .done (s.setPc p (.search dev type (inum + 1)))
  else .panic (.panic .iallocNoInodes)

inductive Act (N M : Nat) where
  | iget (p : Fin N) (r : Fin M) (dev inum : Nat)
  | idup (p : Fin N) (r r' : Fin M)
  | ilock (p : Fin N) (r : Fin M)
  | iunlock (p : Fin N) (r : Fin M)
  | iput (p : Fin N) (r : Fin M)
  | ialloc (p : Fin N) (dev : Nat) (type : Int16)
  /-- The holder of the lock changes the fields and calls `iupdate`. -/
  | change (p : Fin N) (r : Fin M) (d : Dinode)
  /-- Process `q` gets a share in a reference, as by `fork`. -/
  | share (p : Fin N) (r : Fin M) (q : Fin N)
  | leave (p : Fin N) (r : Fin M)
  /-- `ialloc` ends with `iget`. -/
  | finish (p : Fin N) (r : Fin M)
  | go (p : Fin N)

def call (s : State N M) (p : Fin N) (r : Fin M) (c : Ref N → Outcome (State N M) Trap) :
    Outcome (State N M) Trap :=
  match s.pc p, s.ref r with
  | .idle, some x => if x.holders p then c x else .blocked
  | _, _ => .blocked

def next (ninodes : Nat) (s : State N M) : Act N M → Outcome (State N M) Trap
  | .iget p r dev inum =>
    match s.pc p, s.ref r with
    | .idle, none => iget s p r (dev, inum) none
    | _, _ => .blocked
  | .idup p r r' =>
    call s p r fun x =>
      match s.ref r' with
      | none =>
        .done ((s.setEntry x.entry (withRef (s.cache x.entry) ((s.cache x.entry).ref + 1))).setRef r'
          (some (newRef s p x.entry x.gen)))
      | some _ => .blocked
  | .ilock p r =>
    call s p r fun x =>
      if (s.cache x.entry).ref < 1 then .panic (.panic .ilock) else .done (s.setPc p (.acquire r))
  | .iunlock p r =>
    call s p r fun x =>
      if (s.lock x.entry).map Prod.fst = some p ∧ 1 ≤ (s.cache x.entry).ref then
        .done (s.setLock x.entry none)
      else .panic (.panic .iunlock)
  | .iput p r =>
    call s p r fun x =>
      if (∀ q, x.holders q = true → q = p) ∧ s.lock x.entry ≠ some (p, r) then iput s p r x.entry
      else .blocked
  | .ialloc p dev type =>
    if s.pc p = .idle ∧ type ≠ 0 then .done (s.setPc p (.search dev type 1)) else .blocked
  | .change p r d =>
    call s p r fun x =>
      if s.lock x.entry = some (p, r) ∧ d.type ≠ 0 then
        .done ((s.setEntry x.entry (withFields (s.cache x.entry) d)).write (key (s.cache x.entry)) d)
      else .blocked
  | .share p r q => call s p r fun x => .done (s.setRef r (some (x.setHolder q true)))
  | .leave p r =>
    call s p r fun x =>
      if (∃ q, q ≠ p ∧ x.holders q = true) ∧ s.lock x.entry ≠ some (p, r) then
        .done (s.setRef r (some (x.setHolder p false)))
      else .blocked
  | .finish p r =>
    match s.pc p, s.ref r with
    | .claimed dev inum g, none => iget (s.setPc p .idle) p r (dev, inum) (some g)
    | _, _ => .blocked
  | .go p =>
    match s.pc p with
    | .search dev type inum => search ninodes s p dev type inum
    | .acquire r =>
      match s.entry r with
      | some ip =>
        match s.lock ip with
        | none => .done ((s.setLock ip (some (p, r))).setPc p (.load r))
        | some _ => .blocked
      | none => .blocked
    | .load r =>
      match s.entry r with
      | some ip => load s p ip
      | none => .blocked
    | .free st r =>
      match s.entry r with
      | some ip => .done (freeStep s p r ip st)
      | none => .blocked
    | _ => .blocked

structure Init (s : State N M) : Prop where
  cache : ∀ ip, (s.cache ip).ref = 0
  lock : ∀ ip, s.lock ip = none
  ref : ∀ r, s.ref r = none
  pc : ∀ p, s.pc p = .idle

/-- `N` processes with at most `M` references at a time. -/
def machine (ninodes N M : Nat) : Machine (State N M) (Act N M) Trap where
  init := Init
  next := next ninodes

end Xv6.Icache

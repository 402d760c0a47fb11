import Xv6.Fs.Update

namespace Xv6.Fs

open Lib.Command

structure Vol where
  fs : State
  locked : Fin NINODE → Bool
  sizes : List Nat

abbrev VolM := Cmd Vol Panic

def onFs {α : Type} (c : FsM α) : VolM α := zoom Vol.fs (fun s v => { v with fs := s }) c

namespace Vol

def inode (v : Vol) (ip : Fin NINODE) : Inode := v.fs.icache ip

def setLocked (v : Vol) (ip : Fin NINODE) (b : Bool) : Vol :=
  { v with locked := Function.update v.locked ip b }

def setInode (v : Vol) (ip : Fin NINODE) (i : Inode) : Vol := { v with fs := v.fs.setInode ip i }

end Vol

def acquiresleep (ip : Fin NINODE) : VolM Unit := do
  let v ← get
  if v.locked ip then throw .asleep
  else modify fun v => v.setLocked ip true

def releasesleep (ip : Fin NINODE) : VolM Unit := modify fun v => v.setLocked ip false

namespace Vol

def beginOp : VolM Unit := onFs Fs.beginOp

def endOp : VolM Unit := do
  modify fun v => { v with sizes := v.fs.logged.length :: v.sizes }
  onFs Fs.endOp

def ilock (ip : Fin NINODE) : VolM Unit := do
  let v ← get
  if (v.inode ip).ref < 1 then throw .ilock
  else
    acquiresleep ip
    onFs (Fs.ilock ip)

end Vol

def iunlock (ip : Fin NINODE) : VolM Unit := do
  let v ← get
  if v.locked ip = false ∨ (v.inode ip).ref < 1 then throw .iunlock
  else releasesleep ip

/-- What `iput` does for the last reference to an inode without links. -/
def ifree (ip : Fin NINODE) : VolM Unit := do
  acquiresleep ip
  onFs (itrunc ip)
  onFs (edit ip fun din => { din with type := 0 })
  onFs (iupdate ip)
  modify fun v => v.setInode ip { v.inode ip with valid := false }
  releasesleep ip

def iput (ip : Fin NINODE) : VolM Unit := do
  let v ← get
  if (v.inode ip).ref = 1 ∧ (v.inode ip).valid = true ∧ (v.inode ip).nlink = 0 then ifree ip
  modify fun v => v.setInode ip { v.inode ip with ref := (v.inode ip).ref - 1 }

def iunlockput (ip : Fin NINODE) : VolM Unit := do
  iunlock ip
  iput ip

/-- Write a new directory entry into the directory `dp`; false if the name is present. -/
def dirlink (dp : Fin NINODE) (name : List UInt8) (inum : Nat) : VolM Bool := do
  match ← onFs (dirlookup dp name) with
  | some (ip, _) =>
    iput ip
    pure false
  | none =>
    onFs (addEntry dp name inum)
    pure true

/-- The loop of `namex`. Every turn takes an element off the path, so it is done before the
first argument is zero. -/
def namexFrom (parent : Bool) :
    Nat → Fin NINODE → List UInt8 → List UInt8 → VolM (Option (Fin NINODE × List UInt8))
  | 0, _, _, _ => pure none
  | fuel + 1, ip, path, name =>
    match skipelem path with
    | none => do
      if parent then
        iput ip
        pure none
      else
        pure (some (ip, name))
    | some (name, path) => do
      Vol.ilock ip
      let v ← get
      if (v.inode ip).type ≠ T_DIR then
        iunlockput ip
        pure none
      else if parent ∧ path = [] then
        -- Stop one level early.
        iunlock ip
        pure (some (ip, name))
      else
        match ← onFs (dirlookup ip name) with
        | none =>
          iunlockput ip
          pure none
        | some (next, _) =>
          iunlockput ip
          namexFrom parent fuel next path name

def namex (cwd : Fin NINODE) (path : List UInt8) (parent : Bool) :
    VolM (Option (Fin NINODE × List UInt8)) := do
  let ip ← if path.head? = some 47 then onFs (iget ROOTDEV ROOTINO) else onFs (idup cwd)
  namexFrom parent (path.length + 1) ip path []

def namei (cwd : Fin NINODE) (path : List UInt8) : VolM (Option (Fin NINODE)) := do
  let r ← namex cwd path false
  pure (r.map Prod.fst)

def nameiparent (cwd : Fin NINODE) (path : List UInt8) :
    VolM (Option (Fin NINODE × List UInt8)) :=
  namex cwd path true

end Xv6.Fs

import Xv6.Lib.Bytes
import Xv6.Lib.Command
import Xv6.Vm.Riscv

namespace Xv6.Vm

open Lib.Bytes Lib.Command

class KernelImage where
  kernelEnd : Nat
  kernelEnd_lo : KERNBASE ≤ kernelEnd
  kernelEnd_hi : kernelEnd ≤ PHYSTOP

export KernelImage (kernelEnd)

abbrev Page := Fin 512 → Nat

/-- A page every byte of which is `b`, as `memset` leaves it. -/
def Page.fill (b : Nat) : Page := fun _ => b * 0x0101010101010101

def Page.byte (p : Page) (i : Nat) : UInt8 :=
  byteOfNat (p ⟨i / 8 % 512, Nat.mod_lt _ (by decide)⟩) (i % 8)

/-- The page with `bytes` put in from offset `off` on. -/
def Page.store (p : Page) (off : Nat) (bytes : List UInt8) : Page := fun i =>
  natOfBytes (fun j =>
    if off ≤ 8 * i.val + j ∧ 8 * i.val + j < off + bytes.length then
      bytes.getD (8 * i.val + j - off) 0
    else p.byte (8 * i.val + j)) 8

abbrev Mem := Nat → Page

/-- Memory and the allocator. `fails` says which of the next calls of `kalloc` find
no memory even if the free list has a page (it runs out earlier or later depending
on what else is running). -/
structure Phys where
  mem : Mem
  freelist : Nat
  fails : List Bool

inductive Panic where
  | kfree
  | walk
  | remap
  | unmapNotAligned
  | unmapWalk
  | unmapNotMapped
  | unmapNotLeaf
  | freewalkLeaf
  | uvmcopyNoPte
  | uvmcopyNotPresent
  | uvmclear
  | loadsegAlign
  | loadsegAddress
  | kerneltrap
  deriving DecidableEq, Repr

abbrev VmM := Cmd Phys Panic

abbrev PtePtr := Nat × Fin 512

def Phys.setPage (s : Phys) (pa : Nat) (p : Page) : Phys :=
  { s with mem := Function.update s.mem pa p }

def Phys.setWord (s : Phys) (pa : Nat) (i : Fin 512) (w : Nat) : Phys :=
  s.setPage pa (Function.update (s.mem pa) i w)

def load (p : PtePtr) : VmM Nat := do
  return (← get).mem p.1 p.2

def store (p : PtePtr) (w : Nat) : VmM Unit :=
  modify fun s => s.setWord p.1 p.2 w

def memset (pa : Nat) (b : Nat) : VmM Unit :=
  modify fun s => s.setPage pa (.fill b)

/-- `memmove` of bytes into the page at `pa`, from offset `off` on. -/
def memmove (pa off : Nat) (bytes : List UInt8) : VmM Unit :=
  modify fun s => s.setPage pa ((s.mem pa).store off bytes)

def Phys.pop (s : Phys) : Phys :=
  { s with
    mem := Function.update s.mem s.freelist (.fill 5)
    freelist := s.mem s.freelist 0 }

def Phys.push (s : Phys) (pa : Nat) : Phys :=
  { s with
    mem := Function.update s.mem pa (Function.update (Page.fill 1) 0 s.freelist)
    freelist := pa }

def kalloc : VmM Nat := do
  let s ← get
  let fail := s.fails.headD false
  let s := { s with fails := s.fails.tail }
  if fail ∨ s.freelist = 0 then
    set s
    return 0
  else
    set s.pop
    return s.freelist

variable [KernelImage]

def kfree (pa : Nat) : VmM Unit :=
  if pa % PGSIZE ≠ 0 ∨ pa < kernelEnd ∨ PHYSTOP ≤ pa then throw .kfree
  else modify (·.push pa)

omit [KernelImage] in
/-- One level of `walk`: the next page table, allocated if there is none yet. -/
def walkLevel (pte : PtePtr) (alloc : Bool) : VmM (Option Nat) := do
  let w ← load pte
  if w &&& PTE_V ≠ 0 then return some (PTE2PA w)
  else if !alloc then return none
  else do
    let pagetable ← kalloc
    if pagetable = 0 then return none
    else do
      memset pagetable 0
      store pte (PA2PTE pagetable ||| PTE_V)
      return some pagetable

omit [KernelImage] in
/-- The levels of `walk` from `level` down to 1. -/
def walkDown (va : Nat) (alloc : Bool) : Nat → Nat → VmM (Option Nat)
  | 0, pagetable => return some pagetable
  | level + 1, pagetable => do
    match ← walkLevel (pagetable, PX (level + 1) va) alloc with
    | none => return none
    | some next => walkDown va alloc level next

omit [KernelImage] in
/-- The entry for `va`; with `alloc`, page tables on the way are created. -/
def walk (pagetable va : Nat) (alloc : Bool) : VmM (Option PtePtr) :=
  if MAXVA ≤ va then throw .walk
  else do
    match ← walkDown va alloc 2 pagetable with
    | none => return none
    | some t => return some (t, PX 0 va)

omit [KernelImage] in
def walkaddr (pagetable va : Nat) : VmM Nat :=
  if MAXVA ≤ va then return 0
  else do
    match ← walk pagetable va false with
    | none => return 0
    | some pte => do
      let w ← load pte
      if w &&& PTE_V = 0 then return 0
      else if w &&& PTE_U = 0 then return 0
      else return PTE2PA w

omit [KernelImage] in
/-- The loop of `mappages`; `true` is success. It ends before `fuel` does because
`walk` stops at `MAXVA`. -/
def mapFrom (pagetable last perm : Nat) : (fuel a pa : Nat) → VmM Bool
  | 0, _, _ => throw .walk
  | fuel + 1, a, pa => do
    match ← walk pagetable a true with
    | none => return false
    | some pte => do
      if (← load pte) &&& PTE_V ≠ 0 then throw .remap
      else do
        store pte (PA2PTE pa ||| perm ||| PTE_V)
        if a = last then return true
        else mapFrom pagetable last perm fuel (a + PGSIZE) ((pa + PGSIZE) % 2 ^ 64)

omit [KernelImage] in
def mappages (pagetable va size pa perm : Nat) : VmM Bool :=
  mapFrom pagetable (PGROUNDDOWN ((va + size + (2 ^ 64 - 1)) % 2 ^ 64)) perm (MAXVA / PGSIZE + 1)
    (PGROUNDDOWN va) pa

/-- The loop of `uvmunmap`, with `npages` turns to go. -/
def unmapFrom (pagetable : Nat) (doFree : Bool) : (npages a : Nat) → VmM Unit
  | 0, _ => return ()
  | npages + 1, a => do
    match ← walk pagetable a false with
    | none => throw .unmapWalk
    | some pte => do
      let w ← load pte
      if w &&& PTE_V = 0 then throw .unmapNotMapped
      else if PTE_FLAGS w = PTE_V then throw .unmapNotLeaf
      else do
        if doFree then kfree (PTE2PA w)
        store pte 0
        unmapFrom pagetable doFree npages (a + PGSIZE)

def uvmunmap (pagetable va npages : Nat) (doFree : Bool) : VmM Unit :=
  if va % PGSIZE ≠ 0 then throw .unmapNotAligned
  else unmapFrom pagetable doFree (((va + npages * PGSIZE) % 2 ^ 64 - va) / PGSIZE) va

omit [KernelImage] in
def uvmcreate : VmM Nat := do
  let pagetable ← kalloc
  if pagetable = 0 then return 0
  else do
    memset pagetable 0
    return pagetable

/-- An `int` that is passed as a `uint64`. -/
def signExtend (n : Nat) : Nat :=
  if n % 2 ^ 32 < 2 ^ 31 then n % 2 ^ 32 else n % 2 ^ 32 + (2 ^ 64 - 2 ^ 32)

/-- Deallocate user pages to bring the process size from `oldsz` to `newsz`: the new size. -/
def uvmdealloc (pagetable oldsz newsz : Nat) : VmM Nat :=
  if oldsz ≤ newsz then return oldsz
  else do
    if PGROUNDUP newsz < PGROUNDUP oldsz then
      uvmunmap pagetable (PGROUNDUP newsz)
        (signExtend ((PGROUNDUP oldsz - PGROUNDUP newsz) / PGSIZE)) true
    return newsz

/-- The loop of `uvmalloc`, with `n` pages to go from `a` on. -/
def allocFrom (pagetable oldsz newsz : Nat) : (n a : Nat) → VmM Nat
  | 0, _ => return newsz
  | n + 1, a => do
    let mem ← kalloc
    if mem = 0 then do
      let _ ← uvmdealloc pagetable a oldsz
      return 0
    else do
      memset mem 0
      if ← mappages pagetable a PGSIZE mem (PTE_W ||| PTE_X ||| PTE_R ||| PTE_U) then
        allocFrom pagetable oldsz newsz n (a + PGSIZE)
      else do
        kfree mem
        let _ ← uvmdealloc pagetable a oldsz
        return 0

/-- Grow a process from `oldsz` to `newsz`: the new size, or 0 on error. The loop goes round once
for each page that begins below `newsz`. -/
def uvmalloc (pagetable oldsz newsz : Nat) : VmM Nat :=
  if newsz < oldsz then return oldsz
  else
    let start := PGROUNDUP oldsz
    allocFrom pagetable start newsz ((newsz - start + (PGSIZE - 1)) / PGSIZE) start

/-- Page tables are freed from the bottom up. The source's recursion has no bound. It ends after
three levels on the tables that `walk` builds; on a fourth the model stops with `kerneltrap`, where
the source would go on, and no result is about such a table. -/
def freewalk : (depth pagetable : Nat) → VmM Unit
  | 0, _ => throw .kerneltrap
  | depth + 1, pagetable => do
    (List.finRange 512).forM fun i => do
      let pte ← load (pagetable, i)
      if pte &&& PTE_V ≠ 0 ∧ pte &&& (PTE_R ||| PTE_W ||| PTE_X) = 0 then do
        freewalk depth (PTE2PA pte)
        store (pagetable, i) 0
      else if pte &&& PTE_V ≠ 0 then throw .freewalkLeaf
    kfree pagetable

def uvmfree (pagetable sz : Nat) : VmM Unit := do
  if 0 < sz then uvmunmap pagetable 0 (PGROUNDUP sz / PGSIZE) true
  freewalk 3 pagetable

omit [KernelImage] in
/-- Take the page at `va` away from user code. -/
def uvmclear (pagetable va : Nat) : VmM Unit := do
  match ← walk pagetable va false with
  | none => throw .uvmclear
  | some pte => do
    let w ← load pte
    store pte (clearBits w PTE_U)

omit [KernelImage] in
/-- The loop of `copyout`. Each turn copies a byte at least. -/
def copyoutFrom (pagetable : Nat) : (fuel dstva : Nat) → List UInt8 → VmM Bool
  | _, _, [] => return true
  | 0, _, _ :: _ => return false
  | fuel + 1, dstva, b :: src => do
    let va0 := PGROUNDDOWN dstva
    let pa0 ← walkaddr pagetable va0
    if pa0 = 0 then return false
    else do
      let n := min (PGSIZE - (dstva - va0)) (b :: src).length
      memmove pa0 (dstva - va0) ((b :: src).take n)
      copyoutFrom pagetable fuel ((va0 + PGSIZE) % 2 ^ 64) ((b :: src).drop n)

omit [KernelImage] in
/-- Copy bytes from the kernel to user memory; `true` is success. -/
def copyout (pagetable dstva : Nat) (src : List UInt8) : VmM Bool :=
  copyoutFrom pagetable src.length dstva src

end Xv6.Vm

import Xv6.Lib.Pointers

namespace Xv6.Umalloc

/-- `union header` -/
structure Header where
  ptr : Nat
  size : Nat

/-- `sizeof(Header)` -/
def sizeofHeader : Nat := 16

/-- Conversion to `uint`. -/
def uint (n : Nat) : Nat := n % 2 ^ 32

def memory : Nat := 2 ^ 27

/-- What the allocator works on: the headers by their addresses, the address of `base`, `freep` if it
is not null, and the break. -/
structure Heap where
  mem : Nat → Header
  base : Nat
  freep : Option Nat
  brk : Nat

namespace Heap

def next (h : Heap) (p : Nat) : Nat := (h.mem p).ptr

def size (h : Heap) (p : Nat) : Nat := (h.mem p).size

/-- The number of bytes from `p` to `p + p->s.size`. -/
def bytes (h : Heap) (p : Nat) : Nat := h.size p * sizeofHeader

def setPtr (h : Heap) (p q : Nat) : Heap :=
  { h with mem := Function.update h.mem p ⟨q, (h.mem p).size⟩ }

def setSize (h : Heap) (p n : Nat) : Heap :=
  { h with mem := Function.update h.mem p ⟨(h.mem p).ptr, n⟩ }

def setFreep (h : Heap) (p : Nat) : Heap := { h with freep := some p }

variable (h : Heap) (p q n : Nat)

@[simp] theorem next_setPtr : (h.setPtr p q).next = Function.update h.next p q := by
  funext x
  by_cases hx : x = p
  · subst hx
    simp [next, setPtr]
  · simp [next, setPtr, hx]

@[simp] theorem size_setPtr : (h.setPtr p q).size = h.size := by
  funext x
  by_cases hx : x = p
  · subst hx
    simp [size, setPtr]
  · simp [size, setPtr, hx]

@[simp] theorem next_setSize : (h.setSize p n).next = h.next := by
  funext x
  by_cases hx : x = p
  · subst hx
    simp [next, setSize]
  · simp [next, setSize, hx]

@[simp] theorem size_setSize : (h.setSize p n).size = Function.update h.size p n := by
  funext x
  by_cases hx : x = p
  · subst hx
    simp [size, setSize]
  · simp [size, setSize, hx]

@[simp] theorem next_setFreep : (h.setFreep p).next = h.next := rfl

@[simp] theorem size_setFreep : (h.setFreep p).size = h.size := rfl

@[simp] theorem brk_setPtr : (h.setPtr p q).brk = h.brk := rfl

@[simp] theorem brk_setSize : (h.setSize p n).brk = h.brk := rfl

@[simp] theorem brk_setFreep : (h.setFreep p).brk = h.brk := rfl

@[simp] theorem freep_setFreep : (h.setFreep p).freep = some p := rfl

end Heap

/-- The loop of `free`, with a bound on its turns. -/
def freeSearch (h : Heap) (bp : Nat) : Nat → Nat → Option Nat
  | 0, _ => none
  | n + 1, p =>
    if bp > p ∧ bp < h.next p then some p
    else if p ≥ h.next p ∧ (bp > p ∨ bp < h.next p) then some p
    else freeSearch h bp n (h.next p)

/-- Join `bp` with the free block above it, or link it to that block. -/
def joinUpper (h : Heap) (p bp : Nat) : Heap :=
  if bp + h.bytes bp = h.next p then
    (h.setSize bp (uint (h.size bp + h.size (h.next p)))).setPtr bp (h.next (h.next p))
  else h.setPtr bp (h.next p)

/-- Join `bp` with the free block below it, or link that block to it. -/
def joinLower (h : Heap) (p bp : Nat) : Heap :=
  if p + h.bytes p = bp then (h.setSize p (uint (h.size p + h.size bp))).setPtr p (h.next bp)
  else h.setPtr p bp

/-- `free`, for the block whose header is at `bp`. -/
def free (h : Heap) (bp : Nat) : Option Heap := do
  let p ← freeSearch h bp (memory + 2) (← h.freep)
  return (joinLower (joinUpper h p bp) p bp).setFreep p

/-- `sbrk`, as `sys_sbrk` and `growproc` answer it: the old break, or `none` for -1. `ok` tells
whether there are pages to grow. A break below zero is not an error. -/
def sbrk (h : Heap) (n : Int32) (ok : Bool) : Option (Nat × Heap) :=
  if 0 < n.toInt then
    if ok ∧ h.brk + n.toInt ≤ memory then some (h.brk, { h with brk := (h.brk + n.toInt).toNat })
    else none
  else if n.toInt < 0 ∧ 0 ≤ h.brk + n.toInt then
    some (h.brk, { h with brk := (h.brk + n.toInt).toNat })
  else some (h.brk, h)

/-- The number of units that `morecore` records. -/
def recorded (nu : Nat) : Nat := if nu < 4096 then 4096 else nu

/-- The argument of `sbrk`: a product of 64 bits, converted to `int`. -/
def asked (nu : Nat) : Int32 := Int32.ofNat (recorded nu * sizeofHeader)

/-- The pages below the break, rounded up, are mapped: the store to the header at `p`, whose two
fields take 12 bytes, does not fault. -/
def Heap.mapped (h : Heap) (p : Nat) : Bool := p + 12 ≤ (h.brk + 4095) / 4096 * 4096

/-- `morecore`: `some none` is the null pointer, and `none` says that it does not return, because the
store to `hp->s.size` faults and the process is killed, or because a loop does not end. -/
def morecore (h : Heap) (nu : Nat) (ok : Bool) : Option (Option Heap) :=
  match sbrk h (asked nu) ok with
  | none => some none
  | some (hp, h) =>
    if h.mapped hp then (free (h.setSize hp (recorded nu)) hp).map some else none

/-- The block at `p`, after `prevp`, is large enough: take it or its tail. -/
def take (h : Heap) (nunits prevp p : Nat) : Nat × Heap :=
  if h.size p = nunits then (p, (h.setPtr prevp (h.next p)).setFreep prevp)
  else
    let h' := h.setSize p (h.size p - nunits)
    let p' := p + h'.bytes p
    (p', (h'.setSize p' nunits).setFreep prevp)

/-- The loop of `malloc`, with a bound on its turns. -/
def mallocLoop (nunits : Nat) (ok : Bool) : Nat → Heap → Nat → Nat → Option (Option Nat × Heap)
  | 0, _, _, _ => none
  | n + 1, h, prevp, p =>
    if h.size p ≥ nunits then
      let (p, h) := take h nunits prevp p
      some (some p, h)
    else if h.freep = some p then do
      match ← morecore h nunits ok with
      | none => some (none, h)
      | some h =>
        let p ← h.freep
        mallocLoop nunits ok n h p (h.next p)
    else mallocLoop nunits ok n h p (h.next p)

/-- `nunits`, computed in 64 bits and converted to `uint`. -/
def units (nbytes : UInt32) : Nat :=
  uint ((nbytes.toNat + sizeofHeader - 1) / sizeofHeader + 1)

/-- `if((prevp = freep) == 0)` -/
def prepare (h : Heap) : Heap × Nat :=
  match h.freep with
  | some p => (h, p)
  | none => (((h.setPtr h.base h.base).setFreep h.base).setSize h.base 0, h.base)

/-- `malloc`: the header of the block, if there is one, and the heap. As for `morecore`, `none` says
that it does not return. -/
def malloc (h : Heap) (nbytes : UInt32) (ok : Bool) : Option (Option Nat × Heap) :=
  let (h, prevp) := prepare h
  mallocLoop (units nbytes) ok (2 * memory + 4) h prevp (h.next prevp)

end Xv6.Umalloc

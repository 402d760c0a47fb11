import Xv6.Elf
import Xv6.Vm.UserMemory

namespace Xv6.Exec

open Lib.Command Lib.Record Vm

/-- Maximum number of `exec` arguments. -/
def MAXARG : Nat := 32

/-- The fields of `struct proc` that `exec` changes, and those it has to leave alone. -/
structure Proc where
  pagetable : Nat
  sz : Nat
  trapframe : Nat
  name : List UInt8
  ofile : List (Option Nat)
  cwd : Nat

/-- The words of `struct trapframe`. -/
def epcWord : Fin 512 := 3

def spWord : Fin 512 := 6

def a1Word : Fin 512 := 15

/-- The bytes `readi` copies to a kernel address, for the `uint`s `off` and `n`. -/
def readi (file : List UInt8) (off n : Nat) : List UInt8 :=
  if file.length < off ∨ 2 ^ 32 ≤ off + n then [] else (file.drop off).take n

/-- The loop of `loadseg`, from byte `i` of the segment on. -/
def loadsegFrom (pagetable va : Nat) (file : List UInt8) (offset sz : Nat) :
    (turns i : Nat) → VmM Bool
  | 0, _ => return true
  | turns + 1, i => do
    let pa ← walkaddr pagetable ((va + i) % 2 ^ 64)
    if pa = 0 then throw .loadsegAddress
    else do
      let n := min (sz - i) PGSIZE
      let bytes := readi file ((offset + i) % 2 ^ 32) n
      memmove pa 0 bytes
      if bytes.length ≠ n then return false
      else loadsegFrom pagetable va file offset sz turns (i + PGSIZE)

/-- Load a program segment at `va`; `true` is success. -/
def loadseg (pagetable va : Nat) (file : List UInt8) (offset sz : Nat) : VmM Bool :=
  if va % PGSIZE ≠ 0 then throw .loadsegAlign
  else loadsegFrom pagetable va file offset sz ((sz + (PGSIZE - 1)) / PGSIZE) 0

variable [KernelImage]

omit [KernelImage] in
/-- The bytes of program header `i`. The offset is kept in an `int`. -/
def header (file : List UInt8) (elf : Elfhdr) (i : Nat) : List UInt8 :=
  readi file ((elf.phoff + 56 * i) % 2 ^ 32) 56

/-- One turn of the loop of `exec`, for a header of a segment to load: the size of the image, and
whether all went well. -/
def loadSegment (pagetable : Nat) (file : List UInt8) (ph : Proghdr) (sz : Nat) : VmM (Nat × Bool) :=
  if ph.memsz < ph.filesz then return (sz, false)
  else if (ph.vaddr + ph.memsz) % 2 ^ 64 < ph.vaddr then return (sz, false)
  else do
    let sz1 ← uvmalloc pagetable sz ((ph.vaddr + ph.memsz) % 2 ^ 64)
    if sz1 = 0 then return (sz, false)
    else if ph.vaddr % PGSIZE ≠ 0 then return (sz1, false)
    else do
      let ok ← loadseg pagetable ph.vaddr file (ph.off % 2 ^ 32) (ph.filesz % 2 ^ 32)
      return (sz1, ok)

/-- The loop of `exec` over the program headers. -/
def loadSegments (pagetable : Nat) (file : List UInt8) (elf : Elfhdr) :
    (turns i sz : Nat) → VmM (Nat × Bool)
  | 0, _, sz => return (sz, true)
  | turns + 1, i, sz => do
    if (header file elf i).length ≠ 56 then return (sz, false)
    else
      let ph := Proghdr.ofBytes (header file elf i)
      if ph.type ≠ ELF_PROG_LOAD then loadSegments pagetable file elf turns (i + 1) sz
      else do
        let (sz, ok) ← loadSegment pagetable file ph sz
        if ok then loadSegments pagetable file elf turns (i + 1) sz
        else return (sz, false)

omit [KernelImage] in
/-- `sp -= n; sp -= sp % 16`. -/
def pushDown (sp n : Nat) : Nat :=
  let sp := (sp + (2 ^ 64 - n)) % 2 ^ 64
  sp - sp % 16

omit [KernelImage] in
/-- The argument strings are pushed: the stack pointer and `ustack`, if they fit. -/
def pushArgs (pagetable stackbase : Nat) :
    List (List UInt8) → (sp : Nat) → (ustack : List Nat) → VmM (Option (Nat × List Nat))
  | [], sp, ustack => return some (sp, ustack)
  | arg :: argv, sp, ustack => do
    if MAXARG ≤ ustack.length then return none
    else
      let sp := pushDown sp (arg.length + 1)
      if sp < stackbase then return none
      else if ← copyout pagetable sp (arg ++ [0]) then
        pushArgs pagetable stackbase argv sp (ustack ++ [sp])
      else return none

omit [KernelImage] in
/-- The strings and the array of pointers to them are pushed: the stack pointer, if they fit. -/
def pushStack (pagetable sz : Nat) (argv : List (List UInt8)) : VmM (Option Nat) := do
  let stackbase := sz - PGSIZE
  match ← pushArgs pagetable stackbase argv sz [] with
  | none => return none
  | some (sp, ustack) =>
    let sp := pushDown sp ((ustack.length + 1) * 8)
    if sp < stackbase then return none
    else if ← copyout pagetable sp ((ustack ++ [0]).flatMap (bytesOfNat 8)) then return some sp
    else return none

omit [KernelImage] in
def baseName (last : List UInt8) : List UInt8 → List UInt8
  | [] => last
  | c :: s => baseName (if c = 47 then s else last) s

/-- The second half of `exec`, in an image with two pages for the stack: the lower one becomes a
guard page, the arguments are pushed, and the process is switched to the new image. -/
def enterImage (p : Proc) (path : List UInt8) (argv : List (List UInt8)) (elf : Elfhdr)
    (pagetable sz : Nat) : VmM (Int × Proc) := do
  uvmclear pagetable (sz - 2 * PGSIZE)
  match ← pushStack pagetable sz argv with
  | none => do
    procFreepagetable pagetable sz
    return (-1, p)
  | some sp => do
    store (p.trapframe, a1Word) sp
    store (p.trapframe, epcWord) elf.entry
    store (p.trapframe, spWord) sp
    procFreepagetable p.pagetable p.sz
    return (argv.length, { p with
      pagetable := pagetable, sz := sz, name := (baseName path path).take 15 })

def startImage (p : Proc) (path : List UInt8) (argv : List (List UInt8)) (elf : Elfhdr)
    (pagetable sz : Nat) : VmM (Int × Proc) := do
  let sz := PGROUNDUP sz
  let sz1 ← uvmalloc pagetable sz ((sz + 2 * PGSIZE) % 2 ^ 64)
  if sz1 = 0 then do
    procFreepagetable pagetable sz
    return (-1, p)
  else enterImage p path argv elf pagetable sz1

/-- `exec`. `file` is what `namei` finds for the path, and `trampoline` the address of the
trampoline code. -/
def exec (trampoline : UInt64) (p : Proc) (file : Option (List UInt8)) (path : List UInt8)
    (argv : List (List UInt8)) : VmM (Int × Proc) :=
  match file with
  | none => return (-1, p)
  | some file =>
    let bytes := readi file 0 64
    if bytes.length ≠ 64 then return (-1, p)
    else
      let elf := Elfhdr.ofBytes bytes
      if elf.magic ≠ ELF_MAGIC then return (-1, p)
      else do
        let pagetable ← procPagetable trampoline.toNat p.trapframe
        if pagetable = 0 then return (-1, p)
        else do
          let (sz, ok) ← loadSegments pagetable file elf elf.phnum 0 0
          if ok then startImage p path argv elf pagetable sz
          else do
            procFreepagetable pagetable sz
            return (-1, p)

end Xv6.Exec

import Xv6.Exec.Process
import Xv6.Vm.FiniteMap

namespace Xv6.Exec

open Lib.Command Lib.Record Vm

/-- The argument vectors that `sys_exec` can build: the array has room for `MAXARG` pointers, the last
of them null, and each string has been copied into a page with its zero byte. -/
structure SysArgs (argv : List (List UInt8)) : Prop where
  count : argv.length < MAXARG
  short : ∀ arg ∈ argv, arg.length < PGSIZE

section Correct

variable [KernelImage] {s s' s₀ : Phys} {root : Nat} {free free₀ : List Nat}
  {file path : List UInt8} {elf : Elfhdr} {p : Proc} {argv : List (List UInt8)} {trampoline : UInt64}

/-- Whatever the file contains and however `kalloc` fails, `exec` does not panic. If it returns -1
the process is as it was; if not, the process has a well-formed new image. -/
theorem exec_all_or_nothing (h : ProcOk s p free) (hargs : SysArgs argv)
    (content : Option (List UInt8)) :
    Meets (exec trampoline p content path argv) s
      (fun r s' => (∃ free', ProcOk s' r.2 free') ∧ (r.1 = -1 → r.2 = p ∧ Same p s s'))
      (fun _ => False) := by
  refine (exec_meets h hargs.short hargs.count.le).post ?_
  rintro r s' (⟨rfl, free', hs⟩ | ⟨bytes, elf, -, -, -, hr, -, hst⟩)
  · exact ⟨⟨free', h.spent hs⟩, fun _ => ⟨rfl, h.same hs⟩⟩
  · exact ⟨hst.ok, fun hneg => by omega⟩

omit [KernelImage]

def elfOf (file : List UInt8) : Elfhdr := Elfhdr.ofBytes (file.take 64)

def segments (file : List UInt8) : List Proghdr :=
  ((List.range (elfOf file).phnum).map fun i =>
    Proghdr.ofBytes ((file.drop ((elfOf file).phoff + 56 * i)).take 56)).filter
      (·.type = ELF_PROG_LOAD)

def OnPage (ph : Proghdr) (v : Nat) : Prop :=
  ph.vaddr / PGSIZE ≤ v ∧ v < pagesOf (ph.vaddr + ph.memsz)

def Apart (segs : List Proghdr) : Prop := segs.Pairwise fun x y => ∀ v, ¬(OnPage x v ∧ OnPage y v)

theorem readi_zero (file : List UInt8) : readi file 0 64 = file.take 64 := by
  simp [readi]

theorem header_eq {i : Nat} (hoff : elf.phoff < 2 ^ 31) (hi : i < 2 ^ 16)
    (hlen : (header file elf i).length = 56) :
    header file elf i = (file.drop (elf.phoff + 56 * i)).take 56 := by
  have hmod : (elf.phoff + 56 * i) % 2 ^ 32 = elf.phoff + 56 * i := Nat.mod_eq_of_lt (by omega)
  rw [header, hmod, readi] at hlen ⊢
  split at hlen
  · simp at hlen
  next hc => rw [if_neg hc]

theorem loads_eq (helf : elf = elfOf file) (hoff : elf.phoff < 2 ^ 31)
    (hlen : ∀ i, i < elf.phnum → (header file elf i).length = 56) :
    loads file elf elf.phnum 0 = segments file := by
  subst helf
  have hnum : (elfOf file).phnum < 2 ^ 16 := numAt_lt _ _ 2
  rw [loads, segments, List.range_eq_range']
  congr 1
  apply List.map_congr_left
  intro i hi
  have hi : i < (elfOf file).phnum := by simpa using hi
  rw [header_eq hoff (by omega) (hlen i hi)]

theorem OnPage.of_byte {ph : Proghdr} {va : Nat} (hle : ph.filesz ≤ ph.memsz)
    (h : ph.vaddr ≤ va ∧ va < ph.vaddr + ph.filesz) : OnPage ph (va / 4096) := by
  change ph.vaddr / 4096 ≤ va / 4096 ∧ va / 4096 < (ph.vaddr + ph.memsz + 4095) / 4096
  omega

theorem image_mem {segs : List Proghdr} {ph : Proghdr} {va : Nat} (hp : Apart segs)
    (hl : ∀ ph ∈ segs, Loaded file ph) (hm : ph ∈ segs)
    (h : ph.vaddr ≤ va ∧ va < ph.vaddr + ph.filesz) :
    image file segs va = file.getD (filePos ph.off (va - ph.vaddr)) 0 := by
  induction segs with
  | nil => simp at hm
  | cons ph' segs ih =>
    obtain ⟨hfirst, hrest⟩ := List.pairwise_cons.mp hp
    rw [image]
    obtain rfl | hm := List.mem_cons.mp hm
    · rw [if_pos h]
    · rw [if_neg fun hin => hfirst ph hm (va / 4096)
        ⟨.of_byte (hl ph' List.mem_cons_self).le hin, .of_byte (hl ph (List.mem_cons_of_mem _ hm)).le h⟩]
      exact ih hrest (fun ph hm => hl ph (List.mem_cons_of_mem _ hm)) hm

theorem image_not_mem {segs : List Proghdr} {va : Nat}
    (h : ∀ ph ∈ segs, ¬(ph.vaddr ≤ va ∧ va < ph.vaddr + ph.filesz)) : image file segs va = 0 := by
  induction segs with
  | nil => rfl
  | cons ph segs ih =>
    rw [image, if_neg (h ph List.mem_cons_self)]
    exact ih fun ph hm => h ph (List.mem_cons_of_mem _ hm)

theorem top_reverse (segs : List Proghdr) : top segs.reverse = top segs := by
  have hcomm : LeftCommutative fun (ph : Proghdr) m => max (ph.vaddr + ph.memsz) m :=
    ⟨fun _ _ _ => max_left_comm ..⟩
  exact (List.reverse_perm segs).foldr_eq _

theorem end_le_top {segs : List Proghdr} {ph : Proghdr} (hm : ph ∈ segs) :
    ph.vaddr + ph.memsz ≤ top segs := by
  induction segs with
  | nil => simp at hm
  | cons ph' segs ih =>
    obtain rfl | hm := List.mem_cons.mp hm
    · exact le_max_left ..
    · exact (ih hm).trans (le_max_right ..)

variable [KernelImage]

/-- If `exec` succeeds, user memory holds the segments of the file and is zero elsewhere below the
stack, the page below the stack is not accessible to user code, the size goes up to two pages above
the segments, and the program starts at its entry. -/
theorem exec_loads_image (h : ProcOk s p free) (hargs : SysArgs argv)
    (hphoff : (elfOf file).phoff < 2 ^ 31) (hoff : ∀ ph ∈ segments file, ph.off < 2 ^ 31)
    (hapart : Apart (segments file)) :
    Meets (exec trampoline p (some file) path argv) s
      (fun r s' => r.1 ≠ -1 →
        (∀ ph ∈ segments file, ∀ k, k < ph.filesz →
          file[ph.off + k]? = some (userByte s' r.2.pagetable (ph.vaddr + k))) ∧
        (∀ u, u < r.2.sz - PGSIZE →
          (∀ ph ∈ segments file, ¬(ph.vaddr ≤ u ∧ u < ph.vaddr + ph.filesz)) →
          userByte s' r.2.pagetable u = 0) ∧
        (∃ pa flags, mapping s'.mem r.2.pagetable (r.2.sz / PGSIZE - 2) = some (pa, flags) ∧
          flags &&& PTE_U = 0) ∧
        r.2.sz = PGROUNDUP (top (segments file)) + 2 * PGSIZE ∧
        s'.mem p.trapframe epcWord = (elfOf file).entry)
      (fun _ => False) := by
  refine (exec_meets h hargs.short hargs.count.le).post ?_
  rintro ⟨n, p'⟩ s' (⟨he, -⟩ | ⟨bytes, elf, hfile, helf, hlen, -, -, hst⟩)
  · intro hne
    cases he
    exact absurd rfl hne
  · intro _
    obtain rfl := Option.some.inj hfile
    rw [readi_zero] at helf
    have helf : elf = elfOf file := helf
    rw [loads_eq helf (helf ▸ hphoff) hlen] at hst
    have hapart' : Apart (segments file).reverse := by
      refine List.pairwise_reverse.mpr (hapart.imp fun hxy v hv => hxy v ⟨hv.2, hv.1⟩)
    have hmem : ∀ ph, ph ∈ (segments file).reverse ↔ ph ∈ segments file := fun _ => List.mem_reverse
    have hsize : p'.sz = pagesOf (top (segments file).reverse) * 4096 + 8192 := hst.size
    rw [top_reverse] at hsize
    obtain ⟨free', hok⟩ := hst.ok
    have hsmall := hok.table.space.le_memory
    have hsz : p'.sz ≤ 2 ^ 27 := by
      change (p'.sz + 4095) / 4096 ≤ 2 ^ 15 at hsmall
      omega
    have htop := le_pagesOf (top (segments file))
    refine ⟨fun ph hph k hk => ?_, fun u hu hout => ?_, hst.guard, ?_, ?_⟩
    · have hend := end_le_top hph
      have hl := hst.loaded ph ((hmem ph).mpr hph)
      have hle := hl.le
      have hpos : filePos ph.off k = ph.off + k := by
        have := hoff ph hph
        rw [filePos, Nat.mod_eq_of_lt (by omega)]
        omega
      have hin := hl.file k hk
      have hbyte := hst.byte (ph.vaddr + k) (by dsimp only; omega)
      rw [image_mem hapart' hst.loaded ((hmem ph).mpr hph) ⟨Nat.le_add_right .., by omega⟩,
        Nat.add_sub_cancel_left, hpos] at hbyte
      rw [hpos] at hin
      rw [hbyte, List.getD_eq_getElem?_getD, List.getElem?_eq_getElem hin]
      rfl
    · refine (hst.byte u hu).trans (image_not_mem fun ph hm => ?_)
      exact hout ph ((hmem ph).mp hm)
    · rw [hsize, PGROUNDUP_pages (by omega)]
      rfl
    · rw [hst.epc, helf]

/-- If `exec` succeeds, it returns the number of arguments, and these are on the stack page. From an
image with two pages for the stack, it fails exactly when the arguments do not fit into the page; it
writes nothing below it. -/
theorem exec_pushes_arguments (h : ProcOk s p free) (hargs : SysArgs argv)
    (content : Option (List UInt8)) :
    Meets (exec trampoline p content path argv) s
      (fun r s' => r.1 ≠ -1 → r.1 = argv.length ∧ ∃ sp ptrs, s'.mem p.trapframe a1Word = sp ∧
        s'.mem p.trapframe spWord = sp ∧ ArgStack s' r.2.pagetable r.2.sz argv sp ptrs)
      (fun _ => False) ∧
    ∀ file segs elf s₁ root free₁ np, np = pagesOf (top segs) →
      Imaged s free file segs s₁ root free₁ ((np + 2) * PGSIZE) →
      Meets (enterImage p path argv elf root ((np + 2) * PGSIZE)) s₁
        (fun r _ => r.1 = -1 ↔ ¬Fits argv) (fun _ => False) ∧
      Meets (do
          uvmclear root ((np + 2) * PGSIZE - 2 * PGSIZE)
          pushStack root ((np + 2) * PGSIZE) argv) s₁
        (fun _ s' => ∀ u, u < (np + 2) * PGSIZE - PGSIZE → userByte s' root u = userByte s₁ root u)
        (fun _ => False) := by
  refine ⟨(exec_meets h hargs.short hargs.count.le).post ?_, ?_⟩
  · rintro ⟨n, p'⟩ s' (⟨he, -⟩ | ⟨bytes, elf, -, -, -, hn, -, hst⟩)
    · intro hne
      cases he
      exact absurd rfl hne
    · intro _
      obtain ⟨sp, ha1, hsp, hstack⟩ := hst.args
      exact ⟨hn, sp, _, ha1, hsp, hstack⟩
  · intro file segs elf s₁ root free₁ np hnp hi
    refine ⟨(enterImage_meets h hi hnp hargs.short hargs.count.le).post ?_, ?_⟩
    · rintro r s' (⟨rfl, hfit, -⟩ | ⟨hr, hfit, -⟩)
      · simp [hfit]
      · exact ⟨fun hneg => by omega, fun hno => absurd hfit hno⟩
    · refine (stack_meets hi hargs.short hargs.count.le).post ?_
      intro r s' hst u hu
      have hsize : (np + 2) * PGSIZE - PGSIZE = (np + 1) * 4096 := by
        rw [Nat.succ_mul (np + 1)]
        exact Nat.add_sub_cancel ..
      have hpages : pagesOf ((np + 2) * PGSIZE) = np + 2 := pagesOf_mul _
      have hall : u < pagesOf ((np + 2) * PGSIZE) * 4096 := by
        rw [hpages]
        exact hu.trans_le (Nat.sub_le ..)
      rw [hsize] at hu
      rw [hst.byte u hu, hi.byte u hall]

end Correct

section Success

variable [KernelImage] {s s₁ s₂ s₃ : Phys} {root sz : Nat} {free : List Nat} {file path : List UInt8}
  {p : Proc} {argv : List (List UInt8)} {trampoline : UInt64}

theorem exec_loading (hlen : (readi file 0 64).length = 64) (hmagic : (elfOf file).magic = ELF_MAGIC)
    (htable : procPagetable trampoline.toNat p.trapframe s = .ok (root, s₁)) (hroot : root ≠ 0)
    {ok : Bool} (hload : loadSegments root file (elfOf file) (elfOf file).phnum 0 0 s₁ =
      .ok ((sz, ok), s₂)) :
    exec trampoline p (some file) path argv s =
      (if ok then startImage p path argv (elfOf file) root sz else do
        procFreepagetable root sz
        return (-1, p)) s₂ := by
  have helf : Elfhdr.ofBytes (readi file 0 64) = elfOf file := by rw [readi_zero, elfOf]
  simp only [exec]
  rw [if_neg (not_not_intro hlen), helf, if_neg (not_not_intro hmagic), bind_of_ok htable,
    if_neg hroot, bind_of_ok hload]

theorem stack_imaged (h : ProcOk s p free)
    (htable : procPagetable trampoline.toNat p.trapframe s = .ok (root, s₁)) (hroot : root ≠ 0)
    (hload : loadSegments root file (elfOf file) (elfOf file).phnum 0 0 s₁ = .ok ((sz, true), s₂))
    {n : Nat} (hn : n ≠ 0)
    (hstack : uvmalloc root (PGROUNDUP sz) ((PGROUNDUP sz + 2 * PGSIZE) % 2 ^ 64) s₂ = .ok (n, s₃)) :
    n = (pagesOf sz + 2) * PGSIZE ∧
      sz = top (loads file (elfOf file) (elfOf file).phnum 0).reverse ∧
      ∃ free', Imaged s free file (loads file (elfOf file) (elfOf file).phnum 0).reverse s₃ root free'
        ((pagesOf sz + 2) * PGSIZE) := by
  have hpool := h.table.space.table.pool
  obtain ⟨free₁, ⟨hzero, -⟩ | ⟨-, hb⟩⟩ := (procPagetable_meets hpool h.table.space.pages
    trampoline.toNat_lt h.trapframe.2).of_ok htable
  · exact absurd hzero hroot
  have hempty : Imaged s free file [] s₁ root free₁ 0 :=
    ⟨hb, fun v hv => absurd hv (Nat.not_lt_zero v), le_rfl, nofun,
      fun u hu => absurd hu (Nat.not_lt_zero u)⟩
  obtain ⟨free₂, -, hsz, hi⟩ := (loadSegments_meets hempty rfl).of_ok hload
  rw [List.append_nil] at hsz hi
  have hmem := hi.building.table.space.le_memory
  have hbound : sz < 2 ^ 63 := by
    have := le_pagesOf sz
    dsimp only at hmem
    omega
  have hnew : (pagesOf sz * PGSIZE + 2 * PGSIZE) % 2 ^ 64 = (pagesOf sz + 2) * PGSIZE := by
    dsimp only at hmem
    rw [Nat.add_mul]
    change (pagesOf sz * 4096 + 2 * 4096) % 2 ^ 64 = pagesOf sz * 4096 + 2 * 4096
    omega
  have hround := hi.round
  have hle : pagesOf sz * PGSIZE ≤ (pagesOf sz + 2) * PGSIZE := Nat.mul_le_mul_right _ (by omega)
  rw [PGROUNDUP_pages hbound, hnew] at hstack
  have hgrown := (uvmalloc_meets hround.building.table.space hle).of_ok hstack
  clear hstack hnew hbound
  obtain ⟨free₃, hor⟩ := hgrown
  obtain ⟨hnp, hg⟩ := hor.resolve_right fun h => hn h.1
  exact ⟨hnp, hsz, free₃, hround.grown hle hg⟩

theorem exec_succeeds (h : ProcOk s p free) (hargs : SysArgs argv) (hfits : Fits argv)
    (hlen : (readi file 0 64).length = 64) (hmagic : (elfOf file).magic = ELF_MAGIC)
    (htable : procPagetable trampoline.toNat p.trapframe s = .ok (root, s₁)) (hroot : root ≠ 0)
    (hload : loadSegments root file (elfOf file) (elfOf file).phnum 0 0 s₁ = .ok ((sz, true), s₂))
    {n : Nat} (hn : n ≠ 0)
    (hstack : uvmalloc root (PGROUNDUP sz) ((PGROUNDUP sz + 2 * PGSIZE) % 2 ^ 64) s₂ = .ok (n, s₃)) :
    ∃ r s', exec trampoline p (some file) path argv s = .ok (r, s') ∧ r.1 = argv.length := by
  have hexec : exec trampoline p (some file) path argv s =
      enterImage p path argv (elfOf file) root n s₃ := by
    rw [exec_loading hlen hmagic htable hroot hload, if_pos rfl, startImage, bind_of_ok hstack,
      if_neg hn]
  obtain ⟨hnp, hsz, free', hi⟩ := stack_imaged h htable hroot hload hn hstack
  rw [hexec, hnp]
  clear hexec hnp hstack
  have hmeets : Meets (enterImage p path argv (elfOf file) root _) s₃ _ _ :=
    enterImage_meets h hi (by rw [← hsz]) hargs.short hargs.count.le
  obtain ⟨r, s', hrun, hr⟩ := hmeets.ok fun _ => id
  exact ⟨r, s', hrun, (hr.resolve_left fun hno => hno.2.1 hfits).1⟩

end Success

/-- Sixteen free pages, one after the other. -/
def boot (fails : List Bool) : Phys where
  mem a := Function.update (Page.fill 0) 0 (if a < 0x8001f000 then a + 0x1000 else 0)
  freelist := 0x80010000
  fails := fails

def bootFree : List Nat := (List.range 16).map fun k => 0x80010000 + k * 0x1000

def idle (root : Nat) : Proc := ⟨root, 0, 0x80001000, [], [], 0⟩

theorem boot_pool (fails : List Bool) : Pool (boot fails) bootFree :=
  ⟨⟨rfl, rfl, rfl, rfl, rfl, rfl, rfl, rfl, rfl, rfl, rfl, rfl, rfl, rfl, rfl, rfl, rfl⟩, by decide,
    by decide⟩

theorem boot_process {fails : List Bool} {root : Nat} {s : Phys} (hroot : root ≠ 0)
    (hrun : @procPagetable smallImage 0x80000000 0x80001000 (boot fails) = .ok (root, s)) :
    ∃ free, @ProcOk smallImage s (idle root) free := by
  let _ := smallImage
  have hpages : ∀ a ∈ bootFree, IsPage a := by decide
  have htramp : (0x80000000 : Nat) < 2 ^ 64 := by decide
  have hframe : (0x80001000 : Nat) < 2 ^ 64 := by decide
  have hmeets := procPagetable_meets (boot_pool fails) hpages htramp hframe
  obtain ⟨free, ⟨hzero, -⟩ | ⟨-, hb⟩⟩ := hmeets.of_ok hrun
  · exact absurd hzero hroot
  · have hout : (0x80001000 : Nat) ∉ bootFree := by decide
    have hne : (0x80001000 : Nat) ≠ 0 := by decide
    have hsz : pagesOf (idle root).sz = 0 := by
      change pagesOf 0 = 0
      decide
    rw [← hsz] at hb
    exact ⟨free, hb.table, ⟨hne, hframe⟩, fun hm => hout (hb.spent.rest hm),
      fun ho => hout (hb.owned hne ho)⟩

def loadHeader (off vaddr filesz memsz : Nat) : List UInt8 :=
  bytesOfNat 8 ELF_PROG_LOAD ++ bytesOfNat 8 off ++ bytesOfNat 8 vaddr ++ bytesOfNat 8 0 ++
    bytesOfNat 8 filesz ++ bytesOfNat 8 memsz ++ bytesOfNat 8 0

/-- A program with one segment of eight bytes, three of them in the file. -/
def tinyFile : List UInt8 :=
  bytesOfNat 8 ELF_MAGIC ++ bytesOfNat 8 0 ++ bytesOfNat 8 0 ++ bytesOfNat 8 4 ++ bytesOfNat 8 64 ++
    bytesOfNat 8 0 ++ bytesOfNat 8 0 ++ bytesOfNat 8 1 ++ loadHeader 120 0 3 8 ++ [1, 2, 5]

theorem segments_tinyFile : segments tinyFile = [⟨1, 120, 0, 3, 8⟩] := by decide +kernel

section Stages

/-- `k n`, computed after `n`. -/
def force {β : Type} (n : Nat) (k : Nat → β) : β :=
  match n with
  | 0 => k 0
  | n + 1 => k (n + 1)

theorem force_eq {β : Type} (n : Nat) (k : Nat → β) : force n k = k n := by
  cases n <;> rfl

/-- `k s`, computed after these words of memory and the head of the free list. -/
def settle {β : Type} (k : Phys → β) : List (Nat × Fin 512) → Phys → β
  | [], s => force s.freelist fun a => k { s with freelist := a }
  | (a, i) :: words, s => force (s.mem a i) fun w => settle k words (s.setWord a i w)

theorem settle_eq {β : Type} (k : Phys → β) (words : List (Nat × Fin 512)) (s : Phys) :
    settle k words s = k s := by
  induction words with
  | nil => exact force_eq ..
  | cons x words ih =>
    have hset : s.setWord x.1 x.2 (s.mem x.1 x.2) = s := by
      rw [Phys.setWord, Phys.setPage, Function.update_eq_self, Function.update_eq_self]
    rw [settle, force_eq, hset, ih]

def words : List (Nat × Fin 512) :=
  bootFree.flatMap fun a => [0, 1, 2, 255, 510, 511].map fun i => (a, i)

/-- One turn of the loop of `uvmalloc`, if all goes well. -/
def allocPage (pagetable a : Nat) : VmM Bool := do
  let mem ← kalloc
  if mem = 0 then return false
  else do
    memset mem 0
    mappages pagetable a PGSIZE mem (PTE_W ||| PTE_X ||| PTE_R ||| PTE_U)

theorem allocFrom_page [KernelImage] {root oldsz newsz n a : Nat} {s s' : Phys}
    (h : allocPage root a s = .ok (true, s')) :
    allocFrom root oldsz newsz (n + 1) a s = allocFrom root oldsz newsz n (a + PGSIZE) s' := by
  cases hk : kalloc s with
  | error e => rw [allocPage, bind_of_error hk] at h; cases h
  | ok x =>
    rw [allocPage, bind_of_ok hk] at h
    rw [allocFrom, bind_of_ok hk]
    split at h
    · cases h
    next hmem =>
      rw [memset, modify_bind] at h
      rw [if_neg hmem, memset, modify_bind, bind_of_ok h, if_pos rfl]

/-- The first half of `exec tinyFile`, up to the pages for the stack if the segment is loaded. -/
def prepares (fails : List Bool) (loaded : Bool) : Bool :=
  match @procPagetable smallImage 0x80000000 0x80001000 (boot fails) with
  | .ok (root, s) => root ≠ 0 && settle (fun s =>
    match @procPagetable smallImage 0x80000000 0x80001000 s with
    | .ok (root, s) => root ≠ 0 && settle (fun s =>
      match @loadSegments smallImage root tinyFile (elfOf tinyFile) 1 0 0 s with
      | .ok ((sz, ok), s) => ok = loaded && (!loaded || sz = 8 && settle (fun s =>
        match allocPage root 0x1000 s with
        | .ok (true, s) => settle (fun s =>
          match allocPage root 0x2000 s with
          | .ok (true, _) => true
          | _ => false) (words.filter (·.1 ≠ 0x80016000)) s
        | _ => false) (words.filter (·.1 ≠ 0x80016000)) s)
      | .error _ => false) words s
    | .error _ => false) words s
  | .error _ => false

theorem prepares_nil : prepares [] true = true := by decide +kernel

theorem prepares_fails : prepares (List.replicate 6 false ++ [true]) false = true := by decide +kernel

theorem prepared {fails : List Bool} {loaded : Bool} (h : prepares fails loaded = true) :
    ∃ root s root' s₁ sz s₂, root ≠ 0 ∧ root' ≠ 0 ∧
      @procPagetable smallImage 0x80000000 0x80001000 (boot fails) = .ok (root, s) ∧
      @procPagetable smallImage 0x80000000 0x80001000 s = .ok (root', s₁) ∧
      @loadSegments smallImage root' tinyFile (elfOf tinyFile) 1 0 0 s₁ = .ok ((sz, loaded), s₂) ∧
      (loaded = true → sz = 8 ∧ ∃ s₃, @uvmalloc smallImage root' 0x1000 0x3000 s₂ = .ok (0x3000, s₃)) := by
  simp only [prepares, settle_eq] at h
  split at h
  case h_2 => cases h
  next root s hs =>
  rw [Bool.and_eq_true, decide_eq_true_eq] at h
  obtain ⟨hroot, h⟩ := h
  split at h
  case h_2 => cases h
  next root' s₁ hs₁ =>
  rw [Bool.and_eq_true, decide_eq_true_eq] at h
  obtain ⟨hroot', h⟩ := h
  split at h
  case h_2 => cases h
  next sz ok s₂ hs₂ =>
  simp only [Bool.and_eq_true, decide_eq_true_eq, Bool.or_eq_true, Bool.not_eq_true'] at h
  obtain ⟨rfl, h⟩ := h
  refine ⟨root, s, root', s₁, sz, s₂, hroot, hroot', hs, hs₁, hs₂, fun hok => ?_⟩
  obtain ⟨hsz, h⟩ := h.resolve_left (by rw [hok]; decide)
  refine ⟨hsz, ?_⟩
  split at h
  case h_2 => cases h
  next s₃ hs₃ =>
  split at h
  case h_2 => cases h
  next s₄ hs₄ =>
  let _ := smallImage
  have hrun : uvmalloc root' 0x1000 0x3000 s₂ = allocFrom root' 0x1000 0x3000 2 0x1000 s₂ := rfl
  refine ⟨s₄, ?_⟩
  rw [hrun, allocFrom_page hs₃]
  exact allocFrom_page hs₄

end Stages

theorem launch {argv : List (List UInt8)} (hargs : SysArgs argv) (hfits : Fits argv) :
    ∃ s root free, @ProcOk smallImage s (idle root) free ∧
      (∃ r s', @exec smallImage 0x80000000 (idle root) (some tinyFile) [97] argv s = .ok (r, s') ∧
        r.1 = argv.length) ∧
      ∃ s₃ root' free', @Imaged smallImage s free tinyFile (segments tinyFile) s₃ root' free'
        ((1 + 2) * PGSIZE) := by
  obtain ⟨root, s, root', s₁, sz, s₂, hroot, hroot', hs, hs₁, hs₂, hstack⟩ := prepared prepares_nil
  obtain ⟨rfl, s₃, hs₃⟩ := hstack rfl
  obtain ⟨free, h⟩ := boot_process hroot hs
  have hn : (0x3000 : Nat) ≠ 0 := by decide
  refine ⟨s, root, free, h, ?_, s₃, root', ?_⟩
  · exact @exec_succeeds smallImage s s₁ s₂ s₃ root' 8 free tinyFile [97] (idle root) argv
      0x80000000 h hargs hfits (by decide +kernel) (by decide +kernel) hs₁ hroot' hs₂ _ hn hs₃
  · obtain ⟨-, -, free', hi⟩ := @stack_imaged smallImage s s₁ s₂ s₃ root' 8 free tinyFile
      (idle root) 0x80000000 h hs₁ hroot' hs₂ _ hn hs₃
    have hsegs : (loads tinyFile (elfOf tinyFile) (elfOf tinyFile).phnum 0).reverse =
        segments tinyFile := by decide +kernel
    rw [hsegs] at hi
    exact ⟨free', hi⟩

/-- The page for the segment is not to be had: what has been built of the image is given up. -/
theorem exec_all_or_nothing_echo :
    ∃ s root r s', @exec smallImage 0x80000000 (idle root) (some tinyFile) [97] [[97]] s = .ok (r, s') ∧
      r.1 = -1 ∧ r.2 = idle root ∧ Same (idle root) s s' := by
  obtain ⟨root, s, root', s₁, sz, s₂, hroot, hroot', hs, hs₁, hs₂, -⟩ := prepared prepares_fails
  obtain ⟨free, h⟩ := boot_process hroot hs
  have hmeets := @exec_all_or_nothing smallImage s free [97] (idle root) [[97]] 0x80000000 h
    ⟨by decide, by decide⟩ (some tinyFile)
  obtain ⟨r, s', hrun, -, hr⟩ := hmeets.ok fun _ => id
  have hload := hrun
  rw [@exec_loading smallImage s s₁ s₂ root' sz tinyFile [97] (idle root) [[97]] 0x80000000
    (by decide +kernel) (by decide +kernel) hs₁ hroot' _ hs₂] at hload
  have hneg : r.1 = -1 := by
    refine Meets.of_ok (Q := fun r _ => r.1 = -1) (E := fun _ => True) ?_ hload
    exact (Meets.any _ _).seq fun _ _ _ => Meets.pure rfl
  exact ⟨s, root, r, s', hrun, hneg, hr hneg⟩

theorem exec_loads_image_tiny :
    ∃ s root r s', @exec smallImage 0x80000000 (idle root) (some tinyFile) [97] [[97]] s = .ok (r, s') ∧
      r.1 = 1 ∧ userByte s' r.2.pagetable 2 = 5 ∧ userByte s' r.2.pagetable 3 = 0 ∧
      r.2.sz = 3 * PGSIZE ∧ s'.mem 0x80001000 epcWord = 4 := by
  have hargs : SysArgs [[97]] := ⟨by decide, by decide⟩
  obtain ⟨s, root, free, h, ⟨r, s', hrun, hr⟩, -⟩ := launch hargs (show _ ≤ 4096 by decide)
  have hapart : Apart (segments tinyFile) := by
    rw [segments_tinyFile]
    exact List.pairwise_singleton _ _
  have hmeets := @exec_loads_image s free tinyFile [97] (idle root) [[97]] 0x80000000
    smallImage h hargs (by decide +kernel) (by rw [segments_tinyFile]; decide) hapart
  obtain ⟨hbytes, hzero, -, hsize, hentry⟩ := hmeets.of_ok hrun (by rw [hr]; decide)
  rw [segments_tinyFile] at hbytes hsize hzero
  have hbyte := hbytes ⟨1, 120, 0, 3, 8⟩ List.mem_cons_self 2 (by decide)
  have hfile : tinyFile[120 + 2]? = some 5 := by decide +kernel
  rw [hfile] at hbyte
  have hsz : r.2.sz = 3 * PGSIZE := by
    rw [hsize]
    decide
  refine ⟨s, root, r, s', hrun, hr, (Option.some.inj hbyte).symm, hzero 3 ?_ ?_, hsz,
    hentry.trans (by decide +kernel)⟩
  · rw [hsz]
    decide
  · intro ph hph
    rw [List.mem_singleton.mp hph]
    decide

theorem exec_pushes_arguments_two :
    (∃ s root r s', @exec smallImage 0x80000000 (idle root) (some tinyFile) [97] [[97, 98], []] s =
        .ok (r, s') ∧
      r.1 = 2 ∧ ∃ sp ptrs, s'.mem 0x80001000 a1Word = sp ∧
        ArgStack s' r.2.pagetable r.2.sz [[97, 98], []] sp ptrs) ∧
    ∃ s₃ root root' r s', @enterImage smallImage (idle root) [97] [[97, 98], []] (elfOf tinyFile) root'
      (3 * PGSIZE) s₃ = .ok (r, s') ∧ r.1 ≠ -1 := by
  have hargs : SysArgs [[97, 98], []] := ⟨by decide, by decide⟩
  have hfits : Fits [[97, 98], []] := show _ ≤ 4096 by decide
  obtain ⟨s, root, free, h, ⟨r, s', hrun, hr⟩, s₃, root', free', hi⟩ := launch hargs hfits
  obtain ⟨hexec, henter⟩ := @exec_pushes_arguments s free [97] (idle root) [[97, 98], []] 0x80000000
    smallImage h hargs (some tinyFile)
  constructor
  · obtain ⟨-, sp, ptrs, ha1, -, hstack⟩ := hexec.of_ok hrun (by rw [hr]; decide)
    exact ⟨s, root, r, s', hrun, hr, sp, ptrs, ha1, hstack⟩
  · have htop : 1 = pagesOf (top (segments tinyFile)) := by
      rw [segments_tinyFile]
      decide
    obtain ⟨r', s'', hrun', hiff⟩ := (henter _ _ (elfOf tinyFile) _ _ _ 1 htop hi).1.ok fun _ => id
    exact ⟨s₃, root, root', r', s'', hrun', fun hneg => hiff.mp hneg hfits⟩

end Xv6.Exec

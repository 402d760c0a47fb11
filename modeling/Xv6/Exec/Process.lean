import Xv6.Exec.Stack

namespace Xv6.Exec

open Lib.Command Vm

variable [KernelImage] {s s' s₀ : Phys} {root sz : Nat} {free free' free₀ : List Nat}
  {file path : List UInt8} {segs : List Proghdr} {elf : Elfhdr} {p : Proc} {argv : List (List UInt8)}

structure ProcOk (s : Phys) (p : Proc) (free : List Nat) : Prop where
  table : UserTable kernelPages s p.pagetable free (pagesOf p.sz)
  trapframe : p.trapframe ≠ 0 ∧ p.trapframe < 2 ^ 64
  not_free : p.trapframe ∉ free
  not_owned : ¬Owned s p.pagetable (pagesOf p.sz) p.trapframe

structure Same (p : Proc) (s s' : Phys) : Prop where
  tables : ∀ n, node s.mem p.pagetable n ≠ 0 →
    s'.mem (node s.mem p.pagetable n) = s.mem (node s.mem p.pagetable n)
  mapping : ∀ v, mapping s'.mem p.pagetable v = mapping s.mem p.pagetable v
  memory : ∀ v, v < pagesOf p.sz →
    s'.mem (pageAt s.mem p.pagetable v) = s.mem (pageAt s.mem p.pagetable v)
  trapframe : s'.mem p.trapframe = s.mem p.trapframe

theorem ProcOk.spent_owned {a : Nat} (h : ProcOk s p free) (hs : Spent s free s' free') (ha : a ≠ 0)
    (ho : Owned s p.pagetable (pagesOf p.sz) a) : s'.mem a = s.mem a :=
  hs.frame a ha fun hm => (h.table.free_apart hm).2 ho

theorem ProcOk.same (h : ProcOk s p free) (hs : Spent s free s' free') : Same p s s' := by
  have htables : ∀ n, node s.mem p.pagetable n ≠ 0 →
      s'.mem (node s.mem p.pagetable n) = s.mem (node s.mem p.pagetable n) :=
    fun n hn => h.spent_owned hs hn (.inl ⟨n, rfl⟩)
  refine ⟨htables, fun v => mapping_congr (entry_frame htables v), fun v hv => ?_,
    hs.frame _ h.trapframe.1 h.not_free⟩
  have hpage := (h.table.space.user.own rfl v (Nat.zero_le v) (by omega)).page
  exact h.spent_owned hs hpage.bounds.1 (.inr ⟨v, hv, rfl⟩)

theorem ProcOk.spent (h : ProcOk s p free) (hs : Spent s free s' free') : ProcOk s' p free' := by
  have hsame := h.same hs
  refine ⟨h.table.frame hsame.tables hs.pool fun a ha => h.table.free_apart (hs.rest ha), h.trapframe,
    fun hm => h.not_free (hs.rest hm), ?_⟩
  rw [owned_frame hsame.tables]
  exact h.not_owned

def setRegs (s : Phys) (trapframe entry sp : Nat) : Phys :=
  ((s.setWord trapframe a1Word sp).setWord trapframe epcWord entry).setWord trapframe spWord sp

omit [KernelImage] in
theorem setRegs_other {trapframe entry sp a : Nat} (ha : a ≠ trapframe) :
    (setRegs s trapframe entry sp).mem a = s.mem a := by
  simp [setRegs, Phys.setWord, Phys.setPage, ha]

omit [KernelImage] in
theorem setRegs_words (s : Phys) (trapframe entry sp : Nat) :
    (setRegs s trapframe entry sp).mem trapframe a1Word = sp ∧
    (setRegs s trapframe entry sp).mem trapframe epcWord = entry ∧
    (setRegs s trapframe entry sp).mem trapframe spWord = sp := by
  simp [setRegs, Phys.setWord, Phys.setPage, Function.update_of_ne, a1Word, epcWord, spWord]

structure Switched (s : Phys) (root sz : Nat) (p p' : Proc) (entry sp : Nat) (s' : Phys) : Prop where
  ok : ∃ free', ProcOk s' p' free'
  pagetable : p'.pagetable = root
  size : p'.sz = sz
  mapping : ∀ v, mapping s'.mem root v = mapping s.mem root v
  byte : ∀ u, u < sz → userByte s' root u = userByte s root u
  a1 : s'.mem p.trapframe a1Word = sp
  epc : s'.mem p.trapframe epcWord = entry
  sp : s'.mem p.trapframe spWord = sp

theorem switch_meets {entry sp : Nat} {name : List UInt8} (h : ProcOk s₀ p free₀)
    (hb : Building s₀ free₀ kernelPages s root free (pagesOf sz)) :
    Meets (do
        store (p.trapframe, a1Word) sp
        store (p.trapframe, epcWord) entry
        store (p.trapframe, spWord) sp
        procFreepagetable p.pagetable p.sz
        return ((argv.length : Int), { p with pagetable := root, sz := sz, name := name })) s
      (fun r s' => r.1 = argv.length ∧ Switched s root sz p r.2 entry sp s') (fun _ => False) := by
  refine Meets.bind (Meets.modify (Meets.bind (Meets.modify (Meets.bind (Meets.modify ?_)))))
  change Meets _ (setRegs s p.trapframe entry sp) _ _
  have hsame := h.same hb.spent
  have hregs := setRegs_words s p.trapframe entry sp
  have hother : ∀ a, a ≠ p.trapframe → (setRegs s p.trapframe entry sp).mem a = s.mem a :=
    fun a => setRegs_other
  have hlist : (setRegs s p.trapframe entry sp).freelist = s.freelist := rfl
  generalize setRegs s p.trapframe entry sp = s₁ at *
  -- the old page table is as it was
  have hold : ∀ n, node s₀.mem p.pagetable n ≠ 0 →
      s₁.mem (node s₀.mem p.pagetable n) = s₀.mem (node s₀.mem p.pagetable n) := by
    intro n hn
    rw [hother _ fun he => h.not_owned (.inl ⟨n, he⟩)]
    exact hsame.tables n hn
  have hpool : Pool s₁ free := by
    refine hb.spent.pool.congr hlist fun b hm => hother b ?_
    rintro rfl
    exact h.not_free (hb.spent.rest hm)
  have htable : UserTable kernelPages s₁ p.pagetable free (pagesOf p.sz) :=
    h.table.frame hold hpool fun a ha => h.table.free_apart (hb.spent.rest ha)
  refine Meets.seq (procFreepagetable_meets htable rfl) ?_
  rintro _ s₂ ⟨free₂, hr⟩
  refine Meets.pure ⟨rfl, ?_⟩
  have hframe : ∀ a, a ≠ 0 → ¬Owned s₀ p.pagetable (pagesOf p.sz) a → s₂.mem a = s₁.mem a :=
    fun a _ ho => hr.frame a fun ho' => ho ((owned_frame hold).mp ho')
  -- the pages of the new image are untouched
  have hkeep : ∀ a ∈ free₀, s₂.mem a = s.mem a := by
    intro a ha
    rw [hframe a (h.table.space.table.pool.page a ha).1 (h.table.free_apart ha).2]
    refine hother a ?_
    rintro rfl
    exact h.not_free ha
  have hnew : ∀ n, node s.mem root n ≠ 0 → s₂.mem (node s.mem root n) = s.mem (node s.mem root n) :=
    fun n hn => hkeep _ (hb.nodes n hn)
  have hfree : ∀ a ∈ free₂, IsPage a ∧ ¬Owned s root (pagesOf sz) a := by
    intro a ha
    obtain hm | ho := hr.free a ha
    · exact hb.table.free_apart hm
    · have hne := (hr.pool.page a ha).1
      have ho := (owned_frame hold).mp ho
      refine ⟨?_, fun hown => (h.table.free_apart (hb.owned hne hown)).2 ho⟩
      obtain ⟨n, rfl⟩ | ⟨v, hv, rfl⟩ := ho
      · exact h.table.tables n hne
      · exact (h.table.space.user.own rfl v (Nat.zero_le v) (by omega)).page
  have htrap : s₂.mem p.trapframe = s₁.mem p.trapframe := hframe _ h.trapframe.1 h.not_owned
  refine ⟨⟨free₂, hb.table.frame hnew hr.pool hfree, h.trapframe, fun hm => ?_, fun ho => ?_⟩, rfl, rfl,
    fun v => mapping_congr (entry_frame hnew v), fun u hu => ?_, ?_, ?_, ?_⟩
  · obtain hm | ho := hr.free _ hm
    · exact h.not_free (hb.spent.rest hm)
    · exact h.not_owned ((owned_frame hold).mp ho)
  · exact h.not_free (hb.owned h.trapframe.1 ((owned_frame hnew).mp ho))
  · have hlt : u / 4096 < pagesOf sz := by
      change _ < (sz + 4095) / 4096
      omega
    rw [userByte, userByte, pageAt, entry_frame hnew]
    change (s₂.mem (pageAt s.mem root (u / 4096))).byte _ = _
    rw [hkeep _ (hb.users _ hlt)]
  · rw [htrap]
    exact hregs.1
  · rw [htrap]
    exact hregs.2.1
  · rw [htrap]
    exact hregs.2.2

omit [KernelImage] in
theorem ArgStack.congr {n sp : Nat} {ptrs : List Nat} (h : ArgStack s root n argv sp ptrs)
    (hu : ∀ u, u < n → userByte s' root u = userByte s root u) : ArgStack s' root n argv sp ptrs := by
  have harray : sp + (argv.length + 1) * 8 ≤ n := (h.within _ List.mem_cons_self).2
  have hword : ∀ i, i < argv.length + 1 → userWord s' root (sp + 8 * i) = userWord s root (sp + 8 * i) :=
    fun i hi => Lib.Bytes.natOfBytes_congr fun j hj => hu _ (by omega)
  refine ⟨h.aligned, fun i hi => ?_, ?_, ?_, h.disjoint, h.within⟩
  · rw [hword i (by omega)]
    exact h.pointers i hi
  · rw [hword _ (by omega)]
    exact h.null
  · have hin : ∀ x ∈ List.zipWith (fun a arg => (a, List.length arg + 1)) ptrs argv, x.1 + x.2 ≤ n :=
      fun x hx => (h.within x (List.mem_cons_of_mem _ hx)).2
    have hs := h.strings
    clear h harray hword
    induction hs with
    | nil => exact .nil
    | cons hfirst _ ih =>
      rw [List.zipWith_cons_cons] at hin
      refine .cons ⟨hfirst.1, fun k hk => ?_⟩ (ih fun x hx => hin x (List.mem_cons_of_mem _ hx))
      have hend := hin _ List.mem_cons_self
      dsimp only at hend
      rw [hu _ (by omega)]
      exact hfirst.2 k hk

/-- The process `p'` is about to start the program in `file`, with the segments `segs` (the latest
first) and the arguments `argv`. -/
structure Started (file : List UInt8) (segs : List Proghdr) (elf : Elfhdr) (argv : List (List UInt8))
    (p p' : Proc) (s' : Phys) : Prop where
  ok : ∃ free', ProcOk s' p' free'
  size : p'.sz = pagesOf (top segs) * 4096 + 8192
  loaded : ∀ ph ∈ segs, Loaded file ph
  byte : ∀ u, u < p'.sz - 4096 → userByte s' p'.pagetable u = image file segs u
  guard : ∃ pa flags, mapping s'.mem p'.pagetable (p'.sz / 4096 - 2) = some (pa, flags) ∧
    flags &&& PTE_U = 0
  epc : s'.mem p.trapframe epcWord = elf.entry
  args : ∃ sp, s'.mem p.trapframe a1Word = sp ∧ s'.mem p.trapframe spWord = sp ∧
    ArgStack s' p'.pagetable p'.sz argv sp (slots p'.sz argv)

theorem giveUp_meets {n : Nat} {Q : Int × Proc → Phys → Prop}
    (hb : Building s₀ free₀ kernelPages s root free (pagesOf n))
    (hQ : ∀ s' free', Spent s₀ free₀ s' free' → Q (-1, p) s') :
    Meets (do procFreepagetable root n; return (-1, p)) s Q (fun _ => False) := by
  refine Meets.seq (procFreepagetable_meets hb.table rfl) ?_
  rintro _ s' ⟨free', hr⟩
  exact Meets.pure (hQ s' free' (hb.released hr))

theorem Imaged.round (h : Imaged s₀ free₀ file segs s root free sz) :
    Imaged s₀ free₀ file segs s root free (pagesOf sz * PGSIZE) := by
  obtain ⟨hb, ha, hle, hl, hu⟩ := h
  have hpages : pagesOf (pagesOf sz * PGSIZE) = pagesOf sz := pagesOf_mul _
  rw [← hpages] at hb ha hu
  exact ⟨hb, ha, hle.trans (le_pagesOf sz), hl, hu⟩

structure Stacked (s₀ : Phys) (free₀ : List Nat) (file : List UInt8) (segs : List Proghdr)
    (argv : List (List UInt8)) (root : Nat) (free : List Nat) (np : Nat) (r : Option Nat) (s : Phys) :
    Prop where
  building : Building s₀ free₀ kernelPages s root free (np + 1 + 1)
  byte : ∀ u, u < (np + 1) * 4096 → userByte s root u = image file segs u
  guard : ¬Accessible s root np
  fits : r.isSome ↔ Fits argv
  args : ∀ sp, r = some sp →
    ArgStack s root ((np + 1) * 4096 + 4096) argv sp (slots ((np + 1) * 4096 + 4096) argv)

theorem stack_meets {np : Nat} (hi : Imaged s₀ free₀ file segs s root free ((np + 2) * PGSIZE))
    (hargs : ∀ arg ∈ argv, arg.length < 4096) (hcount : argv.length ≤ MAXARG) :
    Meets (do
        uvmclear root ((np + 2) * PGSIZE - 2 * PGSIZE)
        pushStack root ((np + 2) * PGSIZE) argv) s
      (fun r s' => Stacked s₀ free₀ file segs argv root free np r s') (fun _ => False) := by
  obtain ⟨hb, ha, -, hl, hu⟩ := hi
  have hpages : pagesOf ((np + 2) * PGSIZE) = np + 1 + 1 := pagesOf_mul _
  have hguard : (np + 2) * PGSIZE - 2 * PGSIZE = np * 4096 := by
    rw [← Nat.sub_mul, Nat.add_sub_cancel]
    rfl
  rw [hpages] at hb ha hu
  have hmem := hb.table.space.le_memory
  have hin : np < np + 1 + 1 := by omega
  have hlt : np + 1 < 2 ^ 27 := by omega
  have hsize : (np + 2) * PGSIZE = (np + 1) * 4096 + 4096 := Nat.succ_mul (np + 1) 4096
  rw [hguard, hsize]
  clear hguard hsize
  refine Meets.seq (Meets.of_eq (Q := fun _ t => t = hide s root np) (uvmclear_eq hb.table hin) rfl) ?_
  rintro _ _ rfl
  have hb₁ := Building.hide hb.table hin (ha np hin) hb
  have hacc : Accessible (hide s root np) root (np + 1) := by
    rw [Accessible, hide_entry hb.table hin hlt, if_neg (Nat.succ_ne_self np)]
    exact ha.accessible (Nat.lt_succ_self _)
  have hhidden : ¬Accessible (hide s root np) root np := hide_not_accessible hb.table hin
  have hbyte₁ : ∀ u, u < (np + 1 + 1) * 4096 → userByte (hide s root np) root u = image file segs u :=
    fun u hlt => (hide_userByte hb.table hin hlt).trans (hu u hlt)
  generalize hide s root np = s₁ at *
  refine (pushStack_meets hb₁.table hacc (by omega) hargs hcount).post ?_
  rintro r s₂ ⟨ht, hr⟩
  have hbyte : ∀ u, u < (np + 1) * 4096 → userByte s₂ root u = image file segs u := by
    intro u hlt
    have hall : u < (np + 1 + 1) * 4096 := by
      rw [Nat.succ_mul (np + 1)]
      exact Nat.lt_add_right _ hlt
    rw [ht.byte u hall fun hc => Nat.not_le.mpr hlt hc.1, hbyte₁ u hall]
  have hguard : ¬Accessible s₂ root np := by
    rw [Accessible, ht.entry]
    exact hhidden
  cases r with
  | none => exact ⟨hb₁.wrote ht.wrote, hbyte, hguard, by simpa using hr, by rintro _ ⟨⟩⟩
  | some sp =>
    refine ⟨hb₁.wrote ht.wrote, hbyte, hguard, by simpa using hr.1, fun sp' he => ?_⟩
    obtain rfl := Option.some.inj he
    exact hr.2

theorem enterImage_meets {np : Nat} (h : ProcOk s₀ p free₀)
    (hi : Imaged s₀ free₀ file segs s root free ((np + 2) * PGSIZE)) (hnp : np = pagesOf (top segs))
    (hargs : ∀ arg ∈ argv, arg.length < 4096) (hcount : argv.length ≤ MAXARG) :
    Meets (enterImage p path argv elf root ((np + 2) * PGSIZE)) s
      (fun r s' => r = (-1, p) ∧ ¬Fits argv ∧ (∃ free', Spent s₀ free₀ s' free') ∨
        r.1 = argv.length ∧ Fits argv ∧ Started file segs elf argv p r.2 s')
      (fun _ => False) := by
  have hl := hi.loaded
  rw [enterImage, ← bind_assoc]
  refine Meets.seq (stack_meets hi hargs hcount) ?_
  intro r s₁ hst
  have hb := hst.building
  have hpages : pagesOf ((np + 2) * PGSIZE) = np + 1 + 1 := pagesOf_mul _
  have hsize : (np + 2) * PGSIZE = (np + 1) * 4096 + 4096 := Nat.succ_mul (np + 1) 4096
  rw [← hpages] at hb
  cases r with
  | none => exact giveUp_meets hb fun s' free' hs => .inl ⟨rfl, by simpa using hst.fits, free', hs⟩
  | some sp =>
    refine (switch_meets h hb).post ?_
    rintro ⟨n, p'⟩ s' ⟨hn, hw⟩
    obtain rfl := hw.pagetable
    have hsz : p'.sz = (np + 1) * 4096 + 4096 := hw.size.trans hsize
    have hbyte : ∀ u, u < (np + 1) * 4096 + 4096 →
        userByte s' p'.pagetable u = userByte s₁ p'.pagetable u := by
      rw [← hsize]
      exact hw.byte
    clear hsize
    refine .inr ⟨hn, hst.fits.mp rfl, hw.ok, ?_, hl, fun u hlt => ?_, ?_, hw.epc, sp, hw.a1, hw.sp, ?_⟩
    · rw [hsz, ← hnp]
      omega
    · rw [hsz, Nat.add_sub_cancel] at hlt
      rw [hbyte u (Nat.lt_add_right _ hlt)]
      exact hst.byte u hlt
    · have hv : p'.sz / 4096 - 2 = np := by
        rw [hsz]
        omega
      have hvalid := hst.building.table.space.user.valid np (Nat.zero_le _) (by omega)
      refine ⟨pageAt s₁.mem p'.pagetable np, PTE_FLAGS (entry s₁.mem p'.pagetable np), ?_, ?_⟩
      · rw [hv, hw.mapping, mapping, if_neg hvalid]
        rfl
      · rw [← and_flags _ (by decide)]
        exact not_not.mp hst.guard
    · rw [hsz]
      exact (hst.args sp rfl).congr hbyte

theorem startImage_meets (h : ProcOk s₀ p free₀) (hi : Imaged s₀ free₀ file segs s root free sz)
    (hsz : sz = top segs) (hargs : ∀ arg ∈ argv, arg.length < 4096) (hcount : argv.length ≤ MAXARG) :
    Meets (startImage p path argv elf root sz) s
      (fun r s' => r = (-1, p) ∧ (∃ free', Spent s₀ free₀ s' free') ∨
        r.1 = argv.length ∧ Fits argv ∧ Started file segs elf argv p r.2 s')
      (fun _ => False) := by
  have hmem := hi.building.table.space.le_memory
  have hbound : sz < 2 ^ 63 := by
    have := le_pagesOf sz
    omega
  have hnew : (pagesOf sz * PGSIZE + 2 * PGSIZE) % 2 ^ 64 = (pagesOf sz + 2) * PGSIZE := by
    rw [Nat.add_mul]
    change (pagesOf sz * 4096 + 2 * 4096) % 2 ^ 64 = pagesOf sz * 4096 + 2 * 4096
    omega
  have hround := hi.round
  have hle : pagesOf sz * PGSIZE ≤ (pagesOf sz + 2) * PGSIZE := Nat.mul_le_mul_right _ (by omega)
  rw [startImage, PGROUNDUP_pages hbound, hnew]
  refine Meets.seq (uvmalloc_meets hround.building.table.space hle) ?_
  rintro r s₁ ⟨free₁, ⟨rfl, hg⟩ | ⟨rfl, hr⟩⟩
  · have hne : (pagesOf sz + 2) * PGSIZE ≠ 0 := Nat.mul_ne_zero (by omega) (by decide)
    rw [if_neg hne]
    refine (enterImage_meets h (hround.grown hle hg) (by rw [hsz]) hargs hcount).post ?_
    rintro r s' (⟨hr, -, hs⟩ | hr)
    · exact .inl ⟨hr, hs⟩
    · exact .inr hr
  · rw [if_pos rfl]
    exact giveUp_meets (hround.building.restored hr) fun s' free' hs => .inl ⟨rfl, free', hs⟩

theorem exec_meets {trampoline : UInt64} (h : ProcOk s p free) {file : Option (List UInt8)}
    (hargs : ∀ arg ∈ argv, arg.length < 4096) (hcount : argv.length ≤ MAXARG) :
    Meets (exec trampoline p file path argv) s
      (fun r s' => r = (-1, p) ∧ (∃ free', Spent s free s' free') ∨
        ∃ bytes elf, file = some bytes ∧ elf = Elfhdr.ofBytes (readi bytes 0 64) ∧
          (∀ i, i < elf.phnum → (header bytes elf i).length = 56) ∧
          r.1 = argv.length ∧ Fits argv ∧
          Started bytes (loads bytes elf elf.phnum 0).reverse elf argv p r.2 s')
      (fun _ => False) := by
  have hpool := h.table.space.table.pool
  have hsame : ∃ free', Spent s free s free' := ⟨free, hpool, fun _ => id, fun _ _ _ => rfl⟩
  cases file with
  | none => exact Meets.pure (.inl ⟨rfl, hsame⟩)
  | some bytes =>
    simp only [exec]
    split
    next => exact Meets.pure (.inl ⟨rfl, hsame⟩)
    next =>
    split
    next => exact Meets.pure (.inl ⟨rfl, hsame⟩)
    next =>
    refine Meets.seq (procPagetable_meets hpool h.table.space.pages trampoline.toNat_lt
      h.trapframe.2) ?_
    rintro root s₁ ⟨free₁, ⟨rfl, hs⟩ | ⟨hroot, hb⟩⟩
    · rw [if_pos rfl]
      exact Meets.pure (.inl ⟨rfl, free₁, hs⟩)
    · rw [if_neg hroot]
      have hempty : Imaged s free bytes [] s₁ root free₁ 0 :=
        ⟨hb, fun v hv => absurd hv (Nat.not_lt_zero v), le_rfl, nofun,
          fun u hu => absurd hu (Nat.not_lt_zero u)⟩
      refine Meets.seq (loadSegments_meets hempty rfl) ?_
      rintro ⟨sz, ok⟩ s₂ ⟨free₂, hr⟩
      cases ok with
      | false => exact giveUp_meets hr fun s' free' hs => .inl ⟨rfl, free', hs⟩
      | true =>
        obtain ⟨hheads, hsz, hi⟩ := hr
        rw [List.append_nil] at hsz hi
        refine (startImage_meets h hi hsz hargs hcount).post ?_
        rintro r s' (hr | hr)
        · exact .inl hr
        · exact .inr ⟨bytes, _, rfl, rfl, fun i hi => hheads i (Nat.zero_le i) (by omega), hr⟩

end Xv6.Exec

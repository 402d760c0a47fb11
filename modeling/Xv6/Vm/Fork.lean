import Xv6.Vm.Copy

namespace Xv6.Vm

open Lib.Command

section Kernel

variable [KernelImage]

def copyPages (old new : Nat) : (n i : Nat) → VmM (Bool × List Nat)
  | 0, _ => return (true, [])
  | n + 1, i => do
    match ← walk old i false with
    | none => throw .uvmcopyNoPte
    | some pte => do
      let w ← load pte
      if w &&& PTE_V = 0 then throw .uvmcopyNotPresent
      else do
        let mem ← kalloc
        if mem = 0 then do
          uvmunmap new 0 (i / PGSIZE) true
          return (false, [])
        else do
          modify fun s => s.setPage mem (s.mem (PTE2PA w))
          if ← mappages new i PGSIZE mem (PTE_FLAGS w) then do
            let (ok, more) ← copyPages old new n (i + PGSIZE)
            return (ok, mem :: more)
          else do
            kfree mem
            uvmunmap new 0 (i / PGSIZE) true
            return (false, [mem])

/-- Copy `sz` bytes of a parent's memory into a child's page table. -/
def uvmcopy (old new sz : Nat) : VmM (Bool × List Nat) :=
  copyPages old new ((sz + (PGSIZE - 1)) / PGSIZE) 0

/-- An address space of `np` pages: above them, user code has access to nothing. -/
structure AddressSpace (s : Phys) (root : Nat) (free : List Nat) (np : Nat) : Prop where
  space : Space s root free np
  top : ∀ v, np ≤ v → ¬UserPage s root v

variable {s s₀ s' : Phys} {old new np n k : Nat} {free free₀ free' : List Nat}

theorem AddressSpace.confined {root : Nat} (h : AddressSpace s root free np) : Confined s root := by
  have hlt : ∀ v, UserPage s root v → v < np := fun v hv =>
    Nat.lt_of_not_le fun hle => h.top v hle hv
  refine ⟨⟨h.space.table.tree, fun v hv => ?_⟩, fun v n hv => ?_⟩
  · exact (h.space.user.own rfl v (Nat.zero_le v) (by have := hlt v hv; omega)).page.bounds.1
  · exact (h.space.user.own rfl v (Nat.zero_le v) (by have := hlt v hv; omega)).not_table n

omit [KernelImage] in
theorem flags_or_valid {w : Nat} (h : w &&& PTE_V ≠ 0) : PTE_FLAGS w ||| PTE_V = PTE_FLAGS w := by
  rw [and_flags w (by decide : PTE_V < 1024)] at h
  apply Nat.eq_of_testBit_eq
  intro i
  rw [Nat.testBit_or]
  cases i with
  | zero => simp_all [PTE_V]
  | succ i => simp [PTE_V, Nat.testBit_succ]

omit [KernelImage] in
theorem Phys.pop_of_ne {a : Nat} (h : a ≠ s.freelist) : s.pop.mem a = s.mem a :=
  Function.update_of_ne h ..

structure Beside (s : Phys) (old new np : Nat) : Prop where
  tables : ∀ n m, node s.mem old n ≠ 0 → node s.mem new m ≠ node s.mem old n
  users : ∀ v m, v < np → node s.mem new m ≠ pageAt s.mem old v

structure Unchanged (old np : Nat) (s s' : Phys) : Prop where
  tables : ∀ n, node s.mem old n ≠ 0 → s'.mem (node s.mem old n) = s.mem (node s.mem old n)
  users : ∀ v, v < np → s'.mem (pageAt s.mem old v) = s.mem (pageAt s.mem old v)

structure Copying (old child : Nat) (s₀ : Phys) (free₀ : List Nat) (s : Phys) (free : List Nat)
    (k : Nat) : Prop extends Taken child 0 s₀ free₀ s free k where
  page : ∀ v, 0 ≤ v → v < k → s.mem (pageAt s.mem child v) = s₀.mem (pageAt s₀.mem old v)
  flags : ∀ v, 0 ≤ v → v < k →
    PTE_FLAGS (Vm.entry s.mem child v) = PTE_FLAGS (Vm.entry s₀.mem old v)

theorem Copying.keeps (h : Copying old new s₀ free₀ s free k) (hk : Keeps new s free s' free')
    (ht : Table s' new free') : Copying old new s₀ free₀ s' free' k := by
  have hle := h.space.le
  rw [userPages_eq] at hle
  refine ⟨h.toTaken.keeps hk ht, fun v hv hv' => ?_, fun v hv hv' => ?_⟩
  · rw [hk.pageAt (by omega), h.space.page_frame hk.grows hv']
    exact h.page v hv hv'
  · rw [hk.entry v (by omega)]
    exact h.flags v hv hv'

theorem Copying.append {a : Nat} (h : Copying old new s₀ free₀ s free k)
    (hvalid : Vm.entry s₀.mem old k &&& PTE_V ≠ 0) (hl : Loose s new free k a) (ha : a ∈ free₀)
    (hcopy : s.mem a = s₀.mem (pageAt s₀.mem old k)) (hg : Grows new s free s' free')
    (hs : Space s' new free' (k + 1))
    (hfill : Filled s.mem s'.mem new k 1 a (PTE_FLAGS (Vm.entry s₀.mem old k))) :
    Copying old new s₀ free₀ s' free' (k + 1) := by
  have hle := hs.le
  rw [userPages_eq] at hle
  have hlt : k < 2 ^ 26 := by omega
  have hperm := PTE_FLAGS_lt (Vm.entry s₀.mem old k)
  refine ⟨h.toTaken.append hl ha hg hs hperm hfill, forall_lt_succ ?_ fun v hv hv' => ?_,
    forall_lt_succ ?_ fun v hv hv' => ?_⟩
  · rw [hfill.new_page hlt hperm hl.free.page, hg.frame a hl.free.not_free hl.free.not_table, hcopy]
  · rw [hfill.old_page hlt hv', h.space.page_frame hg hv']
    exact h.page v hv hv'
  · rw [hfill.new hlt, leaf_flags hperm, flags_or_valid hvalid]
  · rw [hfill.old hlt hv']
    exact h.flags v hv hv'

/-- Page `a` holds a copy of the next page, and is not mapped yet. -/
structure Allocated (old new : Nat) (s₀ : Phys) (free₀ : List Nat) (s : Phys) (free : List Nat)
    (k a : Nat) (s' : Phys) : Prop where
  copying : Copying old new s₀ free₀ s' free k
  loose : Loose s' new free k a
  copy : s'.mem a = s₀.mem (pageAt s₀.mem old k)
  pages : ∀ v, v < k → pageAt s'.mem new v = pageAt s.mem new v

theorem Taken.rollback_meets (h : Taken new 0 s₀ free₀ s free k) (h₀ : Space s₀ new free₀ 0)
    (l : List Nat) :
    Meets (do uvmunmap new 0 (k * PGSIZE / PGSIZE) true; return (false, l)) s
      (fun r s' => r = (false, l) ∧ ∃ free', Restored new 0 s₀ free₀ s' free' ∧ free ⊆ free' ∧
        ∀ v, v < k → pageAt s.mem new v ∈ free')
      (fun _ => False) := by
  have hle := h.space.le
  rw [userPages_eq] at hle
  rw [Nat.mul_div_cancel k (by decide), ← Nat.zero_mul PGSIZE]
  refine Meets.seq (uvmunmap_meets h.space.table (by omega) h.space.user) fun _ s' hu => ?_
  refine Meets.pure ⟨rfl, _, h.undo h₀ hu, fun a ha => List.mem_append.mpr (.inr ha), fun v hv => ?_⟩
  exact List.mem_append.mpr (.inl (mem_freed.mpr ⟨v, Nat.zero_le v, by omega, rfl⟩))

section Loop

variable (hp : Space s₀ old free₀ np) (hc : Space s₀ new free₀ 0) (hb : Beside s₀ old new np)

include hp hb

theorem Grows.unchanged (hg : Grows new s₀ free₀ s free) : Unchanged old np s₀ s := by
  refine ⟨fun n hn => ?_, fun v hv => ?_⟩
  · exact hg.frame _ (hp.table.apart n) fun m => hb.tables n m hn
  · exact hg.frame _ (hp.user.own rfl v (Nat.zero_le v) (by omega)).not_free fun m => hb.users v m hv

theorem Copying.alloc {a : Nat} (h : Copying old new s₀ free₀ s (a :: free) k) (ha : a ∈ free₀)
    (hk : k < np) (f : List Bool) :
    Allocated old new s₀ free₀ s free k a ((Phys.pop { s with fails := f }).setPage a
      ((Phys.pop { s with fails := f }).mem (pageAt s₀.mem old k))) := by
  have hle := hp.le
  rw [userPages_eq] at hle
  have hread : (Phys.pop { s with fails := f }).mem (pageAt s₀.mem old k) =
      s₀.mem (pageAt s₀.mem old k) := by
    have hne : pageAt s₀.mem old k ≠ ({ s with fails := f } : Phys).freelist := by
      intro he
      refine (hp.user.own rfl k (Nat.zero_le k) (by omega)).not_free ?_
      have hhead : s.freelist = a := h.space.table.pool.chain.1
      rw [he, hhead]
      exact ha
    exact (Phys.pop_of_ne hne).trans ((h.grows.unchanged hp hb).users k hk)
  rw [hread]
  obtain ⟨hmem, hlist⟩ := h.space.table.pool.popped f (s₀.mem (pageAt s₀.mem old k))
  generalize (Phys.pop { s with fails := f }).setPage a _ = s₁ at hmem hlist ⊢
  obtain ⟨hspace, hkeep, hloose⟩ := h.space.pop hmem hlist
  refine ⟨h.keeps hkeep hspace.table, hloose, ?_, fun v hv => hkeep.pageAt (by omega)⟩
  rw [hmem, Function.update_self]

include hc

theorem copyPages_meets (h : Copying old new s₀ free₀ s free k) (hk : k + n = np) :
    Meets (copyPages old new n (k * PGSIZE)) s
      (fun r s' => ∃ free', r.1 = true ∧ Copying old new s₀ free₀ s' free' np ∨
        r.1 = false ∧ Restored new 0 s₀ free₀ s' free' ∧ (∀ a ∈ r.2, a ∈ free') ∧
          ∀ v, v < k → pageAt s.mem new v ∈ free')
      (fun _ => False) := by
  induction n generalizing s free k with
  | zero =>
    obtain rfl : k = np := hk
    exact Meets.pure ⟨free, .inl ⟨rfl, h⟩⟩
  | succ n ih =>
    have hle := hp.le
    rw [userPages_eq] at hle
    have hsame := h.grows.unchanged hp hb
    have hentry := entry_frame hsame.tables k
    have hvalid := hp.user.valid k (Nat.zero_le k) (by omega)
    have hleaf := hp.user.leaf k (Nat.zero_le k) (by omega)
    have hlt : k < 2 ^ 26 := by omega
    obtain ⟨hwalk, hload⟩ := walk_valid (hp.table.tree.frame hsame.tables) hlt
      (by rw [hentry]; exact hvalid)
    rw [hentry] at hload
    rw [copyPages]
    refine Meets.bind (Meets.of_eq hwalk (Meets.bind (load_meets ?_)))
    rw [hload, if_neg hvalid]
    refine Meets.seq (kalloc_meets h.space.table.pool) ?_
    rintro a s₁ (⟨rfl, f, rfl⟩ | ⟨ha, free', f, rfl, rfl⟩)
    · rw [if_pos rfl]
      have hkeep : Keeps new s free { s with fails := f } free :=
        ⟨.fails new s free f, fun _ _ => rfl⟩
      refine ((h.keeps hkeep (h.space.table.fails f)).rollback_meets hc []).post ?_
      rintro r s' ⟨rfl, free', hr, -, hpages⟩
      exact ⟨free', .inr ⟨rfl, hr, nofun, hpages⟩⟩
    · rw [if_neg ha]
      refine Meets.bind (Meets.modify ?_)
      have hin : a ∈ free₀ := h.grows.rest List.mem_cons_self
      have hcopied := h.alloc hp hb hin (by omega) f
      change Meets _ ((Phys.pop { s with fails := f }).setPage a
        ((Phys.pop { s with fails := f }).mem (pageAt s₀.mem old k))) _ _
      generalize (Phys.pop { s with fails := f }).setPage a _ = s₁ at hcopied ⊢
      obtain ⟨hcopying, hloose, hcopy, hpages⟩ := hcopied
      have hspace := hcopying.space
      have hperm := PTE_FLAGS_lt (entry s₀.mem old k)
      refine Meets.seq (mapUser_meets hspace hspace.lt_userPages hperm
        (by rwa [flags_or_valid hvalid]) hloose) ?_
      rintro ok s₂ ⟨free₂, hg, hok⟩
      cases ok with
      | true =>
        obtain ⟨hs₂, hfill⟩ := hok
        have hnext : k * PGSIZE + PGSIZE = (k + 1) * PGSIZE := by rw [Nat.add_mul, Nat.one_mul]
        rw [if_pos rfl, hnext]
        refine Meets.seq (ih (hcopying.append hvalid hloose hin hcopy hg hs₂ hfill) (by omega)) ?_
        rintro ⟨ok, more⟩ s' ⟨free', ⟨rfl, hdone⟩ | ⟨rfl, hr, hmore, htaken⟩⟩
        · exact Meets.pure ⟨free', .inl ⟨rfl, hdone⟩⟩
        · refine Meets.pure ⟨free', .inr ⟨rfl, hr, fun b hb => ?_, fun v hv => ?_⟩⟩
          · obtain rfl | hb := List.mem_cons.mp hb
            · have := htaken k (by omega)
              rwa [hfill.new_page (by omega) hperm hloose.free.page] at this
            · exact hmore b hb
          · have := htaken v (by omega)
            rwa [hfill.old_page (by omega) hv, hpages v hv] at this
      | false =>
        obtain ⟨hs₂, hkeep₂⟩ := hok
        have hloose₂ := hloose.keeps (by omega) hkeep₂
        refine Meets.bind (kfree_meets hloose₂.free.page ?_)
        have htaken := (hcopying.keeps hkeep₂ hs₂.table).toTaken.push hloose₂ hin
        refine (htaken.rollback_meets hc [a]).post ?_
        rintro r s' ⟨rfl, free', hr, hsub, hback⟩
        refine ⟨free', .inr ⟨rfl, hr, fun b hb => ?_, fun v hv => ?_⟩⟩
        · obtain rfl := List.mem_singleton.mp hb
          exact hsub List.mem_cons_self
        · have := hback v hv
          rwa [pageAt, push_entry hloose₂.free.not_table, ← pageAt, hkeep₂.pageAt (by omega),
            hpages v hv] at this

end Loop

/-- Calls of `copyout` one after the other. -/
def copyouts (pagetable : Nat) : List (Nat × List UInt8) → VmM Unit
  | [] => return ()
  | (dstva, src) :: calls => do
    let _ ← copyout pagetable dstva src
    copyouts pagetable calls

/-- What can be read through `root` is the same in both states. -/
def SameView (root : Nat) (s s' : Phys) : Prop :=
  ∀ va len, va < 2 ^ 64 →
    ∃ r, copyin root va len s = .ok (r, s) ∧ copyin root va len s' = .ok (r, s')

structure Isolated (s : Phys) (root other : Nat) : Prop where
  writer : Confined s root
  reader : Confined s other
  tables : ∀ v n, UserPage s root v → pageAt s.mem root v ≠ node s.mem other n
  users : ∀ v u, UserPage s root v → UserPage s other u → pageAt s.mem root v ≠ pageAt s.mem other u

section Isolated

variable {root other : Nat} {ws : List (Place × UInt8)} (h : Isolated s root other)
  (hc : Copied root ws s s')

include h hc

omit [KernelImage]

theorem Isolated.frame (n : List (Fin 512)) :
    s'.mem (node s.mem other n) = s.mem (node s.mem other n) :=
  hc.frame _ fun v hv => h.tables v n hv

theorem Isolated.copied : Isolated s' root other := by
  have hframe : ∀ n, node s.mem other n ≠ 0 → _ := fun n _ => h.frame hc n
  refine ⟨hc.confined h.writer, h.reader.of_tables hframe, fun v n hv => ?_, fun v u hv hu => ?_⟩
  · rw [hc.pageAt_eq h.writer, node_frame hframe]
    exact h.tables v n ((hc.userPage_iff h.writer v).mp hv)
  · rw [hc.pageAt_eq h.writer, pageAt_frame hframe]
    exact h.users v u ((hc.userPage_iff h.writer v).mp hv) ((userPage_frame hframe u).mp hu)

theorem Isolated.sameView : SameView other s s' := by
  have hframe : ∀ n, node s.mem other n ≠ 0 → _ := fun n _ => h.frame hc n
  intro va len hva
  have hplaces := places_frame hframe va len
  have hbytes : (places s other va len).map (contents s') = (places s other va len).map (contents s) := by
    apply List.map_congr_left
    intro p hp
    obtain ⟨-, u, hu, hpage⟩ := mem_places hp
    rw [contents, contents, hc.frame p.1 fun v hv => ?_]
    rw [hpage]
    exact h.users v u hv hu
  refine ⟨_, copyinFrom_eq h.reader.toBacked hva le_rfl, ?_⟩
  rw [copyin, copyinFrom_eq (h.copied hc).reader.toBacked hva le_rfl, hplaces, hbytes]

end Isolated

omit [KernelImage] in
theorem SameView.trans {root : Nat} {s'' : Phys} (h : SameView root s s') (h' : SameView root s' s'') :
    SameView root s s'' := by
  intro va len hva
  obtain ⟨r, hr, hr'⟩ := h va len hva
  obtain ⟨r', hr₁, hr₂⟩ := h' va len hva
  obtain rfl : r = r' := (Prod.mk.inj (Except.ok.inj (hr'.symm.trans hr₁))).1
  exact ⟨r, hr, hr₂⟩

omit [KernelImage] in
theorem Isolated.copyouts {root other : Nat} (h : Isolated s root other)
    (calls : List (Nat × List UInt8)) (hva : ∀ c ∈ calls, c.1 < 2 ^ 64) :
    ∃ s', Vm.copyouts root calls s = .ok ((), s') ∧ SameView other s s' := by
  induction calls generalizing s with
  | nil =>
    refine ⟨s, rfl, fun va len hva => ?_⟩
    exact ⟨_, copyinFrom_eq h.reader.toBacked hva le_rfl, copyinFrom_eq h.reader.toBacked hva le_rfl⟩
  | cons call calls ih =>
    obtain ⟨dstva, src⟩ := call
    obtain ⟨s₁, hrun, hc⟩ := @copyoutFrom_copied s root dstva h.writer _ src
      (hva _ List.mem_cons_self) le_rfl
    obtain ⟨s', hrest, hview⟩ := ih (h.copied hc) fun c hc => hva c (List.mem_cons_of_mem _ hc)
    refine ⟨s', ?_, (h.sameView hc).trans hview⟩
    rw [Vm.copyouts, copyout, bind_of_ok hrun, hrest]

section Fork

variable (hp : AddressSpace s₀ old free₀ np) (hc : AddressSpace s₀ new free₀ 0)
  (hb : Beside s₀ old new np) (h : Copying old new s₀ free₀ s free np)

include hp hb h

theorem Copying.disjoint {v u : Nat} (hv : v < np) (hu : u < np) :
    pageAt s.mem new v ≠ pageAt s.mem old u := by
  have hsame := h.grows.unchanged hp.space hb
  rw [pageAt_frame hsame.tables]
  intro he
  refine (hp.space.user.own rfl u (Nat.zero_le u) (by omega)).not_free ?_
  rw [← he]
  exact h.new v (Nat.zero_le v) hv

theorem Copying.parent_lt {v : Nat} (hu : UserPage s old v) : v < np := by
  have hsame := h.grows.unchanged hp.space hb
  exact Nat.lt_of_not_le fun hle => hp.top v hle ((userPage_frame hsame.tables v).mp hu)

omit hp hb in
include hc in
theorem Copying.child : AddressSpace s new free np := by
  refine ⟨h.space, fun v hv hu => hc.top v (Nat.zero_le v) ?_⟩
  have hlt : v * 4096 < 2 ^ 38 := hu.1
  rw [UserPage, h.entry v (by omega) (by omega)] at hu
  exact hu

include hc

theorem Copying.isolated : Isolated s old new ∧ Isolated s new old := by
  have hsame := h.grows.unchanged hp.space hb
  have hparent := hp.confined.of_tables hsame.tables
  have hchild := (h.child hc).confined
  have hlt : ∀ v, UserPage s new v → v < np := fun v hu =>
    Nat.lt_of_not_le fun hle => (h.child hc).top v hle hu
  refine ⟨⟨hparent, hchild, fun v n hv he => ?_, fun v u hv hu he => ?_⟩,
    ⟨hchild, hparent, fun v n hv he => ?_, fun v u hv hu => ?_⟩⟩
  · have hv := h.parent_lt hp hb hv
    rw [pageAt_frame hsame.tables] at he
    exact h.grows.not_table (hp.space.user.own rfl v (Nat.zero_le v) (by omega)).not_free
      (fun m => hb.users v m hv) n he.symm
  · exact h.disjoint hp hb (hlt u hu) (h.parent_lt hp hb hv) he.symm
  · rw [node_frame hsame.tables] at he
    refine hp.space.table.apart n ?_
    rw [← he]
    exact h.new v (Nat.zero_le v) (hlt v hv)
  · exact h.disjoint hp hb (hlt v hv) (h.parent_lt hp hb hu)

end Fork

/-- `uvmcopy` leaves the parent as it is. If it succeeds, the child has the same pages with the same
flags in other frames, and copies through one of the two page tables do not show through the other.
If it fails, the child has no page below `sz`, and what was allocated for data is free again. -/
theorem uvmcopy_copies_isolates {sz : Nat} (hp : AddressSpace s old free (pagesOf sz))
    (hc : AddressSpace s new free 0) (hb : Beside s old new (pagesOf sz)) :
    Meets (uvmcopy old new sz) s
      (fun r s' => Unchanged old (pagesOf sz) s s' ∧
        (r.1 = true →
          (∀ v, v < pagesOf sz → s'.mem (pageAt s'.mem new v) = s.mem (pageAt s.mem old v) ∧
            PTE_FLAGS (entry s'.mem new v) = PTE_FLAGS (entry s.mem old v)) ∧
          (∀ v u, v < pagesOf sz → u < pagesOf sz → pageAt s'.mem new v ≠ pageAt s'.mem old u) ∧
          ∀ calls : List (Nat × List UInt8), (∀ c ∈ calls, c.1 < 2 ^ 64) →
            (∃ s'', copyouts old calls s' = .ok ((), s'') ∧ SameView new s' s'') ∧
            ∃ s'', copyouts new calls s' = .ok ((), s'') ∧ SameView old s' s'') ∧
        (r.1 = false →
          (∀ v, v < pagesOf sz → entry s'.mem new v &&& PTE_V = 0) ∧
          ∃ free', Pool s' free' ∧ ∀ a ∈ r.2, a ∈ free'))
      (fun _ => False) := by
  have hstart : Copying old new s free s free 0 :=
    ⟨.refl hc.space, fun v _ hv => absurd hv (Nat.not_lt_zero v),
      fun v _ hv => absurd hv (Nat.not_lt_zero v)⟩
  have hloop := copyPages_meets hp.space hc.space hb hstart (Nat.zero_add (pagesOf sz))
  rw [Nat.zero_mul] at hloop
  refine hloop.post ?_
  rintro ⟨ok, taken⟩ s' ⟨free', ⟨rfl, hdone⟩ | ⟨rfl, hr, htaken, -⟩⟩
  · refine ⟨hdone.grows.unchanged hp.space hb, fun _ => ⟨fun v hv => ?_, fun v u => ?_, ?_⟩, nofun⟩
    · exact ⟨hdone.page v (Nat.zero_le v) hv, hdone.flags v (Nat.zero_le v) hv⟩
    · exact hdone.disjoint hp hb
    · obtain ⟨hold, hnew⟩ := hdone.isolated hp hc hb
      exact fun calls hva => ⟨hold.copyouts calls hva, hnew.copyouts calls hva⟩
  · refine ⟨hr.grows.unchanged hp.space hb, nofun, fun _ => ⟨fun v hv => ?_, free', ?_, htaken⟩⟩
    · exact hr.space.unused v (Nat.zero_le v) (hv.trans_le hp.space.le)
    · exact hr.space.table.pool

theorem AddressSpace.empty {root : Nat} (hroot : s.mem root = Page.fill 0) (hne : root ≠ 0)
    (hpool : Pool s free) (hpages : ∀ a ∈ free, IsPage a) (hout : root ∉ free) :
    AddressSpace s root free 0 :=
  ⟨.empty hroot hne hpool hpages hout, fun v _ hu => hu.2.1 (entry_empty hroot v)⟩

end Kernel

def pair : Phys where
  mem a := if a ∈ [0x80010000, 0x80020000, 0x80030000, 0x80040000, 0x80050000] then
      Function.update (Page.fill 0) 0 (a + 0x10000)
    else Page.fill 0
  freelist := 0x80010000
  fails := []

def pairFree : List Nat :=
  [0x80010000, 0x80020000, 0x80030000, 0x80040000, 0x80050000, 0x80060000]

def parentRoot : Nat := 0x80000000

def childRoot : Nat := 0x80070000

theorem pair_beside : ∃ s free, @uvmalloc smallImage parentRoot 0 4096 pair = .ok (4096, s) ∧
    @AddressSpace smallImage s parentRoot free 1 ∧ @AddressSpace smallImage s childRoot free 0 ∧
    Beside s parentRoot childRoot 1 := by
  let _ := smallImage
  have hparent : pair.mem parentRoot = Page.fill 0 := rfl
  have hchild : pair.mem childRoot = Page.fill 0 := rfl
  have hpool : Pool pair pairFree := ⟨⟨rfl, rfl, rfl, rfl, rfl, rfl, rfl⟩, by decide, by decide⟩
  have hold := AddressSpace.empty hparent (by decide) hpool (by decide) (by decide)
  have hok : (uvmalloc parentRoot 0 4096 pair).toOption.map Prod.fst = some 4096 := by
    decide +kernel
  have hgrow : Meets (uvmalloc parentRoot 0 4096) pair _ _ := uvmalloc_meets hold.space (by decide)
  obtain ⟨r, s, hrun, free, hr⟩ := hgrow.ok fun _ => id
  rw [hrun] at hok
  obtain rfl : r = 4096 := Option.some.inj hok
  obtain ⟨-, hg⟩ : _ ∧ Grown parentRoot 0 pair pairFree s free 1 := hr.resolve_right (by simp)
  have hnode : ∀ n, node pair.mem parentRoot n ≠ childRoot := by
    intro n
    cases n with
    | nil => decide
    | cons i n =>
      rw [node_empty hparent]
      decide
  have hroot : s.mem childRoot = Page.fill 0 :=
    (hg.grows.frame childRoot (by decide) hnode).trans hchild
  have hmem : ∀ m, node s.mem childRoot m = childRoot ∨ node s.mem childRoot m = 0 := by
    intro m
    cases m with
    | nil => exact .inl rfl
    | cons i m => exact .inr (node_empty hroot ..)
  refine ⟨s, free, hrun, ⟨hg.space, fun v hv hu => ?_⟩, ?_, fun n m hn he => ?_, fun v m hv he => ?_⟩
  · have hlt : v * 4096 < 2 ^ 38 := hu.1
    rw [UserPage, hg.entry v (by omega) (by omega)] at hu
    exact hu.2.1 (entry_empty hparent v)
  · exact .empty hroot (by decide) hg.space.table.pool hg.space.pages fun hin =>
      absurd (hg.grows.rest hin) (by decide)
  · obtain hm | hm := hmem m
    · rw [hm] at he
      exact hg.grows.not_table (by decide) hnode n he.symm
    · exact hn (he.symm.trans hm)
  · have hin := hg.new v (Nat.zero_le v) hv
    obtain hm | hm := hmem m
    · rw [← he, hm] at hin
      exact absurd hin (by decide)
    · rw [← he, hm] at hin
      exact absurd hin (by decide)

theorem uvmcopy_copies_isolates_pair :
    ∃ s r s', @uvmalloc smallImage parentRoot 0 4096 pair = .ok (4096, s) ∧
      @uvmcopy smallImage parentRoot childRoot 4096 s = .ok ((true, r), s') ∧
      s'.mem (pageAt s'.mem childRoot 0) = s.mem (pageAt s.mem parentRoot 0) ∧
      pageAt s'.mem childRoot 0 ≠ pageAt s'.mem parentRoot 0 := by
  let _ := smallImage
  obtain ⟨s, free, hrun, hp, hc, hb⟩ := pair_beside
  have hcopy := @uvmcopy_copies_isolates smallImage s parentRoot childRoot free 4096 hp hc hb
  obtain ⟨⟨ok, r⟩, s', hrun', -, htrue, -⟩ := hcopy.ok fun _ => id
  have hok : ((do let _ ← uvmalloc parentRoot 0 4096; uvmcopy parentRoot childRoot 4096 : VmM _)
      pair).toOption.map (fun r => r.1.1) = some true := by decide +kernel
  rw [bind_of_ok hrun, hrun'] at hok
  obtain rfl : ok = true := Option.some.inj hok
  obtain ⟨hsame, hdisjoint, -⟩ := htrue rfl
  exact ⟨s, r, s', hrun, hrun', (hsame 0 (by decide)).1, hdisjoint 0 0 (by decide) (by decide)⟩

end Xv6.Vm

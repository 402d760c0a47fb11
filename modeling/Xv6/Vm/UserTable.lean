import Xv6.Vm.Freewalk

namespace Xv6.Vm

open Lib.Command

variable [KernelImage] {s s' s₀ : Phys} {root a np np' sz v : Nat}
  {free free' free₀ kernel kernel' : List Nat}

def procPagetable (trampoline trapframe : Nat) : VmM Nat := do
  let pagetable ← uvmcreate
  if pagetable = 0 then return 0
  else if ← mappages pagetable TRAMPOLINE PGSIZE trampoline (PTE_R ||| PTE_X) then
    if ← mappages pagetable TRAPFRAME PGSIZE trapframe (PTE_R ||| PTE_W) then return pagetable
    else do
      uvmunmap pagetable TRAMPOLINE 1 false
      uvmfree pagetable 0
      return 0
  else do
    uvmfree pagetable 0
    return 0

def procFreepagetable (pagetable sz : Nat) : VmM Unit := do
  uvmunmap pagetable TRAMPOLINE 1 false
  uvmunmap pagetable TRAPFRAME 1 false
  uvmfree pagetable sz

/-- A page table with `np` pages of user memory, and above it the pages `kernel`, which do not
belong to it. -/
structure UserTable (kernel : List Nat) (s : Phys) (root : Nat) (free : List Nat) (np : Nat) :
    Prop where
  space : Space s root free np
  kernel : ∀ v, userPages ≤ v → v < 2 ^ 27 → if v ∈ kernel
    then ∃ pa flags, mapping s.mem root v = some (pa, flags) ∧ flags ≠ PTE_V
    else mapping s.mem root v = none
  plain : Plain s.mem root
  tables : ∀ n, node s.mem root n ≠ 0 → IsPage (node s.mem root n)

/-- Page `a` is a table of the page table at `root` or a page of its user memory. -/
def Owned (s : Phys) (root np a : Nat) : Prop :=
  (∃ n, node s.mem root n = a) ∨ ∃ v, v < np ∧ pageAt s.mem root v = a

structure Released (root np : Nat) (s : Phys) (free : List Nat) (s' : Phys) (free' : List Nat) :
    Prop where
  pool : Pool s' free'
  free : ∀ a ∈ free', a ∈ free ∨ Owned s root np a
  frame : ∀ a, ¬Owned s root np a → s'.mem a = s.mem a

omit [KernelImage] in
theorem mapping_some {m : Mem} {pa flags : Nat} (h : mapping m root v = some (pa, flags)) :
    entry m root v &&& PTE_V ≠ 0 ∧ pageAt m root v = pa ∧ PTE_FLAGS (entry m root v) = flags := by
  rw [mapping] at h
  split at h
  · cases h
  next hv =>
    cases h
    exact ⟨hv, rfl, rfl⟩

theorem UserTable.grows (h : UserTable kernel s root free np) (hg : Grows root s free s' free')
    (hs : Space s' root free' np')
    (hk : ∀ v, userPages ≤ v → v < 2 ^ 27 → if v ∈ kernel'
      then ∃ pa flags, mapping s'.mem root v = some (pa, flags) ∧ flags ≠ PTE_V
      else mapping s'.mem root v = none) :
    UserTable kernel' s' root free' np' := by
  refine ⟨hs, hk, hg.plain h.plain, fun n hn => ?_⟩
  by_cases hz : node s.mem root n = 0
  · obtain hz' | hm := hg.fresh n hz
    · exact absurd hz' hn
    · exact h.space.pages _ hm
  · rw [hg.keep n hz]
    exact h.tables n hz

theorem UserTable.grown (h : UserTable kernel s root free np)
    (hg : Grown root np s free s' free' np') : UserTable kernel s' root free' np' := by
  have hle := hg.space.le
  refine h.grows hg.grows hg.space fun v hv hv' => ?_
  rw [mapping_congr (hg.entry v hv' (by omega))]
  exact h.kernel v hv hv'

theorem UserTable.restored (h : UserTable kernel s root free np)
    (hr : Restored root np s free s' free') : UserTable kernel s' root free' np := by
  refine h.grows hr.grows hr.space fun v hv hv' => ?_
  rw [hr.mapping v hv']
  exact h.kernel v hv hv'

theorem mapKernel_meets {perm : Nat} (h : UserTable kernel s root free np) (hlo : userPages ≤ v)
    (hhi : v < 2 ^ 26) (hv : v ∉ kernel) (ha : a < 2 ^ 64) (hperm : perm < 1024)
    (hrwx : perm &&& (PTE_R ||| PTE_W ||| PTE_X) ≠ 0) :
    Meets (mappages root (v * PGSIZE) PGSIZE a perm) s
      (fun ok s' => ∃ free', Grows root s free s' free' ∧
        (∀ u, u < userPages → entry s'.mem root u = entry s.mem root u) ∧
        UserTable (if ok then v :: kernel else kernel) s' root free' np)
      (fun _ => False) := by
  have hnone := h.kernel v hlo (by omega)
  rw [if_neg hv] at hnone
  refine (mapPage_meets h.space.table hhi ha (mapping_eq_none_iff.mp hnone)).post ?_
  rintro ok s' ⟨free', ht, hg, hfill⟩
  have huser : ∀ u, u < userPages → entry s'.mem root u = entry s.mem root u := by
    intro u hu
    have hmax := userPages_eq
    rw [hfill u (by omega), if_neg (by omega)]
  have hs : Space s' root free' np :=
    h.space.of_entry ht huser (fun _ _ hf => hf.grows hg) fun b hb => h.space.pages b (hg.rest hb)
  refine ⟨free', hg, huser, h.grows hg hs fun u hu hu' => ?_⟩
  have hold := h.kernel u hu hu'
  have he := hfill u hu'
  cases ok with
  | false =>
    rw [if_neg (by simp)] at he
    rw [mapping_congr he]
    exact hold
  | true =>
    by_cases heq : u = v
    · subst heq
      rw [if_pos (by simp)] at he
      have hvalid : entry s'.mem root u &&& PTE_V ≠ 0 := by
        rw [he]
        exact leaf_valid hperm
      rw [if_pos (by simp)]
      refine ⟨pageAt s'.mem root u, perm ||| PTE_V, ?_, flags_ne hrwx⟩
      rw [mapping, if_neg hvalid, pageAt, he, leaf_flags hperm]
    · rw [if_neg (by simp only [if_true]; omega)] at he
      have hiff : u ∈ v :: kernel ↔ u ∈ kernel := by simp [heq]
      rw [mapping_congr he]
      simp only [if_true, hiff]
      exact hold

theorem unmapKernel_meets (h : UserTable kernel s root free np) (hlo : userPages ≤ v)
    (hhi : v < 2 ^ 26) (hv : v ∈ kernel) :
    Meets (uvmunmap root (v * PGSIZE) 1 false) s
      (fun _ s' => UserTable (kernel.filter (· ≠ v)) s' root free np ∧
        Unmapped root v 1 false s free s')
      (fun _ => False) := by
  have hold := h.kernel v hlo (by omega)
  rw [if_pos hv] at hold
  obtain ⟨pa, flags, hmap, hleaf⟩ := hold
  obtain ⟨hvalid, -, hflags⟩ := mapping_some hmap
  have hrange : Range root v 1 false s free := by
    refine ⟨fun u hu hu' => ?_, fun u hu hu' => ?_, nofun, nofun⟩
    · obtain rfl : u = v := by omega
      exact hvalid
    · obtain rfl : u = v := by omega
      rw [hflags]
      exact hleaf
  refine (uvmunmap_meets h.space.table (by omega) hrange).post ?_
  intro _ s' hu
  have htable : Table s' root free := by
    have ht := hu.table
    rwa [freed_false, List.nil_append] at ht
  have hspace : Space s' root free np := by
    refine h.space.of_entry htable (fun u hlt => ?_) (fun u _ hf => ⟨hf.page, hf.not_free, fun n => ?_⟩)
      h.space.pages
    · have hmax := userPages_eq
      rw [hu.entry u (by omega), if_neg (by omega)]
    · rw [hu.node]
      exact hf.not_table n
  refine ⟨⟨hspace, fun u hlo' hlt => ?_, hu.plain h.plain, fun n => ?_⟩, hu⟩
  · rw [hu.mapping hlt]
    by_cases heq : u = v
    · rw [if_neg (by simp [heq]), if_pos (by omega)]
    · have hiff : u ∈ kernel.filter (· ≠ v) ↔ u ∈ kernel := by simp [heq]
      have hout : ¬(v ≤ u ∧ u < v + 1) := by omega
      rw [if_neg hout]
      simp only [hiff]
      exact h.kernel u hlo' hlt
  · rw [hu.node]
    exact h.tables n

omit [KernelImage] in
theorem Released.unmapped {s₁ : Phys} (hu : Unmapped root v 1 false s free s₁) (hlo : userPages ≤ v)
    (hle : np ≤ userPages) (h : Released root np s₁ free s' free') :
    Released root np s free s' free' := by
  have hmax := userPages_eq
  have hown : ∀ a, Owned s₁ root np a ↔ Owned s root np a := by
    intro a
    have hpage : ∀ u, u < np → pageAt s₁.mem root u = pageAt s.mem root u := by
      intro u hlt
      rw [pageAt, pageAt, hu.entry u (by omega), if_neg (by omega)]
    refine or_congr (exists_congr fun n => ?_) (exists_congr fun u => and_congr_right fun hlt => ?_)
    · rw [hu.node]
    · rw [hpage u hlt]
  refine ⟨h.pool, fun a ha => (h.free a ha).imp_right (hown a).mp, fun a ha => ?_⟩
  rw [h.frame a fun ho => ha ((hown a).mp ho)]
  exact hu.frame a (fun n he => ha (.inl ⟨n, he⟩)) fun hc => absurd hc Bool.false_ne_true

theorem UserTable.freewalk_meets {s₁ : Phys} (h : UserTable [] s root free np)
    (hu : Unmapped root 0 np true s free s₁) :
    Meets (freewalk 3 root) s₁ (fun _ s' => ∃ free', Released root np s free s' free')
      (fun _ => False) := by
  have hle := h.space.le
  have hmax := userPages_eq
  have hentry : ∀ v, v < 2 ^ 27 → entry s₁.mem root v &&& PTE_V = 0 := by
    intro v hv
    rw [hu.entry v hv]
    split
    · exact Nat.zero_and _
    next hout =>
      by_cases hlt : v < userPages
      · exact h.space.unused v (by omega) hlt
      · have hk := h.kernel v (by omega) hv
        rw [if_neg (by simp)] at hk
        exact mapping_eq_none_iff.mp hk
  have hhollow : Hollow s₁.mem root := by
    refine ⟨hu.table.tree, hu.plain h.plain, fun n k hn hne => leafless_of_entry hentry hn hne k, ?_⟩
    intro n
    rw [hu.node]
    exact h.tables n
  have hroot : node s₁.mem root [] ≠ 0 := hu.table.tree.root_ne
  refine (Vm.freewalk_meets hhollow rfl hroot (fun _ _ => rfl) hu.table.pool ?_).post ?_
  · rintro a ha ⟨-, q, -, rfl⟩
    exact hu.table.apart q ha
  · rintro _ s' ⟨free', hf⟩
    refine ⟨free', hf.pool, fun a ha => ?_, fun a ha => ?_⟩
    · obtain hm | ⟨-, q, -, rfl⟩ := hf.free a ha
      · obtain hm | hm := List.mem_append.mp hm
        · obtain ⟨v, -, hv, rfl⟩ := mem_freed.mp hm
          exact .inr (.inr ⟨v, by omega, rfl⟩)
        · exact .inl hm
      · rw [hu.node]
        exact .inr (.inl ⟨q, rfl⟩)
    · rw [hf.frame a, hu.frame a (fun n he => ha (.inl ⟨n, he⟩))]
      · exact fun _ v _ hv he => ha (.inr ⟨v, by omega, he⟩)
      · rintro ⟨-, q, -, rfl⟩
        exact ha (.inl ⟨q, (hu.node q).symm⟩)

theorem uvmfree_meets (h : UserTable [] s root free np) (hsz : pagesOf sz = np) :
    Meets (uvmfree root sz) s (fun _ s' => ∃ free', Released root np s free s' free')
      (fun _ => False) := by
  have hle := h.space.le
  have hmax := userPages_eq
  rw [uvmfree]
  split
  next hpos =>
    have hmem := h.space.le_memory
    have hbound : sz < 2 ^ 63 := by
      rw [← hsz] at hmem
      change (sz + 4095) / 4096 ≤ 2 ^ 15 at hmem
      omega
    have hcount : PGROUNDUP sz / PGSIZE = np := by
      rw [PGROUNDUP_pages hbound, hsz]
      exact Nat.mul_div_cancel np (by decide)
    have hunmap := uvmunmap_meets h.space.table (by omega) h.space.user
    rw [Nat.zero_mul] at hunmap
    rw [hcount]
    exact Meets.seq hunmap fun _ s₁ hu => h.freewalk_meets hu
  next hpos =>
    obtain rfl : np = 0 := by
      rw [← hsz]
      change (sz + 4095) / 4096 = 0
      omega
    refine h.freewalk_meets ⟨h.space.table, fun _ => rfl, fun u _ => ?_, fun _ _ _ => rfl, id⟩
    rw [if_neg (by omega)]

def kernelPages : List Nat := [TRAPFRAME / PGSIZE, TRAMPOLINE / PGSIZE]

theorem procFreepagetable_meets (h : UserTable kernelPages s root free np) (hsz : pagesOf sz = np) :
    Meets (procFreepagetable root sz) s (fun _ s' => ∃ free', Released root np s free s' free')
      (fun _ => False) := by
  have hle := h.space.le
  have htramp : TRAMPOLINE = TRAMPOLINE / PGSIZE * PGSIZE := by decide
  have hframe : TRAPFRAME = TRAPFRAME / PGSIZE * PGSIZE := by decide
  rw [procFreepagetable, htramp, hframe]
  refine Meets.seq (unmapKernel_meets h (by decide) (by decide) (by decide)) ?_
  rintro _ s₁ ⟨h₁, hu₁⟩
  refine Meets.seq (unmapKernel_meets h₁ (by decide) (by decide) (by decide)) ?_
  rintro _ s₂ ⟨h₂, hu₂⟩
  refine (uvmfree_meets h₂ hsz).post ?_
  rintro _ s' ⟨free', hr⟩
  exact ⟨free', (hr.unmapped hu₂ (by decide) hle).unmapped hu₁ (by decide) hle⟩

structure Spent (s₀ : Phys) (free₀ : List Nat) (s : Phys) (free : List Nat) : Prop where
  pool : Pool s free
  rest : free ⊆ free₀
  frame : ∀ a, a ≠ 0 → a ∉ free₀ → s.mem a = s₀.mem a

/-- A page table that has been made of pages of `free₀`, the free list of state `s₀`. -/
structure Building (s₀ : Phys) (free₀ kernel : List Nat) (s : Phys) (root : Nat) (free : List Nat)
    (np : Nat) : Prop where
  table : UserTable kernel s root free np
  spent : Spent s₀ free₀ s free
  nodes : ∀ n, node s.mem root n ≠ 0 → node s.mem root n ∈ free₀
  users : ∀ v, v < np → pageAt s.mem root v ∈ free₀

theorem Building.owned (h : Building s₀ free₀ kernel s root free np) (ha : a ≠ 0)
    (ho : Owned s root np a) : a ∈ free₀ := by
  obtain ⟨n, rfl⟩ | ⟨v, hv, rfl⟩ := ho
  · exact h.nodes n ha
  · exact h.users v hv

omit [KernelImage] in
theorem Spent.grows (h : Spent s₀ free₀ s free)
    (hn : ∀ n, node s.mem root n ≠ 0 → node s.mem root n ∈ free₀)
    (hg : Grows root s free s' free') (ht : Table s' root free') : Spent s₀ free₀ s' free' := by
  refine ⟨ht.pool, fun a ha => h.rest (hg.rest ha), fun a ha hout => ?_⟩
  rw [hg.frame a (fun hm => hout (h.rest hm)), h.frame a ha hout]
  rintro n rfl
  exact hout (hn n ha)

theorem Building.grows (h : Building s₀ free₀ kernel s root free np)
    (hg : Grows root s free s' free') (ht : UserTable kernel' s' root free' np')
    (hu : ∀ v, v < np' → pageAt s'.mem root v ∈ free₀) :
    Building s₀ free₀ kernel' s' root free' np' := by
  refine ⟨ht, h.spent.grows h.nodes hg ht.space.table, fun n hn => ?_, hu⟩
  by_cases hz : node s.mem root n = 0
  · obtain hz' | hm := hg.fresh n hz
    · exact absurd hz' hn
    · exact h.spent.rest hm
  · rw [hg.keep n hz]
    exact h.nodes n hz

theorem Building.grown (h : Building s₀ free₀ kernel s root free np)
    (hg : Grown root np s free s' free' np') : Building s₀ free₀ kernel s' root free' np' := by
  have hle := hg.space.le
  have hmax := userPages_eq
  refine h.grows hg.grows (h.table.grown hg) fun v hv => ?_
  by_cases hlt : v < np
  · rw [pageAt, hg.entry v (by omega) (by omega)]
    exact h.users v hlt
  · exact h.spent.rest (hg.new v (by omega) hv)

theorem Building.restored (h : Building s₀ free₀ kernel s root free np)
    (hr : Restored root np s free s' free') : Building s₀ free₀ kernel s' root free' np := by
  have hle := h.table.space.le
  have hmax := userPages_eq
  refine h.grows hr.grows (h.table.restored hr) fun v hv => ?_
  have hvalid := h.table.space.user.valid v (Nat.zero_le v) (by omega)
  have hmap := hr.mapping v (by omega)
  rw [mapping, mapping, if_neg hvalid] at hmap
  split at hmap
  · cases hmap
  · have hpage : pageAt s'.mem root v = pageAt s.mem root v :=
      congrArg Prod.fst (Option.some.inj hmap)
    rw [hpage]
    exact h.users v hv

theorem Building.released (h : Building s₀ free₀ kernel s root free np)
    (hr : Released root np s free s' free') : Spent s₀ free₀ s' free' := by
  refine ⟨hr.pool, fun a ha => ?_, fun a ha hout => ?_⟩
  · obtain hm | ho := hr.free a ha
    · exact h.spent.rest hm
    · exact h.owned (hr.pool.page a ha).1 ho
  · rw [hr.frame a fun ho => hout (h.owned ha ho), h.spent.frame a ha hout]

theorem uvmcreate_meets (h : Pool s free) (hp : ∀ a ∈ free, IsPage a) :
    Meets uvmcreate s
      (fun r s' => ∃ free', r = 0 ∧ Spent s free s' free' ∨
        r ≠ 0 ∧ Building s free [] s' r free' 0)
      (fun _ => False) := by
  apply Meets.seq (kalloc_meets h)
  rintro a s₁ (⟨rfl, f, rfl⟩ | ⟨ha, free', f, rfl, rfl⟩)
  · rw [if_pos rfl]
    exact Meets.pure ⟨free, .inl ⟨rfl, ⟨h.chain, h.nodup, h.page⟩, fun _ => id, fun _ _ _ => rfl⟩⟩
  · rw [if_neg ha]
    refine Meets.bind (Meets.modify (Meets.pure ⟨free', .inr ⟨ha, ?_⟩⟩))
    obtain ⟨hne, hnd⟩ := List.nodup_cons.mp h.nodup
    obtain ⟨hmem, hlist⟩ := h.popped f (.fill 0)
    generalize (Phys.pop { s with fails := f }).setPage a (.fill 0) = s₁ at *
    have hzero : s₁.mem a = Page.fill 0 := by
      rw [hmem, Function.update_self]
    have hother : ∀ b, b ≠ a → s₁.mem b = s.mem b := by
      intro b hb
      rw [hmem, Function.update_of_ne hb]
    have hpool : Pool s₁ free' := by
      refine ⟨?_, hnd, fun b hb => h.page b (List.mem_cons_of_mem a hb)⟩
      rw [hlist]
      refine h.chain.2.congr fun b hb => hother b ?_
      rintro rfl
      exact hne hb
    have hnode : ∀ n, node s₁.mem a n ≠ 0 → n = [] := by
      intro n hn
      cases n with
      | nil => rfl
      | cons i n => exact absurd (node_empty hzero i n) hn
    have hnone : ∀ v, mapping s₁.mem a v = none := mapping_empty hzero
    have htable : Table s₁ a free' := by
      refine ⟨tree_empty hzero ha, hpool, fun n hm => ?_⟩
      rw [hnode n (hpool.page _ hm).1] at hm
      exact hne hm
    refine ⟨⟨⟨htable, ⟨fun v _ hv => by omega, fun v _ hv => by omega, fun _ v _ hv => by omega,
      fun _ v u _ hv => by omega⟩, fun v _ _ => mapping_eq_none_iff.mp (hnone v), Nat.zero_le _,
      fun b hb => hp b (List.mem_cons_of_mem a hb)⟩, fun v _ _ => ?_, fun n k _ hn hv => ?_,
      fun n hn => ?_⟩, ⟨hpool, fun b => List.mem_cons_of_mem a, fun b _ hb => ?_⟩, fun n hn => ?_,
      fun v hv => by omega⟩
    · rw [if_neg (by simp)]
      exact hnone v
    · obtain rfl := hnode n hn
      have hword : s₁.mem a k &&& PTE_V = 0 := by
        rw [hzero]
        exact Nat.zero_and _
      exact absurd hword hv
    · obtain rfl := hnode n hn
      exact hp a List.mem_cons_self
    · refine hother b ?_
      rintro rfl
      exact hb List.mem_cons_self
    · obtain rfl := hnode n hn
      exact List.mem_cons_self

theorem procPagetable_meets {trampoline trapframe : Nat} (h : Pool s free)
    (hp : ∀ a ∈ free, IsPage a) (htramp : trampoline < 2 ^ 64) (hframe : trapframe < 2 ^ 64) :
    Meets (procPagetable trampoline trapframe) s
      (fun r s' => ∃ free', r = 0 ∧ Spent s free s' free' ∨
        r ≠ 0 ∧ Building s free kernelPages s' r free' 0)
      (fun _ => False) := by
  have hpages : TRAMPOLINE = TRAMPOLINE / PGSIZE * PGSIZE ∧
      TRAPFRAME = TRAPFRAME / PGSIZE * PGSIZE := by decide
  rw [procPagetable, hpages.1, hpages.2]
  refine Meets.seq (uvmcreate_meets h hp) ?_
  rintro root s₁ ⟨free₁, ⟨rfl, hspent⟩ | ⟨hroot, hb⟩⟩
  · rw [if_pos rfl]
    exact Meets.pure ⟨free₁, .inl ⟨rfl, hspent⟩⟩
  rw [if_neg hroot]
  -- a page table that is given up again
  have hgive : ∀ s₂ free₂, Building s free [] s₂ root free₂ 0 →
      Meets (do uvmfree root 0; return 0) s₂
        (fun r s' => ∃ free', r = 0 ∧ Spent s free s' free' ∨
          r ≠ 0 ∧ Building s free kernelPages s' r free' 0) (fun _ => False) := by
    intro s₂ free₂ hb₂
    refine Meets.seq (uvmfree_meets hb₂.table rfl) ?_
    rintro _ s' ⟨free', hr⟩
    exact Meets.pure ⟨free', .inl ⟨rfl, hb₂.released hr⟩⟩
  refine Meets.seq (mapKernel_meets hb.table (by decide) (by decide) (by simp) htramp (by decide)
    (by decide)) ?_
  rintro ok s₂ ⟨free₂, hg₂, -, ht₂⟩
  have hb₂ := hb.grows hg₂ ht₂ fun v hv => by omega
  cases ok with
  | false => exact hgive s₂ free₂ hb₂
  | true =>
    refine Meets.seq (mapKernel_meets ht₂ (by decide) (by decide) (by decide) hframe (by decide)
      (by decide)) ?_
    rintro ok s₃ ⟨free₃, hg₃, -, ht₃⟩
    have hb₃ := hb₂.grows hg₃ ht₃ fun v hv => by omega
    cases ok with
    | true => exact Meets.pure ⟨free₃, .inr ⟨hroot, hb₃⟩⟩
    | false =>
      refine Meets.seq (unmapKernel_meets hb₃.table (by decide) (by decide) (by decide)) ?_
      rintro _ s₄ ⟨ht₄, hu⟩
      refine hgive s₄ free₃ ⟨ht₄, ⟨ht₄.space.table.pool, hb₃.spent.rest, fun a ha hout => ?_⟩,
        fun n hn => ?_, fun v hv => by omega⟩
      · rw [hu.frame a (fun n he => ?_) nofun, hb₃.spent.frame a ha hout]
        subst he
        exact hout (hb₃.nodes n ha)
      · rw [hu.node] at hn ⊢
        exact hb₃.nodes n hn

end Xv6.Vm

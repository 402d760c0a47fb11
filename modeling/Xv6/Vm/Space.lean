import Xv6.Vm.Unmap

namespace Xv6.Vm

open Lib.Command

variable [KernelImage] {s s' s₁ s₂ : Phys} {root a np np' : Nat} {free free' free₁ free₂ : List Nat}

def userPages : Nat := TRAPFRAME / PGSIZE

omit [KernelImage] in
theorem userPages_eq : userPages = 2 ^ 26 - 2 := by decide

/-- The page table of a process with `np` pages of user memory. -/
structure Space (s : Phys) (root : Nat) (free : List Nat) (np : Nat) : Prop where
  table : Table s root free
  user : Range root 0 np true s free
  unused : ∀ v, np ≤ v → v < userPages → entry s.mem root v &&& PTE_V = 0
  le : np ≤ userPages
  pages : ∀ a ∈ free, IsPage a

structure Loose (s : Phys) (root : Nat) (free : List Nat) (np a : Nat) : Prop where
  free : Freeable s root free a
  not_user : ∀ v, v < np → pageAt s.mem root v ≠ a

theorem Space.le_memory (h : Space s root free np) : np ≤ 2 ^ 15 := by
  have hbounds : ∀ v, v < np → pageAt s.mem root v % 4096 = 0 ∧ 2 ^ 31 ≤ pageAt s.mem root v ∧
      pageAt s.mem root v < 2 ^ 31 + 2 ^ 27 := by
    intro v hv
    obtain ⟨hal, hlo, hhi⟩ := (h.user.own rfl v (Nat.zero_le v) (by omega)).page
    exact ⟨hal, le_trans KernelImage.kernelEnd_lo hlo, hhi⟩
  have hcard := Finset.card_le_card_of_injOn (s := Finset.range np) (t := Finset.range (2 ^ 15))
    (fun v => (pageAt s.mem root v - 2 ^ 31) / 4096) ?_ ?_
  · rwa [Finset.card_range, Finset.card_range] at hcard
  · intro v hv
    have := hbounds v (by simpa using hv)
    simp only [Finset.coe_range, Set.mem_Iio]
    omega
  · intro v hv u hu he
    have hv : v < np := by simpa using hv
    have hu : u < np := by simpa using hu
    have := hbounds v hv
    have := hbounds u hu
    have hpages : pageAt s.mem root v = pageAt s.mem root u := by
      dsimp only at he
      omega
    exact h.user.inj rfl v u (Nat.zero_le v) (by omega) (Nat.zero_le u) (by omega) hpages

theorem Space.lt_userPages (h : Space s root free np) : np < userPages := by
  have hle := h.le_memory
  rw [userPages_eq]
  omega

omit [KernelImage] in
theorem entry_empty (hroot : s.mem root = Page.fill 0) (v : Nat) :
    entry s.mem root v &&& PTE_V = 0 :=
  mapping_eq_none_iff.mp (mapping_empty hroot v)

theorem Space.empty (hroot : s.mem root = Page.fill 0) (hne : root ≠ 0) (hpool : Pool s free)
    (hpages : ∀ a ∈ free, IsPage a) (hout : root ∉ free) : Space s root free 0 := by
  have hnode : ∀ n, node s.mem root n ∉ free := by
    intro n
    cases n with
    | nil => exact hout
    | cons i n =>
      rw [node_empty hroot]
      exact fun hz => (hpool.page 0 hz).1 rfl
  refine ⟨⟨tree_empty hroot hne, hpool, hnode⟩, ⟨?_, ?_, ?_, ?_⟩, fun v _ _ => entry_empty hroot v,
    Nat.zero_le _, hpages⟩
  · intro v _ hv
    omega
  · intro v _ hv
    omega
  · intro _ v _ hv
    omega
  · intro _ v u _ hv
    omega

theorem Freeable.grows (h : Freeable s root free a) (hg : Grows root s free s' free') :
    Freeable s' root free' a := by
  exact ⟨h.page, fun ha => h.not_free (hg.rest ha), hg.not_table h.not_free h.not_table⟩

structure Keeps (root : Nat) (s : Phys) (free : List Nat) (s' : Phys) (free' : List Nat) : Prop where
  grows : Grows root s free s' free'
  entry : ∀ v, v < 2 ^ 27 → entry s'.mem root v = entry s.mem root v

theorem Space.of_pages (h : Space s root free np) (ht : Table s' root free')
    (hvalid : ∀ v, v < np → Vm.entry s'.mem root v &&& PTE_V ≠ 0 ∧
      PTE_FLAGS (Vm.entry s'.mem root v) ≠ PTE_V)
    (hpage : ∀ v, v < np → pageAt s'.mem root v = pageAt s.mem root v)
    (hunused : ∀ v, np ≤ v → v < userPages → Vm.entry s'.mem root v &&& PTE_V = 0)
    (hown : ∀ v, v < np → Freeable s root free (pageAt s.mem root v) →
      Freeable s' root free' (pageAt s.mem root v))
    (hpages : ∀ a ∈ free', IsPage a) : Space s' root free' np := by
  refine ⟨ht, ⟨fun v _ hv => (hvalid v (by omega)).1, fun v _ hv => (hvalid v (by omega)).2,
    fun hd v hv hv' => ?_, fun hd v u hv hv' hu hu' heq => ?_⟩, hunused, h.le, hpages⟩
  · rw [hpage v (by omega)]
    exact hown v (by omega) (h.user.own hd v hv hv')
  · rw [hpage v (by omega), hpage u (by omega)] at heq
    exact h.user.inj hd v u hv hv' hu hu' heq

theorem Space.of_entry (h : Space s root free np) (ht : Table s' root free')
    (he : ∀ v, v < userPages → Vm.entry s'.mem root v = Vm.entry s.mem root v)
    (hown : ∀ v, v < np → Freeable s root free (pageAt s.mem root v) →
      Freeable s' root free' (pageAt s.mem root v))
    (hpages : ∀ a ∈ free', IsPage a) : Space s' root free' np := by
  have hle := h.le
  refine h.of_pages ht (fun v hv => ?_) (fun v hv => ?_) (fun v hv hv' => ?_) hown hpages
  · rw [he v (by omega)]
    exact ⟨h.user.valid v (Nat.zero_le v) (by omega), h.user.leaf v (Nat.zero_le v) (by omega)⟩
  · rw [pageAt, pageAt, he v (by omega)]
  · rw [he v hv']
    exact h.unused v hv hv'

theorem Space.keeps (h : Space s root free np) (hk : Keeps root s free s' free')
    (ht : Table s' root free') : Space s' root free' np := by
  refine h.of_entry ht (fun v hv => hk.entry v ?_) (fun v _ hf => hf.grows hk.grows)
    fun a ha => h.pages a (hk.grows.rest ha)
  rw [userPages_eq] at hv
  omega

theorem Loose.keeps (h : Loose s root free np a) (hle : np ≤ 2 ^ 27)
    (hk : Keeps root s free s' free') : Loose s' root free' np a := by
  refine ⟨h.free.grows hk.grows, fun v hv => ?_⟩
  rw [pageAt, hk.entry v (by omega)]
  exact h.not_user v hv

omit [KernelImage] in
theorem Table.pop {p : Page} (h : Table s root (a :: free)) (hm : s'.mem = Function.update s.mem a p)
    (hf : s'.freelist = s.mem a 0) :
    Table s' root free ∧ Keeps root s (a :: free) s' free ∧
      ∀ n, node s'.mem root n = node s.mem root n := by
  have hnode : ∀ n, node s.mem root n ≠ a := by
    intro n he
    exact h.apart n (by rw [he]; exact List.mem_cons_self)
  have hother : ∀ b, b ≠ a → s'.mem b = s.mem b := by
    intro b hb
    rw [hm]
    exact Function.update_of_ne hb ..
  have hn : ∀ n, node s'.mem root n = node s.mem root n :=
    node_congr fun n _ _ => hother _ (hnode n)
  obtain ⟨hne, hnd⟩ := List.nodup_cons.mp h.pool.nodup
  refine ⟨⟨⟨h.tree.root_ne, fun n n' hz he => ?_, fun n k hlen hz hv => ?_⟩, ⟨?_, hnd, ?_⟩, ?_⟩,
    ⟨⟨fun _ => List.mem_cons_of_mem a, fun n _ => hn n, fun n hz => .inl (by rw [hn, hz]), ?_,
    fun hp => hp.congr fun n _ _ => hother _ (hnode n)⟩, ?_⟩, hn⟩
  · rw [hn] at hz
    rw [hn, hn] at he
    exact h.tree.inj n n' hz he
  · rw [hn] at hz hv ⊢
    rw [hother _ (hnode n)] at hv ⊢
    exact h.tree.upper n k hlen hz hv
  · rw [hf]
    refine h.pool.chain.2.congr fun b hb => hother b ?_
    rintro rfl
    exact hne hb
  · exact fun b hb => h.pool.page b (List.mem_cons_of_mem a hb)
  · intro n hmem
    rw [hn] at hmem
    exact h.apart n (List.mem_cons_of_mem a hmem)
  · intro b hb _
    refine hother b ?_
    rintro rfl
    exact hb List.mem_cons_self
  · intro v _
    rw [entry, entry, hn]
    split
    · rfl
    · rw [hother _ (hnode _)]

structure Popped (s : Phys) (a : Nat) (p : Page) (s' : Phys) : Prop where
  mem : s'.mem = Function.update s.mem a p
  freelist : s'.freelist = s.mem a 0

omit [KernelImage] in
theorem Pool.popped (h : Pool s (a :: free)) (f : List Bool) (p : Page) :
    Popped s a p ((Phys.pop { s with fails := f }).setPage a p) := by
  have hhead : s.freelist = a := h.chain.1
  refine ⟨?_, ?_⟩
  · simp [Phys.setPage, Phys.pop, hhead]
  · rw [← hhead]
    rfl

theorem Space.pop {p : Page} (h : Space s root (a :: free) np)
    (hm : s'.mem = Function.update s.mem a p) (hf : s'.freelist = s.mem a 0) :
    Space s' root free np ∧ Keeps root s (a :: free) s' free ∧ Loose s' root free np a := by
  obtain ⟨ht, hk, hn⟩ := h.table.pop hm hf
  obtain ⟨hne, -⟩ := List.nodup_cons.mp h.table.pool.nodup
  refine ⟨h.keeps hk ht, hk, ⟨h.pages a List.mem_cons_self, hne, fun n he => ?_⟩, fun v hv he => ?_⟩
  · rw [hn] at he
    exact h.table.apart n (by rw [he]; exact List.mem_cons_self)
  · have hle := h.le
    rw [userPages_eq] at hle
    rw [pageAt, hk.entry v (by omega)] at he
    have hown := h.user.own rfl v (Nat.zero_le v) (by omega)
    exact hown.not_free (by rw [pageAt, he]; exact List.mem_cons_self)

theorem Space.push (h : Space s root free np) (hl : Loose s root free np a) :
    Space (s.push a) root (a :: free) np := by
  refine h.of_entry (h.table.push hl.free.not_table hl.free.page hl.free.not_free)
    (fun v _ => push_entry hl.free.not_table v) (fun v hv hf => ⟨hf.page, fun hm => ?_, fun n => ?_⟩)
    fun b hb => ?_
  · obtain he | hm := List.mem_cons.mp hm
    · exact hl.not_user v hv he
    · exact hf.not_free hm
  · rw [push_node hl.free.not_table]
    exact hf.not_table n
  · obtain rfl | hb := List.mem_cons.mp hb
    · exact hl.free.page
    · exact h.pages b hb

def userPerm : Nat := PTE_W ||| PTE_X ||| PTE_R ||| PTE_U

section Filled

variable {m m' : Mem} {v perm : Nat} (hfill : Filled m m' root np 1 a perm) (hnp : np < 2 ^ 26)

include hfill hnp

omit [KernelImage] in
theorem Filled.old (hv : v < np) : entry m' root v = entry m root v := by
  rw [hfill v (by omega), if_neg (by omega)]

omit [KernelImage] in
theorem Filled.old_page (hv : v < np) : pageAt m' root v = pageAt m root v := by
  rw [pageAt, pageAt, hfill.old hnp hv]

omit [KernelImage] in
theorem Filled.new : entry m' root np = leaf np a perm np := by
  rw [hfill np (by omega), if_pos (by omega)]

theorem Filled.new_page (hperm : perm < 1024) (ha : IsPage a) : pageAt m' root np = a := by
  obtain ⟨-, hal, h64⟩ := ha.bounds
  rw [pageAt, hfill.new hnp, leaf_pa hal hperm, Nat.sub_self, Nat.zero_mul, Nat.add_zero,
    Nat.mod_eq_of_lt h64]

end Filled

theorem Space.append {perm : Nat} (h : Space s root free np) (hnp : np < userPages)
    (hperm : perm < 1024) (hleaf : perm ||| PTE_V ≠ PTE_V) (hl : Loose s root free np a)
    (ht : Table s' root free') (hg : Grows root s free s' free')
    (hfill : Filled s.mem s'.mem root np 1 a perm) : Space s' root free' (np + 1) := by
  have hlt : np < 2 ^ 26 := by
    rw [userPages_eq] at hnp
    omega
  have hold : ∀ v, v < np → entry s'.mem root v = entry s.mem root v := fun _ => hfill.old hlt
  have hnew := hfill.new hlt
  have hpage := hfill.new_page hlt hperm hl.free.page
  have hpages : ∀ v, v < np → pageAt s'.mem root v = pageAt s.mem root v := fun _ =>
    hfill.old_page hlt
  have hcases : ∀ v, v < 0 + (np + 1) → v = np ∨ v < np := by
    intro v hv
    omega
  refine ⟨ht, ⟨fun v hv hv' => ?_, fun v hv hv' => ?_, fun hd v hv hv' => ?_,
    fun hd v u hv hv' hu hu' he => ?_⟩, fun v hv hv' => ?_, hnp, fun b hb => h.pages b (hg.rest hb)⟩
  · obtain rfl | hv' := hcases v hv'
    · rw [hnew]
      exact leaf_valid hperm
    · rw [hold v hv']
      exact h.user.valid v hv (by omega)
  · obtain rfl | hv' := hcases v hv'
    · rw [hnew, leaf_flags hperm]
      exact hleaf
    · rw [hold v hv']
      exact h.user.leaf v hv (by omega)
  · obtain rfl | hv' := hcases v hv'
    · rw [hpage]
      exact hl.free.grows hg
    · rw [hpages v hv']
      exact (h.user.own hd v hv (by omega)).grows hg
  · obtain rfl | hv' := hcases v hv'
    · obtain rfl | hu' := hcases u hu'
      · rfl
      · rw [hpage, hpages u hu'] at he
        exact absurd he.symm (hl.not_user u hu')
    · obtain rfl | hu' := hcases u hu'
      · rw [hpage, hpages v hv'] at he
        exact absurd he (hl.not_user v hv')
      · rw [hpages v hv', hpages u hu'] at he
        exact h.user.inj hd v u hv (by omega) hu (by omega) he
  · rw [userPages_eq] at hv'
    rw [hfill v (by omega), if_neg (by omega)]
    exact h.unused v (by omega) (by rw [userPages_eq]; exact hv')

omit [KernelImage] in
theorem mapPage_meets {v perm : Nat} (h : Table s root free) (hv : v < 2 ^ 26) (ha : a < 2 ^ 64)
    (hfree : entry s.mem root v &&& PTE_V = 0) :
    Meets (mappages root (v * PGSIZE) PGSIZE a perm) s
      (fun ok s' => ∃ free', Table s' root free' ∧ Grows root s free s' free' ∧
        Filled s.mem s'.mem root v (if ok then 1 else 0) a perm)
      (fun _ => False) := by
  have hfirst : v * PGSIZE / 4096 = v := Nat.mul_div_cancel v (by decide)
  have hlast : (v * PGSIZE + PGSIZE - 1) / 4096 = v := by
    change (v * 4096 + 4096 - 1) / 4096 = v
    omega
  have hend : v * PGSIZE + PGSIZE ≤ MAXVA := by
    change v * 4096 + 4096 ≤ 2 ^ 38
    omega
  refine (mappages_meets h (by decide) hend ha fun u hu hu' => ?_).post ?_
  · rw [hfirst] at hu
    rw [hlast] at hu'
    obtain rfl : u = v := by omega
    exact hfree
  · rintro ok s' ⟨free', k, ht, hg, hk, hfill⟩
    rw [hfirst, hlast, Nat.sub_self, Nat.zero_add] at hk
    rw [hfirst] at hfill
    refine ⟨free', ht, hg, ?_⟩
    split at hk
    next hok =>
      rw [if_pos hok, ← hk]
      exact hfill
    next hok =>
      obtain rfl : k = 0 := by omega
      rw [if_neg hok]
      exact hfill

theorem mapUser_meets {perm : Nat} (h : Space s root free np) (hnp : np < userPages)
    (hperm : perm < 1024) (hleaf : perm ||| PTE_V ≠ PTE_V) (hl : Loose s root free np a) :
    Meets (mappages root (np * PGSIZE) PGSIZE a perm) s
      (fun ok s' => ∃ free', Grows root s free s' free' ∧ if ok then Space s' root free' (np + 1) ∧
          Filled s.mem s'.mem root np 1 a perm
        else Space s' root free' np ∧ Keeps root s free s' free')
      (fun _ => False) := by
  have hlt := hnp
  rw [userPages_eq] at hlt
  refine (mapPage_meets h.table (by omega) hl.free.page.bounds.2.2 (h.unused np le_rfl hnp)).post ?_
  rintro ok s' ⟨free', ht, hg, hfill⟩
  refine ⟨free', hg, ?_⟩
  cases ok with
  | true => exact ⟨h.append hnp hperm hleaf hl ht hg hfill, hfill⟩
  | false =>
    have hkeep : Keeps root s free s' free' := by
      refine ⟨hg, fun v hv => ?_⟩
      rw [hfill v hv, if_neg (by simp)]
    exact ⟨h.keeps hkeep ht, hkeep⟩

end Xv6.Vm

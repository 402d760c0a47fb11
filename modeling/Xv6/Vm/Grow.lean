import Xv6.Vm.Space

namespace Xv6.Vm

open Lib.Command

variable [KernelImage] {s s' s₀ s₁ : Phys} {root a np np₀ k oldsz newsz : Nat}
  {free free' free₀ free₁ : List Nat}

/-- The number of pages for `sz` bytes of user memory. -/
def pagesOf (sz : Nat) : Nat := (sz + 4095) / 4096

omit [KernelImage] in
theorem PGROUNDUP_pages {sz : Nat} (h : sz < 2 ^ 63) : PGROUNDUP sz = pagesOf sz * PGSIZE :=
  PGROUNDUP_eq h

omit [KernelImage] in
theorem pagesOf_mul (n : Nat) : pagesOf (n * PGSIZE) = n := by
  change (n * 4096 + 4095) / 4096 = n
  omega

omit [KernelImage] in
theorem pagesOf_mono {sz sz' : Nat} (h : sz ≤ sz') : pagesOf sz ≤ pagesOf sz' :=
  Nat.div_le_div_right (by omega)

omit [KernelImage] in
theorem mem_freed {m : Mem} {first n : Nat} : a ∈ freed m root first true n ↔
    ∃ v, first ≤ v ∧ v < first + n ∧ pageAt m root v = a := by
  induction n generalizing first with
  | zero =>
    simp only [freed, List.not_mem_nil, false_iff, not_exists]
    omega
  | succ n ih =>
    rw [freed, List.mem_append, ih, if_pos rfl, List.mem_singleton]
    constructor
    · rintro (⟨v, hv, hv', rfl⟩ | rfl)
      · exact ⟨v, by omega, by omega, rfl⟩
      · exact ⟨first, le_rfl, by omega, rfl⟩
    · rintro ⟨v, hv, hv', rfl⟩
      by_cases he : v = first
      · subst he
        exact .inr rfl
      · exact .inl ⟨v, by omega, by omega, rfl⟩

theorem Space.unmap (h : Space s root free np) (hk : k ≤ np)
    (hu : Unmapped root k (np - k) true s free s') :
    Space s' root (freed s.mem root k true (np - k) ++ free) k := by
  have hle := h.le
  rw [userPages_eq] at hle
  have hold : ∀ v, v < k → entry s'.mem root v = entry s.mem root v := by
    intro v hv
    rw [hu.entry v (by omega), if_neg (by omega)]
  have hpages : ∀ v, v < k → pageAt s'.mem root v = pageAt s.mem root v := by
    intro v hv
    rw [pageAt, pageAt, hold v hv]
  refine ⟨hu.table, ⟨fun v hv hv' => ?_, fun v hv hv' => ?_, fun hd v hv hv' => ?_,
    fun hd v u hv hv' hu hu' he => ?_⟩, fun v hv hv' => ?_, hk.trans h.le, fun b hb => ?_⟩
  · rw [hold v (by omega)]
    exact h.user.valid v hv (by omega)
  · rw [hold v (by omega)]
    exact h.user.leaf v hv (by omega)
  · obtain ⟨hp, hf, hn⟩ := h.user.own hd v hv (by omega)
    rw [hpages v (by omega)]
    refine ⟨hp, fun hmem => ?_, fun n => ?_⟩
    · obtain hmem | hmem := List.mem_append.mp hmem
      · obtain ⟨u, hku, hku', he⟩ := mem_freed.mp hmem
        have := h.user.inj rfl u v (Nat.zero_le u) (by omega) hv (by omega) he
        omega
      · exact hf hmem
    · rw [hu.node]
      exact hn n
  · rw [hpages v (by omega), hpages u (by omega)] at he
    exact h.user.inj hd v u hv (by omega) (Nat.zero_le u) (by omega) he
  · rw [userPages_eq] at hv'
    rw [hu.entry v (by omega)]
    split
    · exact Nat.zero_and _
    · exact h.unused v (by omega) (by rw [userPages_eq]; exact hv')
  · obtain hb | hb := List.mem_append.mp hb
    · obtain ⟨u, hku, hku', rfl⟩ := mem_freed.mp hb
      exact (h.user.own rfl u (Nat.zero_le u) (by omega)).page
    · exact h.pages b hb

theorem Range.suffix (h : Range root 0 np true s free) (hk : k ≤ np) :
    Range root k (np - k) true s free := by
  refine ⟨fun v hv hv' => h.valid v (Nat.zero_le v) (by omega),
    fun v hv hv' => h.leaf v (Nat.zero_le v) (by omega),
    fun hd v hv hv' => h.own hd v (Nat.zero_le v) (by omega),
    fun hd v u hv hv' hu hu' => h.inj hd v u (Nat.zero_le v) (by omega) (Nat.zero_le u) (by omega)⟩

omit [KernelImage] in
theorem signExtend_eq {n : Nat} (h : n < 2 ^ 31) : signExtend n = n := by
  have hlt : n % 2 ^ 32 = n := Nat.mod_eq_of_lt (by omega)
  rw [signExtend, hlt, if_pos h]

theorem uvmdealloc_meets (h : Space s root free (pagesOf oldsz)) (hsz : oldsz < 2 ^ 38)
    (hlt : newsz < oldsz) :
    Meets (uvmdealloc root oldsz newsz) s
      (fun r s' => r = newsz ∧
        Unmapped root (pagesOf newsz) (pagesOf oldsz - pagesOf newsz) true s free s')
      (fun _ => False) := by
  have hle : pagesOf newsz ≤ pagesOf oldsz := pagesOf_mono hlt.le
  have hmax := h.le
  rw [userPages_eq] at hmax
  rw [uvmdealloc, if_neg (by omega), PGROUNDUP_pages (by omega), PGROUNDUP_pages (by omega)]
  by_cases heq : pagesOf newsz = pagesOf oldsz
  · rw [heq, if_neg (Nat.lt_irrefl _), Nat.sub_self]
    refine Meets.pure ⟨rfl, h.table, fun _ => rfl, fun u _ => ?_, fun _ _ _ => rfl, id⟩
    rw [if_neg (by omega)]
  · have hcount : (pagesOf oldsz * PGSIZE - pagesOf newsz * PGSIZE) / PGSIZE =
        pagesOf oldsz - pagesOf newsz := by
      rw [← Nat.sub_mul, Nat.mul_div_cancel _ (by decide)]
    have hless : pagesOf newsz * PGSIZE < pagesOf oldsz * PGSIZE :=
      Nat.mul_lt_mul_of_pos_right (by omega) (by decide)
    rw [if_pos hless, hcount, signExtend_eq (by omega)]
    refine Meets.seq (uvmunmap_meets h.table (by omega) (h.user.suffix hle)) ?_
    exact fun _ s' hu => Meets.pure ⟨rfl, hu⟩

structure Taken (root np₀ : Nat) (s₀ : Phys) (free₀ : List Nat) (s : Phys) (free : List Nat)
    (np : Nat) : Prop where
  space : Space s root free np
  le : np₀ ≤ np
  grows : Grows root s₀ free₀ s free
  entry : ∀ v, v < 2 ^ 27 → ¬(np₀ ≤ v ∧ v < np) → entry s.mem root v = entry s₀.mem root v
  new : ∀ v, np₀ ≤ v → v < np → pageAt s.mem root v ∈ free₀

structure Grown (root np₀ : Nat) (s₀ : Phys) (free₀ : List Nat) (s : Phys) (free : List Nat)
    (np : Nat) : Prop extends Taken root np₀ s₀ free₀ s free np where
  zero : ∀ v, np₀ ≤ v → v < np → s.mem (pageAt s.mem root v) = Page.fill 0
  perm : ∀ v, np₀ ≤ v → v < np → PTE_FLAGS (Vm.entry s.mem root v) = userPerm ||| PTE_V

structure Restored (root np₀ : Nat) (s₀ : Phys) (free₀ : List Nat) (s : Phys) (free : List Nat) :
    Prop where
  space : Space s root free np₀
  grows : Grows root s₀ free₀ s free
  mapping : ∀ v, v < 2 ^ 27 → mapping s.mem root v = mapping s₀.mem root v

theorem Taken.refl (h : Space s root free np) : Taken root np s free s free np :=
  ⟨h, le_rfl, .refl root s free, fun _ _ _ => rfl, fun v hv hv' => by omega⟩

theorem Grown.refl (h : Space s root free np) : Grown root np s free s free np :=
  ⟨.refl h, fun v hv hv' => by omega, fun v hv hv' => by omega⟩

theorem Taken.unused (h : Taken root np₀ s₀ free₀ s free np) (h₀ : Space s₀ root free₀ np₀) :
    ∀ v, np₀ ≤ v → v < np → Vm.entry s₀.mem root v &&& PTE_V = 0 := by
  intro v hv hv'
  exact h₀.unused v hv (hv'.trans_le h.space.le)

theorem Taken.undo (h : Taken root np₀ s₀ free₀ s free np) (h₀ : Space s₀ root free₀ np₀)
    (hu : Unmapped root np₀ (np - np₀) true s free s') :
    Restored root np₀ s₀ free₀ s' (freed s.mem root np₀ true (np - np₀) ++ free) := by
  have hle := h.space.le
  have hnp := h.le
  rw [userPages_eq] at hle
  have hnew : ∀ a, a ∈ freed s.mem root np₀ true (np - np₀) → a ∈ free₀ := by
    intro a ha
    obtain ⟨v, hv, hv', rfl⟩ := mem_freed.mp ha
    exact h.new v hv (by omega)
  refine ⟨h.space.unmap hnp hu, ⟨fun a ha => ?_, fun n hn => ?_, fun n hn => ?_, fun a ha hna => ?_,
    fun hp => hu.plain (h.grows.plain hp)⟩, fun v hv => ?_⟩
  · obtain ha | ha := List.mem_append.mp ha
    · exact hnew a ha
    · exact h.grows.rest ha
  · rw [hu.node, h.grows.keep n hn]
  · rw [hu.node]
    exact h.grows.fresh n hn
  · rw [hu.frame a (h.grows.not_table ha hna) (fun _ v hv hv' he => ?_)]
    · exact h.grows.frame a ha hna
    · have := h.new v hv (by omega)
      rw [he] at this
      exact ha this
  · rw [hu.mapping hv]
    split
    next hin =>
      exact (mapping_eq_none_iff.mpr (h.unused h₀ v hin.1 (by omega))).symm
    next hin => exact mapping_congr (h.entry v (by omega) (by omega))

theorem Grown.dealloc_meets (h : Grown root np₀ s₀ free₀ s free np) (h₀ : Space s₀ root free₀ np₀) :
    Meets (do let _ ← uvmdealloc root (np * PGSIZE) (np₀ * PGSIZE); return 0) s
      (fun r s' => ∃ free', r = 0 ∧ Restored root np₀ s₀ free₀ s' free') (fun _ => False) := by
  have hle := h.space.le
  have hnp := h.le
  rw [userPages_eq] at hle
  by_cases heq : np = np₀
  · subst heq
    rw [uvmdealloc, if_pos le_rfl]
    have hnone : Unmapped root np (np - np) true s free s := by
      rw [Nat.sub_self]
      refine ⟨h.space.table, fun _ => rfl, fun u _ => ?_, fun _ _ _ => rfl, id⟩
      rw [if_neg (by omega)]
    exact Meets.pure ⟨_, rfl, h.toTaken.undo h₀ hnone⟩
  · have hlt : np₀ * PGSIZE < np * PGSIZE :=
      Nat.mul_lt_mul_of_pos_right (by omega) (by decide)
    have hsz : np * PGSIZE < 2 ^ 38 := by
      change np * 4096 < 2 ^ 38
      omega
    have hspace : Space s root free (pagesOf (np * PGSIZE)) := by
      rw [pagesOf_mul]
      exact h.space
    refine Meets.seq (uvmdealloc_meets hspace hsz hlt) ?_
    rintro _ s' ⟨-, hu⟩
    rw [pagesOf_mul, pagesOf_mul] at hu
    exact Meets.pure ⟨_, rfl, h.toTaken.undo h₀ hu⟩

theorem Space.page_frame (h : Space s root free np) (hg : Grows root s free s' free') {v : Nat}
    (hv : v < np) : s'.mem (pageAt s.mem root v) = s.mem (pageAt s.mem root v) := by
  obtain ⟨-, hf, hn⟩ := h.user.own rfl v (Nat.zero_le v) (by omega)
  exact hg.frame _ hf hn

omit [KernelImage] in
theorem Keeps.pageAt (hk : Keeps root s free s' free') {v : Nat} (hv : v < 2 ^ 27) :
    pageAt s'.mem root v = pageAt s.mem root v := by
  rw [Vm.pageAt, Vm.pageAt, hk.entry v hv]

theorem Taken.keeps (h : Taken root np₀ s₀ free₀ s free np) (hk : Keeps root s free s' free')
    (ht : Table s' root free') : Taken root np₀ s₀ free₀ s' free' np := by
  have hle := h.space.le
  rw [userPages_eq] at hle
  refine ⟨h.space.keeps hk ht, h.le, h.grows.trans hk.grows, fun v hv hout => ?_, fun v hv hv' => ?_⟩
  · rw [hk.entry v hv]
    exact h.entry v hv hout
  · rw [hk.pageAt (by omega)]
    exact h.new v hv hv'

theorem Grown.keeps (h : Grown root np₀ s₀ free₀ s free np) (hk : Keeps root s free s' free')
    (ht : Table s' root free') : Grown root np₀ s₀ free₀ s' free' np := by
  have hle := h.space.le
  rw [userPages_eq] at hle
  refine ⟨h.toTaken.keeps hk ht, fun v hv hv' => ?_, fun v hv hv' => ?_⟩
  · rw [hk.pageAt (by omega), h.space.page_frame hk.grows hv']
    exact h.zero v hv hv'
  · rw [hk.entry v (by omega)]
    exact h.perm v hv hv'

theorem Taken.push (h : Taken root np₀ s₀ free₀ s free np) (hl : Loose s root free np a)
    (ha : a ∈ free₀) : Taken root np₀ s₀ free₀ (s.push a) (a :: free) np := by
  have hnode := push_node hl.free.not_table
  have hentry := push_entry hl.free.not_table
  refine ⟨h.space.push hl, h.le, ⟨fun b hb => ?_, fun n hn => ?_, fun n hn => ?_, fun b hb hnb => ?_,
    fun hp => ?_⟩, fun v hv hout => ?_, fun v hv hv' => ?_⟩
  · obtain rfl | hb := List.mem_cons.mp hb
    · exact ha
    · exact h.grows.rest hb
  · rw [hnode, h.grows.keep n hn]
  · rw [hnode]
    exact h.grows.fresh n hn
  · rw [← h.grows.frame b hb hnb]
    refine Function.update_of_ne ?_ ..
    rintro rfl
    exact hb ha
  · exact (h.grows.plain hp).congr fun n _ _ => Function.update_of_ne (hl.free.not_table n) ..
  · rw [hentry]
    exact h.entry v hv hout
  · rw [pageAt, hentry]
    exact h.new v hv hv'

theorem Grown.push (h : Grown root np₀ s₀ free₀ s free np) (hl : Loose s root free np a)
    (ha : a ∈ free₀) : Grown root np₀ s₀ free₀ (s.push a) (a :: free) np := by
  have hentry := push_entry hl.free.not_table
  refine ⟨h.toTaken.push hl ha, fun v hv hv' => ?_, fun v hv hv' => ?_⟩
  · have hother : (s.push a).mem (pageAt s.mem root v) = s.mem (pageAt s.mem root v) :=
      Function.update_of_ne (hl.not_user v hv') ..
    rw [pageAt, hentry]
    exact hother.trans (h.zero v hv hv')
  · rw [hentry]
    exact h.perm v hv hv'

omit [KernelImage] in
theorem forall_lt_succ {P : Nat → Prop} (hnew : P np) (hold : ∀ v, np₀ ≤ v → v < np → P v) :
    ∀ v, np₀ ≤ v → v < np + 1 → P v := by
  intro v hv hv'
  obtain hlt | rfl := Nat.lt_succ_iff_lt_or_eq.mp hv'
  · exact hold v hv hlt
  · exact hnew

theorem Taken.append {perm : Nat} (h : Taken root np₀ s₀ free₀ s free np)
    (hl : Loose s root free np a) (ha : a ∈ free₀) (hg : Grows root s free s' free')
    (hs : Space s' root free' (np + 1)) (hperm : perm < 1024)
    (hfill : Filled s.mem s'.mem root np 1 a perm) : Taken root np₀ s₀ free₀ s' free' (np + 1) := by
  have hle := hs.le
  rw [userPages_eq] at hle
  have hlt : np < 2 ^ 26 := by omega
  refine ⟨hs, h.le.trans (Nat.le_succ np), h.grows.trans hg, fun v hv hout => ?_,
    forall_lt_succ ?_ fun v hv hv' => ?_⟩
  · have hnp := h.le
    rw [hfill v hv, if_neg (by omega)]
    exact h.entry v hv (by omega)
  · rw [hfill.new_page hlt hperm hl.free.page]
    exact ha
  · rw [hfill.old_page hlt hv']
    exact h.new v hv hv'

theorem Grown.append (h : Grown root np₀ s₀ free₀ s free np) (hl : Loose s root free np a)
    (ha : a ∈ free₀) (hzero : s.mem a = Page.fill 0) (hg : Grows root s free s' free')
    (hs : Space s' root free' (np + 1)) (hfill : Filled s.mem s'.mem root np 1 a userPerm) :
    Grown root np₀ s₀ free₀ s' free' (np + 1) := by
  have hle := hs.le
  rw [userPages_eq] at hle
  have hlt : np < 2 ^ 26 := by omega
  refine ⟨h.toTaken.append hl ha hg hs (by decide) hfill, forall_lt_succ ?_ fun v hv hv' => ?_,
    forall_lt_succ ?_ fun v hv hv' => ?_⟩
  · rw [hfill.new_page hlt (by decide) hl.free.page, hg.frame a hl.free.not_free hl.free.not_table,
      hzero]
  · rw [hfill.old_page hlt hv', h.space.page_frame hg hv']
    exact h.zero v hv hv'
  · rw [hfill.new hlt, leaf_flags (by decide)]
  · rw [hfill.old hlt hv']
    exact h.perm v hv hv'

theorem allocFrom_meets {n : Nat} (h : Grown root np₀ s₀ free₀ s free np)
    (h₀ : Space s₀ root free₀ np₀) :
    Meets (allocFrom root (np₀ * PGSIZE) newsz n (np * PGSIZE)) s
      (fun r s' => ∃ free', r = newsz ∧ Grown root np₀ s₀ free₀ s' free' (np + n) ∨
        r = 0 ∧ Restored root np₀ s₀ free₀ s' free')
      (fun _ => False) := by
  induction n generalizing s free np with
  | zero => exact Meets.pure ⟨free, .inl ⟨rfl, h⟩⟩
  | succ n ih =>
    rw [allocFrom]
    apply Meets.seq (kalloc_meets h.space.table.pool)
    rintro a s₁ (⟨rfl, f, rfl⟩ | ⟨ha, free', f, rfl, rfl⟩)
    · rw [if_pos rfl]
      have hk : Keeps root s free { s with fails := f } free := ⟨.fails root s free f, fun _ _ => rfl⟩
      refine ((h.keeps hk (h.space.table.fails f)).dealloc_meets h₀).post ?_
      rintro r s' ⟨free', hr, hres⟩
      exact ⟨free', .inr ⟨hr, hres⟩⟩
    · rw [if_neg ha]
      refine Meets.bind (Meets.modify ?_)
      obtain ⟨hmem, hlist⟩ := h.space.table.pool.popped f (.fill 0)
      have hzero : ((Phys.pop { s with fails := f }).setPage a (.fill 0)).mem a = .fill 0 := by
        rw [hmem, Function.update_self]
      obtain ⟨hspace, hk, hloose⟩ := h.space.pop hmem hlist
      have hgrown := h.keeps hk hspace.table
      have hin : a ∈ free₀ := h.grows.rest List.mem_cons_self
      generalize (Phys.pop { s with fails := f }).setPage a (.fill 0) = s₁ at *
      refine Meets.seq (mapUser_meets hspace hspace.lt_userPages (by decide) (by decide) hloose) ?_
      rintro ok s₂ ⟨free₂, hg, hok⟩
      cases ok with
      | true =>
        obtain ⟨hs₂, hfill⟩ := hok
        have hnext : np * PGSIZE + PGSIZE = (np + 1) * PGSIZE := by rw [Nat.add_mul, Nat.one_mul]
        have hlast : np + (n + 1) = np + 1 + n := by omega
        rw [if_pos rfl, hnext, hlast]
        exact ih (hgrown.append hloose hin hzero hg hs₂ hfill)
      | false =>
        obtain ⟨hs₂, hkeep⟩ := hok
        have hle := hspace.le
        rw [userPages_eq] at hle
        have hloose₂ := hloose.keeps (by omega) hkeep
        refine Meets.bind (kfree_meets hloose₂.free.page ?_)
        refine ((((hgrown.keeps hkeep hs₂.table).push hloose₂ hin)).dealloc_meets h₀).post ?_
        rintro r s' ⟨free', hr, hres⟩
        exact ⟨free', .inr ⟨hr, hres⟩⟩

theorem uvmalloc_meets (h : Space s root free (pagesOf oldsz)) (hle : oldsz ≤ newsz) :
    Meets (uvmalloc root oldsz newsz) s
      (fun r s' => ∃ free', r = newsz ∧ Grown root (pagesOf oldsz) s free s' free' (pagesOf newsz) ∨
        r = 0 ∧ Restored root (pagesOf oldsz) s free s' free')
      (fun _ => False) := by
  have hmono := pagesOf_mono hle
  have hold : oldsz < 2 ^ 63 := by
    have hmem := h.le_memory
    change (oldsz + 4095) / 4096 ≤ 2 ^ 15 at hmem
    omega
  have hcount : (newsz - pagesOf oldsz * PGSIZE + (PGSIZE - 1)) / PGSIZE =
      pagesOf newsz - pagesOf oldsz := by
    change (newsz - (oldsz + 4095) / 4096 * 4096 + 4095) / 4096 =
      (newsz + 4095) / 4096 - (oldsz + 4095) / 4096
    omega
  have hsum : pagesOf oldsz + (pagesOf newsz - pagesOf oldsz) = pagesOf newsz := by omega
  rw [uvmalloc, if_neg (by omega), PGROUNDUP_pages hold]
  dsimp only
  rw [hcount]
  refine (allocFrom_meets (.refl h) h).post ?_
  rintro r s' ⟨free', hr⟩
  rw [hsum] at hr
  exact ⟨free', hr⟩

end Xv6.Vm

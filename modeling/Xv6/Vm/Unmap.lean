import Xv6.Vm.Mappages

namespace Xv6.Vm

open Lib.Command

variable {s s' : Phys} {root a pa perm : Nat} {free free' : List Nat}

section Push

variable (hnode : ∀ n, node s.mem root n ≠ a)

include hnode

theorem push_node (n : List (Fin 512)) : node (s.push a).mem root n = node s.mem root n :=
  node_congr (fun n _ _ => Function.update_of_ne (hnode n) ..) n

theorem push_entry (v : Nat) : entry (s.push a).mem root v = entry s.mem root v := by
  rw [entry, entry, push_node hnode]
  split
  · rfl
  · exact congrFun (Function.update_of_ne (hnode _) ..) _

end Push

/-- The page mapped at `v`. -/
def pageAt (m : Mem) (root v : Nat) : Nat := PTE2PA (entry m root v)

structure Cleared (root v : Nat) (doFree : Bool) (s : Phys) (free : List Nat) (s' : Phys) : Prop where
  table : Table s' root (if doFree then pageAt s.mem root v :: free else free)
  node : ∀ n, node s'.mem root n = node s.mem root n
  entry : ∀ u, u < 2 ^ 27 → entry s'.mem root u = if u = v then 0 else entry s.mem root u
  frame : ∀ a, (∀ n, Vm.node s.mem root n ≠ a) → (doFree = true → pageAt s.mem root v ≠ a) →
    s'.mem a = s.mem a
  plain : Plain s.mem root → Plain s'.mem root

/-- The pages that unmapping a range of `n` pages frees, the latest first. -/
def freed (m : Mem) (root first : Nat) (doFree : Bool) : Nat → List Nat
  | 0 => []
  | n + 1 => freed m root (first + 1) doFree n ++ if doFree then [pageAt m root first] else []

structure Unmapped (root first n : Nat) (doFree : Bool) (s : Phys) (free : List Nat) (s' : Phys) :
    Prop where
  table : Table s' root (freed s.mem root first doFree n ++ free)
  node : ∀ n, node s'.mem root n = node s.mem root n
  entry : ∀ u, u < 2 ^ 27 → entry s'.mem root u =
    if first ≤ u ∧ u < first + n then 0 else entry s.mem root u
  frame : ∀ a, (∀ n, Vm.node s.mem root n ≠ a) →
    (doFree = true → ∀ v, first ≤ v → v < first + n → pageAt s.mem root v ≠ a) → s'.mem a = s.mem a
  plain : Plain s.mem root → Plain s'.mem root

theorem freed_false (m : Mem) (root first n : Nat) : freed m root first false n = [] := by
  induction n generalizing first with
  | zero => rfl
  | succ n ih =>
    rw [freed, ih]
    rfl

theorem freed_congr {m m' : Mem} {first n : Nat} (doFree : Bool)
    (h : ∀ v, first ≤ v → v < first + n → pageAt m' root v = pageAt m root v) :
    freed m' root first doFree n = freed m root first doFree n := by
  induction n generalizing first with
  | zero => rfl
  | succ n ih =>
    rw [freed, freed, h first le_rfl (by omega)]
    congr 1
    exact ih fun v hv hv' => h v (by omega) (by omega)

theorem Unmapped.cons {first n : Nat} {doFree : Bool} {s₁ s₂ : Phys}
    (hu : Unmapped root (first + 1) n doFree s₁
      (if doFree then pageAt s.mem root first :: free else free) s₂)
    (hend : first + (n + 1) ≤ 2 ^ 26) (hc : Cleared root first doFree s free s₁) :
    Unmapped root first (n + 1) doFree s free s₂ := by
  have hentry : ∀ v, first + 1 ≤ v → v < first + 1 + n →
      Vm.entry s₁.mem root v = Vm.entry s.mem root v := by
    intro v hv hv'
    rw [hc.entry v (by omega), if_neg (by omega)]
  have hpage : ∀ v, first + 1 ≤ v → v < first + 1 + n →
      pageAt s₁.mem root v = pageAt s.mem root v := by
    intro v hv hv'
    rw [pageAt, pageAt, hentry v hv hv']
  refine ⟨?_, fun q => (hu.node q).trans (hc.node q), fun u hlt => ?_, fun a hna ha => ?_,
    fun hp => hu.plain (hc.plain hp)⟩
  · have ht := hu.table
    rw [freed_congr doFree hpage] at ht
    rw [freed]
    cases doFree with
    | false => simpa using ht
    | true => simpa using ht
  · rw [hu.entry u hlt, hc.entry u hlt]
    by_cases hin : first + 1 ≤ u ∧ u < first + 1 + n
    · rw [if_pos hin, if_pos (by omega)]
    · rw [if_neg hin]
      by_cases he : u = first
      · rw [if_pos he, if_pos (by omega)]
      · rw [if_neg he, if_neg (by omega)]
  · have hna₁ : ∀ q, Vm.node s₁.mem root q ≠ a := by
      intro q
      rw [hc.node]
      exact hna q
    rw [hu.frame a hna₁ fun hd v hv hv' => ?_, hc.frame a hna fun hd => ha hd first le_rfl (by omega)]
    rw [hpage v hv hv']
    exact ha hd v (by omega) (by omega)

theorem Unmapped.mapping {first n v : Nat} {doFree : Bool}
    (h : Unmapped root first n doFree s free s') (hv : v < 2 ^ 27) :
    mapping s'.mem root v = if first ≤ v ∧ v < first + n then none else mapping s.mem root v := by
  have he := h.entry v (by omega)
  split
  next hin =>
    rw [if_pos hin] at he
    rw [mapping_eq_none_iff, he, Nat.zero_and]
  next hin =>
    rw [if_neg hin] at he
    exact mapping_congr he

variable [KernelImage]

def IsPage (a : Nat) : Prop := a % PGSIZE = 0 ∧ kernelEnd ≤ a ∧ a < PHYSTOP

instance (a : Nat) : Decidable (IsPage a) := inferInstanceAs (Decidable (_ ∧ _ ∧ _))

theorem IsPage.bounds (h : IsPage a) : a ≠ 0 ∧ a % 4096 = 0 ∧ a < 2 ^ 64 := by
  obtain ⟨hal, hlo, hhi⟩ := h
  have h1 : KERNBASE ≤ kernelEnd := KernelImage.kernelEnd_lo
  change 2 ^ 31 ≤ kernelEnd at h1
  change a % 4096 = 0 at hal
  change a < 2 ^ 31 + 2 ^ 27 at hhi
  omega

theorem kfree_meets {Q : Unit → Phys → Prop} {E : Panic → Prop} (ha : IsPage a)
    (h : Q () (s.push a)) : Meets (kfree a) s Q E := by
  obtain ⟨hal, hlo, hhi⟩ := ha
  rw [kfree, if_neg (by omega)]
  exact Meets.modify h

omit [KernelImage] in
theorem Pool.congr (h : Pool s free) (hlist : s'.freelist = s.freelist)
    (hm : ∀ b ∈ free, s'.mem b = s.mem b) : Pool s' free := by
  refine ⟨?_, h.nodup, h.page⟩
  rw [hlist]
  exact h.chain.congr hm

theorem Pool.push (h : Pool s free) (ha : IsPage a) (hfree : a ∉ free) :
    Pool (s.push a) (a :: free) := by
  have hlink : (s.push a).mem a 0 = s.freelist := by
    simp [Phys.push]
  refine ⟨⟨rfl, ?_⟩, List.nodup_cons.mpr ⟨hfree, h.nodup⟩, fun b hb => ?_⟩
  · rw [hlink]
    refine h.chain.congr fun b hb => Function.update_of_ne ?_ ..
    rintro rfl
    exact hfree hb
  · obtain rfl | hb := List.mem_cons.mp hb
    · exact ha.bounds
    · exact h.page b hb

theorem Table.push (h : Table s root free) (hnode : ∀ n, node s.mem root n ≠ a) (ha : IsPage a)
    (hfree : a ∉ free) : Table (s.push a) root (a :: free) := by
  have hn := push_node hnode
  have hother : ∀ n, (s.push a).mem (node s.mem root n) = s.mem (node s.mem root n) :=
    fun n => Function.update_of_ne (hnode n) ..
  refine ⟨⟨h.tree.root_ne, ?_, ?_⟩, h.pool.push ha hfree, ?_⟩
  · intro n n' hne he
    rw [hn] at hne
    rw [hn, hn] at he
    exact h.tree.inj n n' hne he
  · intro n k hlen hne hv
    rw [hn] at hne hv ⊢
    rw [hother] at hv ⊢
    exact h.tree.upper n k hlen hne hv
  · intro n hm
    rw [hn] at hm
    obtain he | hm := List.mem_cons.mp hm
    · exact hnode n he
    · exact h.apart n hm

structure Freeable (s : Phys) (root : Nat) (free : List Nat) (a : Nat) : Prop where
  page : IsPage a
  not_free : a ∉ free
  not_table : ∀ n, node s.mem root n ≠ a

theorem Table.clear {v : Nat} {doFree : Bool} (h : Table s root free) (hlt : v < 2 ^ 27)
    (hne : node s.mem root (lowest v) ≠ 0) (hs : s' = if doFree then s.push (pageAt s.mem root v) else s)
    (hown : doFree = true → Freeable s root free (pageAt s.mem root v)) :
    Cleared root v doFree s free
      (s'.setWord (node s.mem root (lowest v)) (index 0 v) 0) := by
  -- the table before the entry is cleared
  have hmid : Table s' root (if doFree then pageAt s.mem root v :: free else free) ∧
      (∀ n, node s'.mem root n = node s.mem root n) ∧
      (∀ u, entry s'.mem root u = entry s.mem root u) ∧
      (∀ a, (doFree = true → pageAt s.mem root v ≠ a) → s'.mem a = s.mem a) ∧
      ∀ n, s'.mem (node s.mem root n) = s.mem (node s.mem root n) := by
    cases doFree with
    | false =>
      subst hs
      exact ⟨h, fun _ => rfl, fun _ => rfl, fun _ _ => rfl, fun _ => rfl⟩
    | true =>
      subst hs
      obtain ⟨hpage, hfree, hnode⟩ := hown rfl
      exact ⟨h.push hnode hpage hfree, push_node hnode, push_entry hnode,
        fun a ha => Function.update_of_ne (ha rfl).symm .., fun n => Function.update_of_ne (hnode n) ..⟩
  obtain ⟨htable, hnode, hentry, hframe, hupper⟩ := hmid
  have hne' : node s'.mem root (lowest v) ≠ 0 := by
    rw [hnode]
    exact hne
  rw [← hnode]
  refine ⟨htable.put v 0, fun n => ?_, fun u hu => ?_, fun a hna ha => ?_, fun hp => ?_⟩
  · rw [setWord_mem, putEntry_node htable.tree, hnode]
  · rw [setWord_mem, putEntry_entry htable.tree hne' hlt hu, hentry]
  · rw [← hframe a ha]
    refine Function.update_of_ne ?_ ..
    rw [hnode]
    exact (hna _).symm
  · have hp' : Plain s'.mem root := hp.congr fun n _ _ => hupper n
    exact hp'.congr fun n => putEntry_upper htable.tree v 0

theorem unmapFrom_step {v n : Nat} {doFree : Bool} {Q : Unit → Phys → Prop} {E : Panic → Prop}
    (h : Table s root free) (hlt : v < 2 ^ 26) (hvalid : entry s.mem root v &&& PTE_V ≠ 0)
    (hleaf : PTE_FLAGS (entry s.mem root v) ≠ PTE_V)
    (hown : doFree = true → Freeable s root free (pageAt s.mem root v))
    (hrest : ∀ s₁, Cleared root v doFree s free s₁ →
      Meets (unmapFrom root doFree n ((v + 1) * 4096)) s₁ Q E) :
    Meets (unmapFrom root doFree (n + 1) (v * 4096)) s Q E := by
  have hne := node_ne_of_valid hvalid
  obtain ⟨hwalk, hload⟩ := walk_valid h.tree hlt hvalid
  have hnext : v * 4096 + PGSIZE = (v + 1) * 4096 := by
    rw [Nat.add_mul, Nat.one_mul]
    rfl
  rw [unmapFrom]
  refine Meets.bind (Meets.of_eq hwalk (Meets.bind (load_meets ?_)))
  rw [hload, if_neg hvalid, if_neg hleaf, hnext]
  cases doFree with
  | false =>
    refine Meets.bind (Meets.modify ?_)
    exact hrest _ (h.clear (by omega) hne rfl hown)
  | true =>
    refine Meets.bind (kfree_meets (hown rfl).page (Meets.bind (Meets.modify ?_)))
    exact hrest _ (h.clear (by omega) hne rfl hown)

/-- Every page of a range is mapped as a leaf, and if it is to be freed, by this mapping only. -/
structure Range (root first n : Nat) (doFree : Bool) (s : Phys) (free : List Nat) : Prop where
  valid : ∀ v, first ≤ v → v < first + n → entry s.mem root v &&& PTE_V ≠ 0
  leaf : ∀ v, first ≤ v → v < first + n → PTE_FLAGS (entry s.mem root v) ≠ PTE_V
  own : doFree = true → ∀ v, first ≤ v → v < first + n →
    Freeable s root free (pageAt s.mem root v)
  inj : doFree = true → ∀ v u, first ≤ v → v < first + n → first ≤ u → u < first + n →
    pageAt s.mem root v = pageAt s.mem root u → v = u

theorem Range.rest {first n : Nat} {doFree : Bool} (h : Range root first (n + 1) doFree s free)
    (hend : first + (n + 1) ≤ 2 ^ 26) (hc : Cleared root first doFree s free s') :
    Range root (first + 1) n doFree s'
      (if doFree then pageAt s.mem root first :: free else free) := by
  have hentry : ∀ v, first + 1 ≤ v → v < first + 1 + n → entry s'.mem root v = entry s.mem root v := by
    intro v hv hv'
    rw [hc.entry v (by omega), if_neg (by omega)]
  have hpage : ∀ v, first + 1 ≤ v → v < first + 1 + n → pageAt s'.mem root v = pageAt s.mem root v := by
    intro v hv hv'
    rw [pageAt, pageAt, hentry v hv hv']
  refine ⟨fun v hv hv' => ?_, fun v hv hv' => ?_, fun hd v hv hv' => ?_, fun hd v u hv hv' hu hu' he => ?_⟩
  · rw [hentry v hv hv']
    exact h.valid v (by omega) (by omega)
  · rw [hentry v hv hv']
    exact h.leaf v (by omega) (by omega)
  · obtain ⟨hp, hf, ht⟩ := h.own hd v (by omega) (by omega)
    rw [hpage v hv hv']
    refine ⟨hp, ?_, fun n => ?_⟩
    · rw [if_pos hd, List.mem_cons, not_or]
      refine ⟨fun he => ?_, hf⟩
      have := h.inj hd v first (by omega) (by omega) le_rfl (by omega) he
      omega
    · rw [hc.node]
      exact ht n
  · rw [hpage v hv hv', hpage u hu hu'] at he
    exact h.inj hd v u (by omega) (by omega) (by omega) (by omega) he

theorem unmapFrom_meets {first n : Nat} {doFree : Bool} (h : Table s root free)
    (hend : first + n ≤ 2 ^ 26) (hr : Range root first n doFree s free) :
    Meets (unmapFrom root doFree n (first * 4096)) s
      (fun _ s' => Unmapped root first n doFree s free s') (fun _ => False) := by
  induction n generalizing s free first with
  | zero =>
    refine Meets.pure ⟨h, fun _ => rfl, fun u _ => ?_, fun _ _ _ => rfl, id⟩
    rw [if_neg (by omega)]
  | succ n ih =>
    refine unmapFrom_step h (by omega) (hr.valid first le_rfl (by omega))
      (hr.leaf first le_rfl (by omega)) (fun hd => hr.own hd first le_rfl (by omega)) ?_
    intro s₁ hc
    refine (ih hc.table (by omega) (hr.rest hend hc)).post ?_
    intro _ s₂ hu
    exact hu.cons hend hc

theorem uvmunmap_meets {first n : Nat} {doFree : Bool} (h : Table s root free)
    (hend : first + n ≤ 2 ^ 26) (hr : Range root first n doFree s free) :
    Meets (uvmunmap root (first * PGSIZE) n doFree) s
      (fun _ s' => Unmapped root first n doFree s free s') (fun _ => False) := by
  have hal : ¬first * PGSIZE % PGSIZE ≠ 0 := by simp
  have hturns : ((first * PGSIZE + n * PGSIZE) % 2 ^ 64 - first * PGSIZE) / PGSIZE = n := by
    change ((first * 4096 + n * 4096) % 2 ^ 64 - first * 4096) / 4096 = n
    omega
  rw [uvmunmap, if_neg hal, hturns]
  exact unmapFrom_meets h hend hr

theorem Filled.range {first k : Nat} (h : Filled s.mem s'.mem root first k pa perm)
    (hend : first + k ≤ 2 ^ 26) (hperm : perm < 1024)
    (hrwx : perm &&& (PTE_R ||| PTE_W ||| PTE_X) ≠ 0) : Range root first k false s' free' := by
  have he : ∀ v, first ≤ v → v < first + k → entry s'.mem root v = leaf first pa perm v := by
    intro v hv hv'
    rw [h v (by omega), if_pos ⟨hv, hv'⟩]
  refine ⟨fun v hv hv' => ?_, fun v hv hv' => ?_, nofun, nofun⟩
  · rw [he v hv hv']
    exact leaf_valid hperm
  · rw [he v hv hv', leaf_flags hperm]
    exact flags_ne hrwx

end Xv6.Vm

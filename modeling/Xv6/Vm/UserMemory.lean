import Xv6.Vm.UserTable

namespace Xv6.Vm

open Lib.Bytes Lib.Command

variable {s s' s'' : Phys} {root a np v va len : Nat} {free free' kernel : List Nat}
  {f g : Nat → UInt8}

theorem Page.byte_store (p : Page) (off : Nat) (bytes : List UInt8) {i : Nat} (hi : i < 4096) :
    (p.store off bytes).byte i =
      if off ≤ i ∧ i < off + bytes.length then bytes.getD (i - off) 0 else p.byte i := by
  have hmod : i / 8 % 512 = i / 8 := Nat.mod_eq_of_lt (by omega)
  have hsplit : 8 * (i / 8) + i % 8 = i := Nat.div_add_mod i 8
  rw [byte, store, byteOfNat_natOfBytes _ (Nat.mod_lt i (by decide))]
  simp only [hmod, hsplit]

theorem Page.byte_zero (i : Nat) : (Page.fill 0).byte i = 0 := by
  rw [byte, fill, Nat.zero_mul, byteOfNat, Nat.zero_div]
  rfl

section Frame

variable (hm : ∀ n, node s.mem root n ≠ 0 → s'.mem (node s.mem root n) = s.mem (node s.mem root n))

include hm

theorem node_frame (n : List (Fin 512)) : node s'.mem root n = node s.mem root n :=
  node_congr (fun n _ => hm n) n

theorem entry_frame (v : Nat) : entry s'.mem root v = entry s.mem root v := by
  rw [entry, entry, node_frame hm]
  split
  · rfl
  next hz => rw [hm _ hz]

theorem Tree.frame (h : Tree s.mem root) : Tree s'.mem root := by
  have hnode := node_frame hm
  refine ⟨h.root_ne, fun n n' hn he => ?_, fun n k hn hz hv => ?_⟩
  · rw [hnode] at hn
    rw [hnode, hnode] at he
    exact h.inj n n' hn he
  · rw [hnode] at hz hv ⊢
    rw [hm n hz] at hv ⊢
    exact h.upper n k hn hz hv

theorem owned_frame : Owned s' root np a ↔ Owned s root np a := by
  refine or_congr (exists_congr fun n => ?_) (exists_congr fun v => and_congr_right fun _ => ?_)
  · rw [node_frame hm]
  · rw [pageAt, pageAt, entry_frame hm]

theorem UserTable.frame [KernelImage] (h : UserTable kernel s root free np) (hpool : Pool s' free')
    (hout : ∀ a ∈ free', IsPage a ∧ ¬Owned s root np a) : UserTable kernel s' root free' np := by
  have hnode := node_frame hm
  have ht : Table s' root free' := by
    refine ⟨h.space.table.tree.frame hm, hpool, fun n hmem => ?_⟩
    rw [hnode] at hmem
    exact (hout _ hmem).2 (.inl ⟨n, rfl⟩)
  refine ⟨h.space.of_entry ht (fun v _ => entry_frame hm v) (fun v hv hf => ?_)
    fun a ha => (hout a ha).1, fun v hv hv' => ?_, h.plain.congr fun n _ => hm n, fun n => ?_⟩
  · refine ⟨hf.page, fun ha => (hout _ ha).2 (.inr ⟨v, hv, rfl⟩), fun n => ?_⟩
    rw [hnode]
    exact hf.not_table n
  · rw [mapping_congr (entry_frame hm v)]
    exact h.kernel v hv hv'
  · rw [hnode]
    exact h.tables n

end Frame

theorem UserTable.free_apart [KernelImage] (h : UserTable kernel s root free np) (ha : a ∈ free) :
    IsPage a ∧ ¬Owned s root np a := by
  refine ⟨h.space.pages a ha, ?_⟩
  rintro (⟨n, rfl⟩ | ⟨v, hv, rfl⟩)
  · exact h.space.table.apart n ha
  · exact (h.space.user.own rfl v (Nat.zero_le v) (by omega)).not_free ha

def userByte (s : Phys) (root va : Nat) : UInt8 :=
  (s.mem (pageAt s.mem root (va / 4096))).byte (va % 4096)

def Accessible (s : Phys) (root v : Nat) : Prop := entry s.mem root v &&& PTE_U ≠ 0

/-- The `len` bytes of user memory from `va` on have been overwritten with the values of `f`. -/
structure Wrote (root np va len : Nat) (f : Nat → UInt8) (s s' : Phys) : Prop where
  freelist : s'.freelist = s.freelist
  frame : ∀ a, (∀ v, v < np → pageAt s.mem root v ≠ a) → s'.mem a = s.mem a
  entry : ∀ v, entry s'.mem root v = entry s.mem root v
  byte : ∀ u, u < np * 4096 → userByte s' root u =
    if va ≤ u ∧ u < va + len then f (u - va) else userByte s root u

theorem Wrote.none (root np va : Nat) (f : Nat → UInt8) (s : Phys) : Wrote root np va 0 f s s := by
  refine ⟨rfl, fun _ _ => rfl, fun _ => rfl, fun u _ => ?_⟩
  rw [if_neg (by omega)]

theorem Wrote.of_zero (h : Wrote root np va 0 f s s') (va' : Nat) (g : Nat → UInt8) :
    Wrote root np va' 0 g s s' := by
  refine ⟨h.freelist, h.frame, h.entry, fun u hu => ?_⟩
  rw [h.byte u hu, if_neg (by omega), if_neg (by omega)]

theorem Wrote.pageAt (h : Wrote root np va len f s s') (v : Nat) :
    pageAt s'.mem root v = pageAt s.mem root v := by
  rw [Vm.pageAt, Vm.pageAt, h.entry]

theorem Wrote.append {len' va' : Nat} {f' : Nat → UInt8} (h : Wrote root np va len f s s')
    (h' : Wrote root np va' len' f' s' s'') (hva : va' = va + len)
    (hf : ∀ k, k < len → f k = g k) (hf' : ∀ k, k < len' → f' k = g (len + k)) :
    Wrote root np va (len + len') g s s'' := by
  subst hva
  refine ⟨h'.freelist.trans h.freelist, fun a ha => ?_, fun v => (h'.entry v).trans (h.entry v),
    fun u hu => ?_⟩
  · rw [h'.frame a (fun v hv => ?_), h.frame a ha]
    rw [h.pageAt]
    exact ha v hv
  · rw [h'.byte u hu, h.byte u hu]
    by_cases hin : va + len ≤ u ∧ u < va + len + len'
    · rw [if_pos hin, if_pos (by omega), hf' _ (by omega)]
      congr 1
      omega
    · rw [if_neg hin]
      by_cases hlow : va ≤ u ∧ u < va + len
      · rw [if_pos hlow, if_pos (by omega), hf _ (by omega)]
      · rw [if_neg hlow, if_neg (by omega)]

variable [KernelImage]

theorem Wrote.nodes (h : Wrote root np va len f s s') (hs : Space s root free np) :
    ∀ n, s'.mem (node s.mem root n) = s.mem (node s.mem root n) := by
  intro n
  refine h.frame _ fun v hv he => ?_
  exact (hs.user.own rfl v (Nat.zero_le v) (by omega)).not_table n he.symm

theorem Wrote.pool (h : Wrote root np va len f s s') (hs : Space s root free np) : Pool s' free := by
  refine hs.table.pool.congr h.freelist fun b hb => h.frame b fun v hv he => ?_
  refine (hs.user.own rfl v (Nat.zero_le v) (by omega)).not_free ?_
  rwa [he]

theorem UserTable.wrote (h : UserTable kernel s root free np) (hw : Wrote root np va len f s s') :
    UserTable kernel s' root free np :=
  h.frame (fun n _ => hw.nodes h.space n) (hw.pool h.space) fun _ => h.free_apart

theorem Building.wrote {s₀ : Phys} {free₀ : List Nat} (h : Building s₀ free₀ kernel s root free np)
    (hw : Wrote root np va len f s s') : Building s₀ free₀ kernel s' root free np := by
  have hnode := node_frame fun n _ => hw.nodes h.table.space n
  refine ⟨h.table.wrote hw, ⟨hw.pool h.table.space, h.spent.rest, fun a ha hout => ?_⟩, fun n hn => ?_,
    fun v hv => ?_⟩
  · rw [hw.frame a (fun v hv he => ?_), h.spent.frame a ha hout]
    subst he
    exact hout (h.users v hv)
  · rw [hnode] at hn ⊢
    exact h.nodes n hn
  · rw [hw.pageAt]
    exact h.users v hv

theorem Grown.userByte {np₀ u : Nat} (h : Grown root np₀ s free s' free' np)
    (hs : Space s root free np₀) (hu : u < np * 4096) :
    userByte s' root u = if u < np₀ * 4096 then userByte s root u else 0 := by
  have hmem := h.space.le_memory
  split
  next hold =>
    have hpage : pageAt s'.mem root (u / 4096) = pageAt s.mem root (u / 4096) := by
      rw [pageAt, pageAt, h.entry _ (by omega) (by omega)]
    rw [Vm.userByte, Vm.userByte, hpage, hs.page_frame h.grows (by omega)]
  next hnew =>
    rw [Vm.userByte, h.zero _ (by omega) (by omega)]
    exact Page.byte_zero _

omit [KernelImage] in
theorem walkaddr_eq (va : Nat) (h : Table s root free) (hva : va < 2 ^ 38) (hvpn : va / 4096 = v)
    (hvalid : entry s.mem root v &&& PTE_V ≠ 0) (hacc : Accessible s root v) :
    walkaddr root va s = .ok (pageAt s.mem root v, s) := by
  have hne : node s.mem root (lowest v) ≠ 0 := by
    intro hz
    rw [entry, if_pos hz, Nat.zero_and] at hvalid
    exact hvalid rfl
  have hload : s.mem (node s.mem root (lowest v)) (index 0 v) = entry s.mem root v := by
    rw [entry, if_neg hne]
  have hwalk := walk_lookup h.tree hva hvpn
  rw [pteAt, if_neg hne] at hwalk
  rw [walkaddr, if_neg (lt_MAXVA.mpr hva), bind_of_ok hwalk]
  simp only [load, bind_assoc, pure_bind, get_bind, hload, if_neg hvalid, if_neg hacc]
  rfl

theorem Space.memmove (h : Space s root free np) (hv : v < np) (off : Nat) (bytes : List UInt8)
    (hoff : off + bytes.length ≤ 4096) :
    Wrote root np (v * 4096 + off) bytes.length (bytes.getD · 0) s
      (s.setPage (Vm.pageAt s.mem root v) ((s.mem (Vm.pageAt s.mem root v)).store off bytes)) := by
  have hown := h.user.own rfl v (Nat.zero_le v) (by omega)
  have hself : (s.setPage (Vm.pageAt s.mem root v)
      ((s.mem (Vm.pageAt s.mem root v)).store off bytes)).mem (Vm.pageAt s.mem root v) =
        (s.mem (Vm.pageAt s.mem root v)).store off bytes := Function.update_self ..
  have hother : ∀ b, Vm.pageAt s.mem root v ≠ b →
      (s.setPage (Vm.pageAt s.mem root v) ((s.mem (Vm.pageAt s.mem root v)).store off bytes)).mem b =
        s.mem b :=
    fun b hb => Function.update_of_ne hb.symm ..
  have hlist : (s.setPage (Vm.pageAt s.mem root v)
      ((s.mem (Vm.pageAt s.mem root v)).store off bytes)).freelist = s.freelist := rfl
  generalize s.setPage _ _ = s₁ at *
  have hentry := entry_frame fun n _ => hother _ (hown.not_table n).symm
  refine ⟨hlist, fun b hb => hother b (hb v hv), hentry, fun u hu => ?_⟩
  have hmod : u % 4096 < 4096 := Nat.mod_lt u (by decide)
  have hpage : Vm.pageAt s₁.mem root (u / 4096) = Vm.pageAt s.mem root (u / 4096) := by
    rw [Vm.pageAt, Vm.pageAt, hentry]
  rw [userByte, userByte, hpage]
  by_cases heq : u / 4096 = v
  · rw [heq, hself, Page.byte_store _ _ _ hmod]
    by_cases hin : off ≤ u % 4096 ∧ u % 4096 < off + bytes.length
    · rw [if_pos hin, if_pos (by omega)]
      congr 1
      omega
    · rw [if_neg hin, if_neg (by omega)]
  · rw [hother _ fun he => ?_, if_neg (by omega)]
    exact heq (h.user.inj rfl v (u / 4096) (Nat.zero_le v) (by omega) (Nat.zero_le _) (by omega) he).symm

theorem copyoutFrom_meets {fuel dst : Nat} {src : List UInt8} (h : UserTable kernel s root free np)
    (hfuel : src.length ≤ fuel) (hend : dst + src.length ≤ np * 4096)
    (hacc : ∀ v, dst / 4096 ≤ v → v * 4096 < dst + src.length → Accessible s root v) :
    Meets (copyoutFrom root fuel dst src) s
      (fun ok s' => ok = true ∧ Wrote root np dst src.length (src.getD · 0) s s')
      (fun _ => False) := by
  induction fuel generalizing s dst src with
  | zero =>
    obtain rfl := List.length_eq_zero_iff.mp (Nat.le_zero.mp hfuel)
    exact Meets.pure ⟨rfl, .none root np dst _ s⟩
  | succ fuel ih =>
    cases src with
    | nil => exact Meets.pure ⟨rfl, .none root np dst _ s⟩
    | cons b src =>
      have hmem := h.space.le_memory
      rw [List.length_cons] at hfuel
      have hpos : 0 < (b :: src).length := by simp
      have hround : PGROUNDDOWN dst = dst / 4096 * 4096 := PGROUNDDOWN_eq (by omega)
      have hlt : dst / 4096 < np := by omega
      have hvalid := h.space.user.valid (dst / 4096) (Nat.zero_le _) (by omega)
      have hpage := (h.space.user.own rfl (dst / 4096) (Nat.zero_le _) (by omega)).page
      have hwalk := walkaddr_eq (PGROUNDDOWN dst) h.space.table (by omega)
        (by rw [hround, Nat.mul_div_cancel _ (by decide)]) hvalid (hacc _ le_rfl (by omega))
      have hoff : dst - dst / 4096 * 4096 = dst % 4096 := by omega
      have hmod : dst % 4096 < 4096 := Nat.mod_lt dst (by decide)
      rw [copyoutFrom]
      refine Meets.seq (Meets.of_eq (Q := fun r t => r = _ ∧ t = s) hwalk ⟨rfl, rfl⟩) ?_
      rintro _ _ ⟨rfl, rfl⟩
      rw [if_neg hpage.bounds.1, hround, hoff]
      refine Meets.bind (Meets.modify ?_)
      generalize hn : min (PGSIZE - dst % 4096) (b :: src).length = n
      change min (4096 - dst % 4096) _ = n at hn
      have htake : ((b :: src).take n).length = n := by
        rw [List.length_take]
        omega
      have hdrop : ((b :: src).drop n).length = (b :: src).length - n := List.length_drop
      have hw := h.space.memmove hlt (dst % 4096) ((b :: src).take n) (by omega)
      generalize Phys.setPage _ _ _ = s₁ at hw ⊢
      have hstart : dst / 4096 * 4096 + dst % 4096 = dst := by omega
      have hnext : (dst / 4096 * 4096 + PGSIZE) % 2 ^ 64 = dst / 4096 * 4096 + 4096 := by
        change (dst / 4096 * 4096 + 4096) % 2 ^ 64 = _
        omega
      rw [htake, hstart] at hw
      rw [hnext]
      refine (ih (h.wrote hw) (by rw [hdrop, List.length_cons]; omega) (by omega) ?_).post ?_
      · intro v hv hv'
        rw [Accessible, hw.entry]
        exact hacc v (by omega) (by omega)
      · rintro ok s₂ ⟨hok, hw₂⟩
        have hsum : n + ((b :: src).drop n).length = (b :: src).length := by omega
        refine ⟨hok, ?_⟩
        rw [← hsum]
        by_cases hlast : ((b :: src).drop n).length = 0
        · rw [hlast] at hw₂ ⊢
          refine hw.append (hw₂.of_zero (dst + n) fun k => 0) rfl (fun k hk => ?_) fun k hk => by omega
          simp [List.getD_eq_getElem?_getD, hk]
        · refine hw.append hw₂ (by omega) (fun k hk => ?_) fun k hk => ?_
          · simp [List.getD_eq_getElem?_getD, hk]
          · simp [List.getD_eq_getElem?_getD, List.getElem?_drop]

theorem copyout_meets {dst : Nat} {src : List UInt8} (h : UserTable kernel s root free np)
    (hend : dst + src.length ≤ np * 4096)
    (hacc : ∀ v, dst / 4096 ≤ v → v * 4096 < dst + src.length → Accessible s root v) :
    Meets (copyout root dst src) s
      (fun ok s' => ok = true ∧ Wrote root np dst src.length (src.getD · 0) s s')
      (fun _ => False) :=
  copyoutFrom_meets h le_rfl hend hacc

def hide (s : Phys) (root v : Nat) : Phys :=
  s.setWord (node s.mem root (lowest v)) (index 0 v) (clearBits (entry s.mem root v) PTE_U)

section Hide

variable (h : UserTable kernel s root free np) (hv : v < np)
  (hflags : PTE_FLAGS (entry s.mem root v) = userPerm ||| PTE_V)

include h

theorem hide_node (n : List (Fin 512)) : node (hide s root v).mem root n = node s.mem root n :=
  putEntry_node h.space.table.tree v _ n

include hv

theorem UserTable.lowest_ne : node s.mem root (lowest v) ≠ 0 := by
  intro hz
  have hvalid := h.space.user.valid v (Nat.zero_le v) (by omega)
  rw [entry, if_pos hz, Nat.zero_and] at hvalid
  exact hvalid rfl

theorem uvmclear_eq : uvmclear root (v * 4096) s = .ok ((), hide s root v) := by
  have hmem := h.space.le_memory
  have hva : v * 4096 < 2 ^ 38 := by omega
  have hwalk := walk_lookup h.space.table.tree hva (Nat.mul_div_cancel v (by decide))
  have hload : s.mem (node s.mem root (lowest v)) (index 0 v) = entry s.mem root v := by
    rw [entry, if_neg (h.lowest_ne hv)]
  rw [pteAt, if_neg (h.lowest_ne hv)] at hwalk
  rw [uvmclear, bind_of_ok hwalk]
  simp only [load, bind_assoc, pure_bind, get_bind, hload]
  rfl

theorem hide_entry {u : Nat} (hu : u < 2 ^ 27) : entry (hide s root v).mem root u =
    if u = v then clearBits (entry s.mem root v) PTE_U else entry s.mem root u := by
  have hmem := h.space.le_memory
  exact putEntry_entry h.space.table.tree (h.lowest_ne hv) (by omega) hu

theorem hide_pageAt {u : Nat} (hu : u < 2 ^ 27) :
    pageAt (hide s root v).mem root u = pageAt s.mem root u := by
  rw [pageAt, pageAt, hide_entry h hv hu]
  split
  next he =>
    rw [he]
    exact PTE2PA_clearBits _ (by decide)
  next => rfl

theorem hide_userByte {u : Nat} (hu : u < np * 4096) :
    userByte (hide s root v) root u = userByte s root u := by
  have hmem := h.space.le_memory
  have hown := h.space.user.own rfl (u / 4096) (Nat.zero_le _) (by omega)
  have hpage : (hide s root v).mem (pageAt s.mem root (u / 4096)) =
      s.mem (pageAt s.mem root (u / 4096)) := Function.update_of_ne (hown.not_table _).symm ..
  rw [userByte, userByte, hide_pageAt h hv (by omega), hpage]

theorem hide_not_accessible : ¬Accessible (hide s root v) root v := by
  have hmem := h.space.le_memory
  have hbits : ∀ w, clearBits w PTE_U &&& PTE_U = 0 := by
    intro w
    rw [clearBits_and, clearBits, Nat.and_assoc, Nat.and_self, Nat.xor_self]
  rw [Accessible, hide_entry h hv (by omega), if_pos rfl, hbits, not_not]

include hflags

theorem UserTable.hide : UserTable kernel (hide s root v) root free np := by
  have hmem := h.space.le_memory
  have hmax := userPages_eq
  have hflags' : PTE_FLAGS (clearBits (entry s.mem root v) PTE_U) = 15 := by
    rw [PTE_FLAGS_clearBits, hflags]
    rfl
  refine ⟨h.space.of_pages (h.space.table.put v _) (fun u hu => ?_)
    (fun u hu => hide_pageAt h hv (by omega)) (fun u hu hu' => ?_)
    (fun u _ hf => ⟨hf.page, hf.not_free, fun n => ?_⟩) h.space.pages, fun u hu hu' => ?_, ?_, fun n => ?_⟩
  · rw [hide_entry h hv (by omega)]
    split
    · rw [and_flags _ (by decide), hflags']
      decide
    · exact ⟨h.space.user.valid u (Nat.zero_le u) (by omega), h.space.user.leaf u (Nat.zero_le u) (by omega)⟩
  · rw [hide_entry h hv (by omega), if_neg (by omega)]
    exact h.space.unused u hu hu'
  · rw [hide_node h]
    exact hf.not_table n
  · have he : entry (Vm.hide s root v).mem root u = entry s.mem root u := by
      rw [hide_entry h hv hu', if_neg (by omega)]
    rw [mapping_congr he]
    exact h.kernel u hu hu'
  · exact h.plain.congr fun n => putEntry_upper h.space.table.tree v _
  · rw [hide_node h]
    exact h.tables n

theorem Building.hide {s₀ : Phys} {free₀ : List Nat} (hb : Building s₀ free₀ kernel s root free np) :
    Building s₀ free₀ kernel (hide s root v) root free np := by
  have hmem := h.space.le_memory
  have ht := h.hide hv hflags
  refine ⟨ht, ⟨ht.space.table.pool, hb.spent.rest, fun a ha hout => ?_⟩, fun n hn => ?_, fun u hu => ?_⟩
  · rw [← hb.spent.frame a ha hout]
    refine Function.update_of_ne ?_ ..
    rintro rfl
    exact hout (hb.nodes _ ha)
  · rw [hide_node h] at hn ⊢
    exact hb.nodes n hn
  · rw [hide_pageAt h hv (by omega)]
    exact hb.users u hu

end Hide

end Xv6.Vm

import Xv6.Lib.Bytes
import Xv6.Vm.FiniteMap
import Xv6.Vm.Grow

namespace Xv6.Vm

open Lib.Bytes Lib.Command

variable {s s' : Phys} {root sz np : Nat} {free free' : List Nat} {n : Int32}

/-- Grow or shrink user memory by `n` bytes: what `growproc` returns, and `p->sz` afterwards. The
local `sz` is a 32-bit `uint`. -/
def growproc [KernelImage] (pagetable psz : Nat) (n : Int32) : VmM (Int × Nat) := do
  let sz := psz % 2 ^ 32
  let sum := (sz + n.toUInt32.toNat) % 2 ^ 32
  if 0 < n.toInt then
    let r ← uvmalloc pagetable sz sum
    let sz := r % 2 ^ 32
    if sz = 0 then return (-1, psz)
    else return (0, sz)
  else if n.toInt < 0 then
    let r ← uvmdealloc pagetable sz sum
    return (0, r % 2 ^ 32)
  else return (0, sz)

theorem growproc_below_zero [KernelImage] (hsz : sz < 2 ^ 31) (hneg : sz + n.toInt < 0) (s : Phys) :
    growproc root sz n s = .ok ((0, sz), s) := by
  have hn := n.le_toInt
  have hcount := toNat_toUInt32 n
  rw [if_neg (by omega)] at hcount
  have hsum : (sz % 2 ^ 32 + n.toUInt32.toNat) % 2 ^ 32 = sz + n.toUInt32.toNat := by omega
  have hle : sz % 2 ^ 32 ≤ sz + n.toUInt32.toNat := by omega
  have hmod : sz % 2 ^ 32 = sz := Nat.mod_eq_of_lt (by omega)
  rw [growproc, if_neg (by omega), if_pos (by omega), hsum, uvmdealloc, if_pos hle, hmod, pure_bind, hmod]
  rfl

section Break

variable [KernelImage]

def view (s : Phys) (root v : Nat) : Option (Nat × Nat) × Page :=
  (mapping s.mem root v, s.mem (pageAt s.mem root v))

/-- `growproc` has moved the break to `sz'`: user memory is as it was up to the smaller of the two
sizes, and pages of zeroes above. -/
structure Moved (root sz : Nat) (s : Phys) (sz' : Nat) (s' : Phys) : Prop where
  space : ∃ free', Space s' root free' (pagesOf sz')
  old : ∀ v, v < pagesOf sz → v < pagesOf sz' → view s' root v = view s root v
  new : ∀ v, pagesOf sz ≤ v → v < pagesOf sz' → (view s' root v).2 = Page.fill 0
  other : ∀ v, pagesOf sz ≤ v → pagesOf sz' ≤ v → v < userPages → mapping s'.mem root v = none

/-- `growproc` has left user memory as it was. -/
structure Unmoved (root sz : Nat) (s s' : Phys) : Prop where
  space : ∃ free', Space s' root free' (pagesOf sz)
  mapping : ∀ v, v < userPages → mapping s'.mem root v = mapping s.mem root v
  old : ∀ v, v < pagesOf sz → view s' root v = view s root v

omit [KernelImage] in
theorem pageAt_of_mapping {m m' : Mem} {v : Nat} (hv : entry m root v &&& PTE_V ≠ 0)
    (h : mapping m' root v = mapping m root v) : pageAt m' root v = pageAt m root v := by
  rw [mapping, mapping, if_neg hv] at h
  split at h
  · cases h
  · exact congrArg Prod.fst (Option.some.inj h)

theorem Space.mapping_unused (h : Space s root free np) {v : Nat} (hv : np ≤ v)
    (hv' : v < userPages) : Vm.mapping s.mem root v = none :=
  mapping_eq_none_iff.mpr (h.unused v hv hv')

theorem Space.view_eq (h : Space s root free np) {v : Nat} (hv : v < np)
    (hmap : Vm.mapping s'.mem root v = Vm.mapping s.mem root v)
    (hmem : s'.mem (pageAt s.mem root v) = s.mem (pageAt s.mem root v)) :
    view s' root v = view s root v := by
  have hpage := pageAt_of_mapping (h.user.valid v (Nat.zero_le v) (by omega)) hmap
  rw [view, view, hmap, hpage, hmem]

theorem Grown.moved {sz' : Nat} (h : Space s root free (pagesOf sz))
    (hg : Grown root (pagesOf sz) s free s' free' (pagesOf sz')) : Moved root sz s sz' s' := by
  have hle := hg.space.le
  rw [userPages_eq] at hle
  refine ⟨⟨free', hg.space⟩, fun v hv hv' => ?_, fun v hv hv' => ?_, fun v _ hv' hlt => ?_⟩
  · exact h.view_eq hv (mapping_congr (hg.entry v (by omega) (by omega))) (h.page_frame hg.grows hv)
  · exact hg.zero v hv hv'
  · exact hg.space.mapping_unused hv' hlt

theorem Restored.unmoved (h : Space s root free (pagesOf sz))
    (hr : Restored root (pagesOf sz) s free s' free') : Unmoved root sz s s' := by
  refine ⟨⟨free', hr.space⟩, fun v hv => hr.mapping v (by rw [userPages_eq] at hv; omega),
    fun v hv => ?_⟩
  have hle := h.le
  rw [userPages_eq] at hle
  exact h.view_eq hv (hr.mapping v (by omega)) (h.page_frame hr.grows hv)

theorem Unmapped.moved {sz' : Nat} (h : Space s root free (pagesOf sz))
    (hle : pagesOf sz' ≤ pagesOf sz)
    (hu : Unmapped root (pagesOf sz') (pagesOf sz - pagesOf sz') true s free s') :
    Moved root sz s sz' s' := by
  have hmax := h.le
  rw [userPages_eq] at hmax
  have hspace := h.unmap hle hu
  refine ⟨⟨_, hspace⟩, fun v hv hv' => ?_, fun v hv hv' => by omega, fun v _ hv' hlt => ?_⟩
  · have hmap : Vm.mapping s'.mem root v = Vm.mapping s.mem root v := by
      rw [hu.mapping (by omega), if_neg (by omega)]
    refine h.view_eq hv hmap (hu.frame _ ?_ fun _ u hu hu' he => ?_)
    · exact (h.user.own rfl v (Nat.zero_le v) (by omega)).not_table
    · have := h.user.inj rfl u v (Nat.zero_le u) (by omega) (Nat.zero_le v) (by omega) he
      omega
  · exact hspace.mapping_unused hv' hlt

theorem Moved.refl (h : Space s root free (pagesOf sz)) : Moved root sz s sz s :=
  ⟨⟨free, h⟩, fun _ _ _ => rfl, fun v hv hv' => by omega, fun _ hv _ => h.mapping_unused hv⟩

theorem Space.sz_le (h : Space s root free (pagesOf sz)) : sz ≤ 2 ^ 27 := by
  have hmem := h.le_memory
  change (sz + 4095) / 4096 ≤ 2 ^ 15 at hmem
  omega

/-- `growproc` moves the break by `n`, or fails and leaves the process as it was, unless the new
break would be negative. -/
theorem growproc_moves_break (h : Space s root free (pagesOf sz)) (n : Int32) :
    Meets (growproc root sz n) s
      (fun r s' => r.1 = 0 ∧ (r.2 : Int) = sz + n.toInt ∧ Moved root sz s r.2 s' ∨
        r.1 = -1 ∧ r.2 = sz ∧ Unmoved root sz s s')
      (fun _ => False) ↔ 0 ≤ sz + n.toInt := by
  have hsz := h.sz_le
  refine ⟨fun hm => ?_, fun hn => ?_⟩
  · by_contra hneg
    obtain ⟨hr, hbrk, -⟩ | ⟨hr, -⟩ := hm.of_ok (growproc_below_zero (by omega) (by omega) s)
    · dsimp only at hbrk
      omega
    · cases hr
  have hlo := n.le_toInt
  have hhi := n.toInt_lt
  have hcount := toNat_toUInt32 n
  have hmod : sz % 2 ^ 32 = sz := Nat.mod_eq_of_lt (by omega)
  have hsum : ((sz % 2 ^ 32 + n.toUInt32.toNat) % 2 ^ 32 : Nat) = (sz + n.toInt).toNat := by
    split at hcount <;> omega
  rw [growproc, hsum, hmod]
  generalize hnew : (sz + n.toInt).toNat = sz'
  have hsz' : (sz' : Int) = sz + n.toInt := by omega
  have hmod' : sz' % 2 ^ 32 = sz' := Nat.mod_eq_of_lt (by omega)
  split
  next hpos =>
    refine Meets.seq (uvmalloc_meets h (by omega)) ?_
    rintro r s' ⟨free', ⟨rfl, hg⟩ | ⟨rfl, hr⟩⟩
    · rw [hmod', if_neg (by omega)]
      exact Meets.pure (.inl ⟨rfl, hsz', hg.moved h⟩)
    · rw [Nat.zero_mod, if_pos rfl]
      exact Meets.pure (.inr ⟨rfl, rfl, hr.unmoved h⟩)
  next hpos =>
    split
    next hneg =>
      refine Meets.seq (uvmdealloc_meets h (by omega) (by omega)) ?_
      rintro r s' ⟨rfl, hu⟩
      rw [hmod']
      exact Meets.pure (.inl ⟨rfl, hsz', hu.moved h (pagesOf_mono (by omega))⟩)
    next =>
      obtain rfl : sz' = sz := by omega
      exact Meets.pure (.inl ⟨rfl, hsz', .refl h⟩)

end Break

theorem small_space : @Space smallImage small smallRoot [0x80010000, 0x80020000, 0x80030000] 0 := by
  let _ := smallImage
  exact .empty rfl (by decide) small_table.pool (by decide) (by decide)

theorem growproc_moves_break_page :
    ∃ r s', @growproc smallImage smallRoot 0 4096 small = .ok (r, s') ∧
      (r.1 = 0 ∧ (r.2 : Int) = 4096 ∧ @Moved smallImage smallRoot 0 small r.2 s' ∨
        r.1 = -1 ∧ r.2 = 0 ∧ @Unmoved smallImage smallRoot 0 small s') := by
  have h := @growproc_moves_break small smallRoot 0 _ smallImage small_space 4096
  exact (h.mpr (by decide)).ok fun _ => id

/-- What two calls of `growproc` in a row return. -/
def growTwice (n₁ n₂ : Int32) : Option ((Int × Nat) × (Int × Nat)) :=
  match @growproc smallImage smallRoot 0 n₁ small with
  | .ok (r₁, s₁) =>
    match @growproc smallImage smallRoot r₁.2 n₂ s₁ with
    | .ok (r₂, _) => some (r₁, r₂)
    | .error _ => none
  | .error _ => none

/-- A process of one page asks for two pages less: `growproc` returns 0, and the size stays. -/
theorem growproc_shrinks_below_zero :
    growTwice 4096 (-8192) = some ((0, 4096), (0, 4096)) := by decide +kernel

end Xv6.Vm

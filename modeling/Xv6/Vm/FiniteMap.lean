import Xv6.Vm.Unmap

namespace Xv6.Vm

open Lib.Command

/-- The page-table operations as operations on the map from virtual pages to physical addresses and
flags. The map is what `walk` finds. `mappages` adds the pages of the range, or when it returns -1
a proper beginning of them; `uvmunmap` removes exactly the pages of its range, and so undoes
`mappages`. -/
theorem page_table_is_finite_map [KernelImage] (root : Nat) :
    (∀ s free, Table s root free → ∀ va, va < MAXVA →
      lookup root va s = .ok (mapping s.mem root (va / PGSIZE), s)) ∧
    (∀ s free va size pa perm first pages, Table s root free → 1 ≤ size → va + size ≤ MAXVA →
      pa % PGSIZE = 0 → pa < 2 ^ 64 → perm < 1024 → perm &&& (PTE_R ||| PTE_W ||| PTE_X) ≠ 0 →
      PGROUNDDOWN va = first * PGSIZE → PGROUNDDOWN (va + size - 1) = (first + pages) * PGSIZE →
      (∀ v, first ≤ v → v ≤ first + pages → mapping s.mem root v = none) →
      Meets (mappages root va size pa perm) s
        (fun ok s' => ∃ free' k, Table s' root free' ∧
          (if ok then k = pages + 1 else k < pages + 1) ∧
          (∀ v, v < MAXVA / PGSIZE → mapping s'.mem root v = if first ≤ v ∧ v < first + k
            then some ((pa + (v - first) * PGSIZE) % 2 ^ 64, perm ||| PTE_V)
            else mapping s.mem root v) ∧
          Meets (uvmunmap root (first * PGSIZE) k false) s'
            (fun _ s'' => Table s'' root free' ∧
              ∀ v, v < MAXVA / PGSIZE → mapping s''.mem root v = mapping s.mem root v)
            (fun _ => False))
        (fun _ => False)) ∧
    (∀ s free first n doFree, Table s root free → first + n ≤ MAXVA / PGSIZE →
      Range root first n doFree s free →
      Meets (uvmunmap root (first * PGSIZE) n doFree) s
        (fun _ s' => Table s' root (freed s.mem root first doFree n ++ free) ∧
          ∀ v, v < MAXVA / PGSIZE → mapping s'.mem root v =
            if first ≤ v ∧ v < first + n then none else mapping s.mem root v)
        (fun _ => False)) := by
  refine ⟨fun s free h va hva => lookup_eq h hva rfl, ?_, ?_⟩
  · intro s free va size pa perm first pages h hsize hend hal hpa hperm hrwx hfirst hlast hfree
    have hend' : va + size ≤ 2 ^ 38 := hend
    rw [PGROUNDDOWN_eq (by omega)] at hfirst hlast
    have hfirst : va / 4096 = first := Nat.eq_of_mul_eq_mul_right (by decide) hfirst
    have hlast : (va + size - 1) / 4096 = first + pages :=
      Nat.eq_of_mul_eq_mul_right (by decide) hlast
    have hcount : (va + size - 1) / 4096 - va / 4096 + 1 = pages + 1 := by omega
    refine (mappages_meets h hsize hend hpa fun v hv hv' => ?_).post ?_
    · exact mapping_eq_none_iff.mp (hfree v (by omega) (by omega))
    · rintro ok s' ⟨free', k, h', hg, hk, hfill⟩
      rw [hcount] at hk
      rw [hfirst] at hfill
      have hle : first + k ≤ 2 ^ 26 := by
        split at hk <;> omega
      refine ⟨free', k, h', hk, fun v hv => hfill.mapping hal hperm hv, ?_⟩
      refine (uvmunmap_meets h' hle (hfill.range hle hperm hrwx)).post ?_
      intro _ s'' hu
      refine ⟨?_, fun v hv => ?_⟩
      · have ht := hu.table
        rwa [freed_false, List.nil_append] at ht
      · rw [hu.mapping (hv.trans (by decide))]
        split
        next hin => exact (hfree v hin.1 (by split at hk <;> omega)).symm
        next hin => rw [hfill.mapping hal hperm hv, if_neg hin]
  · intro s free first n doFree h hend hr
    refine (uvmunmap_meets h hend hr).post ?_
    exact fun _ s' hu => ⟨hu.table, fun v hv => hu.mapping (hv.trans (by decide))⟩

def small : Phys where
  mem a := if a = 0x80010000 then Function.update (Page.fill 0) 0 0x80020000
    else if a = 0x80020000 then Function.update (Page.fill 0) 0 0x80030000
    else Page.fill 0
  freelist := 0x80010000
  fails := []

def smallRoot : Nat := 0x80000000

theorem small_table : Table small smallRoot [0x80010000, 0x80020000, 0x80030000] := by
  have hroot : small.mem smallRoot = Page.fill 0 := rfl
  refine ⟨tree_empty hroot (by decide), ⟨?_, by decide, by decide⟩, fun n => ?_⟩
  · exact ⟨rfl, rfl, rfl, rfl⟩
  · cases n with
    | nil => decide
    | cons i n =>
      rw [node_empty hroot]
      decide

abbrev smallImage : KernelImage := ⟨KERNBASE, le_rfl, by decide⟩

theorem page_table_is_finite_map_small :
    ∃ s', mappages smallRoot 0x5abc 0x1000 0x87000000 PTE_R small = .ok (true, s') ∧
      mapping s'.mem smallRoot 5 = some (0x87000000, PTE_R ||| PTE_V) ∧
      mapping s'.mem smallRoot 6 = some (0x87001000, PTE_R ||| PTE_V) ∧
      mapping s'.mem smallRoot 9 = none := by
  have hroot : small.mem smallRoot = Page.fill 0 := rfl
  have hmap := (@page_table_is_finite_map smallImage smallRoot).2.1 small _ 0x5abc 0x1000 0x87000000
    PTE_R 5 1 small_table (by decide) (by decide) (by decide) (by decide) (by decide) (by decide)
    (by decide) (by decide) fun v _ _ => mapping_empty hroot v
  obtain ⟨ok, s', hrun, free', k, -, hk, hnew, -⟩ := hmap.ok fun _ => id
  have hok : (mappages smallRoot 0x5abc 0x1000 0x87000000 PTE_R small).toOption.map Prod.fst =
      some true := by decide +kernel
  rw [hrun] at hok
  obtain rfl : ok = true := Option.some.inj hok
  obtain rfl : k = 2 := hk
  refine ⟨s', hrun, ?_, ?_, ?_⟩
  · rw [hnew 5 (by decide), if_pos (by decide)]
    rfl
  · rw [hnew 6 (by decide), if_pos (by decide)]
    rfl
  · rw [hnew 9 (by decide), if_neg (by decide)]
    exact mapping_empty hroot 9

end Xv6.Vm

import Xv6.Exec.Exec

namespace Xv6.Exec

open Lib.Command Vm

variable {s s' s₀ : Phys} {root np sz va offset : Nat} {free free' free₀ kernel : List Nat}
  {file : List UInt8} {segs : List Proghdr} {ph : Proghdr} {elf : Elfhdr}

def filePos (offset k : Nat) : Nat := (offset + k / 4096 * 4096) % 2 ^ 32 + k % 4096

theorem filePos_page (offset j k : Nat) (hk : k < 4096) :
    filePos offset (j * 4096 + k) = (offset + j * 4096) % 2 ^ 32 + k := by
  have hdiv : (j * 4096 + k) / 4096 = j := by omega
  have hmod : (j * 4096 + k) % 4096 = k := by omega
  rw [filePos, hdiv, hmod]

theorem length_readi_le (file : List UInt8) (off n : Nat) : (readi file off n).length ≤ n := by
  rw [readi]
  split
  · exact Nat.zero_le n
  · exact List.length_take_le n _

theorem getD_readi {off n k : Nat} (hk : k < (readi file off n).length) :
    (readi file off n).getD k 0 = file.getD (off + k) 0 := by
  rw [readi] at hk ⊢
  split at hk
  · simp at hk
  next hc =>
    rw [if_neg hc]
    rw [List.length_take] at hk
    simp [List.getD_eq_getElem?_getD, List.getElem?_drop, show k < n by omega]

theorem le_length_of_readi {off n : Nat} (h : (readi file off n).length = n) (hn : 0 < n) :
    off + n ≤ file.length := by
  rw [readi] at h
  split at h
  · simp at h
    omega
  · rw [List.length_take, List.length_drop] at h
    omega

variable [KernelImage]

def Open (s : Phys) (root np : Nat) : Prop :=
  ∀ v, v < np → PTE_FLAGS (entry s.mem root v) = userPerm ||| PTE_V

omit [KernelImage] in
theorem Open.accessible {v : Nat} (h : Open s root np) (hv : v < np) : Accessible s root v := by
  rw [Accessible, and_flags _ (by decide), h v hv]
  decide

omit [KernelImage] in
theorem Open.wrote {len : Nat} {f : Nat → UInt8} (h : Open s root np)
    (hw : Wrote root np va len f s s') : Open s' root np := by
  intro v hv
  rw [hw.entry]
  exact h v hv

theorem loadsegFrom_meets {first j turns : Nat} (file : List UInt8) (offset : Nat)
    (h : UserTable kernel s root free np)
    (hopen : Open s root np) (hend : first * 4096 + sz ≤ np * 4096)
    (hturns : j + turns = (sz + 4095) / 4096) :
    Meets (loadsegFrom root (first * 4096) file offset sz turns (j * 4096)) s
      (fun ok s' => ∃ len, Wrote root np (first * 4096 + j * 4096) len
          (fun k => file.getD (filePos offset (j * 4096 + k)) 0) s s' ∧
        (ok = true → len = sz - j * 4096 ∧
          ∀ k, j * 4096 ≤ k → k < sz → filePos offset k < file.length))
      (fun _ => False) := by
  induction turns generalizing s j with
  | zero =>
    refine Meets.pure ⟨0, .none root np _ _ s, fun _ => ⟨by omega, fun k hk hk' => by omega⟩⟩
  | succ turns ih =>
    have hmem := h.space.le_memory
    have hlt : first + j < np := by omega
    have haddr : (first * 4096 + j * 4096) % 2 ^ 64 = first * 4096 + j * 4096 :=
      Nat.mod_eq_of_lt (by omega)
    have hpage := (h.space.user.own rfl (first + j) (Nat.zero_le _) (by omega)).page
    have hwalk := walkaddr_eq (first * 4096 + j * 4096) h.space.table (by omega)
      (by omega : _ = first + j) (h.space.user.valid _ (Nat.zero_le _) (by omega)) (hopen.accessible hlt)
    rw [loadsegFrom, haddr]
    refine Meets.seq (Meets.of_eq (Q := fun r t => r = _ ∧ t = s) hwalk ⟨rfl, rfl⟩) ?_
    rintro _ _ ⟨rfl, rfl⟩
    rw [if_neg hpage.bounds.1]
    have hpos := filePos_page offset j
    generalize hn : min (sz - j * 4096) PGSIZE = n
    generalize (offset + j * 4096) % 2 ^ 32 = pos at hpos ⊢
    change min (sz - j * 4096) 4096 = n at hn
    have hle := length_readi_le file pos n
    have hroom : 0 + (readi file pos n).length ≤ 4096 := by omega
    have hw := h.space.memmove hlt 0 (readi file pos n) hroom
    have hstart : (first + j) * 4096 + 0 = first * 4096 + j * 4096 := by
      rw [Nat.add_zero, Nat.add_mul]
    rw [hstart] at hw
    refine Meets.bind (Meets.modify ?_)
    generalize Phys.setPage _ _ _ = s₁ at hw ⊢
    have hfile : ∀ k, k < (readi file pos n).length →
        (readi file pos n).getD k 0 =
          file.getD (filePos offset (j * 4096 + k)) 0 := by
      intro k hk
      rw [getD_readi hk, hpos k (by omega)]
    split
    next hshort =>
      refine Meets.pure ⟨(readi file pos n).length + 0, ?_, nofun⟩
      exact hw.append (.none root np _ (fun _ => 0) _) rfl hfile fun k hk => by omega
    next hfull =>
      have hfull := not_not.mp hfull
      have hin := le_length_of_readi hfull (by omega)
      rw [hfull] at hw hfile
      -- the bytes of this page are in the file
      have hpage : ∀ k, j * 4096 ≤ k → k < j * 4096 + n → filePos offset k < file.length := by
        intro k hk hk'
        have heq : j * 4096 + (k - j * 4096) = k := Nat.add_sub_of_le hk
        have := hpos (k - j * 4096) (by omega)
        rw [heq] at this
        omega
      cases turns with
      | zero =>
        refine Meets.pure ⟨n + 0, hw.append (.none root np _ (fun _ => 0) _) rfl hfile fun k hk => by omega,
          fun _ => ⟨by omega, fun k hk hk' => hpage k hk (by omega)⟩⟩
      | succ turns =>
        obtain rfl : n = 4096 := by omega
        refine Meets.post ?_ ?_ (Q := fun ok s' => ∃ len, Wrote root np
          (first * 4096 + (j * 4096 + 4096)) len (fun k => file.getD (filePos offset (j * 4096 + 4096 + k)) 0)
            s₁ s' ∧ (ok = true → len = sz - (j * 4096 + 4096) ∧
              ∀ k, j * 4096 + 4096 ≤ k → k < sz → filePos offset k < file.length))
        · have hrest := ih (j := j + 1) (h.wrote hw) (hopen.wrote hw) (by omega)
          rwa [Nat.succ_mul] at hrest
        rintro ok s₂ ⟨len, hw₂, hok⟩
        refine ⟨4096 + len, hw.append hw₂ (Nat.add_assoc _ _ _).symm hfile fun k _ => ?_, fun hc => ⟨?_, fun k hk hk' => ?_⟩⟩
        · rw [Nat.add_assoc]
        · have := (hok hc).1
          omega
        · by_cases hin' : j * 4096 + 4096 ≤ k
          · exact (hok hc).2 k hin' hk'
          · exact hpage k hk (by omega)

theorem loadseg_meets {first : Nat} (h : UserTable kernel s root free np) (hopen : Open s root np)
    (hend : first * 4096 + sz ≤ np * 4096) :
    Meets (loadseg root (first * 4096) file offset sz) s
      (fun ok s' => ∃ len, Wrote root np (first * 4096) len
          (fun k => file.getD (filePos offset k) 0) s s' ∧
        (ok = true → len = sz ∧ ∀ k, k < sz → filePos offset k < file.length))
      (fun _ => False) := by
  have hal : ¬first * 4096 % PGSIZE ≠ 0 := not_not.mpr (Nat.mul_mod_left first 4096)
  have hloop := loadsegFrom_meets (j := 0) file offset h hopen hend (Nat.zero_add _)
  rw [Nat.zero_mul] at hloop
  rw [loadseg, if_neg hal]
  refine hloop.post ?_
  rintro ok s' ⟨len, hw, hok⟩
  simp only [Nat.zero_add, Nat.add_zero] at hw
  exact ⟨len, hw, fun hc => ⟨(hok hc).1, fun k hk => (hok hc).2 k (Nat.zero_le k) hk⟩⟩

def top (segs : List Proghdr) : Nat := segs.foldr (fun ph m => max (ph.vaddr + ph.memsz) m) 0

def image (file : List UInt8) : List Proghdr → Nat → UInt8
  | [], _ => 0
  | ph :: segs, va =>
    if ph.vaddr ≤ va ∧ va < ph.vaddr + ph.filesz then file.getD (filePos ph.off (va - ph.vaddr)) 0
    else image file segs va

structure Loaded (file : List UInt8) (ph : Proghdr) : Prop where
  le : ph.filesz ≤ ph.memsz
  aligned : ph.vaddr % 4096 = 0
  file : ∀ k, k < ph.filesz → filePos ph.off k < file.length

/-- The segments have been loaded into user memory of size `sz`. -/
structure Imaged (s₀ : Phys) (free₀ : List Nat) (file : List UInt8) (segs : List Proghdr) (s : Phys)
    (root : Nat) (free : List Nat) (sz : Nat) : Prop where
  building : Building s₀ free₀ kernelPages s root free (pagesOf sz)
  access : Open s root (pagesOf sz)
  le : top segs ≤ sz
  loaded : ∀ ph ∈ segs, Loaded file ph
  byte : ∀ va, va < pagesOf sz * 4096 → userByte s root va = image file segs va

omit [KernelImage] in
theorem image_above (hl : ∀ ph ∈ segs, Loaded file ph) {va : Nat} (h : top segs ≤ va) :
    image file segs va = 0 := by
  induction segs with
  | nil => rfl
  | cons ph segs ih =>
    have hle := (hl ph List.mem_cons_self).le
    rw [top, List.foldr_cons] at h
    rw [image, if_neg (by omega)]
    exact ih (fun ph hm => hl ph (List.mem_cons_of_mem _ hm)) (le_trans (le_max_right _ _) h)

omit [KernelImage] in
theorem le_pagesOf (sz : Nat) : sz ≤ pagesOf sz * 4096 := by
  change sz ≤ (sz + 4095) / 4096 * 4096
  omega

theorem Imaged.grown {sz' : Nat} (h : Imaged s₀ free₀ file segs s root free sz) (hle : sz ≤ sz')
    (hg : Grown root (pagesOf sz) s free s' free' (pagesOf sz')) :
    Imaged s₀ free₀ file segs s' root free' sz' := by
  have hmem := hg.space.le_memory
  refine ⟨h.building.grown hg, fun v hv => ?_, h.le.trans hle, h.loaded, fun va hva => ?_⟩
  · by_cases hlt : v < pagesOf sz
    · rw [hg.entry v (by omega) (by omega)]
      exact h.access v hlt
    · exact hg.perm v (by omega) hv
  · rw [hg.userByte h.building.table.space hva]
    split
    next hlt => exact h.byte va hlt
    next hge =>
      have hpages := le_pagesOf sz
      have hl := h.le
      exact (image_above h.loaded (by omega)).symm

theorem Imaged.load (h : Imaged s₀ free₀ file segs s root free sz) (hle : ph.vaddr + ph.memsz ≤ sz)
    (hl : Loaded file ph) (hw : Wrote root (pagesOf sz) ph.vaddr ph.filesz
      (fun k => file.getD (filePos ph.off k) 0) s s') :
    Imaged s₀ free₀ file (ph :: segs) s' root free sz := by
  refine ⟨h.building.wrote hw, h.access.wrote hw, max_le hle h.le, fun ph' hm => ?_, fun va hva => ?_⟩
  · obtain rfl | hm := List.mem_cons.mp hm
    · exact hl
    · exact h.loaded ph' hm
  · rw [hw.byte va hva, image, h.byte va hva]

/-- The segments that `exec` loads from turn `i` on. -/
def loads (file : List UInt8) (elf : Elfhdr) (turns i : Nat) : List Proghdr :=
  ((List.range' i turns).map fun i => Proghdr.ofBytes (header file elf i)).filter
    (·.type = ELF_PROG_LOAD)

omit [KernelImage] in
theorem loads_succ (file : List UInt8) (elf : Elfhdr) (turns i : Nat) :
    loads file elf (turns + 1) i =
      if (Proghdr.ofBytes (header file elf i)).type = ELF_PROG_LOAD then
        Proghdr.ofBytes (header file elf i) :: loads file elf turns (i + 1)
      else loads file elf turns (i + 1) := by
  rw [loads, List.range'_succ, List.map_cons, List.filter_cons]
  simp only [decide_eq_true_eq]
  rfl

theorem loadSegment_meets (h : Imaged s₀ free₀ file segs s root free sz) (hsz : sz = top segs)
    (hlt : ph.vaddr < 2 ^ 64 ∧ ph.memsz < 2 ^ 64) :
    Meets (loadSegment root file ph sz) s
      (fun r s' => ∃ free', if r.2
        then r.1 = top (ph :: segs) ∧ Imaged s₀ free₀ file (ph :: segs) s' root free' r.1
        else Building s₀ free₀ kernelPages s' root free' (pagesOf r.1))
      (fun _ => False) := by
  rw [loadSegment]
  split
  next => exact Meets.pure ⟨free, h.building⟩
  next hfilesz =>
  split
  next => exact Meets.pure ⟨free, h.building⟩
  next hover =>
  have hend : (ph.vaddr + ph.memsz) % 2 ^ 64 = ph.vaddr + ph.memsz := by omega
  rw [hend]
  -- after the allocation, the image has its new size
  have hload : ∀ sz' s₁ free₁, sz' = max (ph.vaddr + ph.memsz) sz →
      Imaged s₀ free₀ file segs s₁ root free₁ sz' →
      Meets (if sz' = 0 then return (sz, false)
        else if ph.vaddr % PGSIZE ≠ 0 then return (sz', false)
        else do
          let ok ← loadseg root ph.vaddr file (ph.off % 2 ^ 32) (ph.filesz % 2 ^ 32)
          return (sz', ok)) s₁
        (fun r s' => ∃ free', if r.2
          then r.1 = top (ph :: segs) ∧ Imaged s₀ free₀ file (ph :: segs) s' root free' r.1
          else Building s₀ free₀ kernelPages s' root free' (pagesOf r.1))
        (fun _ => False) := by
    intro sz' s₁ free₁ hsz' h₁
    split
    next hzero =>
      obtain rfl : sz' = sz := by omega
      exact Meets.pure ⟨free₁, h₁.building⟩
    split
    next => exact Meets.pure ⟨free₁, h₁.building⟩
    next hzero hal =>
      have hal : ph.vaddr % 4096 = 0 := not_not.mp hal
      have hfirst : ph.vaddr = ph.vaddr / 4096 * 4096 := by omega
      have hpages := le_pagesOf sz'
      have hmem := h₁.building.table.space.le_memory
      have hfile : ph.filesz % 2 ^ 32 = ph.filesz := Nat.mod_eq_of_lt (by omega)
      have hpos : ∀ k, filePos (ph.off % 2 ^ 32) k = filePos ph.off k := by
        intro k
        rw [filePos, filePos, Nat.mod_add_mod]
      rw [hfile, hfirst]
      refine Meets.seq (loadseg_meets h₁.building.table h₁.access (by omega)) ?_
      rintro ok s₂ ⟨len, hw, hok⟩
      rw [← hfirst] at hw
      simp only [hpos] at hw hok
      cases ok with
      | false => exact Meets.pure ⟨free₁, h₁.building.wrote hw⟩
      | true =>
        obtain ⟨rfl, hin⟩ := hok rfl
        have hend : sz' = top (ph :: segs) := by
          rw [hsz', hsz]
          rfl
        exact Meets.pure ⟨free₁, hend, h₁.load (by omega) ⟨by omega, hal, hin⟩ hw⟩
  by_cases hgrow : ph.vaddr + ph.memsz < sz
  · rw [uvmalloc, if_pos hgrow]
    exact hload sz s free (by omega) h
  · refine Meets.seq (uvmalloc_meets h.building.table.space (by omega)) ?_
    rintro r s₁ ⟨free₁, ⟨rfl, hg⟩ | ⟨rfl, hr⟩⟩
    · exact hload _ s₁ free₁ (by omega) (h.grown (by omega) hg)
    · rw [if_pos rfl]
      exact Meets.pure ⟨free₁, h.building.restored hr⟩

theorem loadSegments_meets {turns i : Nat} (h : Imaged s₀ free₀ file segs s root free sz)
    (hsz : sz = top segs) :
    Meets (loadSegments root file elf turns i sz) s
      (fun r s' => ∃ free', if r.2
        then (∀ j, i ≤ j → j < i + turns → (header file elf j).length = 56) ∧
          r.1 = top ((loads file elf turns i).reverse ++ segs) ∧
          Imaged s₀ free₀ file ((loads file elf turns i).reverse ++ segs) s' root free' r.1
        else Building s₀ free₀ kernelPages s' root free' (pagesOf r.1))
      (fun _ => False) := by
  induction turns generalizing s free i segs sz with
  | zero => exact Meets.pure ⟨free, fun j hj hj' => by omega, hsz, h⟩
  | succ turns ih =>
    rw [loadSegments]
    split
    next => exact Meets.pure ⟨free, h.building⟩
    next hlen =>
    have hheads : (∀ j, i + 1 ≤ j → j < i + 1 + turns → (header file elf j).length = 56) →
        ∀ j, i ≤ j → j < i + (turns + 1) → (header file elf j).length = 56 := by
      intro hrest j hj hj'
      by_cases he : j = i
      · rw [he]
        exact not_not.mp hlen
      · exact hrest j (by omega) (by omega)
    dsimp only
    split
    next htype =>
      rw [loads_succ, if_neg htype]
      refine (ih h hsz).post ?_
      rintro ⟨sz', ok⟩ s' ⟨free', hr⟩
      cases ok with
      | false => exact ⟨free', hr⟩
      | true => exact ⟨free', hheads hr.1, hr.2⟩
    next htype =>
      have hlist : (loads file elf (turns + 1) i).reverse ++ segs =
          (loads file elf turns (i + 1)).reverse ++ Proghdr.ofBytes (header file elf i) :: segs := by
        rw [loads_succ, if_pos (not_not.mp htype), List.reverse_cons, List.append_assoc]
        rfl
      rw [hlist]
      refine Meets.seq (loadSegment_meets h hsz ⟨numAt_lt _ _ 8, numAt_lt _ _ 8⟩) ?_
      rintro ⟨sz₁, ok⟩ s₁ ⟨free₁, hr⟩
      cases ok with
      | false => exact Meets.pure ⟨free₁, hr⟩
      | true =>
        refine (ih hr.2 hr.1).post ?_
        rintro ⟨sz', ok⟩ s' ⟨free', hr⟩
        cases ok with
        | false => exact ⟨free', hr⟩
        | true => exact ⟨free', hheads hr.1, hr.2⟩

end Xv6.Exec

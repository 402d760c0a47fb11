import Xv6.Fs.Bitmap
import Xv6.Mkfs.Build

namespace Xv6.Mkfs

open Fs Lib.Command Lib.Bump

/-- The entries of the root directory: `.`, `..`, and one for each file. -/
def entries (files : List Input) : List Dirent :=
  entry ROOTINO (ascii ".") :: entry ROOTINO (ascii "..") ::
    files.mapIdx fun k f => entry (k + 2) f.name

def contents (files : List Input) : Nat → List UInt8
  | 0 => []
  | 1 => dirBytes (entries files)
  | i + 2 => (files[i]?.map Input.bytes).getD []

def types (n : Nat) (i : Nat) : Int16 :=
  if i = 1 then T_DIR else if 2 ≤ i ∧ i < n + 2 then T_FILE else 0

/-- The files fit the image: no name has a slash, no file is too long, and the
blocks of the files and of the root directory fit the data area. -/
structure Fits (files : List Input) : Prop where
  noSlash : ∀ f ∈ files, 47 ∉ f.shortname
  le_max : ∀ f ∈ files, f.bytes.length ≤ MAXFILE * BSIZE
  blocks : nmeta + blocksFor (16 * (files.length + 2)) +
    (files.map fun f => blocksFor f.bytes.length).sum ≤ FSSIZE

section Contents

variable {files : List Input}

theorem length_entries (files : List Input) : (entries files).length = files.length + 2 := by
  simp [entries]

theorem entries_concat (done : List Input) (f : Input) :
    entries (done ++ [f]) = entries done ++ [entry (done.length + 2) f.name] := by
  simp [entries, List.mapIdx_append]

theorem contents_length_root (files : List Input) :
    (contents files 1).length = 16 * (files.length + 2) := by
  rw [contents, length_dirBytes, length_entries]

theorem total_contents (h : files.length + 2 ≤ inodeCap) :
    total (contents files) = blocksFor (16 * (files.length + 2)) +
      (files.map fun f => blocksFor f.bytes.length).sum := by
  have hsum : ∀ (fs : List Input) (N : Nat), fs.length ≤ N →
      ∑ i ∈ Finset.range N, blocksFor ((fs[i]?.map Input.bytes).getD []).length =
        (fs.map fun f => blocksFor f.bytes.length).sum := by
    intro fs
    induction fs with
    | nil =>
      intro N _
      apply Finset.sum_eq_zero
      intro i _
      exact blocksFor_zero
    | cons f fs ih =>
      intro N hN
      cases N with
      | zero => simp at hN
      | succ N =>
        rw [Finset.sum_range_succ', List.map_cons, List.sum_cons, ← ih N (by simpa using hN)]
        simp [Nat.add_comm]
  have h0 : blocksFor (contents files 0).length = 0 := blocksFor_zero
  rw [total, show inodeCap = 206 + 1 + 1 from rfl, Finset.sum_range_succ', Finset.sum_range_succ',
    h0, contents_length_root]
  change ∑ i ∈ Finset.range 206, blocksFor ((files[i]?.map Input.bytes).getD []).length + _ + 0 = _
  rw [hsum files 206 (by change _ ≤ 208 at h; omega)]
  omega

theorem contents_le_max (h : Fits files) (hn : files.length + 2 ≤ inodeCap) (i : Nat) :
    (contents files i).length ≤ MAXFILE * BSIZE := by
  match i with
  | 0 => exact Nat.zero_le _
  | 1 =>
    rw [contents_length_root]
    change _ ≤ 208 at hn
    change _ ≤ 268 * 1024
    omega
  | i + 2 =>
    change ((files[i]?.map Input.bytes).getD []).length ≤ _
    cases hf : files[i]? with
    | none => exact Nat.zero_le _
    | some f => exact h.le_max f (List.mem_of_getElem? hf)

theorem not_fits_of_append_error {c : Nat → List UInt8} {i : Nat} {p : List UInt8}
    (he : MAXFILE * BSIZE < (c i).length + p.length ∨
      FSSIZE < nmeta + total (Function.update c i (c i ++ p)))
    (hn : files.length + 2 ≤ inodeCap)
    (hle : ∀ j, (Function.update c i (c i ++ p) j).length ≤ (contents files j).length) :
    ¬ Fits files := by
  intro hf
  have hb := hf.blocks
  have hmono := total_mono hle
  rw [total_contents hn] at hmono
  have hi := hle i
  rw [Function.update_self, List.length_append] at hi
  have := contents_le_max hf hn i
  omega

theorem contents_concat (done : List Input) (f : Input) :
    contents (done ++ [f]) = Function.update (Function.update (contents done) 1
      (contents done 1 ++ (entry (done.length + 2) f.name).toBytes)) (done.length + 2) f.bytes := by
  funext i
  match i with
  | 0 => rfl
  | 1 =>
    rw [Function.update_of_ne (by omega), Function.update_self]
    simp [contents, entries_concat, dirBytes]
  | i + 2 =>
    change ((done ++ [f])[i]?.map Input.bytes).getD [] = _
    by_cases hi : i = done.length
    · subst hi
      rw [Function.update_self]
      simp
    · rw [Function.update_of_ne (by omega), Function.update_of_ne (by omega)]
      change _ = (done[i]?.map Input.bytes).getD []
      by_cases hlt : i < done.length
      · rw [List.getElem?_append_left hlt]
      · rw [List.getElem?_eq_none (by simp; omega), List.getElem?_eq_none (by omega)]

theorem contents_new (done : List Input) : contents done (done.length + 2) = [] := by
  change (done[done.length]?.map Input.bytes).getD [] = []
  rw [List.getElem?_eq_none le_rfl]
  rfl

theorem contents_length_append (done rest : List Input) (i : Nat) :
    (contents done i).length ≤ (contents (done ++ rest) i).length := by
  match i with
  | 0 => exact le_rfl
  | 1 =>
    rw [contents_length_root, contents_length_root, List.length_append]
    omega
  | i + 2 =>
    change ((done[i]?.map Input.bytes).getD []).length ≤
      (((done ++ rest)[i]?.map Input.bytes).getD []).length
    by_cases hlt : i < done.length
    · rw [List.getElem?_append_left hlt]
    · rw [List.getElem?_eq_none (by omega)]
      exact Nat.zero_le _

theorem types_succ (n : Nat) : types (n + 1) = Function.update (types n) (n + 2) T_FILE := by
  funext i
  by_cases hi : i = n + 2
  · subst hi
    rw [Function.update_self]
    simp [types]
  · rw [Function.update_of_ne hi]
    unfold types
    have : (2 ≤ i ∧ i < n + 1 + 2) ↔ (2 ≤ i ∧ i < n + 2) := by omega
    simp only [this]

end Contents

section Files

variable {s : Image} {files : List Input}

theorem addFile_meets {done rest : List Input} {f : Input} (he : files = done ++ f :: rest)
    (hn : files.length + 2 ≤ inodeCap) (h : Built s (contents done) (types done.length))
    (hfree : s.freeinode = done.length + 2) :
    Meets (addFile ROOTINO f) s
      (fun _ s' => Built s' (contents (done ++ [f])) (types (done ++ [f]).length) ∧
        s'.freeinode = (done ++ [f]).length + 2) (fun _ => ¬ Fits files) := by
  have hlen : done.length + 1 + rest.length = files.length := by
    rw [he]
    simp
    omega
  have hle : ∀ i, (contents (done ++ [f]) i).length ≤ (contents files i).length := by
    intro i
    have := contents_length_append (done ++ [f]) rest i
    rwa [List.append_assoc, List.singleton_append, ← he] at this
  rw [contents_concat] at hle ⊢
  rw [List.length_append, List.length_singleton, types_succ]
  unfold addFile
  by_cases hslash : 47 ∈ f.shortname
  · rw [if_pos hslash]
    apply Meets.throw
    intro hf
    exact hf.noSlash f (by rw [he]; simp) hslash
  · rw [if_neg hslash]
    apply Meets.bind
    refine (ialloc_meets h (by omega) T_FILE).mono (fun inum s₁ hm => ?_) (fun _ hf => hf.elim)
    obtain ⟨rfl, hfree₁, h₁⟩ := hm
    rw [hfree] at h₁ hfree₁ ⊢
    set c₁ := Function.update (contents done) 1
      (contents done 1 ++ (entry (done.length + 2) f.name).toBytes) with hc₁
    have hnew : c₁ (done.length + 2) = [] := by
      rw [hc₁, Function.update_of_ne (by omega), contents_new]
    apply Meets.bind
    refine (iappend_meets (i := ROOTINO) h₁ (by decide) (by rw [hfree₁]; change 1 < _; omega) _).mono
      (fun _ s₂ hm => ?_) (fun _ herr => ?_)
    · -- the file's own bytes, one chunk after the other
      obtain ⟨h₂, hfree₂⟩ := hm
      have hI : Built s₂ (Function.update c₁ (done.length + 2) ([] : List (List UInt8)).flatten)
            (Function.update (types done.length) (done.length + 2) T_FILE) ∧
          s₂.freeinode = done.length + 1 + 2 := by
        have hz : Function.update c₁ (done.length + 2) ([] : List (List UInt8)).flatten = c₁ := by
          rw [List.flatten_nil, ← hnew, Function.update_eq_self]
        rw [hz]
        exact ⟨h₂, by omega⟩
      refine Meets.forM (fun cs s => Built s (Function.update c₁ (done.length + 2) cs.flatten)
        (Function.update (types done.length) (done.length + 2) T_FILE) ∧
          s.freeinode = done.length + 1 + 2) hI ?_
      rintro cs x cs' s₃ hcs ⟨h₃, hfree₃⟩
      refine (iappend_meets (i := done.length + 2) h₃ (by omega) (by omega) x).mono
        (fun _ s₄ hm => ?_) (fun _ herr => ?_)
      · obtain ⟨h₄, hfree₄⟩ := hm
        rw [Function.update_self, Function.update_idem] at h₄
        rw [List.flatten_append, List.flatten_singleton]
        exact ⟨h₄, by omega⟩
      · refine not_fits_of_append_error herr hn fun j => (le_trans ?_ (hle j))
        rw [Function.update_self, Function.update_idem]
        by_cases hj : j = done.length + 2
        · subst hj
          rw [Function.update_self, Function.update_self, Input.bytes, hcs]
          simp
        · rw [Function.update_of_ne hj, Function.update_of_ne hj]
    · refine not_fits_of_append_error herr hn fun j => (le_trans ?_ (hle j))
      change (c₁ j).length ≤ _
      by_cases hj : j = done.length + 2
      · rw [hj, hnew]
        exact Nat.zero_le _
      · rw [Function.update_of_ne hj]

theorem zeroes_dinode (k : Nat) : Block.zeroes.dinode k = Dinode.zero := by
  have h : Block.zeroes.slice (64 * k) 64 = Dinode.zero.toBytes := by
    apply List.ext_getElem
    · rw [Block.length_slice, Dinode.length_toBytes]
    · intro j hj _
      have hj' : j < 64 := by simpa using hj
      simp only [Block.slice, List.getElem_map, Block.get_zeroes]
      interval_cases j <;> rfl
  rw [Block.dinode, h, Dinode.ofBytes_toBytes]

theorem slotAddr_zero (d : Disk) (t : Slot) : slotAddr d Dinode.zero t = 0 := by
  cases t with
  | indirect => rfl
  | block bn =>
    simp only [slotAddr, addrOf]
    split <;> rfl

theorem built_empty (hl : s.length = FSSIZE) (hb : s.freeblock = nmeta)
    (hd : s.disk = Function.update (fun _ => Block.zeroes) 1 (Block.zeroes.splice 0 sb.toBytes)) :
    Built s (fun _ => []) (fun _ => 0) := by
  have hz : ∀ b, b ≠ 1 → s.disk b = Block.zeroes := by
    intro b hb
    rw [hd, Function.update_of_ne hb]
  have hino : ∀ i, inodes s i = Dinode.zero := by
    intro i
    unfold inodes
    split
    next =>
      have : inodestart ≤ IBLOCK i inodestart := IBLOCK_ge i
      rw [hz _ (by change 32 ≤ _ at this; omega), zeroes_dinode]
    next => rfl
  have hnone : ∀ t, ¬ Slot.Needed 0 t := by
    intro t
    cases t <;> exact Nat.not_lt_zero _
  have htotal : total (fun _ => []) = 0 := Finset.sum_eq_zero fun _ _ => blocksFor_zero
  refine ⟨⟨hl, hb.ge, ?_, ?_, ?_⟩, ?_, ?_, fun _ => Nat.zero_le _, ?_, ?_, ?_, ?_, ?_⟩
  · apply Assigned.empty
    intro k
    rw [hino, slotAddr_zero]
  · intro i
    rw [hino]
    refine ⟨fun t => ?_, fun bn hbn => absurd hbn (hnone _)⟩
    rw [slotAddr_zero]
    exact ⟨fun h => absurd rfl h, fun h => absurd h (hnone t)⟩
  · intro b hb'
    have : nmeta = 46 := rfl
    exact hz b (by omega)
  · rw [hb]
    decide
  · intro i
    rw [hino]
    rfl
  · rw [hb, htotal, Nat.add_zero]
  · intro i
    rw [hino]
    rfl
  · intro i _
    exact ⟨hino i, rfl⟩
  · rw [hd, Function.update_self]
  · intro b hb' _
    exact hz b (by omega)

theorem clear_meets {E : Exit → Prop} (n : Nat) :
    Meets (clear n) empty (fun _ s => s = ⟨fun _ => Block.zeroes, n, 1, nmeta⟩) E := by
  have hstep : ∀ done x rest s, List.range n = done ++ x :: rest →
      s = (⟨fun _ => Block.zeroes, done.length, 1, nmeta⟩ : Image) →
      Meets (wsect x Block.zeroes) s
        (fun _ s' => s' = ⟨fun _ => Block.zeroes, (done ++ [x]).length, 1, nmeta⟩) E := by
    rintro done x rest s he rfl
    have hget : (List.range n)[done.length]? = some x := by
      rw [he, List.getElem?_append_right le_rfl, Nat.sub_self]
      rfl
    obtain rfl : done.length = x := by
      rw [← (List.getElem?_eq_some_iff.mp hget).2, List.getElem_range]
    apply Meets.modify
    simp
  have h := Meets.forM (s := empty)
    (fun done s => s = ⟨fun _ => Block.zeroes, done.length, 1, nmeta⟩) rfl hstep
  rw [List.length_range] at h
  exact h

theorem types_zero : types 0 = Function.update (fun _ => (0 : Int16)) 1 T_DIR := by
  funext i
  by_cases hi : i = 1
  · subst hi
    rfl
  · rw [Function.update_of_ne hi]
    unfold types
    rw [if_neg hi, if_neg (by omega)]

theorem contents_nil : contents [] = Function.update (fun _ => []) 1
    ((entry ROOTINO (ascii ".")).toBytes ++ (entry ROOTINO (ascii "..")).toBytes) := by
  funext i
  match i with
  | 0 => rfl
  | 1 => simp [contents, entries, dirBytes]
  | i + 2 => rfl

theorem makeRoot_meets (hn : files.length + 2 ≤ inodeCap) (h : Built s (fun _ => []) (fun _ => 0))
    (hfree : s.freeinode = 1) :
    Meets makeRoot s
      (fun r s' => r = ROOTINO ∧ Built s' (contents []) (types 0) ∧ s'.freeinode = 2)
      (fun _ => ¬ Fits files) := by
  have hle : ∀ i, (contents [] i).length ≤ (contents files i).length := by
    intro i
    have := contents_length_append [] files i
    rwa [List.nil_append] at this
  rw [contents_nil] at hle ⊢
  apply Meets.bind
  refine (ialloc_meets h (by rw [hfree]; decide) T_DIR).mono (fun r s₁ hm => ?_)
    (fun _ hf => hf.elim)
  obtain ⟨rfl, hfree₁, h₁⟩ := hm
  rw [hfree] at h₁ hfree₁ ⊢
  rw [if_neg (by decide)]
  apply Meets.bind
  refine (iappend_meets (i := 1) h₁ (by decide) (by omega) _).mono (fun _ s₂ hm => ?_)
    (fun _ herr => ?_)
  · obtain ⟨h₂, hfree₂⟩ := hm
    rw [List.nil_append] at h₂
    apply Meets.bind
    refine (iappend_meets (i := 1) h₂ (by decide) (by omega) _).mono (fun _ s₃ hm => ?_)
      (fun _ herr => ?_)
    · obtain ⟨h₃, hfree₃⟩ := hm
      rw [Function.update_self, Function.update_idem, ← types_zero] at h₃
      exact Meets.pure ⟨rfl, h₃, by omega⟩
    · refine not_fits_of_append_error herr hn fun j => ?_
      rw [Function.update_self, Function.update_idem]
      exact hle j
  · refine not_fits_of_append_error (c := fun _ => []) herr hn fun j => (le_trans ?_ (hle j))
    by_cases hj : j = 1
    · subst hj
      rw [Function.update_self, Function.update_self]
      simp
    · rw [Function.update_of_ne hj, Function.update_of_ne hj]

/-- What `mkfs` leaves behind for these files. -/
structure Finished (s : Image) (files : List Input) : Prop where
  laid : Laid s (inodes s) (needs (contents files)) (contents files)
  le : s.freeblock ≤ FSSIZE
  freeinode : s.freeinode = files.length + 2
  size_file : ∀ i, i ≠ ROOTINO → (inodes s i).size.toNat = (contents files i).length
  size_root : (inodes s ROOTINO).size.toNat = ((contents files 1).length / BSIZE + 1) * BSIZE
  type : ∀ i, (inodes s i).type = types files.length i
  le_max : ∀ i, (contents files i).length ≤ MAXFILE * BSIZE
  freemap : s.disk bmapstart = bitmap s.freeblock
  superblock : s.disk 1 = Block.zeroes.splice 0 sb.toBytes
  log : ∀ b, 2 ≤ b → b < inodestart → s.disk b = Block.zeroes

theorem finish_meets {E : Exit → Prop} (h : Built s (contents files) (types files.length))
    (hfree : s.freeinode = files.length + 2) :
    Meets (do fixRoot ROOTINO; let s ← get; balloc s.freeblock) s (fun _ s' => Finished s' files)
      E := by
  have hcap : ROOTINO < inodeCap := by decide
  apply Meets.bind
  apply Meets.bind
  apply rinode_meets h.laid.length_eq hcap
  rw [h.size ROOTINO]
  apply winode_meets h.laid.length_eq hcap
  set din : Dinode := { inodes s ROOTINO with
    size := UInt32.ofNat (((contents files ROOTINO).length / BSIZE + 1) * BSIZE) } with hdin
  set s₁ := s.setInode ROOTINO din with hs₁
  have hino₁ : inodes s₁ = Function.update (inodes s) ROOTINO din := inodes_setInode s hcap din
  apply Meets.bind
  apply Meets.get
  have hle₁ : s₁.freeblock ≤ 1000 := h.le
  unfold balloc
  rw [if_pos (by change _ < 8192; omega)]
  apply Meets.modify
  set s₂ : Image := { s₁ with
    disk := Function.update s₁.disk bmapstart (bitmap s₁.freeblock),
    length := max s₁.length (bmapstart + 1) } with hs₂
  have hlt := IBLOCK_lt_nmeta hcap
  have hino₂ : inodes s₂ = Function.update (inodes s) ROOTINO din := by
    rw [← hino₁]
    funext j
    unfold inodes
    split
    next hj =>
      have := IBLOCK_lt hj
      rw [hs₂]
      simp only
      rw [Function.update_of_ne (by omega)]
    next => rfl
  have hlen : s₂.length = s.length := by
    change max s.length (bmapstart + 1) = s.length
    rw [h.laid.length_eq]
    decide
  have hdisk : ∀ b, b ≠ bmapstart → b ≠ IBLOCK ROOTINO inodestart → s₂.disk b = s.disk b := by
    intro b hb hb'
    rw [hs₂]
    simp only
    rw [Function.update_of_ne hb]
    exact Function.update_of_ne hb' _ _
  have hroot : ((contents files 1).length / BSIZE + 1) * BSIZE < 2 ^ 32 := by
    have := h.le_max 1
    change _ ≤ 268 * 1024 at this
    change ((contents files 1).length / 1024 + 1) * 1024 < 2 ^ 32
    omega
  refine ⟨?_, h.le, hfree, ?_, ?_, ?_, h.le_max, ?_, ?_, ?_⟩
  · refine h.laid.congr (fun b hb => ?_) hlen rfl (fun j => ?_)
    · have : bmapstart < nmeta := by decide
      exact hdisk b (by omega) (by omega)
    · rw [hino₂]
      by_cases hj : j = ROOTINO
      · rw [hj, Function.update_self]
      · rw [Function.update_of_ne hj]
  · intro j hj
    rw [hino₂, Function.update_of_ne hj, h.size j]
  · rw [hino₂, Function.update_self, hdin]
    change (UInt32.ofNat (((contents files 1).length / BSIZE + 1) * BSIZE)).toNat = _
    rw [UInt32.toNat_ofNat', Nat.mod_eq_of_lt hroot]
  · intro j
    rw [hino₂]
    by_cases hj : j = ROOTINO
    · rw [hj, Function.update_self, ← h.type ROOTINO]
    · rw [Function.update_of_ne hj, h.type j]
  · change Function.update s₁.disk bmapstart (bitmap s₁.freeblock) bmapstart = _
    rw [Function.update_self]
  · rw [hdisk 1 (by decide) (by decide), h.superblock]
  · intro b hb hb'
    have : inodestart ≤ IBLOCK ROOTINO inodestart := IBLOCK_ge _
    have : inodestart < bmapstart := by decide
    rw [hdisk b (by omega) (by omega), h.log b hb hb']

theorem main_meets (hn : files.length + 2 ≤ inodeCap) :
    Meets (main files) empty (fun _ s => Finished s files) (fun _ => ¬ Fits files) := by
  apply Meets.seq (clear_meets FSSIZE)
  intro _ s₀ hs₀
  apply Meets.bind
  apply Meets.modify
  subst hs₀
  apply Meets.bind
  refine (makeRoot_meets hn (built_empty ?_ rfl rfl) rfl).post fun r s₁ hm => ?_
  · change max FSSIZE (1 + 1) = FSSIZE
    decide
  · obtain ⟨rfl, h₁, hfree₁⟩ := hm
    apply Meets.bind
    have hloop : Meets (files.forM (addFile ROOTINO)) s₁
        (fun _ s => Built s (contents files) (types files.length) ∧
          s.freeinode = files.length + 2) (fun _ => ¬ Fits files) :=
      Meets.forM (fun done s => Built s (contents done) (types done.length) ∧
        s.freeinode = done.length + 2) ⟨h₁, hfree₁⟩
        (fun done f rest s he hI => addFile_meets he hn hI.1 hI.2)
    exact hloop.post fun _ s₂ hm => finish_meets hm.1 hm.2

end Files

theorem isFree_bitmap {b : Nat} (hb : b < BPB) (used : Nat) : isFree (bitmap used) b ↔ used ≤ b := by
  induction used with
  | zero => exact ⟨fun _ => Nat.zero_le b, fun _ => isFree_zeroes b⟩
  | succ used ih =>
    rw [bitmap, List.range_succ, List.foldl_append, List.foldl_cons, List.foldl_nil,
      isFree_markUsed _ hb, ← bitmap, ih]
    omega

def diskInode (s : Image) (i : Nat) : Dinode := (s.disk (IBLOCK i inodestart)).dinode (i % IPB)

/-- What the kernel relies on, for the inodes `mkfs` has written. -/
structure WellFormed (s : Image) : Prop where
  addr : ∀ i, 0 < i → i < s.freeinode → ∀ bn, bn * BSIZE < (diskInode s i).size.toNat →
    nmeta ≤ addrOf s.disk (diskInode s i) bn ∧ addrOf s.disk (diskInode s i) bn < FSSIZE
  unique : ∀ i j, 0 < i → i < s.freeinode → 0 < j → j < s.freeinode → ∀ t u,
    slotAddr s.disk (diskInode s i) t = slotAddr s.disk (diskInode s j) u →
    slotAddr s.disk (diskInode s i) t ≠ 0 → i = j ∧ t = u
  freemap : ∀ b < BPB, isFree (s.disk bmapstart) b ↔ s.freeblock ≤ b
  freeblock_le : s.freeblock ≤ FSSIZE
  inode : ∀ i, 0 < i → i < s.freeinode →
    inodestart ≤ IBLOCK i inodestart ∧ IBLOCK i inodestart < bmapstart

theorem diskInode_eq (s : Image) {i : Nat} (h : i < inodeCap) : diskInode s i = inodes s i := by
  rw [inodes, if_pos h, diskInode]

theorem Finished.wellFormed {s : Image} {files : List Input} (h : Finished s files)
    (hn : files.length + 2 ≤ inodeCap) (hr : 16 * (files.length + 2) % BSIZE ≠ 0) :
    WellFormed s := by
  have hcap : ∀ i, i < s.freeinode → i < inodeCap := by
    intro i hi
    rw [h.freeinode] at hi
    omega
  -- the size of an inode does not go past its blocks, also after the root's is rounded up
  have hneed : ∀ i bn, bn * BSIZE < (inodes s i).size.toNat →
      needs (contents files) i (.block bn) := by
    intro i bn hbn
    change bn * BSIZE < (contents files i).length
    by_cases hi : i = ROOTINO
    · subst hi
      rw [h.size_root] at hbn
      change bn * BSIZE < (contents files 1).length
      rw [contents_length_root] at hbn ⊢
      change 16 * (files.length + 2) % 1024 ≠ 0 at hr
      change bn * 1024 < (16 * (files.length + 2) / 1024 + 1) * 1024 at hbn
      change bn * 1024 < 16 * (files.length + 2)
      omega
    · rwa [h.size_file i hi] at hbn
  constructor
  · intro i _ hi bn hbn
    rw [diskInode_eq s (hcap i hi)] at hbn ⊢
    have hrange := h.laid.slot_range (hneed i bn hbn)
    have := h.le
    exact ⟨hrange.1, lt_of_lt_of_le hrange.2 h.le⟩
  · intro i j _ hi _ hj t u he hne
    rw [diskInode_eq s (hcap i hi)] at he hne
    rw [diskInode_eq s (hcap j hj)] at he
    have := h.laid.assigned.inj (i, t) (j, u) he hne
    exact ⟨congrArg Prod.fst this, congrArg Prod.snd this⟩
  · intro b hb
    rw [h.freemap, isFree_bitmap hb]
  · exact h.le
  · intro i _ hi
    exact ⟨IBLOCK_ge i, IBLOCK_lt (hcap i hi)⟩

theorem Finished.not_wellFormed {s : Image} {files : List Input} (h : Finished s files)
    (hr : 16 * (files.length + 2) % BSIZE = 0) : ¬ WellFormed s := by
  intro hw
  set bn := 16 * (files.length + 2) / BSIZE with hbn
  have hlen : bn * BSIZE = 16 * (files.length + 2) :=
    Nat.div_mul_cancel (Nat.dvd_of_mod_eq_zero hr)
  have hsize : bn * BSIZE < (diskInode s ROOTINO).size.toNat := by
    rw [diskInode_eq s (by decide), h.size_root, contents_length_root, ← hbn]
    change bn * 1024 < (bn + 1) * 1024
    omega
  obtain ⟨haddr, -⟩ := hw.addr ROOTINO (by decide) (by rw [h.freeinode]; change 1 < _; omega) bn
    hsize
  rw [diskInode_eq s (by decide)] at haddr
  have hneed : ¬ needs (contents files) ROOTINO (.block bn) := by
    change ¬ bn * BSIZE < (contents files 1).length
    rw [contents_length_root]
    omega
  apply hneed
  apply ((h.laid.file ROOTINO).ne_zero_iff (.block bn)).mp
  have := nmeta_pos
  change addrOf s.disk (inodes s ROOTINO) bn ≠ 0
  omega

section Numbers

theorem wsect_freeinode (sec : Nat) (buf : Block) : Keeps Image.freeinode (wsect sec buf) :=
  Keeps.set fun _ => rfl

theorem rsect_freeinode (sec : Nat) : Keeps Image.freeinode (rsect sec) := by
  refine Keeps.get_bind fun s => ?_
  split
  · exact Keeps.pure _
  · exact Keeps.throw _

theorem winode_freeinode (i : Nat) (din : Dinode) : Keeps Image.freeinode (winode i din) :=
  (rsect_freeinode _).bind fun _ => wsect_freeinode _ _

theorem nextBlock_freeinode : Keeps Image.freeinode nextBlock :=
  Keeps.get_bind fun _ => Keeps.set_bind (fun _ => rfl) (Keeps.pure _)

theorem directBlock_freeinode (din : Dinode) (k : Fin (NDIRECT + 1)) :
    Keeps Image.freeinode (directBlock din k) := by
  unfold directBlock
  split
  · exact nextBlock_freeinode.bind fun _ => Keeps.pure _
  · exact Keeps.pure _

theorem fileBlock_freeinode (din : Dinode) (fbn : Nat) : Keeps Image.freeinode (fileBlock din fbn) := by
  unfold fileBlock
  split
  · exact directBlock_freeinode _ _
  · refine (directBlock_freeinode _ _).bind fun _ => (rsect_freeinode _).bind fun _ => ?_
    split
    · exact nextBlock_freeinode.bind fun _ => (wsect_freeinode _ _).bind fun _ => Keeps.pure _
    · exact Keeps.pure _

theorem appendLoop_freeinode (fuel : Nat) (din : Dinode) (off : Nat) (p : List UInt8) :
    Keeps Image.freeinode (appendLoop fuel din off p) := by
  induction fuel generalizing din off p with
  | zero => exact Keeps.pure _
  | succ fuel ih =>
    unfold appendLoop
    split
    · exact Keeps.pure _
    split
    · refine Keeps.bind ?_ fun _ => ih _ _ _
      exact (fileBlock_freeinode _ _).bind fun _ => (rsect_freeinode _).bind fun _ =>
        (wsect_freeinode _ _).bind fun _ => Keeps.pure _
    · exact Keeps.throw _

theorem iappend_freeinode (i : Nat) (p : List UInt8) : Keeps Image.freeinode (iappend i p) :=
  ((rsect_freeinode _).bind fun _ => Keeps.pure _).bind fun _ =>
    (appendLoop_freeinode _ _ _ _).bind fun _ => winode_freeinode _ _

theorem ialloc_freeinode (n : Nat) (type : Int16) :
    Tracks Image.freeinode (ialloc type) n (fun i m => i = n ∧ m = n + 1) := by
  refine Tracks.get_bind fun s hs => Tracks.set_bind (fun s hs => (?_ : _ = n + 1)) ?_
  · rw [← hs]
  · exact Tracks.keep_bind (winode_freeinode _ _) fun _ => Tracks.pure ⟨hs, rfl⟩

theorem addFiles_freeinode (root n : Nat) (files : List Input) :
    Tracks Image.freeinode (files.forM (addFile root)) n (fun _ m => m = n + files.length) := by
  induction files generalizing n with
  | nil => exact Tracks.pure rfl
  | cons f files ih =>
    have hone : Tracks Image.freeinode (addFile root f) n (fun _ m => m = n + 1) := by
      unfold addFile
      split
      · exact Tracks.throw _
      · apply (ialloc_freeinode n T_FILE).bind
        rintro i m ⟨-, rfl⟩
        exact Tracks.keep_bind (iappend_freeinode _ _) fun _ =>
          (Keeps.forM fun p _ => iappend_freeinode i p).tracks
    refine hone.bind ?_
    rintro _ m rfl
    refine (ih (n + 1)).post fun _ m hm => ?_
    rw [hm, List.length_cons]
    omega

/-- The inode numbers handed out do not depend on whether there is room for the inodes. -/
theorem main_freeinode (files : List Input) :
    Tracks Image.freeinode (main files) 1 (fun _ m => m = files.length + 2) := by
  refine Tracks.keep_bind (Keeps.forM fun i _ => wsect_freeinode _ _) fun _ =>
    Tracks.keep_bind (wsect_freeinode _ _) fun _ => ?_
  have hroot : Tracks Image.freeinode makeRoot 1 (fun _ m => m = 2) := by
    apply (ialloc_freeinode 1 T_DIR).bind
    rintro i m ⟨rfl, rfl⟩
    rw [if_neg (by decide)]
    exact Tracks.keep_bind (iappend_freeinode _ _) fun _ =>
      Tracks.keep_bind (iappend_freeinode _ _) fun _ => Tracks.pure rfl
  refine hroot.bind ?_
  rintro root m rfl
  refine (addFiles_freeinode root 2 files).bind ?_
  rintro _ m rfl
  have hfix : Keeps Image.freeinode (fixRoot root) :=
    ((rsect_freeinode _).bind fun _ => Keeps.pure _).bind fun _ => winode_freeinode _ _
  refine Tracks.keep_bind hfix fun _ => Tracks.get_bind fun s _ => ?_
  unfold balloc
  split
  · exact (wsect_freeinode _ _).tracks.post fun _ m hm => hm.trans (Nat.add_comm ..)
  · exact Tracks.throw _

end Numbers

/-- The image is well formed exactly if the inodes fit the inode blocks and the entries of the root
directory do not end at the end of a block. -/
theorem mkfs_wellFormed {files : List Input} {s : Image} (h : main files empty = .ok ((), s)) :
    WellFormed s ↔
      files.length + 2 ≤ inodeCap ∧ 16 * (files.length + 2) % BSIZE ≠ 0 := by
  constructor
  · intro hw
    have hfree : s.freeinode = files.length + 2 := (main_freeinode files empty rfl).of_ok h
    have hn : files.length + 2 ≤ inodeCap := by
      by_contra hn
      have hlast := (hw.inode inodeCap (by decide) (by omega)).2
      exact absurd hlast (by decide)
    have hf : Finished s files := (main_meets hn).of_ok h
    exact ⟨hn, fun hr => hf.not_wellFormed hr hw⟩
  · rintro ⟨hn, hr⟩
    have hf : Finished s files := (main_meets hn).of_ok h
    exact hf.wellFormed hn hr

def cat : Input where
  path := ascii "user/_cat"
  noNul := by decide
  chunks := [[1, 2], [3]]
  chunk_pos := by decide
  chunk_le := by decide

theorem fits_cat : Fits [cat] := ⟨by decide, by decide, by decide⟩

theorem mkfs_wellFormed_cat : ∃ s, main [cat] empty = .ok ((), s) ∧ WellFormed s := by
  obtain ⟨_, s, h, _⟩ := (@main_meets [cat] (by decide)).ok fun _ hf => hf fits_cat
  exact ⟨s, h, (mkfs_wellFormed h).mpr (by decide)⟩

def emptyFile (k : Fin 62) : Input where
  path := [97 + UInt8.ofNat (k / 8), 97 + UInt8.ofNat (k % 8)]
  noNul := by revert k; decide
  chunks := []
  chunk_pos := by simp
  chunk_le := by simp

/-- With `.` and `..`, the entries of 62 files fill the first block of the root
directory, and rounding up its size adds a block that does not exist. -/
theorem mkfs_root_hole : ∃ s, main (List.ofFn emptyFile) empty = .ok ((), s) ∧ ¬ WellFormed s := by
  have hfits : Fits (List.ofFn emptyFile) := by
    refine ⟨?_, ?_, ?_⟩
    · intro f hf
      obtain ⟨k, rfl⟩ := (List.mem_ofFn' _ _).mp hf
      clear hf
      revert k
      decide
    · intro f hf
      obtain ⟨k, rfl⟩ := (List.mem_ofFn' _ _).mp hf
      exact Nat.zero_le _
    · have hzero : ((List.ofFn emptyFile).map fun f => blocksFor f.bytes.length).sum = 0 := by
        apply List.sum_eq_zero
        intro n hn
        obtain ⟨f, hf, rfl⟩ := List.mem_map.mp hn
        obtain ⟨k, rfl⟩ := (List.mem_ofFn' _ _).mp hf
        exact blocksFor_zero
      rw [hzero, List.length_ofFn]
      decide
  obtain ⟨_, s, h, hfin⟩ := (@main_meets (List.ofFn emptyFile) (by simp; decide)).ok
    fun _ hf => hf hfits
  exact ⟨s, h, hfin.not_wellFormed (by rw [List.length_ofFn]; rfl)⟩

end Xv6.Mkfs

import Xv6.Mkfs.Append

namespace Xv6.Mkfs

open Fs Lib.Command

def inodeCap : Nat := ninodeblocks * IPB

theorem IBLOCK_lt {i : Nat} (h : i < inodeCap) : IBLOCK i inodestart < bmapstart := by
  change i < 208 at h
  change i / 16 + 32 < 45
  omega

theorem IBLOCK_lt_nmeta {i : Nat} (h : i < inodeCap) : IBLOCK i inodestart < nmeta := by
  have := IBLOCK_lt h
  have : bmapstart < nmeta := by decide
  omega

def inodes (s : Image) (i : Nat) : Dinode :=
  if i < inodeCap then (s.disk (IBLOCK i inodestart)).dinode (i % IPB) else Dinode.zero

namespace Image

def setInode (s : Image) (i : Nat) (din : Dinode) : Image :=
  let b := IBLOCK i inodestart
  { s with disk := Function.update s.disk b ((s.disk b).setDinode (i % IPB) din) }

end Image

variable {s s' : Image} {c : Nat → List UInt8} {i : Nat}

theorem inodes_congr (h : ∀ b < nmeta, s'.disk b = s.disk b) : inodes s' = inodes s := by
  funext j
  unfold inodes
  split
  next hj => rw [h _ (IBLOCK_lt_nmeta hj)]
  next => rfl

theorem inodes_setInode (s : Image) (hi : i < inodeCap) (din : Dinode) :
    inodes (s.setInode i din) = Function.update (inodes s) i din := by
  funext j
  by_cases hj : j < inodeCap
  · simp only [inodes, hj, if_true, Image.setInode]
    by_cases hb : IBLOCK j inodestart = IBLOCK i inodestart
    · rw [hb, Function.update_self]
      by_cases hji : j = i
      · subst hji
        rw [Function.update_self, Block.dinode_setDinode_self _ _ (Nat.mod_lt _ (by decide))]
      · have hm : j % IPB ≠ i % IPB := by
          change j / 16 + 32 = i / 16 + 32 at hb
          change j % 16 ≠ i % 16
          omega
        rw [Function.update_of_ne hji, Block.dinode_setDinode_ne _ _ hm]
        simp only [inodes, hj, if_true, hb]
    · have hji : j ≠ i := fun e => hb (by rw [e])
      rw [Function.update_of_ne hb, Function.update_of_ne hji]
      simp only [inodes, hj, if_true]
  · have hji : j ≠ i := by omega
    rw [Function.update_of_ne hji]
    simp only [inodes, hj, if_false]

theorem rinode_meets {Q : Dinode → Image → Prop} {E : Exit → Prop} (hl : s.length = FSSIZE)
    (hi : i < inodeCap) (h : Q (inodes s i) s) : Meets (rinode i) s Q E := by
  have hlt := IBLOCK_lt_nmeta hi
  have hn : nmeta ≤ FSSIZE := by decide
  apply Meets.bind
  apply rsect_meets
  · intro _
    apply Meets.pure
    simpa only [inodes, hi, if_true] using h
  · intro hge
    omega

theorem winode_meets {din : Dinode} {Q : Unit → Image → Prop} {E : Exit → Prop}
    (hl : s.length = FSSIZE) (hi : i < inodeCap) (h : Q () (s.setInode i din)) :
    Meets (winode i din) s Q E := by
  have hlt := IBLOCK_lt_nmeta hi
  have hn : nmeta ≤ FSSIZE := by decide
  apply Meets.bind
  apply rsect_meets
  · intro _
    apply Meets.modify
    have hmax : max s.length (IBLOCK i inodestart + 1) = s.length := by omega
    rw [hmax]
    exact h
  · intro hge
    omega

def total (c : Nat → List UInt8) : Nat := ∑ j ∈ Finset.range inodeCap, blocksFor (c j).length

theorem total_update (c : Nat → List UInt8) (hi : i < inodeCap) (x : List UInt8) :
    total (Function.update c i x) + blocksFor (c i).length = total c + blocksFor x.length := by
  have hmem : i ∈ Finset.range inodeCap := Finset.mem_range.mpr hi
  have hrest : ∑ j ∈ (Finset.range inodeCap).erase i, blocksFor (Function.update c i x j).length =
      ∑ j ∈ (Finset.range inodeCap).erase i, blocksFor (c j).length := by
    apply Finset.sum_congr rfl
    intro j hj
    rw [Function.update_of_ne (Finset.ne_of_mem_erase hj)]
  rw [total, total, ← Finset.add_sum_erase _ _ hmem,
    ← Finset.add_sum_erase _ (fun j => blocksFor (c j).length) hmem, hrest, Function.update_self]
  omega

theorem total_mono {c c' : Nat → List UInt8} (h : ∀ i, (c i).length ≤ (c' i).length) :
    total c ≤ total c' :=
  Finset.sum_le_sum fun i _ => blocksFor_mono (h i)

structure Built (s : Image) (c : Nat → List UInt8) (ty : Nat → Int16) : Prop where
  laid : Laid s (inodes s) (needs c) c
  le : s.freeblock ≤ FSSIZE
  size : ∀ i, (inodes s i).size.toNat = (c i).length
  le_max : ∀ i, (c i).length ≤ MAXFILE * BSIZE
  count : s.freeblock = nmeta + total c
  type : ∀ i, (inodes s i).type = ty i
  unused : ∀ i, s.freeinode ≤ i → inodes s i = Dinode.zero ∧ c i = []
  superblock : s.disk 1 = Block.zeroes.splice 0 sb.toBytes
  log : ∀ b, 2 ≤ b → b < inodestart → s.disk b = Block.zeroes

variable {ty : Nat → Int16}

theorem IBLOCK_ge (i : Nat) : inodestart ≤ IBLOCK i inodestart := Nat.le_add_left _ _

theorem Image.setInode_disk_of_lt (s : Image) (i : Nat) (din : Dinode) {b : Nat}
    (h : b < inodestart) : (s.setInode i din).disk b = s.disk b := by
  have := IBLOCK_ge i
  exact Function.update_of_ne (by omega) _ _

theorem iappend_meets (h : Built s c ty) (hi : i < inodeCap) (hu : i < s.freeinode)
    (p : List UInt8) :
    Meets (iappend i p) s
      (fun _ s' => Built s' (Function.update c i (c i ++ p)) ty ∧ s'.freeinode = s.freeinode)
      (fun _ => MAXFILE * BSIZE < (c i).length + p.length ∨
        FSSIZE < nmeta + total (Function.update c i (c i ++ p))) := by
  have htotal := total_update c hi (c i ++ p)
  rw [List.length_append] at htotal
  -- the blocks of the other files stay as they are
  obtain ⟨K, hK⟩ : ∃ K, total c = K + blocksFor (c i).length := by
    have hmem : i ∈ Finset.range inodeCap := Finset.mem_range.mpr hi
    have : blocksFor (c i).length ≤ total c :=
      Finset.single_le_sum (f := fun j => blocksFor (c j).length) (fun _ _ => Nat.zero_le _) hmem
    exact ⟨total c - blocksFor (c i).length, by omega⟩
  have hfree : s.freeblock = nmeta + K + blocksFor (c i).length := by
    have := h.count
    omega
  apply Meets.bind
  apply rinode_meets h.laid.length_eq hi
  rw [h.size i]
  apply Meets.bind
  refine (appendLoop_meets p.length le_rfl h.laid hfree h.le (h.le_max i)).mono (fun r s₁ hm => ?_)
    (fun _ he => ?_)
  · obtain ⟨hoff, happ⟩ := hm
    have hino : inodes s₁ = inodes s := inodes_congr happ.same.disk
    have hsz : (UInt32.ofNat r.2).toNat = (c i).length + p.length := by
      have hmax := happ.le_max
      change _ ≤ 268 * 1024 at hmax
      rw [UInt32.toNat_ofNat', hoff, Nat.mod_eq_of_lt (by omega)]
    apply winode_meets happ.laid.length_eq hi
    have hino' : inodes (s₁.setInode i { r.1 with size := UInt32.ofNat r.2 }) =
        Function.update (inodes s) i { r.1 with size := UInt32.ofNat r.2 } := by
      rw [inodes_setInode s₁ hi, hino]
    have hlt := IBLOCK_lt_nmeta hi
    refine ⟨⟨?_, happ.le, ?_, ?_, ?_, ?_, ?_, ?_, ?_⟩, happ.same.freeinode⟩
    · refine happ.laid.congr (fun b hb => Function.update_of_ne (by omega) _ _) rfl rfl ?_
      intro j
      rw [hino']
      by_cases hj : j = i
      · subst hj
        rw [Function.update_self, Function.update_self]
      · rw [Function.update_of_ne hj, Function.update_of_ne hj]
    · intro j
      rw [hino']
      by_cases hj : j = i
      · subst hj
        rw [Function.update_self, Function.update_self, List.length_append]
        exact hsz
      · rw [Function.update_of_ne hj, Function.update_of_ne hj, h.size j]
    · intro j
      by_cases hj : j = i
      · subst hj
        rw [Function.update_self, List.length_append]
        exact happ.le_max
      · rw [Function.update_of_ne hj]
        exact h.le_max j
    · change s₁.freeblock = _
      have := happ.count
      omega
    · intro j
      rw [hino']
      by_cases hj : j = i
      · subst hj
        rw [Function.update_self]
        exact happ.type_eq.trans (h.type j)
      · rw [Function.update_of_ne hj, h.type j]
    · intro j hj
      have hj' : s.freeinode ≤ j := by
        rw [← happ.same.freeinode]
        exact hj
      have hne : j ≠ i := by omega
      rw [hino', Function.update_of_ne hne, Function.update_of_ne hne]
      exact h.unused j hj'
    · rw [Image.setInode_disk_of_lt _ _ _ (by decide), happ.same.disk 1 (by decide), h.superblock]
    · intro b hb hb'
      have : inodestart < nmeta := by decide
      rw [Image.setInode_disk_of_lt _ _ _ hb', happ.same.disk b (by omega), h.log b hb hb']
  · rcases he with he | he
    · exact Or.inl he
    · right
      omega

theorem ialloc_meets (h : Built s c ty) (hcap : s.freeinode < inodeCap) (type : Int16) :
    Meets (ialloc type) s
      (fun inum s' => inum = s.freeinode ∧ s'.freeinode = s.freeinode + 1 ∧
        Built s' c (Function.update ty inum type)) (fun _ => False) := by
  apply Meets.bind
  apply Meets.get
  apply Meets.bind
  apply Meets.modify
  apply Meets.bind
  set din : Dinode := { Dinode.zero with type := type, nlink := 1 }
  set s₁ : Image := { s with freeinode := s.freeinode + 1 }
  apply winode_meets (s := s₁) h.laid.length_eq hcap
  apply Meets.pure
  refine ⟨rfl, rfl, ?_⟩
  have hino : inodes (s₁.setInode s.freeinode din) = Function.update (inodes s) s.freeinode din :=
    inodes_setInode s₁ hcap din
  have hlt := IBLOCK_lt_nmeta hcap
  obtain ⟨hzero, hnil⟩ := h.unused s.freeinode le_rfl
  refine ⟨?_, h.le, ?_, h.le_max, h.count, ?_, ?_, ?_, ?_⟩
  · refine h.laid.congr (fun b hb => Function.update_of_ne (by omega) _ _) rfl rfl ?_
    intro j
    rw [hino]
    by_cases hj : j = s.freeinode
    · rw [hj, Function.update_self, hzero]
    · rw [Function.update_of_ne hj]
  · intro j
    rw [hino]
    by_cases hj : j = s.freeinode
    · rw [hj, Function.update_self, hnil]
      rfl
    · rw [Function.update_of_ne hj, h.size j]
  · intro j
    rw [hino]
    by_cases hj : j = s.freeinode
    · rw [hj, Function.update_self, Function.update_self]
    · rw [Function.update_of_ne hj, Function.update_of_ne hj, h.type j]
  · intro j hj
    change s.freeinode + 1 ≤ j at hj
    rw [hino, Function.update_of_ne (by omega)]
    exact h.unused j (by omega)
  · rw [Image.setInode_disk_of_lt _ _ _ (by decide)]
    exact h.superblock
  · intro b hb hb'
    rw [Image.setInode_disk_of_lt _ _ _ hb']
    exact h.log b hb hb'

end Xv6.Mkfs

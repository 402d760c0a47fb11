import Xv6.Log.Crash
import Xv6.Mkfs.WellFormed

namespace Xv6.Mkfs

open Fs Lib.Command

def lookupAndRead (dst : Nat → Nat → Bool) (name : List UInt8) (off n : UInt32) :
    FsM (Option (List UInt8)) := do
  let dp ← iget ROOTDEV ROOTINO
  ilock dp
  let r ← dirlookup dp name
  match r with
  | none => pure none
  | some (ip, _) =>
    ilock ip
    let bs ← readi dst ip off n
    pure (some bs)

variable {s : Image} {files : List Input} {st : Fs.State}

structure Mounted (st : Fs.State) (s : Image) : Prop where
  sb : st.sb = Mkfs.sb
  icache : ∀ ip, st.icache ip = noInode
  data : ∀ b, inodestart ≤ b → st.data b = s.disk b

theorem fsinit_mounted (h : Finished s files) : ∃ st, fsinit s.disk = .ok st ∧ Mounted st s := by
  have hslice : (s.disk 1).slice 0 32 = sb.toBytes := by
    rw [h.superblock, ← sb.length_toBytes]
    exact Block.slice_splice_self _ (by rw [sb.length_toBytes]; decide)
  have hsb : Superblock.ofBytes ((s.disk 1).slice 0 32) = sb := by
    rw [hslice, Superblock.ofBytes_toBytes]
  unfold fsinit
  simp only [hsb]
  rw [if_neg (by decide)]
  refine ⟨_, rfl, rfl, fun _ => rfl, fun b hb => ?_⟩
  -- the log of the image is empty, so recovery changes nothing outside it
  have hclean : Log.Clean ⟨sb.logstart.toNat, max sb.nlog.toNat 1, by omega⟩ s.disk s.disk := by
    refine ⟨?_, fun _ _ => rfl⟩
    have hz : s.disk 2 = Block.zeroes := h.log 2 le_rfl (by decide)
    change Log.readHead (s.disk 2) = []
    rw [hz, Log.readHead, field_zeroes]
    rfl
  have hrec := Log.Durable.exec_recover (Or.inl hclean)
  apply hrec.home
  rintro ⟨_, hlt⟩
  change b < 2 + 30 at hlt
  change 32 ≤ b at hb
  omega

theorem Mounted.dinode (hm : Mounted st s) {i : Nat} (hi : i < inodeCap) :
    (st.data (IBLOCK i st.sb.inodestart.toNat)).dinode (i % IPB) = inodes s i := by
  have hstart : st.sb.inodestart.toNat = inodestart := by
    rw [hm.sb]
    rfl
  rw [hstart, hm.data _ (IBLOCK_ge i), ← diskInode_eq s hi, diskInode]

theorem Mounted.stores (hm : Mounted st s) (h : Finished s files) (i : Nat) :
    Stores st.data (inodes s i) (contents files i) := by
  have hstart : inodestart ≤ nmeta := by decide
  have hown : ∀ t, needs (contents files) i t →
      st.data (slotAddr s.disk (inodes s i) t) = s.disk (slotAddr s.disk (inodes s i) t) :=
    fun t ht => hm.data _ (le_trans hstart (h.laid.slot_range ht).1)
  apply ((h.laid.file i).frame hown).2.stores
  · by_cases hi : i = ROOTINO
    · subst hi
      rw [h.size_root]
      change (contents files 1).length ≤ ((contents files 1).length / 1024 + 1) * 1024
      omega
    · exact (h.size_file i hi).ge
  · exact h.le_max i

theorem Mounted.openRoot (hm : Mounted st s) (h : Finished s files) :
    ∃ dp st₁ st₂, iget ROOTDEV ROOTINO st = .ok (dp, st₁) ∧ ilock dp st₁ = .ok ((), st₂) ∧
      st₂.data = st.data ∧ st₂.sb = st.sb ∧
      st₂.icache dp = ⟨inodes s ROOTINO, ROOTDEV, ROOTINO, 1, true⟩ ∧
      ∀ ip, ip ≠ dp → st₂.icache ip = noInode := by
  have hno : ∀ ip, ¬ (0 < (st.icache ip).ref ∧ (st.icache ip).dev = ROOTDEV ∧
      (st.icache ip).inum = ROOTINO) := by
    intro ip hip
    rw [hm.icache ip] at hip
    exact absurd hip.1 (by decide)
  have hroot : ROOTINO < inodeCap := by decide
  have htype : (inodes s ROOTINO).type ≠ 0 := by
    have hdir : types files.length ROOTINO = T_DIR := rfl
    rw [h.type ROOTINO, hdir]
    decide
  have hfree : (st.icache ⟨0, by decide⟩).ref = 0 := by
    rw [hm.icache]
    rfl
  obtain ⟨dp, st₁, st₂, hget, hlock, hdata, hsb, hdp, hother⟩ :=
    iget_ilock_new hno hfree (hm.dinode hroot) htype
  exact ⟨dp, st₁, st₂, hget, hlock, hdata, hsb, hdp,
    fun ip hip => (hother ip hip).trans (hm.icache ip)⟩

theorem Mounted.lookup (hm : Mounted st s) (h : Finished s files) {name : List UInt8} {k : Nat}
    (hk : k < (entries files).length) (hmatch : (entries files)[k].Matches name)
    (hfirst : ∀ j (hj : j < k), ¬ (entries files)[j].Matches name) :
    ∃ dp st₂, st₂.data = st.data ∧ st₂.sb = st.sb ∧
      st₂.icache dp = ⟨inodes s ROOTINO, ROOTDEV, ROOTINO, 1, true⟩ ∧
      (∀ ip, ip ≠ dp → st₂.icache ip = noInode) ∧
      ∀ dst off n, lookupAndRead dst name off n st = (do
        let ip ← iget ROOTDEV (entries files)[k].inum.toNat
        ilock ip
        let bs ← readi dst ip off n
        pure (some bs)) st₂ := by
  obtain ⟨dp, st₁, st₂, hget, hlock, hdata, hsb, hdp, hother⟩ := hm.openRoot h
  refine ⟨dp, st₂, hdata, hsb, hdp, hother, fun dst off n => ?_⟩
  have hstores : Stores st₂.data (st₂.icache dp).toDinode (dirBytes (entries files)) := by
    rw [hdata, hdp]
    exact hm.stores h ROOTINO
  have htype : (st₂.icache dp).type = T_DIR := by
    rw [hdp]
    exact h.type ROOTINO
  have hdev : (st₂.icache dp).dev = ROOTDEV := by rw [hdp]
  have hdir := dirlookup_eq hstores htype hk hmatch hfirst
  rw [hdev] at hdir
  rw [lookupAndRead, bind_of_ok hget, bind_of_ok hlock, bind_congr_run hdir, bind_assoc]
  simp only [pure_bind]

theorem Input.noNul_name (f : Input) : 0 ∉ f.name := by
  have hshort : 0 ∉ f.shortname := by
    unfold shortname
    split
    · exact fun h => f.noNul (List.mem_of_mem_drop h)
    · exact f.noNul
  unfold name
  split
  · exact fun h => hshort (List.mem_of_mem_tail h)
  · exact hshort

theorem entry_matches_iff {inum : Nat} (hi : 0 < inum) (hi' : inum < 2 ^ 16) {name t : List UInt8}
    (hname : 0 ∉ name) (ht : 0 ∉ t) :
    (entry inum t).Matches name ↔ name.take DIRSIZ = t.take DIRSIZ := by
  have hne : (entry inum t).inum ≠ 0 := by
    intro h0
    have := congrArg UInt16.toNat h0
    rw [entry, UInt16.toNat_ofNat', Nat.mod_eq_of_lt hi'] at this
    exact absurd this (by simp; omega)
  rw [Dirent.Matches, namecmp, entry, strncmp_strncpy hname ht]
  exact ⟨And.right, fun h => ⟨hne, h⟩⟩

theorem entries_getElem_file {k : Nat} (hk : k < files.length) :
    (entries files)[k + 2]? = some (entry (k + 2) files[k].name) := by
  simp [entries, hk]

theorem name_first {k : Nat} (hk : k < files.length) (hn : files.length + 2 ≤ inodeCap)
    (hdist : (files.map fun f => f.name.take DIRSIZ).Nodup)
    (hdot : files[k].name ≠ ascii "." ∧ files[k].name ≠ ascii "..") :
    ∃ h : k + 2 < (entries files).length, (entries files)[k + 2].Matches files[k].name ∧
      (entries files)[k + 2].inum.toNat = k + 2 ∧
      ∀ j (hj : j < k + 2), ¬ (entries files)[j].Matches files[k].name := by
  change _ ≤ 208 at hn
  have hlen := length_entries files
  have hnul := files[k].noNul_name
  have hshort : ∀ t : List UInt8, t.length < DIRSIZ → files[k].name.take DIRSIZ = t.take DIRSIZ →
      files[k].name = t := by
    intro t ht he
    have hl := congrArg List.length he
    rw [List.length_take, List.length_take] at hl
    have hname : files[k].name.take DIRSIZ = files[k].name := List.take_of_length_le (by omega)
    rw [← hname, he, List.take_of_length_le (by omega)]
  have hk2 : k + 2 < (entries files).length := by omega
  have hget : (entries files)[k + 2] = entry (k + 2) files[k].name := by
    have := entries_getElem_file hk
    rw [List.getElem?_eq_getElem hk2] at this
    exact Option.some.inj this
  refine ⟨hk2, ?_, ?_, ?_⟩
  · rw [hget, entry_matches_iff (by omega) (by omega) hnul hnul]
  · rw [hget, entry, UInt16.toNat_ofNat', Nat.mod_eq_of_lt (by omega)]
  · intro j hj
    match j with
    | 0 =>
      change ¬ (entry ROOTINO (ascii ".")).Matches _
      rw [entry_matches_iff (by decide) (by decide) hnul (by decide)]
      exact fun he => hdot.1 (hshort _ (by decide) he)
    | 1 =>
      change ¬ (entry ROOTINO (ascii "..")).Matches _
      rw [entry_matches_iff (by decide) (by decide) hnul (by decide)]
      exact fun he => hdot.2 (hshort _ (by decide) he)
    | j + 2 =>
      have hj' : j < files.length := by omega
      have hgetj : (entries files)[j + 2] = entry (j + 2) files[j].name := by
        have := entries_getElem_file hj'
        rw [List.getElem?_eq_getElem (by omega)] at this
        exact Option.some.inj this
      rw [hgetj, entry_matches_iff (by omega) (by omega) hnul files[j].noNul_name]
      intro he
      have hj'' : j < (files.map fun f => f.name.take DIRSIZ).length := by simpa using hj'
      have hk'' : k < (files.map fun f => f.name.take DIRSIZ).length := by simpa using hk
      have hjk : (files.map fun f => f.name.take DIRSIZ)[j] =
          (files.map fun f => f.name.take DIRSIZ)[k] := by simpa using he.symm
      have := hdist.getElem_inj_iff.mp hjk
      omega

/-- On the image `mkfs` writes, looking up the name of a file in the root
directory and reading the inode found gives the bytes of the file, and none
where the end of the range overflows. -/
theorem mkfs_kernel_agree (hfits : Fits files) (hn : files.length < NINODES - 1)
    (hdist : (files.map fun f => f.name.take DIRSIZ).Nodup)
    (hdot : ∀ f ∈ files, f.name ≠ ascii "." ∧ f.name ≠ ascii "..") :
    ∃ img, main files empty = .ok ((), img) ∧ ∃ st, fsinit img.disk = .ok st ∧
      ∀ f ∈ files, ∀ dst, (∀ tot m, dst tot m) → ∀ off n : UInt32,
        ∃ st', lookupAndRead dst f.name off n st =
          .ok (some (if off.toNat + n.toNat < 2 ^ 32 then (f.bytes.drop off.toNat).take n.toNat
            else []), st') := by
  have hcap : files.length + 2 ≤ inodeCap := by
    change _ < 199 at hn
    change _ ≤ 208
    omega
  obtain ⟨_, img, hok, hfin⟩ := (main_meets hcap).ok fun _ hf => hf hfits
  obtain ⟨st, hmount, hm⟩ := fsinit_mounted hfin
  refine ⟨img, hok, st, hmount, fun f hf dst hdst off n => ?_⟩
  obtain ⟨k, hk, rfl⟩ := List.getElem_of_mem hf
  obtain ⟨hk2, hmatch, hinum, hfirst⟩ := name_first hk hcap hdist (hdot _ hf)
  obtain ⟨dp, st₂, hdata, hsb, hdp, hother, heq⟩ := hm.lookup hfin hk2 hmatch hfirst
  rw [heq, hinum]
  -- the inode of the file is not in the cache yet
  have hno : ∀ ip, ¬ (0 < (st₂.icache ip).ref ∧ (st₂.icache ip).dev = ROOTDEV ∧
      (st₂.icache ip).inum = k + 2) := by
    rintro ip ⟨href, -, hip⟩
    by_cases hd : ip = dp
    · rw [hd, hdp] at hip
      change 1 = k + 2 at hip
      omega
    · rw [hother ip hd] at href
      exact absurd href (by decide)
  have : Nontrivial (Fin NINODE) := inferInstanceAs (Nontrivial (Fin 50))
  obtain ⟨e, he⟩ := exists_ne dp
  have hfree : (st₂.icache e).ref = 0 := by
    rw [hother e he]
    rfl
  have hlt : k + 2 < inodeCap := by omega
  have hdin : (st₂.data (IBLOCK (k + 2) st₂.sb.inodestart.toNat)).dinode ((k + 2) % IPB) =
      inodes img (k + 2) := by
    rw [hdata, hsb]
    exact hm.dinode hlt
  have htype : (inodes img (k + 2)).type ≠ 0 := by
    have hfile : types files.length (k + 2) = T_FILE := by simp [types, hk]
    rw [hfin.type, hfile]
    decide
  obtain ⟨ip, st₃, st₄, hget, hlock, hdata₄, -, hip, -⟩ := iget_ilock_new hno hfree hdin htype
  have hcontent : contents files (k + 2) = files[k].bytes := by simp [contents, hk]
  have hstores : Stores st₄.data (st₄.icache ip).toDinode files[k].bytes := by
    rw [hip, hdata₄, hdata, ← hcontent]
    exact hm.stores hfin (k + 2)
  have hsize : (st₄.icache ip).size.toNat = files[k].bytes.length := by
    rw [hip, ← hcontent]
    exact hfin.size_file (k + 2) (by change k + 2 ≠ 1; omega)
  rw [bind_of_ok hget, bind_of_ok hlock]
  split
  next hw =>
    rw [bind_of_ok (readi_eq hstores hdst hw (by omega))]
    exact ⟨st₄, rfl⟩
  next hw =>
    have hwrap : off + n < off := by
      have := off.toNat_lt
      have := n.toNat_lt
      rw [UInt32.lt_iff_toNat_lt, UInt32.toNat_add]
      omega
    have hread : readi dst ip off n st₄ = .ok ([], st₄) := by
      rw [readi, get_bind, if_pos (.inr hwrap)]
      rfl
    rw [bind_of_ok hread]
    exact ⟨st₄, rfl⟩

theorem mkfs_kernel_agree_cat :
    ∃ img, main [cat] empty = .ok ((), img) ∧ ∃ st, fsinit img.disk = .ok st ∧
      ∃ st', lookupAndRead kernelDst (ascii "cat") 1 5 st = .ok (some [2, 3], st') := by
  obtain ⟨img, hok, st, hmount, h⟩ := mkfs_kernel_agree fits_cat (by decide) (by decide) (by decide)
  exact ⟨img, hok, st, hmount, h cat (by simp) kernelDst kernelDst_accepts 1 5⟩

/-- A file that would be called `.` in the image. -/
def dot : Input where
  path := ascii "_."
  noNul := by decide
  chunks := [[7]]
  chunk_pos := by decide
  chunk_le := by decide

/-- The name of such a file finds the root directory, whose first byte is that of
the inode number in its own entry. -/
theorem mkfs_dot_shadowed : Fits [dot] ∧ dot.bytes = [7] ∧
    ∃ img, main [dot] empty = .ok ((), img) ∧ ∃ st, fsinit img.disk = .ok st ∧
      ∃ st', lookupAndRead kernelDst dot.name 0 1 st = .ok (some [1], st') := by
  have hfits : Fits [dot] := ⟨by decide, by decide, by decide⟩
  refine ⟨hfits, rfl, ?_⟩
  obtain ⟨_, img, hok, hfin⟩ := (@main_meets [dot] (by decide)).ok fun _ hf => hf hfits
  obtain ⟨st, hmount, hm⟩ := fsinit_mounted hfin
  refine ⟨img, hok, st, hmount, ?_⟩
  have hmatch : (entries [dot])[0].Matches dot.name := by decide
  obtain ⟨dp, st₂, hdata, -, hdp, hother, heq⟩ := hm.lookup hfin (by decide) hmatch (by simp)
  have hinum : (entries [dot])[0].inum.toNat = ROOTINO := by decide
  rw [heq, hinum]
  have hget : iget ROOTDEV ROOTINO st₂ =
      .ok (dp, st₂.setInode dp { st₂.icache dp with ref := (st₂.icache dp).ref + 1 }) := by
    apply iget_cached
    · rw [hdp]
      exact ⟨Nat.one_pos, rfl, rfl⟩
    · rintro jp ⟨href, -⟩
      by_contra hne
      rw [hother jp hne] at href
      exact absurd href (by decide)
  set st₃ := st₂.setInode dp { st₂.icache dp with ref := (st₂.icache dp).ref + 1 } with hst₃
  have hdp₃ : st₃.icache dp = ⟨inodes img ROOTINO, ROOTDEV, ROOTINO, 2, true⟩ := by
    rw [hst₃, hdp]
    exact Function.update_self _ _ _
  have hlock : ilock dp st₃ = .ok ((), st₃) := by
    apply ilock_valid <;> rw [hdp₃]
    exact Nat.two_pos
  have hstores : Stores st₃.data (st₃.icache dp).toDinode (contents [dot] ROOTINO) := by
    rw [hdp₃]
    have := hm.stores hfin ROOTINO
    rwa [← hdata] at this
  have hread : readi kernelDst dp 0 1 st₃ = .ok ([1], st₃) := by
    rw [readi_eq hstores kernelDst_accepts (by decide) (le_trans (min_le_left _ _) (by decide))]
    rfl
  rw [bind_of_ok hget, bind_of_ok hlock, bind_of_ok hread]
  exact ⟨st₃, rfl⟩

end Xv6.Mkfs

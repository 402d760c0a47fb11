import Xv6.Sysfile.Balance

namespace Xv6.Sysfile

open Fs Lib.Command Lib.Transition

/-- Some descriptor is open for the end of the pipe at page `a`, the one to write to if `w`. -/
def Tables.Refers (t : Tables) (a : Nat) (w : Bool) : Prop :=
  ∃ p fd f, (t.proc p).ofile fd = some f ∧ (t.ftable f).type = .pipe ∧ (t.ftable f).pipe = a ∧
    (t.ftable f).writable = w

instance (t : Tables) (a : Nat) (w : Bool) : Decidable (t.Refers a w) :=
  inferInstanceAs (Decidable (∃ _ _ _, _))

section Runs

variable {pages : List Nat} {k : Kernel}

theorem Pipes.take {t : Tables} (h : Pipes pages t) {a : Nat} {rest : List Nat}
    (hf : t.freelist = a :: rest) : Pipes pages { t with freelist := rest, others := a :: t.others } := by
  refine ⟨h.nodup, h.flag, h.unique, fun a' => ?_⟩
  have hc := h.count a'
  rw [hf, List.count_cons] at hc
  change rest.count a' + (a :: t.others).count a' + (if t.InUse a' then 1 else 0) = _
  rw [List.count_cons]
  omega

theorem Pipes.give {t : Tables} (h : Pipes pages t) {a : Nat} (ha : a ∈ t.others) :
    Pipes pages { t with freelist := a :: t.freelist, others := t.others.erase a } := by
  refine ⟨h.nodup, h.flag, h.unique, fun a' => ?_⟩
  have hc := h.count a'
  have hpos : 0 < t.others.count a := List.count_pos_iff.mpr ha
  change (a :: t.freelist).count a' + (t.others.erase a).count a' + (if t.InUse a' then 1 else 0) = _
  rw [List.count_cons]
  by_cases haa : a = a'
  · subst haa
    rw [List.count_erase_self, if_pos (by simp)]
    omega
  · rw [List.count_erase_of_ne (Ne.symm haa), if_neg (by simpa using haa)]
    omega

theorem Quiet.of_pages {k' : Kernel} (hq : Quiet pages k.ledger) (hvol : k'.vol = k.vol)
    (hproc : k'.proc = k.proc) (hfile : k'.ftable = k.ftable) (hp : Pipes pages k'.toTables) :
    Quiet pages k'.ledger := by
  have hslots : ∀ f, k'.slots f = k.slots f := by
    intro f
    rw [Tables.slots, Tables.slots, hproc]
  refine ⟨⟨⟨fun f => ?_, fun f => ?_, hp⟩, ?_⟩, ?_⟩
  · change ((k'.ftable f).ref : ℤ) = k'.slots f + _
    rw [hfile, hslots]
    exact hq.balanced.sound.files f
  · change (k'.ftable f).ref = 0 → (k'.ftable f).type = .none
    rw [hfile]
    exact hq.balanced.sound.closed f
  · change k'.vol.book = Book.idle.addRefs k'.users
    rw [hvol, Tables.users, hproc, hfile]
    exact hq.balanced.book
  · intro p
    change ProcOk (k'.proc p)
    rw [hproc]
    exact hq.procs p

theorem Quiet.step {k' : Kernel} {a : Act} (hq : Quiet pages k.ledger) (hn : next k a = .done k') :
    Quiet pages k'.ledger := by
  cases a with
  | call p c =>
    simp only [next] at hn
    split at hn
    next hs =>
      have hcall := syscall_ledgers (t := k.toTables) (b := k.vol.book) hq hs c k rfl
      split at hn
      next r k₁ hrun =>
        cases hn
        exact hcall.of_ok hrun
      · cases hn
      · cases hn
    · cases hn
  | take =>
    simp only [next] at hn
    split at hn
    · cases hn
    next a rest hf =>
      cases hn
      exact hq.of_pages rfl rfl rfl (hq.balanced.sound.pipes.take hf)
  | give a =>
    simp only [next] at hn
    split at hn
    next ha =>
      cases hn
      exact hq.of_pages rfl rfl rfl (hq.balanced.sound.pipes.give ha)
    · cases hn

theorem Quiet.init (hb : Booted pages k) : Quiet pages k.ledger := by
  obtain ⟨ip, hproc, -, -, href⟩ := hb.root
  have hnone : ∀ p fd, (k.proc p).ofile fd = none := by
    intro p fd
    by_cases hp : p.val = 0
    · obtain rfl : p = ⟨0, by decide⟩ := Fin.ext hp
      rw [hproc]
    · rw [hb.proc p hp]
  have hno : ∀ f a w, ¬ (k.ftable f).IsEnd a w := fun f => not_isEnd_of_ref (hb.file f).1
  have hslots : ∀ f, k.slots f = 0 := by
    intro f
    refine Finset.sum_eq_zero fun p _ => Finset.sum_eq_zero fun fd _ => ?_
    rw [hnone p fd]
    rfl
  have husers : k.users = Pi.single ip 1 := by
    have hf : ∀ f, (k.ftable f).use = 0 := fun f => if_neg fun h => h.1.ne' (hb.file f).1
    have hp : ∀ p, (k.proc p).use = if p = ⟨0, by decide⟩ then Pi.single ip 1 else 0 := by
      intro p
      split
      next hp =>
        rw [hp, hproc]
        rfl
      next hp =>
        rw [hb.proc p fun h => hp (Fin.ext h)]
        rfl
    rw [Tables.users, Finset.sum_eq_zero fun f _ => hf f, zero_add,
      Finset.sum_congr rfl fun p _ => hp p, Finset.sum_ite_eq', if_pos (Finset.mem_univ _)]
  refine ⟨⟨⟨fun f => ?_, fun f _ => (hb.file f).2, ?_⟩, ?_⟩, fun p => ?_⟩
  · change ((k.ftable f).ref : ℤ) = k.slots f + 0
    rw [(hb.file f).1, hslots]
    rfl
  · refine ⟨hb.nodup, fun f a w hf => absurd hf (hno f a w), fun f g a w hf => absurd hf (hno f a w),
      fun a => ?_⟩
    change k.freelist.count a + k.others.count a + (if k.InUse a then 1 else 0) = _
    rw [hb.freelist, hb.others, if_neg fun ⟨f, w, hf⟩ => hno f a w hf]
    rfl
  · change k.vol.book = Book.idle.addRefs k.users
    rw [husers]
    apply Book.ext
    · funext jp
      change (k.vol.inode jp).ref = (Pi.single ip 1 : Fin NINODE → Nat) jp + 0
      rw [href, add_zero, Pi.single_apply]
    · funext jp
      exact hb.locked jp
    · exact hb.outstanding
  · change ProcOk (k.proc p)
    by_cases hp : p.val = 0
    · obtain rfl : p = ⟨0, by decide⟩ := Fin.ext hp
      rw [hproc]
      exact ⟨fun _ => ⟨ip, rfl⟩, fun h => absurd rfl h⟩
    · rw [hb.proc p hp]
      exact ⟨fun h => (nomatch h), fun _ => ⟨rfl, fun _ => rfl⟩⟩

theorem Quiet.reachable (h : Reachable (machine pages) anyStep k) : Quiet pages k.ledger :=
  h.invariant (I := fun k => Quiet pages k.ledger) (fun _ => Quiet.init)
    fun _ _ _ hq _ hn => hq.step hn

theorem Quiet.ref_eq (hq : Quiet pages k.ledger) (f : Fin NFILE) : (k.ftable f).ref = k.slots f := by
  have h := hq.balanced.sound.files f
  change ((k.ftable f).ref : ℤ) = k.slots f + 0 at h
  omega

theorem Quiet.refers_iff (hq : Quiet pages k.ledger) (a : Nat) (w : Bool) :
    k.Refers a w ↔ ∃ f, (k.ftable f).IsEnd a w := by
  constructor
  · rintro ⟨p, fd, f, hfd, htype, hpage, hw⟩
    refine ⟨f, ?_, htype, hpage, hw⟩
    rw [hq.ref_eq]
    exact slots_pos hfd
  · rintro ⟨f, hf⟩
    have hpos := hf.pos
    rw [hq.ref_eq] at hpos
    obtain ⟨p, -, hp⟩ := Finset.exists_ne_zero_of_sum_ne_zero hpos.ne'
    obtain ⟨fd, -, hfd⟩ := Finset.exists_ne_zero_of_sum_ne_zero hp
    exact ⟨p, fd, f, by_contra fun h => hfd (if_neg h), hf.type, hf.page, hf.writable⟩

theorem Quiet.inUse_iff (hq : Quiet pages k.ledger) (a : Nat) : k.InUse a ↔ ∃ w, k.Refers a w := by
  simp only [hq.refers_iff, Tables.InUse]
  exact exists_comm

/-- Between system calls every file counts the descriptors that point to it, the flags of a pipe
say which of its files have descriptors, and a page of a pipe is back in the list of free
pages, once, when neither has. -/
theorem files_and_pipes_counted (h : Reachable (machine pages) anyStep k) :
    (∀ f, (k.ftable f).ref = k.slots f) ∧
    (∀ a ∈ pages, a ∉ k.freelist → a ∉ k.others →
      ((k.pipe a).readopen = true ↔ k.Refers a false) ∧
      ((k.pipe a).writeopen = true ↔ k.Refers a true)) ∧
    (∀ a ∈ pages, k.freelist.count a + k.others.count a = if ∃ w, k.Refers a w then 0 else 1) ∧
    ∀ p fd f, (k.proc p).ofile fd = some f → 0 < (k.ftable f).ref ∧
      ((k.ftable f).type = .pipe → (k.ftable f).pipe ∈ pages ∧
        (k.ftable f).pipe ∉ k.freelist ∧ (k.ftable f).pipe ∉ k.others) := by
  have hq := Quiet.reachable h
  have hpipes : Pipes pages k.toTables := hq.balanced.sound.pipes
  have hcount : ∀ a ∈ pages,
      k.freelist.count a + k.others.count a = if ∃ w, k.Refers a w then 0 else 1 := by
    intro a ha
    have hc := hpipes.count a
    rw [List.count_eq_one_of_mem hpipes.nodup ha] at hc
    rw [← if_congr (hq.inUse_iff a) rfl rfl]
    split at hc <;> rename_i hin
    · rw [if_pos hin]
      omega
    · rw [if_neg hin]
      omega
  refine ⟨hq.ref_eq, fun a ha hfree hothers => ?_, hcount, fun p fd f hfd => ⟨?_, fun htype => ?_⟩⟩
  · have hc := hcount a ha
    rw [List.count_eq_zero.mpr hfree, List.count_eq_zero.mpr hothers] at hc
    obtain ⟨f, w, hf⟩ : k.InUse a := by
      rw [hq.inUse_iff]
      by_contra hno
      rw [if_neg hno] at hc
      cases hc
    rw [hq.refers_iff, hq.refers_iff]
    exact ⟨hpipes.flag f a w hf false, hpipes.flag f a w hf true⟩
  · rw [hq.ref_eq]
    exact slots_pos hfd
  · have hin : k.InUse (k.ftable f).pipe := by
      rw [hq.inUse_iff]
      exact ⟨_, p, fd, f, hfd, htype, rfl, rfl⟩
    have hc := hpipes.count (k.ftable f).pipe
    rw [if_pos hin] at hc
    have hle := List.nodup_iff_count_le_one.mp hpipes.nodup (k.ftable f).pipe
    refine ⟨List.count_pos_iff.mp (by omega), ?_, ?_⟩
    · exact List.count_eq_zero.mp (by omega)
    · exact List.count_eq_zero.mp (by omega)

theorem users_apply (t : Tables) (ip : Fin NINODE) :
    t.users ip = (Finset.univ.filter fun f => (t.ftable f).HasInode ∧ (t.ftable f).ip = ip).card +
      (Finset.univ.filter fun p => (t.proc p).cwd = some ip).card := by
  rw [Tables.users, Pi.add_apply, Finset.sum_apply, Finset.sum_apply, Finset.card_filter,
    Finset.card_filter]
  apply congrArg₂ (· + ·)
  · refine Finset.sum_congr rfl fun f _ => ?_
    rw [File.use, ite_and]
    split
    · rw [Pi.single_apply]
      exact if_congr eq_comm rfl rfl
    · rfl
  · refine Finset.sum_congr rfl fun p _ => ?_
    cases h : (t.proc p).cwd with
    | none =>
      rw [Proc.use_of_none h]
      rfl
    | some jp =>
      rw [Proc.use_of_cwd h, Pi.single_apply]
      exact if_congr (by rw [Option.some.injEq, eq_comm]) rfl rfl

instance : NeZero NINODE := ⟨by decide⟩

instance : NeZero NFILE := ⟨by decide⟩

def bootKernel (pages : List Nat) : Kernel where
  ftable _ := ⟨.none, 0, false, false, 0, 0, 0, 0⟩
  proc p := if p.val = 0 then ⟨.live, fun _ => none, some 0⟩ else ⟨.unused, fun _ => none, none⟩
  freelist := pages
  others := []
  pipe _ := ⟨false, false⟩
  vol := {
    fs := {
      sb := ⟨FSMAGIC, 1000, 941, 200, 30, 2, 32, 45⟩
      data := fun _ => Block.zeroes
      outstanding := 0
      logged := []
      icache := fun ip =>
        if ip = 0 then
          { Dinode.zero with
            type := T_DIR, nlink := 1, dev := ROOTDEV, inum := ROOTINO, ref := 1, valid := true }
        else noInode }
    locked := fun _ => false
    sizes := [] }

theorem bootKernel_booted (hn : pages.Nodup) : Booted pages (bootKernel pages) where
  nodup := hn
  root := by
    refine ⟨0, rfl, rfl, rfl, fun jp => ?_⟩
    change (if jp = 0 then _ else noInode : Inode).ref = _
    split <;> rfl
  proc p hp := if_neg hp
  file _ := ⟨rfl, rfl⟩
  locked _ := rfl
  outstanding := rfl
  logged := rfl
  freelist := rfl
  others := rfl

/-- The end to write to is closed by both processes, the other one is not. -/
theorem files_and_pipes_counted_fork : ∃ k, Reachable (machine [4096, 8192]) anyStep k ∧
    k.freelist = [8192] ∧ (k.ftable 0).ref = 3 ∧ k.slots 0 = 3 ∧
    ¬ k.Refers 4096 true ∧ (k.pipe 4096).writeopen = false := by
  let as : List Act := [.call 0 (.pipe true), .call 0 (.fork true), .call 1 (.dup 0),
    .call 0 (.close 1), .call 1 (.close 1)]
  have h : (perform (machine [4096, 8192]) (fun _ _ => true) (bootKernel [4096, 8192]) as).any
      (fun k => k.freelist = [8192] ∧ k.others = [] ∧ (k.ftable 0).ref = 3 ∧
        (k.pipe 4096).writeopen = false) = true := by decide +kernel
  have hinit : (machine [4096, 8192]).init (bootKernel [4096, 8192]) :=
    bootKernel_booted (by decide)
  obtain ⟨k, hr, hk⟩ := Reachable.of_perform (P := anyStep) h hinit fun _ _ _ => trivial
  obtain ⟨hfree, hothers, href, hw⟩ := of_decide_eq_true hk
  obtain ⟨hslots, hpipe, -, -⟩ := files_and_pipes_counted hr
  have hends := hpipe 4096 (by decide) (by rw [hfree]; decide) (by rw [hothers]; decide)
  refine ⟨k, hr, hfree, href, (hslots 0).symm.trans href, fun hno => ?_, hw⟩
  have hopen := hends.2.mpr hno
  rw [hw] at hopen
  cases hopen

/-- Between system calls the references to an entry of the inode cache are those of open files
and current directories; no inode is locked, and no operation is under way. -/
theorem inode_refs_counted (h : Reachable (machine pages) anyStep k) :
    (∀ ip, (k.vol.inode ip).ref =
      (Finset.univ.filter fun f => 0 < (k.ftable f).ref ∧
        ((k.ftable f).type = .inode ∨ (k.ftable f).type = .device) ∧ (k.ftable f).ip = ip).card +
      (Finset.univ.filter fun p => (k.proc p).cwd = some ip).card) ∧
    (∀ ip, k.vol.locked ip = false) ∧ k.vol.fs.outstanding = 0 := by
  have hb : k.vol.book = Book.idle.addRefs k.users := (Quiet.reachable h).balanced.book
  refine ⟨fun ip => ?_, fun ip => ?_, congrArg Book.outstanding hb⟩
  · have hr : (k.vol.inode ip).ref = k.users ip + 0 := congrFun (congrArg Book.ref hb) ip
    rw [hr, add_zero, users_apply]
    simp only [File.HasInode, and_assoc]
  · exact congrFun (congrArg Book.locked hb) ip

/-- The root directory is the current directory of two processes and open in one of them. -/
theorem inode_refs_counted_root : ∃ k, Reachable (machine []) anyStep k ∧
    (k.vol.inode 0).ref = 3 ∧ k.vol.locked 0 = false ∧ k.vol.fs.outstanding = 0 := by
  let as : List Act := [.call 0 (.fork true), .call 1 (.open (some [47]) O_RDONLY),
    .call 1 (.open (some [47]) O_WRONLY), .call 0 (.chdir none)]
  have h : (perform (machine []) (fun _ _ => true) (bootKernel []) as).any (fun k =>
      (k.vol.inode 0).ref = 3) = true := by decide +kernel
  have hinit : (machine []).init (bootKernel []) := bootKernel_booted List.nodup_nil
  obtain ⟨k, hr, hk⟩ := Reachable.of_perform (P := anyStep) h hinit fun _ _ _ => trivial
  obtain ⟨-, hlocked, hout⟩ := inode_refs_counted hr
  exact ⟨k, hr, of_decide_eq_true hk, hlocked 0, hout⟩

end Runs

end Xv6.Sysfile

import Xv6.Sysfile.References

namespace Xv6.Sysfile

open Fs Lib.Command Lib.Transition

/-- The state between system calls: all counts agree, and nothing is locked or under way. -/
structure Quiet (pages : List Nat) (l : Ledger) : Prop where
  balanced : Balanced pages 0 Book.idle l
  procs : ∀ p, ProcOk (l.1.proc p)

section Calls

variable {pages : List Nat} {t : Tables} {b : Book} {p : Fin NPROC}

theorem ProcOk.setOfile {q : Proc} (hq : ProcOk q) (hs : q.state = .live) (fd : Fin NOFILE)
    (o : Option (Fin NFILE)) : ProcOk (q.setOfile fd o) :=
  ⟨hq.live, fun hne => absurd hs hne⟩

theorem procs_setProc (h : ∀ p, ProcOk (t.proc p)) {q : Proc} (hq : ProcOk q) (p' : Fin NPROC) :
    ProcOk ((t.setProc p q).proc p') := by
  change ProcOk (Function.update t.proc p q p')
  by_cases hp : p' = p
  · rw [hp, Function.update_self]
    exact hq
  · rw [Function.update_of_ne hp]
    exact h p'

theorem procs_setOfile (h : ∀ p, ProcOk (t.proc p)) (hs : (t.proc p).state = .live) (fd : Fin NOFILE)
    (o : Option (Fin NFILE)) (p' : Fin NPROC) : ProcOk ((t.setOfile p fd o).proc p') :=
  procs_setProc h ((h p).setOfile hs fd o) p'

theorem Quiet.locked (hq : Quiet pages (t, b)) (ip : Fin NINODE) : b.locked ip = false := by
  have hb : b = _ := hq.balanced.book
  rw [hb]
  rfl

theorem use_opened {x : File} {ip : Fin NINODE} {i : Inode} {omode : UInt32} (h : 0 < x.ref) :
    (x.opened ip i omode).use = Pi.single ip 1 := by
  refine if_pos ⟨h, ?_⟩
  change (if i.type = T_DEVICE then FdType.device else .inode) = _ ∨
    (if i.type = T_DEVICE then FdType.device else .inode) = _
  split
  · exact Or.inr rfl
  · exact Or.inl rfl

theorem openFile_ledgers (hq : Quiet pages (t, b)) (hs : (t.proc p).state = .live) (ip : Fin NINODE)
    (omode : UInt32) :
    Ledgers (openFile p ip omode) (t, ((b.enter.take ip).lock ip)) (fun _ l =>
      Quiet pages (l.1, l.2.leave)) := by
  have hlock : b.enter.locked ip = false := hq.locked ip
  -- the inode is in the hands of the call
  have hl : Balanced pages 0 ((Book.idle.enter.take ip).lock ip)
      (t, (b.enter.take ip).lock ip) := by
    refine ⟨hq.balanced.sound, ?_⟩
    have hb : b = _ := hq.balanced.book
    rw [hb]
    exact congrArg (fun x => Book.lock x ip) (Book.idle.enter.take_addRefs ip t.users)
  have hbad : ∀ l : Ledger, Balanced pages 0 ((Book.idle.enter.take ip).lock ip) l →
      l.1.proc = t.proc → Ledgers (do onVol (iunlockput ip); pure (-1 : Int)) l (fun _ l =>
        Quiet pages (l.1, l.2.leave)) := by
    rintro ⟨t₁, b₁⟩ h₁ hp₁
    have hb : b₁ = ((Book.idle.enter.addRefs t₁.users).take ip).lock ip := by
      rw [Book.take_addRefs]
      exact h₁.book
    subst hb
    apply onVol_bind (iunlockput_books rfl)
    intro _
    refine Tracks.pure ⟨⟨h₁.sound, rfl⟩, fun p => ?_⟩
    change ProcOk (t₁.proc p)
    have hp₁ : t₁.proc = t.proc := hp₁
    rw [hp₁]
    exact hq.procs p
  refine Tracks.get_bind fun k hk => ?_
  dsimp only
  split
  · exact hbad _ hl rfl
  · apply (filealloc_ledgers hl).bind
    rintro (_ | f) l₁ h₁
    · subst h₁
      exact hbad _ hl rfl
    · obtain ⟨hr, rfl, hl₁⟩ := h₁
      set t₁ := t.setFile f ((t.ftable f).withRef 1) with ht₁
      have hat : t₁.ftable f = (t.ftable f).withRef 1 := Function.update_self ..
      apply (fdalloc_ledgers hl₁).bind
      rintro (_ | fd) l₂ h₂
      · subst h₂
        apply (fileclose_ledgers hl₁).bind
        rintro _ l₃ ⟨h₃, hp₃⟩
        rw [add_sub_cancel_right] at h₃
        exact hbad l₃ h₃ hp₃
      · obtain ⟨hfd, rfl, hl₂⟩ := h₂
        rw [add_sub_cancel_right] at hl₂
        apply onTables_bind
        set t₂ := t₁.setOfile p fd (some f) with ht₂
        set x := (t₂.ftable f).opened ip (k.vol.inode ip) omode with hx
        have hat₂ : t₂.ftable f = (t.ftable f).withRef 1 := hat
        have hold : (t₂.ftable f).type = .none := by
          rw [hat₂]
          exact hq.balanced.sound.closed f hr
        have hpipe : x.type ≠ .pipe := by
          change (if (k.vol.inode ip).type = T_DEVICE then FdType.device else .inode) ≠ .pipe
          split <;> nofun
        have hsound : Sound pages 0 (t₂.setFile f x) := by
          have := hl₂.sound.setFile (f := f) (x := x) (n := 0) (by rw [add_zero]; rfl)
            (fun h0 => ?_) (fun a w => ?_)
          · rwa [Pi.single_zero, add_zero] at this
          · change (t₂.ftable f).ref = 0 at h0
            rw [hat₂] at h0
            cases h0
          · exact iff_of_false (not_isEnd_of_type hpipe a w)
              (not_isEnd_of_type (by rw [hold]; nofun) a w)
        have husers : (t₂.setFile f x).users = t.users + Pi.single ip 1 := by
          have h1 := users_setFile t₂ f x
          rw [use_none hold, add_zero,
            use_opened (by rw [hat₂]; exact Nat.one_pos), ht₂, users_setOfile] at h1
          have h2 : t₁.users = t.users := by
            refine users_setFile_same ?_
            have h0 : (t.ftable f).type = .none := hq.balanced.sound.closed f hr
            rw [use_none h0]
            exact use_none h0
          rw [h2] at h1
          exact h1
        have hprocs : ∀ q, ProcOk ((t₂.setFile f x).proc q) :=
          procs_setOfile (t := t₁) hq.procs hs fd (some f)
        have hend : Ledgers (do onVol (iunlock ip); pure (fd.val : Int))
            (t₂.setFile f x, (b.enter.take ip).lock ip) (fun _ l => Quiet pages (l.1, l.2.leave)) := by
          apply onVol_bind iunlock_books
          intro _
          refine Tracks.pure ⟨⟨hsound, ?_⟩, hprocs⟩
          change (((b.enter.take ip).lock ip).unlock ip).leave = _
          rw [Book.unlock_lock (b.enter.take ip) ip hlock]
          change b.take ip = Book.idle.addRefs (t₂.setFile f x).users
          rw [husers, Book.addRefs_single]
          exact congrArg (fun x => Book.take x ip) hq.balanced.book
        split
        · apply onVol_bind (F := fun _ => (b.enter.take ip).lock ip)
            (onFs_keeps (itrunc_counts ip)).tracks
          exact fun _ => hend
        · exact hend

theorem Quiet.transaction {α : Type} {c : KM α}
    (hc : Ledgers c (t, b.enter) (fun _ l => Quiet pages (l.1, l.2.leave))) :
    Ledgers (Sysfile.transaction c) (t, b) (fun _ l => Quiet pages l) :=
  transaction_ledgers hc fun _ _ _ h => h

theorem Quiet.pure_leave {α : Type} (hq : Quiet pages (t, b)) (a : α) :
    Ledgers (pure a) (t, b.enter) (fun _ l => Quiet pages (l.1, l.2.leave)) :=
  Tracks.pure hq

theorem sysOpen_ledgers (hq : Quiet pages (t, b)) (hs : (t.proc p).state = .live) (path : Path)
    (omode : UInt32) : Ledgers (sysOpen p path omode) (t, b) (fun _ l => Quiet pages l) := by
  match path with
  | none => exact Tracks.pure hq
  | some path =>
    apply Quiet.transaction
    refine Tracks.get_bind fun k hk => ?_
    apply (onVol_ledgers (openInode_books _ _ _)).bind
    rintro (_ | ip) ⟨_, b'⟩ ⟨rfl, hb⟩
    · have hb : b' = b.enter := hb
      subst hb
      exact hq.pure_leave _
    · obtain ⟨-, rfl⟩ : _ ∧ b' = (b.enter.take ip).lock ip := hb
      exact openFile_ledgers hq hs ip omode

theorem sysMake_ledgers (hq : Quiet pages (t, b)) (path : Path) (type major minor : Int16) :
    Ledgers (sysMake p path type major minor) (t, b) (fun _ l => Quiet pages l) := by
  apply Quiet.transaction
  refine Tracks.get_bind fun k hk => ?_
  match path with
  | none => exact hq.pure_leave _
  | some path =>
    apply (onVol_ledgers (create_books _ _ _ _ _)).bind
    rintro (_ | ip) ⟨_, b'⟩ ⟨rfl, hb⟩
    · have hb : b' = b.enter := hb
      subst hb
      exact hq.pure_leave _
    · obtain ⟨hl, rfl⟩ : b.enter.locked ip = false ∧ b' = (b.enter.take ip).lock ip := hb
      apply onVol_bind (iunlockput_books hl)
      intro _
      exact hq.pure_leave _

theorem sysLink_ledgers (hq : Quiet pages (t, b)) (old new : Path) :
    Ledgers (sysLink p old new) (t, b) (fun _ l => Quiet pages l) := by
  unfold sysLink
  split
  · apply Quiet.transaction
    refine Tracks.get_bind fun k hk => ?_
    refine (onVol_ledgers (linkInode_books _ _ _)).post ?_
    rintro _ ⟨_, _⟩ ⟨rfl, rfl⟩
    exact hq
  · exact Tracks.pure hq

theorem sysUnlink_ledgers (hq : Quiet pages (t, b)) (path : Path) :
    Ledgers (sysUnlink p path) (t, b) (fun _ l => Quiet pages l) := by
  match path with
  | none => exact Tracks.pure hq
  | some path =>
    apply Quiet.transaction
    refine Tracks.get_bind fun k hk => ?_
    refine (onVol_ledgers (unlinkInode_books _ _)).post ?_
    rintro _ ⟨_, _⟩ ⟨rfl, rfl⟩
    exact hq

theorem cwdOf_eq {k : Kernel} {ip : Fin NINODE} (h : (k.proc p).cwd = some ip) : cwdOf k p = ip := by
  rw [cwdOf, h]
  rfl

theorem Proc.use_of_cwd {q : Proc} {ip : Fin NINODE} (h : q.cwd = some ip) : q.use = Pi.single ip 1 := by
  rw [Proc.use, h]

theorem Proc.use_of_none {q : Proc} (h : q.cwd = none) : q.use = 0 := by rw [Proc.use, h]

theorem Quiet.cwd (hq : Quiet pages (t, b)) {cwd : Fin NINODE} (hc : (t.proc p).cwd = some cwd)
    {q : Proc} (hqc : q.cwd = none) : b = (Book.idle.addRefs (t.setProc p q).users).take cwd := by
  have hu := users_setProc t p q
  rw [Proc.use_of_cwd hc, Proc.use_of_none hqc, add_zero] at hu
  rw [← Book.addRefs_single, hu]
  exact hq.balanced.book

theorem sysChdir_ledgers (hq : Quiet pages (t, b)) (hs : (t.proc p).state = .live) (path : Path) :
    Ledgers (sysChdir p path) (t, b) (fun _ l => Quiet pages l) := by
  refine Tracks.get_bind fun k hk => ?_
  obtain ⟨cwd, hcwd⟩ := (hq.procs p).live hs
  have hk' : cwdOf k p = cwd := cwdOf_eq (by rw [toTables_eq hk]; exact hcwd)
  -- the references without that to the old directory
  set b₀ := Book.idle.addRefs (t.setProc p ((t.proc p).setCwd none)).users with hb₀
  have hb : b = b₀.take cwd := hq.cwd hcwd rfl
  apply Tracks.bind (Q := fun r l => l = (t, r.elim b b₀.take))
  · cases path with
    | none =>
      have hpure : Ledgers (pure (none : Option (Fin NINODE))) (t, b.enter)
          (fun r l => r = none ∧ l = (t, b.enter)) := Tracks.pure ⟨rfl, rfl⟩
      refine transaction_ledgers hpure ?_
      rintro _ _ _ ⟨rfl, h⟩
      cases h
      rfl
    | some path =>
      rw [hk']
      refine transaction_onVol (F := fun r => r.elim b b₀.take) ?_ fun _ => rfl
      have hspec := chdirInode_books (b := b₀.enter) cwd path
      rw [hb]
      refine hspec.post ?_
      rintro (_ | ip) b' rfl
      · rfl
      · rfl
  rintro (_ | ip) l rfl
  · exact Tracks.pure hq
  · apply onTables_bind
    have husers : (t.setProc p ((t.proc p).setCwd (some ip))).users =
        (t.setProc p ((t.proc p).setCwd none)).users + Pi.single ip 1 := by
      have h1 := users_setProc t p ((t.proc p).setCwd (some ip))
      have h2 := users_setProc t p ((t.proc p).setCwd none)
      rw [Proc.use_of_cwd (q := (t.proc p).setCwd (some ip)) rfl] at h1
      rw [Proc.use_of_none (q := (t.proc p).setCwd none) rfl, add_zero] at h2
      rw [← h2, add_right_comm] at h1
      exact add_right_cancel h1
    refine Tracks.pure ⟨⟨hq.balanced.sound.setProc rfl, ?_⟩, ?_⟩
    · change b₀.take ip = Book.idle.addRefs (t.setProc p ((t.proc p).setCwd (some ip))).users
      rw [husers, Book.addRefs_single]
    · exact procs_setProc hq.procs ⟨fun _ => ⟨ip, rfl⟩, fun hne => absurd hs hne⟩

theorem argfd_some {k : Kernel} {fd : Int} {fd' : Fin NOFILE} {f : Fin NFILE}
    (h : argfd k p fd = some (fd', f)) : (k.proc p).ofile fd' = some f := by
  unfold argfd at h
  split at h
  · obtain ⟨g, hg, he⟩ := Option.map_eq_some_iff.mp h
    cases he
    exact hg
  · cases h

theorem sysDup_ledgers (hq : Quiet pages (t, b)) (hs : (t.proc p).state = .live) (fd : Int) :
    Ledgers (sysDup p fd) (t, b) (fun _ l => Quiet pages l) := by
  refine Tracks.get_bind fun k hk => ?_
  split
  · exact Tracks.pure hq
  next f _ =>
    apply (fdalloc_ledgers hq.balanced).bind
    rintro (_ | fd') l₁ h₁
    · subst h₁
      exact Tracks.pure hq
    · obtain ⟨-, rfl, hl₁⟩ := h₁
      apply (filedup_ledgers hl₁).bind
      rintro _ ⟨t₂, b₂⟩ ⟨hl₂, hp₂⟩
      rw [sub_add_cancel] at hl₂
      refine Tracks.pure ⟨hl₂, fun q => ?_⟩
      have hp₂ : t₂.proc = _ := hp₂
      change ProcOk (t₂.proc q)
      rw [hp₂]
      exact procs_setOfile hq.procs hs fd' (some f) q

theorem Balanced.clearOfile {e : Fin NFILE → ℤ} {h : Book} {f : Fin NFILE} {fd : Fin NOFILE}
    (hl : Balanced pages e h (t, b)) (hfd : (t.proc p).ofile fd = some f) :
    Balanced pages (e + Pi.single f 1) h (t.setOfile p fd none, b) := by
  refine ⟨hl.sound.setOfile fun g => ?_, ?_⟩
  · rw [hfd, Pi.add_apply, Pi.single_apply]
    simp only [Option.some.injEq, reduceCtorEq, if_false, sub_zero]
    congr 1
    exact if_congr eq_comm rfl rfl
  · rw [users_setOfile]
    exact hl.book

theorem sysClose_ledgers (hq : Quiet pages (t, b)) (hs : (t.proc p).state = .live) (fd : Int) :
    Ledgers (sysClose p fd) (t, b) (fun _ l => Quiet pages l) := by
  refine Tracks.get_bind fun k hk => ?_
  split
  · exact Tracks.pure hq
  next fd' f harg =>
    have hfd : (t.proc p).ofile fd' = some f := by
      rw [← toTables_eq hk]
      exact argfd_some harg
    apply onTables_bind
    apply (fileclose_ledgers (hq.balanced.clearOfile hfd)).bind
    rintro _ ⟨t₁, b₁⟩ ⟨h₁, hp₁⟩
    rw [add_sub_cancel_right] at h₁
    refine Tracks.pure ⟨h₁, fun q => ?_⟩
    have hp₁ : t₁.proc = _ := hp₁
    change ProcOk (t₁.proc q)
    rw [hp₁]
    exact procs_setOfile hq.procs hs fd' none q

theorem Balanced.advance {e : Fin NFILE → ℤ} {h : Book} (hl : Balanced pages e h (t, b)) (f : Fin NFILE)
    (n : Nat) : Balanced pages e h (t.setFile f ((t.ftable f).advance n), b) := by
  have := hl.setFile (f := f) (x := (t.ftable f).advance n) (n := 0) (add_zero _).symm
    (hl.sound.closed f) (fun a w => ⟨fun he => ⟨he.pos, he.type, he.page, he.writable⟩,
      fun he => ⟨he.pos, he.type, he.page, he.writable⟩⟩) rfl
  rwa [Pi.single_zero, add_zero] at this

theorem fileread_ledgers (hq : Quiet pages (t, b)) (f : Fin NFILE) (dst : Nat → Nat → Bool) (n : UInt32)
    (other : Int) : Ledgers (fileread f dst n other) (t, b) (fun _ l => Quiet pages l) := by
  refine Tracks.get_bind fun k hk => ?_
  obtain rfl := toTables_eq hk
  dsimp only
  split
  · exact Tracks.pure hq
  · split
    · exact Tracks.pure hq
    · split
      · exact Tracks.pure hq
      · exact Tracks.pure hq
    · apply (onVol_ledgers ilock_books).bind
      rintro _ ⟨_, _⟩ ⟨rfl, hl, rfl⟩
      apply onVol_bind (F := fun _ => b.lock (k.ftable f).ip) (onFs_keeps (readi_counts _ _ _ _)).tracks
      intro bs
      apply onTables_bind
      apply onVol_bind iunlock_books
      intro _
      rw [Book.unlock_lock b _ hl]
      exact Tracks.pure ⟨hq.balanced.advance f _, hq.procs⟩
    · exact Tracks.throw _

theorem writeChunk_ledgers (hq : Quiet pages (t, b)) (f : Fin NFILE) (src : Source) (n1 : Nat) :
    Ledgers (writeChunk f src n1) (t, b) (fun _ l => Quiet pages l ∧ l.1.proc = t.proc) := by
  suffices hrun : Ledgers _ (t, b.enter) (fun _ l => Quiet pages (l.1, l.2.leave) ∧
      l.1.proc = t.proc) from transaction_ledgers hrun fun _ _ _ h => h
  refine Tracks.get_bind fun k hk => ?_
  obtain rfl := toTables_eq hk
  apply (onVol_ledgers ilock_books).bind
  rintro _ ⟨_, _⟩ ⟨rfl, hl, rfl⟩
  apply onVol_bind (F := fun _ => b.enter.lock (k.ftable f).ip) (onFs_keeps (writei_counts _ _ _ _)).tracks
  intro r
  have hend : ∀ t', Balanced pages 0 Book.idle (t', b) → t'.proc = k.proc →
      Ledgers (do onVol (iunlock (k.ftable f).ip); pure r) (t', b.enter.lock (k.ftable f).ip)
        (fun _ l => Quiet pages (l.1, l.2.leave) ∧ l.1.proc = k.proc) := by
    intro t' ht' hp'
    apply onVol_bind iunlock_books
    intro _
    rw [Book.unlock_lock b.enter _ hl]
    refine Tracks.pure ⟨⟨ht', fun q => ?_⟩, hp'⟩
    change ProcOk (t'.proc q)
    rw [hp']
    exact hq.procs q
  dsimp only
  split
  · apply onTables_bind
    exact hend _ (hq.balanced.advance f _) rfl
  · exact hend _ hq.balanced rfl

theorem writeChunks_ledgers (hq : Quiet pages (t, b)) (f : Fin NFILE) (src : Source) (n fuel i : Nat) :
    Ledgers (writeChunks f src n fuel i) (t, b) (fun _ l => Quiet pages l) := by
  induction fuel generalizing t b i with
  | zero => exact Tracks.pure hq
  | succ fuel ih =>
    rw [writeChunks]
    split
    · apply (writeChunk_ledgers hq f _ _).bind
      rintro r ⟨t₁, b₁⟩ ⟨h₁, -⟩
      split
      · exact Tracks.pure h₁
      · split
        · exact Tracks.throw _
        · exact ih h₁ _
    · exact Tracks.pure hq

theorem filewrite_ledgers (hq : Quiet pages (t, b)) (f : Fin NFILE) (src : Source) (n other : Int) :
    Ledgers (filewrite f src n other) (t, b) (fun _ l => Quiet pages l) := by
  refine Tracks.get_bind fun k hk => ?_
  dsimp only
  split
  · exact Tracks.pure hq
  · split
    · exact Tracks.pure hq
    · split
      · exact Tracks.pure hq
      · exact Tracks.pure hq
    · exact (writeChunks_ledgers hq f src _ _ _).bind fun _ _ h => Tracks.pure h
    · exact Tracks.throw _

theorem sysFstat_ledgers (hq : Quiet pages (t, b)) (fd : Int) (copied : Bool) :
    Ledgers (sysFstat p fd copied) (t, b) (fun _ l => Quiet pages l) := by
  refine Tracks.get_bind fun k hk => ?_
  split
  · exact Tracks.pure hq
  · have hstat : ∀ ip : Fin NINODE, Ledgers (do
        onVol (Vol.ilock ip)
        onVol (iunlock ip)
        pure (if copied then 0 else -1 : Int)) (t, b) (fun _ l => Quiet pages l) := by
      intro ip
      apply (onVol_ledgers ilock_books).bind
      rintro _ ⟨_, _⟩ ⟨rfl, hl, rfl⟩
      apply onVol_bind iunlock_books
      intro _
      rw [Book.unlock_lock b _ hl]
      exact Tracks.pure hq
    split
    · exact hstat _
    · exact hstat _
    · exact Tracks.pure hq

theorem sysPipe_ledgers (hq : Quiet pages (t, b)) (hs : (t.proc p).state = .live) (copied : Bool) :
    Ledgers (sysPipe p copied) (t, b) (fun _ l => Quiet pages l) := by
  apply (pipealloc_ledgers hq.balanced).bind
  rintro (_ | ⟨rf, wf⟩) ⟨t₁, b₁⟩ ⟨hp₁, hl₁⟩
  · refine Tracks.pure ⟨hl₁, fun q => ?_⟩
    have hp₁ : t₁.proc = t.proc := hp₁
    change ProcOk (t₁.proc q)
    rw [hp₁]
    exact hq.procs q
  · have hp₁ : t₁.proc = t.proc := hp₁
    have hprocs₁ : ∀ q, ProcOk (t₁.proc q) := by
      rw [hp₁]
      exact hq.procs
    have hs₁ : (t₁.proc p).state = .live := by rw [hp₁]; exact hs
    -- both files are closed on every way out that fails
    have hbad : ∀ t' b', Balanced pages (0 + Pi.single rf 1 + Pi.single wf 1) Book.idle (t', b') →
        (∀ q, ProcOk (t'.proc q)) → Ledgers (do
          fileclose rf
          fileclose wf
          pure (-1 : Int)) (t', b') (fun _ l => Quiet pages l) := by
      intro t' b' hl' hp'
      refine fileclose_two hl' fun l hl hp => Tracks.pure ⟨hl, fun q => ?_⟩
      rw [hp]
      exact hp' q
    apply (fdalloc_ledgers hl₁).bind
    rintro (_ | fd₀) l₂ h₂
    · subst h₂
      exact hbad _ _ hl₁ hprocs₁
    · obtain ⟨hfd₀, rfl, hl₂⟩ := h₂
      set t₂ := t₁.setOfile p fd₀ (some rf) with ht₂
      have hprocs₂ : ∀ q, ProcOk (t₂.proc q) := procs_setOfile hprocs₁ hs₁ fd₀ (some rf)
      have hself₂ : t₂.proc p = (t₁.proc p).setOfile fd₀ (some rf) := Function.update_self ..
      have hs₂ : (t₂.proc p).state = .live := by rw [hself₂]; exact hs₁
      have hat₂ : (t₂.proc p).ofile fd₀ = some rf := by
        rw [hself₂]
        exact Function.update_self ..
      apply (fdalloc_ledgers hl₂).bind
      rintro (_ | fd₁) l₃ h₃
      · subst h₃
        apply onTables_bind
        refine hbad _ _ ?_ (procs_setOfile hprocs₂ hs₂ fd₀ none)
        have := hl₂.clearOfile hat₂
        rwa [sub_add_cancel] at this
      · obtain ⟨hfd₁, rfl, hl₃⟩ := h₃
        set t₃ := t₂.setOfile p fd₁ (some wf) with ht₃
        have hprocs₃ : ∀ q, ProcOk (t₃.proc q) := procs_setOfile hprocs₂ hs₂ fd₁ (some wf)
        have hself₃ : t₃.proc p = (t₂.proc p).setOfile fd₁ (some wf) := Function.update_self ..
        have hs₃ : (t₃.proc p).state = .live := by rw [hself₃]; exact hs₂
        have hne : fd₀ ≠ fd₁ := by
          rintro rfl
          rw [hat₂] at hfd₁
          cases hfd₁
        dsimp only
        split
        · refine Tracks.pure ⟨?_, hprocs₃⟩
          have he : (0 : Fin NFILE → ℤ) + Pi.single rf 1 + Pi.single wf 1 - Pi.single rf 1 -
              Pi.single wf 1 = 0 := by abel
          rw [he] at hl₃
          exact hl₃
        · have hat₃ : (t₃.proc p).ofile fd₀ = some rf := by
            rw [hself₃]
            exact (Function.update_of_ne hne ..).trans hat₂
          have h₄ := hl₃.clearOfile hat₃
          set t₄ := t₃.setOfile p fd₀ none with ht₄
          have hself₄ : t₄.proc p = (t₃.proc p).setOfile fd₀ none := Function.update_self ..
          have hat₄ : (t₄.proc p).ofile fd₁ = some wf := by
            rw [hself₄]
            refine (Function.update_of_ne hne.symm ..).trans ?_
            rw [hself₃]
            exact Function.update_self ..
          have h₅ := h₄.clearOfile hat₄
          apply onTables_bind
          apply onTables_bind
          refine hbad _ _ ?_ (procs_setOfile (procs_setOfile hprocs₃ hs₃ fd₀ none)
            (by rw [hself₄]; exact hs₃) fd₁ none)
          have he : (0 : Fin NFILE → ℤ) + Pi.single rf 1 + Pi.single wf 1 - Pi.single rf 1 -
              Pi.single wf 1 + Pi.single rf 1 + Pi.single wf 1 =
                0 + Pi.single rf 1 + Pi.single wf 1 := by abel
          rwa [he] at h₅

theorem sysExec_ledgers (hq : Quiet pages (t, b)) (path : Path) (env : ExecEnv) :
    Ledgers (sysExec p path env) (t, b) (fun _ l => Quiet pages l) := by
  cases path with
  | none => exact Tracks.pure hq
  | some path =>
    apply Tracks.bind (Q := fun _ l => Quiet pages l)
    · apply Quiet.transaction
      refine Tracks.get_bind fun k hk => ?_
      apply onVol_bind (namei_books _ _)
      rintro (_ | ip)
      · exact hq.pure_leave _
      · apply (onVol_ledgers ilock_books).bind
        rintro _ ⟨_, _⟩ ⟨rfl, hl, rfl⟩
        apply onVol_bind (F := fun _ => (b.enter.take ip).lock ip) (onFs_keeps (loadImage_counts _ _)).tracks
        intro ok
        apply onVol_bind (iunlockput_books (b := b.enter) hl)
        intro _
        exact hq.pure_leave _
    · exact fun _ _ h => Tracks.pure h

structure OnlyFiles (np : Fin NPROC) (t t' : Tables) : Prop where
  others : ∀ q, q ≠ np → t'.proc q = t.proc q
  state : (t'.proc np).state = (t.proc np).state
  cwd : (t'.proc np).cwd = (t.proc np).cwd

theorem OnlyFiles.of_eq {np : Fin NPROC} {t t' : Tables} (h : t'.proc = t.proc) : OnlyFiles np t t' := by
  refine ⟨fun q _ => ?_, ?_, ?_⟩ <;> rw [h]

theorem OnlyFiles.trans {np : Fin NPROC} {t t' t'' : Tables} (h : OnlyFiles np t t')
    (h' : OnlyFiles np t' t'') : OnlyFiles np t t'' :=
  ⟨fun q hq => (h'.others q hq).trans (h.others q hq), h'.state.trans h.state, h'.cwd.trans h.cwd⟩

theorem proc_setOfile (t : Tables) (np : Fin NPROC) (fd : Fin NOFILE) (o : Option (Fin NFILE)) :
    (t.setOfile np fd o).proc np = (t.proc np).setOfile fd o :=
  Function.update_self ..

theorem OnlyFiles.setOfile (t : Tables) (np : Fin NPROC) (fd : Fin NOFILE) (o : Option (Fin NFILE)) :
    OnlyFiles np t (t.setOfile np fd o) := by
  refine ⟨fun q hq => Function.update_of_ne hq .., ?_, ?_⟩ <;> rw [proc_setOfile] <;> rfl

theorem Balanced.setOfile {e : Fin NFILE → ℤ} {h : Book} {f : Fin NFILE} {fd : Fin NOFILE}
    (hl : Balanced pages (e + Pi.single f 1) h (t, b)) (hfd : (t.proc p).ofile fd = none) :
    Balanced pages e h (t.setOfile p fd (some f), b) := by
  refine ⟨hl.sound.setOfile fun g => ?_, ?_⟩
  · rw [hfd, Pi.add_apply, Pi.single_apply]
    simp only [Option.some.injEq, reduceCtorEq, if_false, add_zero]
    rw [if_congr (eq_comm (a := g) (b := f)) rfl rfl, add_sub_cancel_right]
  · rw [users_setOfile]
    exact hl.book

theorem copyFiles_ledgers {np : Fin NPROC} (fds : List (Fin NOFILE)) (hnd : fds.Nodup)
    (hl : Balanced pages 0 Book.idle (t, b)) (hnone : ∀ fd ∈ fds, (t.proc np).ofile fd = none) :
    Ledgers (fds.forM fun i => do
      let k ← get
      match (k.proc p).ofile i with
      | none => pure ()
      | some f =>
        filedup f
        onTables fun t => t.setOfile np i (some f)) (t, b) (fun _ l =>
      Balanced pages 0 Book.idle l ∧ OnlyFiles np t l.1) := by
  induction fds generalizing t b with
  | nil => exact Tracks.pure ⟨hl, OnlyFiles.of_eq rfl⟩
  | cons i fds ih =>
    obtain ⟨hi, hnd⟩ := List.nodup_cons.mp hnd
    have hstep : Ledgers (do
        let k ← get
        match (k.proc p).ofile i with
        | none => pure ()
        | some f =>
          filedup f
          onTables fun t => t.setOfile np i (some f)) (t, b) (fun _ l =>
        Balanced pages 0 Book.idle l ∧ OnlyFiles np t l.1 ∧
          ∀ fd ∈ fds, (l.1.proc np).ofile fd = none) := by
      refine Tracks.get_bind fun k hk => ?_
      split
      · exact Tracks.pure ⟨hl, OnlyFiles.of_eq rfl, fun fd hfd => hnone fd (List.mem_cons_of_mem i hfd)⟩
      next f _ =>
        apply (filedup_ledgers hl).bind
        rintro _ ⟨t₁, b₁⟩ ⟨h₁, hp₁⟩
        have hp₁ : t₁.proc = t.proc := hp₁
        have hi₁ : (t₁.proc np).ofile i = none := by
          rw [hp₁]
          exact hnone i List.mem_cons_self
        apply onTables_ledgers
        refine ⟨h₁.setOfile hi₁, (OnlyFiles.of_eq hp₁).trans (.setOfile ..), fun fd hfd => ?_⟩
        have hfi : fd ≠ i := fun he => hi (he ▸ hfd)
        change ((t₁.setOfile np i (some f)).proc np).ofile fd = none
        rw [proc_setOfile, hp₁]
        exact (Function.update_of_ne hfi ..).trans (hnone fd (List.mem_cons_of_mem i hfd))
    apply hstep.bind
    rintro _ ⟨t₁, b₁⟩ ⟨h₁, ho₁, hn₁⟩
    refine (ih hnd h₁ hn₁).post ?_
    rintro _ ⟨t₂, b₂⟩ ⟨h₂, ho₂⟩
    exact ⟨h₂, ho₁.trans ho₂⟩

theorem fork_ledgers (hq : Quiet pages (t, b)) (room : Bool) :
    Ledgers (fork p room) (t, b) (fun _ l => Quiet pages l) := by
  refine Tracks.get_bind fun k hk => ?_
  obtain rfl := toTables_eq hk
  split
  · exact Tracks.pure hq
  next np hnp =>
    have hunused : (k.proc np).state = .unused := by simpa using List.find?_some hnp
    obtain ⟨hcwd, hnone⟩ := (hq.procs np).gone (by rw [hunused]; decide)
    split
    · apply (copyFiles_ledgers _ (List.nodup_finRange _) hq.balanced fun fd _ => hnone fd).bind
      rintro _ ⟨t₁, b₁⟩ ⟨h₁, ho₁⟩
      apply (onVol_ledgers (onFs_books (idup_counts _ _))).bind
      rintro ip ⟨t₂, b₂⟩ ⟨ht₂, n, ⟨rfl, rfl⟩, hb₂⟩
      obtain rfl : t₂ = t₁ := ht₂
      obtain rfl : b₂ = b₁.take (cwdOf k p) := hb₂
      apply onTables_bind
      set q := ((t₂.proc np).setCwd (some (cwdOf k p))).setState .live with hq'
      have hu := users_setProc t₂ np q
      rw [Proc.use_of_none (ho₁.cwd.trans hcwd), Proc.use_of_cwd (q := q) rfl, add_zero] at hu
      refine Tracks.pure ⟨⟨h₁.sound.setProc rfl, ?_⟩, fun p' => ?_⟩
      · change b₁.take (cwdOf k p) = Book.idle.addRefs (t₂.setProc np q).users
        have hb₁ : b₁ = Book.idle.addRefs t₂.users := h₁.book
        rw [hu, Book.addRefs_single, ← hb₁]
      · change ProcOk (Function.update t₂.proc np q p')
        by_cases hp' : p' = np
        · rw [hp', Function.update_self]
          exact ⟨fun _ => ⟨_, rfl⟩, fun hn => absurd rfl hn⟩
        · rw [Function.update_of_ne hp', ho₁.others p' hp']
          exact hq.procs p'
    · exact Tracks.pure hq

theorem closeFiles_ledgers (fds : List (Fin NOFILE)) (hl : Balanced pages 0 Book.idle (t, b)) :
    Ledgers (fds.forM fun fd => do
      let k ← get
      match (k.proc p).ofile fd with
      | none => pure ()
      | some f =>
        fileclose f
        onTables fun t => t.setOfile p fd none) (t, b) (fun _ l =>
      Balanced pages 0 Book.idle l ∧ OnlyFiles p t l.1 ∧
        ∀ fd, fd ∈ fds ∨ (t.proc p).ofile fd = none → (l.1.proc p).ofile fd = none) := by
  induction fds generalizing t b with
  | nil => exact Tracks.pure ⟨hl, OnlyFiles.of_eq rfl, fun fd h => h.resolve_left List.not_mem_nil⟩
  | cons i fds ih =>
    have hstep : Ledgers (do
        let k ← get
        match (k.proc p).ofile i with
        | none => pure ()
        | some f =>
          fileclose f
          onTables fun t => t.setOfile p i none) (t, b) (fun _ l =>
        Balanced pages 0 Book.idle l ∧ OnlyFiles p t l.1 ∧
          ∀ fd, fd = i ∨ (t.proc p).ofile fd = none → (l.1.proc p).ofile fd = none) := by
      refine Tracks.get_bind fun k hk => ?_
      obtain rfl := toTables_eq hk
      split
      next hi =>
        refine Tracks.pure ⟨hl, OnlyFiles.of_eq rfl, fun fd h => ?_⟩
        rcases h with rfl | h
        · exact hi
        · exact h
      next f hi =>
        apply (fileclose_ledgers hl).bind
        rintro _ ⟨t₁, b₁⟩ ⟨h₁, hp₁⟩
        have hp₁ : t₁.proc = k.proc := hp₁
        have hi₁ : (t₁.proc p).ofile i = some f := by
          rw [hp₁]
          exact hi
        have h₂ := h₁.clearOfile hi₁
        rw [sub_add_cancel] at h₂
        apply onTables_ledgers
        refine ⟨h₂, (OnlyFiles.of_eq hp₁).trans (.setOfile ..), fun fd h => ?_⟩
        change ((t₁.setOfile p i none).proc p).ofile fd = none
        rw [proc_setOfile, hp₁]
        by_cases hfi : fd = i
        · rw [hfi]
          exact Function.update_self ..
        · exact (Function.update_of_ne hfi ..).trans (h.resolve_left hfi)
    apply hstep.bind
    rintro _ ⟨t₁, b₁⟩ ⟨h₁, ho₁, hn₁⟩
    refine (ih h₁).post ?_
    rintro _ ⟨t₂, b₂⟩ ⟨h₂, ho₂, hn₂⟩
    refine ⟨h₂, ho₁.trans ho₂, fun fd h => hn₂ fd ?_⟩
    rcases h with h | h
    · rcases List.mem_cons.mp h with rfl | h
      · exact Or.inr (hn₁ fd (Or.inl rfl))
      · exact Or.inl h
    · exact Or.inr (hn₁ fd (Or.inr h))

theorem exit_ledgers (hq : Quiet pages (t, b)) (hs : (t.proc p).state = .live) :
    Ledgers (exit p) (t, b) (fun _ l => Quiet pages l) := by
  unfold exit
  split
  · exact Tracks.throw _
  · apply (closeFiles_ledgers _ hq.balanced).bind
    rintro _ ⟨t₁, b₁⟩ ⟨h₁, ho₁, hn₁⟩
    refine Tracks.get_bind fun k hk => ?_
    obtain rfl := toTables_eq hk
    obtain ⟨cwd, hcwd⟩ := (hq.procs p).live hs
    have hcwd₁ : (k.proc p).cwd = some cwd := ho₁.cwd.trans hcwd
    have hk' : cwdOf k p = cwd := cwdOf_eq hcwd₁
    rw [hk']
    set q := ((k.proc p).setCwd none).setState .zombie with hq'
    -- the reference of the current directory goes
    have hu := users_setProc k.toTables p q
    rw [Proc.use_of_cwd hcwd₁, Proc.use_of_none (q := q) rfl, add_zero] at hu
    set b₀ := Book.idle.addRefs (k.toTables.setProc p q).users with hb₀
    have hb : b₁ = b₀.take cwd := by
      rw [hb₀, ← Book.addRefs_single, hu]
      exact h₁.book
    have hput : Ledgers (transaction (onVol (iput cwd))) (k.toTables, b₁)
        (fun _ l => l = (k.toTables, b₀)) := by
      refine transaction_onVol (F := fun _ => b₀) ?_ fun _ => rfl
      rw [hb]
      exact iput_take_books (b := b₀.enter)
    apply hput.bind
    rintro _ _ rfl
    apply onTables_bind
    refine Tracks.pure ⟨⟨h₁.sound.setProc rfl, rfl⟩, fun p' => ?_⟩
    change ProcOk (Function.update k.proc p q p')
    by_cases hp' : p' = p
    · rw [hp', Function.update_self]
      exact ⟨fun hn => (nomatch hn), fun _ => ⟨rfl, fun fd => hn₁ fd (Or.inl (List.mem_finRange fd))⟩⟩
    · rw [Function.update_of_ne hp']
      have hother : k.proc p' = t.proc p' := ho₁.others p' hp'
      rw [hother]
      exact hq.procs p'

theorem wait_ledgers (hq : Quiet pages (t, b)) (child : Fin NPROC) :
    Ledgers (wait child) (t, b) (fun _ l => Quiet pages l) := by
  refine Tracks.get_bind fun k hk => ?_
  obtain rfl := toTables_eq hk
  split
  next hz =>
    obtain ⟨hcwd, hnone⟩ := (hq.procs child).gone (by rw [hz]; decide)
    apply onTables_bind
    refine Tracks.pure ⟨⟨hq.balanced.sound.setProc rfl, ?_⟩, ?_⟩
    · change b = Book.idle.addRefs (k.toTables.setProc child ((k.proc child).setState .unused)).users
      have hu : (k.toTables.setProc child ((k.proc child).setState .unused)).users = k.users :=
        users_setProc_same rfl
      rw [hu]
      exact hq.balanced.book
    · exact procs_setProc hq.procs ⟨fun hn => (nomatch hn), fun _ => ⟨hcwd, hnone⟩⟩
  · exact Tracks.pure hq

theorem syscall_ledgers (hq : Quiet pages (t, b)) (hs : (t.proc p).state = .live) (c : Call) :
    Ledgers (syscall p c) (t, b) (fun _ l => Quiet pages l) := by
  cases c with
  | «open» path omode => exact sysOpen_ledgers hq hs path omode
  | mkdir path => exact sysMake_ledgers hq path _ _ _
  | mknod path major minor => exact sysMake_ledgers hq path _ _ _
  | link old new => exact sysLink_ledgers hq old new
  | unlink path => exact sysUnlink_ledgers hq path
  | chdir path => exact sysChdir_ledgers hq hs path
  | dup fd => exact sysDup_ledgers hq hs fd
  | close fd => exact sysClose_ledgers hq hs fd
  | read fd dst n other =>
    refine Tracks.get_bind fun k hk => ?_
    split
    · exact Tracks.pure hq
    · exact fileread_ledgers hq _ dst n other
  | write fd src n other =>
    refine Tracks.get_bind fun k hk => ?_
    split
    · exact Tracks.pure hq
    · exact filewrite_ledgers hq _ src n other
  | fstat fd copied => exact sysFstat_ledgers hq fd copied
  | pipe copied => exact sysPipe_ledgers hq hs copied
  | exec path env => exact sysExec_ledgers hq path env
  | fork room => exact fork_ledgers hq room
  | exit => exact exit_ledgers hq hs
  | wait child => exact wait_ledgers hq child

end Calls

end Xv6.Sysfile

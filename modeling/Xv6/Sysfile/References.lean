import Xv6.Sysfile.Ledger

namespace Xv6.Sysfile

open Fs Lib.Command Lib.Transition

section Inodes

variable {b : Book} {ip dp cwd : Fin NINODE}

theorem edit_iupdate_keeps {α : Type} {k : VolM α} (f : Dinode → Dinode) {Q : α → Book → Prop}
    (hk : Books k b Q) :
    Books (do onFs (edit ip f); onFs (iupdate ip); k) b Q :=
  Tracks.keep_bind (onFs_keeps (edit_counts ip f)) fun _ =>
    Tracks.keep_bind (onFs_keeps (iupdate_counts ip)) fun _ => hk

theorem linkInode_bad_books : Books (linkInode.bad ip) (b.take ip) (fun _ b' => b' = b) := by
  apply ilock_books.bind
  rintro _ _ ⟨hl, rfl⟩
  apply edit_iupdate_keeps
  exact (iunlockput_books (b := b) hl).bind fun _ _ h => Tracks.pure h

theorem linkInode_books (cwd : Fin NINODE) (old new : List UInt8) :
    Books (linkInode cwd old new) b (fun _ b' => b' = b) := by
  apply (namei_books cwd old).bind
  rintro r _ rfl
  match r with
  | none => exact Tracks.pure rfl
  | some ip =>
    apply ilock_books.bind
    rintro _ _ ⟨hl, rfl⟩
    refine Tracks.get_bind fun v _ => ?_
    split
    · exact (iunlockput_books (b := b) hl).bind fun _ _ h => Tracks.pure h
    · apply edit_iupdate_keeps
      apply iunlock_books.bind
      rintro _ _ rfl
      have hun : ((b.foundInode (some ip)).lock ip).unlock ip = b.take ip :=
        Book.unlock_lock (b.take ip) ip hl
      rw [hun]
      apply (nameiparent_books cwd new).bind
      rintro r _ rfl
      match r with
      | none => exact linkInode_bad_books
      | some (dp, name) =>
        apply ilock_books.bind
        rintro _ _ ⟨hl', rfl⟩
        refine Tracks.get_bind fun v _ => ?_
        have hput : Books (iunlockput dp) (((b.take ip).take dp).lock dp)
            (fun _ b' => b' = b.take ip) := iunlockput_books hl'
        split
        · apply hput.bind
          rintro _ _ rfl
          exact linkInode_bad_books
        · refine Tracks.keep_bind (dirlink_keeps _ _ _) fun linked => ?_
          split
          · apply hput.bind
            rintro _ _ rfl
            exact iput_take_books.bind fun _ _ h => Tracks.pure h
          · apply hput.bind
            rintro _ _ rfl
            exact linkInode_bad_books

theorem book_swap (h : dp ≠ ip) :
    (((b.take dp).lock dp).take ip).lock ip = (((b.take ip).lock ip).take dp).lock dp := by
  have hc := Book.lock_comm ((b.take dp).take ip) dp ip h
  rw [Book.take_comm b dp ip] at hc
  exact (congrArg (fun x => (x.lock dp).lock ip) (Book.take_comm b dp ip)).trans hc

theorem removeEntry_books (hne : dp ≠ ip) (hdp : b.locked dp = false) (hip : b.locked ip = false)
    (off : Nat) :
    Books (removeEntry dp ip off) ((((b.take dp).lock dp).take ip).lock ip) (fun _ b' => b' = b) := by
  have hdp' : ((b.take ip).lock ip).locked dp = false := (Function.update_of_ne hne ..).trans hdp
  have hput : Books (do
      iunlockput dp
      onFs (edit ip fun din => { din with nlink := din.nlink - 1 })
      onFs (iupdate ip)
      iunlockput ip
      pure 0) ((((b.take dp).lock dp).take ip).lock ip) (fun (_ : Int) b' => b' = b) := by
    rw [book_swap hne]
    apply (iunlockput_books hdp').bind
    rintro _ _ rfl
    apply edit_iupdate_keeps
    exact (iunlockput_books hip).bind fun _ _ h => Tracks.pure h
  refine Tracks.get_bind fun v _ => Tracks.keep_bind (onFs_keeps (writei_counts _ _ _ _)) fun r => ?_
  split
  · exact Tracks.throw _
  · dsimp only
    split
    · exact edit_iupdate_keeps _ hput
    · exact hput

theorem isFullDir_keeps (ip : Fin NINODE) : Keeps Vol.book (isFullDir ip) := by
  refine Keeps.get_bind fun v => ?_
  split
  · exact (onFs_keeps (isdirempty_counts ip)).bind fun _ => Keeps.pure _
  · exact Keeps.pure _

theorem ne_of_unlocked (h : (b.lock dp).locked ip = false) : dp ≠ ip ∧ b.locked ip = false := by
  have hne : dp ≠ ip := by
    rintro rfl
    exact Bool.false_ne_true (h.symm.trans (Function.update_self ..))
  exact ⟨hne, (Function.update_of_ne hne.symm ..).symm.trans h⟩

theorem unlinkInode_books (cwd : Fin NINODE) (path : List UInt8) :
    Books (unlinkInode cwd path) b (fun _ b' => b' = b) := by
  apply (nameiparent_books cwd path).bind
  rintro r _ rfl
  match r with
  | none => exact Tracks.pure rfl
  | some (dp, name) =>
    apply ilock_books.bind
    rintro _ _ ⟨hl, rfl⟩
    have hbad : Books (unlinkInode.bad dp) ((b.take dp).lock dp) (fun _ b' => b' = b) :=
      (iunlockput_books (b := b) hl).bind fun _ _ h => Tracks.pure h
    split
    · exact hbad
    · apply (onFs_finds (dirlookup_counts dp name)).bind
      rintro r _ rfl
      match r with
      | none => exact hbad
      | some (ip, off) =>
        apply ilock_books.bind
        rintro _ _ ⟨hl', rfl⟩
        obtain ⟨hne, hip⟩ := ne_of_unlocked (b := b.take dp) hl'
        refine Tracks.get_bind fun v _ => ?_
        split
        · exact Tracks.throw _
        · refine Tracks.keep_bind (isFullDir_keeps ip) fun full => ?_
          split
          · apply (iunlockput_books (b := (b.take dp).lock dp) hl').bind
            rintro _ _ rfl
            exact hbad
          · exact removeEntry_books (b := b) hne hl hip off

theorem createEntries_keeps (dp ip : Fin NINODE) (name : List UInt8) (type : Int16) :
    Keeps Vol.book (createEntries dp ip name type) := by
  have hlast : Keeps Vol.book (do
      let v ← get
      if !(← dirlink dp name (v.inode ip).inum) then throw Panic.createDirlink) := by
    refine Keeps.get_bind fun v => (dirlink_keeps _ _ _).bind fun linked => ?_
    split
    · exact Keeps.throw _
    · exact Keeps.pure _
  unfold createEntries
  dsimp only
  split
  · refine (onFs_keeps (edit_counts dp _)).bind fun _ => ?_
    refine (onFs_keeps (iupdate_counts dp)).bind fun _ => Keeps.get_bind fun v => ?_
    refine (dirlink_keeps _ _ _).bind fun linked => ?_
    split
    · exact Keeps.throw _
    · refine (dirlink_keeps _ _ _).bind fun linked => ?_
      split
      · exact Keeps.throw _
      · exact hlast
  · exact hlast

def lockedRef (b : Book) (r : Option (Fin NINODE)) (b' : Book) : Prop :=
  match r with
  | none => b' = b
  | some ip => b.locked ip = false ∧ b' = (b.take ip).lock ip

theorem create_books (cwd : Fin NINODE) (path : List UInt8) (type major minor : Int16) :
    Books (create cwd path type major minor) b (lockedRef b) := by
  apply (nameiparent_books cwd path).bind
  rintro r _ rfl
  match r with
  | none => exact Tracks.pure rfl
  | some (dp, name) =>
    apply ilock_books.bind
    rintro _ _ ⟨hl, rfl⟩
    apply (onFs_finds (dirlookup_counts dp name)).bind
    rintro r _ rfl
    match r with
    | some (ip, _) =>
      have hput : Books (iunlockput dp) (((b.take dp).lock dp).take ip) (fun _ b' => b' = b.take ip) := by
        have he : ((b.take dp).lock dp).take ip = ((b.take ip).take dp).lock dp :=
          congrArg (fun x => x.lock dp) (b.take_comm dp ip)
        rw [he]
        exact iunlockput_books hl
      apply hput.bind
      rintro _ _ rfl
      apply ilock_books.bind
      rintro _ _ ⟨hl', rfl⟩
      refine Tracks.get_bind fun v _ => ?_
      split
      · exact Tracks.pure ⟨hl', rfl⟩
      · exact (iunlockput_books (b := b) hl').bind fun _ _ h => Tracks.pure h
    | none =>
      refine Tracks.get_bind fun v _ => ?_
      apply (onFs_takes (ialloc_counts _ _)).bind
      rintro ip _ rfl
      apply ilock_books.bind
      rintro _ _ ⟨hl', rfl⟩
      obtain ⟨hne, hip⟩ := ne_of_unlocked (b := b.take dp) hl'
      apply edit_iupdate_keeps
      refine Tracks.keep_bind (createEntries_keeps _ _ _ _) fun _ => ?_
      have hput : Books (iunlockput dp) ((((b.take dp).lock dp).take ip).lock ip)
          (fun _ b' => b' = (b.take ip).lock ip) := by
        rw [book_swap hne]
        exact iunlockput_books ((Function.update_of_ne hne ..).trans hl)
      apply hput.bind
      rintro _ _ rfl
      exact Tracks.pure ⟨hip, rfl⟩

theorem openInode_books (cwd : Fin NINODE) (path : List UInt8) (omode : UInt32) :
    Books (openInode cwd path omode) b (lockedRef b) := by
  unfold openInode
  split
  · exact create_books _ _ _ _ _
  · apply (namei_books cwd path).bind
    rintro r _ rfl
    match r with
    | none => exact Tracks.pure rfl
    | some ip =>
      apply ilock_books.bind
      rintro _ _ ⟨hl, rfl⟩
      refine Tracks.get_bind fun v _ => ?_
      split
      · exact (iunlockput_books (b := b) hl).bind fun _ _ h => Tracks.pure h
      · exact Tracks.pure ⟨hl, rfl⟩

theorem chdirInode_books (cwd : Fin NINODE) (path : List UInt8) :
    Books (chdirInode cwd path) (b.take cwd)
      (fun r b' => b' = match r with | none => b.take cwd | some ip => b.take ip) := by
  apply (namei_books cwd path).bind
  rintro r _ rfl
  match r with
  | none => exact Tracks.pure rfl
  | some ip =>
    apply ilock_books.bind
    rintro _ _ ⟨hl, rfl⟩
    refine Tracks.get_bind fun v _ => ?_
    split
    · exact (iunlockput_books (b := b.take cwd) hl).bind fun _ _ h => Tracks.pure h
    · apply iunlock_books.bind
      rintro _ _ rfl
      have hun : (((b.take cwd).take ip).lock ip).unlock ip = (b.take ip).take cwd :=
        (Book.unlock_lock _ ip hl).trans (b.take_comm cwd ip)
      change Books _ ((((b.take cwd).take ip).lock ip).unlock ip) _
      rw [hun]
      exact iput_take_books.bind fun _ _ h => Tracks.pure h

theorem loadseg_counts (ip : Fin NINODE) (mapped : Nat → Bool) (offset sz fuel i : Nat) :
    Keeps State.counts (loadseg ip mapped offset sz fuel i) := by
  induction fuel generalizing i with
  | zero => exact Keeps.pure _
  | succ fuel ih =>
    rw [loadseg]
    split
    · split
      · refine (readi_counts _ _ _ _).bind fun bs => ?_
        split
        · exact Keeps.pure _
        · exact ih _
      · exact Keeps.throw _
    · exact Keeps.pure _

theorem loadSegments_counts (ip : Fin NINODE) (env : ExecEnv) (elf : Elfhdr) (fuel i : Nat) :
    Keeps State.counts (loadSegments ip env elf fuel i) := by
  induction fuel generalizing i with
  | zero => exact Keeps.pure _
  | succ fuel ih =>
    rw [loadSegments]
    split
    · refine (readi_counts _ _ _ _).bind fun bs => ?_
      split
      · exact Keeps.pure _
      · dsimp only
        split
        · exact ih _
        · split
          · exact Keeps.pure _
          · split
            · exact Keeps.pure _
            · split
              · exact Keeps.pure _
              · split
                · exact Keeps.pure _
                · refine (loadseg_counts _ _ _ _ _ _).bind fun ok => ?_
                  split
                  · exact ih _
                  · exact Keeps.pure _
    · exact Keeps.pure _

theorem loadImage_counts (ip : Fin NINODE) (env : ExecEnv) : Keeps State.counts (loadImage ip env) := by
  refine (readi_counts _ _ _ _).bind fun bs => ?_
  split
  · exact Keeps.pure _
  · dsimp only
    split
    · exact Keeps.pure _
    · split
      · exact Keeps.pure _
      · exact loadSegments_counts _ _ _ _ _

end Inodes

abbrev Ledgers {α : Type} (c : KM α) (l : Ledger) (Q : α → Ledger → Prop) : Prop :=
  Tracks Kernel.ledger c l Q

section Tables

variable {α : Type} {pages : List Nat} {e : Fin NFILE → ℤ} {h : Book} {t : Tables} {b : Book}
  {f : Fin NFILE} {p : Fin NPROC} {ip : Fin NINODE}

theorem onVol_ledgers {c : VolM α} {Q : α → Book → Prop} (hc : Books c b Q) :
    Ledgers (onVol c) (t, b) (fun a l => l.1 = t ∧ Q a l.2) := by
  intro k hk
  apply Meets.zoom
  exact (hc k.vol (congrArg Prod.snd hk)).post fun a v hQ => ⟨congrArg Prod.fst hk, hQ⟩

theorem onVol_bind {β : Type} {c : VolM α} {g : α → KM β} {F : α → Book} {Q : β → Ledger → Prop}
    (hc : Books c b (fun a b' => b' = F a)) (hg : ∀ a, Ledgers (g a) (t, F a) Q) :
    Ledgers (onVol c >>= g) (t, b) Q := by
  apply (onVol_ledgers hc).bind
  rintro a ⟨_, _⟩ ⟨rfl, rfl⟩
  exact hg a

theorem onTables_bind {g : Tables → Tables} {c : KM α} {Q : α → Ledger → Prop}
    (hc : Ledgers c (g t, b) Q) : Ledgers (do onTables g; c) (t, b) Q := by
  refine Tracks.set_bind (fun k hk => ?_) hc
  obtain ⟨rfl, rfl⟩ := Prod.mk.inj hk
  rfl

theorem onTables_ledgers {g : Tables → Tables} {Q : Unit → Ledger → Prop} (hQ : Q () (g t, b)) :
    Ledgers (onTables g) (t, b) Q := by
  refine Tracks.set fun k hk => ?_
  obtain ⟨rfl, rfl⟩ := Prod.mk.inj hk
  exact hQ

theorem toTables_eq {k : Kernel} (hk : k.ledger = (t, b)) : k.toTables = t := congrArg Prod.fst hk

theorem Sound.setFile (hs : Sound pages e t) {x : File} {n : ℤ}
    (hn : (x.ref : ℤ) = (t.ftable f).ref + n) (h0 : x.ref = 0 → x.type = .none)
    (hx : ∀ a w, x.IsEnd a w ↔ (t.ftable f).IsEnd a w) :
    Sound pages (e + Pi.single f n) (t.setFile f x) := by
  refine ⟨fun g => ?_, fun g => ?_, hs.pipes.setFile hx⟩
  · have hg := hs.files g
    change ((Function.update t.ftable f x g).ref : ℤ) =
      t.slots g + (e g + (Pi.single f n : Fin NFILE → ℤ) g)
    by_cases hgf : g = f
    · subst hgf
      rw [Function.update_self, Pi.single_eq_same]
      omega
    · rw [Function.update_of_ne hgf, Pi.single_eq_of_ne hgf, add_zero]
      exact hg
  · change (Function.update t.ftable f x g).ref = 0 → (Function.update t.ftable f x g).type = .none
    by_cases hgf : g = f
    · subst hgf
      rw [Function.update_self]
      exact h0
    · rw [Function.update_of_ne hgf]
      exact hs.closed g

theorem Sound.setOfile (hs : Sound pages e t) {fd : Fin NOFILE} {o : Option (Fin NFILE)}
    {e' : Fin NFILE → ℤ}
    (he : ∀ f, e' f = e f + (if (t.proc p).ofile fd = some f then 1 else 0) -
      (if o = some f then 1 else 0)) :
    Sound pages e' (t.setOfile p fd o) := by
  refine ⟨fun g => ?_, hs.closed, hs.pipes.keep (fun _ _ _ => Iff.rfl) rfl rfl rfl⟩
  have hg := hs.files g
  have hsl := slots_setOfile t p fd o g
  rw [he g]
  change ((t.ftable g).ref : ℤ) = _
  split_ifs at hsl ⊢ <;> omega

theorem Sound.setProc (hs : Sound pages e t) {q : Proc} (hq : q.ofile = (t.proc p).ofile) :
    Sound pages e (t.setProc p q) := by
  refine ⟨fun g => ?_, hs.closed, hs.pipes.keep (fun _ _ _ => Iff.rfl) rfl rfl rfl⟩
  rw [slots_setProc_same hq]
  exact hs.files g

theorem Balanced.setFile (hl : Balanced pages e h (t, b)) {x : File} {n : ℤ}
    (hn : (x.ref : ℤ) = (t.ftable f).ref + n) (h0 : x.ref = 0 → x.type = .none)
    (hx : ∀ a w, x.IsEnd a w ↔ (t.ftable f).IsEnd a w) (hu : x.use = (t.ftable f).use) :
    Balanced pages (e + Pi.single f n) h (t.setFile f x, b) := by
  refine ⟨hl.sound.setFile hn h0 hx, ?_⟩
  rw [users_setFile_same hu]
  exact hl.book

theorem use_of_type {x : File} (h : x.type ≠ .inode ∧ x.type ≠ .device) : x.use = 0 :=
  if_neg fun hh => hh.2.elim h.1 h.2

theorem use_none {x : File} (h : x.type = .none) : x.use = 0 :=
  use_of_type (by rw [h]; exact ⟨nofun, nofun⟩)

theorem filealloc_ledgers (hl : Balanced pages e h (t, b)) :
    Ledgers filealloc (t, b) (fun r l =>
      match r with
      | none => l = (t, b)
      | some f => (t.ftable f).ref = 0 ∧ l = (t.setFile f ((t.ftable f).withRef 1), b) ∧
        Balanced pages (e + Pi.single f 1) h l) := by
  refine Tracks.get_bind fun k hk => ?_
  obtain rfl := toTables_eq hk
  split
  · exact Tracks.pure rfl
  next f hf =>
    have h0 : (k.ftable f).ref = 0 := by simpa using List.find?_some hf
    have htype : (k.ftable f).type = .none := hl.sound.closed f h0
    have hend : ∀ x : File, x.type = .none → ∀ a w, ¬ x.IsEnd a w := by
      intro x hx
      refine not_isEnd_of_type ?_
      rw [hx]
      nofun
    apply onTables_bind
    refine Tracks.pure ⟨h0, rfl, hl.setFile ?_ nofun (fun a w => ?_) ?_⟩
    · rw [h0]
      rfl
    · exact iff_of_false (hend ((k.ftable f).withRef 1) htype a w) (hend _ htype a w)
    · rw [use_none htype]
      exact use_none htype

theorem Balanced.withRef (hl : Balanced pages e h (t, b)) {m : Nat} {n : ℤ}
    (hm : 0 < m) (hpos : 0 < (t.ftable f).ref) (hn : (m : ℤ) = (t.ftable f).ref + n) :
    Balanced pages (e + Pi.single f n) h (t.setFile f ((t.ftable f).withRef m), b) := by
  refine hl.setFile hn (fun h0 => absurd h0 hm.ne') (fun a w => ?_) ?_
  · exact ⟨fun he => ⟨hpos, he.type, he.page, he.writable⟩,
      fun he => ⟨hm, he.type, he.page, he.writable⟩⟩
  · have hiff : ((t.ftable f).withRef m).HasInode ↔ (t.ftable f).HasInode :=
      ⟨fun hh => ⟨hpos, hh.2⟩, fun hh => ⟨hm, hh.2⟩⟩
    simp only [File.use, hiff]
    rfl

theorem filedup_ledgers (hl : Balanced pages e h (t, b)) :
    Ledgers (filedup f) (t, b) (fun _ l => Balanced pages (e + Pi.single f 1) h l ∧ l.1.proc = t.proc) := by
  refine Tracks.get_bind fun k hk => ?_
  obtain rfl := toTables_eq hk
  split
  · exact Tracks.throw _
  next hpos =>
    apply onTables_ledgers
    exact ⟨hl.withRef (Nat.succ_pos _) (by omega) (by push_cast; rfl), rfl⟩

theorem fdalloc_ledgers (hl : Balanced pages e h (t, b)) :
    Ledgers (fdalloc p f) (t, b) (fun r l =>
      match r with
      | none => l = (t, b)
      | some fd => (t.proc p).ofile fd = none ∧ l = (t.setOfile p fd (some f), b) ∧
        Balanced pages (e - Pi.single f 1) h l) := by
  refine Tracks.get_bind fun k hk => ?_
  obtain rfl := toTables_eq hk
  split
  · exact Tracks.pure rfl
  next fd hfd =>
    have h0 : (k.proc p).ofile fd = none := by simpa using List.find?_some hfd
    apply onTables_bind
    refine Tracks.pure ⟨h0, rfl, hl.sound.setOfile fun g => ?_, ?_⟩
    · rw [h0, Pi.sub_apply, Pi.single_apply]
      simp only [reduceCtorEq, if_false, Option.some.injEq, add_zero]
      congr 1
      exact if_congr eq_comm rfl rfl
    · rw [users_setOfile]
      exact hl.book

theorem transaction_ledgers {c : KM α} {Q Q' : α → Ledger → Prop} (hc : Ledgers c (t, b.enter) Q')
    (hQ : ∀ a t' b', Q' a (t', b') → Q a (t', b'.leave)) : Ledgers (transaction c) (t, b) Q := by
  apply onVol_bind beginOp_books
  intro _
  apply hc.bind
  rintro a ⟨t', b'⟩ hq
  apply onVol_bind endOp_books
  intro _
  exact Tracks.pure (hQ a t' b' hq)

theorem transaction_onVol {c : VolM α} {F : α → Book} {Q : α → Ledger → Prop}
    (hc : Books c b.enter (fun a b' => b' = (F a).enter)) (hQ : ∀ a, Q a (t, F a)) :
    Ledgers (transaction (onVol c)) (t, b) Q := by
  refine transaction_ledgers (onVol_ledgers hc) ?_
  rintro a _ _ ⟨rfl, rfl⟩
  exact hQ a

theorem isEnd_closed (t : Tables) (f g : Fin NFILE) (a : Nat) (w : Bool) :
    ((t.setFile f (t.ftable f).closed).ftable g).IsEnd a w ↔ g ≠ f ∧ (t.ftable g).IsEnd a w := by
  change (Function.update t.ftable f (t.ftable f).closed g).IsEnd a w ↔ _
  by_cases hg : g = f
  · rw [hg, Function.update_self]
    exact iff_of_false (not_isEnd_of_ref rfl a w) fun hh => hh.1 rfl
  · rw [Function.update_of_ne hg]
    exact ⟨fun hh => ⟨hg, hh⟩, And.right⟩

theorem Sound.files_closed (hs : Sound pages e t) (h1 : (t.ftable f).ref = 1) {t' : Tables}
    (hf : t'.ftable = (t.setFile f (t.ftable f).closed).ftable) (hp : t'.proc = t.proc)
    (hpipes : Pipes pages t') : Sound pages (e - Pi.single f 1) t' := by
  have hslots : ∀ g, t'.slots g = t.slots g := by
    intro g
    rw [Tables.slots, Tables.slots, hp]
  refine ⟨fun g => ?_, fun g => ?_, hpipes⟩
  · have hg := hs.files g
    rw [hslots, hf, Pi.sub_apply]
    change ((Function.update t.ftable f (t.ftable f).closed g).ref : ℤ) = _
    by_cases hgf : g = f
    · subst hgf
      rw [Function.update_self, Pi.single_eq_same]
      change ((0 : Nat) : ℤ) = _
      omega
    · rw [Function.update_of_ne hgf, Pi.single_eq_of_ne hgf, sub_zero]
      exact hg
  · rw [hf]
    change (Function.update t.ftable f (t.ftable f).closed g).ref = 0 →
      (Function.update t.ftable f (t.ftable f).closed g).type = .none
    by_cases hgf : g = f
    · subst hgf
      rw [Function.update_self]
      exact fun _ => rfl
    · rw [Function.update_of_ne hgf]
      exact hs.closed g

theorem use_closed (x : File) : x.closed.use = 0 := if_neg fun hh => absurd hh.1 (lt_irrefl 0)

theorem pipeclose_ledgers {a : Nat} {w : Bool} {Q : Unit → Ledger → Prop}
    (hQ : ∀ x : Pipe, x.isOpen w = false → x.isOpen (!w) = (t.pipe a).isOpen (!w) →
      Q () ({ t.setPipe a x with
        freelist := if x.isOpen (!w) then t.freelist else a :: t.freelist }, b)) :
    Ledgers (pipeclose a w) (t, b) Q := by
  apply onTables_bind
  refine Tracks.get_bind fun k hk => ?_
  have hpipe : ∀ x, (t.setPipe a x).pipe a = x := fun x => Function.update_self ..
  rw [toTables_eq hk, hpipe]
  cases w with
  | false =>
    have := hQ ⟨false, (t.pipe a).writeopen⟩ rfl rfl
    cases hw : (t.pipe a).writeopen with
    | false =>
      rw [hw] at this
      exact onTables_ledgers (g := fun t => { t with freelist := a :: t.freelist }) this
    | true =>
      rw [hw] at this
      exact Tracks.pure this
  | true =>
    have := hQ ⟨(t.pipe a).readopen, false⟩ rfl rfl
    cases hr : (t.pipe a).readopen with
    | false =>
      rw [hr] at this
      exact onTables_ledgers (g := fun t => { t with freelist := a :: t.freelist }) this
    | true =>
      rw [hr] at this
      exact Tracks.pure this

theorem fileclose_ledgers (hl : Balanced pages e h (t, b)) :
    Ledgers (fileclose f) (t, b) (fun _ l =>
      Balanced pages (e - Pi.single f 1) h l ∧ l.1.proc = t.proc) := by
  refine Tracks.get_bind fun k hk => ?_
  obtain rfl := toTables_eq hk
  dsimp only
  split
  · exact Tracks.throw _
  · split
    next hpos hmore =>
      apply onTables_ledgers
      have hm := hl.withRef (f := f) (m := (k.ftable f).ref - 1) (n := -1) hmore (by omega) (by omega)
      rw [Pi.single_neg, ← sub_eq_add_neg] at hm
      exact ⟨hm, rfl⟩
    next hpos hmore =>
      have h1 : (k.ftable f).ref = 1 := by omega
      apply onTables_bind
      -- the tables without the file, where it was no end of a pipe
      have hsound : (k.ftable f).type ≠ .pipe →
          Sound pages (e - Pi.single f 1) (k.toTables.setFile f (k.ftable f).closed) := by
        intro ht
        refine hl.sound.files_closed h1 rfl rfl (hl.sound.pipes.setFile fun a w => ?_)
        exact iff_of_false (not_isEnd_of_ref rfl a w) (not_isEnd_of_type ht a w)
      have husers : (k.toTables.setFile f (k.ftable f).closed).users + (k.ftable f).use =
          k.toTables.users := by
        have := users_setFile k.toTables f (k.ftable f).closed
        rwa [use_closed, add_zero] at this
      have hinode : (k.ftable f).HasInode →
          Ledgers (transaction (onVol (iput (k.ftable f).ip)))
            (k.toTables.setFile f (k.ftable f).closed, b) (fun _ l =>
              Balanced pages (e - Pi.single f 1) h l ∧ l.1.proc = k.proc) := by
        intro hi
        have ht : (k.ftable f).type ≠ .pipe := by
          rcases hi.2 with hi | hi <;> rw [hi] <;> nofun
        have huse : (k.ftable f).use = Pi.single (k.ftable f).ip 1 := if_pos hi
        have hb : b = (h.addRefs (k.toTables.setFile f (k.ftable f).closed).users).take
            (k.ftable f).ip := by
          rw [← Book.addRefs_single, ← huse, husers]
          exact hl.book
        refine transaction_onVol
          (F := fun _ => h.addRefs (k.toTables.setFile f (k.ftable f).closed).users) ?_ ?_
        · rw [hb]
          exact iput_take_books (b := (h.addRefs (k.toTables.setFile f (k.ftable f).closed).users).enter)
        · exact fun _ => ⟨⟨hsound ht, rfl⟩, rfl⟩
      cases ht : (k.ftable f).type with
      | none =>
        refine Tracks.pure ⟨⟨hsound (by rw [ht]; nofun), ?_⟩, rfl⟩
        rw [use_none ht, add_zero] at husers
        rw [husers]
        exact hl.book
      | inode => exact hinode ⟨by omega, Or.inl ht⟩
      | device => exact hinode ⟨by omega, Or.inr ht⟩
      | pipe =>
        have hend : (k.ftable f).IsEnd (k.ftable f).pipe (k.ftable f).writable :=
          ⟨by omega, ht, rfl, rfl⟩
        refine pipeclose_ledgers fun x hself hother => ⟨⟨?_, ?_⟩, rfl⟩
        · refine hl.sound.files_closed h1 rfl rfl ?_
          exact hl.sound.pipes.close hend (isEnd_closed k.toTables f) rfl hself hother rfl rfl
        · rw [use_of_type (by rw [ht]; exact ⟨nofun, nofun⟩), add_zero] at husers
          change b = h.addRefs (k.toTables.setFile f (k.ftable f).closed).users
          rw [husers]
          exact hl.book

theorem fileclose_forM (fs : List (Fin NFILE))
    (hl : Balanced pages (e + (fs.map fun f => Pi.single f 1).sum) h (t, b)) :
    Ledgers (fs.forM fileclose) (t, b) (fun _ l => Balanced pages e h l ∧ l.1.proc = t.proc) := by
  induction fs generalizing t b with
  | nil =>
    rw [List.map_nil, List.sum_nil, add_zero] at hl
    exact Tracks.pure ⟨hl, rfl⟩
  | cons f fs ih =>
    rw [List.map_cons, List.sum_cons, add_comm (Pi.single f 1), ← add_assoc] at hl
    apply (fileclose_ledgers hl).bind
    rintro _ ⟨t₁, b₁⟩ ⟨h₁, hp₁⟩
    rw [add_sub_cancel_right] at h₁
    exact (ih h₁).post fun _ l h₂ => ⟨h₂.1, h₂.2.trans hp₁⟩

theorem fileclose_two {f g : Fin NFILE} {Q : α → Ledger → Prop} {c : KM α}
    (hl : Balanced pages (e + Pi.single f 1 + Pi.single g 1) h (t, b))
    (hc : ∀ l, Balanced pages e h l → l.1.proc = t.proc → Ledgers c l Q) :
    Ledgers (do fileclose f; fileclose g; c) (t, b) Q := by
  apply (fileclose_ledgers hl).bind
  rintro _ ⟨t₁, b₁⟩ ⟨h₁, hp₁⟩
  rw [add_right_comm, add_sub_cancel_right] at h₁
  apply (fileclose_ledgers h₁).bind
  rintro _ l₂ ⟨h₂, hp₂⟩
  rw [add_sub_cancel_right] at h₂
  exact hc l₂ h₂ (hp₂.trans hp₁)

theorem Balanced.openPipe {f₀ f₁ : Fin NFILE} {a : Nat} {rest : List Nat} (hne : f₀ ≠ f₁)
    (hl : Balanced pages e h (t, b)) (hf : t.freelist = a :: rest)
    (h₀ : 0 < (t.ftable f₀).ref ∧ (t.ftable f₀).type = .none)
    (h₁ : 0 < (t.ftable f₁).ref ∧ (t.ftable f₁).type = .none) :
    Balanced pages e h
      ((({ t with freelist := rest }.setPipe a ⟨true, true⟩).setFile f₀
        ((t.ftable f₀).asPipe a false)).setFile f₁ ((t.ftable f₁).asPipe a true), b) := by
  set t' := (({ t with freelist := rest }.setPipe a ⟨true, true⟩).setFile f₀
    ((t.ftable f₀).asPipe a false)).setFile f₁ ((t.ftable f₁).asPipe a true) with ht'
  have hat₁ : t'.ftable f₁ = (t.ftable f₁).asPipe a true := Function.update_self ..
  have hat₀ : t'.ftable f₀ = (t.ftable f₀).asPipe a false :=
    (Function.update_of_ne hne ..).trans (Function.update_self ..)
  have hrest : ∀ g, g ≠ f₀ → g ≠ f₁ → t'.ftable g = t.ftable g := fun g hg₀ hg₁ =>
    (Function.update_of_ne hg₁ ..).trans (Function.update_of_ne hg₀ ..)
  have hno : ∀ g, (t.ftable g).type = .none → ∀ a w, ¬ (t.ftable g).IsEnd a w := by
    intro g hg
    refine not_isEnd_of_type ?_
    rw [hg]
    nofun
  have hend : ∀ g a' w, (t'.ftable g).IsEnd a' w ↔
      (g = f₀ ∧ a' = a ∧ w = false) ∨ (g = f₁ ∧ a' = a ∧ w = true) ∨ (t.ftable g).IsEnd a' w := by
    intro g a' w
    by_cases hg₀ : g = f₀
    · subst hg₀
      rw [hat₀]
      constructor
      · exact fun he => Or.inl ⟨rfl, he.page.symm, he.writable.symm⟩
      · rintro (⟨-, rfl, rfl⟩ | ⟨hg, -, -⟩ | he)
        · exact ⟨h₀.1, rfl, rfl, rfl⟩
        · exact absurd hg hne
        · exact absurd he (hno g h₀.2 a' w)
    · by_cases hg₁ : g = f₁
      · subst hg₁
        rw [hat₁]
        constructor
        · exact fun he => Or.inr (Or.inl ⟨rfl, he.page.symm, he.writable.symm⟩)
        · rintro (⟨hg, -, -⟩ | ⟨-, rfl, rfl⟩ | he)
          · exact absurd hg hg₀
          · exact ⟨h₁.1, rfl, rfl, rfl⟩
          · exact absurd he (hno g h₁.2 a' w)
      · rw [hrest g hg₀ hg₁]
        simp [hg₀, hg₁]
  have href : ∀ g, (t'.ftable g).ref = (t.ftable g).ref := by
    intro g
    by_cases hg₀ : g = f₀
    · rw [hg₀, hat₀]
      rfl
    · by_cases hg₁ : g = f₁
      · rw [hg₁, hat₁]
        rfl
      · rw [hrest g hg₀ hg₁]
  have huse : ∀ g, (t'.ftable g).use = (t.ftable g).use := by
    intro g
    by_cases hg₀ : g = f₀
    · rw [hg₀, hat₀, use_none h₀.2]
      exact use_of_type ⟨nofun, nofun⟩
    · by_cases hg₁ : g = f₁
      · rw [hg₁, hat₁, use_none h₁.2]
        exact use_of_type ⟨nofun, nofun⟩
      · rw [hrest g hg₀ hg₁]
  refine ⟨⟨fun g => ?_, fun g hg => ?_, hl.sound.pipes.open hf hend rfl rfl rfl⟩, ?_⟩
  · rw [href]
    exact hl.sound.files g
  · rw [href] at hg
    have hg₀ : g ≠ f₀ := by
      rintro rfl
      omega
    have hg₁ : g ≠ f₁ := by
      rintro rfl
      omega
    change (t'.ftable g).type = _
    rw [hrest g hg₀ hg₁]
    exact hl.sound.closed g hg
  · have hu : t'.users = t.users := congrArg (· + ∑ p, (t.proc p).use) (Finset.sum_congr rfl fun g _ => huse g)
    rw [hu]
    exact hl.book

theorem kalloc_ledgers :
    Ledgers kalloc (t, b) (fun r l =>
      match r with
      | none => l = (t, b)
      | some a => ∃ rest, t.freelist = a :: rest ∧ l = ({ t with freelist := rest }, b)) := by
  refine Tracks.get_bind fun k hk => ?_
  obtain rfl := toTables_eq hk
  split
  next he => exact Tracks.pure rfl
  next a rest he =>
    apply onTables_bind
    exact Tracks.pure ⟨rest, he, rfl⟩

def PipeMade (pages : List Nat) (e : Fin NFILE → ℤ) (h : Book) (t : Tables)
    (r : Option (Fin NFILE × Fin NFILE)) (l : Ledger) : Prop :=
  l.1.proc = t.proc ∧
    match r with
    | none => Balanced pages e h l
    | some (f₀, f₁) => Balanced pages (e + Pi.single f₀ 1 + Pi.single f₁ 1) h l

theorem pipeallocBad_ledgers {t₀ : Tables} (fs : List (Fin NFILE))
    (hl : Balanced pages (e + (fs.map fun f => Pi.single f 1).sum) h (t, b)) (hp : t.proc = t₀.proc) :
    Ledgers (pipeallocBad fs) (t, b) (PipeMade pages e h t₀) := by
  apply (fileclose_forM fs hl).bind
  rintro _ l ⟨h₁, hp₁⟩
  exact Tracks.pure ⟨hp₁.trans hp, h₁⟩

theorem pipealloc_ledgers (hl : Balanced pages e h (t, b)) :
    Ledgers pipealloc (t, b) (PipeMade pages e h t) := by
  apply (filealloc_ledgers hl).bind
  rintro (_ | f₀) l₀ h₀
  · subst h₀
    exact pipeallocBad_ledgers [] (by simpa using hl) rfl
  · obtain ⟨hr₀, rfl, hl₀⟩ := h₀
    have htype₀ := hl.sound.closed f₀ hr₀
    apply (filealloc_ledgers hl₀).bind
    rintro (_ | f₁) l₁ h₁
    · subst h₁
      exact pipeallocBad_ledgers [f₀] (by simpa using hl₀) rfl
    · obtain ⟨hr₁, rfl, hl₁⟩ := h₁
      have hne : f₀ ≠ f₁ := by
        rintro rfl
        change (Function.update t.ftable f₀ _ f₀).ref = 0 at hr₁
        rw [Function.update_self] at hr₁
        cases hr₁
      have hat₁ : (t.setFile f₀ ((t.ftable f₀).withRef 1)).ftable f₁ = t.ftable f₁ :=
        Function.update_of_ne hne.symm ..
      rw [hat₁] at hr₁ hl₁ ⊢
      have htype₁ := hl.sound.closed f₁ hr₁
      set t₁ := (t.setFile f₀ ((t.ftable f₀).withRef 1)).setFile f₁ ((t.ftable f₁).withRef 1) with ht₁
      have ht₁₁ : t₁.ftable f₁ = (t.ftable f₁).withRef 1 := Function.update_self ..
      have ht₁₀ : t₁.ftable f₀ = (t.ftable f₀).withRef 1 :=
        (Function.update_of_ne hne ..).trans (Function.update_self ..)
      apply kalloc_ledgers.bind
      rintro (_ | a) l₂ h₂
      · subst h₂
        exact pipeallocBad_ledgers [f₀, f₁] (by simpa [add_assoc] using hl₁) rfl
      · obtain ⟨rest, hf, rfl⟩ := h₂
        apply onTables_bind
        apply onTables_bind
        apply onTables_bind
        refine Tracks.pure ⟨rfl, ?_⟩
        have hopen := hl₁.openPipe hne hf (by rw [ht₁₀]; exact ⟨Nat.one_pos, htype₀⟩)
          (by rw [ht₁₁]; exact ⟨Nat.one_pos, htype₁⟩)
        have hafter : (({ t₁ with freelist := rest }.setPipe a ⟨true, true⟩).setFile f₀
            ((t₁.ftable f₀).asPipe a false)).ftable f₁ = t₁.ftable f₁ := Function.update_of_ne hne.symm ..
        rw [← hafter] at hopen
        exact hopen

end Tables

end Xv6.Sysfile

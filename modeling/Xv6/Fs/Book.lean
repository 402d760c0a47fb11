import Xv6.Fs.Volume

namespace Xv6.Fs

open Lib.Command

def State.counts (s : State) : (Fin NINODE → Nat) × Nat :=
  (fun ip => (s.icache ip).ref, s.outstanding)

section Counts

variable {ip : Fin NINODE}

theorem counts_setInode (s : State) {i : Inode} (h : i.ref = (s.icache ip).ref) :
    (s.setInode ip i).counts = s.counts := by
  refine Prod.ext (funext fun jp => ?_) rfl
  change (Function.update s.icache ip i jp).ref = (s.icache jp).ref
  by_cases hj : jp = ip
  · rw [hj, Function.update_self, h]
  · rw [Function.update_of_ne hj]

theorem edit_counts (ip : Fin NINODE) (f : Dinode → Dinode) : Keeps State.counts (edit ip f) :=
  Keeps.set fun s => counts_setInode s rfl

theorem bread_counts (b : Nat) : Keeps State.counts (bread b) := Keeps.get_bind fun _ => Keeps.pure _

theorem logWrite_counts (b : Nat) : Keeps State.counts (logWrite b) := by
  refine Keeps.get_bind fun s => ?_
  split
  · exact Keeps.throw _
  · split
    · exact Keeps.throw _
    · split
      · exact Keeps.pure _
      · exact Keeps.set fun _ => rfl

theorem writeBlock_counts (b : Nat) (f : State → Block) :
    Keeps State.counts (do modify fun s => s.setBlock b (f s); logWrite b) :=
  Keeps.set_bind (fun _ => rfl) (logWrite_counts b)

theorem bzero_counts (b : Nat) : Keeps State.counts (bzero b) := writeBlock_counts b _

theorem ballocFrom_counts (fuel b : Nat) : Keeps State.counts (ballocFrom fuel b) := by
  induction fuel generalizing b with
  | zero => exact Keeps.throw _
  | succ fuel ih =>
    refine Keeps.get_bind fun s => ?_
    dsimp only
    split
    · refine (bread_counts _).bind fun bp => ?_
      split
      · refine Keeps.set_bind (fun _ => rfl) ?_
        refine (logWrite_counts _).bind fun _ => ?_
        exact (bzero_counts _).bind fun _ => Keeps.pure _
      · exact ih _
    · exact Keeps.throw _

theorem balloc_counts : Keeps State.counts balloc := Keeps.get_bind fun _ => ballocFrom_counts _ _

theorem bfree_counts (b : Nat) : Keeps State.counts (bfree b) := by
  refine Keeps.get_bind fun s => (bread_counts _).bind fun bp => ?_
  split
  · exact Keeps.throw _
  · exact writeBlock_counts _ _

theorem iupdate_counts (ip : Fin NINODE) : Keeps State.counts (iupdate ip) :=
  Keeps.get_bind fun _ => (bread_counts _).bind fun _ => writeBlock_counts _ _

theorem bmap_direct_counts (k : Fin (NDIRECT + 1)) : Keeps State.counts (bmap.direct ip k) := by
  refine Keeps.get_bind fun s => ?_
  split
  · refine balloc_counts.bind fun a => ?_
    exact Keeps.set_bind (fun s => counts_setInode s rfl) (Keeps.pure _)
  · exact Keeps.pure _

theorem bmap_counts (ip : Fin NINODE) (bn : Nat) : Keeps State.counts (bmap ip bn) := by
  unfold bmap
  split
  · exact bmap_direct_counts _
  · split
    · refine (bmap_direct_counts _).bind fun ind => (bread_counts _).bind fun bp => ?_
      dsimp only
      split
      · refine balloc_counts.bind fun a => Keeps.set_bind (fun _ => rfl) ?_
        exact (logWrite_counts _).bind fun _ => Keeps.pure _
      · exact Keeps.pure _
    · exact Keeps.throw _

theorem truncSlot_counts (ip : Fin NINODE) (k : Fin (NDIRECT + 1)) :
    Keeps State.counts (truncSlot ip k) := by
  refine Keeps.get_bind fun s => ?_
  split
  · exact (bfree_counts _).bind fun _ => edit_counts ip _
  · exact Keeps.pure _

theorem truncEntries_counts (bp : Block) : Keeps State.counts (truncEntries bp) := by
  refine Keeps.forM fun j _ => ?_
  split
  · exact bfree_counts _
  · exact Keeps.pure _

theorem itrunc_counts (ip : Fin NINODE) : Keeps State.counts (itrunc ip) := by
  refine (Keeps.forM fun i _ => truncSlot_counts ip _).bind fun _ => Keeps.get_bind fun s => ?_
  have hend : Keeps State.counts (do edit ip fun din => { din with size := 0 }; iupdate ip) :=
    (edit_counts ip _).bind fun _ => iupdate_counts ip
  dsimp only
  split
  · refine (bread_counts _).bind fun bp => (truncEntries_counts bp).bind fun _ => ?_
    exact (truncSlot_counts ip _).bind fun _ => hend
  · exact hend

theorem readLoop_counts (dst : Nat → Nat → Bool) (off n fuel tot : Nat) :
    Keeps State.counts (readLoop dst ip off n fuel tot) := by
  induction fuel generalizing tot with
  | zero => exact Keeps.pure _
  | succ fuel ih =>
    rw [readLoop]
    split
    · refine (bmap_counts ip _).bind fun b => (bread_counts b).bind fun bp => ?_
      dsimp only
      split
      · exact (ih _).bind fun _ => Keeps.pure _
      · exact Keeps.pure _
    · exact Keeps.pure _

theorem readi_counts (dst : Nat → Nat → Bool) (ip : Fin NINODE) (off n : UInt32) :
    Keeps State.counts (readi dst ip off n) := by
  refine Keeps.get_bind fun s => ?_
  dsimp only
  split
  · exact Keeps.pure _
  · exact readLoop_counts _ _ _ _ _

theorem writeLoop_counts (src : Source) (off n fuel tot : Nat) :
    Keeps State.counts (writeLoop src ip off n fuel tot) := by
  induction fuel generalizing tot with
  | zero => exact Keeps.pure _
  | succ fuel ih =>
    rw [writeLoop]
    split
    · refine (bmap_counts ip _).bind fun b => Keeps.set_bind (fun _ => rfl) ?_
      split
      · exact Keeps.pure _
      · exact (logWrite_counts b).bind fun _ => ih _
    · exact Keeps.pure _

theorem writei_counts (src : Source) (ip : Fin NINODE) (off n : UInt32) :
    Keeps State.counts (writei src ip off n) := by
  refine Keeps.get_bind fun s => ?_
  split
  · exact Keeps.pure _
  · split
    · exact Keeps.pure _
    · refine (writeLoop_counts _ _ _ _ _).bind fun tot => ?_
      dsimp only
      split
      · exact (edit_counts ip _).bind fun _ => (iupdate_counts ip).bind fun _ => Keeps.pure _
      · exact Keeps.pure _

theorem isdiremptyFrom_counts (dp : Fin NINODE) (fuel off : Nat) :
    Keeps State.counts (isdiremptyFrom dp fuel off) := by
  induction fuel generalizing off with
  | zero => exact Keeps.pure _
  | succ fuel ih =>
    refine Keeps.get_bind fun s => ?_
    split
    · refine (readi_counts _ _ _ _).bind fun bs => ?_
      split
      · exact Keeps.throw _
      · split
        · exact Keeps.pure _
        · exact ih _
    · exact Keeps.pure _

theorem isdirempty_counts (dp : Fin NINODE) : Keeps State.counts (isdirempty dp) :=
  Keeps.get_bind fun _ => isdiremptyFrom_counts _ _ _

theorem emptyEntryFrom_counts (dp : Fin NINODE) (fuel off : Nat) :
    Keeps State.counts (emptyEntryFrom dp fuel off) := by
  induction fuel generalizing off with
  | zero => exact Keeps.pure _
  | succ fuel ih =>
    refine Keeps.get_bind fun s => ?_
    split
    · refine (readi_counts _ _ _ _).bind fun bs => ?_
      split
      · exact Keeps.throw _
      · split
        · exact Keeps.pure _
        · exact ih _
    · exact Keeps.pure _

theorem addEntry_counts (dp : Fin NINODE) (name : List UInt8) (inum : Nat) :
    Keeps State.counts (addEntry dp name inum) := by
  refine Keeps.get_bind fun s => (emptyEntryFrom_counts _ _ _).bind fun off => ?_
  refine (writei_counts _ _ _ _).bind fun r => ?_
  split
  · exact Keeps.throw _
  · exact Keeps.pure _

theorem ilock_counts (ip : Fin NINODE) : Keeps State.counts (ilock ip) := by
  intro s
  apply Meets.bind
  apply Meets.get
  dsimp only
  split
  · exact Meets.throw trivial
  · split
    · exact Meets.pure rfl
    · apply Meets.bind
      refine (bread_counts _ s).post fun bp s₁ h₁ => ?_
      apply Meets.bind
      apply Meets.modify
      split
      · exact Meets.throw trivial
      · apply Meets.pure
        rw [← h₁]
        exact counts_setInode s₁ (congrFun (congrArg Prod.fst h₁.symm) ip)

def moreRef (n : (Fin NINODE → Nat) × Nat) (ip : Fin NINODE) : (Fin NINODE → Nat) × Nat :=
  (n.1 + Pi.single ip 1, n.2)

theorem counts_more (s : State) {i : Inode} (h : i.ref = (s.icache ip).ref + 1) :
    (s.setInode ip i).counts = moreRef s.counts ip := by
  refine Prod.ext (funext fun jp => ?_) rfl
  change (Function.update s.icache ip i jp).ref = (s.icache jp).ref + (Pi.single ip 1 : Fin NINODE → Nat) jp
  by_cases hj : jp = ip
  · rw [hj, Function.update_self, Pi.single_eq_same, h]
  · rw [Function.update_of_ne hj, Pi.single_eq_of_ne hj, Nat.add_zero]

theorem iget_counts (dev inum : Nat) (n : (Fin NINODE → Nat) × Nat) :
    Tracks State.counts (iget dev inum) n (fun ip n' => n' = moreRef n ip) := by
  refine Tracks.get_bind fun s hs => ?_
  subst hs
  dsimp only
  intro s' hs'
  split
  next ip hip =>
    apply Meets.bind
    apply Meets.modify
    apply Meets.pure
    rw [counts_more s' rfl, hs']
  next =>
    split
    next ip hip =>
      apply Meets.bind
      apply Meets.modify
      apply Meets.pure
      have h0 : (s.icache ip).ref = 0 := by simpa using List.find?_some hip
      have h0' : (s'.icache ip).ref = 0 := (congrFun (congrArg Prod.fst hs') ip).trans h0
      rw [counts_more s' (by rw [h0']), hs']
    next => exact Meets.throw trivial

theorem idup_counts (ip : Fin NINODE) (n : (Fin NINODE → Nat) × Nat) :
    Tracks State.counts (idup ip) n (fun jp n' => jp = ip ∧ n' = moreRef n ip) := by
  rintro s rfl
  apply Meets.bind
  apply Meets.modify
  exact Meets.pure ⟨rfl, counts_more s rfl⟩

theorem iallocFrom_counts (dev : Nat) (type : Int16) (fuel inum : Nat)
    (n : (Fin NINODE → Nat) × Nat) :
    Tracks State.counts (iallocFrom dev type fuel inum) n (fun ip n' => n' = moreRef n ip) := by
  induction fuel generalizing inum with
  | zero => exact Tracks.throw _
  | succ fuel ih =>
    refine Tracks.get_bind fun s _ => ?_
    dsimp only
    split
    · refine Tracks.keep_bind (bread_counts _) fun bp => ?_
      split
      · refine Tracks.set_bind (fun _ hs => hs) ?_
        exact Tracks.keep_bind (logWrite_counts _) fun _ => iget_counts dev inum n
      · exact ih _
    · exact Tracks.throw _

theorem ialloc_counts (dev : Nat) (type : Int16) (n : (Fin NINODE → Nat) × Nat) :
    Tracks State.counts (ialloc dev type) n (fun ip n' => n' = moreRef n ip) :=
  Tracks.get_bind fun _ _ => iallocFrom_counts _ _ _ _ _

def foundRef {γ : Type} (n : (Fin NINODE → Nat) × Nat) (r : Option (Fin NINODE × γ)) :
    (Fin NINODE → Nat) × Nat :=
  match r with
  | none => n
  | some (ip, _) => moreRef n ip

theorem dirlookupFrom_counts (dp : Fin NINODE) (name : List UInt8) (fuel off : Nat)
    (n : (Fin NINODE → Nat) × Nat) :
    Tracks State.counts (dirlookupFrom dp name fuel off) n (fun r n' => n' = foundRef n r) := by
  induction fuel generalizing off with
  | zero => exact Tracks.pure rfl
  | succ fuel ih =>
    refine Tracks.get_bind fun s _ => ?_
    split
    · refine Tracks.keep_bind (readi_counts _ _ _ _) fun bs => ?_
      split
      · exact Tracks.throw _
      · dsimp only
        split
        · apply (iget_counts _ _ n).bind
          rintro ip n' rfl
          exact Tracks.pure rfl
        · exact ih _
    · exact Tracks.pure rfl

theorem dirlookup_counts (dp : Fin NINODE) (name : List UInt8) (n : (Fin NINODE → Nat) × Nat) :
    Tracks State.counts (dirlookup dp name) n (fun r n' => n' = foundRef n r) := by
  refine Tracks.get_bind fun s _ => ?_
  split
  · exact Tracks.throw _
  · exact dirlookupFrom_counts _ _ _ _ _

end Counts

@[ext] structure Book where
  ref : Fin NINODE → Nat
  locked : Fin NINODE → Bool
  outstanding : Nat

namespace Book

variable (b : Book) (ip jp : Fin NINODE)

def idle : Book := ⟨0, fun _ => false, 0⟩

def take : Book := { b with ref := b.ref + Pi.single ip 1 }

def drop : Book := { b with ref := b.ref - Pi.single ip 1 }

def lock : Book := { b with locked := Function.update b.locked ip true }

def unlock : Book := { b with locked := Function.update b.locked ip false }

def found {γ : Type} (b : Book) : Option (Fin NINODE × γ) → Book
  | none => b
  | some (ip, _) => b.take ip

theorem drop_take : (b.take ip).drop ip = b :=
  Book.ext (funext fun _ => Nat.add_sub_cancel _ _) rfl rfl

theorem take_comm : (b.take ip).take jp = (b.take jp).take ip :=
  Book.ext (add_right_comm _ _ _) rfl rfl

theorem unlock_lock (h : b.locked ip = false) : (b.lock ip).unlock ip = b := by
  apply Book.ext
  · rfl
  · change Function.update (Function.update b.locked ip true) ip false = b.locked
    rw [Function.update_idem, ← h, Function.update_eq_self]
  · rfl

def addRefs (b : Book) (u : Fin NINODE → Nat) : Book := ⟨u + b.ref, b.locked, b.outstanding⟩

theorem take_addRefs (u : Fin NINODE → Nat) : (b.addRefs u).take ip = (b.take ip).addRefs u :=
  Book.ext (add_assoc _ _ _) rfl rfl

theorem addRefs_single (u : Fin NINODE → Nat) : b.addRefs (u + Pi.single ip 1) = (b.addRefs u).take ip :=
  Book.ext (add_right_comm _ _ _) rfl rfl

theorem lock_comm (h : ip ≠ jp) : (b.lock ip).lock jp = (b.lock jp).lock ip :=
  Book.ext rfl (Function.update_comm h _ _ _) rfl

def enter : Book := { b with outstanding := b.outstanding + 1 }

def leave : Book := { b with outstanding := b.outstanding - 1 }

end Book

def Vol.book (v : Vol) : Book := ⟨v.fs.counts.1, v.locked, v.fs.counts.2⟩

abbrev Books {α : Type} (c : VolM α) (b : Book) (Q : α → Book → Prop) : Prop := Tracks Vol.book c b Q

section Books

variable {α : Type} {b : Book} {ip dp : Fin NINODE}

theorem onFs_books {c : FsM α} {Q : α → (Fin NINODE → Nat) × Nat → Prop}
    (h : Tracks State.counts c (b.ref, b.outstanding) Q) :
    Books (onFs c) b (fun a b' => ∃ n, Q a n ∧ b' = ⟨n.1, b.locked, n.2⟩) := by
  rintro v rfl
  apply Meets.zoom
  refine (h v.fs rfl).post fun a s hQ => ⟨_, hQ, rfl⟩

theorem onFs_keeps {c : FsM α} (h : Keeps State.counts c) : Keeps Vol.book (onFs c) := by
  intro v
  apply Meets.zoom
  refine (h v.fs).post fun a s hs => ?_
  change (⟨s.counts.1, v.locked, s.counts.2⟩ : Book) = _
  rw [hs]
  rfl

theorem onFs_takes {c : FsM (Fin NINODE)}
    (h : ∀ n, Tracks State.counts c n (fun ip n' => n' = moreRef n ip)) :
    Books (onFs c) b (fun ip b' => b' = b.take ip) := by
  refine (onFs_books (h _)).post ?_
  rintro ip b' ⟨n, rfl, rfl⟩
  rfl

theorem onFs_finds {γ : Type} {c : FsM (Option (Fin NINODE × γ))}
    (h : ∀ n, Tracks State.counts c n (fun r n' => n' = foundRef n r)) :
    Books (onFs c) b (fun r b' => b' = b.found r) := by
  refine (onFs_books (h _)).post ?_
  rintro r b' ⟨n, rfl, rfl⟩
  cases r <;> rfl

theorem beginOp_books : Books Vol.beginOp b (fun _ b' => b' = b.enter) := by
  have hc : Tracks State.counts beginOp (b.ref, b.outstanding) (fun _ n => n = (b.ref, b.outstanding + 1)) := by
    refine Tracks.get_bind fun s _ => ?_
    split
    · exact Tracks.throw _
    · refine Tracks.set fun s hs => ?_
      obtain ⟨h₁, h₂⟩ := Prod.mk.inj hs
      exact Prod.ext h₁ (congrArg (· + 1) h₂)
  refine (onFs_books hc).post ?_
  rintro _ _ ⟨_, rfl, rfl⟩
  rfl

theorem endOp_books : Books Vol.endOp b (fun _ b' => b' = b.leave) := by
  have hc : Tracks State.counts endOp (b.ref, b.outstanding) (fun _ n => n = (b.ref, b.outstanding - 1)) := by
    refine Tracks.set fun s hs => ?_
    obtain ⟨h₁, h₂⟩ := Prod.mk.inj hs
    exact Prod.ext h₁ (congrArg (· - 1) h₂)
  refine Tracks.set_keep (fun _ => rfl) ((onFs_books hc).post ?_)
  rintro _ _ ⟨_, rfl, rfl⟩
  rfl

theorem acquiresleep_books : Books (acquiresleep ip) b (fun _ b' => b.locked ip = false ∧ b' = b.lock ip) := by
  refine Tracks.get_bind fun v hv => ?_
  split
  · exact Tracks.throw _
  next hl =>
    refine Tracks.set fun v' hv' => ?_
    subst hv
    refine ⟨Bool.eq_false_iff.mpr hl, ?_⟩
    rw [← hv']
    rfl

theorem ilock_books : Books (Vol.ilock ip) b (fun _ b' => b.locked ip = false ∧ b' = b.lock ip) := by
  refine Tracks.get_bind fun v _ => ?_
  split
  · exact Tracks.throw _
  · apply acquiresleep_books.bind
    rintro _ _ ⟨hl, rfl⟩
    exact (onFs_keeps (ilock_counts ip)).tracks.post fun _ _ h => ⟨hl, h⟩

theorem iunlock_books : Books (iunlock ip) b (fun _ b' => b' = b.unlock ip) := by
  refine Tracks.get_bind fun v _ => ?_
  split
  · exact Tracks.throw _
  · refine Tracks.set fun v hv => ?_
    rw [← hv]
    rfl

theorem setInode_book {v : Vol} {i : Inode} (h : i.ref = (v.inode ip).ref) :
    (v.setInode ip i).book = v.book := by
  have hc : (v.fs.setInode ip i).counts = v.fs.counts := counts_setInode v.fs h
  change (⟨(v.fs.setInode ip i).counts.1, v.locked, (v.fs.setInode ip i).counts.2⟩ : Book) = _
  rw [hc]
  rfl

theorem ifree_keeps (ip : Fin NINODE) : Keeps Vol.book (ifree ip) := by
  rintro v
  have key : Books (ifree ip) v.book (fun _ b' => b' = v.book) := by
    apply acquiresleep_books.bind
    rintro _ _ ⟨hl, rfl⟩
    refine Tracks.keep_bind (onFs_keeps (itrunc_counts ip)) fun _ => ?_
    refine Tracks.keep_bind (onFs_keeps (edit_counts ip _)) fun _ => ?_
    refine Tracks.keep_bind (onFs_keeps (iupdate_counts ip)) fun _ => ?_
    refine Tracks.set_keep (fun v' => setInode_book rfl) ?_
    refine Tracks.set fun v' hv' => ?_
    rw [← v.book.unlock_lock ip hl, ← hv']
    rfl
  exact key v rfl

theorem iput_books : Books (iput ip) b (fun _ b' => b' = b.drop ip) := by
  have hlast : Books (modify fun v => v.setInode ip { v.inode ip with ref := (v.inode ip).ref - 1 })
      b (fun _ b' => b' = b.drop ip) := by
    refine Tracks.set fun v hv => ?_
    subst hv
    apply Book.ext
    · funext jp
      change (Function.update v.fs.icache ip _ jp).ref =
        (v.fs.icache jp).ref - (Pi.single ip 1 : Fin NINODE → Nat) jp
      by_cases hj : jp = ip
      · rw [hj, Function.update_self, Pi.single_eq_same]
        rfl
      · rw [Function.update_of_ne hj, Pi.single_eq_of_ne hj, Nat.sub_zero]
    · rfl
    · rfl
  refine Tracks.get_bind fun v _ => ?_
  dsimp only
  split
  · exact Tracks.keep_bind (ifree_keeps ip) fun _ => hlast
  · exact hlast

theorem iput_take_books : Books (iput ip) (b.take ip) (fun _ b' => b' = b) := by
  refine iput_books.post ?_
  rintro _ _ rfl
  exact b.drop_take ip

theorem iunlockput_books (h : b.locked ip = false) :
    Books (iunlockput ip) ((b.take ip).lock ip) (fun _ b' => b' = b) := by
  apply iunlock_books.bind
  rintro _ _ rfl
  rw [Book.unlock_lock (b.take ip) ip h]
  exact iput_take_books

theorem dirlink_keeps (dp : Fin NINODE) (name : List UInt8) (inum : Nat) :
    Keeps Vol.book (dirlink dp name inum) := by
  intro v
  have key : Books (dirlink dp name inum) v.book (fun _ b' => b' = v.book) := by
    apply (onFs_finds (dirlookup_counts dp name)).bind
    rintro r _ rfl
    match r with
    | none => exact Tracks.keep_bind (onFs_keeps (addEntry_counts _ _ _)) fun _ => Tracks.pure rfl
    | some (ip, _) =>
      exact iput_take_books.bind fun _ _ h => Tracks.pure h
  exact key v rfl

theorem skipelem_length {path rest name : List UInt8} (h : skipelem path = some (name, rest)) :
    rest.length < path.length := by
  rw [skipelem] at h
  split at h
  · cases h
  next hne =>
    simp only [Option.some.injEq, Prod.mk.injEq] at h
    obtain ⟨-, rfl⟩ := h
    obtain ⟨c, p, hp⟩ := List.exists_cons_of_ne_nil hne
    have hc : ¬ c = 47 := by
      intro e
      have := List.head?_dropWhile_not (fun x : UInt8 => decide (x = 47)) path
      rw [hp] at this
      simp [e] at this
    have h1 : (path.dropWhile fun x => decide (x = 47)).length ≤ path.length :=
      (List.dropWhile_suffix _).length_le
    have h2 : ∀ l : List UInt8, (l.dropWhile fun x => decide (x = 47)).length ≤ l.length :=
      fun l => (List.dropWhile_suffix _).length_le
    have h3 : (p.dropWhile fun x => decide (x ≠ 47)).length ≤ p.length :=
      (List.dropWhile_suffix _).length_le
    rw [hp] at h1 ⊢
    rw [List.dropWhile_cons_of_pos (by simpa using hc)]
    have := h2 (p.dropWhile fun x => decide (x ≠ 47))
    rw [List.length_cons] at h1
    omega

theorem namexFrom_books (parent : Bool) (fuel : Nat) (path name : List UInt8)
    (hf : path.length < fuel) :
    Books (namexFrom parent fuel ip path name) (b.take ip) (fun r b' => b' = b.found r) := by
  induction fuel generalizing ip path name with
  | zero => omega
  | succ fuel ih =>
    rw [namexFrom]
    split
    · split
      · exact iput_take_books.bind fun _ _ h => Tracks.pure h
      · exact Tracks.pure rfl
    next nm rest hs =>
      have hlt := skipelem_length hs
      apply ilock_books.bind
      rintro _ _ ⟨hl, rfl⟩
      refine Tracks.get_bind fun v _ => ?_
      split
      · exact (iunlockput_books (b := b) hl).bind fun _ _ h => Tracks.pure h
      · split
        · refine iunlock_books.bind fun _ _ h => Tracks.pure ?_
          rw [h, Book.unlock_lock (b.take ip) ip hl]
          rfl
        · apply (onFs_finds (dirlookup_counts ip nm)).bind
          rintro r _ rfl
          match r with
          | none => exact (iunlockput_books (b := b) hl).bind fun _ _ h => Tracks.pure h
          | some (next, _) =>
            have hnext : (b.take next).locked ip = false := hl
            have he : ((b.take ip).lock ip).take next = ((b.take next).take ip).lock ip := by
              rw [Book.take_comm b next ip]
              rfl
            change Books _ (((b.take ip).lock ip).take next) _
            rw [he]
            apply (iunlockput_books hnext).bind
            rintro _ _ rfl
            exact ih _ _ (by omega)

theorem namex_books (cwd : Fin NINODE) (path : List UInt8) (parent : Bool) :
    Books (namex cwd path parent) b (fun r b' => b' = b.found r) := by
  have hloop : ∀ ip, Books (namexFrom parent (path.length + 1) ip path []) (b.take ip)
      (fun r b' => b' = b.found r) :=
    fun ip => namexFrom_books parent _ path [] (Nat.lt_succ_self _)
  unfold namex
  dsimp only
  split
  · apply (onFs_takes (iget_counts ROOTDEV ROOTINO)).bind
    rintro ip _ rfl
    exact hloop ip
  · apply (onFs_books (idup_counts cwd _)).bind
    rintro ip _ ⟨n, ⟨rfl, rfl⟩, rfl⟩
    exact hloop ip

def Book.foundInode (b : Book) : Option (Fin NINODE) → Book
  | none => b
  | some ip => b.take ip

theorem namei_books (cwd : Fin NINODE) (path : List UInt8) :
    Books (namei cwd path) b (fun r b' => b' = b.foundInode r) := by
  apply (namex_books cwd path false).bind
  rintro r _ rfl
  refine Tracks.pure ?_
  cases r <;> rfl

theorem nameiparent_books (cwd : Fin NINODE) (path : List UInt8) :
    Books (nameiparent cwd path) b (fun r b' => b' = b.found r) := namex_books cwd path true

end Books

end Xv6.Fs

import Xv6.Fs.Book
import Xv6.Sysfile.Calls

namespace Xv6.Sysfile

open Fs Lib.Command Lib.Transition

def Proc.refs (q : Proc) (f : Fin NFILE) : Nat := ∑ fd, if q.ofile fd = some f then 1 else 0

def Proc.use (q : Proc) : Fin NINODE → Nat :=
  match q.cwd with
  | none => 0
  | some ip => Pi.single ip 1

def File.HasInode (x : File) : Prop := 0 < x.ref ∧ (x.type = .inode ∨ x.type = .device)

instance (x : File) : Decidable x.HasInode := inferInstanceAs (Decidable (_ ∧ _))

def File.use (x : File) : Fin NINODE → Nat := if x.HasInode then Pi.single x.ip 1 else 0

structure File.IsEnd (x : File) (a : Nat) (w : Bool) : Prop where
  pos : 0 < x.ref
  type : x.type = .pipe
  page : x.pipe = a
  writable : x.writable = w

instance (x : File) (a : Nat) (w : Bool) : Decidable (x.IsEnd a w) :=
  decidable_of_iff (0 < x.ref ∧ x.type = .pipe ∧ x.pipe = a ∧ x.writable = w)
    ⟨fun h => ⟨h.1, h.2.1, h.2.2.1, h.2.2.2⟩, fun h => ⟨h.pos, h.type, h.page, h.writable⟩⟩

def Pipe.isOpen (x : Pipe) (w : Bool) : Bool := if w then x.writeopen else x.readopen

namespace Tables

def slots (t : Tables) (f : Fin NFILE) : Nat := ∑ p, (t.proc p).refs f

def users (t : Tables) : Fin NINODE → Nat := ∑ f, (t.ftable f).use + ∑ p, (t.proc p).use

def InUse (t : Tables) (a : Nat) : Prop := ∃ f w, (t.ftable f).IsEnd a w

instance (t : Tables) (a : Nat) : Decidable (t.InUse a) :=
  inferInstanceAs (Decidable (∃ f w, (t.ftable f).IsEnd a w))

end Tables

structure Pipes (pages : List Nat) (t : Tables) : Prop where
  nodup : pages.Nodup
  flag : ∀ f a w, (t.ftable f).IsEnd a w →
    ∀ w', (t.pipe a).isOpen w' = true ↔ ∃ g, (t.ftable g).IsEnd a w'
  unique : ∀ f g a w, (t.ftable f).IsEnd a w → (t.ftable g).IsEnd a w → f = g
  count : ∀ a, t.freelist.count a + t.others.count a + (if t.InUse a then 1 else 0) = pages.count a

/-- The files are counted up to `e`: file `f` has `e f` references more than descriptors. -/
structure Sound (pages : List Nat) (e : Fin NFILE → ℤ) (t : Tables) : Prop where
  files : ∀ f, ((t.ftable f).ref : ℤ) = t.slots f + e f
  closed : ∀ f, (t.ftable f).ref = 0 → (t.ftable f).type = .none
  pipes : Pipes pages t

structure ProcOk (q : Proc) : Prop where
  live : q.state = .live → ∃ ip, q.cwd = some ip
  gone : q.state ≠ .live → q.cwd = none ∧ ∀ fd, q.ofile fd = none

abbrev Ledger := Tables × Book

def Kernel.ledger (k : Kernel) : Ledger := (k.toTables, k.vol.book)

structure Balanced (pages : List Nat) (e : Fin NFILE → ℤ) (h : Book) (l : Ledger) : Prop where
  sound : Sound pages e l.1
  book : l.2 = h.addRefs l.1.users

section Sums

variable {t : Tables} {p : Fin NPROC} {f : Fin NFILE}

theorem users_setFile (t : Tables) (f : Fin NFILE) (x : File) :
    (t.setFile f x).users + (t.ftable f).use = t.users + x.use := by
  have h := sum_update t.ftable File.use f x
  change ∑ g, (Function.update t.ftable f x g).use + _ + _ = ∑ g, (t.ftable g).use + _ + _
  rw [add_right_comm, h, add_right_comm]
  rfl

theorem users_setProc (t : Tables) (p : Fin NPROC) (q : Proc) :
    (t.setProc p q).users + (t.proc p).use = t.users + q.use := by
  have h := sum_update t.proc Proc.use p q
  change _ + ∑ g, (Function.update t.proc p q g).use + _ = _ + ∑ g, (t.proc g).use + _
  rw [add_assoc, h, ← add_assoc]
  rfl

theorem users_setFile_same {x : File} (h : x.use = (t.ftable f).use) : (t.setFile f x).users = t.users := by
  have := users_setFile t f x
  rw [h] at this
  exact add_right_cancel this

theorem users_setProc_same {q : Proc} (h : q.cwd = (t.proc p).cwd) : (t.setProc p q).users = t.users := by
  have hu : q.use = (t.proc p).use := by rw [Proc.use, Proc.use, h]
  have := users_setProc t p q
  rw [hu] at this
  exact add_right_cancel this

theorem users_setOfile (t : Tables) (p : Fin NPROC) (fd : Fin NOFILE) (o : Option (Fin NFILE)) :
    (t.setOfile p fd o).users = t.users :=
  users_setProc_same rfl

theorem slots_setProc (t : Tables) (p : Fin NPROC) (q : Proc) (f : Fin NFILE) :
    (t.setProc p q).slots f + (t.proc p).refs f = t.slots f + q.refs f :=
  sum_update t.proc (fun q => q.refs f) p q

theorem slots_setProc_same {q : Proc} (h : q.ofile = (t.proc p).ofile) (f : Fin NFILE) :
    (t.setProc p q).slots f = t.slots f := by
  have hr : q.refs f = (t.proc p).refs f := by rw [Proc.refs, Proc.refs, h]
  have := slots_setProc t p q f
  omega

theorem slots_setOfile (t : Tables) (p : Fin NPROC) (fd : Fin NOFILE) (o : Option (Fin NFILE))
    (f : Fin NFILE) :
    (t.setOfile p fd o).slots f + (if (t.proc p).ofile fd = some f then 1 else 0) =
      t.slots f + (if o = some f then 1 else 0) := by
  have h := sum_update (t.proc p).ofile (fun o => if o = some f then (1 : Nat) else 0) fd o
  have hs := slots_setProc t p ((t.proc p).setOfile fd o) f
  change (t.setOfile p fd o).slots f + ∑ fd, (if (t.proc p).ofile fd = some f then 1 else 0) =
    t.slots f + ∑ fd', (if Function.update (t.proc p).ofile fd o fd' = some f then 1 else 0) at hs
  omega

theorem slots_pos {fd : Fin NOFILE} (h : (t.proc p).ofile fd = some f) : 0 < t.slots f := by
  have h1 : (t.proc p).refs f ≤ t.slots f := le_sum t.proc (fun q => q.refs f) p
  have h2 := le_sum (t.proc p).ofile (fun o => if o = some f then (1 : Nat) else 0) fd
  simp only [h, if_pos] at h2
  exact lt_of_lt_of_le Nat.zero_lt_one (h2.trans h1)

end Sums

section Pipes

variable {pages : List Nat} {t t' : Tables}

theorem Pipes.keep (h : Pipes pages t)
    (hend : ∀ f a w, (t'.ftable f).IsEnd a w ↔ (t.ftable f).IsEnd a w)
    (hpipe : t'.pipe = t.pipe) (hfree : t'.freelist = t.freelist) (hother : t'.others = t.others) :
    Pipes pages t' := by
  refine ⟨h.nodup, fun f a w hf w' => ?_, fun f g a w hf hg => ?_, fun a => ?_⟩
  · rw [hpipe, h.flag f a w ((hend f a w).mp hf) w']
    simp only [hend]
  · exact h.unique f g a w ((hend f a w).mp hf) ((hend g a w).mp hg)
  · have hin : t'.InUse a ↔ t.InUse a := by simp only [Tables.InUse, hend]
    rw [hfree, hother, ← h.count a]
    simp only [hin]

theorem isEnd_setFile {f : Fin NFILE} {x : File}
    (h : ∀ a w, x.IsEnd a w ↔ (t.ftable f).IsEnd a w) (g : Fin NFILE) (a : Nat) (w : Bool) :
    ((t.setFile f x).ftable g).IsEnd a w ↔ (t.ftable g).IsEnd a w := by
  change (Function.update t.ftable f x g).IsEnd a w ↔ _
  by_cases hg : g = f
  · rw [hg, Function.update_self]
    exact h a w
  · rw [Function.update_of_ne hg]

theorem Pipes.setFile (h : Pipes pages t) {f : Fin NFILE} {x : File}
    (hx : ∀ a w, x.IsEnd a w ↔ (t.ftable f).IsEnd a w) : Pipes pages (t.setFile f x) :=
  h.keep (isEnd_setFile hx) rfl rfl rfl

theorem not_isEnd_of_type {x : File} (h : x.type ≠ .pipe) (a : Nat) (w : Bool) : ¬ x.IsEnd a w :=
  fun he => h he.type

theorem not_isEnd_of_ref {x : File} (h : x.ref = 0) (a : Nat) (w : Bool) : ¬ x.IsEnd a w :=
  fun he => absurd he.pos (by omega)

theorem Pipes.free (h : Pipes pages t) {a : Nat} {rest : List Nat} (hf : t.freelist = a :: rest) :
    ¬ t.InUse a ∧ rest.count a = 0 ∧ t.others.count a = 0 ∧ pages.count a = 1 := by
  have hle := List.nodup_iff_count_le_one.mp h.nodup a
  have hc := h.count a
  rw [hf, List.count_cons_self] at hc
  refine ⟨fun hin => ?_, by omega, by omega, by omega⟩
  rw [if_pos hin] at hc
  omega

theorem Pipes.open (h : Pipes pages t) {a : Nat} {rest : List Nat} (hf : t.freelist = a :: rest)
    {f₀ f₁ : Fin NFILE} (hend : ∀ g a' w, (t'.ftable g).IsEnd a' w ↔
      (g = f₀ ∧ a' = a ∧ w = false) ∨ (g = f₁ ∧ a' = a ∧ w = true) ∨ (t.ftable g).IsEnd a' w)
    (hpipe : t'.pipe = Function.update t.pipe a ⟨true, true⟩) (hfree : t'.freelist = rest)
    (hother : t'.others = t.others) : Pipes pages t' := by
  obtain ⟨hno, h1, h2, h3⟩ := h.free hf
  have hold : ∀ g w, ¬ (t.ftable g).IsEnd a w := fun g w hg => hno ⟨g, w, hg⟩
  refine ⟨h.nodup, fun f a' w hf' w' => ?_, fun f g a' w hf' hg => ?_, fun a' => ?_⟩
  · by_cases ha : a' = a
    · subst ha
      rw [hpipe, Function.update_self]
      have hex : ∃ g, (t'.ftable g).IsEnd a' w' := by
        cases w' with
        | false => exact ⟨f₀, (hend _ _ _).mpr (Or.inl ⟨rfl, rfl, rfl⟩)⟩
        | true => exact ⟨f₁, (hend _ _ _).mpr (Or.inr (Or.inl ⟨rfl, rfl, rfl⟩))⟩
      refine iff_of_true ?_ hex
      cases w' <;> rfl
    · have hsame : ∀ g w, (t'.ftable g).IsEnd a' w ↔ (t.ftable g).IsEnd a' w := by
        intro g w
        rw [hend]
        simp [ha]
      rw [hpipe, Function.update_of_ne ha, h.flag f a' w ((hsame f w).mp hf') w']
      simp only [hsame]
  · rw [hend] at hf' hg
    rcases hf' with ⟨rfl, rfl, rfl⟩ | ⟨rfl, rfl, rfl⟩ | hf' <;>
      rcases hg with ⟨rfl, hb, hw⟩ | ⟨rfl, hb, hw⟩ | hg
    · rfl
    · cases hw
    · exact absurd hg (hold _ _)
    · cases hw
    · rfl
    · exact absurd hg (hold _ _)
    · subst hb
      exact absurd hf' (hold _ _)
    · subst hb
      exact absurd hf' (hold _ _)
    · exact h.unique f g a' w hf' hg
  · have hc := h.count a'
    rw [hfree, hother]
    rw [hf] at hc
    by_cases ha : a' = a
    · subst ha
      have hin : t'.InUse a' := ⟨f₀, false, (hend _ _ _).mpr (Or.inl ⟨rfl, rfl, rfl⟩)⟩
      rw [if_pos hin]
      omega
    · have hsame : t'.InUse a' ↔ t.InUse a' := by
        simp only [Tables.InUse, hend]
        simp [ha]
      rw [List.count_cons_of_ne (Ne.symm ha)] at hc
      simp only [hsame]
      exact hc

theorem Pipes.close (h : Pipes pages t) {a : Nat} {w : Bool} {f : Fin NFILE} {x : Pipe}
    (hf : (t.ftable f).IsEnd a w)
    (hend : ∀ g a' w', (t'.ftable g).IsEnd a' w' ↔ g ≠ f ∧ (t.ftable g).IsEnd a' w')
    (hpipe : t'.pipe = Function.update t.pipe a x) (hself : x.isOpen w = false)
    (hkeep : x.isOpen (!w) = (t.pipe a).isOpen (!w))
    (hfree : t'.freelist = if x.isOpen (!w) then t.freelist else a :: t.freelist)
    (hother : t'.others = t.others) : Pipes pages t' := by
  have hsame : ∀ g a' w', a' ≠ a ∨ w' ≠ w → ((t'.ftable g).IsEnd a' w' ↔ (t.ftable g).IsEnd a' w') := by
    intro g a' w' hne
    rw [hend]
    refine ⟨And.right, fun hg => ⟨?_, hg⟩⟩
    rintro rfl
    rcases hne with hne | hne
    · exact hne (hg.page.symm.trans hf.page)
    · exact hne (hg.writable.symm.trans hf.writable)
  have hgone : ∀ g, ¬ (t'.ftable g).IsEnd a w := by
    intro g hg
    obtain ⟨hne, hg⟩ := (hend g a w).mp hg
    exact hne (h.unique g f a w hg hf)
  have hopen : x.isOpen (!w) = true ↔ ∃ g, (t'.ftable g).IsEnd a (!w) := by
    rw [hkeep, h.flag f a w hf (!w)]
    simp only [hsame _ a (!w) (Or.inr (by simp))]
  refine ⟨h.nodup, fun g a' w' hg v => ?_, fun g g' a' w' hg hg' => ?_, fun a' => ?_⟩
  · by_cases ha : a' = a
    · subst ha
      rw [hpipe, Function.update_self]
      by_cases hv : v = w
      · subst hv
        rw [hself]
        exact iff_of_false Bool.false_ne_true fun ⟨g, hg⟩ => hgone g hg
      · have hv : v = !w := by
          cases v <;> cases w <;> first | rfl | exact absurd rfl hv
        rw [hv]
        exact hopen
    · rw [hpipe, Function.update_of_ne ha,
        h.flag g a' w' ((hsame g a' w' (Or.inl ha)).mp hg) v]
      simp only [hsame _ a' _ (Or.inl ha)]
  · exact h.unique g g' a' w' ((hend g a' w').mp hg).2 ((hend g' a' w').mp hg').2
  · have hc := h.count a'
    rw [hother, hfree]
    by_cases ha : a' = a
    · subst ha
      have hin : t.InUse a' := ⟨f, w, hf⟩
      have hin' : t'.InUse a' ↔ x.isOpen (!w) = true := by
        rw [hopen]
        constructor
        · rintro ⟨g, v, hg⟩
          have hv : v = !w := by
            by_contra hv
            have : v = w := by
              cases v <;> cases w <;> first | rfl | exact absurd rfl hv
            subst this
            exact hgone g hg
          subst hv
          exact ⟨g, hg⟩
        · rintro ⟨g, hg⟩
          exact ⟨g, !w, hg⟩
      rw [if_pos hin] at hc
      simp only [hin']
      split
      · exact hc
      · rw [List.count_cons_self]
        omega
    · have hin' : t'.InUse a' ↔ t.InUse a' := by
        simp only [Tables.InUse, hsame _ a' _ (Or.inl ha)]
      simp only [hin']
      split
      · exact hc
      · rw [List.count_cons_of_ne (Ne.symm ha)]
        exact hc

end Pipes

end Xv6.Sysfile

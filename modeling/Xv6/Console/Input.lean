import Xv6.Lib.Ring
import Xv6.Lib.Transition

namespace Xv6.Console.Input

open Lib Lib.Transition

def INPUT_BUF : Nat := 128

instance : NeZero INPUT_BUF := ⟨by decide⟩

def ctrl (x : Char) : UInt8 := UInt8.ofNat x.toNat - UInt8.ofNat '@'.toNat

def newline : UInt8 := 10

def carriageReturn : UInt8 := 13

def delete : UInt8 := 0x7f

structure Cons where
  buf : Fin INPUT_BUF → UInt8
  r : UInt32
  w : UInt32
  e : UInt32

def killLine : Nat → Cons → Cons
  | 0, s => s
  | n + 1, s =>
    if s.e ≠ s.w ∧ s.buf (Ring.index INPUT_BUF (s.e - 1)) ≠ newline then
      killLine n { s with e := s.e - 1 }
    else s

def Cons.type (s : Cons) (c : UInt8) : Cons :=
  { s with buf := Function.update s.buf (Ring.index INPUT_BUF s.e) c, e := s.e + 1 }

def Cons.commit (s : Cons) : Cons := { s with w := s.e }

def Cons.store (s : Cons) (c : UInt8) : Cons × Bool :=
  let s := s.type c
  if c = newline ∨ c = ctrl 'D' ∨ s.e = s.r + UInt32.ofNat INPUT_BUF then (s.commit, true)
  else (s, false)

def consoleintr (s : Cons) (c : UInt8) : Cons × Bool :=
  if c = ctrl 'P' then (s, false)
  else if c = ctrl 'U' then (killLine (s.e - s.w).toNat s, false)
  else if c = ctrl 'H' ∨ c = delete then
    (if s.e ≠ s.w then { s with e := s.e - 1 } else s, false)
  else if c ≠ 0 ∧ s.e - s.r < UInt32.ofNat INPUT_BUF then
    s.store (if c = carriageReturn then newline else c)
  else (s, false)

inductive ReadEnd where
  /-- The reader sleeps, with `n` characters to go. -/
  | sleep (n : Nat) (got : List UInt8)
  | ret (got : List UInt8)
  | killed

def readLoop (target : Nat) (killed : Bool) : (n : Nat) → Cons → List UInt8 → Cons × ReadEnd
  | 0, s, got => (s, .ret got)
  | n + 1, s, got =>
    if s.r = s.w then (s, if killed then .killed else .sleep (n + 1) got)
    else
      let c := s.buf (Ring.index INPUT_BUF s.r)
      let s := { s with r := s.r + 1 }
      if c = ctrl 'D' then (if n + 1 < target then { s with r := s.r - 1 } else s, .ret got)
      else if c = newline then (s, .ret (got ++ [c]))
      else readLoop target killed n s (got ++ [c])

variable {N : Nat}

inductive Reader where
  | idle
  /-- Sleeping on `&cons.r`. -/
  | sleeping (target n : Nat) (got : List UInt8)
  | runnable (target n : Nat) (got : List UInt8)

def Reader.wake : Reader → Reader
  | .sleeping target n got => .runnable target n got
  | x => x

inductive Act (N : Nat) where
  | input (c : UInt8)
  /-- A process calls `consoleread` for `n` characters; a negative count is as good as 0. -/
  | read (p : Fin N) (n : Int)
  /-- A process that was woken up gets `cons.lock`. -/
  | resume (p : Fin N)
  | kill (p : Fin N)
  /-- A new process takes the place of `p`. -/
  | fresh (p : Fin N)

/-- A buffer `κ` with its readers; `returned` lists what reads have returned, `none` for -1. -/
structure State (κ : Type) (N : Nat) where
  cons : κ
  reader : Fin N → Reader
  killed : Fin N → Bool
  returned : List (Fin N × Option (List UInt8))

structure Device (κ : Type) where
  intr : κ → UInt8 → κ × Bool
  read : (target : Nat) → (killed : Bool) → (n : Nat) → κ → List UInt8 → κ × ReadEnd

section Device

variable {κ : Type} (D : Device κ)

def pause (s : State κ N) (p : Fin N) (target : Nat) (cons : κ) : ReadEnd → State κ N
  | .sleep n got =>
    { s with cons := cons, reader := Function.update s.reader p (.sleeping target n got) }
  | .ret got =>
    { s with
      cons := cons
      reader := Function.update s.reader p .idle
      returned := (p, some got) :: s.returned }
  | .killed =>
    { s with
      cons := cons
      reader := Function.update s.reader p .idle
      returned := (p, none) :: s.returned }

def readStep (s : State κ N) (p : Fin N) (target n : Nat) (got : List UInt8) : State κ N :=
  let stretch := D.read target (s.killed p) n s.cons got
  pause s p target stretch.1 stretch.2

def next (s : State κ N) : Act N → Outcome (State κ N) Empty
  | .input c =>
    let (cons, wake) := D.intr s.cons c
    .done { s with cons := cons, reader := fun q => if wake then (s.reader q).wake else s.reader q }
  | .read p n =>
    match s.reader p with
    | .idle => .done (readStep D s p n.toNat n.toNat [])
    | _ => .blocked
  | .resume p =>
    match s.reader p with
    | .runnable target n got => .done (readStep D s p target n got)
    | _ => .blocked
  | .kill p =>
    .done { s with
      killed := Function.update s.killed p true
      reader := Function.update s.reader p (s.reader p).wake }
  | .fresh p =>
    match s.reader p with
    | .idle => .done { s with killed := Function.update s.killed p false }
    | _ => .blocked

def machine (N : Nat) (start : κ → Prop) : Machine (State κ N) (Act N) Empty where
  init s := start s.cons ∧ (∀ p, s.reader p = .idle ∧ s.killed p = false) ∧ s.returned = []
  next := next D

end Device

/-- The driver of `console.c`. -/
def driver : Device Cons := ⟨consoleintr, readLoop⟩

/-- What the console is for: the committed characters and the line that can still be edited. -/
@[ext]
structure Line where
  committed : List UInt8
  edit : List UInt8

def Line.length (l : Line) : Nat := l.committed.length + l.edit.length

def Line.store (l : Line) (c : UInt8) : Line × Bool :=
  if c = newline ∨ c = ctrl 'D' ∨ l.length + 1 = INPUT_BUF then
    (⟨l.committed ++ l.edit ++ [c], []⟩, true)
  else (⟨l.committed, l.edit ++ [c]⟩, false)

def Line.intr (l : Line) (c : UInt8) : Line × Bool :=
  if c = 0 ∨ c = ctrl 'P' then (l, false)
  else if c = ctrl 'U' then (⟨l.committed, []⟩, false)
  else if c = ctrl 'H' ∨ c = delete then (⟨l.committed, l.edit.dropLast⟩, false)
  else if l.length < INPUT_BUF then
    l.store (if c = carriageReturn then newline else c)
  else (l, false)

def takeLine (killed : Bool) : (n : Nat) → List UInt8 → List UInt8 → List UInt8 × ReadEnd
  | 0, q, got => (q, .ret got)
  | n + 1, [], got => ([], if killed then .killed else .sleep (n + 1) got)
  | n + 1, c :: q, got =>
    if c = ctrl 'D' then (if got = [] then q else c :: q, .ret got)
    else if c = newline then (q, .ret (got ++ [c]))
    else takeLine killed n q (got ++ [c])

def discipline : Device Line where
  intr := Line.intr
  read _ killed n l got :=
    let taken := takeLine killed n l.committed got
    (⟨taken.1, l.edit⟩, taken.2)

def Cons.ring (s : Cons) : Ring UInt8 INPUT_BUF := ⟨s.buf, s.r, s.e⟩

def Cons.mark (s : Cons) : Nat := (s.w - s.r).toNat

def Cons.line (s : Cons) : Line := ⟨s.ring.contents.take s.mark, s.ring.contents.drop s.mark⟩

/-- The indices are in order, modulo `2 ^ 32`, and a line that is being edited has no newline. -/
structure Ok (s : Cons) : Prop where
  mark_le : s.mark ≤ s.ring.size
  size_le : s.ring.size ≤ INPUT_BUF
  plain : newline ∉ s.line.edit

section Buffer

variable {s : Cons}

theorem length_contents (s : Cons) : s.ring.contents.length = s.ring.size := by
  simp [Ring.contents]

theorem line_length (s : Cons) : s.line.length = s.ring.size := by
  have happ := congrArg List.length (List.take_append_drop s.mark s.ring.contents)
  rw [List.length_append, length_contents] at happ
  exact happ

theorem mark_eq_size_iff (s : Cons) : s.mark = s.ring.size ↔ s.e = s.w := by
  rw [Cons.mark, Ring.size, UInt32.toNat_inj]
  constructor
  · intro h
    have h : s.w - s.r = s.e - s.r := h
    have := s.r.toNat_lt
    have := s.w.toNat_lt
    have := s.e.toNat_lt
    simp only [← UInt32.toNat_inj, UInt32.toNat_sub] at h ⊢
    omega
  · intro h
    change s.w - s.r = s.e - s.r
    rw [h]

theorem committed_nil_iff (h : Ok s) : s.line.committed = [] ↔ s.r = s.w := by
  have hlen : s.line.committed.length = s.mark := by
    change (s.ring.contents.take s.mark).length = s.mark
    rw [List.length_take, length_contents]
    exact min_eq_left h.mark_le
  rw [← List.length_eq_zero_iff, hlen, Cons.mark]
  have := s.r.toNat_lt
  have := s.w.toNat_lt
  simp only [← UInt32.toNat_inj, UInt32.toNat_sub]
  omega

def Cons.back (s : Cons) : Cons := { s with e := s.e - 1 }

theorem back_spec (h : Ok s) (hne : s.e ≠ s.w) :
    ∃ c, s.line.edit = s.back.line.edit ++ [c] ∧ c = s.buf (Ring.index INPUT_BUF (s.e - 1)) ∧
      s.back.line.committed = s.line.committed ∧ s.back.mark = s.mark ∧
      s.back.ring.size + 1 = s.ring.size := by
  have hlt : s.mark < s.ring.size := lt_of_le_of_ne h.mark_le fun e => hne ((mark_eq_size_iff s).mp e)
  have hemp : s.ring.isEmpty = false := by
    by_contra he
    have := s.ring.isEmpty_iff.mp (by simpa using he)
    omega
  have hsize := Ring.size_unpush hemp
  have hcont := Ring.contents_unpush hemp
  have hring : s.back.ring = s.ring.unpush := rfl
  have hmark : s.mark ≤ s.ring.unpush.contents.length := by
    rw [← hring, length_contents, hring]
    omega
  refine ⟨_, ?_, rfl, ?_, rfl, hsize⟩
  · change s.ring.contents.drop s.mark = s.ring.unpush.contents.drop s.mark ++ [s.ring.last]
    rw [hcont, List.drop_append_of_le_length hmark]
  · change s.ring.unpush.contents.take s.mark = s.ring.contents.take s.mark
    rw [hcont, List.take_append_of_le_length hmark]

theorem back_ok (h : Ok s) (hne : s.e ≠ s.w) : Ok s.back := by
  obtain ⟨c, hedit, -, -, hmark, hsize⟩ := back_spec h hne
  have hlt : s.mark < s.ring.size := lt_of_le_of_ne h.mark_le fun e => hne ((mark_eq_size_iff s).mp e)
  have hcap := h.size_le
  refine ⟨by omega, by omega, fun hmem => h.plain ?_⟩
  rw [hedit]
  exact List.mem_append_left _ hmem

theorem back_line (h : Ok s) (hne : s.e ≠ s.w) :
    s.back.line = ⟨s.line.committed, s.line.edit.dropLast⟩ := by
  obtain ⟨c, hedit, -, hcomm, -⟩ := back_spec h hne
  rw [hedit, List.dropLast_concat, ← hcomm]

theorem edit_nil (he : s.e = s.w) : s.line.edit = [] := by
  change s.ring.contents.drop s.mark = []
  rw [List.drop_eq_nil_iff, length_contents, (mark_eq_size_iff s).mpr he]

theorem killLine_spec {n : Nat} (h : Ok s) (hn : (s.e - s.w).toNat = n) :
    Ok (killLine n s) ∧ (killLine n s).line = ⟨s.line.committed, []⟩ := by
  induction n generalizing s with
  | zero =>
    have he : s.e = s.w := by
      have := s.e.toNat_lt
      have := s.w.toNat_lt
      simp only [← UInt32.toNat_inj, UInt32.toNat_sub] at hn ⊢
      omega
    refine ⟨h, ?_⟩
    rw [← edit_nil he]
    rfl
  | succ n ih =>
    have hne : s.e ≠ s.w := by
      rintro he
      rw [he] at hn
      simp at hn
    obtain ⟨c, hedit, hc, hcomm, -⟩ := back_spec h hne
    have hplain : s.buf (Ring.index INPUT_BUF (s.e - 1)) ≠ newline := by
      rintro hnl
      apply h.plain
      rw [hedit, hc, hnl]
      exact List.mem_append_right _ List.mem_cons_self
    have hn' : (s.back.e - s.back.w).toNat = n := by
      have := s.e.toNat_lt
      have := s.w.toNat_lt
      change (s.e - 1 - s.w).toNat = n
      simp only [UInt32.toNat_sub, UInt32.toNat_one] at hn ⊢
      omega
    obtain ⟨hok, hline⟩ := ih (back_ok h hne) hn'
    rw [killLine, if_pos ⟨hne, hplain⟩]
    refine ⟨hok, hline.trans ?_⟩
    rw [hcomm]

theorem type_contents (hlt : s.ring.size < INPUT_BUF) (c : UInt8) :
    (s.type c).ring.contents = s.ring.contents ++ [c] :=
  Ring.contents_push (by decide) (by decide) hlt c

theorem type_size (hlt : s.ring.size < INPUT_BUF) (c : UInt8) :
    (s.type c).ring.size = s.ring.size + 1 :=
  Ring.size_push (by decide) hlt c

theorem type_line (h : Ok s) (hlt : s.ring.size < INPUT_BUF) (c : UInt8) :
    (s.type c).line = ⟨s.line.committed, s.line.edit ++ [c]⟩ := by
  have hmark : s.mark ≤ s.ring.contents.length := by
    rw [length_contents]
    exact h.mark_le
  ext1
  · change (s.type c).ring.contents.take s.mark = s.ring.contents.take s.mark
    rw [type_contents hlt, List.take_append_of_le_length hmark]
  · change (s.type c).ring.contents.drop s.mark = s.ring.contents.drop s.mark ++ [c]
    rw [type_contents hlt, List.drop_append_of_le_length hmark]

theorem type_ok (h : Ok s) (hlt : s.ring.size < INPUT_BUF) {c : UInt8} (hc : c ≠ newline) :
    Ok (s.type c) := by
  have hsize := type_size hlt c
  have hmark : (s.type c).mark = s.mark := rfl
  have hle := h.mark_le
  refine ⟨by omega, by omega, ?_⟩
  rw [type_line h hlt]
  intro hmem
  rcases List.mem_append.mp hmem with hmem | hmem
  · exact h.plain hmem
  · exact hc (List.mem_singleton.mp hmem).symm

theorem commit_mark (s : Cons) : s.commit.mark = s.ring.size := rfl

theorem commit_line (s : Cons) : s.commit.line = ⟨s.ring.contents, []⟩ := by
  ext1
  · change s.ring.contents.take s.ring.size = s.ring.contents
    exact List.take_of_length_le (length_contents s).le
  · change s.ring.contents.drop s.ring.size = []
    exact List.drop_eq_nil_of_le (length_contents s).le

theorem commit_ok (h : s.ring.size ≤ INPUT_BUF) : Ok s.commit := by
  refine ⟨(commit_mark s).le, h, ?_⟩
  rw [commit_line]
  exact List.not_mem_nil

theorem room_iff (s : Cons) : s.e - s.r < UInt32.ofNat INPUT_BUF ↔ s.line.length < INPUT_BUF := by
  rw [line_length, UInt32.lt_iff_toNat_lt]
  rfl

theorem full_iff (hlt : s.ring.size < INPUT_BUF) (c : UInt8) :
    (s.type c).e = (s.type c).r + UInt32.ofNat INPUT_BUF ↔ s.line.length + 1 = INPUT_BUF := by
  have hcap : INPUT_BUF < 2 ^ 32 := by decide
  have hfull := Ring.isFull_iff hcap (s.type c).ring
  rw [type_size hlt, Ring.isFull, decide_eq_true_eq] at hfull
  rw [line_length]
  exact hfull

theorem store_spec (h : Ok s) (hlt : s.ring.size < INPUT_BUF) (c : UInt8) :
    Ok (s.store c).1 ∧ ((s.store c).1.line, (s.store c).2) = s.line.store c := by
  have hcond : (c = newline ∨ c = ctrl 'D' ∨ (s.type c).e = (s.type c).r + UInt32.ofNat INPUT_BUF) ↔
      (c = newline ∨ c = ctrl 'D' ∨ s.line.length + 1 = INPUT_BUF) := by
    rw [full_iff hlt]
  by_cases hdue : c = newline ∨ c = ctrl 'D' ∨ s.line.length + 1 = INPUT_BUF
  · have hs : s.store c = ((s.type c).commit, true) := if_pos (hcond.mpr hdue)
    have hsize : (s.type c).ring.size ≤ INPUT_BUF := by
      rw [type_size hlt]
      exact hlt
    have hall : s.line.committed ++ s.line.edit = s.ring.contents :=
      List.take_append_drop s.mark s.ring.contents
    rw [hs, Line.store, if_pos hdue]
    refine ⟨commit_ok hsize, ?_⟩
    rw [commit_line, type_contents hlt, hall]
  · have hs : s.store c = (s.type c, false) := if_neg (fun hc => hdue (hcond.mp hc))
    rw [hs, Line.store, if_neg hdue]
    refine ⟨type_ok h hlt fun hc => hdue (Or.inl hc), ?_⟩
    rw [type_line h hlt]

theorem consoleintr_spec (h : Ok s) (c : UInt8) : Ok (consoleintr s c).1 ∧
    ((consoleintr s c).1.line, (consoleintr s c).2) = s.line.intr c := by
  have h0 : (0 : UInt8) ≠ ctrl 'P' ∧ (0 : UInt8) ≠ ctrl 'U' ∧ (0 : UInt8) ≠ ctrl 'H' ∧
      (0 : UInt8) ≠ delete := by decide
  rw [consoleintr, Line.intr]
  by_cases hP : c = ctrl 'P'
  · rw [if_pos hP, if_pos (Or.inr hP)]
    exact ⟨h, rfl⟩
  by_cases hU : c = ctrl 'U'
  · have hne : ¬(c = 0 ∨ c = ctrl 'P') := by
      rintro (rfl | he)
      · exact h0.2.1 hU
      · exact hP he
    obtain ⟨hok, hline⟩ := killLine_spec h rfl
    rw [if_neg hP, if_pos hU, if_neg hne, if_pos hU]
    exact ⟨hok, by rw [hline]⟩
  by_cases hH : c = ctrl 'H' ∨ c = delete
  · have hne : ¬(c = 0 ∨ c = ctrl 'P') := by
      rintro (rfl | he)
      · exact hH.elim h0.2.2.1 h0.2.2.2
      · exact hP he
    rw [if_neg hP, if_neg hU, if_pos hH, if_neg hne, if_neg hU, if_pos hH]
    by_cases he : s.e = s.w
    · rw [if_neg (not_not_intro he)]
      refine ⟨h, ?_⟩
      have hnil := edit_nil he
      change (s.line, false) = (⟨s.line.committed, s.line.edit.dropLast⟩, false)
      rw [hnil, List.dropLast_nil, ← hnil]
    · rw [if_pos he]
      exact ⟨back_ok h he, congrArg (·, false) (back_line h he)⟩
  by_cases hz : c = 0
  · rw [if_neg hP, if_neg hU, if_neg hH, if_neg (fun hc => hc.1 hz), if_pos (Or.inl hz)]
    exact ⟨h, rfl⟩
  rw [if_neg hP, if_neg hU, if_neg hH, if_neg (not_or.mpr ⟨hz, hP⟩), if_neg hU, if_neg hH]
  by_cases hroom : s.line.length < INPUT_BUF
  · rw [if_pos ⟨hz, (room_iff s).mpr hroom⟩, if_pos hroom]
    exact store_spec h (by rwa [line_length] at hroom) _
  · rw [if_neg (fun hc => hroom ((room_iff s).mp hc.2)), if_neg hroom]
    exact ⟨h, rfl⟩

def Cons.advance (s : Cons) : Cons := { s with r := s.r + 1 }

theorem advance_mark (hne : s.r ≠ s.w) : s.advance.mark + 1 = s.mark := by
  have := s.r.toNat_lt
  have := s.w.toNat_lt
  have hne : s.r.toNat ≠ s.w.toNat := fun e => hne (UInt32.toNat_inj.mp e)
  change (s.w - (s.r + 1)).toNat + 1 = (s.w - s.r).toNat
  simp only [UInt32.toNat_sub, UInt32.toNat_add, UInt32.toNat_one]
  omega

theorem advance_spec (h : Ok s) (hne : s.r ≠ s.w) :
    Ok s.advance ∧ s.line.edit = s.advance.line.edit ∧
      s.line.committed = s.buf (Ring.index INPUT_BUF s.r) :: s.advance.line.committed := by
  have hmark := advance_mark hne
  have hle := h.mark_le
  have hemp : s.ring.isEmpty = false := by
    by_contra he
    have := s.ring.isEmpty_iff.mp (by simpa using he)
    omega
  have hcont := Ring.contents_pop hemp
  have hring : s.advance.ring = s.ring.pop := rfl
  have hsize : s.advance.ring.size + 1 = s.ring.size := by
    rw [hring]
    exact Ring.size_pop hemp
  have hcap := h.size_le
  have hedit : s.line.edit = s.advance.line.edit := by
    change s.ring.contents.drop s.mark = s.ring.pop.contents.drop s.advance.mark
    rw [hcont, ← hmark, List.drop_succ_cons]
  have hcomm : s.line.committed = s.ring.front :: s.advance.line.committed := by
    change s.ring.contents.take s.mark = s.ring.front :: s.ring.pop.contents.take s.advance.mark
    rw [hcont, ← hmark, List.take_succ_cons]
  refine ⟨⟨by omega, by omega, ?_⟩, hedit, hcomm⟩
  rw [← hedit]
  exact h.plain

theorem readLoop_spec (killed : Bool) {target n : Nat} {got : List UInt8} (h : Ok s)
    (hn : n + got.length = target) :
    Ok (readLoop target killed n s got).1 ∧
      (readLoop target killed n s got).1.line =
        ⟨(takeLine killed n s.line.committed got).1, s.line.edit⟩ ∧
      (readLoop target killed n s got).2 = (takeLine killed n s.line.committed got).2 := by
  -- the loop of the driver and the recursion of the model take out the same characters
  induction n generalizing s got with
  | zero => exact ⟨h, rfl, rfl⟩
  | succ n ih =>
    by_cases hempty : s.r = s.w
    · have hnil := (committed_nil_iff h).mpr hempty
      rw [readLoop, if_pos hempty, hnil, takeLine]
      refine ⟨h, ?_, rfl⟩
      change s.line = ⟨[], s.line.edit⟩
      rw [← hnil]
    · obtain ⟨hok, hedit, hcomm⟩ := advance_spec h hempty
      rw [readLoop, if_neg hempty, hcomm, takeLine]
      by_cases hD : s.buf (Ring.index INPUT_BUF s.r) = ctrl 'D'
      · rw [if_pos hD, if_pos hD]
        by_cases hgot : got = []
        · have hlast : ¬n + 1 < target := by
            rw [hgot] at hn
            simp at hn
            omega
          rw [if_neg hlast, if_pos hgot]
          refine ⟨hok, ?_, rfl⟩
          rw [hedit]
          rfl
        · have hmore : n + 1 < target := by
            have := List.length_pos_of_ne_nil hgot
            omega
          have hback : ({ s with r := s.r + 1 - 1 } : Cons) = s := by
            rw [UInt32.add_sub_cancel]
          rw [if_pos hmore, if_neg hgot]
          change Ok { s with r := s.r + 1 - 1 } ∧ Cons.line { s with r := s.r + 1 - 1 } = _ ∧ _
          rw [hback]
          refine ⟨h, ?_, rfl⟩
          rw [← hcomm]
      · rw [if_neg hD, if_neg hD]
        by_cases hnl : s.buf (Ring.index INPUT_BUF s.r) = newline
        · rw [if_pos hnl, if_pos hnl]
          refine ⟨hok, ?_, rfl⟩
          rw [hedit]
          rfl
        · rw [if_neg hnl, if_neg hnl, hedit]
          refine ih hok ?_
          rw [List.length_append, List.length_singleton]
          omega

end Buffer

section Model

theorem store_committed {l : Line} {c : UInt8} (h : (l.store c).2 = false) :
    (l.store c).1.committed = l.committed := by
  rw [Line.store] at h ⊢
  split_ifs at h ⊢
  rfl

theorem intr_committed {l : Line} {c : UInt8} (h : (l.intr c).2 = false) :
    (l.intr c).1.committed = l.committed := by
  rw [Line.intr] at h ⊢
  generalize (if c = carriageReturn then newline else c) = d at h ⊢
  split_ifs at h ⊢
  · rfl
  · rfl
  · rfl
  · exact store_committed h
  · rfl

theorem takeLine_nil (killed : Bool) (n : Nat) (got : List UInt8) :
    (takeLine killed n [] got).1 = [] := by
  cases n <;> rfl

theorem takeLine_sleep {killed : Bool} {n n' : Nat} {q got got' : List UInt8}
    (h : (takeLine killed n q got).2 = .sleep n' got') :
    (takeLine killed n q got).1 = [] ∧ n' + got'.length = n + got.length := by
  induction n generalizing q got with
  | zero => cases h
  | succ n ih =>
    cases q with
    | nil =>
      cases killed with
      | true => cases h
      | false =>
        cases h
        exact ⟨rfl, rfl⟩
    | cons c q =>
      rw [takeLine] at h ⊢
      by_cases hD : c = ctrl 'D'
      · rw [if_pos hD] at h
        cases h
      · rw [if_neg hD] at h ⊢
        by_cases hnl : c = newline
        · rw [if_pos hnl] at h
          cases h
        · rw [if_neg hnl] at h ⊢
          obtain ⟨hnil, hlen⟩ := ih h
          refine ⟨hnil, hlen.trans ?_⟩
          rw [List.length_append, List.length_singleton]
          omega

end Model

section Simulation

variable {κ κ' : Type}

def State.map (f : κ → κ') (s : State κ N) : State κ' N :=
  ⟨f s.cons, s.reader, s.killed, s.returned⟩

def Reader.Ok : Reader → Prop
  | .idle => True
  | .sleeping target n got | .runnable target n got => n + got.length = target

theorem Reader.Ok.wake {x : Reader} (h : x.Ok) : x.wake.Ok := by
  cases x <;> exact h

theorem wake_ne_sleeping (x : Reader) (target n : Nat) (got : List UInt8) :
    x.wake ≠ .sleeping target n got := by
  cases x <;> simp [Reader.wake]

structure Inv (s : State Cons N) : Prop where
  cons : Ok s.cons
  reader : ∀ p, (s.reader p).Ok
  asleep : ∀ p target n got, s.reader p = .sleeping target n got → s.cons.line.committed = []

variable {s s' : State Cons N} {p : Fin N} {target n : Nat} {got : List UInt8}

theorem forall_reader {Q : Reader → Prop} {f : Fin N → Reader} {x : Reader} (h : ∀ q, Q (f q))
    (hx : Q x) (q : Fin N) : Q (Function.update f p x q) := by
  by_cases hq : q = p
  · subst hq
    rwa [Function.update_self]
  · rw [Function.update_of_ne hq]
    exact h q

theorem Inv.pause (h : Inv s) {cons : Cons} {e : ReadEnd} (hok : Ok cons)
    (hkeep : s.cons.line.committed = [] → cons.line.committed = [])
    (he : ∀ m g, e = .sleep m g → cons.line.committed = [] ∧ m + g.length = target) :
    Inv (Input.pause s p target cons e) := by
  have hq : ∀ x : Reader, (∀ t m g, x = .sleeping t m g → cons.line.committed = []) →
      ∀ q t m g, Function.update s.reader p x q = .sleeping t m g → cons.line.committed = [] := by
    intro x hx q t m g hr
    by_cases hqp : q = p
    · subst hqp
      rw [Function.update_self] at hr
      exact hx t m g hr
    · rw [Function.update_of_ne hqp] at hr
      exact hkeep (h.asleep q t m g hr)
  cases e with
  | sleep m g =>
    obtain ⟨hnil, hlen⟩ := he m g rfl
    exact ⟨hok, forall_reader h.reader hlen, hq _ fun _ _ _ _ => hnil⟩
  | ret g => exact ⟨hok, forall_reader h.reader trivial, hq _ fun _ _ _ hr => by cases hr⟩
  | killed => exact ⟨hok, forall_reader h.reader trivial, hq _ fun _ _ _ hr => by cases hr⟩

theorem pause_map {κ κ' : Type} (f : κ → κ') (s : State κ N) (p : Fin N) (target : Nat) (cons : κ)
    (e : ReadEnd) : pause (s.map f) p target (f cons) e = (pause s p target cons e).map f := by
  cases e <;> rfl

theorem Inv.read (h : Inv s) (hn : n + got.length = target) :
    Inv (readStep driver s p target n got) ∧
      readStep discipline (s.map Cons.line) p target n got =
        (readStep driver s p target n got).map Cons.line := by
  obtain ⟨hok, hline, hend⟩ := readLoop_spec (s.killed p) h.cons hn
  have hnil : s.cons.line.committed = [] →
      (readLoop target (s.killed p) n s.cons got).1.line.committed = [] := by
    intro hnil
    rw [hline, hnil]
    exact takeLine_nil ..
  have hsleep : ∀ m g, (readLoop target (s.killed p) n s.cons got).2 = .sleep m g →
      (readLoop target (s.killed p) n s.cons got).1.line.committed = [] ∧ m + g.length = target := by
    intro m g he
    have he := takeLine_sleep (hend.symm.trans he)
    rw [hline]
    exact ⟨he.1, he.2.trans hn⟩
  constructor
  · exact h.pause hok hnil hsleep
  · refine Eq.trans ?_ (pause_map Cons.line s p target _ _)
    change Input.pause (s.map Cons.line) p target ⟨(takeLine (s.killed p) n s.cons.line.committed got).1,
      s.cons.line.edit⟩ (takeLine (s.killed p) n s.cons.line.committed got).2 = _
    rw [← hline, ← hend]
    rfl

theorem Inv.step {a : Act N} (h : Inv s) (hn : next driver s a = .done s') :
    Inv s' ∧ next discipline (s.map Cons.line) a = .done (s'.map Cons.line) := by
  cases a with
  | input c =>
    obtain ⟨hok, hline⟩ := consoleintr_spec h.cons c
    have h1 : (consoleintr s.cons c).1.line = (s.cons.line.intr c).1 := congrArg Prod.fst hline
    have h2 : (consoleintr s.cons c).2 = (s.cons.line.intr c).2 := congrArg Prod.snd hline
    cases hn
    constructor
    · cases hw : (consoleintr s.cons c).2 with
      | true =>
        refine ⟨hok, fun p => ?_, fun p t m g hr => ?_⟩
        · change (if (consoleintr s.cons c).2 then (s.reader p).wake else s.reader p).Ok
          rw [hw]
          exact (h.reader p).wake
        · change (if (consoleintr s.cons c).2 then (s.reader p).wake else s.reader p) = _ at hr
          rw [hw] at hr
          exact absurd hr (wake_ne_sleeping _ t m g)
      | false =>
        refine ⟨hok, fun p => ?_, fun p t m g hr => ?_⟩
        · change (if (consoleintr s.cons c).2 then (s.reader p).wake else s.reader p).Ok
          rw [hw]
          exact h.reader p
        · change (if (consoleintr s.cons c).2 then (s.reader p).wake else s.reader p) = _ at hr
          rw [hw] at hr
          change (consoleintr s.cons c).1.line.committed = []
          rw [h1, intr_committed (h2.symm.trans hw)]
          exact h.asleep p t m g hr
    · change Outcome.done (State.mk (s.cons.line.intr c).1 (fun q =>
        if (s.cons.line.intr c).2 then (s.reader q).wake else s.reader q) s.killed s.returned) = _
      rw [← h1, ← h2]
      rfl
  | read p n =>
    simp only [next] at hn
    split at hn
    · next hp =>
      cases hn
      have hn : n.toNat + ([] : List UInt8).length = n.toNat := rfl
      obtain ⟨hinv, hmap⟩ := h.read (p := p) hn
      refine ⟨hinv, ?_⟩
      rw [← hmap]
      simp [next, State.map, hp]
    · cases hn
  | resume p =>
    simp only [next] at hn
    split at hn
    · next t m g hp =>
      cases hn
      have hok := h.reader p
      rw [hp] at hok
      obtain ⟨hinv, hmap⟩ := h.read (p := p) hok
      refine ⟨hinv, ?_⟩
      rw [← hmap]
      simp [next, State.map, hp]
    · cases hn
  | kill p =>
    cases hn
    refine ⟨⟨h.cons, forall_reader h.reader (h.reader p).wake, fun q t m g hr => ?_⟩, rfl⟩
    by_cases hqp : q = p
    · subst hqp
      change Function.update s.reader q _ q = _ at hr
      rw [Function.update_self] at hr
      exact absurd hr (wake_ne_sleeping _ t m g)
    · change Function.update s.reader p _ q = _ at hr
      rw [Function.update_of_ne hqp] at hr
      exact h.asleep q t m g hr
  | fresh p =>
    simp only [next] at hn
    split at hn
    · next hp =>
      cases hn
      refine ⟨⟨h.cons, h.reader, h.asleep⟩, ?_⟩
      simp [next, State.map, hp]
    · cases hn

def Cons.boot : Cons := ⟨fun _ => 0, 0, 0, 0⟩

/-- The console is a line discipline: every run is a run of the model with the same actions,
and the same results of reads. -/
theorem console_line_discipline {τ : List (Act N)}
    (h : Run (machine driver N (· = Cons.boot)) anyStep τ s) :
    Run (machine discipline N (· = ⟨[], []⟩)) anyStep τ (s.map Cons.line) ∧
    s.cons.line.length ≤ INPUT_BUF ∧
    (s.cons.w - s.cons.r).toNat ≤ (s.cons.e - s.cons.r).toNat ∧
    (s.cons.e - s.cons.r).toNat ≤ INPUT_BUF ∧
    ∀ p target n got, s.reader p = .sleeping target n got → s.cons.line.committed = [] := by
  suffices hall : Inv s ∧ Run (machine discipline N (· = ⟨[], []⟩)) anyStep τ (s.map Cons.line) by
    refine ⟨hall.2, ?_, hall.1.cons.mark_le, hall.1.cons.size_le, hall.1.asleep⟩
    rw [line_length]
    exact hall.1.cons.size_le
  refine Run.induct (I := fun τ s => Inv s ∧
    Run (machine discipline N (· = ⟨[], []⟩)) anyStep τ (s.map Cons.line)) ?_ ?_ h
  · rintro s ⟨hcons, hreader, hret⟩
    have hline : s.cons.line = ⟨[], []⟩ := by rw [hcons]; rfl
    refine ⟨⟨?_, fun p => ?_, fun _ _ _ _ _ => by rw [hline]⟩, .start ⟨hline, hreader, hret⟩⟩
    · rw [hcons]
      exact ⟨by decide, by decide, by decide⟩
    · rw [(hreader p).1]
      trivial
  · rintro τ s a s' ⟨hinv, hrun⟩ hok hn
    obtain ⟨hinv', hn'⟩ := hinv.step hn
    exact ⟨hinv', .step hrun trivial hn'⟩

def typeHi : List (Act 1) :=
  [.read 0 10, .input 104, .input 120, .input (ctrl 'H'), .input 105, .input carriageReturn,
    .resume 0]

theorem console_line_discipline_hi : ∃ (τ : List (Act 1)) (s : State Cons 1),
    s.returned = [(0, some [104, 105, newline])] ∧
    Run (machine discipline 1 (· = ⟨[], []⟩)) anyStep τ (s.map Cons.line) := by
  let start : State Cons 1 := ⟨Cons.boot, fun _ => .idle, fun _ => false, []⟩
  have h : (perform (machine driver 1 (· = Cons.boot)) (fun _ _ => true) start typeHi).any
      (fun s => s.returned = [(0, some [104, 105, newline])]) = true := by decide +kernel
  have hinit : (machine driver 1 (· = Cons.boot)).init start := ⟨rfl, fun _ => ⟨rfl, rfl⟩, rfl⟩
  obtain ⟨s, ⟨τ, hrun⟩, hs⟩ := Reachable.of_perform (P := anyStep) h hinit fun _ _ _ => trivial
  exact ⟨τ, s, of_decide_eq_true hs, (console_line_discipline hrun).1⟩

end Simulation

end Xv6.Console.Input

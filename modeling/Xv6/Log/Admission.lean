import Xv6.Log.Crash
import Xv6.Log.Reservation

namespace Xv6.Log

open Lib.Transition Relation

variable {P : Type} [DecidableEq P] {lg : LogArea} {s s' : State P} {p q : P}

def Pc.waiting : Pc → Bool
  | .begin | .asleep => true
  | _ => false

/-- The steps with which the others end what they have begun, and those of `p` in `begin_op`. -/
def Act.ends (p : P) : Act P → Bool
  | .endOp _ | .commit _ | .endCommit _ => true
  | .beginOp q => q = p
  | _ => false

/-- Such a step. `commit` reads a block of the log while the buffers of the logged blocks are pinned,
so one of the `NBUF` buffers has to be left. -/
def Ends (lg : LogArea) (p : P) (s s' : State P) : Prop :=
  s.lh.length < NBUF ∧ ∃ a, a.ends p ∧ next lg s a = .done s'

def Admits (lg : LogArea) (p : P) (s : State P) : Prop :=
  ∃ s', ReflTransGen (Ends lg p) s s' ∧ s'.pc p = .active .new

/-- Runs in which `log_write` is one step. -/
def wholeWrite (_ : State P) : Act P → Bool
  | .logCheck _ _ _ => false
  | _ => true

def Pc.isLogging : Pc → Bool
  | .logging _ _ _ => true
  | _ => false

def Pc.commitRank (n : Nat) : Pc → Nat
  | .commit .start => 2 * n + 6
  | .commit (.writeLog tail) => n - tail + n + 5
  | .commit .writeHead => n + 4
  | .commit (.installTrans tail) => n - tail + 3
  | .commit .clearHead => 2
  | .finish => 1
  | _ => 0

theorem commitRank_lt (c : CommitPc) :
    (commitNext s.lh c).commitRank (commitStep lg s p c).lh.length <
      (Pc.commit c).commitRank s.lh.length := by
  cases c with
  | start =>
    simp only [commitNext, commitStep, State.setPc_lh]
    split <;> simp only [Pc.commitRank] <;> omega
  | writeHead | clearHead => simp [commitNext, commitStep, Pc.commitRank]
  | writeLog tail | installTrans tail =>
    cases h : s.lh[tail]? with
    | none => simp [commitNext, commitStep, h, Pc.commitRank]
    | some b =>
      obtain ⟨hlt, -⟩ := List.getElem?_eq_some_iff.mp h
      simp only [commitNext, commitStep, h, Pc.commitRank, State.setPc_lh]
      omega

theorem whole_update {c : Pc} (h : ∀ q, (s.pc q).isLogging = false) (hc : c.isLogging = false)
    (q : P) : (Function.update s.pc p c q).isLogging = false := by
  by_cases hq : q = p
  · rwa [hq, Function.update_self]
  · rw [Function.update_of_ne hq]
    exact h q

omit [DecidableEq P] in
theorem whole_wakeup (h : ∀ q, (s.pc q).isLogging = false) (q : P) :
    (s.wakeup.pc q).isLogging = false := by
  have hw : ∀ c : Pc, c.wakeup.isLogging = c.isLogging := by rintro ⟨⟩ <;> rfl
  exact (hw _).trans (h q)

theorem isLogging_commitNext (lh : List Nat) (c : CommitPc) : (commitNext lh c).isLogging = false := by
  cases c <;> simp only [commitNext] <;> (try split) <;> rfl

theorem whole_step {a : Act P} (h : ∀ q, (s.pc q).isLogging = false) (hok : wholeWrite s a)
    (hs : Step lg s a s') (q : P) : (s'.pc q).isLogging = false := by
  cases hs with
  | callBegin | sleep | start | spurious | logWrite | endLast => exact whole_update (s := s) h rfl q
  | logCheck => cases hok
  | @logStore p _ _ _ hp =>
    have hno := h p
    rw [hp] at hno
    cases hno
  | endOther | endCommit => exact whole_update (s := s.wakeup) (whole_wakeup h) rfl q
  | @commit p c =>
    rw [commitStep_pc]
    exact whole_update h (isLogging_commitNext ..) q

theorem few_step (hsize : lg.size ≤ NBUF) {a : Act P} (h : ∀ q, (s.pc q).isLogging = false)
    (hlen : s.lh.length < NBUF) (hs : Step lg s a s') : s'.lh.length < NBUF := by
  cases hs with
  | logWrite _ hc =>
    have hlt : (s.lh.length : Int) < lg.size - 1 := by
      unfold logCheck at hc
      split at hc
      · cases hc
      · omega
    change (logBlock s.lh _).length < NBUF
    unfold logBlock
    split
    · exact hlen
    · rw [List.length_append, List.length_singleton]
      omega
  | @logStore p _ _ _ hp =>
    have hno := h p
    rw [hp] at hno
    cases hno
  | @commit p c =>
    obtain hl | hl := commitStep_lh lg s p c
    · rwa [hl]
    · rw [hl]
      exact NBUF_pos
  | _ => exact hlen

theorem waiting_update {c : Pc} (hp : (s.pc p).waiting) (hq : (s.pc q).waiting = false) :
    (Function.update s.pc q c p).waiting := by
  rwa [Function.update_of_ne]
  rintro rfl
  rw [hq] at hp
  cases hp

theorem waiting_wakeup {c : Pc} (hp : (s.pc p).waiting) (hq : (s.pc q).waiting = false) :
    (Function.update s.wakeup.pc q c p).waiting := by
  have hw : ∀ c : Pc, c.wakeup.waiting = c.waiting := by rintro ⟨⟩ <;> rfl
  exact waiting_update ((hw _).trans hp) ((hw _).trans hq)

theorem Admits.head (hn : Ends lg p s s') (h : Admits lg p s') : Admits lg p s := by
  obtain ⟨t, ht, hp⟩ := h
  exact ⟨t, .head hn ht, hp⟩

variable [Fintype P]

/-- What holds in the runs that `wholeWrite` allows. -/
structure Light (s : State P) : Prop where
  inv : Inv s
  whole : ∀ q, (s.pc q).isLogging = false
  few : s.lh.length < NBUF

omit [DecidableEq P] in
theorem Light.init (h : Init s) : Light s := by
  obtain ⟨-, -, hl, hp, -⟩ := id h
  refine ⟨.init h, fun q => ?_, ?_⟩
  · rw [hp q]
    rfl
  · rw [hl]
    exact NBUF_pos

theorem Light.step {a : Act P} (hsize : lg.size ≤ NBUF) (h : Light s) (hok : wholeWrite s a)
    (hs : Step lg s a s') : Light s' :=
  ⟨h.inv.step hs, whole_step h.whole hok hs, few_step hsize h.whole h.few hs⟩

theorem admits_of_room (h : Light s) (hp : (s.pc p).waiting) (hw : ¬ MustWait s) :
    Admits lg p s := by
  have hb : s.pc p = .begin := by
    cases hc : s.pc p with
    | begin => rfl
    | asleep => exact absurd (h.inv.tidy.asleep p hc) hw
    | _ => simp [hc, Pc.waiting] at hp
  have hn : next lg s (.beginOp p) = .done (beginOp s p) := by simp only [next, hb]
  refine ⟨_, .single ⟨h.few, .beginOp p, by simp [Act.ends], hn⟩, ?_⟩
  rw [beginOp, if_neg fun hc => hw (.inl hc), if_neg fun hc => hw (.inr hc)]
  exact Function.update_self ..

theorem admits_of_commit (hsize : lg.size ≤ NBUF) (h : Light s) (hp : (s.pc p).waiting)
    (hq : (s.pc q).inCommit = 1) : Admits lg p s := by
  generalize hr : (s.pc q).commitRank s.lh.length = n
  induction n using Nat.strong_induction_on generalizing s with
  | h n ih =>
    cases hpc : s.pc q with
    | commit c =>
      have hn : next lg s (.commit q) = .done (commitStep lg s q c) := by simp only [next, hpc]
      have hq' : (commitStep lg s q c).pc q = commitNext s.lh c := by
        rw [commitStep_pc, Function.update_self]
      refine .head ⟨h.few, _, rfl, hn⟩ (ih _ ?_ (h.step hsize rfl (.commit hpc)) ?_ ?_ rfl)
      · rw [hq', ← hr, hpc]
        exact commitRank_lt c
      · rw [commitStep_pc]
        exact waiting_update hp (by rw [hpc]; rfl)
      · rw [hq']
        exact inCommit_commitNext s.lh c
    | finish =>
      have hs : Step lg s (.endCommit q) _ := .endCommit hpc
      refine .head ⟨h.few, .endCommit q, rfl, by simp only [next, hpc]⟩
        (admits_of_room (h.step hsize rfl hs) ?_ ?_)
      · exact waiting_wakeup (s := { s with committing := false }) hp (by rw [hpc]; rfl)
      · have ho := h.inv.counts.exclusive (h.inv.counts.committer hq)
        have hl := h.inv.tidy.cleared q (.inr hpc)
        simp [MustWait, State.wakeup, ho, hl, MAXOPBLOCKS, LOGSIZE]
    | _ => simp [hpc, Pc.inCommit] at hq

omit [DecidableEq P] in
theorem Counts.exists_op (h : Counts s) (ho : s.outstanding ≠ 0) : ∃ q op, (s.pc q).op? = some op := by
  rw [h.outstanding, Nat.cast_ne_zero] at ho
  obtain ⟨q, -, hq⟩ := Finset.exists_ne_zero_of_sum_ne_zero ho
  refine ⟨q, Option.isSome_iff_exists.mp ?_⟩
  by_contra hn
  exact hq (if_neg hn)

theorem admits (hsize : lg.size ≤ NBUF) (h : Light s) (hp : (s.pc p).waiting) : Admits lg p s := by
  generalize hr : total Pc.inOp s.pc = n
  induction n using Nat.strong_induction_on generalizing s with
  | h n ih =>
    by_cases hw : MustWait s
    swap
    · exact admits_of_room h hp hw
    have hcounts := h.inv.counts
    by_cases hc : s.committing = true
    · obtain ⟨q, hq⟩ := hcounts.exists_committer hc
      exact admits_of_commit hsize h hp hq
    replace hc := Bool.eq_false_of_not_eq_true hc
    have ho : s.outstanding ≠ 0 := by
      intro ho
      simp [MustWait, ho, hc, h.inv.tidy.quiet ho hc, MAXOPBLOCKS, LOGSIZE] at hw
    obtain ⟨q, op, hq⟩ := hcounts.exists_op ho
    -- an operation goes on; if it is the last one, its process commits
    cases hpc : s.pc q with
    | active op =>
      by_cases hone : s.outstanding = 1
      · have hs : Step lg s (.endOp q) _ := .endLast hpc hc hone
        refine .head ⟨h.few, .endOp q, rfl, ?_⟩
          (admits_of_commit (q := q) hsize (h.step hsize rfl hs) ?_ ?_)
        · simp [next, hpc, endOp, hc, hone]
        · exact waiting_update (s := s) hp (by rw [hpc]; rfl)
        · simp [Pc.inCommit]
      · have hs : Step lg s (.endOp q) _ := .endOther hpc hc hone
        refine .head ⟨h.few, .endOp q, rfl, ?_⟩ (ih _ ?_ (h.step hsize rfl hs) ?_ rfl)
        · have hne : s.outstanding - 1 ≠ 0 := by omega
          simp [next, hpc, endOp, hc, hne]
        · have hu := total_wakeup_update Pc.inOp_wakeup
            { s with outstanding := s.outstanding - 1 } q .idle
          have ha : (Pc.active op).inOp = 1 := rfl
          have hi : Pc.idle.inOp = 0 := rfl
          simp only [hpc, ha, hi] at hu
          simp only [State.setPc_pc]
          omega
        · exact waiting_wakeup (s := { s with outstanding := s.outstanding - 1 }) hp (by rw [hpc]; rfl)
    | logging =>
      have hno := h.whole q
      rw [hpc] at hno
      cases hno
    | _ => simp [hpc, Pc.op?] at hq

/-- If `log_write` is one step, a process in `begin_op` is never stuck, asleep or not: the others can
go on so that it is admitted, and for that they only have to end what they have begun. -/
theorem begin_op_is_admitted (hsize : lg.size ≤ NBUF)
    (h : Reachable (machine P lg) (wholeWrite · ·) s) (hp : (s.pc p).waiting) :
    ∃ s', ReflTransGen (Ends lg p) s s' ∧ s'.pc p = .active .new := by
  have hlight : Light s := h.invariant (fun _ => .init) fun _ _ _ hl hok hn =>
    hl.step hsize hok (step_of_next hn)
  exact admits hsize hlight hp

def sleeper : List (Act (Fin 2)) := [.callBegin 0, .beginOp 0, .endOp 0, .callBegin 1, .beginOp 1]

theorem begin_op_is_admitted_sleeper :
    ∃ s, Reachable (machine (Fin 2) mkfsLogArea) (wholeWrite · ·) s ∧ (s.pc 1).waiting ∧
      ∃ s', ReflTransGen (Ends mkfsLogArea 1) s s' ∧ s'.pc 1 = .active .new := by
  have h : (perform (machine (Fin 2) mkfsLogArea) wholeWrite (State.boot (Fin 2) fun _ _ => 0)
      sleeper).any fun s => (s.pc 1).waiting := by decide +kernel
  obtain ⟨s, hs, hw⟩ := (Option.any_eq_true _ _).mp h
  have hr := (Run.start (init_boot _)).perform hs
  exact ⟨s, ⟨_, hr⟩, hw, begin_op_is_admitted (by decide) ⟨_, hr⟩ hw⟩

end Xv6.Log

import Xv6.Process.Edits

namespace Xv6.Process

open Lib.Transition

section Definitions

variable {C : Type}

/-- `c->proc`, which the scheduler clears only after the switch back. -/
def Cpu.proc : Cpu → Option Slot
  | .run p _ | .back p _ => some p
  | _ => none

/-- The CPU executes on the kernel stack of process `p`. -/
def Executes (s : State C) (c : C) (p : Slot) : Prop := ∃ rest, s.cpu c = .run p rest

/-- A process in state `RUNNING` has a CPU. -/
def Placed (s : State C) : Prop := ∀ p, (s.proc p).state = .running → ∃ c, Executes s c p

theorem Cpu.eq_of_proc {u : Cpu} {p : Slot} (h : u.proc = some p) :
    ∃ rest, u = .run p rest ∨ u = .back p rest := by
  cases u with
  | run q rest =>
    cases h
    exact ⟨rest, Or.inl rfl⟩
  | back q rest =>
    cases h
    exact ⟨rest, Or.inr rfl⟩
  | _ => cases h

theorem Executes.proc {s : State C} {c : C} {p : Slot} (h : Executes s c p) :
    (s.cpu c).proc = some p := by
  obtain ⟨rest, hc⟩ := h
  rw [hc]
  rfl

variable {s : State C} {c : C} {p : Slot}

theorem Threads.executes_of_proc (h : Threads s) (hl : s.lock p = none)
    (hc : (s.cpu c).proc = some p) : Executes s c p := by
  obtain ⟨rest, hr | hb⟩ := Cpu.eq_of_proc hc
  · exact ⟨rest, hr⟩
  · have hheld : s.lock p = some c := by simp [h.locks, State.held, hb]
    simp [hl] at hheld

theorem Threads.running_of_executes (h : Threads s) (hl : s.lock p = none)
    (hc : Executes s c p) : (s.proc p).state = .running := by
  obtain ⟨rest, hc⟩ := hc
  refine h.state_running hc ?_
  by_contra hk
  obtain ⟨c', -, -, hl'⟩ := h.on_cpu_of_inSched (p := p) (by simpa using hk)
  simp [hl] at hl'

theorem Threads.not_unused_of_executes (h : Threads s) (hc : Executes s c p) :
    (s.proc p).state ≠ .unused := by
  obtain ⟨rest, hc⟩ := hc
  obtain hs | ⟨hs, -⟩ := h.running c p rest hc
  · simp [hs]
  · exact hs

end Definitions

variable {C : Type} [DecidableEq C] {s s' : State C} {c : C} {p : Slot} {rest : List Slot}

theorem ProcStep.running_of_running (h : Inv s) (hp : ProcStep s c p rest s') {q : Slot}
    (hq : (s'.proc q).state = .running) : (s.proc q).state = .running :=
  ((hp.edit h q).old_state (by simp) (by simp) hq).resolve_right fun h => h.2 rfl

theorem Placed.proc (h : Inv s) (hk : Placed s) (hr : s.cpu c = .run p rest)
    (hp : ProcStep s c p rest s') : Placed s' := by
  intro q hq
  obtain ⟨c', todo, hc'⟩ := hk q (hp.running_of_running h hq)
  obtain ⟨he, -⟩ | ⟨he, -, hs⟩ := hp.status h hr
  · exact ⟨c', todo, he ▸ hc'⟩
  · -- The process that leaves its CPU is not the one in state RUNNING.
    have hne : c' ≠ c := by
      rintro rfl
      rw [hr] at hc'
      cases hc'
      exact hs hq
    exact ⟨c', todo, (hp.cpu_eq h hr hne).trans hc'⟩

omit [DecidableEq C] in
theorem Executes.of_idle {c' : C} {q : Slot} (hidle : ∀ q todo, s.cpu c ≠ .run q todo)
    (hother : ∀ d, d ≠ c → s'.cpu d = s.cpu d) (hc : Executes s c' q) : Executes s' c' q := by
  obtain ⟨todo, hc⟩ := hc
  have hne : c' ≠ c := by
    rintro rfl
    exact hidle q todo hc
  exact ⟨todo, (hother c' hne).trans hc⟩

theorem Placed.step (h : Inv s) (hk : Placed s) (hs : Step s c s') : Placed s' := by
  cases hs with
  | rescan hc | lock hc | skip hc | back hc =>
    intro q hq
    obtain ⟨c', he⟩ := hk q hq
    exact ⟨c', he.of_idle (c := c) (by simp [hc]) fun d hd => by simp [hd]⟩
  | @switch i todo hc hi =>
    intro q hq
    by_cases hqi : q = i
    · subst hqi
      exact ⟨c, todo, by simp⟩
    · obtain ⟨c', he⟩ := hk q (by simpa [hqi] using hq)
      exact ⟨c', he.of_idle (c := c) (by simp [hc]) fun d hd => by simp [hd]⟩
  | proc hr hp => exact hk.proc h hr hp

omit [DecidableEq C] in
theorem Placed.boot : Placed (State.boot C) := by
  intro p hp
  by_cases hi : p = initproc <;> simp [State.boot, hi, Proc.free] at hp

theorem Placed.of_reachable {ok : State C → Act C → Prop} (h : Reachable (machine C) ok s) :
    Inv s ∧ Placed s := by
  refine h.invariant (I := fun s => Inv s ∧ Placed s) ?_ ?_
  · rintro _ rfl
    exact ⟨.boot, .boot⟩
  · rintro s a s' ⟨hi, hk⟩ - hn
    have hs := step_of_next hn
    exact ⟨hi.step hs, hk.step hi hs⟩

theorem Inv.not_executes_of_switch (h : Inv s) (hs : Step s c s') (hnew : Executes s' c p)
    (hold : ¬ Executes s c p) (d : C) : ¬ Executes s d p := by
  cases hs with
  | rescan hc | lock hc | skip hc | back hc =>
    obtain ⟨rest, hnew⟩ := hnew
    simp at hnew
  | @switch i todo hc hi =>
    obtain ⟨rest, hnew⟩ := hnew
    obtain ⟨rfl, -⟩ : i = p ∧ todo = rest := by simpa using hnew
    rintro ⟨rest', hd⟩
    have hlock : s.lock i = some c := by simp [h.threads.locks, State.held, hc]
    have hout := h.threads.not_inSched hlock (by simp [hc])
    have hstate := h.threads.running d i rest' hd
    simp [hi, hout] at hstate
  | proc hr hp =>
    obtain ⟨rest', hnew⟩ := hnew
    exact absurd ⟨rest', hp.run_of_run h hr hnew⟩ hold

theorem Inv.not_executes_of_free (h : Inv s) (hs : Step s c s')
    (hu : (s'.proc p).state = .unused) (d : C) : ¬ Executes s d p := by
  intro hd
  have hfree : ¬ Executes s' d p := fun hd' =>
    (h.step hs).threads.not_unused_of_executes hd' hu
  cases hs with
  | rescan hc | lock hc | skip hc | back hc | switch hc =>
    exact hfree (hd.of_idle (c := c) (by simp [hc]) fun d hd => by simp [hd])
  | @proc q rest _ hr hp =>
    obtain ⟨todo, hrun⟩ := hd
    by_cases hdc : d = c
    · subst hdc
      cases hp with
      | sched => exact h.threads.not_unused_of_executes ⟨todo, hrun⟩ hu
      | _ => exact hfree ⟨todo, hrun⟩
    · exact hfree ⟨todo, (hp.cpu_eq h hr hdc).trans hrun⟩

/-- With `p->lock` free, process `p` is `RUNNING` exactly if one CPU has it as its current
process, and otherwise no CPU has. A step that makes a CPU execute on its kernel stack, or
that leaves its slot `UNUSED`, finds no CPU executing on that stack. -/
theorem runs_on_one_cpu (h : Reachable (machine C) anyStep s) (p : Slot) :
    (s.lock p = none →
      ((s.proc p).state = .running ↔ ∃! c, (s.cpu c).proc = some p) ∧
      ((s.proc p).state ≠ .running → ∀ c, (s.cpu c).proc ≠ some p)) ∧
    ∀ a s', (machine C).next s a = .done s' →
      (Executes s' a.cpu p ∧ ¬ Executes s a.cpu p ∨ (s'.proc p).state = .unused) →
      ∀ d, ¬ Executes s d p := by
  obtain ⟨hi, hk⟩ := Placed.of_reachable h
  constructor
  · intro hl
    have hrun : ∀ c, (s.cpu c).proc = some p → (s.proc p).state = .running := fun c hc =>
      hi.threads.running_of_executes hl (hi.threads.executes_of_proc hl hc)
    refine ⟨⟨?_, ?_⟩, fun hs c hc => hs (hrun c hc)⟩
    · intro hs
      obtain ⟨c, rest, hc⟩ := hk p hs
      refine ⟨c, Executes.proc ⟨rest, hc⟩, fun d hd => ?_⟩
      obtain ⟨todo, hd⟩ := hi.threads.executes_of_proc hl hd
      exact hi.threads.unique d c p todo rest hd hc
    · rintro ⟨c, hc, -⟩
      exact hrun c hc
  · rintro a s' hn (⟨hnew, hold⟩ | hu)
    · exact hi.not_executes_of_switch (step_of_next hn) hnew hold
    · exact hi.not_executes_of_free (step_of_next hn) hu

/-- `init` runs in user space on the first CPU, while the second looks for work. -/
theorem runs_on_one_cpu_init :
    ∃ s, Reachable (machine (Fin NCPU)) anyStep s ∧ s.lock initproc = none ∧
      (s.proc initproc).state = .running ∧ ∃! c, (s.cpu c).proc = some initproc := by
  have h : (finish (fun _ _ => true) (start 0 0 ++ go 1 1)).any fun s =>
      s.lock initproc = none ∧ (s.proc initproc).state = .running := by decide +kernel
  obtain ⟨s, hreach, hfree⟩ := Reachable.of_perform (P := anyStep) h rfl fun _ _ _ => trivial
  obtain ⟨hl, hr⟩ := of_decide_eq_true hfree
  exact ⟨s, hreach, hl, hr, (((runs_on_one_cpu hreach initproc).1 hl).1).mp hr⟩

end Xv6.Process

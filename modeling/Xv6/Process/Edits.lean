import Xv6.Process.Deadlock

namespace Xv6.Process

open Lib.Transition

/-- What a step of process `p` on CPU `c` can write to slot `i`. -/
inductive Edit {C : Type} (s : State C) (c : C) (p i : Slot) : Proc → Prop where
  | same : Edit s c p i (s.proc i)
  | own (x : Syscall) (hi : i = p) (hpc : s.pc p = .user) : Edit s c p i (x.own (s.proc i))
  | fault (hi : i = p) (hpc : s.pc p = .user) : Edit s c p i { s.proc i with killed := true }
  | noTrapframe (todo : List Slot) (hpc : s.pc p = .visit .alloc i todo) (hl : s.lock i = some c)
      (hu : (s.proc i).state = .unused) : Edit s c p i { s.proc i with pid := s.nextpid }
  | noMemory (todo : List Slot) (hpc : s.pc p = .visit .alloc i todo) (hl : s.lock i = some c)
      (hu : (s.proc i).state = .unused) : Edit s c p i (s.proc i).freeproc
  | fork (todo : List Slot) (hpc : s.pc p = .visit .alloc i todo) (hl : s.lock i = some c)
      (hu : (s.proc i).state = .unused) :
      Edit s c p i ((s.proc p).forkTo { s.proc i with pid := s.nextpid } p)
  | kill (pid : Int32) (todo : List Slot) (hpc : s.pc p = .visit (.kill pid) i todo)
      (hl : s.lock i = some c) (hi : (s.proc i).pid = pid) : Edit s c p i (s.proc i).kill
  | wakeup (chan : Chan) (hl : s.lock i = some c) : Edit s c p i ((s.proc i).wakeup chan)
  | wakeup1 (hl : s.lock i = some c) : Edit s c p i ((s.proc i).wakeup1 i)
  | tidy (hi : i = p) : Edit s c p i { s.proc i with chan := none }
  | sleep (chan : Chan) (hi : i = p) :
      Edit s c p i { s.proc i with chan := some chan, state := .sleeping }
  | yield (hi : i = p) : Edit s c p i { s.proc i with state := .runnable }
  | reap (addr : Nat) (todo : List Slot) (hpc : s.pc p = .waitFound addr i todo)
      (hl : s.lock i = some c) (hz : (s.proc i).state = .zombie) : Edit s c p i (s.proc i).freeproc
  | give (hpar : (s.proc i).parent = some p) (hl : s.lock i = some c) :
      Edit s c p i { s.proc i with parent := some initproc }
  | exit (status : Int32) (op : Slot) (hi : i = p) (hpc : s.pc p = .reparent status op [])
      (hl : s.lock op = some c) :
      Edit s c p i { s.proc i with xstate := status, state := .zombie }

theorem Proc.wakeup1_state {x : Proc} {i : Slot} {z : ProcState} (hz : z ≠ .runnable)
    (h : (x.wakeup1 i).state = z) : x.state = z := by
  unfold Proc.wakeup1 at h
  split at h
  · exact absurd h.symm hz
  · exact h

theorem Proc.wakeup_state {x : Proc} {chan : Chan} {z : ProcState} (hz : z ≠ .runnable)
    (h : (x.wakeup chan).state = z) : x.state = z := by
  unfold Proc.wakeup at h
  split at h
  · exact absurd h.symm hz
  · exact h

theorem Proc.kill_state {x : Proc} {z : ProcState} (hz : z ≠ .runnable) (h : x.kill.state = z) :
    x.state = z := by
  simp only [Proc.kill] at h
  split at h
  · exact absurd h.symm hz
  · exact h

theorem Edit.old_state {C : Type} {s : State C} {c : C} {p i : Slot} {y : Proc}
    (h : Edit s c p i y) {z : ProcState} (hz : z ≠ .runnable) (hu : z ≠ .unused)
    (hy : y.state = z) : (s.proc i).state = z ∨ i = p ∧ z ≠ .running := by
  cases h with
  | same | fault | noTrapframe | tidy | give => exact Or.inl hy
  | own x => exact Or.inl (Syscall.own_state x _ ▸ hy)
  | noMemory | reap => exact absurd hy.symm hu
  | fork | yield => exact absurd hy.symm hz
  | kill => exact Or.inl (Proc.kill_state hz hy)
  | wakeup => exact Or.inl (Proc.wakeup_state hz hy)
  | wakeup1 => exact Or.inl (Proc.wakeup1_state hz hy)
  | sleep chan hi => exact Or.inr ⟨hi, by rintro rfl; cases hy⟩
  | exit status op hi => exact Or.inr ⟨hi, by rintro rfl; cases hy⟩

theorem Proc.wakeup1_chan (x : Proc) (i : Slot) : (x.wakeup1 i).chan = x.chan := by
  unfold Proc.wakeup1
  split <;> rfl

theorem Proc.wakeup_chan (x : Proc) (chan : Chan) : (x.wakeup chan).chan = x.chan := by
  unfold Proc.wakeup
  split <;> rfl

theorem Proc.not_asleep_wakeup1 (x : Proc) (i : Slot) :
    ¬ ((x.wakeup1 i).state = .sleeping ∧ (x.wakeup1 i).chan = some (.proc i)) := by
  rintro ⟨hs, hc⟩
  rw [Proc.wakeup1_chan] at hc
  have hold := Proc.wakeup1_state (by simp) hs
  simp [Proc.wakeup1, hold, hc] at hs

section Fields

variable {C : Type} {s : State C} {c : C} {p i : Slot} {y : Proc}

theorem Edit.zombie (h : Edit s c p i y) (hz : y.state = .zombie) :
    (s.proc i).state = .zombie ∧ y.xstate = (s.proc i).xstate ∨
      ∃ op, i = p ∧ s.pc p = .reparent y.xstate op [] ∧ s.lock op = some c := by
  cases h with
  | exit status op hi hpc hl => exact Or.inr ⟨op, hi, hpc, hl⟩
  | own x => exact Or.inl ⟨Syscall.own_state x _ ▸ hz, by cases x <;> rfl⟩
  | kill => exact Or.inl ⟨Proc.kill_state (by simp) hz, rfl⟩
  | wakeup chan =>
    exact Or.inl ⟨Proc.wakeup_state (by simp) hz, by unfold Proc.wakeup; split <;> rfl⟩
  | wakeup1 =>
    exact Or.inl ⟨Proc.wakeup1_state (by simp) hz, by unfold Proc.wakeup1; split <;> rfl⟩
  | same | fault | noTrapframe | tidy | give => exact Or.inl ⟨hz, rfl⟩
  | noMemory | fork | sleep | yield | reap => cases hz

theorem Edit.pid_eq (h : Edit s c p i y) (hi : (s.proc i).state ≠ .unused)
    (hy : y.state ≠ .unused) : y.pid = (s.proc i).pid := by
  cases h with
  | noTrapframe _ _ _ hu | fork _ _ _ hu => exact absurd hu hi
  | noMemory | reap => exact absurd rfl hy
  | own x => cases x <;> rfl
  | wakeup => unfold Proc.wakeup; split <;> rfl
  | wakeup1 => unfold Proc.wakeup1; split <;> rfl
  | same | fault | kill | tidy | sleep | yield | give | exit => rfl

theorem Edit.chan_other (h : Edit s c p i y) (hi : i ≠ p) (hy : y.state = .sleeping) :
    y.chan = (s.proc i).chan := by
  cases h with
  | wakeup chan => exact Proc.wakeup_chan _ chan
  | wakeup1 => exact Proc.wakeup1_chan _ i
  | noMemory | fork | reap => cases hy
  | own | fault | tidy | sleep | yield | exit => contradiction
  | same | noTrapframe | kill | give => rfl

end Fields

variable {C : Type} [DecidableEq C] {s s' : State C} {c : C} {p : Slot} {rest : List Slot}

omit [DecidableEq C] in
theorem Edit.at {l : Slot} {x : Proc} (hl : Edit s c p l x) (i : Slot) :
    Edit s c p i (Function.update s.proc l x i) := by
  by_cases hi : i = l
  · subst hi
    simpa using hl
  · simpa [hi] using Edit.same

theorem ProcStep.edit (h : Inv s) (hp : ProcStep s c p rest s') (i : Slot) :
    Edit s c p i (s'.proc i) := by
  have hsound := h.threads.sound p
  cases hp with
  | timer | acquire | allocUsed | killOther | waitOther | waitChild | waitNone | waitLive
  | waitBadAddr | waitDone | exitRead | exitLock | reparentOther | reparentChild | sched
  | resume => exact .same
  | call hpc => exact (Edit.own _ rfl hpc).at i
  | fault hpc => exact (Edit.fault rfl hpc).at i
  | noTrapframe hpc hu hl => exact (Edit.noTrapframe _ hpc hl hu).at i
  | noMemory hpc hu hl => exact (Edit.noMemory _ hpc hl hu).at i
  | fork hpc hu hl => exact (Edit.fork _ hpc hl hu).at i
  | kill hpc hi hl => exact (Edit.kill _ _ hpc hl hi).at i
  | wakeup hpc hl => exact (Edit.wakeup _ hl).at i
  | waitSleep => exact (Edit.sleep _ rfl).at i
  | sleep => exact (Edit.sleep _ rfl).at i
  | waitWoken | woken => exact (Edit.tidy rfl).at i
  | waitReap hpc hz hl => exact (Edit.reap _ _ hpc hl hz).at i
  | exitWake hpc hl => exact (Edit.wakeup1 hl).at i
  | reparentGive hpc hl =>
    rw [hpc] at hsound
    exact (Edit.give hsound.2.1 hl).at i
  | yield => exact (Edit.yield rfl).at i
  | @exitZombie status op hpc hl =>
    rw [hpc] at hsound
    have hne := hsound.1.ne
    by_cases hip : i = p
    · subst hip
      simpa [hne.symm] using Edit.exit status op rfl hpc hl
    · simpa [hip] using (Edit.wakeup1 (p := p) hl).at i

structure Scheduled {C : Type} (s s' : State C) : Prop where
  pc : s'.pc = s.pc
  birth : s'.birth = s.birth
  births : s'.births = s.births
  proc : ∀ i, s'.proc i = s.proc i ∨
    (s.proc i).state = .runnable ∧ s'.proc i = { s.proc i with state := .running }

theorem Step.scheduled (hs : Step s c s') :
    (∀ p rest, s.cpu c ≠ .run p rest) ∧ Scheduled s s' ∨
      ∃ p rest, s.cpu c = .run p rest ∧ ProcStep s c p rest s' := by
  cases hs with
  | rescan hc | lock hc | skip hc | back hc =>
    exact Or.inl ⟨by simp [hc], rfl, rfl, rfl, fun _ => Or.inl rfl⟩
  | @switch i todo hc hi =>
    refine Or.inl ⟨by simp [hc], rfl, rfl, rfl, fun j => ?_⟩
    by_cases hj : j = i
    · subst hj
      exact Or.inr ⟨hi, by simp⟩
    · exact Or.inl (by simp [hj])
  | proc hr hp => exact Or.inr ⟨_, _, hr, hp⟩

section Scheduler

omit [DecidableEq C]

theorem Scheduled.field {α : Type} (h : Scheduled s s') (f : Proc → α)
    (hf : ∀ x, f { x with state := .running } = f x) (i : Slot) :
    f (s'.proc i) = f (s.proc i) := by
  obtain he | ⟨-, he⟩ := h.proc i
  · rw [he]
  · rw [he, hf]

theorem Scheduled.old_state (h : Scheduled s s') {i : Slot} {z : ProcState} (hz : z ≠ .running)
    (hi : (s'.proc i).state = z) : (s.proc i).state = z := by
  obtain he | ⟨-, he⟩ := h.proc i
  · rwa [he] at hi
  · rw [he] at hi
    exact absurd hi.symm hz

theorem Scheduled.unused_iff (h : Scheduled s s') (i : Slot) :
    (s'.proc i).state = .unused ↔ (s.proc i).state = .unused := by
  obtain he | ⟨hr, he⟩ := h.proc i <;> simp [he]
  simp [hr]

end Scheduler

end Xv6.Process

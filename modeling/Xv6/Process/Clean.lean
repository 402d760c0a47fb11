import Xv6.Process.Reaping

namespace Xv6.Process

open Lib.Transition

/-- The calls of `kill` and the faults, with the number of the process they hit. -/
inductive Blame where
  | kill (victim : Nat) (pid : Int32)
  | fault (victim : Nat)
  deriving DecidableEq

def Pc.killing : Pc → Option Int32
  | .visit (.kill pid) _ _ => some pid
  | .spin _ k | .yield k | .resume k | .sched k => k.killing
  | _ => none

/-- The slot that `allocproc` has locked to see whether it is free. -/
def Pc.allocating : Pc → Option Slot
  | .visit .alloc i _ => some i
  | _ => none

section Definitions

variable {C : Type}

def blame (s : State C) (a : Act C) (_ : State C) : Option Blame :=
  match s.cpu a.cpu with
  | .run p _ =>
    match s.pc p, a.choice with
    | .visit (.kill pid) i _, _ =>
      if (s.proc i).pid = pid then some (.kill (s.birth i) pid) else none
    | .user, .fault => some (.fault (s.birth p))
    | _, _ => none
  | _ => none

/-- `kill` is not called with pid 0, and `allocproc` does not fail for lack of a trapframe. -/
def noStalePid (s : State C) (a : Act C) : Bool :=
  match s.cpu a.cpu with
  | .run p _ =>
    match s.pc p, a.choice with
    | .user, .call (.kill pid) => pid ≠ 0
    | .visit .alloc i _, .noTrapframe => (s.proc i).state ≠ .unused
    | _, _ => true
  | _ => true

structure Proc.Clean (x : Proc) : Prop where
  killed : x.killed = false
  chan : x.chan = none
  parent : x.parent = none
  pid : x.pid = 0
  sz : x.sz = 0
  ofile : ∀ fd, x.ofile fd = none

structure Tidy (bs : List Blame) (s : State C) : Prop where
  unused : ∀ i, (s.proc i).state = .unused → (s.proc i).Clean
  zombie : ∀ i, (s.proc i).state = .zombie → (s.pc i).exiting
  closed : ∀ i, (s.pc i).exiting → ∀ fd, (s.proc i).ofile fd = none
  killing : ∀ p, (s.pc p).killing ≠ some 0
  killed : ∀ i, (s.proc i).state ≠ .unused → (s.proc i).killed →
    .fault (s.birth i) ∈ bs ∨ .kill (s.birth i) (s.proc i).pid ∈ bs

end Definitions

theorem Job.killing_next {j : Job} {todo : List Slot} {pid : Int32}
    (h : (j.next todo).killing = some pid) : j = .kill pid := by
  cases todo with
  | nil => cases h
  | cons i todo =>
    cases j with
    | kill pid' =>
      cases h
      rfl
    | alloc | wakeup => cases h

theorem Syscall.killing_enter {x : Syscall} {p : Slot} {pid : Int32}
    (h : (x.enter p).killing = some pid) : x = .kill pid := by
  unfold Syscall.enter at h
  cases x with
  | kill pid' =>
    cases Job.killing_next h
    rfl
  | fork | wakeup => cases Job.killing_next h
  | _ => cases h

variable {C : Type} [DecidableEq C] {s s' : State C} {a : Act C} {p : Slot} {rest : List Slot}

theorem next_user (hn : next s a = .done s') (hr : s.cpu a.cpu = .run p rest)
    (hpc : s.pc p = .user) :
    (∃ x, a.choice = .call x ∧ s' = (s.setProc p (x.own (s.proc p))).setPc p (x.enter p)) ∨
      a.choice = .fault ∧ s' = s.setProc p { s.proc p with killed := true } ∨
      s' = s.setPc p (.spin p (.yield .user)) := by
  simp only [next, hr, hpc] at hn
  split at hn
  · cases hn
    exact Or.inr (Or.inr rfl)
  · simp only [procStep] at hn
    split at hn
    · next hc =>
      simp only [syscall] at hn
      split at hn <;> cases hn
      exact Or.inl ⟨_, hc, rfl⟩
    · next hc =>
      cases hn
      exact Or.inr (Or.inl ⟨hc, rfl⟩)
    · cases hn

theorem next_alloc (hn : next s a = .done s') (hr : s.cpu a.cpu = .run p rest) {i : Slot}
    {todo : List Slot} (hpc : s.pc p = .visit .alloc i todo) (hu : (s.proc i).state = .unused)
    (hc : a.choice ≠ .noTrapframe) :
    s'.proc i = (s.proc i).freeproc ∨
      s'.proc i = (s.proc p).forkTo { s.proc i with pid := s.nextpid } p := by
  simp only [next, hr, hpc] at hn
  split at hn
  · cases hn
  · simp only [procStep, visit, hu, if_true, forkFrom] at hn
    split at hn
    · next h => exact absurd h hc
    · obtain ⟨-, rfl⟩ := release_done hn
      exact Or.inl (by simp [Proc.freeproc])
    · obtain ⟨-, rfl⟩ := release_done hn
      exact Or.inl (by simp [Proc.freeproc])
    · obtain ⟨-, rfl⟩ := release_done hn
      exact Or.inr (by simp [hu])

theorem ProcStep.killing {c : C} (hp : ProcStep s c p rest s') {pid : Int32}
    (hk : (s'.pc p).killing = some pid) : (s.pc p).killing = some pid ∨ s.pc p = .user := by
  cases hp with
  | call hpc | fault hpc => exact Or.inr hpc
  | timer => exact Or.inl (by simpa [Pc.killing] using hk)
  | acquire hpc | yield hpc | resume hpc | sched hpc =>
    exact Or.inl (by simpa [hpc, Pc.killing] using hk)
  | killOther hpc =>
    cases Job.killing_next (by simpa using hk)
    exact Or.inl (by rw [hpc]; rfl)
  | allocUsed | wakeup => cases Job.killing_next (by simpa using hk)
  | _ => simp [Pc.killing] at hk

theorem Job.exiting_next (j : Job) (todo : List Slot) : (j.next todo).exiting = false := by
  cases todo <;> rfl

theorem ProcStep.exiting_of {c : C} (hp : ProcStep s c p rest s') (hk : (s'.pc p).exiting) :
    (s.pc p).exiting ∨ s.pc p = .user ∧ ∀ fd, (s'.proc p).ofile fd = none := by
  cases hp with
  | @call x hpc =>
    right
    cases x with
    | exit => exact ⟨hpc, by simp [Syscall.own]⟩
    | fork | kill | wakeup => simp [Syscall.enter, Job.exiting_next] at hk
    | _ => simp [Syscall.enter, Pc.exiting] at hk
  | fault => exact Or.inl hk
  | timer => exact Or.inl (by simpa [Pc.exiting] using hk)
  | acquire hpc | yield hpc | resume hpc | sched hpc =>
    exact Or.inl (by simpa [hpc, Pc.exiting] using hk)
  | exitWake hpc | exitRead hpc | exitLock hpc | reparentOther hpc | reparentChild hpc
  | reparentGive hpc | exitZombie hpc => exact Or.inl (by simp [hpc, Pc.exiting])
  | allocUsed | killOther | wakeup => simp [Job.exiting_next] at hk
  | _ => simp [Pc.exiting] at hk

omit [DecidableEq C] in
theorem Edit.ofile_eq {c : C} {i : Slot} {y : Proc} (h : Edit s c p i y)
    (hpc : i = p → s.pc p ≠ .user) (hborn : (s.proc i).state = .unused → y.state = .unused) :
    y.ofile = (s.proc i).ofile := by
  cases h with
  | own _ hi hu => exact absurd hu (hpc hi)
  | fork _ _ _ hu => cases hborn hu
  | wakeup => unfold Proc.wakeup; split <;> rfl
  | wakeup1 => unfold Proc.wakeup1; split <;> rfl
  | same | fault | noTrapframe | noMemory | kill | tidy | sleep | yield | reap | give | exit => rfl

omit [DecidableEq C] in
theorem Edit.killed_of {c : C} {i : Slot} {y : Proc} (h : Edit s c p i y) (hy : y.killed) :
    (s.proc i).killed ∨ i = p ∧ s.pc p = .user ∨
      ∃ pid todo, s.pc p = .visit (.kill pid) i todo ∧ (s.proc i).pid = pid := by
  cases h with
  | kill pid todo hpc _ hi => exact Or.inr (Or.inr ⟨pid, todo, hpc, hi⟩)
  | own _ hi hpc | fault hi hpc => exact Or.inr (Or.inl ⟨hi, hpc⟩)
  | noMemory | reap => cases hy
  | wakeup =>
    left
    unfold Proc.wakeup at hy
    split at hy <;> exact hy
  | wakeup1 =>
    left
    unfold Proc.wakeup1 at hy
    split at hy <;> exact hy
  | same | noTrapframe | fork | tidy | sleep | yield | give | exit => exact Or.inl hy

theorem Proc.Clean.of_freeproc {x : Proc} (h : ∀ fd, x.ofile fd = none) : x.freeproc.Clean :=
  ⟨rfl, rfl, rfl, rfl, rfl, h⟩

theorem Proc.wakeup1_of_unused {x : Proc} (h : x.state = .unused) (i : Slot) :
    x.wakeup1 i = x := by simp [Proc.wakeup1, h]

theorem Proc.wakeup_of_unused {x : Proc} (h : x.state = .unused) (chan : Chan) :
    x.wakeup chan = x := by simp [Proc.wakeup, h]

section Step

variable {bs : List Blame}

omit [DecidableEq C] in
theorem Tidy.used_of_killing (ht : Tidy bs s) {pid : Int32} (hk : (s.pc p).killing = some pid)
    {i : Slot} (hi : (s.proc i).pid = pid) : (s.proc i).state ≠ .unused := by
  intro hu
  rw [(ht.unused i hu).pid] at hi
  exact ht.killing p (hi ▸ hk)

theorem Tidy.unused_step (h : Inv s) (ht : Tidy bs s) (hn : next s a = .done s')
    (hok : noStalePid s a) (hr : s.cpu a.cpu = .run p rest) (hp : ProcStep s a.cpu p rest s')
    (i : Slot) (hu : (s'.proc i).state = .unused) : (s'.proc i).Clean := by
  have hpu : i = p → (s.proc i).state ≠ .unused := by
    rintro rfl
    exact h.threads.not_unused_of_executes ⟨rest, hr⟩
  by_cases halloc : ∃ todo, s.pc p = .visit .alloc i todo ∧ (s.proc i).state = .unused
  · obtain ⟨todo, hpc, hfree⟩ := halloc
    have hc : a.choice ≠ .noTrapframe := by
      intro hc
      simp [noStalePid, hr, hpc, hc, hfree] at hok
    obtain he | he := next_alloc hn hr hpc hfree hc
    · rw [he]
      exact .of_freeproc (ht.unused i hfree).ofile
    · rw [he] at hu
      cases hu
  · have hedit := hp.edit h i
    generalize s'.proc i = y at hu hedit
    cases hedit with
    | same => exact ht.unused i hu
    | own x hi => exact absurd (Syscall.own_state x _ ▸ hu) (hpu hi)
    | fault hi | tidy hi => exact absurd hu (hpu hi)
    | noTrapframe todo hpc _ hfree | noMemory todo hpc _ hfree | fork todo hpc _ hfree =>
      exact absurd ⟨todo, hpc, hfree⟩ halloc
    | kill pid todo hpc _ hi =>
      have hfree := Proc.kill_state (by simp) hu
      exact absurd hfree (ht.used_of_killing (p := p) (by rw [hpc]; rfl) hi)
    | wakeup chan =>
      have hfree := Proc.wakeup_state (by simp) hu
      rw [Proc.wakeup_of_unused hfree]
      exact ht.unused i hfree
    | wakeup1 =>
      have hfree := Proc.wakeup1_state (by simp) hu
      rw [Proc.wakeup1_of_unused hfree]
      exact ht.unused i hfree
    | sleep | yield | exit => cases hu
    | reap _ _ _ _ hz => exact .of_freeproc (ht.closed i (ht.zombie i hz))
    | give hpar => simp [h.tree.unused i hu] at hpar

theorem Tidy.zombie_step (h : Inv s) (ht : Tidy bs s) (hr : s.cpu a.cpu = .run p rest)
    (hp : ProcStep s a.cpu p rest s') (i : Slot) (hz : (s'.proc i).state = .zombie) :
    (s'.pc i).exiting := by
  obtain ⟨hz₀, -⟩ | ⟨op, rfl, hpc, -⟩ := (hp.edit h i).zombie hz
  · have hk := ht.zombie i hz₀
    by_cases hip : i = p
    · subst hip
      exact hp.exiting hk
    · obtain he | ⟨hfree, -⟩ := hp.pc_other hip
      · exact he ▸ hk
      · simp [hz₀] at hfree
  · exact hp.exiting (by simp [hpc, Pc.exiting])

theorem Tidy.closed_step (h : Inv s) (ht : Tidy bs s) (hr : s.cpu a.cpu = .run p rest)
    (hp : ProcStep s a.cpu p rest s') (i : Slot) (hk : (s'.pc i).exiting) (fd : Fin NOFILE) :
    (s'.proc i).ofile fd = none := by
  have hborn : (s.proc i).state = .unused → (s'.proc i).state = .unused := by
    intro hu
    by_contra hu'
    obtain ⟨hn, -⟩ | ⟨-, -, -, -, hpc⟩ := hp.live h hr hu'
    · exact hn hu
    · simp [hpc, Pc.exiting] at hk
  have hkeep : (s.pc i).exiting → (s'.proc i).ofile fd = none := by
    intro hold
    rw [(hp.edit h i).ofile_eq ?_ hborn]
    · exact ht.closed i hold fd
    · rintro rfl hpc
      simp [hpc, Pc.exiting] at hold
  by_cases hip : i = p
  · subst hip
    obtain hold | ⟨-, hclosed⟩ := hp.exiting_of hk
    · exact hkeep hold
    · exact hclosed fd
  · obtain he | ⟨-, -, he⟩ := hp.pc_other hip
    · exact hkeep (he ▸ hk)
    · simp [he, Pc.exiting] at hk

theorem Tidy.killing_step (ht : Tidy bs s) (hn : next s a = .done s') (hok : noStalePid s a)
    (hr : s.cpu a.cpu = .run p rest) (hp : ProcStep s a.cpu p rest s') (q : Slot) :
    (s'.pc q).killing ≠ some 0 := by
  intro hk
  by_cases hqp : q = p
  · subst hqp
    obtain hold | hpc := hp.killing hk
    · exact ht.killing q hold
    · obtain ⟨x, hc, rfl⟩ | ⟨-, rfl⟩ | rfl := next_user hn hr hpc
      · cases Syscall.killing_enter (by simpa using hk)
        simp [noStalePid, hr, hpc, hc] at hok
      · simp [hpc, Pc.killing] at hk
      · simp [Pc.killing] at hk
  · obtain he | ⟨-, -, he⟩ := hp.pc_other hqp
    · exact ht.killing q (he ▸ hk)
    · simp [he, Pc.killing] at hk

theorem Tidy.killed_step (h : Inv s) (ht : Tidy bs s) (hn : next s a = .done s')
    (hr : s.cpu a.cpu = .run p rest) (hp : ProcStep s a.cpu p rest s') (i : Slot)
    (hu : (s'.proc i).state ≠ .unused) (hk : (s'.proc i).killed) :
    .fault (s'.birth i) ∈ (blame s a s').toList ++ bs ∨
      .kill (s'.birth i) (s'.proc i).pid ∈ (blame s a s').toList ++ bs := by
  simp only [List.mem_append, Option.mem_toList]
  have hedit := hp.edit h i
  have hused : (s.proc i).state ≠ .unused := by
    intro hfree
    have hclean := ht.unused i hfree
    obtain hold | ⟨rfl, -⟩ | ⟨pid, todo, hpc, hi⟩ := hedit.killed_of hk
    · simp [hclean.killed] at hold
    · exact h.threads.not_unused_of_executes ⟨rest, hr⟩ hfree
    · exact ht.used_of_killing (p := p) (by rw [hpc]; rfl) hi hfree
  rw [(hp.change h hr i).birth_eq hused, hedit.pid_eq hused hu]
  have hkeep : (s.proc i).killed →
      .fault (s.birth i) ∈ bs ∨ .kill (s.birth i) (s.proc i).pid ∈ bs := ht.killed i hused
  obtain hold | ⟨rfl, hpc⟩ | ⟨pid, todo, hpc, hi⟩ := hedit.killed_of hk
  · exact (hkeep hold).imp Or.inr Or.inr
  · obtain ⟨x, -, rfl⟩ | ⟨hc, -⟩ | rfl := next_user hn hr hpc
    · refine (hkeep ?_).imp Or.inr Or.inr
      cases x <;> simpa [Syscall.own] using hk
    · exact Or.inl (Or.inl (by simp [blame, hr, hpc, hc]))
    · exact (hkeep hk).imp Or.inr Or.inr
  · exact Or.inr (Or.inl (by simp [blame, hr, hpc, hi]))

theorem Tidy.proc (h : Inv s) (ht : Tidy bs s) (hn : next s a = .done s') (hok : noStalePid s a)
    (hr : s.cpu a.cpu = .run p rest) (hp : ProcStep s a.cpu p rest s') :
    Tidy ((blame s a s').toList ++ bs) s' where
  unused := ht.unused_step h hn hok hr hp
  zombie := ht.zombie_step h hr hp
  closed := ht.closed_step h hr hp
  killing := ht.killing_step hn hok hr hp
  killed := ht.killed_step h hn hr hp

omit [DecidableEq C] in
theorem Tidy.sched (ht : Tidy bs s) (hs : Scheduled s s') : Tidy bs s' := by
  refine ⟨?_, ?_, ?_, hs.pc ▸ ht.killing, ?_⟩
  · intro i hu
    have hclean := ht.unused i ((hs.unused_iff i).mp hu)
    exact ⟨hs.field Proc.killed (fun _ => rfl) i ▸ hclean.killed,
      hs.field Proc.chan (fun _ => rfl) i ▸ hclean.chan,
      hs.field Proc.parent (fun _ => rfl) i ▸ hclean.parent,
      hs.field Proc.pid (fun _ => rfl) i ▸ hclean.pid,
      hs.field Proc.sz (fun _ => rfl) i ▸ hclean.sz,
      hs.field Proc.ofile (fun _ => rfl) i ▸ hclean.ofile⟩
  · intro i hz
    rw [hs.pc]
    exact ht.zombie i (hs.old_state (by simp) hz)
  · intro i hk
    rw [hs.field Proc.ofile fun _ => rfl]
    exact ht.closed i (hs.pc ▸ hk)
  · intro i hu hk
    rw [hs.birth, hs.field Proc.pid fun _ => rfl]
    rw [hs.field Proc.killed fun _ => rfl] at hk
    exact ht.killed i (mt (hs.unused_iff i).mpr hu) hk

omit [DecidableEq C] in
theorem blame_of_scheduler (h : ∀ p rest, s.cpu a.cpu ≠ .run p rest) : blame s a s' = none := by
  unfold blame
  split
  · next hc => exact absurd hc (h _ _)
  · rfl

theorem Tidy.step (h : Inv s) (ht : Tidy bs s) (hn : next s a = .done s')
    (hok : noStalePid s a) : Tidy ((blame s a s').toList ++ bs) s' := by
  obtain ⟨hc, hs⟩ | ⟨p, rest, hr, hp⟩ := (step_of_next hn).scheduled
  · rw [blame_of_scheduler hc]
    exact ht.sched hs
  · exact ht.proc h hn hok hr hp

omit [DecidableEq C] in
theorem Tidy.boot : Tidy [] (State.boot C) := by
  have hpc : ∀ p, (State.boot C).pc p = .user ∨ (State.boot C).pc p = .resume .user := by
    intro p
    by_cases hp : p = initproc <;> simp [State.boot, hp]
  refine ⟨?_, ?_, ?_, ?_, ?_⟩
  · intro i hu
    by_cases hi : i = initproc
    · simp [State.boot, hi] at hu
    · simp only [State.boot, Function.update_of_ne hi]
      exact ⟨rfl, rfl, rfl, rfl, rfl, fun _ => rfl⟩
  · intro i hz
    by_cases hi : i = initproc <;> simp [State.boot, hi, Proc.free] at hz
  · intro i hk
    obtain he | he := hpc i <;> simp [he, Pc.exiting] at hk
  · intro i
    obtain he | he := hpc i <;> simp [he, Pc.killing]
  · intro i _ hk
    by_cases hi : i = initproc <;> simp [State.boot, hi, Proc.free] at hk

theorem Tidy.of_observed (h : Observed (machine C) (noStalePid · ·) blame bs s) :
    Inv s ∧ Tidy bs s := by
  refine h.invariant (I := fun bs s => Inv s ∧ Tidy bs s) ?_ ?_
  · rintro _ rfl
    exact ⟨.boot, .boot⟩
  · rintro bs s a s' ⟨hi, ht⟩ hok hn
    exact ⟨hi.step (step_of_next hn), ht.step hi hn hok⟩

end Step

/-- As long as `kill` is not called with pid 0 and no `allocproc` fails for lack of a
trapframe: the slot that `allocproc` takes is clean, free slots have pid 0, `kill` changes
only slots in use, and a process has `killed` set only if a `kill` with its pid has hit it
or it has faulted. -/
theorem new_process_clean {bs : List Blame}
    (h : Observed (machine C) (noStalePid · ·) blame bs s) :
    (∀ p i, (s.pc p).allocating = some i → (s.proc i).state = .unused →
      (s.proc i).killed = false ∧ (s.proc i).chan = none ∧ (s.proc i).parent = none ∧
        (s.proc i).sz = 0 ∧ ∀ fd, (s.proc i).ofile fd = none) ∧
    (∀ i, (s.proc i).state = .unused → s.lock i = none → (s.proc i).pid = 0) ∧
    (∀ a s' p rest pid j todo, (machine C).next s a = .done s' → s.cpu a.cpu = .run p rest →
      s.pc p = .visit (.kill pid) j todo → ∀ i, s'.proc i ≠ s.proc i →
        (s.proc i).state ≠ .unused) ∧
    ∀ i, (s.proc i).state ≠ .unused → (s.proc i).killed →
      .fault (s.birth i) ∈ bs ∨ .kill (s.birth i) (s.proc i).pid ∈ bs := by
  obtain ⟨hi, ht⟩ := Tidy.of_observed h
  refine ⟨?_, fun i hu _ => (ht.unused i hu).pid, ?_, ht.killed⟩
  · intro p i _ hu
    have hclean := ht.unused i hu
    exact ⟨hclean.killed, hclean.chan, hclean.parent, hclean.sz, hclean.ofile⟩
  · intro a s' p rest pid j todo hn hr hpc i hne hu
    obtain ⟨hc, -⟩ | ⟨q, rest', hr', hp⟩ := (step_of_next hn).scheduled
    · exact absurd hr (hc p rest)
    cases hr.symm.trans hr'
    have hpu : i ≠ p := by
      rintro rfl
      exact hi.threads.not_unused_of_executes ⟨rest, hr⟩ hu
    have hedit := hp.edit hi i
    generalize s'.proc i = y at hne hedit
    cases hedit with
    | same => exact hne rfl
    | wakeup chan => exact hne (Proc.wakeup_of_unused hu chan)
    | wakeup1 => exact hne (Proc.wakeup1_of_unused hu i)
    | kill pid' todo' hpc' _ hpid =>
      exact ht.used_of_killing (p := p) (by rw [hpc']; rfl) hpid hu
    | noTrapframe _ hpc' | noMemory _ hpc' | fork _ hpc' | reap _ _ hpc' =>
      cases hpc.symm.trans hpc'
    | give hpar => simp [hi.tree.unused i hu] at hpar
    | own | fault | tidy | sleep | yield | exit => contradiction

def killZero : Acts := start 0 0 ++ call 0 (.kill 0) ++ go 0 4 ++ call 0 .fork ++ go 0 3

def forkNoTrapframe : Acts := start 0 0 ++ call 0 .fork ++ go 0 3 ++ [⟨0, .noTrapframe⟩]

/-- `allocproc` takes a slot with `killed` set, although `kill` has hit no process; and a
free slot keeps a pid. -/
theorem new_process_killed :
    (∃ s, Reachable (machine (Fin NCPU)) anyStep s ∧ (s.pc 0).allocating = some 1 ∧
      (s.proc 1).state = .unused ∧ (s.proc 1).killed = true) ∧
    ∃ s, Reachable (machine (Fin NCPU)) anyStep s ∧ (s.proc 1).state = .unused ∧
      s.lock 1 = none ∧ (s.proc 1).pid = 2 := by
  have hkill : (finish (fun _ _ => true) killZero).any fun s =>
      (s.pc 0).allocating = some 1 ∧ (s.proc 1).state = .unused ∧ (s.proc 1).killed = true := by
    decide +kernel
  have hfork : (finish (fun _ _ => true) forkNoTrapframe).any fun s =>
      (s.proc 1).state = .unused ∧ s.lock 1 = none ∧ (s.proc 1).pid = 2 := by decide +kernel
  obtain ⟨s, hs, hk⟩ := Reachable.of_perform (P := anyStep) hkill rfl fun _ _ _ => trivial
  obtain ⟨s', hs', hf⟩ := Reachable.of_perform (P := anyStep) hfork rfl fun _ _ _ => trivial
  exact ⟨⟨s, hs, of_decide_eq_true hk⟩, ⟨s', hs', of_decide_eq_true hf⟩⟩

def forkTwice : Acts := start 0 0 ++ forkInto 0 1 ++ start 1 1 ++ call 1 .fork ++ go 1 5

theorem new_process_clean_forkTwice :
    ∃ bs s, Observed (machine (Fin NCPU)) (noStalePid · ·) blame bs s ∧
      (s.pc 1).allocating = some 2 ∧ (s.proc 2).sz = 0 := by
  have h : (finish noStalePid forkTwice).any fun s =>
      (s.pc 1).allocating = some 2 ∧ (s.proc 2).state = .unused := by decide +kernel
  obtain ⟨s, ⟨τ, hr⟩, hk⟩ := Reachable.of_perform h rfl fun _ _ => id
  obtain ⟨hpc, hu⟩ := of_decide_eq_true hk
  obtain ⟨bs, ho⟩ := hr.observed blame
  exact ⟨bs, s, ho, hpc, ((new_process_clean ho).1 1 2 hpc hu).2.2.2.1⟩

end Xv6.Process

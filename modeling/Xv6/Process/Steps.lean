import Xv6.Process.Machine

namespace Xv6.Process

open Lib.Transition

variable {C : Type} [DecidableEq C]

inductive ProcStep (s : State C) (c : C) (p : Slot) (rest : List Slot) : State C → Prop where
  | call {x : Syscall} (h : s.pc p = .user) (hx : ∀ status, x = .exit status → p ≠ initproc) :
      ProcStep s c p rest ((s.setProc p (x.own (s.proc p))).setPc p (x.enter p))
  | fault (h : s.pc p = .user) :
      ProcStep s c p rest (s.setProc p { s.proc p with killed := true })
  | timer (h : (s.pc p).interruptible) :
      ProcStep s c p rest (s.setPc p (.spin p (.yield (s.pc p))))
  | acquire {l : Slot} {k : Pc} (h : s.pc p = .spin l k) (hl : s.lock l = none) :
      ProcStep s c p rest ((s.setPc p k).setLock l (some c))
  | allocUsed {i : Slot} {todo : List Slot} (h : s.pc p = .visit .alloc i todo)
      (hi : (s.proc i).state ≠ .unused) (hl : s.lock i = some c) :
      ProcStep s c p rest ((s.setPc p (Job.alloc.next todo)).setLock i none)
  | noTrapframe {i : Slot} {todo : List Slot} (h : s.pc p = .visit .alloc i todo)
      (hi : (s.proc i).state = .unused) (hl : s.lock i = some c) :
      ProcStep s c p rest
        ((({ s with nextpid := s.nextpid + 1 }.setProc i { s.proc i with pid := s.nextpid }).setPc p
          .user).setLock i none)
  | noMemory {i : Slot} {todo : List Slot} (h : s.pc p = .visit .alloc i todo)
      (hi : (s.proc i).state = .unused) (hl : s.lock i = some c) :
      ProcStep s c p rest
        ((({ s with nextpid := s.nextpid + 1 }.setProc i (s.proc i).freeproc).setPc p .user).setLock
          i none)
  | fork {i : Slot} {todo : List Slot} (h : s.pc p = .visit .alloc i todo)
      (hi : (s.proc i).state = .unused) (hl : s.lock i = some c) :
      ProcStep s c p rest
        (((({ s with
              nextpid := s.nextpid + 1
              births := s.births + 1
              birth := Function.update s.birth i s.births }.setProc i
            ((s.proc p).forkTo { s.proc i with pid := s.nextpid } p)).setPc i
          (.resume .user)).setPc p .user).setLock i none)
  | kill {pid : Int32} {i : Slot} {todo : List Slot} (h : s.pc p = .visit (.kill pid) i todo)
      (hi : (s.proc i).pid = pid) (hl : s.lock i = some c) :
      ProcStep s c p rest (((s.setProc i (s.proc i).kill).setPc p .user).setLock i none)
  | killOther {pid : Int32} {i : Slot} {todo : List Slot} (h : s.pc p = .visit (.kill pid) i todo)
      (hi : (s.proc i).pid ≠ pid) (hl : s.lock i = some c) :
      ProcStep s c p rest ((s.setPc p ((Job.kill pid).next todo)).setLock i none)
  | wakeup {chan : Chan} {i : Slot} {todo : List Slot} (h : s.pc p = .visit (.wakeup chan) i todo)
      (hl : s.lock i = some c) :
      ProcStep s c p rest
        (((s.setProc i ((s.proc i).wakeup chan)).setPc p ((Job.wakeup chan).next todo)).setLock i
          none)
  | waitOther {addr : Nat} {havekids : Bool} {i : Slot} {todo : List Slot}
      (h : s.pc p = .waitScan addr havekids (i :: todo)) (hi : (s.proc i).parent ≠ some p) :
      ProcStep s c p rest (s.setPc p (.waitScan addr havekids todo))
  | waitChild {addr : Nat} {havekids : Bool} {i : Slot} {todo : List Slot}
      (h : s.pc p = .waitScan addr havekids (i :: todo)) (hi : (s.proc i).parent = some p) :
      ProcStep s c p rest (s.setPc p (.spin i (.waitFound addr i todo)))
  | waitNone {addr : Nat} {havekids : Bool} (h : s.pc p = .waitScan addr havekids [])
      (hk : (!havekids || (s.proc p).killed) = true) (hl : s.lock p = some c) :
      ProcStep s c p rest ((s.setPc p .user).setLock p none)
  | waitSleep {addr : Nat} {havekids : Bool} (h : s.pc p = .waitScan addr havekids [])
      (hk : (!havekids || (s.proc p).killed) = false) :
      ProcStep s c p rest
        ((s.setProc p { s.proc p with chan := some (.proc p), state := .sleeping }).setPc p
          (.sched (.waitWoken addr)))
  | waitWoken {addr : Nat} (h : s.pc p = .waitWoken addr) :
      ProcStep s c p rest
        ((s.setProc p { s.proc p with chan := none }).setPc p (.waitScan addr false slots))
  | waitLive {addr : Nat} {i : Slot} {todo : List Slot} (h : s.pc p = .waitFound addr i todo)
      (hi : (s.proc i).state ≠ .zombie) (hl : s.lock i = some c) :
      ProcStep s c p rest ((s.setPc p (.waitScan addr true todo)).setLock i none)
  | waitBadAddr {addr : Nat} {i : Slot} {todo : List Slot} (h : s.pc p = .waitFound addr i todo)
      (hi : (s.proc i).state = .zombie) (ha : addr ≠ 0) (hl : s.lock i = some c) :
      ProcStep s c p rest ((s.setPc p (.waitDone (-1) none)).setLock i none)
  | waitReap {addr : Nat} {i : Slot} {todo : List Slot} (h : s.pc p = .waitFound addr i todo)
      (hi : (s.proc i).state = .zombie) (hl : s.lock i = some c) :
      ProcStep s c p rest
        (((s.setProc i (s.proc i).freeproc).setPc p (.waitDone (s.proc i).pid
          (bif decide (addr = 0) then none else some (s.proc i).xstate))).setLock i none)
  | waitDone {ret : Int32} {status : Option Int32} (h : s.pc p = .waitDone ret status)
      (hl : s.lock p = some c) :
      ProcStep s c p rest ((s.setPc p .user).setLock p none)
  | exitWake {status : Int32} (h : s.pc p = .exitWake status) (hl : s.lock initproc = some c) :
      ProcStep s c p rest
        (((s.setProc initproc ((s.proc initproc).wakeup1 initproc)).setPc p
          (.spin p (.exitRead status))).setLock initproc none)
  | exitRead {status : Int32} {op : Slot} (h : s.pc p = .exitRead status)
      (ho : (s.proc p).parent = some op) (hl : s.lock p = some c) :
      ProcStep s c p rest ((s.setPc p (.exitLock status op)).setLock p none)
  | exitLock {status : Int32} {op : Slot} (h : s.pc p = .exitLock status op)
      (hl : s.lock op = none) :
      ProcStep s c p rest
        ((s.setPc p (.spin p (.reparent status op slots))).setLock op (some c))
  | reparentOther {status : Int32} {op i : Slot} {todo : List Slot}
      (h : s.pc p = .reparent status op (i :: todo)) (hi : (s.proc i).parent ≠ some p) :
      ProcStep s c p rest (s.setPc p (.reparent status op todo))
  | reparentChild {status : Int32} {op i : Slot} {todo : List Slot}
      (h : s.pc p = .reparent status op (i :: todo)) (hi : (s.proc i).parent = some p) :
      ProcStep s c p rest (s.setPc p (.spin i (.reparentFound status op i todo)))
  | reparentGive {status : Int32} {op i : Slot} {todo : List Slot}
      (h : s.pc p = .reparentFound status op i todo) (hl : s.lock i = some c) :
      ProcStep s c p rest
        (((s.setProc i { s.proc i with parent := some initproc }).setPc p
          (.reparent status op todo)).setLock i none)
  | exitZombie {status : Int32} {op : Slot} (h : s.pc p = .reparent status op [])
      (hl : s.lock op = some c) :
      ProcStep s c p rest
        ((((s.setProc op ((s.proc op).wakeup1 op)).setProc p
            { (s.setProc op ((s.proc op).wakeup1 op)).proc p with
              xstate := status, state := .zombie }).setPc p (.sched .dead)).setLock op none)
  | sched {k : Pc} (h : s.pc p = .sched k) (hl : s.lock p = some c)
      (hs : (s.proc p).state ≠ .running) :
      ProcStep s c p rest ((s.setPc p k).setCpu c (.back p rest))
  | sleep {chan : Chan} (h : s.pc p = .sleep chan) :
      ProcStep s c p rest
        ((s.setProc p { s.proc p with chan := some chan, state := .sleeping }).setPc p
          (.sched .woken))
  | woken (h : s.pc p = .woken) (hl : s.lock p = some c) :
      ProcStep s c p rest
        (((s.setProc p { s.proc p with chan := none }).setPc p .user).setLock p none)
  | yield {k : Pc} (h : s.pc p = .yield k) :
      ProcStep s c p rest
        ((s.setProc p { s.proc p with state := .runnable }).setPc p (.sched (.resume k)))
  | resume {k : Pc} (h : s.pc p = .resume k) (hl : s.lock p = some c) :
      ProcStep s c p rest ((s.setPc p k).setLock p none)

/-- What the steps of CPU `c` do. -/
inductive Step (s : State C) (c : C) : State C → Prop where
  | rescan (h : s.cpu c = .scan []) : Step s c (s.setCpu c (.scan slots))
  | lock {i : Slot} {todo : List Slot} (h : s.cpu c = .scan (i :: todo)) (hl : s.lock i = none) :
      Step s c ((s.setCpu c (.found i todo)).setLock i (some c))
  | switch {i : Slot} {todo : List Slot} (h : s.cpu c = .found i todo)
      (hi : (s.proc i).state = .runnable) :
      Step s c ((s.setProc i { s.proc i with state := .running }).setCpu c (.run i todo))
  | skip {i : Slot} {todo : List Slot} (h : s.cpu c = .found i todo)
      (hi : (s.proc i).state ≠ .runnable) (hl : s.lock i = some c) :
      Step s c ((s.setCpu c (.scan todo)).setLock i none)
  | back {p : Slot} {todo : List Slot} (h : s.cpu c = .back p todo) (hl : s.lock p = some c) :
      Step s c ((s.setCpu c (.scan todo)).setLock p none)
  | proc {p : Slot} {rest : List Slot} {s' : State C} (h : s.cpu c = .run p rest)
      (hp : ProcStep s c p rest s') : Step s c s'

section Inversion

variable {s s' : State C} {c : C} {p i l : Slot} {rest todo : List Slot} {a : Choice}

theorem acquire_done (h : acquire s c l = .done s') :
    s.lock l = none ∧ s' = s.setLock l (some c) := by
  simp only [acquire] at h
  split at h
  · next hl =>
    cases h
    exact ⟨hl, rfl⟩
  · split at h <;> cases h

theorem release_done (h : release s c l = .done s') :
    s.lock l = some c ∧ s' = s.setLock l none := by
  simp only [release] at h
  split at h
  · next hl =>
    cases h
    exact ⟨hl, rfl⟩
  · cases h

theorem sched_done (h : sched s c p rest = .done s') :
    s.lock p = some c ∧ (s.proc p).state ≠ .running ∧ s' = s.setCpu c (.back p rest) := by
  simp only [sched] at h
  split at h
  · cases h
  · next hl =>
    split at h
    · cases h
    · split at h <;> cases h
      next hs => exact ⟨not_not.mp hl, hs, rfl⟩

theorem procStep_syscall {x : Syscall} (hp : s.pc p = .user) (h : syscall s p x = .done s') :
    ProcStep s c p rest s' := by
  simp only [syscall] at h
  split at h <;> cases h
  next hx =>
    refine .call hp ?_
    rintro status rfl rfl
    exact hx status rfl rfl

theorem procStep_forkFrom (hp : s.pc p = .visit .alloc i todo)
    (hi : (s.proc i).state = .unused) (h : forkFrom s c p i a = .done s') :
    ProcStep s c p rest s' := by
  simp only [forkFrom] at h
  split at h
  · obtain ⟨hl, rfl⟩ := release_done h
    exact .noTrapframe hp hi hl
  · obtain ⟨hl, rfl⟩ := release_done h
    exact .noMemory hp hi hl
  · obtain ⟨hl, rfl⟩ := release_done h
    exact .noMemory hp hi hl
  · obtain ⟨hl, rfl⟩ := release_done h
    exact .fork hp hi hl

theorem procStep_visit {j : Job} (hp : s.pc p = .visit j i todo)
    (h : visit s c p a i todo j = .done s') : ProcStep s c p rest s' := by
  cases j with
  | alloc =>
    simp only [visit] at h
    split at h
    · next hi => exact procStep_forkFrom hp hi h
    · next hi =>
      obtain ⟨hl, rfl⟩ := release_done h
      exact .allocUsed hp hi hl
  | kill pid =>
    simp only [visit] at h
    split at h
    · next hi =>
      obtain ⟨hl, rfl⟩ := release_done h
      exact .kill hp hi hl
    · next hi =>
      obtain ⟨hl, rfl⟩ := release_done h
      exact .killOther hp hi hl
  | wakeup chan =>
    obtain ⟨hl, rfl⟩ := release_done h
    exact .wakeup hp hl

theorem procStep_waitScan {addr : Nat} {havekids : Bool}
    (hp : s.pc p = .waitScan addr havekids todo)
    (h : waitScan s c p addr havekids todo = .done s') : ProcStep s c p rest s' := by
  cases todo with
  | nil =>
    simp only [waitScan] at h
    split at h
    · next hk =>
      obtain ⟨hl, rfl⟩ := release_done h
      exact .waitNone hp hk hl
    · next hk =>
      cases h
      exact .waitSleep hp (by simpa using hk)
  | cons i todo =>
    simp only [waitScan] at h
    split at h <;> cases h
    · next hi => exact .waitChild hp hi
    · next hi => exact .waitOther hp hi

theorem procStep_waitFound {addr : Nat} (hp : s.pc p = .waitFound addr i todo)
    (h : waitFound s c p a addr i todo = .done s') : ProcStep s c p rest s' := by
  simp only [waitFound] at h
  split at h
  · next hi =>
    split at h
    · next ha =>
      obtain ⟨hl, rfl⟩ := release_done h
      exact .waitBadAddr hp hi (of_decide_eq_false ha) hl
    · obtain ⟨hl, rfl⟩ := release_done h
      exact .waitReap hp hi hl
  · next hi =>
    obtain ⟨hl, rfl⟩ := release_done h
    exact .waitLive hp hi hl

theorem procStep_reparent {status : Int32} {op : Slot} (hp : s.pc p = .reparent status op todo)
    (h : reparent s c p status op todo = .done s') : ProcStep s c p rest s' := by
  cases todo with
  | nil =>
    simp only [reparent] at h
    split at h
    · cases h
    · obtain ⟨hl, rfl⟩ := release_done h
      exact .exitZombie hp hl
  | cons i todo =>
    simp only [reparent] at h
    split at h <;> cases h
    · next hi => exact .reparentChild hp hi
    · next hi => exact .reparentOther hp hi

theorem procStep_of_done {k : Pc} (hp : s.pc p = k) (h : procStep s c p rest a k = .done s') :
    ProcStep s c p rest s' := by
  cases k with
  | user =>
    simp only [procStep] at h
    split at h
    · exact procStep_syscall hp h
    · cases h
      exact .fault hp
    · cases h
  | spin l k =>
    obtain ⟨hl, rfl⟩ := acquire_done h
    exact .acquire hp hl
  | visit j i todo => exact procStep_visit hp h
  | waitScan addr havekids todo => exact procStep_waitScan hp h
  | waitFound addr i todo => exact procStep_waitFound hp h
  | waitDone ret status =>
    obtain ⟨hl, rfl⟩ := release_done h
    exact .waitDone hp hl
  | waitWoken addr =>
    cases h
    exact .waitWoken hp
  | exitWake status =>
    simp only [procStep] at h
    split at h
    · cases h
    · obtain ⟨hl, rfl⟩ := release_done h
      exact .exitWake hp hl
  | exitRead status =>
    simp only [procStep] at h
    split at h
    · cases h
    · next ho =>
      obtain ⟨hl, rfl⟩ := release_done h
      exact .exitRead hp ho hl
  | exitLock status op =>
    obtain ⟨hl, rfl⟩ := acquire_done h
    exact .exitLock hp hl
  | reparent status op todo => exact procStep_reparent hp h
  | reparentFound status op i todo =>
    obtain ⟨hl, rfl⟩ := release_done h
    exact .reparentGive hp hl
  | sched k =>
    obtain ⟨hl, hs, rfl⟩ := sched_done h
    exact .sched hp hl hs
  | dead => cases h
  | sleep chan =>
    cases h
    exact .sleep hp
  | woken =>
    obtain ⟨hl, rfl⟩ := release_done h
    exact .woken hp hl
  | yield k =>
    cases h
    exact .yield hp
  | resume k =>
    obtain ⟨hl, rfl⟩ := release_done h
    exact .resume hp hl

theorem step_of_next {a : Act C} (h : next s a = .done s') : Step s a.cpu s' := by
  simp only [next] at h
  split at h
  · next hc =>
    cases h
    exact .rescan hc
  · next hc =>
    obtain ⟨hl, rfl⟩ := acquire_done h
    exact .lock hc hl
  · next hc =>
    split at h
    · next hi =>
      cases h
      exact .switch hc hi
    · next hi =>
      obtain ⟨hl, rfl⟩ := release_done h
      exact .skip hc hi hl
  · next hc =>
    split at h
    · split at h <;> cases h
      next hi => exact .proc hc (.timer hi)
    · exact .proc hc (procStep_of_done rfl h)
  · next hc =>
    obtain ⟨hl, rfl⟩ := release_done h
    exact .back hc hl

end Inversion

end Xv6.Process

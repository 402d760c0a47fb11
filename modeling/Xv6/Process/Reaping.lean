import Xv6.Process.Waiting

namespace Xv6.Process

open Lib.Transition

/-- What can be told about processes from outside. They are named by their numbers in the
order of creation, since slots and pids can be used again. -/
inductive Event where
  | fork (child : Nat) (pid : Int32)
  | exit (child : Nat) (status : Int32)
  /-- A `wait` of `parent` that freed `child`, its result and what it has stored. -/
  | reap (parent child : Nat) (ret : Int32) (status : Option Int32)
  deriving DecidableEq

def Event.reaped : Event → Option Nat
  | .reap _ child _ _ => some child
  | _ => none

/-- The status with which a process is on its way through `exit`. -/
def Pc.status : Pc → Option Int32
  | .exitWake status | .exitRead status | .exitLock status _ | .reparent status _ _
  | .reparentFound status _ _ _ => some status
  | .spin _ k | .yield k | .resume k | .sched k => k.status
  | _ => none

/-- `exit` has been called. -/
def Pc.exiting : Pc → Bool
  | .exitWake _ | .exitRead _ | .exitLock _ _ | .reparent _ _ _ | .reparentFound _ _ _ _ | .dead =>
    true
  | .spin _ k | .yield k | .resume k | .sched k => k.exiting
  | _ => false

section Definitions

variable {C : Type}

def see (s : State C) (a : Act C) (s' : State C) : Option Event :=
  match s.cpu a.cpu with
  | .run p _ =>
    match s.pc p, s'.pc p with
    | .visit .alloc i _, _ =>
      if s.births < s'.births then some (.fork s.births (s'.proc i).pid) else none
    | .user, .spin _ (.exitWake status) => some (.exit (s.birth p) status)
    | .waitFound _ i _, .waitDone ret status =>
      if (s'.proc i).state = .unused then some (.reap (s.birth p) (s.birth i) ret status) else none
    | _, _ => none
  | _ => none

structure History (es : List Event) (s : State C) : Prop where
  distinct : ∀ i j, (s.proc i).state ≠ .unused → (s.proc j).state ≠ .unused →
    s.birth i = s.birth j → i = j
  parent : ∀ i, i ≠ initproc → (s.proc i).state ≠ .unused → ∃ q, (s.proc i).parent = some q
  fork : ∀ i, i ≠ initproc → (s.proc i).state ≠ .unused →
    .fork (s.birth i) (s.proc i).pid ∈ es
  fork_old : ∀ n pid, .fork n pid ∈ es → n < s.births
  fork_unique : ∀ n pid pid', .fork n pid ∈ es → .fork n pid' ∈ es → pid = pid'
  exit : ∀ i status, (s.proc i).state ≠ .unused → (s.pc i).status = some status →
    .exit (s.birth i) status ∈ es
  exit_old : ∀ n status, .exit n status ∈ es → n < s.births
  exit_unique : ∀ n status status', .exit n status ∈ es → .exit n status' ∈ es → status = status'
  exiting : ∀ i status, (s.proc i).state ≠ .unused → .exit (s.birth i) status ∈ es →
    (s.pc i).exiting
  zombie : ∀ i, (s.proc i).state = .zombie → .exit (s.birth i) (s.proc i).xstate ∈ es
  reaped : ∀ n ∈ es.filterMap Event.reaped,
    n < s.births ∧ ∀ i, (s.proc i).state ≠ .unused → s.birth i ≠ n
  nodup : (es.filterMap Event.reaped).Nodup

end Definitions

theorem Job.status_next (j : Job) (todo : List Slot) : (j.next todo).status = none := by
  cases todo <;> rfl

section Observations

variable {C : Type} {s s' : State C} {a : Act C}

theorem see_fork {n : Nat} {pid : Int32} (h : see s a s' = some (.fork n pid)) :
    ∃ p rest i todo, s.cpu a.cpu = .run p rest ∧ s.pc p = .visit .alloc i todo ∧
      s.births < s'.births ∧ n = s.births ∧ pid = (s'.proc i).pid := by
  unfold see at h
  split at h
  · next p rest hc =>
    split at h
    · next i todo hpc =>
      split at h
      · next hb =>
        cases h
        exact ⟨p, rest, i, todo, hc, hpc, hb, rfl, rfl⟩
      · cases h
    · cases h
    · split at h <;> cases h
    · cases h
  · cases h

theorem see_exit {n : Nat} {status : Int32} (h : see s a s' = some (.exit n status)) :
    ∃ p rest l, s.cpu a.cpu = .run p rest ∧ s.pc p = .user ∧
      s'.pc p = .spin l (.exitWake status) ∧ n = s.birth p := by
  unfold see at h
  split at h
  · next p rest hc =>
    split at h
    · split at h <;> cases h
    · next l status' hpc hpc' =>
      cases h
      exact ⟨p, rest, l, hc, hpc, hpc', rfl⟩
    · split at h <;> cases h
    · cases h
  · cases h

theorem see_reap {m n : Nat} {ret : Int32} {status : Option Int32}
    (h : see s a s' = some (.reap m n ret status)) :
    ∃ p rest addr i todo, s.cpu a.cpu = .run p rest ∧ s.pc p = .waitFound addr i todo ∧
      s'.pc p = .waitDone ret status ∧ (s'.proc i).state = .unused ∧ m = s.birth p ∧
      n = s.birth i := by
  unfold see at h
  split at h
  · next p rest hc =>
    split at h
    · split at h <;> cases h
    · cases h
    · next addr i todo ret' status' hpc hpc' =>
      split at h
      · next hu =>
        cases h
        exact ⟨p, rest, addr, i, todo, hc, hpc, hpc', hu, rfl, rfl⟩
      · cases h
    · cases h
  · cases h

theorem see_of_scheduler (h : ∀ p rest, s.cpu a.cpu ≠ .run p rest) : see s a s' = none := by
  unfold see
  split
  · next hc => exact absurd hc (h _ _)
  · rfl

end Observations

variable {C : Type} [DecidableEq C] {s s' : State C} {c : C} {p : Slot} {rest : List Slot}

theorem ProcStep.born (hp : ProcStep s c p rest s') :
    s'.birth = s.birth ∧ s'.births = s.births ∨
      ∃ i todo, s.pc p = .visit .alloc i todo ∧ (s.proc i).state = .unused ∧
        s'.birth = Function.update s.birth i s.births ∧ s'.births = s.births + 1 := by
  cases hp with
  | @fork i todo hpc hu => exact Or.inr ⟨i, todo, hpc, hu, rfl, rfl⟩
  | _ => exact Or.inl ⟨rfl, rfl⟩

theorem ProcStep.exitStatus (hp : ProcStep s c p rest s') {status : Int32}
    (hs : (s'.pc p).status = some status) :
    (s.pc p).status = some status ∨
      s.pc p = .user ∧ s'.pc p = .spin initproc (.exitWake status) := by
  cases hp with
  | @call x hpc =>
    right
    cases x with
    | exit status' =>
      simp only [State.setPc_pc, Function.update_self, Syscall.enter, Pc.status,
        Option.some.injEq] at hs
      exact ⟨hpc, by simp [Syscall.enter, hs]⟩
    | fork | kill | wakeup => simp [Syscall.enter, Job.status_next] at hs
    | _ => simp [Syscall.enter, Pc.status] at hs
  | fault => exact Or.inl hs
  | timer => exact Or.inl (by simpa [Pc.status] using hs)
  | allocUsed | killOther | wakeup => simp [Job.status_next] at hs
  | acquire hpc | yield hpc | resume hpc | sched hpc | exitWake hpc | exitRead hpc | exitLock hpc
  | reparentOther hpc | reparentChild hpc | reparentGive hpc =>
    exact Or.inl (by simpa [hpc, Pc.status] using hs)
  | _ => simp [Pc.status] at hs

theorem ProcStep.exiting (hp : ProcStep s c p rest s') (hk : (s.pc p).exiting) :
    (s'.pc p).exiting := by
  cases hp with
  | fault => exact hk
  | timer => simpa [Pc.exiting] using hk
  | acquire hpc | yield hpc | resume hpc | sched hpc =>
    simpa [hpc, Pc.exiting] using hk
  | exitWake hpc | exitRead hpc | exitLock hpc | reparentOther hpc | reparentChild hpc
  | reparentGive hpc | exitZombie hpc => simp [Pc.exiting]
  | call hpc | allocUsed hpc | noTrapframe hpc | noMemory hpc | fork hpc | kill hpc | killOther hpc
  | wakeup hpc | waitOther hpc | waitChild hpc | waitNone hpc | waitSleep hpc | waitWoken hpc
  | waitLive hpc | waitBadAddr hpc | waitReap hpc | waitDone hpc | sleep hpc | woken hpc =>
    simp [hpc, Pc.exiting] at hk

theorem ProcStep.reap (h : Inv s) (hp : ProcStep s c p rest s') {addr : Nat} {i : Slot}
    {todo : List Slot} (hpc : s.pc p = .waitFound addr i todo)
    (hu : (s'.proc i).state = .unused) :
    (s.proc i).state = .zombie ∧ s'.pc p = .waitDone (s.proc i).pid
      (bif decide (addr = 0) then none else some (s.proc i).xstate) := by
  have hsound := h.threads.sound p
  rw [hpc] at hsound
  have hused : (s.proc i).state ≠ .unused := by
    intro hn
    simp [h.tree.unused i hn, Sound] at hsound
  cases hp with
  | waitReap h' hz =>
    cases h'.symm.trans hpc
    exact ⟨hz, by simp⟩
  | waitBadAddr h' | waitLive h' => exact absurd hu hused
  | timer h' =>
    rw [hpc] at h'
    cases h'
  | call h' | fault h' | acquire h' | allocUsed h' | noTrapframe h' | noMemory h' | fork h'
  | kill h' | killOther h' | wakeup h' | waitOther h' | waitChild h' | waitNone h' | waitSleep h'
  | waitWoken h' | waitDone h' | exitWake h' | exitRead h' | exitLock h' | reparentOther h'
  | reparentChild h' | reparentGive h' | exitZombie h' | sched h' | sleep h' | woken h' | yield h'
  | resume h' => cases h'.symm.trans hpc

theorem ProcStep.live (h : Inv s) (hr : s.cpu c = .run p rest) (hp : ProcStep s c p rest s')
    {i : Slot} (hu : (s'.proc i).state ≠ .unused) :
    (s.proc i).state ≠ .unused ∧ s'.birth i = s.birth i ∧ (s'.proc i).pid = (s.proc i).pid ∨
      (∃ todo, s.pc p = .visit .alloc i todo) ∧ s.births < s'.births ∧ s'.birth i = s.births ∧
        (s'.proc i).parent = some p ∧ s'.pc i = .resume .user := by
  have hc := hp.change h hr i
  by_cases hi : (s.proc i).state = .unused
  · right
    cases hc with
    | keep hs =>
      rw [hi] at hs
      exact absurd (hs.of_unused) hu
    | fork _ _ _ _ _ hpar hb hn hk =>
      obtain ⟨-, he⟩ | ⟨j, todo, hpc, -, hbirth, -⟩ := hp.born
      · omega
      · obtain rfl : i = j := by
          by_contra hij
          rw [hbirth, Function.update_of_ne hij] at hb
          exact absurd hb (h.tree.births i).ne
        exact ⟨⟨todo, hpc⟩, by omega, hb, hpar, hk⟩
    | free _ _ hs => exact absurd hs hu
    | give _ _ hs => exact absurd (hs.trans hi) hu
  · exact Or.inl ⟨hi, hc.birth_eq hi, (hp.edit h i).pid_eq hi hu⟩

section Step

variable {a : Act C} {es : List Event}

theorem History.distinct_step (h : Inv s) (hh : History es s) (hr : s.cpu c = .run p rest)
    (hp : ProcStep s c p rest s') (i j : Slot) (hi : (s'.proc i).state ≠ .unused)
    (hj : (s'.proc j).state ≠ .unused) (hij : s'.birth i = s'.birth j) : i = j := by
  obtain ⟨hi₀, hbi, -⟩ | ⟨⟨todo, hpci⟩, -, hbi, -⟩ := hp.live h hr hi <;>
  obtain ⟨hj₀, hbj, -⟩ | ⟨⟨todo', hpcj⟩, -, hbj, -⟩ := hp.live h hr hj
  · exact hh.distinct i j hi₀ hj₀ (by rw [← hbi, ← hbj, hij])
  · have := h.tree.births i
    omega
  · have := h.tree.births j
    omega
  · cases hpci.symm.trans hpcj
    rfl

theorem History.parent_step (h : Inv s) (hh : History es s) (hr : s.cpu c = .run p rest)
    (hp : ProcStep s c p rest s') (i : Slot) (hn : i ≠ initproc)
    (hu : (s'.proc i).state ≠ .unused) : ∃ q, (s'.proc i).parent = some q := by
  obtain ⟨hu₀, -⟩ | ⟨-, -, -, hpar, -⟩ := hp.live h hr hu
  · obtain he | he := (hp.change h hr i).parent_of_alive hu₀ hu
    · exact he ▸ hh.parent i hn hu₀
    · exact ⟨initproc, he⟩
  · exact ⟨p, hpar⟩

omit [DecidableEq C] in
theorem mem_see {e : Event} : e ∈ (see s a s').toList ++ es ↔ see s a s' = some e ∨ e ∈ es := by
  simp

theorem History.fork_step (h : Inv s) (hh : History es s) (hr : s.cpu a.cpu = .run p rest)
    (hp : ProcStep s a.cpu p rest s') (i : Slot) (hn : i ≠ initproc)
    (hu : (s'.proc i).state ≠ .unused) :
    .fork (s'.birth i) (s'.proc i).pid ∈ (see s a s').toList ++ es := by
  rw [mem_see]
  obtain ⟨hu₀, hb, hpid⟩ | ⟨⟨todo, hpc⟩, hlt, hb, -⟩ := hp.live h hr hu
  · exact Or.inr (hb ▸ hpid ▸ hh.fork i hn hu₀)
  · exact Or.inl (by simp [see, hr, hpc, hlt, hb])

theorem History.fork_old_step (hh : History es s) (hp : ProcStep s a.cpu p rest s') (n : Nat)
    (pid : Int32) (he : .fork n pid ∈ (see s a s').toList ++ es) : n < s'.births := by
  obtain he | he := mem_see.mp he
  · obtain ⟨-, -, -, -, -, -, hlt, rfl, -⟩ := see_fork he
    exact hlt
  · exact (hh.fork_old n pid he).trans_le hp.births_le

omit [DecidableEq C] in
theorem History.fork_unique_step (hh : History es s) (n : Nat) (pid pid' : Int32)
    (he : .fork n pid ∈ (see s a s').toList ++ es)
    (he' : .fork n pid' ∈ (see s a s').toList ++ es) : pid = pid' := by
  obtain he | he := mem_see.mp he <;> obtain he' | he' := mem_see.mp he'
  · cases he.symm.trans he'
    rfl
  · obtain ⟨-, -, -, -, -, -, -, rfl, -⟩ := see_fork he
    exact absurd (hh.fork_old _ _ he') (lt_irrefl _)
  · obtain ⟨-, -, -, -, -, -, -, rfl, -⟩ := see_fork he'
    exact absurd (hh.fork_old _ _ he) (lt_irrefl _)
  · exact hh.fork_unique n pid pid' he he'

theorem History.exit_step (h : Inv s) (hh : History es s) (hr : s.cpu a.cpu = .run p rest)
    (hp : ProcStep s a.cpu p rest s') (i : Slot) (status : Int32)
    (hu : (s'.proc i).state ≠ .unused) (hs : (s'.pc i).status = some status) :
    .exit (s'.birth i) status ∈ (see s a s').toList ++ es := by
  rw [mem_see]
  obtain ⟨hu₀, hb, -⟩ | ⟨-, -, -, -, hpc⟩ := hp.live h hr hu
  · rw [hb]
    by_cases hip : i = p
    · subst hip
      obtain hs | ⟨hpc, hpc'⟩ := hp.exitStatus hs
      · exact Or.inr (hh.exit i status hu₀ hs)
      · exact Or.inl (by simp [see, hr, hpc, hpc'])
    · obtain he | ⟨hfree, -⟩ := hp.pc_other hip
      · exact Or.inr (hh.exit i status hu₀ (he ▸ hs))
      · exact absurd hfree hu₀
  · simp [hpc, Pc.status] at hs

theorem History.exit_old_step (h : Inv s) (hh : History es s) (hp : ProcStep s a.cpu p rest s')
    (n : Nat) (status : Int32) (he : .exit n status ∈ (see s a s').toList ++ es) :
    n < s'.births := by
  obtain he | he := mem_see.mp he
  · obtain ⟨q, -, -, -, -, -, rfl⟩ := see_exit he
    exact (h.tree.births q).trans_le hp.births_le
  · exact (hh.exit_old n status he).trans_le hp.births_le

omit [DecidableEq C] in
theorem History.not_exited (h : Inv s) (hh : History es s) {n : Nat} {status status' : Int32}
    (he : see s a s' = some (.exit n status)) : .exit n status' ∉ es := by
  obtain ⟨q, rest, l, hr, hpc, -, rfl⟩ := see_exit he
  intro hold
  have hrun := h.threads.state_running hr (by simp [hpc, Pc.inSched])
  have hk := hh.exiting q status' (by simp [hrun]) hold
  simp [hpc, Pc.exiting] at hk

omit [DecidableEq C] in
theorem History.exit_unique_step (h : Inv s) (hh : History es s) (n : Nat)
    (status status' : Int32) (he : .exit n status ∈ (see s a s').toList ++ es)
    (he' : .exit n status' ∈ (see s a s').toList ++ es) : status = status' := by
  obtain he | he := mem_see.mp he <;> obtain he' | he' := mem_see.mp he'
  · cases he.symm.trans he'
    rfl
  · exact absurd he' (hh.not_exited h he)
  · exact absurd he (hh.not_exited h he')
  · exact hh.exit_unique n status status' he he'

theorem History.exiting_step (h : Inv s) (hh : History es s) (hr : s.cpu a.cpu = .run p rest)
    (hp : ProcStep s a.cpu p rest s') (i : Slot) (status : Int32)
    (hu : (s'.proc i).state ≠ .unused)
    (he : .exit (s'.birth i) status ∈ (see s a s').toList ++ es) : (s'.pc i).exiting := by
  obtain ⟨hu₀, hb, -⟩ | ⟨-, -, hb, -⟩ := hp.live h hr hu
  · rw [hb] at he
    obtain he | he := mem_see.mp he
    · obtain ⟨q, rest', l, hr', hpc, hpc', hq⟩ := see_exit he
      have hrun := h.threads.state_running hr' (by simp [hpc, Pc.inSched])
      obtain rfl := hh.distinct i q hu₀ (by simp [hrun]) hq
      simp [hpc', Pc.exiting]
    · have hk := hh.exiting i status hu₀ he
      by_cases hip : i = p
      · subst hip
        exact hp.exiting hk
      · obtain he | ⟨hfree, -⟩ := hp.pc_other hip
        · exact he ▸ hk
        · exact absurd hfree hu₀
  · rw [hb] at he
    obtain he | he := mem_see.mp he
    · obtain ⟨q, -, -, -, -, -, hq⟩ := see_exit he
      exact absurd hq (h.tree.births q).ne'
    · exact absurd (hh.exit_old _ _ he) (lt_irrefl _)

theorem History.zombie_step (h : Inv s) (hh : History es s) (hr : s.cpu a.cpu = .run p rest)
    (hp : ProcStep s a.cpu p rest s') (i : Slot) (hz : (s'.proc i).state = .zombie) :
    .exit (s'.birth i) (s'.proc i).xstate ∈ (see s a s').toList ++ es := by
  refine mem_see.mpr (Or.inr ?_)
  have hbirth := (hp.change h hr i).birth_eq
  obtain ⟨hz₀, hx⟩ | ⟨op, rfl, hpc, -⟩ := (hp.edit h i).zombie hz
  · rw [hx, hbirth (by simp [hz₀])]
    exact hh.zombie i hz₀
  · have hrun := h.threads.state_running hr (by simp [hpc, Pc.inSched])
    rw [hbirth (by simp [hrun])]
    exact hh.exit i _ (by simp [hrun]) (by rw [hpc]; rfl)

omit [DecidableEq C] in
theorem mem_reaped {n : Nat} : n ∈ ((see s a s').toList ++ es).filterMap Event.reaped ↔
    (∃ m ret status, see s a s' = some (.reap m n ret status)) ∨
      n ∈ es.filterMap Event.reaped := by
  rw [List.filterMap_append, List.mem_append]
  refine or_congr_left ?_
  cases hs : see s a s' with
  | none => simp
  | some e => cases e <;> simp [Event.reaped, eq_comm]

theorem History.reaped_step (h : Inv s) (hh : History es s) (hr : s.cpu a.cpu = .run p rest)
    (hp : ProcStep s a.cpu p rest s') (n : Nat)
    (hn : n ∈ ((see s a s').toList ++ es).filterMap Event.reaped) :
    n < s'.births ∧ ∀ i, (s'.proc i).state ≠ .unused → s'.birth i ≠ n := by
  obtain ⟨m, ret, status, he⟩ | hn := mem_reaped.mp hn
  · obtain ⟨q, rest', addr, i, todo, hr', hpc, hpc', hu, -, rfl⟩ := see_reap he
    refine ⟨(h.tree.births i).trans_le hp.births_le, fun j hj hbj => ?_⟩
    cases hr.symm.trans hr'
    have hz := (hp.reap h hpc hu).1
    obtain ⟨hj₀, hb, -⟩ | ⟨-, -, hb, -⟩ := hp.live h hr hj
    · obtain rfl := hh.distinct j i hj₀ (by simp [hz]) (hb.symm.trans hbj)
      exact hj hu
    · exact absurd (hb.symm.trans hbj) (h.tree.births i).ne'
  · obtain ⟨hlt, hother⟩ := hh.reaped n hn
    refine ⟨hlt.trans_le hp.births_le, fun j hj hbj => ?_⟩
    obtain ⟨hj₀, hb, -⟩ | ⟨-, -, hb, -⟩ := hp.live h hr hj
    · exact hother j hj₀ (hb.symm.trans hbj)
    · exact hlt.ne' (hb.symm.trans hbj)

theorem History.nodup_step (h : Inv s) (hh : History es s) (hr : s.cpu a.cpu = .run p rest)
    (hp : ProcStep s a.cpu p rest s') :
    (((see s a s').toList ++ es).filterMap Event.reaped).Nodup := by
  rw [List.filterMap_append]
  cases hs : see s a s' with
  | none => simpa using hh.nodup
  | some e =>
    cases e with
    | fork | exit => exact hh.nodup
    | reap m n ret status =>
      obtain ⟨q, rest', addr, i, todo, hr', hpc, -, hu, -, rfl⟩ := see_reap hs
      cases hr.symm.trans hr'
      have hz := (hp.reap h hpc hu).1
      refine List.nodup_cons.mpr ⟨fun hn => ?_, hh.nodup⟩
      exact (hh.reaped _ hn).2 i (by simp [hz]) rfl

theorem History.proc (h : Inv s) (hh : History es s) (hr : s.cpu a.cpu = .run p rest)
    (hp : ProcStep s a.cpu p rest s') : History ((see s a s').toList ++ es) s' where
  distinct := hh.distinct_step h hr hp
  parent := hh.parent_step h hr hp
  fork := hh.fork_step h hr hp
  fork_old := hh.fork_old_step hp
  fork_unique := hh.fork_unique_step
  exit := hh.exit_step h hr hp
  exit_old := hh.exit_old_step h hp
  exit_unique := hh.exit_unique_step h
  exiting := hh.exiting_step h hr hp
  zombie := hh.zombie_step h hr hp
  reaped := hh.reaped_step h hr hp
  nodup := hh.nodup_step h hr hp

omit [DecidableEq C] in
theorem History.sched (hh : History es s) (hs : Scheduled s s') : History es s' := by
  have hused : ∀ i, (s'.proc i).state ≠ .unused → (s.proc i).state ≠ .unused := fun i =>
    mt (hs.unused_iff i).mpr
  constructor
  · intro i j hi hj
    rw [hs.birth]
    exact hh.distinct i j (hused i hi) (hused j hj)
  · intro i hn hu
    rw [hs.field Proc.parent fun _ => rfl]
    exact hh.parent i hn (hused i hu)
  · intro i hn hu
    rw [hs.birth, hs.field Proc.pid fun _ => rfl]
    exact hh.fork i hn (hused i hu)
  · exact hs.births ▸ hh.fork_old
  · exact hh.fork_unique
  · intro i status hu hk
    rw [hs.birth]
    exact hh.exit i status (hused i hu) (hs.pc ▸ hk)
  · exact hs.births ▸ hh.exit_old
  · exact hh.exit_unique
  · intro i status hu he
    rw [hs.pc]
    exact hh.exiting i status (hused i hu) (hs.birth ▸ he)
  · intro i hz
    rw [hs.birth, hs.field Proc.xstate fun _ => rfl]
    exact hh.zombie i (hs.old_state (by simp) hz)
  · intro n hn
    obtain ⟨hlt, hother⟩ := hh.reaped n hn
    exact ⟨hs.births ▸ hlt, fun i hu => hs.birth ▸ hother i (hused i hu)⟩
  · exact hh.nodup

theorem History.step (h : Inv s) (hh : History es s) (hs : Step s a.cpu s') :
    History ((see s a s').toList ++ es) s' := by
  obtain ⟨hc, hs⟩ | ⟨p, rest, hr, hp⟩ := hs.scheduled
  · rw [see_of_scheduler hc]
    exact hh.sched hs
  · exact hh.proc h hr hp

omit [DecidableEq C] in
theorem History.boot : History [] (State.boot C) := by
  have hused : ∀ i, ((State.boot C).proc i).state ≠ .unused → i = initproc := by
    intro i hu
    by_contra hi
    simp [State.boot, hi, Proc.free] at hu
  have hpc : ((State.boot C).pc initproc).status = none := by simp [State.boot, Pc.status]
  constructor
  · intro i j hi hj _
    rw [hused i hi, hused j hj]
  · intro i hn hu
    exact absurd (hused i hu) hn
  · intro i hn hu
    exact absurd (hused i hu) hn
  · simp
  · simp
  · intro i status hu hs
    simp [hused i hu, hpc] at hs
  · simp
  · simp
  · simp
  · intro i hz
    have hi := hused i (by simp [hz])
    simp [State.boot, hi] at hz
  · simp
  · simp

theorem History.of_observed {ok : State C → Act C → Prop}
    (h : Observed (machine C) ok see es s) : Inv s ∧ History es s := by
  refine h.invariant (I := fun es s => Inv s ∧ History es s) ?_ ?_
  · rintro _ rfl
    exact ⟨.boot, .boot⟩
  · rintro es s a s' ⟨hi, hh⟩ - hn
    have hs := step_of_next hn
    exact ⟨hi.step hs, hh.step hi hs⟩

theorem next_badAddr {addr : Nat} {i : Slot} {todo : List Slot}
    (hn : next s a = .done s') (hr : s.cpu a.cpu = .run p rest)
    (hpc : s.pc p = .waitFound addr i todo) (hz : (s.proc i).state = .zombie) (ha : addr ≠ 0)
    (hc : a.choice = .badAddr) : s' = (s.setPc p (.waitDone (-1) none)).setLock i none := by
  simp only [next, hr, hc, hpc, procStep, waitFound, hz, ha, decide_false, if_true] at hn
  exact (release_done hn).2

end Step

/-- In every state in which no process lock is held, each process but `init` has a parent
that is alive. A child is reaped at most once in a run, by its parent
of that moment, with the pid that its `fork` gave it and the status it has passed to
`exit`. A `wait` that fails in `copyout` leaves the table as it is. -/
theorem child_reaped_once {es : List Event} (h : Observed (machine C) anyStep see es s) :
    ((∀ l, s.lock l = none) → ∀ i, i ≠ initproc → (s.proc i).state ≠ .unused →
      ∃ q, (s.proc i).parent = some q ∧ (s.proc q).state ≠ .unused ∧
        (s.proc q).state ≠ .zombie) ∧
    (es.filterMap Event.reaped).Nodup ∧
    ∀ a s', (machine C).next s a = .done s' →
      (∀ m n ret stored, see s a s' = some (.reap m n ret stored) →
        ∃ p rest addr i todo status, s.cpu a.cpu = .run p rest ∧
          s.pc p = .waitFound addr i todo ∧ s'.pc p = .waitDone ret stored ∧
          s.birth p = m ∧ s.birth i = n ∧ (s.proc i).parent = some p ∧
          (.fork n ret ∈ es ∧ ∀ pid, .fork n pid ∈ es → pid = ret) ∧
          (.exit n status ∈ es ∧ ∀ status', .exit n status' ∈ es → status' = status) ∧
          stored = if addr = 0 then none else some status) ∧
      ∀ p rest addr i todo, s.cpu a.cpu = .run p rest → s.pc p = .waitFound addr i todo →
        (s.proc i).state = .zombie → addr ≠ 0 → a.choice = .badAddr →
        s'.pc p = .waitDone (-1) none ∧ s'.proc = s.proc ∧ see s a s' = none := by
  obtain ⟨hi, hh⟩ := History.of_observed h
  refine ⟨fun _ i hn hu => ?_, hh.nodup, fun a s' hn => ⟨?_, ?_⟩⟩
  · obtain ⟨q, hq⟩ := hh.parent i hn hu
    exact ⟨q, hq, fun hs => hi.tree.childless q i (Or.inl hs) hq,
      fun hs => hi.tree.childless q i (Or.inr hs) hq⟩
  · intro m n ret stored he
    obtain ⟨p, rest, addr, i, todo, hr, hpc, hpc', hu, rfl, rfl⟩ := see_reap he
    obtain ⟨hc, -⟩ | ⟨q, rest', hr', hp⟩ := (step_of_next hn).scheduled
    · exact absurd hr (hc p rest)
    cases hr.symm.trans hr'
    obtain ⟨hz, hdone⟩ := hp.reap hi hpc hu
    obtain ⟨rfl, rfl⟩ : ret = (s.proc i).pid ∧ stored = _ := by
      simpa using hpc'.symm.trans hdone
    have hsound := hi.threads.sound p
    rw [hpc] at hsound
    have hni : i ≠ initproc := by
      rintro rfl
      exact hi.tree.init_alive.2 hz
    have hfork := hh.fork i hni (by simp [hz])
    have hexit := hh.zombie i hz
    refine ⟨p, rest, addr, i, todo, (s.proc i).xstate, hr, hpc, hpc', rfl, rfl, hsound,
      ⟨hfork, fun pid hpid => hh.fork_unique _ _ _ hpid hfork⟩,
      ⟨hexit, fun status' hs => hh.exit_unique _ _ _ hs hexit⟩, ?_⟩
    by_cases ha : addr = 0 <;> simp [ha]
  · intro p rest addr i todo hr hpc hz ha hc
    obtain rfl := next_badAddr hn hr hpc hz ha hc
    exact ⟨by simp, rfl, by simp [see, hr, hpc, hz]⟩

def exitAndWait : Acts :=
  start 0 0 ++ forkInto 0 1 ++ start 1 1 ++ call 1 (.exit 7) ++ go 1 75 ++
    call 0 (.wait 4096) ++ go 0 4

def sees (s : State (Fin NCPU)) (a : Act (Fin NCPU)) (e : Event) : Bool :=
  match next s a with
  | .done s' => see s a s' = some e
  | _ => false

theorem child_reaped_once_exitAndWait :
    ∃ es s, Observed (machine (Fin NCPU)) anyStep see es s ∧
      sees s ⟨0, .go⟩ (.reap 0 1 2 (some 7)) ∧ .exit 1 7 ∈ es := by
  have h : (finish (fun _ _ => true) exitAndWait).any (sees · ⟨0, .go⟩ (.reap 0 1 2 (some 7))) := by
    decide +kernel
  obtain ⟨s, ⟨τ, hr⟩, hsees⟩ := Reachable.of_perform (P := anyStep) h rfl fun _ _ _ => trivial
  obtain ⟨es, ho⟩ := hr.observed see
  refine ⟨es, s, ho, hsees, ?_⟩
  unfold sees at hsees
  split at hsees
  · next s' hn =>
    have hreap := ((child_reaped_once ho).2.2 _ s' hn).1 0 1 2 (some 7) (of_decide_eq_true hsees)
    obtain ⟨-, -, addr, -, -, status, -, -, -, -, -, -, -, ⟨hexit, -⟩, hstored⟩ := hreap
    split at hstored
    · cases hstored
    · cases hstored
      exact hexit
  · cases hsees

end Xv6.Process

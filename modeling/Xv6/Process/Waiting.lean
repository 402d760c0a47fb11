import Xv6.Process.Schedule

namespace Xv6.Process

open Lib.Transition

def Pc.original : Pc → Option Slot
  | .exitLock _ op | .reparent _ op _ | .reparentFound _ op _ _ => some op
  | .spin _ k | .yield k | .resume k | .sched k => k.original
  | _ => none

def Pc.scanned : Pc → Slot → Bool
  | .waitScan _ _ todo, i => i ∉ todo
  | .waitFound _ j todo, i | .spin _ (.waitFound _ j todo), i => i ≠ j ∧ i ∉ todo
  | _, _ => false

/-- Asleep in `wait`, or about to be. -/
def Pc.inWait : Pc → Bool
  | .waitWoken _ | .sched (.waitWoken _) => true
  | _ => false

def Pc.Fresh : Pc → Prop
  | .spin _ (.waitScan _ _ todo) => todo = slots
  | .spin _ k | .yield k | .resume k | .sched k => k.Fresh
  | _ => True

theorem Pc.Fresh.of_spin {l : Slot} {k : Pc} (h : (Pc.spin l k).Fresh) : k.Fresh := by
  cases k <;> trivial

theorem Pc.scanned_of_fresh {l : Slot} {k : Pc} (h : (Pc.spin l k).Fresh) (hk : k.wants = none)
    {i : Slot} (hi : k.scanned i) : (Pc.spin l k).scanned i := by
  cases k with
  | waitScan addr havekids todo =>
    cases h
    simp [Pc.scanned, slots] at hi
  | waitFound => exact hi
  | spin => cases hk
  | _ => cases hi

theorem Pc.mem_holds_of_scanned {k : Pc} {i : Slot} (h : k.scanned i) (p : Slot) :
    p ∈ k.holds p ∧ k.parked = false := by
  unfold Pc.scanned at h
  split at h <;> first | exact ⟨by simp [Pc.holds], rfl⟩ | cases h

theorem Pc.not_scanned_of_interruptible {k : Pc} (h : k.interruptible) (i : Slot) :
    k.scanned i = false := by
  cases k with
  | spin l k => cases k <;> first | rfl | cases h
  | user | exitLock => rfl
  | _ => cases h

theorem Pc.not_scanned_of_parked {k : Pc} (h : k.parked) (i : Slot) : k.scanned i = false := by
  cases k <;> first | rfl | cases h

theorem Job.next_cases (j : Job) (todo : List Slot) :
    (j.next todo).Fresh ∧ (j.next todo).original = none ∧ (j.next todo).inWait = false ∧
      ∀ i, (j.next todo).scanned i = false := by
  cases todo <;> exact ⟨trivial, rfl, rfl, fun _ => rfl⟩

theorem Syscall.enter_cases (x : Syscall) (p : Slot) :
    (x.enter p).Fresh ∧ (x.enter p).original = none ∧ (x.enter p).inWait = false ∧
      ∀ i, (x.enter p).scanned i = false := by
  cases x with
  | fork | kill | wakeup => exact Job.next_cases _ slots
  | wait => exact ⟨rfl, rfl, rfl, fun _ => rfl⟩
  | exit | sleep | resize | files => exact ⟨trivial, rfl, rfl, fun _ => rfl⟩

section Definitions

variable {C : Type}

def NoZombie (s : State C) (p i : Slot) : Prop :=
  (s.proc i).parent = some p → (s.proc i).state ≠ .zombie

structure Watch (s : State C) : Prop where
  fresh : ∀ p, (s.pc p).Fresh
  original : ∀ p op, (s.proc p).state ≠ .unused → (s.proc p).state ≠ .zombie →
    (s.pc p).original = some op →
    (s.proc p).parent = some op ∨ (s.proc p).parent = some initproc
  scanned : ∀ p, p ≠ initproc → ∀ i, (s.pc p).scanned i → NoZombie s p i
  asleep : ∀ p, p ≠ initproc → (s.pc p).inWait → (s.proc p).state = .sleeping →
    (s.proc p).chan = some (.proc p) → ∀ i, NoZombie s p i

theorem StateChange.alive {s : State C} {p i : Slot} {x y : ProcState}
    (h : StateChange s p i x y) (hu : y ≠ .unused) (hz : y ≠ .zombie) :
    x ≠ .unused ∧ x ≠ .zombie := by
  cases h with
  | same => exact ⟨hu, hz⟩
  | exit => exact absurd rfl hz
  | wake | switch | sleep | yield => simp

theorem Change.parent_of_alive {s s' : State C} {c : C} {p q : Slot} (h : Change s s' c p q)
    (hn : (s.proc q).state ≠ .unused) (hu : (s'.proc q).state ≠ .unused) :
    (s'.proc q).parent = (s.proc q).parent ∨ (s'.proc q).parent = some initproc := by
  cases h with
  | keep _ hp => exact Or.inl hp
  | fork h => exact absurd h hn
  | free _ _ hs => exact absurd hs hu
  | give _ _ _ hp => exact Or.inr hp

end Definitions

variable {C : Type} [DecidableEq C] {s s' : State C} {c : C} {p : Slot} {rest : List Slot}

theorem ProcStep.fresh (hp : ProcStep s c p rest s') (hf : ∀ q, (s.pc q).Fresh) (q : Slot) :
    (s'.pc q).Fresh := by
  by_cases hqp : q = p
  · subst hqp
    have hold := hf q
    cases hp with
    | fault => exact hold
    | call => simpa using (Syscall.enter_cases _ q).1
    | timer => simpa [Pc.Fresh] using hold
    | acquire hpc =>
      rw [hpc] at hold
      simpa using hold.of_spin
    | allocUsed | killOther | wakeup => simpa using (Job.next_cases _ _).1
    | yield hpc | resume hpc | sched hpc =>
      rw [hpc] at hold
      simpa [Pc.Fresh] using hold
    | _ => simp [Pc.Fresh]
  · obtain he | ⟨-, -, he⟩ := hp.pc_other hqp
    · exact he ▸ hf q
    · rw [he]
      trivial

theorem ProcStep.original (hp : ProcStep s c p rest s') {op : Slot}
    (ho : (s'.pc p).original = some op) :
    (s.pc p).original = some op ∨ (s.proc p).parent = some op := by
  cases hp with
  | fault => exact Or.inl ho
  | call => simp [(Syscall.enter_cases _ p).2.1] at ho
  | allocUsed | killOther | wakeup => simp [(Job.next_cases _ _).2.1] at ho
  | timer => exact Or.inl (by simpa [Pc.original] using ho)
  | acquire hpc | yield hpc | resume hpc | sched hpc | exitLock hpc | reparentOther hpc
  | reparentChild hpc | reparentGive hpc => exact Or.inl (by simpa [hpc, Pc.original] using ho)
  | exitRead hpc hpar =>
    right
    simp only [State.setLock_pc, State.setPc_pc, Function.update_self, Pc.original,
      Option.some.injEq] at ho
    rw [hpar, ho]
  | _ => simp [Pc.original] at ho

theorem Watch.original_step (h : Inv s) (hw : Watch s) (hr : s.cpu c = .run p rest)
    (hp : ProcStep s c p rest s') (q op : Slot) (hu : (s'.proc q).state ≠ .unused)
    (hz : (s'.proc q).state ≠ .zombie) (ho : (s'.pc q).original = some op) :
    (s'.proc q).parent = some op ∨ (s'.proc q).parent = some initproc := by
  have hpc : (s.pc q).original = some op ∨ (s.proc q).parent = some op := by
    by_cases hqp : q = p
    · subst hqp
      exact hp.original ho
    · obtain he | ⟨-, -, he⟩ := hp.pc_other hqp
      · exact Or.inl (he ▸ ho)
      · simp [he, Pc.original] at ho
  have hc := hp.change h hr q
  have halive : (s.proc q).state ≠ .unused ∧ (s.proc q).state ≠ .zombie := by
    cases hc with
    | keep hs => exact hs.alive hu hz
    | fork _ _ _ _ _ _ _ _ hk => simp [hk, Pc.original] at ho
    | free _ _ hs => exact absurd hs hu
    | give _ _ hs => exact hs ▸ ⟨hu, hz⟩
  have hpar := hpc.elim (hw.original q op halive.1 halive.2) Or.inl
  obtain he | he := hc.parent_of_alive halive.1 hu
  · rwa [he]
  · exact Or.inr he

theorem ProcStep.exit_parent (hp : ProcStep s c p rest s') {status : Int32} {op : Slot}
    (hpc : s.pc p = .reparent status op []) (hne : op ≠ p) :
    s'.proc op = (s.proc op).wakeup1 op := by
  cases hp with
  | exitZombie h =>
    cases h.symm.trans hpc
    simp [hne]
  | timer h =>
    rw [hpc] at h
    cases h
  | call h | fault h | acquire h | allocUsed h | noTrapframe h | noMemory h | fork h | kill h
  | killOther h | wakeup h | waitOther h | waitChild h | waitNone h | waitSleep h | waitWoken h
  | waitLive h | waitBadAddr h | waitReap h | waitDone h | exitWake h | exitRead h | exitLock h
  | reparentOther h | reparentChild h | reparentGive h | sched h | sleep h | woken h | yield h
  | resume h => cases h.symm.trans hpc

theorem ProcStep.zombie_self (h : Inv s) (hr : s.cpu c = .run p rest)
    (hp : ProcStep s c p rest s') (hz : (s'.proc p).state = .zombie)
    (hn : (s.proc p).state ≠ .zombie) :
    ∃ op, (s.pc p).original = some op ∧ s.lock op = some c ∧ (s.proc p).state = .running ∧
      ¬ ((s'.proc op).state = .sleeping ∧ (s'.proc op).chan = some (.proc op)) := by
  have hsound := h.threads.sound p
  obtain ⟨op, -, hpc, hl⟩ := ((hp.edit h p).zombie hz).resolve_left fun hold => hn hold.1
  rw [hpc] at hsound
  refine ⟨op, by simp [hpc, Pc.original], hl, h.threads.state_running hr ?_, ?_⟩
  · simp [hpc, Pc.inSched]
  · rw [hp.exit_parent hpc hsound.1.ne]
    exact (s.proc op).not_asleep_wakeup1 op

omit [DecidableEq C] in
theorem Watch.original_eq (hw : Watch s) {q op : Slot}
    (ho : (s.pc p).original = some op) (hs : (s.proc p).state = .running)
    (hq : q ≠ initproc) (hpar : (s.proc p).parent = some q) : op = q := by
  obtain he | he := hw.original p op (by simp [hs]) (by simp [hs]) ho
  · exact Option.some.inj (he.symm.trans hpar)
  · exact absurd (Option.some.inj (hpar.symm.trans he)) hq

theorem Watch.noZombie_other (h : Inv s) (hw : Watch s) (hr : s.cpu c = .run p rest)
    (hp : ProcStep s c p rest s') {q i : Slot} (hqp : q ≠ p) (hq : q ≠ initproc)
    (hold : NoZombie s q i) (hpar : (s'.proc i).parent = some q)
    (hz : (s'.proc i).state = .zombie) :
    s.lock q = some c ∧ ¬ ((s'.proc q).state = .sleeping ∧ (s'.proc q).chan = some (.proc q)) := by
  have hpar₀ := (h.tree.sameChildren (hp.change h hr) hqp).not_new hq i hpar
  have hz₀ := hold hpar₀
  obtain hz' | ⟨rfl, -⟩ := (hp.edit h i).old_state (by simp) (by simp) hz
  · exact absurd hz' hz₀
  · obtain ⟨op, ho, hl, hs, hwoken⟩ := hp.zombie_self h hr hz hz₀
    obtain rfl := hw.original_eq ho hs hq hpar₀
    exact ⟨hl, hwoken⟩

theorem Watch.scanned_other (h : Inv s) (hw : Watch s) (hr : s.cpu c = .run p rest)
    (hp : ProcStep s c p rest s') {q : Slot} (hqp : q ≠ p) (hq : q ≠ initproc) (i : Slot)
    (hi : (s'.pc q).scanned i) : NoZombie s' q i := by
  obtain he | ⟨-, -, he⟩ := hp.pc_other hqp
  · rw [he] at hi
    intro hpar hz
    obtain ⟨hl, -⟩ := hw.noZombie_other h hr hp hqp hq (hw.scanned q hq i hi) hpar hz
    -- The lock of `q` is held by the CPU that runs `q`.
    have hmem := Pc.mem_holds_of_scanned hi q
    obtain ⟨c', todo, hc', hl'⟩ := h.threads.on_cpu hmem.1 hmem.2
    obtain rfl : c = c' := Option.some.inj (hl.symm.trans hl')
    rw [hr] at hc'
    cases hc'
    exact hqp rfl
  · simp [he, Pc.scanned] at hi

theorem Watch.asleep_other (h : Inv s) (hw : Watch s) (hr : s.cpu c = .run p rest)
    (hp : ProcStep s c p rest s') {q : Slot} (hqp : q ≠ p) (hq : q ≠ initproc)
    (hk : (s'.pc q).inWait) (hs : (s'.proc q).state = .sleeping)
    (hc : (s'.proc q).chan = some (.proc q)) (i : Slot) : NoZombie s' q i := by
  obtain he | ⟨-, -, he⟩ := hp.pc_other hqp
  · have hedit := hp.edit h q
    have hs₀ : (s.proc q).state = .sleeping :=
      (hedit.old_state (by simp) (by simp) hs).resolve_right fun h => hqp h.1
    have hc₀ : (s.proc q).chan = some (.proc q) := hedit.chan_other hqp hs ▸ hc
    intro hpar hz
    have hold := hw.asleep q hq (he ▸ hk) hs₀ hc₀ i
    exact (hw.noZombie_other h hr hp hqp hq hold hpar hz).2 ⟨hs, hc⟩
  · simp [he, Pc.inWait] at hk

theorem Watch.scanned_self (h : Inv s) (hw : Watch s) (hp : ProcStep s c p rest s')
    (hn : p ≠ initproc) (i : Slot) (hi : (s'.pc p).scanned i) : NoZombie s' p i := by
  have hold := hw.scanned p hn i
  have hsound := h.threads.sound p
  cases hp with
  | @waitOther addr havekids j todo hpc hj =>
    simp only [State.setPc_pc, Function.update_self, Pc.scanned, decide_eq_true_eq] at hi
    by_cases hij : i = j
    · subst hij
      exact fun hpar => absurd hpar hj
    · exact hold (by simp [hpc, Pc.scanned, hij, hi])
  | @waitChild addr havekids j todo hpc =>
    simp only [State.setPc_pc, Function.update_self, Pc.scanned, decide_eq_true_eq] at hi
    exact hold (by simp [hpc, Pc.scanned, hi])
  | @waitLive addr j todo hpc hj =>
    simp only [State.setLock_pc, State.setPc_pc, Function.update_self, Pc.scanned,
      decide_eq_true_eq] at hi
    by_cases hij : i = j
    · subst hij
      exact fun _ => hj
    · exact hold (by simp [hpc, Pc.scanned, hij, hi])
  | @acquire l k hpc =>
    rw [hpc] at hsound hold
    have hf := hw.fresh p
    rw [hpc] at hf
    exact hold (Pc.scanned_of_fresh hf hsound.1.1 (by simpa using hi))
  | fault hpc => simp [hpc, Pc.scanned] at hi
  | resume hpc =>
    rw [hpc] at hsound
    simp [Pc.not_scanned_of_interruptible hsound.1] at hi
  | sched hpc =>
    rw [hpc] at hsound
    simp [Pc.not_scanned_of_parked hsound.1] at hi
  | call => simp [(Syscall.enter_cases _ p).2.2.2] at hi
  | allocUsed | killOther | wakeup => simp [(Job.next_cases _ _).2.2.2] at hi
  | waitWoken => simp [Pc.scanned, slots] at hi
  | _ => simp [Pc.scanned] at hi

theorem Watch.asleep_self (h : Inv s) (hw : Watch s) (hr : s.cpu c = .run p rest)
    (hp : ProcStep s c p rest s') (hn : p ≠ initproc) (hk : (s'.pc p).inWait)
    (hs : (s'.proc p).state = .sleeping) (hc : (s'.proc p).chan = some (.proc p)) (i : Slot) :
    NoZombie s' p i := by
  have hrun := h.threads.state_running hr
  have hsound := h.threads.sound p
  cases hp with
  | waitSleep hpc =>
    have hold := hw.scanned p hn i (by simp [hpc, Pc.scanned])
    by_cases hip : i = p
    · subst hip
      simp [NoZombie]
    · simpa [NoZombie, hip] using hold
  | @sched k hpc =>
    refine hw.asleep p hn ?_ hs hc i
    rw [hpc] at hsound ⊢
    have hk : k.inWait := by simpa using hk
    cases k <;> first | rfl | cases hk | cases hsound.1
  | acquire hpc | resume hpc =>
    have hpr : (s.proc p).state = .running := hrun (by simp [hpc, Pc.inSched])
    cases hpr.symm.trans hs
  | fault hpc => simp [hpc, Pc.inWait] at hk
  | call => simp [(Syscall.enter_cases _ p).2.2.1] at hk
  | allocUsed | killOther | wakeup => simp [(Job.next_cases _ _).2.2.1] at hk
  | _ => simp [Pc.inWait] at hk

theorem Watch.proc (h : Inv s) (hw : Watch s) (hr : s.cpu c = .run p rest)
    (hp : ProcStep s c p rest s') : Watch s' where
  fresh := hp.fresh hw.fresh
  original := hw.original_step h hr hp
  scanned q hq i hi := by
    by_cases hqp : q = p
    · subst hqp
      exact hw.scanned_self h hp hq i hi
    · exact hw.scanned_other h hr hp hqp hq i hi
  asleep q hq hk hs hc := by
    by_cases hqp : q = p
    · subst hqp
      exact hw.asleep_self h hr hp hq hk hs hc
    · exact hw.asleep_other h hr hp hqp hq hk hs hc

omit [DecidableEq C] in
theorem Watch.sched (hw : Watch s) (hs : Scheduled s s') : Watch s' := by
  have hpar := hs.field Proc.parent fun _ => rfl
  have hchan := hs.field Proc.chan fun _ => rfl
  have hzombie : ∀ {p i}, NoZombie s p i → NoZombie s' p i := by
    intro p i hold hp hz
    exact hold (hpar i ▸ hp) (hs.old_state (by simp) hz)
  refine ⟨hs.pc ▸ hw.fresh, ?_, ?_, ?_⟩
  · intro p op hu hz ho
    rw [hpar]
    rw [hs.pc] at ho
    refine hw.original p op (mt (hs.unused_iff p).mpr hu) (fun hz' => hz ?_) ho
    obtain he | ⟨hr, -⟩ := hs.proc p
    · rwa [he]
    · simp [hr] at hz'
  · intro p hp i hi
    exact hzombie (hw.scanned p hp i (hs.pc ▸ hi))
  · intro p hp hk hst hc i
    have hst₀ := hs.old_state (by simp) hst
    exact hzombie (hw.asleep p hp (hs.pc ▸ hk) hst₀ (hchan p ▸ hc) i)

theorem Watch.step (h : Inv s) (hw : Watch s) (hs : Step s c s') : Watch s' := by
  obtain ⟨-, hs⟩ | ⟨p, rest, hr, hp⟩ := hs.scheduled
  · exact hw.sched hs
  · exact hw.proc h hr hp

omit [DecidableEq C] in
theorem Watch.boot : Watch (State.boot C) := by
  have hpc : ∀ p, (State.boot C).pc p = .user ∨ (State.boot C).pc p = .resume .user := by
    intro p
    by_cases hp : p = initproc <;> simp [State.boot, hp]
  refine ⟨?_, ?_, ?_, ?_⟩
  · intro p
    obtain he | he := hpc p <;> rw [he] <;> trivial
  · intro p op _ _ ho
    obtain he | he := hpc p <;> simp [he, Pc.original] at ho
  · intro p _ i hi
    obtain he | he := hpc p <;> simp [he, Pc.scanned] at hi
  · intro p _ hk
    obtain he | he := hpc p <;> simp [he, Pc.inWait] at hk

theorem Watch.of_reachable {ok : State C → Act C → Prop} (h : Reachable (machine C) ok s) :
    Inv s ∧ Watch s := by
  refine h.invariant (I := fun s => Inv s ∧ Watch s) ?_ ?_
  · rintro _ rfl
    exact ⟨.boot, .boot⟩
  · rintro s a s' ⟨hi, hw⟩ - hn
    have hs := step_of_next hn
    exact ⟨hi.step hs, hw.step hi hs⟩

/-- As long as a process other than `init` sleeps in `wait`, none of its children is a zombie. -/
theorem wait_misses_no_exit (h : Reachable (machine C) anyStep s) (hp : p ≠ initproc)
    (hk : (s.pc p).inWait) (hs : (s.proc p).state = .sleeping)
    (hc : (s.proc p).chan = some (.proc p)) (i : Slot) (hi : (s.proc i).parent = some p) :
    (s.proc i).state ≠ .zombie :=
  (Watch.of_reachable h).2.asleep p hp hk hs hc i hi

def waitForChild : Acts :=
  start 0 0 ++ forkInto 0 1 ++ start 1 1 ++ forkInto 1 2 ++ call 1 (.wait 0) ++ go 1 70

theorem wait_misses_no_exit_waitForChild :
    ∃ s, Reachable (machine (Fin NCPU)) anyStep s ∧ s.lock 1 = none ∧
      (s.proc 2).parent = some 1 ∧ (s.proc 2).state ≠ .zombie := by
  have h : (finish (fun _ _ => true) waitForChild).any fun s =>
      s.lock 1 = none ∧ (s.pc 1).inWait ∧ (s.proc 1).state = .sleeping ∧
        (s.proc 1).chan = some (.proc 1) ∧ (s.proc 2).parent = some 1 := by decide +kernel
  obtain ⟨s, hr, hasleep⟩ := Reachable.of_perform (P := anyStep) h rfl fun _ _ _ => trivial
  obtain ⟨hl, hk, hst, hc, hpar⟩ := of_decide_eq_true hasleep
  exact ⟨s, hr, hl, hpar, wait_misses_no_exit hr (by decide) hk hst hc 2 hpar⟩

end Xv6.Process

import Xv6.Process.Invariant

namespace Xv6.Process

open Lib.Transition

section Table

variable {C : Type} {s s' : State C} {c : C} {p : Slot} {rest : List Slot}

theorem Threads.state_running (h : Threads s) (hr : s.cpu c = .run p rest)
    (hne : (s.pc p).inSched = false) : (s.proc p).state = .running :=
  (h.running c p rest hr).resolve_right fun hz => by simp [hne] at hz

theorem Threads.on_cpu (h : Threads s) {l : Slot} (hl : l ∈ (s.pc p).holds p)
    (hk : (s.pc p).parked = false) : ∃ c rest, s.cpu c = .run p rest ∧ s.lock l = some c := by
  obtain hn | hp | ⟨c, rest, hc⟩ := h.active p
  · simp [hn] at hl
  · simp [hk] at hp
  · refine ⟨c, rest, hc, ?_⟩
    simpa [h.locks, State.held, hc] using hl

theorem Threads.on_cpu_of_inSched (h : Threads s) (hk : (s.pc p).inSched) :
    ∃ c rest, s.cpu c = .run p rest ∧ s.lock p = some c :=
  h.on_cpu (by simp [Pc.holds_of_inSched hk]) (Pc.not_parked_of_inSched hk)

theorem Threads.not_inSched (h : Threads s) (hl : s.lock p = some c)
    (hc : ∀ rest, s.cpu c ≠ .run p rest) : (s.pc p).inSched = false := by
  by_contra hk
  obtain ⟨c', rest, hr, hl'⟩ := h.on_cpu_of_inSched (by simpa using hk)
  obtain rfl : c = c' := Option.some.inj (hl.symm.trans hl')
  exact hc rest hr

theorem Syscall.own_state (x : Syscall) (y : Proc) : (x.own y).state = y.state := by
  cases x <;> rfl

theorem Syscall.own_parent (x : Syscall) (y : Proc) : (x.own y).parent = y.parent := by
  cases x <;> rfl

theorem Proc.wakeup1_parent (x : Proc) (i : Slot) : (x.wakeup1 i).parent = x.parent := by
  unfold Proc.wakeup1
  split <;> rfl

theorem Proc.kill_parent (x : Proc) : x.kill.parent = x.parent := rfl

theorem Proc.wakeup_parent (x : Proc) (chan : Chan) : (x.wakeup chan).parent = x.parent := by
  unfold Proc.wakeup
  split <;> rfl

theorem StateChange.wakeup1 (x : Proc) (j i : Slot) :
    StateChange s p i x.state (x.wakeup1 j).state := by
  unfold Proc.wakeup1
  split
  · next h =>
    rw [h.2]
    exact .wake
  · exact .same _

theorem StateChange.wakeup (x : Proc) (chan : Chan) (i : Slot) :
    StateChange s p i x.state (x.wakeup chan).state := by
  unfold Proc.wakeup
  split
  · next h =>
    rw [h.1]
    exact .wake
  · exact .same _

theorem StateChange.kill (x : Proc) (i : Slot) : StateChange s p i x.state x.kill.state := by
  simp only [Proc.kill]
  split
  · next h =>
    rw [h]
    exact .wake
  · exact .same _

theorem State.setProc_parent {l : Slot} {x : Proc} (hx : x.parent = (s.proc l).parent) (i : Slot) :
    ((s.setProc l x).proc i).parent = (s.proc i).parent := by
  by_cases hi : i = l
  · subst hi
    simpa using hx
  · simp [hi]

theorem Change.of_eq (hs : s'.proc = s.proc) (hb : s'.birth = s.birth) (i : Slot) :
    Change s s' c p i := by
  refine .keep ?_ (by rw [hs]) (by rw [hb])
  rw [hs]
  exact .same _

theorem Change.at (l : Slot)
    (hs : ∀ j, j ≠ l → s'.proc j = s.proc j ∧ s'.birth j = s.birth j)
    (hl : Change s s' c p l) (i : Slot) : Change s s' c p i := by
  by_cases hi : i = l
  · exact hi ▸ hl
  · obtain ⟨he, hb⟩ := hs i hi
    refine .keep ?_ (by rw [he]) hb
    rw [he]
    exact .same _

end Table

variable {C : Type} [DecidableEq C] {s s' : State C} {c : C} {p : Slot} {rest : List Slot}

theorem ProcStep.change (h : Inv s) (hr : s.cpu c = .run p rest) (hp : ProcStep s c p rest s')
    (i : Slot) : Change s s' c p i := by
  have hsound := h.threads.sound p
  have hrun := h.threads.state_running hr
  cases hp with
  | timer | acquire | allocUsed | killOther | waitOther | waitChild | waitNone | waitLive
  | waitBadAddr | waitDone | exitRead | exitLock | reparentOther | reparentChild | sched
  | resume => apply Change.of_eq <;> rfl
  | call =>
    apply Change.at p (fun j hj => by simp [hj])
    apply Change.keep <;> simp [StateChange.same, Syscall.own_state, Syscall.own_parent]
  | @noTrapframe l =>
    apply Change.at l (fun j hj => by simp [hj])
    apply Change.keep <;> simp [StateChange.same]
  | @noMemory l todo hpc hu hl =>
    apply Change.at l (fun j hj => by simp [hj])
    apply Change.free (Or.inl hu) hl <;> simp [Proc.freeproc]
  | @fork l todo hpc hu hl =>
    have hpr := hrun (by simp [hpc, Pc.inSched])
    have hne : p ≠ l := by
      rintro rfl
      simp [hu] at hpr
    apply Change.at l (fun j hj => by simp [hj])
    apply Change.fork hu hl hpr <;> simp [hne, hne.symm, hpr, Proc.forkTo]
  | @kill pid l =>
    apply Change.at l (fun j hj => by simp [hj])
    apply Change.keep <;> simp [StateChange.kill, Proc.kill_parent]
  | @wakeup chan l =>
    apply Change.at l (fun j hj => by simp [hj])
    apply Change.keep <;> simp [StateChange.wakeup, Proc.wakeup_parent]
  | waitSleep hpc | sleep hpc =>
    have hpr := hrun (by simp [hpc, Pc.inSched])
    apply Change.at p (fun j hj => by simp [hj])
    apply Change.keep <;> simp [hpr, StateChange.sleep]
  | fault | waitWoken | woken =>
    apply Change.at p (fun j hj => by simp [hj])
    apply Change.keep <;> simp [StateChange.same]
  | @waitReap addr l todo hpc hz hl =>
    rw [hpc] at hsound
    apply Change.at l (fun j hj => by simp [hj])
    apply Change.free (Or.inr ⟨hz, hsound⟩) hl <;> simp [Proc.freeproc]
  | exitWake =>
    apply Change.at initproc (fun j hj => by simp [hj])
    apply Change.keep <;> simp [StateChange.wakeup1, Proc.wakeup1_parent]
  | @reparentGive status op l todo hpc hl =>
    rw [hpc] at hsound
    apply Change.at l (fun j hj => by simp [hj])
    apply Change.give hsound.2.1 hsound.1.not_init <;> simp
  | @exitZombie status op hpc hl =>
    rw [hpc] at hsound
    have hpr := hrun (by simp [hpc, Pc.inSched])
    have hexit : StateChange s p p .running .zombie :=
      .exit rfl hsound.1.not_init fun j => hsound.2 j List.not_mem_nil
    by_cases hip : i = p
    · subst hip
      apply Change.keep <;> simp [hpr, hexit, hsound.1.ne.symm]
    · by_cases hio : i = op
      · subst hio
        apply Change.keep <;> simp [hip, StateChange.wakeup1, Proc.wakeup1_parent]
      · apply Change.keep <;> simp [hip, hio, StateChange.same]
  | yield hpc =>
    have hpr := hrun (by simp [hpc, Pc.inSched])
    apply Change.at p (fun j hj => by simp [hj])
    apply Change.keep <;> simp [hpr, StateChange.yield]

theorem ProcStep.pc_other (hp : ProcStep s c p rest s') {q : Slot} (hq : q ≠ p) :
    s'.pc q = s.pc q ∨
      (s.proc q).state = .unused ∧ s.lock q = some c ∧ s'.pc q = .resume .user := by
  cases hp with
  | @fork l todo hpc hu hl =>
    by_cases hql : q = l
    · subst hql
      exact Or.inr ⟨hu, hl, by simp [hq]⟩
    · exact Or.inl (by simp [hq, hql])
  | _ => exact Or.inl (by simp [hq])

theorem ProcStep.status (h : Inv s) (hr : s.cpu c = .run p rest) (hp : ProcStep s c p rest s') :
    s'.cpu = s.cpu ∧
        ((s'.proc p).state = .running ∨ (s'.proc p).state ≠ .unused ∧ (s'.pc p).inSched) ∨
      s'.cpu = Function.update s.cpu c (.back p rest) ∧ (s'.pc p).parked ∧
        (s'.proc p).state ≠ .running := by
  have hsound := h.threads.sound p
  have hrun := h.threads.state_running hr
  cases hp with
  | acquire hpc | allocUsed hpc | killOther hpc | waitOther hpc | waitChild hpc
  | waitNone hpc | waitLive hpc | waitBadAddr hpc | waitDone hpc | exitRead hpc | exitLock hpc
  | reparentOther hpc | reparentChild hpc | resume hpc =>
    exact Or.inl ⟨rfl, Or.inl (hrun (by simp [hpc, Pc.inSched]))⟩
  | waitSleep | sleep | yield => exact Or.inl ⟨rfl, Or.inr (by simp [Pc.inSched])⟩
  | sched hpc hl hs =>
    rw [hpc] at hsound
    exact Or.inr ⟨rfl, by simpa using hsound.1, hs⟩
  | call hpc =>
    have hpr := hrun (by simp [hpc, Pc.inSched])
    exact Or.inl ⟨rfl, Or.inl (by simp [Syscall.own_state, hpr])⟩
  | timer hpc =>
    refine Or.inl ⟨rfl, Or.inl (hrun ?_)⟩
    cases hk : s.pc p <;> first | rfl | simp [hk, Pc.interruptible] at hpc
  | @noTrapframe l todo hpc hu | @noMemory l todo hpc hu | @fork l todo hpc hu =>
    have hpr := hrun (by simp [hpc, Pc.inSched])
    have hne : p ≠ l := by
      rintro rfl
      simp [hu] at hpr
    exact Or.inl ⟨rfl, Or.inl (by simp [hne, hpr])⟩
  | @waitReap addr l todo hpc hz =>
    have hpr := hrun (by simp [hpc, Pc.inSched])
    have hne : p ≠ l := by
      rintro rfl
      simp [hz] at hpr
    exact Or.inl ⟨rfl, Or.inl (by simp [hne, hpr])⟩
  | fault hpc | waitWoken hpc | woken hpc =>
    exact Or.inl ⟨rfl, Or.inl (by simp [hrun, hpc, Pc.inSched])⟩
  | kill hpc | wakeup hpc | exitWake hpc | reparentGive hpc =>
    -- A running process is not changed by waking it up.
    have hpr := hrun (by simp [hpc, Pc.inSched])
    refine Or.inl ⟨rfl, Or.inl ?_⟩
    simp only [State.setLock_proc, State.setPc_proc, State.setProc_proc, Function.update_apply]
    split
    · next he =>
      subst he
      simp [hpr, Proc.kill, Proc.wakeup, Proc.wakeup1]
    · exact hpr
  | exitZombie => exact Or.inl ⟨rfl, Or.inr (by simp [Pc.inSched])⟩

/-- The effect of a step of process `p` on the locks its CPU holds. -/
inductive Locking (s s' : State C) (c : C) (held held' : List Slot) : Prop where
  | same (hl : s'.lock = s.lock) (hh : held' = held)
  | acquire (l : Slot) (hl : s'.lock = Function.update s.lock l (some c)) (h : s.lock l = none)
      (hh : ∀ x, x ∈ held' ↔ x = l ∨ x ∈ held)
  | release (l : Slot) (hl : s'.lock = Function.update s.lock l none) (h : s.lock l = some c)
      (hh : ∀ x, x ∈ held' ↔ x ≠ l ∧ x ∈ held)

theorem Locking.of_head {l : Slot} {held held' : List Slot} (hh : held.head? = some l)
    (ht : held.tail = held') (x : Slot) : x ∈ held ↔ x = l ∨ x ∈ held' := by
  cases held with
  | nil => cases hh
  | cons y held =>
    cases hh
    cases ht
    exact List.mem_cons

theorem ProcStep.locking (h : Inv s) (hp : ProcStep s c p rest s') :
    Locking s s' c ((s.pc p).holds p) ((s'.pc p).holds p) := by
  have hsound := h.threads.sound p
  cases hp with
  | @call x hpc =>
    exact .same rfl (by simp [hpc, Syscall.holds_enter, Pc.holds])
  | timer hpc =>
    exact .same rfl (by simp [Pc.holds_of_interruptible hpc, Pc.holds])
  | @acquire l k hpc hl =>
    rw [hpc] at hsound
    refine .acquire l rfl hl ?_
    simpa [hpc, Pc.holds] using Locking.of_head hsound.1.2 rfl
  | @exitLock status op hpc hl =>
    refine .acquire op rfl hl ?_
    simp [hpc, Pc.holds]
  | fault hpc => exact .same rfl (by simp)
  | sched hpc =>
    rw [hpc] at hsound
    exact .same rfl (by simp [hpc, Pc.holds_of_parked hsound.1, Pc.holds])
  | @resume k hpc hl =>
    rw [hpc] at hsound
    refine .release p rfl hl ?_
    simp [hpc, Pc.holds, Pc.holds_of_interruptible hsound.1]
  | @waitLive addr l todo hpc hi hl | @waitBadAddr addr l todo hpc hi ha hl
  | @waitReap addr l todo hpc hi hl =>
    rw [hpc] at hsound
    have hne := h.tree.parent_ne hsound
    refine .release l rfl hl ?_
    simp only [State.setLock_pc, State.setPc_pc, Function.update_self, hpc, Pc.holds]
    grind
  | @reparentGive status op l todo hpc hl =>
    rw [hpc] at hsound
    have hne := h.tree.parent_ne hsound.2.1
    have hop : op ≠ l := by
      rintro rfl
      exact hsound.1.not_child hsound.2.1
    refine .release l rfl hl ?_
    simp only [State.setLock_pc, State.setPc_pc, Function.update_self, hpc, Pc.holds]
    grind
  | @exitZombie status op hpc hl =>
    rw [hpc] at hsound
    have hne := hsound.1.ne
    refine .release op rfl hl ?_
    simp only [State.setLock_pc, State.setPc_pc, Function.update_self, hpc, Pc.holds]
    grind
  | @allocUsed l todo hpc hi hl | @noTrapframe l todo hpc hi hl | @noMemory l todo hpc hi hl
  | @fork l todo hpc hi hl | @kill pid l todo hpc hi hl | @killOther pid l todo hpc hi hl
  | @wakeup chan l todo hpc hl =>
    refine .release l rfl hl ?_
    simp [hpc, Pc.holds, Job.holds_next]
  | waitNone hpc _ hl | waitDone hpc hl | exitRead hpc _ hl | woken hpc hl =>
    refine .release p rfl hl ?_
    simp [hpc, Pc.holds]
  | exitWake hpc hl =>
    refine .release initproc rfl hl ?_
    simp [hpc, Pc.holds]
  | waitOther hpc | waitChild hpc | waitSleep hpc | waitWoken hpc | reparentOther hpc
  | reparentChild hpc | sleep hpc | yield hpc =>
    exact .same rfl (by simp [hpc, Pc.holds])

omit [DecidableEq C] in
theorem Sound.next (s : State C) (p : Slot) (j : Job) (todo : List Slot) :
    Sound s p (j.next todo) := by
  cases todo with
  | nil => trivial
  | cons i todo => exact ⟨⟨rfl, rfl⟩, trivial⟩

omit [DecidableEq C] in
theorem Sound.enter (s : State C) (p : Slot) {x : Syscall}
    (hx : ∀ status, x = .exit status → p ≠ initproc) : Sound s p (x.enter p) := by
  cases x with
  | exit status => exact ⟨⟨rfl, rfl⟩, hx status rfl⟩
  | fork | kill | wakeup => exact .next s p _ slots
  | wait | sleep => exact ⟨⟨rfl, rfl⟩, trivial⟩
  | resize | files => trivial

omit [DecidableEq C] in
theorem Tree.leaving (h : Tree s) {op : Slot} (hn : p ≠ initproc)
    (ho : (s.proc p).parent = some op) : Leaving s p op where
  not_init := hn
  ne := h.parent_ne ho
  not_child hc := absurd ((h.older p op ho).trans (h.older op p hc)) (lt_irrefl _)

theorem ProcStep.sound_self (h : Inv s) (hp : ProcStep s c p rest s') : Sound s' p (s'.pc p) := by
  have hsound := h.threads.sound p
  have hkeep : (∀ i, (s'.proc i).parent = (s.proc i).parent) → Sound s p (s'.pc p) →
      Sound s' p (s'.pc p) := fun hs hk => hk.mono (.of_eq hs p)
  cases hp with
  | call hpc hx =>
    exact hkeep (State.setProc_parent (Syscall.own_parent _ _)) (by simpa using .enter s p hx)
  | fault hpc => exact hkeep (State.setProc_parent rfl) hsound
  | timer hpc => exact hkeep (fun _ => rfl) (by simpa using ⟨⟨rfl, rfl⟩, hpc, hsound⟩)
  | allocUsed | killOther | wakeup => simpa using Sound.next _ p _ _
  | waitChild hpc hi => exact hkeep (fun _ => rfl) (by simpa using ⟨⟨rfl, rfl⟩, hi⟩)
  | exitRead hpc ho =>
    rw [hpc] at hsound
    exact hkeep (fun _ => rfl) (by simpa [Sound] using h.tree.leaving hsound ho)
  | exitLock hpc =>
    rw [hpc] at hsound
    exact hkeep (fun _ => rfl) (by simpa using ⟨⟨rfl, rfl⟩, hsound, by simp [slots]⟩)
  | @reparentOther status op l todo hpc hi =>
    rw [hpc] at hsound
    refine hkeep (fun _ => rfl) ?_
    simp only [State.setPc_pc, Function.update_self]
    refine ⟨hsound.1, fun i hn => ?_⟩
    by_cases hl : i = l
    · exact hl ▸ hi
    · exact hsound.2 i (by simp [hl, hn])
  | @reparentChild status op l todo hpc hi =>
    rw [hpc] at hsound
    refine hkeep (fun _ => rfl) ?_
    simp only [State.setPc_pc, Function.update_self]
    exact ⟨⟨rfl, rfl⟩, hsound.1, hi, fun j hj hn => hsound.2 j (by simp [hj, hn])⟩
  | @reparentGive status op l todo hpc =>
    -- The child given away is the only slot whose parent changes.
    rw [hpc] at hsound
    obtain ⟨hleave, hl, hothers⟩ := hsound
    have hop : op ≠ l := by
      rintro rfl
      exact hleave.not_child hl
    simp only [State.setLock_pc, State.setPc_pc, Function.update_self]
    refine ⟨⟨hleave.not_init, hleave.ne, by simpa [hop] using hleave.not_child⟩, fun i hn => ?_⟩
    by_cases hi : i = l
    · subst hi
      simpa using hleave.not_init.symm
    · simpa [hi] using hothers i hi hn
  | @exitZombie status op hpc =>
    rw [hpc] at hsound
    refine hkeep (fun i => ?_) ?_
    · refine Eq.trans (State.setProc_parent ?_ i) (State.setProc_parent ?_ i)
      · rfl
      · exact Proc.wakeup1_parent _ op
    · simpa using ⟨rfl, hsound.1.not_init, fun i => hsound.2 i List.not_mem_nil⟩
  | exitWake hpc =>
    rw [hpc] at hsound
    exact hkeep (State.setProc_parent (Proc.wakeup1_parent _ initproc))
      (by simpa using ⟨⟨rfl, rfl⟩, hsound⟩)
  | yield hpc =>
    rw [hpc] at hsound
    exact hkeep (State.setProc_parent rfl) (by simpa using ⟨rfl, hsound⟩)
  | acquire hpc | resume hpc | sched hpc =>
    rw [hpc] at hsound
    exact hkeep (fun _ => rfl) (by simpa using hsound.2)
  | noTrapframe | noMemory | fork | kill | waitOther | waitNone | waitSleep | waitWoken | waitLive
  | waitBadAddr | waitReap | waitDone | sleep | woken => simp [Sound, Pc.parked]

omit [DecidableEq C] in
theorem Locking.locks {held held' : List Slot} (hk : Locking s s' c held held')
    (hl : ∀ l, s.lock l = some c ↔ l ∈ held) (l : Slot) : s'.lock l = some c ↔ l ∈ held' := by
  cases hk with
  | same hs hh => rw [hs, hh, hl]
  | acquire m hs h hh =>
    rw [hs, hh, ← hl, Function.update_apply]
    split
    · next he => simp [he]
    · next he => simp [he]
  | release m hs h hh =>
    rw [hs, hh, ← hl, Function.update_apply]
    split
    · next he => simp [he]
    · next he => simp [he]

omit [DecidableEq C] in
theorem Locking.locks_other {held held' : List Slot} (hk : Locking s s' c held held') {c' : C}
    (hc : c' ≠ c) (l : Slot) : s'.lock l = some c' ↔ s.lock l = some c' := by
  cases hk with
  | same hs => rw [hs]
  | acquire m hs h =>
    rw [hs, Function.update_apply]
    split
    · next he => simp [he, h, hc.symm]
    · rfl
  | release m hs h =>
    rw [hs, Function.update_apply]
    split
    · next he => simp [he, h, hc.symm]
    · rfl

theorem ProcStep.cpu_eq (h : Inv s) (hr : s.cpu c = .run p rest) (hp : ProcStep s c p rest s')
    {c' : C} (hc : c' ≠ c) : s'.cpu c' = s.cpu c' := by
  obtain ⟨he, -⟩ | ⟨he, -⟩ := hp.status h hr
  · rw [he]
  · rw [he, Function.update_of_ne hc]

theorem ProcStep.run_of_run (h : Inv s) (hr : s.cpu c = .run p rest)
    (hp : ProcStep s c p rest s') {c' : C} {q : Slot} {todo : List Slot}
    (hq : s'.cpu c' = .run q todo) : s.cpu c' = .run q todo := by
  obtain ⟨he, -⟩ | ⟨he, -⟩ := hp.status h hr
  · rwa [he] at hq
  · rw [he, Function.update_apply] at hq
    split at hq
    · cases hq
    · exact hq

theorem ProcStep.held_self (h : Inv s) (hr : s.cpu c = .run p rest)
    (hp : ProcStep s c p rest s') : s'.held c = (s'.pc p).holds p := by
  obtain ⟨he, -⟩ | ⟨he, hk⟩ := hp.status h hr
  · simp [State.held, he, hr]
  · simp [State.held, he, Pc.holds_of_parked hk.1]

theorem ProcStep.held_other (h : Inv s) (hr : s.cpu c = .run p rest)
    (hp : ProcStep s c p rest s') {c' : C} (hc : c' ≠ c) : s'.held c' = s.held c' := by
  simp only [State.held, hp.cpu_eq h hr hc]
  split
  · rfl
  · rfl
  · next q todo hq =>
    have hqp : q ≠ p := by
      rintro rfl
      exact hc (h.threads.unique c' c q todo rest hq hr)
    obtain he | ⟨hu, -⟩ := hp.pc_other hqp
    · rw [he]
    · obtain hs | ⟨hs, -⟩ := h.threads.running c' q todo hq <;> simp [hu] at hs
  · rfl

theorem Inv.locks_proc (h : Inv s) (hr : s.cpu c = .run p rest) (hp : ProcStep s c p rest s')
    (l : Slot) (c' : C) : s'.lock l = some c' ↔ l ∈ s'.held c' := by
  have hlk := hp.locking h
  by_cases hc : c' = c
  · subst hc
    rw [hp.held_self h hr]
    refine hlk.locks (fun l => ?_) l
    rw [h.threads.locks]
    simp [State.held, hr]
  · rw [hp.held_other h hr hc, hlk.locks_other hc, h.threads.locks]

theorem Inv.running_proc (h : Inv s) (hr : s.cpu c = .run p rest) (hp : ProcStep s c p rest s')
    (c' : C) (q : Slot) (todo : List Slot) (hq : s'.cpu c' = .run q todo) :
    (s'.proc q).state = .running ∨ (s'.proc q).state ≠ .unused ∧ (s'.pc q).inSched := by
  have hq₀ := hp.run_of_run h hr hq
  by_cases hqp : q = p
  · subst hqp
    obtain ⟨-, hs⟩ | ⟨he, -⟩ := hp.status h hr
    · exact hs
    · have hc := h.threads.unique c' c q todo rest hq₀ hr
      simp [he, hc] at hq
  · have hold := h.threads.running c' q todo hq₀
    have hpc : s'.pc q = s.pc q := by
      refine (hp.pc_other hqp).resolve_right fun hu => ?_
      simp [hu.1] at hold
    rw [hpc]
    cases hp.change h hr q with
    | keep hs =>
      obtain hold | ⟨hu, hk⟩ := hold
      · exact Or.inl ((hs.eq_of_ne hqp (Or.inl hold)).trans hold)
      · refine Or.inr ⟨fun hn => hu ?_, hk⟩
        rw [hn] at hs
        exact hs.eq_unused
    | fork hu => simp [hu] at hold
    | free hu hl =>
      -- The zombie still holds its lock, so the step is its own.
      obtain hu | ⟨hz, -⟩ := hu
      · simp [hu] at hold
      · have hk : (s.pc q).inSched = false := by
          refine h.threads.not_inSched hl fun todo' hq' => hqp ?_
          rw [hr] at hq'
          cases hq'
          rfl
        simp [hz, hk] at hold
    | give _ _ hs => rwa [hs]

theorem Inv.parked_proc (h : Inv s) (hr : s.cpu c = .run p rest) (hp : ProcStep s c p rest s')
    (q : Slot) (hq : (s'.proc q).state = .runnable ∨ (s'.proc q).state = .sleeping) :
    (s'.pc q).parked ∨ (s'.pc q).inSched := by
  by_cases hqp : q = p
  · subst hqp
    obtain ⟨-, hs⟩ | ⟨-, hk, -⟩ := hp.status h hr
    · obtain hs | ⟨-, hk⟩ := hs
      · simp [hs] at hq
      · exact Or.inr hk
    · exact Or.inl hk
  · have hpc : (s.proc q).state = .runnable ∨ (s.proc q).state = .sleeping →
        (s'.pc q).parked ∨ (s'.pc q).inSched := by
      intro hold
      obtain he | ⟨-, -, he⟩ := hp.pc_other hqp
      · rw [he]
        exact h.threads.parked q hold
      · rw [he]
        exact Or.inl rfl
    cases hp.change h hr q with
    | keep hs => exact hpc (hs.resting_of_ne hqp hq)
    | fork _ _ _ _ _ _ _ _ hk => exact Or.inl (by rw [hk]; rfl)
    | free _ _ hs => simp [hs] at hq
    | give _ _ hs => exact hpc (hs ▸ hq)

theorem Inv.active_proc (h : Inv s) (hr : s.cpu c = .run p rest) (hp : ProcStep s c p rest s')
    (q : Slot) : (s'.pc q).holds q = [] ∨ (s'.pc q).parked ∨ ∃ c rest, s'.cpu c = .run q rest := by
  by_cases hqp : q = p
  · subst hqp
    obtain ⟨he, -⟩ | ⟨-, hk, -⟩ := hp.status h hr
    · exact Or.inr (Or.inr ⟨c, rest, he ▸ hr⟩)
    · exact Or.inr (Or.inl hk)
  · obtain he | ⟨-, -, he⟩ := hp.pc_other hqp
    · rw [he]
      refine (h.threads.active q).imp_right (Or.imp_right ?_)
      rintro ⟨c', todo, hq⟩
      refine ⟨c', todo, (hp.cpu_eq h hr ?_).trans hq⟩
      rintro rfl
      rw [hr] at hq
      cases hq
      exact hqp rfl
    · exact Or.inr (Or.inl (by rw [he]; rfl))

theorem Inv.sound_proc (h : Inv s) (hr : s.cpu c = .run p rest) (hp : ProcStep s c p rest s')
    (q : Slot) : Sound s' q (s'.pc q) := by
  by_cases hqp : q = p
  · exact hqp ▸ hp.sound_self h
  · obtain he | ⟨-, -, he⟩ := hp.pc_other hqp
    · rw [he]
      exact (h.threads.sound q).mono (h.tree.sameChildren (hp.change h hr) hqp)
    · rw [he]
      exact ⟨rfl, trivial⟩

theorem ProcStep.births_le (hp : ProcStep s c p rest s') : s.births ≤ s'.births := by
  cases hp with
  | fork => exact Nat.le_succ _
  | _ => exact le_rfl

theorem Inv.proc (h : Inv s) (hr : s.cpu c = .run p rest) (hp : ProcStep s c p rest s') :
    Inv s' where
  tree := h.tree.step (hp.change h hr) hp.births_le
  threads.locks := h.locks_proc hr hp
  threads.unique c₁ c₂ q t₁ t₂ h₁ h₂ :=
    h.threads.unique c₁ c₂ q t₁ t₂ (hp.run_of_run h hr h₁) (hp.run_of_run h hr h₂)
  threads.running := h.running_proc hr hp
  threads.parked := h.parked_proc hr hp
  threads.active := h.active_proc hr hp
  threads.sound := h.sound_proc hr hp

theorem Inv.sched (h : Inv s) {u : Cpu} {lock : Slot → Option C}
    (hu : ∀ q todo, s.cpu c ≠ .run q todo) (hu' : ∀ q todo, u ≠ .run q todo)
    (hk : Locking s ({ s with lock := lock }.setCpu c u) c (s.held c)
      (({ s with lock := lock }.setCpu c u).held c)) :
    Inv ({ s with lock := lock }.setCpu c u) := by
  have hrun : ∀ {c' q todo}, Function.update s.cpu c u c' = .run q todo →
      s.cpu c' = .run q todo := by
    intro c' q todo hq
    rw [Function.update_apply] at hq
    split at hq
    · exact absurd hq (hu' q todo)
    · exact hq
  refine ⟨h.tree.step (p := initproc) (c := c) (Change.of_eq rfl rfl) le_rfl, ?_⟩
  refine ⟨?_, ?_, ?_, h.threads.parked, ?_, ?_⟩
  · intro l c'
    by_cases hc : c' = c
    · subst hc
      exact hk.locks (fun l => h.threads.locks l c') l
    · rw [hk.locks_other hc, h.threads.locks]
      simp [State.held, hc]
  · intro c₁ c₂ q t₁ t₂ h₁ h₂
    exact h.threads.unique c₁ c₂ q t₁ t₂ (hrun h₁) (hrun h₂)
  · intro c' q todo hq
    exact h.threads.running c' q todo (hrun hq)
  · intro q
    refine (h.threads.active q).imp_right (Or.imp_right ?_)
    rintro ⟨c', todo, hq⟩
    have hc : c' ≠ c := by
      rintro rfl
      exact hu q todo hq
    exact ⟨c', todo, by simpa [hc] using hq⟩
  · intro q
    refine Sound.mono (.of_eq (fun i => ?_) q) (h.threads.sound q)
    rfl

theorem Inv.switch (h : Inv s) {i : Slot} {todo : List Slot} (hc : s.cpu c = .found i todo)
    (hi : (s.proc i).state = .runnable) :
    Inv ((s.setProc i { s.proc i with state := .running }).setCpu c (.run i todo)) := by
  have hlock : s.lock i = some c := by simp [h.threads.locks, State.held, hc]
  have hout : (s.pc i).inSched = false := h.threads.not_inSched hlock (by simp [hc])
  have hparked : (s.pc i).parked := by simpa [hout] using h.threads.parked i (Or.inl hi)
  have hidle : ∀ c' rest, s.cpu c' ≠ .run i rest := by
    intro c' rest hr
    have hs := h.threads.running c' i rest hr
    simp [hi, hout] at hs
  refine ⟨h.tree.step (c := c) (p := initproc) (fun j => ?_) le_rfl, ?_⟩
  · apply Change.at i (fun j hj => by simp [hj])
    apply Change.keep <;> simp [hi, StateChange.switch]
  refine ⟨?_, ?_, ?_, ?_, ?_, ?_⟩
  · intro l c'
    refine (h.threads.locks l c').trans ?_
    by_cases he : c' = c
    · subst he
      simp [State.held, hc, Pc.holds_of_parked hparked]
    · simp [State.held, he]
  · intro c₁ c₂ q t₁ t₂ h₁ h₂
    simp only [State.setCpu_cpu, State.setProc_cpu, Function.update_apply] at h₁ h₂
    split at h₁ <;> split at h₂
    · next e₁ e₂ => exact e₁.trans e₂.symm
    · cases h₁
      exact absurd h₂ (hidle c₂ t₂)
    · cases h₂
      exact absurd h₁ (hidle c₁ t₁)
    · exact h.threads.unique c₁ c₂ q t₁ t₂ h₁ h₂
  · intro c' q rest hq
    by_cases hqi : q = i
    · subst hqi
      exact Or.inl (by simp)
    · simp only [State.setCpu_cpu, State.setProc_cpu, Function.update_apply] at hq
      split at hq
      · cases hq
        exact absurd rfl hqi
      · simpa [hqi] using h.threads.running c' q rest hq
  · intro q hq
    by_cases hqi : q = i
    · subst hqi
      exact Or.inl hparked
    · simp only [State.setCpu_proc, State.setProc_proc, Function.update_of_ne hqi] at hq
      exact h.threads.parked q hq
  · intro q
    refine (h.threads.active q).imp_right (Or.imp_right ?_)
    rintro ⟨c', rest, hq⟩
    have hcc : c' ≠ c := by
      rintro rfl
      simp [hc] at hq
    exact ⟨c', rest, by simpa [hcc] using hq⟩
  · intro q
    refine Sound.mono (.of_eq (fun j => ?_) q) (h.threads.sound q)
    refine State.setProc_parent ?_ j
    rfl

theorem Inv.step (h : Inv s) (hs : Step s c s') : Inv s' := by
  cases hs with
  | rescan hc =>
    refine h.sched (by simp [hc]) (by simp) (.same rfl ?_)
    simp [State.held, hc]
  | @lock i todo hc hl =>
    refine h.sched (by simp [hc]) (by simp) (.acquire i rfl hl ?_)
    simp [State.held, hc]
  | switch hc hi => exact h.switch hc hi
  | @skip i todo hc _ hl | @back i todo hc hl =>
    refine h.sched (by simp [hc]) (by simp) (.release i rfl hl ?_)
    simp [State.held, hc]
  | proc hr hp => exact h.proc hr hp

omit [DecidableEq C] in
theorem Inv.boot : Inv (State.boot C) := by
  have hparent : ∀ i, ((State.boot C).proc i).parent = none := by
    intro i
    by_cases hi : i = initproc <;> simp [State.boot, hi, Proc.free]
  constructor
  · refine ⟨?_, fun i => Nat.one_pos, rfl, fun i _ => hparent i, ?_, ?_⟩
    · simp [hparent]
    · simp [hparent]
    · simp [State.boot]
  · refine ⟨?_, ?_, ?_, ?_, ?_, ?_⟩
    · simp [State.boot, State.held]
    · simp [State.boot]
    · simp [State.boot]
    · intro p hp
      by_cases hi : p = initproc <;> simp_all [State.boot, Proc.free, Pc.parked]
    · intro p
      by_cases hi : p = initproc <;> simp [State.boot, hi, Pc.parked, Pc.holds]
    · intro p
      by_cases hi : p = initproc <;> simp [State.boot, hi, Sound, Pc.interruptible]

end Xv6.Process

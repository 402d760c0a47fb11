import Xv6.Pipe.Fifo

namespace Xv6.Pipe

open Lib Lib.Transition

variable {N : Nat}

def Waits (s : State N) : Chan → Prop
  | .nread => s.ring.isEmpty = true ∧ s.writeopen = true
  | .nwrite => s.ring.isFull = true ∧ s.readopen = true

/-- `q` is asleep on a channel, or about to be: it has its own lock and has given up that of
the pipe. -/
def sleeps (s : State N) (q : Fin N) (chan : Chan) : Bool :=
  s.chan q = some chan ||
    match s.pc q with
    | .sleepSet chan' _ => chan' = chan
    | _ => false

/-- When a writer gives up on a full pipe because it has been killed, no reader is asleep. -/
def readersAwake (s : State N) : Act N → Bool
  | .step p _ =>
    match s.pc p with
    | .write _ (_ :: _) =>
      !(s.ring.isFull && s.killed p) || ∀ q, s.killed q = false → sleeps s q .nread = false
    | _ => true
  | .kill _ => true

def Owes (chan : Chan) (q : Fin N) : Pc N → Prop
  | .write _ _ => chan = .nread
  | .copy _ _ => chan = .nwrite
  | .wake c todo k => c = chan ∧ q ∈ todo ∨ Owes chan q k
  | _ => False

def Tested (s : State N) : Pc N → Prop
  | .sleep chan _ => Waits s chan
  | .wake _ _ k => Tested s k
  | _ => True

def Pc.shutsRead : Pc N → Bool
  | .close false | .acquire (.close false) => true
  | _ => false

structure ReadEnd (s : State N) : Prop where
  unused : s.readRef = false → ∀ q, (s.pc q).uses false = false
  shut : s.readopen = false → s.readRef = false
  closing : ∀ q, (s.pc q).shutsRead → s.readRef = false

structure Awake (s : State N) : Prop where
  locks : Locks s
  readEnd : ReadEnd s
  chan : ∀ q c, s.chan q = some c → ∃ k, s.pc q = .asleep k ∧ k.uses c.writable
  tested : ∀ q, Tested s (s.pc q)
  served : ∀ q c, sleeps s q c → s.killed q = false →
    Waits s c ∨ ∃ p, s.lock = some p ∧ Owes c q (s.pc p)

theorem Waits.congr {s s' : State N} (hr : s'.ring = s.ring) (ho : s'.readopen = s.readopen)
    (hw : s'.writeopen = s.writeopen) {chan : Chan} (h : Waits s chan) : Waits s' chan := by
  cases chan <;> simpa [Waits, hr, ho, hw] using h

theorem Tested.congr {s s' : State N} (hr : s'.ring = s.ring) (ho : s'.readopen = s.readopen)
    (hw : s'.writeopen = s.writeopen) {k : Pc N} (h : Tested s k) : Tested s' k := by
  induction k with
  | sleep => exact Waits.congr hr ho hw h
  | wake chan todo k ih => exact ih h
  | _ => trivial

theorem Tested.of_not_holds {s : State N} {k : Pc N} (h : k.holds = false) : Tested s k := by
  cases k with
  | idle | acquire | sleepSet | asleep => trivial
  | _ => cases h

theorem Tested.of_entry {s : State N} {k : Pc N} (h : k.entry) : Tested s k := by
  cases k with
  | write | read | close => trivial
  | _ => cases h

theorem Owes.visit {chan c : Chan} {q r : Fin N} {todo : List (Fin N)} {k : Pc N}
    (hr : chan = c → q ≠ r) (h : Owes c q (.wake chan (r :: todo) k)) :
    Owes c q (.wake chan todo k) := by
  obtain ⟨rfl, hmem⟩ | h := h
  · exact Or.inl ⟨rfl, (List.mem_cons.mp hmem).resolve_left (hr rfl)⟩
  · exact Or.inr h

variable {s s' : State N} {p : Fin N} {a : Choice}

theorem Tested.self (hl : Locks s) (ht : Tested s (s.pc p)) (hs : Step s p a s') :
    Tested s' (s'.pc p) := by
  have hsound := hl.sound p
  cases hs with
  | fresh h =>
    rw [State.setKilled_pc, h]
    trivial
  | acquire h =>
    rw [h] at hsound
    simpa using Tested.of_entry hsound
  | writeWait h hf ho => simpa [Tested, Waits] using ⟨hf, ho⟩
  | readWait h he ho => simpa [Tested, Waits] using ⟨he, ho⟩
  | wakeEnd h | wake h | wakeOther h =>
    rw [h] at ht
    simp only [State.setPc_pc, Function.update_self]
    refine Tested.congr (s := s) ?_ ?_ ?_ ht <;> rfl
  | _ => simp [Tested]

section ReadEnd

theorem Step.uses_false (hs : Step s p a s') (h : (s'.pc p).uses false) :
    (s.pc p).uses false ∨ s.readRef = true ∧ s'.readRef = true := by
  cases hs with
  | readCall _ _ hr => exact Or.inr ⟨hr, hr⟩
  | fresh => exact Or.inl h
  | acquire hpc | wakeEnd hpc | wake hpc | wakeOther hpc | sleep hpc | sleepSet hpc | woken hpc =>
    exact Or.inl (by simpa [hpc, Pc.uses] using h)
  | readKilled hpc | readWait hpc | readGo hpc | take hpc | readFault hpc | readEnd hpc =>
    exact Or.inl (by simp [hpc, Pc.uses])
  | _ => simp [Pc.uses] at h

theorem Step.shutsRead (hl : Locks s) (hs : Step s p a s') (h : (s'.pc p).shutsRead) :
    (s.pc p).shutsRead ∨ s'.readRef = false := by
  have hsound := hl.sound p
  cases hs with
  | closeRead => exact Or.inr rfl
  | fresh => exact Or.inl h
  | @acquire k hpc =>
    rw [hpc] at hsound ⊢
    have h : k.shutsRead := by simpa using h
    left
    cases k with
    | close writable => cases writable <;> first | rfl | cases h
    | _ => first | cases h | cases hsound
  | @wakeEnd chan k hpc =>
    rw [hpc] at hsound
    have h : k.shutsRead := by simpa using h
    have hk := hsound.1
    cases k <;> first | cases h | cases hk
  | @woken k hpc =>
    rw [hpc] at hsound
    obtain ⟨-, w, hw⟩ := hsound
    have h : (Pc.acquire k).shutsRead := by simpa using h
    cases k <;> first | cases h | cases hw
  | _ => simp [Pc.shutsRead] at h

theorem Step.readRef (hs : Step s p a s') :
    s'.readRef = s.readRef ∨ s'.readRef = false ∧ (∀ q, (s.pc q).uses false = false) ∧
      s'.pc p = .acquire (.close false) := by
  cases hs with
  | closeRead _ _ hu => exact Or.inr ⟨rfl, hu, by simp⟩
  | _ => exact Or.inl rfl

theorem Step.readopen (hs : Step s p a s') :
    s'.readopen = s.readopen ∨ s.pc p = .close false ∧ s'.readRef = s.readRef := by
  cases hs with
  | shutRead h => exact Or.inr ⟨h, rfl⟩
  | _ => exact Or.inl rfl

theorem ReadEnd.step (h : ReadEnd s) (hl : Locks s) (hs : Step s p a s') : ReadEnd s' := by
  have hmono : s.readRef = false → s'.readRef = false := by
    intro hr
    obtain he | ⟨he, -⟩ := hs.readRef
    · exact he.trans hr
    · exact he
  refine ⟨?_, ?_, ?_⟩
  · intro hr q
    have hold : (s.pc q).uses false = false := by
      obtain he | ⟨-, hu, -⟩ := hs.readRef
      · exact h.unused (he ▸ hr) q
      · exact hu q
    by_cases hq : q = p
    · subst hq
      by_contra hu
      obtain hu | ⟨-, hr'⟩ := hs.uses_false (by simpa using hu)
      · simp [hold] at hu
      · simp [hr] at hr'
    · rw [hs.pc_other hq]
      exact hold
  · intro ho
    obtain he | ⟨hpc, he⟩ := hs.readopen
    · exact hmono (h.shut (he ▸ ho))
    · rw [he]
      exact h.closing p (by rw [hpc]; rfl)
  · intro q hq
    by_cases hqp : q = p
    · subst hqp
      obtain hold | hr := hs.shutsRead hl hq
      · exact hmono (h.closing q hold)
      · exact hr
    · rw [hs.pc_other hqp] at hq
      exact hmono (h.closing q hq)

end ReadEnd

theorem Step.chan_of (hs : Step s p a s') {q : Fin N} {c : Chan} (hc : s'.chan q = some c) :
    s.chan q = some c ∨ q = p ∧ ∃ k, s.pc p = .sleepSet c k ∧ s'.pc p = .asleep k := by
  cases hs with
  | @sleepSet chan k h =>
    by_cases hq : q = p
    · subst hq
      obtain rfl : chan = c := by simpa using hc
      exact Or.inr ⟨rfl, k, h, by simp⟩
    · exact Or.inl (by simpa [hq] using hc)
  | @wake chan r =>
    left
    by_cases hq : q = r
    · simp [hq] at hc
    · simpa [hq] using hc
  | _ => exact Or.inl hc

theorem Awake.chan_step (h : Awake s) (hs : Step s p a s') (q : Fin N) (c : Chan)
    (hc : s'.chan q = some c) : ∃ k, s'.pc q = .asleep k ∧ k.uses c.writable := by
  obtain hold | ⟨rfl, k, hpc, hpc'⟩ := hs.chan_of hc
  · obtain ⟨k, hpc, hu⟩ := h.chan q c hold
    by_cases hq : q = p
    · subst hq
      -- A process that is asleep does not move.
      cases hs with
      | woken _ hn => simp [hold] at hn
      | writeCall _ h' | readCall _ h' | closeWrite h' | closeRead h' | fresh h' | acquire h'
      | writeEnd h' | giveUp h' | writeWait h' | writeFault h' | store h' | readKilled h'
      | readWait h' | readGo h' | take h' | readFault h' | readEnd h' | shutWrite h' | shutRead h'
      | wakeEnd h' | wake h' | wakeOther h' | sleep h' | sleepSet h' | ret h' | closed h' =>
        cases h'.symm.trans hpc
    · exact ⟨k, (hs.pc_other hq).trans hpc, hu⟩
  · have hsound := h.locks.sound q
    rw [hpc] at hsound
    exact ⟨k, hpc', hsound.2⟩

theorem sleeps_iff {q : Fin N} {c : Chan} :
    sleeps s q c ↔ s.chan q = some c ∨ ∃ k, s.pc q = .sleepSet c k := by
  unfold sleeps
  cases hpc : s.pc q <;> simp

theorem Step.sleeps_of (hl : Locks s) (hs : Step s p a s') {q : Fin N} {c : Chan}
    (hq : sleeps s' q c) : sleeps s q c ∨ q = p ∧ ∃ k, s.pc p = .sleep c k := by
  have hsound := hl.sound p
  rw [sleeps_iff] at hq ⊢
  obtain hc | ⟨k, hk⟩ := hq
  · obtain hold | ⟨rfl, k, hpc, -⟩ := hs.chan_of hc
    · exact Or.inl (Or.inl hold)
    · exact Or.inl (Or.inr ⟨k, hpc⟩)
  · by_cases hqp : q = p
    · subst hqp
      cases hs with
      | fresh => exact Or.inl (Or.inr ⟨k, hk⟩)
      | sleep h =>
        obtain ⟨rfl, rfl⟩ : _ = c ∧ _ = k := by simpa using hk
        exact Or.inr ⟨rfl, _, h⟩
      | acquire h =>
        rw [h] at hsound
        obtain rfl : _ = Pc.sleepSet c k := by simpa using hk
        cases hsound
      | wakeEnd h =>
        rw [h] at hsound
        obtain rfl : _ = Pc.sleepSet c k := by simpa using hk
        cases hsound.1
      | _ => simp at hk
    · exact Or.inl (Or.inr ⟨k, (hs.pc_other hqp).symm.trans hk⟩)

theorem Step.killed (hs : Step s p a s') (q : Fin N) :
    s'.killed q = s.killed q ∨ q = p ∧ s.pc p = .idle := by
  cases hs with
  | fresh h =>
    by_cases hq : q = p
    · exact Or.inr ⟨hq, h⟩
    · exact Or.inl (by simp [hq])
  | _ => exact Or.inl rfl

theorem Owes.holds {chan : Chan} {q : Fin N} {k : Pc N} (h : Owes chan q k) : k.holds := by
  cases k with
  | write | copy | wake => rfl
  | _ => cases h

theorem Awake.serve (h : Awake s) (hok : readersAwake s (.step p a)) (hs : Step s p a s')
    {q : Fin N} {c : Chan} (hq : sleeps s q c) (hq' : sleeps s' q c) (hk : s.killed q = false)
    (hold : Waits s c ∨ Owes c q (s.pc p)) : Waits s' c ∨ Owes c q (s'.pc p) := by
  have hsound := h.locks.sound p
  cases hs with
  | writeCall _ hpc | readCall _ hpc | closeWrite hpc | closeRead hpc | fresh hpc | acquire hpc
  | readKilled hpc | readWait hpc | readGo hpc | sleep hpc | sleepSet hpc | woken hpc | ret hpc
  | closed hpc =>
    -- The process owes nothing here.
    rw [hpc] at hold
    left
    refine Waits.congr (s := s) ?_ ?_ ?_ (hold.resolve_right not_false) <;> rfl
  | writeEnd hpc | writeWait hpc | writeFault hpc =>
    rw [hpc] at hold
    cases c with
    | nread => exact Or.inr (by simp [Owes, procs])
    | nwrite =>
      have hw : Waits s .nwrite := hold.resolve_right (by simp [Owes])
      exact Or.inl hw
  | giveUp hpc hf hx =>
    rw [hpc] at hold
    cases c with
    | nwrite =>
      have hw : Waits s .nwrite := hold.resolve_right (by simp [Owes])
      exact Or.inl hw
    | nread =>
      obtain ho | hkilled := hx
      · -- No reader is left to sleep.
        have hnone := h.readEnd.unused (h.readEnd.shut ho) q
        obtain hc | ⟨k, hc⟩ := sleeps_iff.mp hq
        · obtain ⟨k, hpc', hu⟩ := h.chan q _ hc
          simp [hpc', Pc.uses, Chan.writable] at hnone hu
          simp [hnone] at hu
        · have hs := h.locks.sound q
          rw [hc] at hs hnone
          simp [Pc.Sound, Pc.uses, Chan.writable] at hs hnone
          simp [hnone] at hs
      · have hawake : ∀ q, s.killed q = false → sleeps s q .nread = false := by
          simpa [readersAwake, hpc, hf, hkilled] using hok
        simp [hawake q hk] at hq
  | store hpc hf =>
    rw [hpc] at hold
    cases c with
    | nread => exact Or.inr (by simp [Owes])
    | nwrite =>
      have hw : Waits s .nwrite := hold.resolve_right (by simp [Owes])
      exact absurd hw.1 (by simp [hf])
  | take hpc _ he =>
    rw [hpc] at hold
    cases c with
    | nread =>
      have hw : Waits s .nread := hold.resolve_right (by simp [Owes])
      exact absurd hw.1 (by simp [he])
    | nwrite => exact Or.inr (by simp [Owes])
  | readFault hpc _ he =>
    rw [hpc] at hold
    cases c with
    | nread =>
      have hw : Waits s .nread := hold.resolve_right (by simp [Owes])
      exact absurd hw.1 (by simp [he])
    | nwrite => exact Or.inr (by simp [Owes, procs])
  | readEnd hpc =>
    rw [hpc] at hold
    cases c with
    | nread =>
      have hw : Waits s .nread := hold.resolve_right (by simp [Owes])
      exact Or.inl hw
    | nwrite => exact Or.inr (by simp [Owes, procs])
  | shutWrite hpc =>
    rw [hpc] at hold
    cases c with
    | nread => exact Or.inr (by simp [Owes, procs])
    | nwrite => exact Or.inl (hold.resolve_right not_false)
  | shutRead hpc =>
    rw [hpc] at hold
    cases c with
    | nread => exact Or.inl (hold.resolve_right not_false)
    | nwrite => exact Or.inr (by simp [Owes, procs])
  | wakeEnd hpc =>
    rw [hpc] at hold
    simp only [Owes, List.not_mem_nil, and_false, false_or] at hold
    simp only [State.setPc_pc, Function.update_self]
    refine hold.imp_left (Waits.congr (s := s) ?_ ?_ ?_) <;> rfl
  | @wake chan r todo k hpc hl hc =>
    rw [hpc] at hold
    have hr : chan = c → q ≠ r := by
      rintro rfl rfl
      have hqp : q ≠ p := by
        rintro rfl
        obtain ⟨k', hk', -⟩ := h.chan q _ hc
        cases hpc.symm.trans hk'
      obtain hc' | ⟨k', hk'⟩ := sleeps_iff.mp hq'
      · simp at hc'
      · have hk : s.pc q = .sleepSet chan k' := by simpa [hqp] using hk'
        simp [hk, Pc.locked] at hl
    simp only [State.setPc_pc, Function.update_self]
    refine hold.imp (Waits.congr (s := s) ?_ ?_ ?_) (Owes.visit hr) <;> rfl
  | @wakeOther chan r todo k hpc hl hc =>
    rw [hpc] at hold
    have hr : chan = c → q ≠ r := by
      rintro rfl rfl
      obtain hc' | ⟨k', hk'⟩ := sleeps_iff.mp hq
      · exact hc hc'
      · simp [hk', Pc.locked] at hl
    simp only [State.setPc_pc, Function.update_self]
    refine hold.imp (Waits.congr (s := s) ?_ ?_ ?_) (Owes.visit hr) <;> rfl

theorem Awake.served_step (h : Awake s) (hok : readersAwake s (.step p a)) (hs : Step s p a s')
    (q : Fin N) (c : Chan) (hq' : sleeps s' q c) (hk : s'.killed q = false) :
    Waits s' c ∨ ∃ r, s'.lock = some r ∧ Owes c q (s'.pc r) := by
  have hlocks := h.locks.step hs
  obtain hq | ⟨rfl, k, hpc⟩ := hs.sleeps_of h.locks hq'
  · have hk₀ : s.killed q = false := by
      obtain he | ⟨rfl, hpc⟩ := hs.killed q
      · exact he ▸ hk
      · -- A process outside `pipe.c` does not sleep.
        obtain hc | ⟨k, hk⟩ := sleeps_iff.mp hq
        · obtain ⟨k, hk, -⟩ := h.chan q c hc
          cases hpc.symm.trans hk
        · cases hpc.symm.trans hk
    by_cases hother : ∃ r, r ≠ p ∧ s.lock = some r ∧ Owes c q (s.pc r)
    · obtain ⟨r, hr, hl, ho⟩ := hother
      exact Or.inr ⟨r, (hs.lock_other hr).mpr hl, hs.pc_other hr ▸ ho⟩
    · have hold : Waits s c ∨ Owes c q (s.pc p) := by
        refine (h.served q c hq hk₀).imp_right ?_
        rintro ⟨r, hl, ho⟩
        by_cases hr : r = p
        · exact hr ▸ ho
        · exact absurd ⟨r, hr, hl, ho⟩ hother
      refine (h.serve hok hs hq hq' hk₀ hold).imp_right fun ho => ⟨p, ?_, ho⟩
      exact (hlocks.lock p).mpr ho.holds
  · have ht := h.tested q
    rw [hpc] at ht
    left
    cases hs with
    | sleep => exact Waits.congr (s := s) rfl rfl rfl ht
    | writeCall _ h' | readCall _ h' | closeWrite h' | closeRead h' | fresh h' | acquire h'
    | writeEnd h' | giveUp h' | writeWait h' | writeFault h' | store h' | readKilled h'
    | readWait h' | readGo h' | take h' | readFault h' | readEnd h' | shutWrite h' | shutRead h'
    | wakeEnd h' | wake h' | wakeOther h' | sleepSet h' | woken h' | ret h' | closed h' =>
      cases h'.symm.trans hpc

theorem Awake.step (h : Awake s) (hok : readersAwake s (.step p a)) (hs : Step s p a s') :
    Awake s' where
  locks := h.locks.step hs
  readEnd := h.readEnd.step h.locks hs
  chan := h.chan_step hs
  tested :=
    h.locks.keep hs (fun _ => .of_not_holds) (fun hr ho hw _ => .congr hr ho hw) h.tested
      (.self h.locks (h.tested p) hs)
  served := h.served_step hok hs

theorem Awake.kill (h : Awake s) (r : Fin N) :
    Awake ((s.setKilled r true).setChan r none) where
  locks := h.locks.kill r
  readEnd := ⟨h.readEnd.unused, h.readEnd.shut, h.readEnd.closing⟩
  chan q c hc := by
    by_cases hq : q = r
    · simp [hq] at hc
    · exact h.chan q c (by simpa [hq] using hc)
  tested q := by refine Tested.congr (s := s) ?_ ?_ ?_ (h.tested q) <;> rfl
  served q c hq hk := by
    have hqr : q ≠ r := by
      rintro rfl
      simp at hk
    refine (h.served q c ?_ (by simpa [hqr] using hk)).imp_left (Waits.congr (s := s) ?_ ?_ ?_)
    · rw [sleeps_iff] at hq ⊢
      simpa [hqr] using hq
    · rfl
    · rfl
    · rfl

theorem Awake.alloc (cell : Fin PIPESIZE → UInt8) : Awake (State.alloc N cell) where
  locks := .alloc cell
  readEnd := ⟨by simp [State.alloc], by simp [State.alloc], by simp [State.alloc, Pc.shutsRead]⟩
  chan := by simp [State.alloc]
  tested q := trivial
  served q c hq := by simp [sleeps_iff, State.alloc] at hq

theorem Awake.of_reachable (h : Reachable (machine N) (readersAwake · ·) s) : Awake s := by
  refine h.invariant ?_ ?_
  · rintro _ ⟨cell, rfl⟩
    exact .alloc cell
  · intro s a s' hi hok hn
    obtain ⟨p, c, rfl, hs⟩ | ⟨p, -, rfl⟩ := step_of_next hn
    · exact hi.step hok hs
    · exact hi.kill p

/-- As long as no killed writer gives up on a full pipe with a reader asleep: with `pi->lock`
free, a reader that sleeps and has not been killed has an empty pipe and a writer to wait for,
and a sleeping writer a full pipe and a reader. -/
theorem no_lost_wakeup (h : Reachable (machine N) (readersAwake · ·) s) (hl : s.lock = none)
    (q : Fin N) (hk : s.killed q = false) :
    (s.chan q = some .nread → s.ring.isEmpty = true ∧ s.writeopen = true) ∧
      (s.chan q = some .nwrite → s.ring.isFull = true ∧ s.readopen = true) := by
  have hi := Awake.of_reachable h
  have hwaits : ∀ c, s.chan q = some c → Waits s c := by
    intro c hc
    refine (hi.served q c (sleeps_iff.mpr (Or.inl hc)) hk).resolve_right ?_
    rintro ⟨r, hr, -⟩
    simp [hl] at hr
  exact ⟨hwaits .nread, hwaits .nwrite⟩

def killedWriter : Acts :=
  [.step 1 (.read 1)] ++ go 1 4 ++ [.step 0 (.write (List.replicate 513 7))] ++ go 0 1 ++
    [.kill 0] ++ go 0 514

theorem lost_wakeup_killedWriter :
    ∃ s, Reachable (machine 2) anyStep s ∧ s.lock = none ∧ s.killed 1 = false ∧
      s.chan 1 = some .nread ∧ s.ring.isFull = true := by
  have h : (finish (fun _ _ => true) killedWriter).any fun s =>
      s.lock = none ∧ s.killed 1 = false ∧ s.chan 1 = some .nread ∧ s.ring.isFull = true := by
    decide +kernel
  obtain ⟨s, hr, hlost⟩ := Reachable.of_perform (P := anyStep) h ⟨_, rfl⟩ fun _ _ _ => trivial
  exact ⟨s, hr, of_decide_eq_true hlost⟩

/-- Process 1 sleeps in `piperead`, with nothing written yet. -/
theorem no_lost_wakeup_reader :
    ∃ s, Reachable (machine 2) (readersAwake · ·) s ∧ s.chan 1 = some .nread ∧
      s.ring.isEmpty = true := by
  have h : (finish readersAwake ([.step 1 (.read 1)] ++ go 1 4)).any fun s =>
      s.lock = none ∧ s.killed 1 = false ∧ s.chan 1 = some .nread := by decide +kernel
  obtain ⟨s, hr, hasleep⟩ := Reachable.of_perform h ⟨_, rfl⟩ fun _ _ => id
  obtain ⟨hl, hk, hc⟩ := of_decide_eq_true hasleep
  exact ⟨s, hr, hc, ((no_lost_wakeup hr hl 1 hk).1 hc).1⟩

end Xv6.Pipe

import Xv6.Pipe.Machine

namespace Xv6.Pipe

open Lib Lib.Transition

variable {N : Nat}

/-- What the steps of process `p` with choice `a` do. -/
inductive Step (s : State N) (p : Fin N) (a : Choice) : State N → Prop where
  | writeCall (buf : List UInt8) (h : s.pc p = .idle) (hr : s.writeRef = true) (ha : a = .write buf) :
      Step s p a (s.setPc p (.acquire (.write 0 buf)))
  | readCall (n : Nat) (h : s.pc p = .idle) (hr : s.readRef = true) (ha : a = .read n) :
      Step s p a (s.setPc p (.acquire (.read n)))
  | closeWrite (h : s.pc p = .idle) (hr : s.writeRef = true)
      (hu : ∀ q, (s.pc q).uses true = false) :
      Step s p a ({ s with writeRef := false }.setPc p (.acquire (.close true)))
  | closeRead (h : s.pc p = .idle) (hr : s.readRef = true)
      (hu : ∀ q, (s.pc q).uses false = false) :
      Step s p a ({ s with readRef := false }.setPc p (.acquire (.close false)))
  | fresh (h : s.pc p = .idle) : Step s p a (s.setKilled p false)
  | acquire {k : Pc N} (h : s.pc p = .acquire k) (hl : s.lock = none) :
      Step s p a ((s.setLock (some p)).setPc p k)
  | writeEnd {i : Nat} (h : s.pc p = .write i []) :
      Step s p a (s.setPc p (.wake .nread procs (.ret true i i)))
  | giveUp {i : Nat} {ch : UInt8} {buf : List UInt8} (h : s.pc p = .write i (ch :: buf))
      (hf : s.ring.isFull = true) (hx : s.readopen = false ∨ s.killed p = true) :
      Step s p a (s.setPc p (.ret true (i + (ch :: buf).length) (-1)))
  | writeWait {i : Nat} {ch : UInt8} {buf : List UInt8} (h : s.pc p = .write i (ch :: buf))
      (hf : s.ring.isFull = true) (ho : s.readopen = true) (hk : s.killed p = false) :
      Step s p a (s.setPc p (.wake .nread procs (.sleep .nwrite (.write i (ch :: buf)))))
  | writeFault {i : Nat} {ch : UInt8} {buf : List UInt8} (h : s.pc p = .write i (ch :: buf))
      (hf : s.ring.isFull = false) (ha : a = .badAddr) :
      Step s p a (s.setPc p (.wake .nread procs (.ret true (i + (ch :: buf).length) i)))
  | store {i : Nat} {ch : UInt8} {buf : List UInt8} (h : s.pc p = .write i (ch :: buf))
      (hf : s.ring.isFull = false) :
      Step s p a ({ s with ring := s.ring.push ch, accepted := s.accepted ++ [ch] }.setPc p
        (.write (i + 1) buf))
  | readKilled {n : Nat} (h : s.pc p = .read n) (he : s.ring.isEmpty = true)
      (ho : s.writeopen = true) (hk : s.killed p = true) :
      Step s p a (s.setPc p (.ret false n (-1)))
  | readWait {n : Nat} (h : s.pc p = .read n) (he : s.ring.isEmpty = true)
      (ho : s.writeopen = true) (hk : s.killed p = false) :
      Step s p a (s.setPc p (.sleep .nread (.read n)))
  | readGo {n : Nat} (h : s.pc p = .read n)
      (hn : ¬ (s.ring.isEmpty = true ∧ s.writeopen = true)) : Step s p a (s.setPc p (.copy 0 n))
  | take {i n : Nat} (h : s.pc p = .copy i n) (hi : i < n) (he : s.ring.isEmpty = false) :
      Step s p a ({ s with ring := s.ring.pop, delivered := s.delivered ++ [s.ring.front] }.setPc p
        (.copy (i + 1) n))
  | readFault {i n : Nat} (h : s.pc p = .copy i n) (hi : i < n) (he : s.ring.isEmpty = false)
      (ha : a = .badAddr) :
      Step s p a ({ s with ring := s.ring.pop }.setPc p (.wake .nwrite procs (.ret false n i)))
  | readEnd {i n : Nat} (h : s.pc p = .copy i n) (hn : i < n → s.ring.isEmpty = true) :
      Step s p a (s.setPc p (.wake .nwrite procs (.ret false n i)))
  | shutWrite (h : s.pc p = .close true) :
      Step s p a ({ s with writeopen := false }.setPc p (.wake .nread procs .closed))
  | shutRead (h : s.pc p = .close false) :
      Step s p a ({ s with readopen := false }.setPc p (.wake .nwrite procs .closed))
  | wakeEnd {chan : Chan} {k : Pc N} (h : s.pc p = .wake chan [] k) : Step s p a (s.setPc p k)
  | wake {chan : Chan} {q : Fin N} {todo : List (Fin N)} {k : Pc N}
      (h : s.pc p = .wake chan (q :: todo) k) (hq : (s.pc q).locked = false)
      (hc : s.chan q = some chan) :
      Step s p a ((s.setChan q none).setPc p (.wake chan todo k))
  | wakeOther {chan : Chan} {q : Fin N} {todo : List (Fin N)} {k : Pc N}
      (h : s.pc p = .wake chan (q :: todo) k) (hq : (s.pc q).locked = false)
      (hc : s.chan q ≠ some chan) : Step s p a (s.setPc p (.wake chan todo k))
  | sleep {chan : Chan} {k : Pc N} (h : s.pc p = .sleep chan k) (hl : s.lock = some p) :
      Step s p a ((s.setPc p (.sleepSet chan k)).setLock none)
  | sleepSet {chan : Chan} {k : Pc N} (h : s.pc p = .sleepSet chan k) :
      Step s p a ((s.setChan p (some chan)).setPc p (.asleep k))
  | woken {k : Pc N} (h : s.pc p = .asleep k) (hc : s.chan p = none) :
      Step s p a (s.setPc p (.acquire k))
  | ret {writable : Bool} {n : Nat} {r : Int} (h : s.pc p = .ret writable n r)
      (hl : s.lock = some p) : Step s p a ((s.setPc p .idle).setLock none)
  | closed (h : s.pc p = .closed) (hl : s.lock = some p) :
      Step s p a (({ s with freed := !s.readopen && !s.writeopen }.setPc p .idle).setLock none)

section Inversion

variable {s s' : State N} {p : Fin N} {a : Choice}

theorem release_done (h : release s p = .done s') : s.lock = some p ∧ s' = s.setLock none := by
  simp only [release] at h
  split at h <;> cases h
  next hl => exact ⟨hl, rfl⟩

theorem step_of_call (hp : s.pc p = .idle) (h : call s p a = .done s') : Step s p a s' := by
  cases a with
  | write buf =>
    simp only [call] at h
    split at h <;> cases h
    next hr => exact .writeCall buf hp hr rfl
  | read n =>
    simp only [call] at h
    split at h <;> cases h
    next hr => exact .readCall n hp hr rfl
  | close writable =>
    cases writable with
    | true =>
      simp only [call] at h
      split at h <;> cases h
      next hr => exact .closeWrite hp hr.1 hr.2
    | false =>
      simp only [call] at h
      split at h <;> cases h
      next hr => exact .closeRead hp hr.1 hr.2
  | fresh =>
    cases h
    exact .fresh hp
  | go | badAddr => cases h

theorem step_pipewrite {i : Nat} {buf : List UInt8} (hp : s.pc p = .write i buf) :
    Step s p a (pipewrite s p a i buf) := by
  cases buf with
  | nil => exact .writeEnd hp
  | cons ch buf =>
    simp only [pipewrite]
    split
    · next hf =>
      split
      · next hx => exact .giveUp hp hf (by simpa using hx)
      · next hx =>
        have hx : s.readopen = true ∧ s.killed p = false := by simpa using hx
        exact .writeWait hp hf hx.1 hx.2
    · next hf =>
      split
      · exact .writeFault hp (by simpa using hf) rfl
      · exact .store hp (by simpa using hf)

theorem step_piperead {n : Nat} (hp : s.pc p = .read n) : Step s p a (piperead s p n) := by
  simp only [piperead]
  split
  · next hw =>
    have hw : s.ring.isEmpty = true ∧ s.writeopen = true := by simpa using hw
    split
    · next hk => exact .readKilled hp hw.1 hw.2 hk
    · next hk => exact .readWait hp hw.1 hw.2 (by simpa using hk)
  · next hw => exact .readGo hp (by simpa using hw)

theorem step_copy {i n : Nat} (hp : s.pc p = .copy i n) : Step s p a (copy s p a i n) := by
  simp only [copy]
  split
  · next hi =>
    split
    · exact .readFault hp hi.1 hi.2 rfl
    · exact .take hp hi.1 hi.2
  · next hi => exact .readEnd hp fun hlt => by simpa [hlt] using hi

theorem step_of_done {k : Pc N} (hp : s.pc p = k) (h : step s p a k = .done s') :
    Step s p a s' := by
  cases k with
  | idle => exact step_of_call hp h
  | acquire k =>
    simp only [step] at h
    split at h
    · next hl =>
      cases h
      exact .acquire hp hl
    · split at h <;> cases h
  | write i buf =>
    cases h
    exact step_pipewrite hp
  | read n =>
    cases h
    exact step_piperead hp
  | copy i n =>
    cases h
    exact step_copy hp
  | close writable =>
    cases h
    cases writable with
    | true => exact .shutWrite hp
    | false => exact .shutRead hp
  | wake chan todo k =>
    cases todo with
    | nil =>
      cases h
      exact .wakeEnd hp
    | cons q todo =>
      simp only [step] at h
      split at h
      · cases h
      · next hq =>
        cases h
        have hq : (s.pc q).locked = false := by simpa using hq
        split
        · next hc => exact .wake hp hq hc
        · next hc => exact .wakeOther hp hq hc
  | sleep chan k =>
    obtain ⟨hl, rfl⟩ := release_done h
    exact .sleep hp hl
  | sleepSet chan k =>
    cases h
    exact .sleepSet hp
  | asleep k =>
    simp only [step] at h
    split at h <;> cases h
    next hc => exact .woken hp hc
  | ret writable n r =>
    obtain ⟨hl, rfl⟩ := release_done h
    exact .ret hp hl
  | closed =>
    obtain ⟨hl, rfl⟩ := release_done h
    exact .closed hp hl

theorem step_of_next {a : Act N} (h : next s a = .done s') :
    (∃ p c, a = .step p c ∧ Step s p c s') ∨
      ∃ p, (s.pc p).locked = false ∧ s' = (s.setKilled p true).setChan p none := by
  cases a with
  | step p c => exact Or.inl ⟨p, c, rfl, step_of_done rfl h⟩
  | kill p =>
    simp only [next] at h
    split at h <;> cases h
    next hl => exact Or.inr ⟨p, by simpa using hl, rfl⟩

end Inversion

/-- The process holds `pi->lock`. -/
def Pc.holds : Pc N → Bool
  | .write _ _ | .read _ | .copy _ _ | .close _ | .wake _ _ _ | .sleep _ _ | .ret _ _ _ | .closed =>
    true
  | .idle | .acquire _ | .sleepSet _ _ | .asleep _ => false

/-- Where a process goes on with `pi->lock` just taken. -/
def Pc.entry : Pc N → Bool
  | .write _ _ | .read _ | .close _ => true
  | _ => false

def Pc.final : Pc N → Bool
  | .ret _ _ _ | .closed | .sleep _ _ => true
  | _ => false

/-- Writers sleep on `&pi->nwrite` and readers on `&pi->nread`. -/
def Chan.writable : Chan → Bool
  | .nread => false
  | .nwrite => true

def Pc.Sound : Pc N → Prop
  | .acquire k => k.entry
  | .asleep k => k.entry ∧ ∃ writable, k.uses writable
  | .sleep chan k | .sleepSet chan k => k.entry ∧ k.uses chan.writable
  | .wake _ _ k => k.final ∧ k.Sound
  | _ => True

theorem Pc.holds_of_entry {k : Pc N} (h : k.entry) : k.holds ∧ k.Sound := by
  cases k with
  | write | read | close => exact ⟨rfl, trivial⟩
  | _ => cases h

theorem Pc.holds_of_final {k : Pc N} (h : k.final) : k.holds := by
  cases k with
  | ret | closed | sleep => rfl
  | _ => cases h

structure Locks (s : State N) : Prop where
  lock : ∀ p, s.lock = some p ↔ (s.pc p).holds
  sound : ∀ p, (s.pc p).Sound

variable {s s' : State N} {p : Fin N} {a : Choice}

theorem Step.pc_other (h : Step s p a s') {q : Fin N} (hq : q ≠ p) : s'.pc q = s.pc q := by
  cases h <;> simp [hq]

theorem Step.sound_self (h : Step s p a s') (hs : (s.pc p).Sound) : (s'.pc p).Sound := by
  cases h with
  | fresh => exact hs
  | acquire h =>
    rw [h] at hs
    simpa using (Pc.holds_of_entry hs).2
  | wakeEnd h =>
    rw [h] at hs
    simpa using hs.2
  | sleepSet h =>
    rw [h] at hs
    simp only [State.setPc_pc, Function.update_self]
    exact ⟨hs.1, _, hs.2⟩
  | woken h =>
    rw [h] at hs
    simpa [Pc.Sound] using hs.1
  | wake h | wakeOther h | sleep h =>
    rw [h] at hs
    simpa [Pc.Sound] using hs
  | _ => simp [Pc.Sound, Pc.final, Pc.entry, Pc.uses, Chan.writable]

theorem Step.lock_self (h : Step s p a s') (hl : s.lock = some p ↔ (s.pc p).holds)
    (hs : (s.pc p).Sound) : s'.lock = some p ↔ (s'.pc p).holds := by
  cases h with
  | fresh => exact hl
  | acquire h =>
    rw [h] at hs
    simpa using (Pc.holds_of_entry hs).1
  | wakeEnd h =>
    rw [h] at hs hl
    simp only [State.setPc_lock, State.setPc_pc, Function.update_self, Pc.holds_of_final hs.1]
    simpa [Pc.holds] using hl
  | writeCall _ h | readCall _ h | closeWrite h | closeRead h | writeEnd h | giveUp h | writeWait h
  | writeFault h | store h | readKilled h | readWait h | readGo h | take h | readFault h
  | readEnd h | shutWrite h | shutRead h | wake h | wakeOther h | sleep h | sleepSet h | woken h
  | ret h | closed h => simp_all [Pc.holds]

theorem Step.lock_other (h : Step s p a s') {q : Fin N} (hq : q ≠ p) :
    s'.lock = some q ↔ s.lock = some q := by
  cases h with
  | acquire _ hl | sleep _ hl | ret _ hl | closed _ hl => simp [hl, hq.symm]
  | _ => rfl

theorem Locks.step (h : Locks s) (hs : Step s p a s') : Locks s' where
  lock q := by
    by_cases hq : q = p
    · subst hq
      exact hs.lock_self (h.lock q) (h.sound q)
    · rw [hs.lock_other hq, hs.pc_other hq]
      exact h.lock q
  sound q := by
    by_cases hq : q = p
    · subst hq
      exact hs.sound_self (h.sound q)
    · rw [hs.pc_other hq]
      exact h.sound q

theorem Locks.alloc (cell : Fin PIPESIZE → UInt8) : Locks (State.alloc N cell) :=
  ⟨fun p => by simp [State.alloc, Pc.holds], fun p => trivial⟩

theorem Locks.unique (h : Locks s) {q : Fin N} (hp : (s.pc p).holds) (hq : (s.pc q).holds) :
    p = q := by
  have hp := (h.lock p).mpr hp
  have hq := (h.lock q).mpr hq
  exact Option.some.inj (hp.symm.trans hq)

theorem Step.frame (h : Step s p a s') (hn : (s.pc p).holds = false) :
    s'.ring = s.ring ∧ s'.readopen = s.readopen ∧ s'.writeopen = s.writeopen := by
  cases h with
  | store h | take h | readFault h | shutWrite h | shutRead h => simp [h, Pc.holds] at hn
  | _ => exact ⟨rfl, rfl, rfl⟩

theorem Locks.keep {F : State N → Pc N → Prop} (h : Locks s) (hs : Step s p a s')
    (hfree : ∀ k, k.holds = false → F s' k)
    (hcongr : s'.ring = s.ring → s'.readopen = s.readopen → s'.writeopen = s.writeopen →
      ∀ k, F s k → F s' k)
    (hold : ∀ q, F s (s.pc q)) (hself : F s' (s'.pc p)) (q : Fin N) : F s' (s'.pc q) := by
  by_cases hq : q = p
  · exact hq ▸ hself
  · rw [hs.pc_other hq]
    cases hh : (s.pc q).holds with
    | false => exact hfree _ hh
    | true =>
      have hp : (s.pc p).holds = false := by
        by_contra hp
        exact hq (h.unique hh (by simpa using hp))
      obtain ⟨hring, hread, hwrite⟩ := hs.frame hp
      exact hcongr hring hread hwrite _ (hold q)

theorem Locks.kill (h : Locks s) (q : Fin N) : Locks ((s.setKilled q true).setChan q none) :=
  ⟨h.lock, h.sound⟩

end Xv6.Pipe

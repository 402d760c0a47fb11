import Xv6.Lib.Circular
import Xv6.Lib.Holder
import Xv6.Lib.Transition

namespace Xv6.Console

open Lib Lib.Transition Lib.Holder

def UART_TX_BUF_SIZE : Nat := 32

instance : NeZero UART_TX_BUF_SIZE := ⟨by decide⟩

/-- Where a thread is in `consolewrite`, `uartputc`, `uartstart` or `uartintr`. A writer
has put `i` bytes into the ring, has `c` in hand and `src` left to copy. -/
inductive Pc where
  | idle
  /-- Spinning in `acquire(&cons.lock)`. -/
  | enter (src : List UInt8)
  /-- At the head of the loop of `consolewrite`. -/
  | copy (i : Nat) (src : List UInt8)
  /-- In `uartputc(c)`, spinning in `acquire(&uart_tx_lock)`. -/
  | putc (i : Nat) (c : UInt8) (src : List UInt8)
  /-- At the head of the loop of `uartputc`. -/
  | room (i : Nat) (c : UInt8) (src : List UInt8)
  /-- In `sleep(&uart_tx_r, &uart_tx_lock)`, before `acquire(&p->lock)`. -/
  | sleep (i : Nat) (c : UInt8) (src : List UInt8)
  /-- In `sched()`, with `p->lock` in place of `uart_tx_lock`. -/
  | sched (i : Nat) (c : UInt8) (src : List UInt8)
  /-- Switched away from in `sched()`. -/
  | asleep (i : Nat) (c : UInt8) (src : List UInt8)
  /-- At the head of the loop of `uartstart`, called by a writer or, with `none`, by
  `uartintr`. -/
  | start (writer : Option (Nat × List UInt8))
  /-- Back from `uartstart`, before `release(&uart_tx_lock)`. -/
  | started (writer : Option (Nat × List UInt8))
  /-- In `uartintr`, spinning in `acquire(&uart_tx_lock)`. -/
  | intr
  /-- At the end of `consolewrite`, before `release(&cons.lock)`. -/
  | leave (i : Nat)
  deriving DecidableEq

variable {N : Nat}

/-- The transmit side of the console and the threads that use it. `noff p` is the number of
spinlocks held on the CPU that runs `p`. The last three fields are not in the source: the
bytes copied in by writers, put into the ring and written to THR so far. -/
structure State (N : Nat) where
  ring : Circular UInt8 UART_TX_BUF_SIZE
  consLock : Option (Fin N)
  uartLock : Option (Fin N)
  noff : Fin N → Nat
  pc : Fin N → Pc
  taken : List UInt8
  put : List UInt8
  thr : List UInt8

inductive Panic where
  | schedLocks
  deriving DecidableEq

inductive Choice where
  | write (src : List UInt8)
  | intr
  | go
  /-- `either_copyin` fails, or `LSR_TX_IDLE` is not set. -/
  | fail
  deriving DecidableEq

structure Act (N : Nat) where
  thread : Fin N
  choice : Choice

namespace State

@[simps] def setPc (s : State N) (p : Fin N) (k : Pc) : State N :=
  { s with pc := Function.update s.pc p k }

@[simps] def setCons (s : State N) (o : Option (Fin N)) : State N := { s with consLock := o }

@[simps] def setUart (s : State N) (o : Option (Fin N)) : State N := { s with uartLock := o }

@[simps] def setNoff (s : State N) (p : Fin N) (n : Nat) : State N :=
  { s with noff := Function.update s.noff p n }

/-- `wakeup(&uart_tx_r)`. -/
@[simps] def wakeup (s : State N) : State N :=
  { s with
    pc := fun q =>
      match s.pc q with
      | .asleep i c src => .putc i c src
      | k => k }

end State

def next (s : State N) (a : Act N) : Outcome (State N) Panic :=
  let p := a.thread
  match s.pc p with
  | .idle =>
    match a.choice with
    | .write src => .done (s.setPc p (.enter src))
    | .intr => .done (s.setPc p .intr)
    | _ => .blocked
  | .enter src =>
    if s.consLock = none then
      .done (((s.setCons (some p)).setNoff p (s.noff p + 1)).setPc p (.copy 0 src))
    else .blocked
  | .copy i [] => .done (s.setPc p (.leave i))
  | .copy i (c :: src) =>
    match a.choice with
    | .fail => .done (s.setPc p (.leave i))
    | _ => .done ({ s with taken := s.taken ++ [c] }.setPc p (.putc i c src))
  | .putc i c src =>
    if s.uartLock = none then
      .done (((s.setUart (some p)).setNoff p (s.noff p + 1)).setPc p (.room i c src))
    else .blocked
  | .room i c src =>
    if s.ring.isFull then .done (s.setPc p (.sleep i c src))
    else
      .done ({ s with ring := s.ring.put c, put := s.put ++ [c] }.setPc p (.start (some (i, src))))
  | .sleep i c src =>
    -- `acquire(&p->lock); release(&uart_tx_lock)`: one lock more, one less
    .done ((s.setUart none).setPc p (.sched i c src))
  | .sched i c src =>
    if s.noff p ≠ 1 then .panic .schedLocks
    else .done ((s.setNoff p 0).setPc p (.asleep i c src))
  | .asleep _ _ _ => .blocked
  | .start w =>
    if s.ring.isEmpty then .done (s.setPc p (.started w))
    else
      match a.choice with
      | .fail => .done (s.setPc p (.started w))
      | _ => .done { s.wakeup with ring := s.ring.take, thr := s.thr ++ [s.ring.front] }
  | .started w =>
    let s := (s.setUart none).setNoff p (s.noff p - 1)
    match w with
    | some (i, src) => .done (s.setPc p (.copy (i + 1) src))
    | none => .done (s.setPc p .idle)
  | .intr =>
    if s.uartLock = none then
      .done (((s.setUart (some p)).setNoff p (s.noff p + 1)).setPc p (.start none))
    else .blocked
  | .leave _ => .done (((s.setCons none).setNoff p (s.noff p - 1)).setPc p .idle)

def State.boot (N : Nat) : State N where
  ring := ⟨fun _ => 0, 0, 0⟩
  consLock := none
  uartLock := none
  noff _ := 0
  pc _ := .idle
  taken := []
  put := []
  thr := []

def machine (N : Nat) : Machine (State N) (Act N) Panic where
  init s := s = State.boot N
  next := next

def hasRoom (s : State N) (a : Act N) : Bool :=
  match s.pc a.thread with
  | .room _ _ _ => !s.ring.isFull
  | _ => true

/-- The thread is inside `consolewrite`, with `cons.lock`. -/
def Pc.cons : Pc → Bool
  | .idle | .enter _ | .intr | .start none | .started none => false
  | _ => true

def Pc.uart : Pc → Bool
  | .room _ _ _ | .sleep _ _ _ | .start _ | .started _ => true
  | _ => false

def Pc.locks : Pc → Nat
  | .room _ _ _ | .sleep _ _ _ | .sched _ _ _ | .start (some _) | .started (some _) => 2
  | .copy _ _ | .putc _ _ _ | .start none | .started none | .leave _ => 1
  | .idle | .enter _ | .intr | .asleep _ _ _ => 0

def Pc.isAsleep : Pc → Bool
  | .asleep _ _ _ => true
  | _ => false

def Pc.inHand : Pc → List UInt8
  | .putc _ c _ | .room _ c _ | .sleep _ c _ | .sched _ c _ => [c]
  | _ => []

/-- The byte the thread in `consolewrite` has in hand. -/
def hand (consLock : Option (Fin N)) (pc : Fin N → Pc) : List UInt8 :=
  match consLock with
  | none => []
  | some p => (pc p).inHand

structure Inv (s : State N) : Prop where
  cons : Holds s.consLock Pc.cons s.pc
  uart : Holds s.uartLock Pc.uart s.pc
  noff : ∀ p, s.noff p = (s.pc p).locks
  awake : ∀ p, (s.pc p).isAsleep = false
  sent : s.put = s.thr ++ s.ring.contents
  taken : s.taken = s.put ++ hand s.consLock s.pc

theorem Inv.boot : Inv (State.boot N) where
  cons := Holds.init fun _ => rfl
  uart := Holds.init fun _ => rfl
  noff _ := rfl
  awake _ := rfl
  sent := rfl
  taken := rfl

section Step

variable {s s' : State N} {p : Fin N} {k k₀ : Pc}

theorem hand_holder {lock : Option (Fin N)} {pc : Fin N → Pc} (h : Holds lock Pc.cons pc)
    (hp : (pc p).cons = true) : hand lock pc = (pc p).inHand := by
  rw [h.lock_eq hp]
  rfl

theorem hand_update (pc : Fin N → Pc) (p : Fin N) (k : Pc) :
    hand (some p) (Function.update pc p k) = k.inHand := by
  change (Function.update pc p k p).inHand = _
  rw [Function.update_self]

theorem hand_step {lock : Option (Fin N)} {pc : Fin N → Pc} (h : Holds lock Pc.cons pc)
    (hi : k.inHand = (pc p).inHand ∨ (pc p).cons = false) :
    hand lock (Function.update pc p k) = hand lock pc := by
  cases hq : lock with
  | none => rfl
  | some q =>
    by_cases e : q = p
    · subst e
      have hc := (h q).mp hq
      rw [hand_update]
      exact hi.resolve_right (by rw [hc]; simp)
    · exact congrArg Pc.inHand (Function.update_of_ne e ..)

theorem Inv.step_to (h : Inv s) (hpc : s'.pc = Function.update s.pc p k)
    (hc : Holds s'.consLock Pc.cons s'.pc) (hu : Holds s'.uartLock Pc.uart s'.pc)
    (hn : s'.noff = Function.update s.noff p k.locks) (ha : k.isAsleep = false)
    (hs : s'.put = s'.thr ++ s'.ring.contents)
    (ht : s'.taken = s'.put ++ hand s'.consLock s'.pc) : Inv s' where
  cons := hc
  uart := hu
  noff q := by
    rw [hn, hpc]
    by_cases hq : q = p
    · subst hq
      rw [Function.update_self, Function.update_self]
    · rw [Function.update_of_ne hq, Function.update_of_ne hq]
      exact h.noff q
  awake q := by
    rw [hpc]
    by_cases hq : q = p
    · subst hq
      rwa [Function.update_self]
    · rw [Function.update_of_ne hq]
      exact h.awake q
  sent := hs
  taken := ht

theorem Inv.setPc (h : Inv s) (hp : s.pc p = k₀) (hc : k.cons = k₀.cons) (hu : k.uart = k₀.uart)
    (hl : k.locks = k₀.locks) (ha : k.isAsleep = false) (hi : k.inHand = k₀.inHand) :
    Inv (s.setPc p k) := by
  subst hp
  refine h.step_to rfl (h.cons.step hc) (h.uart.step hu) ?_ ha h.sent ?_
  · rw [hl, ← h.noff p, Function.update_eq_self]
    rfl
  · exact h.taken.trans (congrArg (s.put ++ ·) (hand_step h.cons (Or.inl hi)).symm)

theorem Inv.lock_cons (h : Inv s) {src : List UInt8} (hp : s.pc p = .enter src)
    (hl : s.consLock = none) :
    Inv (((s.setCons (some p)).setNoff p (s.noff p + 1)).setPc p (.copy 0 src)) := by
  refine h.step_to rfl (h.cons.acquire hl rfl) (h.uart.step (by rw [hp]; rfl)) ?_ rfl h.sent ?_
  · rw [h.noff p, hp]
    rfl
  · have ht := h.taken
    rw [hl] at ht
    exact ht.trans (congrArg (s.put ++ ·) (hand_update s.pc p (.copy 0 src)).symm)

theorem Inv.unlock_cons (h : Inv s) {i : Nat} (hp : s.pc p = .leave i) :
    Inv (((s.setCons none).setNoff p (s.noff p - 1)).setPc p .idle) := by
  refine h.step_to rfl (h.cons.release (by rw [hp]; rfl) rfl) (h.uart.step (by rw [hp]; rfl)) ?_
    rfl h.sent ?_
  · rw [h.noff p, hp]
    rfl
  · have ht := h.taken
    rwa [hand_holder h.cons (p := p) (by rw [hp]; rfl), hp] at ht

theorem Inv.copyin (h : Inv s) {i : Nat} {c : UInt8} {src : List UInt8}
    (hp : s.pc p = .copy i (c :: src)) :
    Inv ({ s with taken := s.taken ++ [c] }.setPc p (.putc i c src)) := by
  have hlock := h.cons.lock_eq (p := p) (by rw [hp]; rfl)
  refine h.step_to rfl (h.cons.step (by rw [hp]; rfl)) (h.uart.step (by rw [hp]; rfl)) ?_ rfl
    h.sent ?_
  · have hn : s.noff p = 1 := by rw [h.noff p, hp]; rfl
    exact (Function.update_eq_self p s.noff).symm.trans (congrArg _ hn)
  · have ht := h.taken
    rw [hand_holder h.cons (p := p) (by rw [hp]; rfl), hp] at ht
    change s.taken ++ [c] = s.put ++ hand s.consLock (Function.update s.pc p (.putc i c src))
    rw [hlock, hand_update, ht]
    exact congrArg (· ++ [c]) (List.append_nil s.put)

theorem Inv.lock_uart (h : Inv s) (hp : s.pc p = k₀) (hl : s.uartLock = none)
    (hc : k.cons = k₀.cons) (hu : k.uart = true) (hn : k.locks = k₀.locks + 1)
    (ha : k.isAsleep = false) (hi : k.inHand = k₀.inHand) :
    Inv (((s.setUart (some p)).setNoff p (s.noff p + 1)).setPc p k) := by
  subst hp
  refine h.step_to rfl (h.cons.step hc) (h.uart.acquire hl hu) ?_ ha h.sent ?_
  · rw [h.noff p, hn]
    rfl
  · exact h.taken.trans (congrArg (s.put ++ ·) (hand_step h.cons (Or.inl hi)).symm)

theorem Inv.unlock_uart (h : Inv s) (hp : s.pc p = k₀) (hl : k₀.uart = true)
    (hc : k.cons = k₀.cons) (hu : k.uart = false) (hn : k.locks = k₀.locks - 1)
    (ha : k.isAsleep = false) (hi : k.inHand = k₀.inHand) :
    Inv (((s.setUart none).setNoff p (s.noff p - 1)).setPc p k) := by
  subst hp
  refine h.step_to rfl (h.cons.step hc) (h.uart.release hl hu) ?_ ha h.sent ?_
  · rw [h.noff p, hn]
    rfl
  · exact h.taken.trans (congrArg (s.put ++ ·) (hand_step h.cons (Or.inl hi)).symm)

theorem Inv.enqueue (h : Inv s) {i : Nat} {c : UInt8} {src : List UInt8}
    (hp : s.pc p = .room i c src) (hr : s.ring.isFull = false) :
    Inv ({ s with ring := s.ring.put c, put := s.put ++ [c] }.setPc p (.start (some (i, src)))) := by
  have hlock := h.cons.lock_eq (p := p) (by rw [hp]; rfl)
  refine h.step_to rfl (h.cons.step (by rw [hp]; rfl)) (h.uart.step (by rw [hp]; rfl)) ?_ rfl ?_ ?_
  · have hn : s.noff p = 2 := by rw [h.noff p, hp]; rfl
    exact (Function.update_eq_self p s.noff).symm.trans (congrArg _ hn)
  · change s.put ++ [c] = s.thr ++ (s.ring.put c).contents
    rw [Circular.contents_put hr, h.sent, List.append_assoc]
  · have ht := h.taken
    rw [hand_holder h.cons (p := p) (by rw [hp]; rfl), hp] at ht
    change s.taken = s.put ++ [c] ++ hand s.consLock (Function.update s.pc p _)
    rw [hlock, hand_update]
    exact ht.trans (List.append_nil _).symm

theorem Inv.goToSleep (h : Inv s) {i : Nat} {c : UInt8} {src : List UInt8}
    (hp : s.pc p = .sleep i c src) : Inv ((s.setUart none).setPc p (.sched i c src)) := by
  refine h.step_to rfl (h.cons.step (by rw [hp]; rfl)) (h.uart.release (by rw [hp]; rfl) rfl) ?_ rfl
    h.sent ?_
  · have hn : s.noff p = 2 := by rw [h.noff p, hp]; rfl
    exact (Function.update_eq_self p s.noff).symm.trans (congrArg _ hn)
  · exact h.taken.trans (congrArg (s.put ++ ·) (hand_step h.cons (Or.inl (by rw [hp]; rfl))).symm)

theorem wakeup_eq (h : ∀ q, (s.pc q).isAsleep = false) : s.wakeup = s := by
  have hpc : s.wakeup.pc = s.pc := by
    funext q
    have hq := h q
    change (match s.pc q with | .asleep i c src => Pc.putc i c src | k => k) = s.pc q
    split
    next he => rw [he] at hq; cases hq
    next => rfl
  rw [State.wakeup] at hpc ⊢
  exact congrArg (fun pc => { s with pc := pc }) hpc

theorem Inv.send (h : Inv s) (hr : s.ring.isEmpty = false) :
    Inv { s.wakeup with ring := s.ring.take, thr := s.thr ++ [s.ring.front] } := by
  rw [wakeup_eq h.awake]
  refine ⟨h.cons, h.uart, h.noff, h.awake, ?_, h.taken⟩
  change s.put = s.thr ++ [s.ring.front] ++ s.ring.take.contents
  rw [h.sent, Circular.contents_take hr, List.append_assoc]
  rfl

theorem Inv.step (h : Inv s) {a : Act N} (hn : next s a = .done s') : Inv s' := by
  obtain ⟨p, choice⟩ := a
  cases hp : s.pc p with
  | idle =>
    simp only [next, hp] at hn
    cases choice with
    | write src => cases hn; exact h.setPc hp rfl rfl rfl rfl rfl
    | intr => cases hn; exact h.setPc hp rfl rfl rfl rfl rfl
    | go => cases hn
    | fail => cases hn
  | enter src =>
    simp only [next, hp] at hn
    split at hn
    · next hl => cases hn; exact h.lock_cons hp hl
    · cases hn
  | copy i src =>
    cases src with
    | nil =>
      simp only [next, hp] at hn
      cases hn
      exact h.setPc hp rfl rfl rfl rfl rfl
    | cons c src =>
      simp only [next, hp] at hn
      cases choice with
      | fail => cases hn; exact h.setPc hp rfl rfl rfl rfl rfl
      | _ => cases hn; exact h.copyin hp
  | putc i c src =>
    simp only [next, hp] at hn
    split at hn
    · next hl => cases hn; exact h.lock_uart hp hl rfl rfl rfl rfl rfl
    · cases hn
  | room i c src =>
    simp only [next, hp] at hn
    split at hn
    · cases hn; exact h.setPc hp rfl rfl rfl rfl rfl
    · next hr => cases hn; exact h.enqueue hp (by simpa using hr)
  | sleep i c src =>
    simp only [next, hp] at hn
    cases hn
    exact h.goToSleep hp
  | sched i c src =>
    -- the sleeper holds `cons.lock` besides its own lock
    have hnoff : s.noff p = 2 := by rw [h.noff p, hp]; rfl
    simp [next, hp, hnoff] at hn
  | asleep i c src =>
    have := h.awake p
    rw [hp] at this
    cases this
  | start w =>
    have hstarted : Inv (s.setPc p (.started w)) := by
      cases w <;> exact h.setPc hp rfl rfl rfl rfl rfl
    simp only [next, hp] at hn
    split at hn
    · cases hn; exact hstarted
    · next hr =>
      cases choice with
      | fail => cases hn; exact hstarted
      | _ => cases hn; exact h.send (by simpa using hr)
  | started w =>
    cases w with
    | none =>
      simp only [next, hp] at hn
      cases hn
      exact h.unlock_uart hp rfl rfl rfl rfl rfl rfl
    | some w =>
      simp only [next, hp] at hn
      cases hn
      exact h.unlock_uart hp rfl rfl rfl rfl rfl rfl
  | intr =>
    simp only [next, hp] at hn
    split at hn
    · next hl => cases hn; exact h.lock_uart hp hl rfl rfl rfl rfl rfl
    · cases hn
  | leave i =>
    simp only [next, hp] at hn
    cases hn
    exact h.unlock_cons hp

def Pc.sleeps : Pc → Bool
  | .sleep _ _ _ | .sched _ _ _ => true
  | _ => false

theorem next_pc (h : Inv s) {a : Act N} (hn : next s a = .done s') :
    ∃ k, s'.pc = Function.update s.pc a.thread k ∧
      (k.sleeps = true → hasRoom s a = false ∨ (s.pc a.thread).sleeps = true) := by
  obtain ⟨p, choice⟩ := a
  simp only [next] at hn
  split at hn
  next => split at hn <;> cases hn <;> exact ⟨_, rfl, fun he => by cases he⟩
  next => split at hn <;> cases hn; exact ⟨_, rfl, fun he => by cases he⟩
  next => cases hn; exact ⟨_, rfl, fun he => by cases he⟩
  next => split at hn <;> cases hn <;> exact ⟨_, rfl, fun he => by cases he⟩
  next => split at hn <;> cases hn; exact ⟨_, rfl, fun he => by cases he⟩
  next hp =>
    split at hn
    · next hr => cases hn; exact ⟨_, rfl, fun _ => Or.inl (by simp [hasRoom, hp, hr])⟩
    · cases hn; exact ⟨_, rfl, fun he => by cases he⟩
  next hp => cases hn; exact ⟨_, rfl, fun _ => Or.inr (by rw [hp]; rfl)⟩
  next hp =>
    split at hn
    · cases hn
    · cases hn; exact ⟨_, rfl, fun he => by cases he⟩
  next => cases hn
  next hp =>
    have hstay : s.wakeup.pc = Function.update s.pc p (s.pc p) := by
      rw [wakeup_eq h.awake, Function.update_eq_self]
    split at hn
    · cases hn; exact ⟨_, rfl, fun he => by cases he⟩
    · split at hn
      · cases hn; exact ⟨_, rfl, fun he => by cases he⟩
      · cases hn; exact ⟨_, hstay, Or.inr⟩
  next => split at hn <;> cases hn <;> exact ⟨_, rfl, fun he => by cases he⟩
  next => split at hn <;> cases hn; exact ⟨_, rfl, fun he => by cases he⟩
  next => cases hn; exact ⟨_, rfl, fun he => by cases he⟩

end Step

theorem Inv.reachable {ok : State N → Act N → Prop} {s : State N} (h : Reachable (machine N) ok s) :
    Inv s := by
  refine Reachable.invariant ?_ ?_ h
  · rintro s rfl
    exact Inv.boot
  · intro s a s' hi _ hn
    exact hi.step hn

theorem not_sleeps {s : State N} (h : Reachable (machine N) (hasRoom · ·) s) (p : Fin N) :
    (s.pc p).sleeps = false := by
  suffices hall : Inv s ∧ ∀ p, (s.pc p).sleeps = false from hall.2 p
  refine Reachable.invariant (I := fun s => Inv s ∧ ∀ p, (s.pc p).sleeps = false) ?_ ?_ h
  · rintro s rfl
    exact ⟨Inv.boot, fun _ => rfl⟩
  · rintro s a s' ⟨hi, hs⟩ hok hn
    refine ⟨hi.step hn, fun q => ?_⟩
    obtain ⟨k, hpc, hk⟩ := next_pc hi hn
    rw [hpc]
    by_cases hq : q = a.thread
    · subst hq
      rw [Function.update_self]
      by_contra hsl
      rcases hk (by simpa using hsl) with hr | hr
      · rw [hok] at hr
        cases hr
      · rw [hs] at hr
        cases hr
    · rw [Function.update_of_ne hq]
      exact hs q

theorem panic_only_in_sched {s : State N} {a : Act N} {e : Panic} (h : next s a = .panic e) :
    (s.pc a.thread).sleeps = true := by
  simp only [next] at h
  split at h
  next => split at h <;> cases h
  next => split at h <;> cases h
  next => cases h
  next => split at h <;> cases h
  next => split at h <;> cases h
  next => split at h <;> cases h
  next => cases h
  next hp => rw [hp]; rfl
  next => cases h
  next =>
    split at h
    · cases h
    · split at h <;> cases h
  next => split at h <;> cases h
  next => split at h <;> cases h
  next => cases h

theorem sched_panics {ok : State N → Act N → Prop} {s : State N}
    (h : Reachable (machine N) ok s) {p : Fin N} {i : Nat} {c : UInt8} {src : List UInt8}
    (hp : s.pc p = .sched i c src) : next s ⟨p, .go⟩ = .panic .schedLocks := by
  have hnoff : s.noff p = 2 := by
    rw [(Inv.reachable h).noff p, hp]
    rfl
  simp [next, hp, hnoff]

section Drain

variable {s : State N} {p : Fin N}

theorem uartstart_drains {n : Nat} (h : Inv s) (hp : s.pc p = .start none)
    (hsize : s.ring.size = n) :
    ∃ s', perform (machine N) hasRoom s (List.replicate n ⟨p, .go⟩) = some s' ∧
      s'.thr = s.put := by
  induction n generalizing s with
  | zero =>
    refine ⟨s, rfl, ?_⟩
    rw [h.sent, Circular.contents_eq_nil (s.ring.isEmpty_iff.mpr hsize), List.append_nil]
  | succ n ih =>
    have hne : s.ring.isEmpty = false := by
      by_contra he
      have := s.ring.isEmpty_iff.mp (by simpa using he)
      omega
    have hstep : next s ⟨p, .go⟩ =
        .done { s.wakeup with ring := s.ring.take, thr := s.thr ++ [s.ring.front] } := by
      simp [next, hp, hne]
    have hroom : hasRoom s ⟨p, .go⟩ = true := by simp [hasRoom, hp]
    have hp' : s.wakeup.pc p = .start none := by rw [wakeup_eq h.awake, hp]
    have hsize' := Circular.size_take hne
    obtain ⟨s', hr, hthr⟩ := ih (h.send hne) hp' (by
      change s.ring.take.size = n
      omega)
    refine ⟨s', ?_, hthr⟩
    rw [List.replicate_succ, perform_cons _ hroom hstep]
    exact hr

theorem uartintr_drains (h : Inv s) (hp : s.pc p = .idle) (hl : s.uartLock = none) :
    ∃ as s', (∀ a ∈ as, a.thread = p) ∧ perform (machine N) hasRoom s as = some s' ∧
      s'.thr = s.put := by
  have hintr : next s ⟨p, .intr⟩ = .done (s.setPc p .intr) := by simp [next, hp]
  have hpc₁ : (s.setPc p .intr).pc p = .intr := Function.update_self ..
  have hacq : next (s.setPc p .intr) ⟨p, .go⟩ =
      .done ((((s.setPc p .intr).setUart (some p)).setNoff p (s.noff p + 1)).setPc p (.start none)) := by
    simp [next, hl]
  have hinv := (h.step hintr).step hacq
  obtain ⟨s', hr, hthr⟩ := uartstart_drains hinv (p := p) (Function.update_self ..) rfl
  refine ⟨⟨p, .intr⟩ :: ⟨p, .go⟩ :: List.replicate s.ring.size ⟨p, .go⟩, s', ?_, ?_, hthr⟩
  · intro a ha
    simp only [List.mem_cons, List.mem_replicate] at ha
    rcases ha with rfl | rfl | ⟨-, rfl⟩ <;> rfl
  · rw [perform_cons _ (by simp [hasRoom, hp]) hintr, perform_cons _ (by simp [hasRoom]) hacq]
    exact hr

end Drain

/-- As long as no writer finds the ring full: the bytes copied in go into the ring, each
once, and from there to THR in the same order, none is lost or overwritten on the way, an
interrupt with the UART idle delivers all of them, no writer goes to sleep, and nothing panics. -/
theorem console_output_in_order {s : State N} (h : Reachable (machine N) (hasRoom · ·) s) :
    s.put = s.thr ++ s.ring.contents ∧ s.taken = s.put ++ hand s.consLock s.pc ∧
    (∀ p, s.pc p = .idle → s.uartLock = none →
      ∃ as s', (∀ a ∈ as, a.thread = p) ∧ perform (machine N) hasRoom s as = some s' ∧
        s'.thr = s.put) ∧
    (∀ p, (s.pc p).sleeps = false ∧ (s.pc p).isAsleep = false) ∧
    ∀ a e, next s a ≠ .panic e := by
  have hi := Inv.reachable h
  refine ⟨hi.sent, hi.taken, fun p hp hl => uartintr_drains hi hp hl,
    fun p => ⟨not_sleeps h p, hi.awake p⟩, fun a e hn => ?_⟩
  have hs := panic_only_in_sched hn
  rw [not_sleeps h] at hs
  cases hs

def writeBusy (p : Fin N) (src : List UInt8) : List (Act N) :=
  [⟨p, .write src⟩, ⟨p, .go⟩] ++
    src.flatMap fun _ => [⟨p, .go⟩, ⟨p, .go⟩, ⟨p, .go⟩, ⟨p, .fail⟩, ⟨p, .go⟩]

theorem console_output_in_order_one : ∃ s, Reachable (machine 1) (hasRoom · ·) s ∧
    s.put = [72, 105] ∧ s.put = s.thr ++ s.ring.contents := by
  have h : (perform (machine 1) hasRoom (State.boot 1) (writeBusy 0 [72, 105])).any
      (fun s => s.put = [72, 105]) = true := by decide +kernel
  obtain ⟨s, hr, hs⟩ := Reachable.of_perform h rfl fun _ _ => id
  exact ⟨s, hr, of_decide_eq_true hs, (console_output_in_order hr).1⟩

/-- A process that writes 32 bytes while the UART stays busy finds the ring full at the last
one, and `sched()` panics because of `cons.lock`. -/
theorem consolewrite_sched_panic : ∃ s, Reachable (machine 1) anyStep s ∧
    s.consLock = some 0 ∧ s.ring.isFull ∧ next s ⟨0, .go⟩ = .panic .schedLocks := by
  let as := (writeBusy (0 : Fin 1) (List.replicate 32 65)).dropLast
  have h : (perform (machine 1) (fun _ _ => true) (State.boot 1) as).any (fun s =>
      s.consLock = some 0 ∧ s.ring.isFull ∧ (next s ⟨0, .go⟩).panics .schedLocks) = true := by
    decide +kernel
  obtain ⟨s, hr, hs⟩ := Reachable.of_perform (P := anyStep) h rfl fun _ _ _ => trivial
  obtain ⟨hlock, hfull, hpanic⟩ := of_decide_eq_true hs
  exact ⟨s, hr, hlock, hfull, Outcome.panics_iff.mp hpanic⟩

end Xv6.Console

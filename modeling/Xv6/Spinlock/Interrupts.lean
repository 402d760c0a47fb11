import Xv6.Lib.Transition
import Xv6.Param

namespace Xv6.Spinlock

open Lib.Transition

/-- A CPU and the kernel thread that runs on it. A spinlock is held by a CPU: `held` are the locks
with `lk->cpu` equal to it. -/
structure Cpu (L : Type) where
  noff : Nat
  intena : Bool
  /-- Whether interrupts are enabled (`SIE`). -/
  intr : Bool
  held : List L
  proc : Option (Fin NPROC)
  before : Option Bool
  deriving DecidableEq

inductive Parked where
  /-- At the start of `forkret`. -/
  | forkret
  /-- After the `swtch` of `sched`, with the local `intena`. -/
  | sched (intena : Bool) (before : Option Bool)
  deriving DecidableEq

structure State (L : Type) where
  cpu : Fin NCPU → Cpu L
  parked : Fin NPROC → Option Parked

inductive Panic where
  | acquire
  | release
  | popOffInterruptible
  | popOff
  | schedLock
  | schedLocks
  | schedInterruptible
  deriving DecidableEq

inductive Action (L : Type) where
  | setIntr (c : Fin NCPU) (on : Bool)
  | acquire (c : Fin NCPU) (l : L)
  | release (c : Fin NCPU) (l : L)
  /-- The process on the CPU calls `sched`, and the scheduler goes on. -/
  | sched (c : Fin NCPU)
  | switchTo (c : Fin NCPU) (p : Fin NPROC)
  /-- `allocproc` sets up a process that will begin at `forkret`. -/
  | create (c : Fin NCPU) (p : Fin NPROC)
  deriving DecidableEq

variable {L : Type}

def State.set (s : State L) (c : Fin NCPU) (k : Cpu L) : State L :=
  { s with cpu := Function.update s.cpu c k }

def State.park (s : State L) (p : Fin NPROC) (q : Option Parked) : State L :=
  { s with parked := Function.update s.parked p q }

@[simp] theorem State.set_self (s : State L) (c : Fin NCPU) (k : Cpu L) : (s.set c k).cpu c = k :=
  Function.update_self ..

theorem State.set_ne (s : State L) (k : Cpu L) {c d : Fin NCPU} (h : d ≠ c) :
    (s.set c k).cpu d = s.cpu d :=
  Function.update_of_ne h ..

@[simp] theorem State.park_self (s : State L) (p : Fin NPROC) (q : Option Parked) :
    (s.park p q).parked p = q :=
  Function.update_self ..

theorem State.park_ne (s : State L) (q : Option Parked) {p p' : Fin NPROC} (h : p' ≠ p) :
    (s.park p q).parked p' = s.parked p' :=
  Function.update_of_ne h ..

structure Cpu.Ok (k : Cpu L) : Prop where
  noff : k.noff = k.held.length
  off : k.held ≠ [] → k.intr = false
  intena : k.held ≠ [] → ∀ b, k.before = some b → k.intena = b

/-- What holds of the machine at any time: a process in `sched` has kept its own `intena`. -/
structure Ok (s : State L) : Prop where
  cpu : ∀ c, (s.cpu c).Ok
  parked : ∀ p i b, s.parked p = some (.sched i (some b)) → i = b

theorem Ok.set {s : State L} {k : Cpu L} (h : Ok s) (hk : k.Ok) (c : Fin NCPU) : Ok (s.set c k) := by
  refine ⟨fun d => ?_, h.parked⟩
  by_cases hd : d = c
  · subst hd
    rw [State.set_self]
    exact hk
  · rw [State.set_ne s k hd]
    exact h.cpu d

theorem Ok.park {s : State L} (h : Ok s) (p : Fin NPROC) {q : Option Parked}
    (hq : ∀ i b, q = some (.sched i (some b)) → i = b) : Ok (s.park p q) := by
  refine ⟨h.cpu, fun p' i b hp => ?_⟩
  by_cases he : p' = p
  · subst he
    rw [State.park_self] at hp
    exact hq i b hp
  · rw [State.park_ne s q he] at hp
    exact h.parked p' i b hp

variable [DecidableEq L]

namespace Cpu

def pushOff (k : Cpu L) : Cpu L :=
  { k with
    intr := false
    intena := if k.noff = 0 then k.intr else k.intena
    noff := k.noff + 1 }

def popOff (k : Cpu L) : Outcome (Cpu L) Panic :=
  if k.intr then .panic .popOffInterruptible
  else if k.noff < 1 then .panic .popOff
  else .done { k with
    noff := k.noff - 1
    intr := if k.noff - 1 = 0 ∧ k.intena then true else k.intr }

/-- `acquire`, when nobody else has the lock. The first one of a nesting records the interrupts. -/
def acquire (k : Cpu L) (l : L) : Outcome (Cpu L) Panic :=
  if l ∈ k.held then .panic .acquire
  else .done { k.pushOff with
    held := l :: k.held
    before := if k.held = [] then some k.intr else k.before }

def release (k : Cpu L) (l : L) : Outcome (Cpu L) Panic :=
  if l ∉ k.held then .panic .release
  else { k with held := k.held.erase l }.popOff

end Cpu

def State.local (s : State L) (c : Fin NCPU) : Outcome (Cpu L) Panic → Outcome (State L) Panic
  | .blocked => .blocked
  | .done k => .done (s.set c k)
  | .panic e => .panic e

/-- `lock p` is `p->lock`. -/
def next (lock : Fin NPROC → L) (s : State L) : Action L → Outcome (State L) Panic
  | .setIntr c on =>
    if (s.cpu c).held = [] then .done (s.set c { s.cpu c with intr := on }) else .blocked
  | .acquire c l =>
    if ∃ d, d ≠ c ∧ l ∈ (s.cpu d).held then .blocked else s.local c ((s.cpu c).acquire l)
  | .release c l => s.local c ((s.cpu c).release l)
  | .sched c =>
    match (s.cpu c).proc with
    | none => .blocked
    | some p =>
      if lock p ∉ (s.cpu c).held then .panic .schedLock
      else if (s.cpu c).noff ≠ 1 then .panic .schedLocks
      else if (s.cpu c).intr then .panic .schedInterruptible
      else .done ((s.set c { s.cpu c with proc := none, before := none }).park p
        (some (.sched (s.cpu c).intena (s.cpu c).before)))
  | .switchTo c p =>
    if (s.cpu c).proc = none ∧ (s.cpu c).held = [lock p] then
      match s.parked p with
      | none => .blocked
      | some .forkret =>
        .done ((s.set c { s.cpu c with proc := some p }).park p none)
      | some (.sched intena before) =>
        .done ((s.set c { s.cpu c with proc := some p, intena, before }).park p none)
    else .blocked
  | .create c p =>
    if (s.cpu c).proc ≠ some p ∧ lock p ∈ (s.cpu c).held then
      .done (s.park p (some .forkret))
    else .blocked

def machine (lock : Fin NPROC → L) : Machine (State L) (Action L) Panic where
  init s := (∀ c, (s.cpu c).noff = 0 ∧ (s.cpu c).held = [] ∧ (s.cpu c).proc = none ∧
      (s.cpu c).before = none) ∧ ∀ p, s.parked p = none ∨ s.parked p = some .forkret
  next := next lock

variable {lock : Fin NPROC → L} {s s' : State L} {c : Fin NCPU} {k k' : Cpu L} {l : L}

theorem Cpu.Ok.acquire (h : k.Ok) (ha : k.acquire l = .done k') : k'.Ok := by
  rw [Cpu.acquire] at ha
  split at ha
  · cases ha
  · cases ha
    refine ⟨?_, fun _ => rfl, fun _ b hb => ?_⟩
    · rw [List.length_cons, ← h.noff]
      rfl
    · change (if k.noff = 0 then k.intr else k.intena) = b
      change (if k.held = [] then some k.intr else k.before) = some b at hb
      have hnoff := h.noff
      split at hb
      next he =>
        rw [he, List.length_nil] at hnoff
        rw [if_pos hnoff, Option.some.inj hb]
      next he =>
        have := List.length_pos_of_ne_nil he
        rw [if_neg (by omega), h.intena he b hb]

theorem Cpu.Ok.release (h : k.Ok) (hl : l ∈ k.held) :
    ∃ k', k.release l = .done k' ∧ k'.Ok ∧
      (k'.held = [] → ∀ b, k.before = some b → k'.intr = b) := by
  have hne : k.held ≠ [] := List.ne_nil_of_mem hl
  have hpos := List.length_pos_of_mem hl
  have hoff := h.off hne
  have hnoff := h.noff
  have hlen : (k.held.erase l).length = k.held.length - 1 := List.length_erase_of_mem hl
  refine ⟨{ k with
    held := k.held.erase l
    noff := k.noff - 1
    intr := if k.noff - 1 = 0 ∧ k.intena then true else k.intr }, ?_, ⟨?_, fun hrest => ?_, fun _ => ?_⟩,
    fun hrest b hb => ?_⟩
  · have hlt : ¬k.noff < 1 := by omega
    rw [Cpu.release, if_neg (not_not.mpr hl), Cpu.popOff, if_neg (by simp [hoff]), if_neg hlt]
  · change k.noff - 1 = (k.held.erase l).length
    omega
  · change (if k.noff - 1 = 0 ∧ k.intena then true else k.intr) = false
    have : 0 < (k.held.erase l).length := List.length_pos_of_ne_nil hrest
    rw [if_neg (by rintro ⟨hz, -⟩; omega), hoff]
  · exact h.intena hne
  · change (if k.noff - 1 = 0 ∧ k.intena then true else k.intr) = b
    have hzero : k.noff - 1 = 0 := by
      have := congrArg List.length (show k.held.erase l = [] from hrest)
      rw [List.length_nil] at this
      omega
    rw [hoff, h.intena hne b hb]
    cases b <;> simp [hzero]

theorem Ok.next (h : Ok s) {a : Action L} (hn : next lock s a = .done s') : Ok s' := by
  cases a with
  | setIntr c on =>
    rw [Spinlock.next] at hn
    split at hn
    next hheld =>
      cases hn
      refine h.set ?_ c
      exact ⟨(h.cpu c).noff, fun hne => absurd hheld hne, fun hne => absurd hheld hne⟩
    next => cases hn
  | acquire c l =>
    rw [Spinlock.next] at hn
    split at hn
    · cases hn
    · cases hk : (s.cpu c).acquire l with
      | blocked => rw [hk] at hn; cases hn
      | panic e => rw [hk] at hn; cases hn
      | done k =>
        rw [hk] at hn
        cases hn
        exact h.set ((h.cpu c).acquire hk) c
  | release c l =>
    rw [Spinlock.next] at hn
    by_cases hl : l ∈ (s.cpu c).held
    · obtain ⟨k, hk, hok, -⟩ := (h.cpu c).release hl
      rw [hk] at hn
      cases hn
      exact h.set hok c
    · rw [Cpu.release, if_pos hl] at hn
      cases hn
  | sched c =>
    rw [Spinlock.next] at hn
    split at hn
    · cases hn
    next p hp =>
      split at hn
      · cases hn
      next hheld =>
        repeat (split at hn; · cases hn)
        cases hn
        have hne : (s.cpu c).held ≠ [] := List.ne_nil_of_mem (not_not.mp hheld)
        refine (h.set ?_ c).park p fun i b hq => ?_
        · exact ⟨(h.cpu c).noff, (h.cpu c).off, nofun⟩
        · obtain ⟨hi, hb⟩ := Parked.sched.inj (Option.some.inj hq)
          rw [← hi]
          exact (h.cpu c).intena hne b hb
  | switchTo c p =>
    rw [Spinlock.next] at hn
    split at hn
    · split at hn
      · cases hn
      next hp =>
        cases hn
        refine (h.set ?_ c).park p nofun
        exact ⟨(h.cpu c).noff, (h.cpu c).off, (h.cpu c).intena⟩
      next i b hp =>
        cases hn
        refine (h.set ?_ c).park p nofun
        refine ⟨(h.cpu c).noff, (h.cpu c).off, fun _ b' hb => ?_⟩
        obtain rfl : b = some b' := hb
        exact h.parked p i b' hp
    · cases hn
  | create c p =>
    rw [Spinlock.next] at hn
    split at hn
    · cases hn
      exact h.park p nofun
    · cases hn

theorem Ok.reachable {ok : State L → Action L → Prop} (h : Reachable (machine lock) ok s) : Ok s := by
  refine h.invariant (fun s hinit => ⟨fun c => ?_, fun p i b hp => ?_⟩) fun s a s' h _ hn => h.next hn
  · obtain ⟨hnoff, hheld, -, -⟩ := hinit.1 c
    refine ⟨by rw [hnoff, hheld]; rfl, fun hne => absurd hheld hne, fun hne => absurd hheld hne⟩
  · obtain hnone | hnew := hinit.2 p
    · rw [hnone] at hp
      cases hp
    · rw [hnew] at hp
      cases hp

/-- All CPUs are in their schedulers, and process 0 is to begin at `forkret`. -/
def boot : State Nat where
  cpu _ := ⟨0, false, true, [], none, none⟩
  parked p := if p = 0 then some .forkret else none

def moves : List (Action Nat) :=
  [.acquire 0 0, .switchTo 0 0, .release 0 0, .acquire 0 0, .sched 0, .release 0 0, .acquire 1 0,
    .switchTo 1 0]

end Xv6.Spinlock

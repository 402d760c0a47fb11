import Xv6.Lib.LockOrder
import Xv6.Process.Threads

namespace Xv6.Process

open Lib.Transition Lib.LockOrder

section Definitions

variable {C : Type}

def Cpu.proc? : Cpu → Option Slot
  | .run p _ => some p
  | _ => none

/-- Process `p` runs on a CPU that holds the lock of slot `l`. -/
def Holds (s : State C) (p l : Slot) : Prop := ∃ c, (s.cpu c).proc? = some p ∧ s.lock l = some c

def State.wants (s : State C) (p : Slot) : Option Slot := (s.pc p).wants

/-- Process `p` holds a process lock while it spins for one that process `q` holds. -/
def Blocks (s : State C) : Slot → Slot → Prop := WaitsFor (Holds s) s.wants

/-- When `exit` takes the lock of the parent it has read, the slot has not been handed
out since the exiting process itself was created. -/
def parentKept (s : State C) (a : Act C) : Bool :=
  match s.cpu a.cpu with
  | .run p _ =>
    match s.pc p with
    | .exitLock _ op => s.birth op < s.birth p
    | _ => true
  | _ => true

def Pc.parentLock : Pc → Option Slot
  | .reparent _ op _ | .reparentFound _ op _ _ | .spin _ (.reparent _ op _)
  | .spin _ (.reparentFound _ op _ _) => some op
  | _ => none

def Ranked (s : State C) : Prop :=
  ∀ p op, (s.pc p).parentLock = some op → s.birth op < s.birth p

theorem Cpu.eq_run {u : Cpu} {p : Slot} (h : u.proc? = some p) : ∃ rest, u = .run p rest := by
  cases u with
  | run q rest =>
    cases h
    exact ⟨rest, rfl⟩
  | _ => cases h

theorem Pc.mem_holds_of_parentLock {k : Pc} {op : Slot} (h : k.parentLock = some op) (p : Slot) :
    op ∈ k.holds p := by
  unfold Pc.parentLock at h
  split at h <;> cases h <;> simp [Pc.holds]

theorem Pc.not_parked_of_parentLock {k : Pc} {op : Slot} (h : k.parentLock = some op) :
    k.parked = false := by
  cases k <;> first | rfl | cases h

theorem Job.parentLock_next (j : Job) (todo : List Slot) : (j.next todo).parentLock = none := by
  cases todo <;> rfl

theorem Syscall.parentLock_enter (x : Syscall) (p : Slot) : (x.enter p).parentLock = none := by
  cases x <;> rfl

theorem Pc.parentLock_of_interruptible {k : Pc} (h : k.interruptible) : k.parentLock = none := by
  cases k with
  | spin l k => cases k <;> first | rfl | cases h
  | user | exitLock => rfl
  | _ => cases h

theorem Inv.ordered {s : State C} (h : Inv s) (hk : Ranked s) :
    Ordered (Holds s) s.wants s.birth := by
  rintro p l l' ⟨c, hc, hl⟩ hw
  obtain ⟨rest, hr⟩ := Cpu.eq_run hc
  have hmem : l ∈ (s.pc p).holds p := by simpa [State.held, hr] using (h.threads.locks l c).mp hl
  have hsound := h.threads.sound p
  have hrank := hk p
  cases hpc : s.pc p with
  | exitLock => simp [hpc, Pc.holds] at hmem
  | spin m k =>
    obtain rfl : m = l' := by simpa [State.wants, hpc, Pc.wants] using hw
    rw [hpc] at hsound hmem hrank
    obtain ⟨⟨hspin, hhead⟩, hsound⟩ := hsound
    cases k with
    | spin | exitLock => cases hspin
    | waitFound addr i todo =>
      cases hhead
      obtain rfl : l = p := by simpa [Pc.holds] using hmem
      exact h.tree.older m l hsound
    | reparent status op todo =>
      cases hhead
      obtain rfl : l = op := by simpa [Pc.holds] using hmem
      exact hrank l rfl
    | reparentFound status op i todo =>
      cases hhead
      have hchild := h.tree.older m p hsound.2.1
      obtain rfl | rfl : l = p ∨ l = op := by simpa [Pc.holds] using hmem
      · exact hchild
      · exact (hrank l rfl).trans hchild
    | _ => simp [Pc.holds] at hmem
  | _ => simp [State.wants, hpc, Pc.wants] at hw

end Definitions

variable {C : Type} [DecidableEq C] {s s' : State C} {c : C} {p : Slot} {rest : List Slot}

theorem ProcStep.birth_eq (hp : ProcStep s c p rest s') :
    s'.birth = s.birth ∨ ∃ i todo, s.pc p = .visit .alloc i todo := by
  cases hp with
  | @fork i todo hpc => exact Or.inr ⟨i, todo, hpc⟩
  | _ => exact Or.inl rfl

theorem ProcStep.parentLock (h : Inv s) (hp : ProcStep s c p rest s') {op : Slot}
    (ho : (s'.pc p).parentLock = some op) :
    (s.pc p).parentLock = some op ∨ ∃ status, s.pc p = .exitLock status op := by
  have hsound := h.threads.sound p
  cases hp with
  | @call x hpc => simp [Syscall.parentLock_enter] at ho
  | @acquire l k hpc =>
    rw [hpc] at hsound ⊢
    cases k with
    | reparent | reparentFound => simpa [Pc.parentLock] using ho
    | spin => cases hsound.1.1
    | _ => simp [Pc.parentLock] at ho
  | exitLock hpc => simp_all [Pc.parentLock]
  | fault => exact Or.inl ho
  | sched hpc =>
    rw [hpc] at hsound
    have hk := Pc.not_parked_of_parentLock (by simpa using ho)
    simp [hsound.1] at hk
  | resume hpc =>
    rw [hpc] at hsound
    simp [Pc.parentLock_of_interruptible hsound.1] at ho
  | allocUsed | killOther | wakeup => simp [Job.parentLock_next] at ho
  | reparentOther hpc | reparentChild hpc | reparentGive hpc => simp_all [Pc.parentLock]
  | _ => simp [Pc.parentLock] at ho

theorem Ranked.proc (h : Inv s) (hk : Ranked s) (hr : s.cpu c = .run p rest)
    (hp : ProcStep s c p rest s') (hg : ∀ choice, parentKept s ⟨c, choice⟩) : Ranked s' := by
  intro q op ho
  by_cases hqp : q = p
  · subst hqp
    have hlt : s.birth op < s.birth q ∧ ¬ ∃ i todo, s.pc q = .visit .alloc i todo := by
      obtain ho | ⟨status, hpc⟩ := hp.parentLock h ho
      · refine ⟨hk q op ho, ?_⟩
        rintro ⟨i, todo, hpc⟩
        simp [hpc, Pc.parentLock] at ho
      · have hlt := hg .go
        simp only [parentKept, hr, hpc, decide_eq_true_eq] at hlt
        exact ⟨hlt, by simp [hpc]⟩
    rw [hp.birth_eq.resolve_right hlt.2]
    exact hlt.1
  · obtain he | ⟨-, -, he⟩ := hp.pc_other hqp
    · rw [he] at ho
      obtain ⟨c', todo, hc', hl⟩ :=
        h.threads.on_cpu (Pc.mem_holds_of_parentLock ho q) (Pc.not_parked_of_parentLock ho)
      have hq : (s.proc q).state ≠ .unused := by
        obtain hs | ⟨hs, -⟩ := h.threads.running c' q todo hc' <;> simp [hs]
      have hbirth : s'.birth op = s.birth op := by
        cases hp.change h hr op with
        | keep _ _ hb | free _ _ _ _ hb | give _ _ _ _ hb => exact hb
        | fork _ hl' =>
          -- The lock of the slot is held by the other process.
          obtain rfl : c = c' := Option.some.inj (hl'.symm.trans hl)
          rw [hr] at hc'
          cases hc'
          exact absurd rfl hqp
      rw [(hp.change h hr q).birth_eq hq, hbirth]
      exact hk q op ho
    · simp [he, Pc.parentLock] at ho

theorem Ranked.step (h : Inv s) (hk : Ranked s) (hs : Step s c s')
    (hg : ∀ choice, parentKept s ⟨c, choice⟩) : Ranked s' := by
  cases hs with
  | rescan | lock | switch | skip | back => exact hk
  | proc hr hp => exact hk.proc h hr hp hg

omit [DecidableEq C] in
theorem Ranked.boot : Ranked (State.boot C) := by
  intro p op ho
  by_cases hp : p = initproc <;> simp [State.boot, hp, Pc.parentLock] at ho

/-- As long as no `exit` takes the lock of a slot that was handed out anew after it read
its parent, no processes wait for each other's locks in a circle. -/
theorem no_lock_cycle (h : Reachable (machine C) (parentKept · ·) s) (p : Slot) :
    ¬ Relation.TransGen (Blocks s) p p := by
  have hboth : Inv s ∧ Ranked s := by
    refine h.invariant (I := fun s => Inv s ∧ Ranked s) ?_ ?_
    · rintro _ rfl
      exact ⟨.boot, .boot⟩
    · rintro s a s' ⟨hi, hk⟩ hok hn
      have hs := step_of_next hn
      exact ⟨hi.step hs, hk.step hi hs fun _ => hok⟩
  exact (hboth.1.ordered hboth.2).acyclic p

section Schedules

abbrev Acts := List (Act (Fin NCPU))

def go (c : Fin NCPU) (n : Nat) : Acts := List.replicate n ⟨c, .go⟩

def call (c : Fin NCPU) (x : Syscall) : Acts := [⟨c, .call x⟩]

/-- CPU `c` begins its scheduler loop, finds the new process in slot `k` and runs it. -/
def start (c : Fin NCPU) (k : Nat) : Acts := go c (2 * k + 4)

def forkInto (c : Fin NCPU) (k : Nat) : Acts := call c .fork ++ go c (2 * k + 2)

def finish (ok : State (Fin NCPU) → Act (Fin NCPU) → Bool) (as : Acts) :
    Option (State (Fin NCPU)) :=
  perform (machine (Fin NCPU)) ok (State.boot _) as

def blocksAt (s : State (Fin NCPU)) (c d : Fin NCPU) (p q l m : Slot) : Bool :=
  ((s.cpu c).proc? = some p ∧ s.lock l = some c) ∧ s.wants p = some m ∧
    (s.cpu d).proc? = some q ∧ s.lock m = some d

theorem blocks_of_blocksAt {s : State (Fin NCPU)} {c d : Fin NCPU} {p q l m : Slot}
    (h : blocksAt s c d p q l m) : Blocks s p q := by
  obtain ⟨hp, hm, hq⟩ := of_decide_eq_true h
  exact ⟨⟨l, c, hp⟩, m, hm, d, hq⟩

def exitOverWait : Acts :=
  start 0 0 ++ forkInto 0 1 ++ start 1 1 ++ forkInto 1 2 ++ start 2 2 ++
    call 2 (.wait 0) ++ go 2 1 ++ call 1 (.exit 0) ++ go 1 9

theorem no_lock_cycle_exitOverWait :
    ∃ s, Reachable (machine (Fin NCPU)) (parentKept · ·) s ∧ Blocks s 1 2 ∧
      ¬ Relation.TransGen (Blocks s) 1 1 := by
  have h : (finish parentKept exitOverWait).any (blocksAt · 1 2 1 2 1 2) := by decide +kernel
  obtain ⟨s, hr, hb⟩ := Reachable.of_perform h rfl fun _ _ => id
  exact ⟨s, hr, blocks_of_blocksAt hb, no_lock_cycle hr 1⟩

def reusedParent : Acts :=
  start 0 0 ++ forkInto 0 1 ++ start 1 1 ++ forkInto 1 2 ++ start 2 2 ++ forkInto 2 3 ++
    start 3 3 ++ call 2 (.exit 0) ++ go 2 4 ++ call 1 (.exit 0) ++ go 1 75 ++
    call 0 (.wait 0) ++ go 0 6 ++ forkInto 3 1 ++ call 3 (.wait 0) ++ go 3 3 ++ go 2 6

/-- The lock of the slot handed out anew closes a circle: process 2 holds it and spins
for the lock of its child 3, which holds that and spins for the lock of its child in slot 1. -/
theorem lock_cycle_reusedParent :
    ∃ s, Reachable (machine (Fin NCPU)) anyStep s ∧ Relation.TransGen (Blocks s) 2 2 := by
  have h : (finish (fun _ _ => true) reusedParent).any fun s =>
      blocksAt s 2 3 2 3 2 3 && blocksAt s 3 2 3 2 3 1 := by decide +kernel
  obtain ⟨s, hr, hb⟩ := Reachable.of_perform (P := anyStep) h rfl fun _ _ _ => trivial
  rw [Bool.and_eq_true] at hb
  refine ⟨s, hr, ?_⟩
  exact .tail (.single (blocks_of_blocksAt hb.1)) (blocks_of_blocksAt hb.2)

end Schedules

end Xv6.Process

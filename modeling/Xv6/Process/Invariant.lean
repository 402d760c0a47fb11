import Xv6.Process.Steps

namespace Xv6.Process

open Lib.Transition

/-- The locks process `p` holds, the one taken last first. -/
def Pc.holds (p : Slot) : Pc → List Slot
  | .user | .exitLock _ _ => []
  | .spin _ k => (k.holds p).tail
  | .visit _ i _ => [i]
  | .waitFound _ i _ => [i, p]
  | .exitWake _ => [initproc]
  | .reparent _ op _ => [p, op]
  | .reparentFound _ op i _ => [i, p, op]
  | .waitScan _ _ _ | .waitDone _ _ | .waitWoken _ | .exitRead _ | .sched _ | .dead
  | .sleep _ | .woken | .yield _ | .resume _ => [p]

def Pc.wants : Pc → Option Slot
  | .spin l _ => some l
  | .exitLock _ op => some op
  | _ => none

def Pc.parked : Pc → Bool
  | .waitWoken _ | .dead | .woken | .resume _ => true
  | _ => false

def Pc.inSched : Pc → Bool
  | .sched _ => true
  | _ => false

theorem Pc.holds_of_parked {k : Pc} (h : k.parked) (p : Slot) : k.holds p = [p] := by
  cases k <;> first | rfl | cases h

theorem Pc.holds_of_inSched {k : Pc} (h : k.inSched) (p : Slot) : k.holds p = [p] := by
  cases k <;> first | rfl | cases h

theorem Pc.not_parked_of_inSched {k : Pc} (h : k.inSched) : k.parked = false := by
  cases k <;> first | rfl | cases h

theorem Pc.holds_of_interruptible {k : Pc} (h : k.interruptible) (p : Slot) : k.holds p = [] := by
  cases k with
  | user | exitLock => rfl
  | spin l k => cases k <;> first | rfl | cases h
  | _ => cases h

theorem Job.holds_next (j : Job) (todo : List Slot) (p : Slot) : (j.next todo).holds p = [] := by
  cases todo <;> rfl

theorem Syscall.holds_enter (x : Syscall) (p : Slot) : (x.enter p).holds p = [] := by
  cases x <;> rfl

variable {C : Type}

def State.held (s : State C) (c : C) : List Slot :=
  match s.cpu c with
  | .scan _ => []
  | .found i _ => [i]
  | .run p _ => (s.pc p).holds p
  | .back p _ => [p]

structure Leaving (s : State C) (p op : Slot) : Prop where
  not_init : p ≠ initproc
  ne : op ≠ p
  not_child : (s.proc op).parent ≠ some p

/-- What process `p` knows at each point of its code. -/
def Sound (s : State C) (p : Slot) : Pc → Prop
  | .spin l k => (k.wants = none ∧ (k.holds p).head? = some l) ∧ Sound s p k
  | .waitFound _ i _ => (s.proc i).parent = some p
  | .exitWake _ | .exitRead _ => p ≠ initproc
  | .exitLock _ op => Leaving s p op
  | .reparent _ op todo => Leaving s p op ∧ ∀ i ∉ todo, (s.proc i).parent ≠ some p
  | .reparentFound _ op i todo =>
    Leaving s p op ∧ (s.proc i).parent = some p ∧ ∀ j, j ≠ i → j ∉ todo → (s.proc j).parent ≠ some p
  | .sched k => k.parked ∧ Sound s p k
  | .dead => p ≠ initproc ∧ ∀ i, (s.proc i).parent ≠ some p
  | .yield k | .resume k => k.interruptible ∧ Sound s p k
  | .user | .visit _ _ _ | .waitScan _ _ _ | .waitDone _ _ | .waitWoken _ | .sleep _ | .woken =>
    True

structure SameChildren (s s' : State C) (q : Slot) : Prop where
  kept : ∀ i, (s.proc i).parent = some q → (s'.proc i).parent = some q
  not_new : q ≠ initproc → ∀ i, (s'.proc i).parent = some q → (s.proc i).parent = some q

theorem SameChildren.of_eq {s s' : State C} (h : ∀ i, (s'.proc i).parent = (s.proc i).parent)
    (q : Slot) : SameChildren s s' q :=
  ⟨fun i hi => (h i).trans hi, fun _ i hi => (h i).symm.trans hi⟩

theorem Leaving.mono {s s' : State C} {p op : Slot} (h : Leaving s p op)
    (hc : SameChildren s s' p) : Leaving s' p op :=
  ⟨h.not_init, h.ne, fun ho => h.not_child (hc.not_new h.not_init op ho)⟩

theorem Sound.mono {s s' : State C} {q : Slot} (hc : SameChildren s s' q) {k : Pc}
    (h : Sound s q k) : Sound s' q k := by
  induction k with
  | spin l k ih | yield k ih | resume k ih | sched k ih => exact ⟨h.1, ih h.2⟩
  | waitFound addr i todo => exact hc.kept i h
  | exitLock status op => exact Leaving.mono h hc
  | reparent status op todo =>
    exact ⟨h.1.mono hc, fun i hi hp => h.2 i hi (hc.not_new h.1.not_init i hp)⟩
  | reparentFound status op i todo =>
    exact ⟨h.1.mono hc, hc.kept i h.2.1,
      fun j hj hn hp => h.2.2 j hj hn (hc.not_new h.1.not_init j hp)⟩
  | dead => exact ⟨h.1, fun i hp => h.2 i (hc.not_new h.1 i hp)⟩
  | user | visit | waitScan | waitDone | waitWoken | exitWake | exitRead | sleep | woken => exact h

structure Tree (s : State C) : Prop where
  older : ∀ i q, (s.proc i).parent = some q → s.birth q < s.birth i
  births : ∀ i, s.birth i < s.births
  init_birth : s.birth initproc = 0
  unused : ∀ i, (s.proc i).state = .unused → (s.proc i).parent = none
  childless : ∀ q i, (s.proc q).state = .unused ∨ (s.proc q).state = .zombie →
    (s.proc i).parent ≠ some q
  init_alive : (s.proc initproc).state ≠ .unused ∧ (s.proc initproc).state ≠ .zombie

structure Threads (s : State C) : Prop where
  locks : ∀ l c, s.lock l = some c ↔ l ∈ s.held c
  unique : ∀ c c' p rest rest', s.cpu c = .run p rest → s.cpu c' = .run p rest' → c = c'
  running : ∀ c p rest, s.cpu c = .run p rest →
    (s.proc p).state = .running ∨ (s.proc p).state ≠ .unused ∧ (s.pc p).inSched
  parked : ∀ p, (s.proc p).state = .runnable ∨ (s.proc p).state = .sleeping →
    (s.pc p).parked ∨ (s.pc p).inSched
  active : ∀ p, (s.pc p).holds p = [] ∨ (s.pc p).parked ∨ ∃ c rest, s.cpu c = .run p rest
  sound : ∀ p, Sound s p (s.pc p)

structure Inv (s : State C) : Prop where
  tree : Tree s
  threads : Threads s

inductive StateChange (s : State C) (p i : Slot) : ProcState → ProcState → Prop where
  | same (x : ProcState) : StateChange s p i x x
  | wake : StateChange s p i .sleeping .runnable
  | switch : StateChange s p i .runnable .running
  | sleep (h : i = p) : StateChange s p i .running .sleeping
  | yield (h : i = p) : StateChange s p i .running .runnable
  | exit (h : i = p) (hn : p ≠ initproc) (hc : ∀ j, (s.proc j).parent ≠ some p) :
      StateChange s p i .running .zombie

inductive Change (s s' : State C) (c : C) (p i : Slot) : Prop where
  | keep (hs : StateChange s p i (s.proc i).state (s'.proc i).state)
      (hp : (s'.proc i).parent = (s.proc i).parent) (hb : s'.birth i = s.birth i)
  | fork (h : (s.proc i).state = .unused) (hl : s.lock i = some c)
      (hr : (s.proc p).state = .running) (hr' : (s'.proc p).state = .running)
      (hs : (s'.proc i).state = .runnable) (hp : (s'.proc i).parent = some p)
      (hb : s'.birth i = s.births) (hn : s'.births = s.births + 1) (hk : s'.pc i = .resume .user)
  | free (h : (s.proc i).state = .unused ∨ (s.proc i).state = .zombie ∧ (s.proc i).parent = some p)
      (hl : s.lock i = some c) (hs : (s'.proc i).state = .unused)
      (hp : (s'.proc i).parent = none) (hb : s'.birth i = s.birth i)
  | give (h : (s.proc i).parent = some p) (hn : p ≠ initproc)
      (hs : (s'.proc i).state = (s.proc i).state)
      (hp : (s'.proc i).parent = some initproc) (hb : s'.birth i = s.birth i)

section Tree

variable {s s' : State C} {c : C} {p : Slot}

theorem Tree.parent_ne (h : Tree s) {i q : Slot} (hi : (s.proc i).parent = some q) : q ≠ i := by
  rintro rfl
  exact absurd (h.older q q hi) (lt_irrefl _)

theorem Change.birth_eq {q : Slot} (hc : Change s s' c p q) (hq : (s.proc q).state ≠ .unused) :
    s'.birth q = s.birth q := by
  cases hc with
  | keep _ _ hb | free _ _ _ _ hb | give _ _ _ _ hb => exact hb
  | fork h => exact absurd h hq

theorem StateChange.gone {i : Slot} {x y : ProcState} (h : StateChange s p i x y)
    (hy : y = .unused ∨ y = .zombie) :
    (x = .unused ∨ x = .zombie) ∨ i ≠ initproc ∧ ∀ j, (s.proc j).parent ≠ some i := by
  cases h with
  | same => exact Or.inl hy
  | exit h hn hc =>
    subst h
    exact Or.inr ⟨hn, hc⟩
  | wake | switch | sleep | yield => simp at hy

theorem StateChange.eq_unused {i : Slot} {x : ProcState} (h : StateChange s p i x .unused) :
    x = .unused := by
  cases h
  rfl

theorem StateChange.of_unused {i : Slot} {y : ProcState} (h : StateChange s p i .unused y) :
    y = .unused := by
  cases h
  rfl

theorem StateChange.eq_of_ne {i : Slot} {x y : ProcState} (h : StateChange s p i x y) (hi : i ≠ p)
    (hx : x = .running ∨ x = .zombie) : y = x := by
  cases h with
  | same => rfl
  | sleep h | yield h | exit h => exact absurd h hi
  | wake | switch => simp at hx

theorem StateChange.resting_of_ne {i : Slot} {x y : ProcState} (h : StateChange s p i x y)
    (hi : i ≠ p) (hy : y = .runnable ∨ y = .sleeping) : x = .runnable ∨ x = .sleeping := by
  cases h with
  | same => exact hy
  | sleep h | yield h | exit h => exact absurd h hi
  | wake => exact Or.inr rfl
  | switch => simp at hy

theorem Tree.older_step (h : Tree s) (hc : ∀ i, Change s s' c p i) (i q : Slot)
    (hq : (s'.proc i).parent = some q) : s'.birth q < s'.birth i := by
  cases hc i with
  | keep hs hp hb =>
    rw [hp] at hq
    have hu : (s.proc q).state ≠ .unused := fun hu => h.childless q i (Or.inl hu) hq
    rw [(hc q).birth_eq hu, hb]
    exact h.older i q hq
  | fork _ _ hr _ _ hp hb =>
    obtain rfl : p = q := Option.some.inj (hp.symm.trans hq)
    rw [(hc p).birth_eq (by simp [hr]), hb]
    exact h.births p
  | free _ _ _ hp => simp [hp] at hq
  | give hi _ _ hp hb =>
    obtain rfl : initproc = q := Option.some.inj (hp.symm.trans hq)
    rw [(hc initproc).birth_eq h.init_alive.1, hb, h.init_birth]
    exact (Nat.zero_le _).trans_lt (h.older i p hi)

theorem Tree.init_alive_step (h : Tree s) (hc : Change s s' c p initproc) :
    ¬ ((s'.proc initproc).state = .unused ∨ (s'.proc initproc).state = .zombie) := by
  have halive : ¬ ((s.proc initproc).state = .unused ∨ (s.proc initproc).state = .zombie) :=
    not_or.mpr h.init_alive
  intro hgone
  cases hc with
  | keep hs => exact (hs.gone hgone).elim halive (fun hne => hne.1 rfl)
  | fork hu => exact halive (Or.inl hu)
  | free hu => exact halive (hu.imp_right And.left)
  | give _ _ hs => exact halive (hs ▸ hgone)

theorem Tree.childless_step (h : Tree s) (hc : ∀ i, Change s s' c p i) (q i : Slot)
    (hq : (s'.proc q).state = .unused ∨ (s'.proc q).state = .zombie) :
    (s'.proc i).parent ≠ some q := by
  have hold : ∀ j, (s.proc j).parent ≠ some q := by
    intro j
    cases hc q with
    | keep hs => exact (hs.gone hq).elim (h.childless q j) (fun hne => hne.2 j)
    | fork hu => exact h.childless q j (Or.inl hu)
    | free hu => exact h.childless q j (hu.imp_right And.left)
    | give _ _ hs => exact h.childless q j (hs ▸ hq)
  intro hi
  cases hc i with
  | keep _ hp => exact hold i (hp.symm.trans hi)
  | fork _ _ _ hr' _ hp =>
    obtain rfl : p = q := Option.some.inj (hp.symm.trans hi)
    simp [hr'] at hq
  | free _ _ _ hp => simp [hp] at hi
  | give _ _ _ hp =>
    obtain rfl : initproc = q := Option.some.inj (hp.symm.trans hi)
    exact h.init_alive_step (hc initproc) hq

theorem Tree.unused_step (h : Tree s) {i : Slot} (hc : Change s s' c p i)
    (hi : (s'.proc i).state = .unused) : (s'.proc i).parent = none := by
  cases hc with
  | keep hs hp =>
    rw [hi] at hs
    exact hp.trans (h.unused i hs.eq_unused)
  | fork _ _ _ _ hs => simp [hs] at hi
  | free _ _ _ hp => exact hp
  | give hpar _ hs => simp [h.unused i (hs ▸ hi)] at hpar

theorem Tree.births_step (h : Tree s) {i : Slot} (hc : Change s s' c p i)
    (hle : s.births ≤ s'.births) : s'.birth i < s'.births := by
  cases hc with
  | keep _ _ hb | free _ _ _ _ hb | give _ _ _ _ hb => exact hb ▸ (h.births i).trans_le hle
  | fork _ _ _ _ _ _ hb hn => omega

theorem Tree.step (h : Tree s) (hc : ∀ i, Change s s' c p i) (hle : s.births ≤ s'.births) :
    Tree s' where
  older := h.older_step hc
  births i := h.births_step (hc i) hle
  init_birth := ((hc initproc).birth_eq h.init_alive.1).trans h.init_birth
  unused i := h.unused_step (hc i)
  childless := h.childless_step hc
  init_alive := not_or.mp (h.init_alive_step (hc initproc))

theorem Tree.sameChildren (h : Tree s) (hc : ∀ i, Change s s' c p i) {q : Slot} (hq : q ≠ p) :
    SameChildren s s' q := by
  constructor
  · intro i hi
    cases hc i with
    | keep _ hp => exact hp.trans hi
    | fork hu => simp [h.unused i hu] at hi
    | free hu =>
      obtain hu | ⟨_, hp⟩ := hu
      · simp [h.unused i hu] at hi
      · exact absurd (Option.some.inj (hi.symm.trans hp)) hq
    | give hp => exact absurd (Option.some.inj (hi.symm.trans hp)) hq
  · intro hn i hi
    cases hc i with
    | keep _ hp => exact hp.symm.trans hi
    | fork _ _ _ _ _ hp => exact absurd (Option.some.inj (hi.symm.trans hp)) hq
    | free _ _ _ hp => simp [hp] at hi
    | give _ _ _ hp => exact absurd (Option.some.inj (hi.symm.trans hp)) hn

end Tree

end Xv6.Process

import Xv6.Process.Clean
import Xv6.Process.Reaping

namespace Xv6.Process

open Lib.Transition

section Pids

variable {C : Type} [DecidableEq C] {s s' : State C} {c : C} {p i : Slot} {rest : List Slot}

/-- `allocpid` has not come to the end of the numbers. -/
def pidLeft (s : State C) (_ : Act C) : Bool := s.nextpid < Int32.maxValue

structure Pids (s : State C) : Prop where
  lt_next : ∀ i, (s.proc i).pid < s.nextpid
  pos : ∀ i, (s.proc i).state ≠ .unused → 0 < (s.proc i).pid
  inj : ∀ i j, (s.proc i).pid = (s.proc j).pid → 0 < (s.proc i).pid → i = j

theorem lt_succ {x n : Int32} (hn : n < Int32.maxValue) (h : x ≤ n) : x < n + 1 := by
  rw [Int32.lt_iff_toInt_lt] at hn ⊢
  rw [Int32.le_iff_toInt_le] at h
  have hmax : Int32.maxValue.toInt = 2147483647 := rfl
  have hone : (1 : Int32).toInt = 1 := rfl
  have hmin := n.le_toInt
  rw [Int32.toInt_add, Int.bmod_eq_of_le] <;> omega

omit [DecidableEq C] in
theorem Edit.pid_cases {y : Proc} (h : Edit s c p i y) (hp : (s.proc p).state ≠ .unused) :
    y.pid = (s.proc i).pid ∧ ((s.proc i).state = .unused → y.state = .unused) ∨
      y.pid = 0 ∧ y.state = .unused ∨
      y.pid = s.nextpid ∧ (s.proc i).state = .unused ∧ ∃ todo, s.pc p = .visit .alloc i todo := by
  cases h with
  | same | fault | tidy | give => exact .inl ⟨rfl, id⟩
  | own x => cases x <;> exact .inl ⟨rfl, id⟩
  | noTrapframe todo hpc _ hu | fork todo hpc _ hu => exact .inr (.inr ⟨rfl, hu, todo, hpc⟩)
  | noMemory | reap => exact .inr (.inl ⟨rfl, rfl⟩)
  | kill =>
    unfold Proc.kill
    exact .inl ⟨rfl, fun hu => by simp [hu]⟩
  | wakeup chan =>
    refine .inl ⟨?_, fun hu => by rw [Proc.wakeup_of_unused hu, hu]⟩
    unfold Proc.wakeup
    split <;> rfl
  | wakeup1 =>
    refine .inl ⟨?_, fun hu => by rw [Proc.wakeup1_of_unused hu, hu]⟩
    unfold Proc.wakeup1
    split <;> rfl
  | sleep _ hi | yield hi | exit _ _ hi => exact .inl ⟨rfl, fun hu => absurd (hi ▸ hu) hp⟩

theorem ProcStep.nextpid (hp : ProcStep s c p rest s') : s'.nextpid = s.nextpid + 1 ∨
    s'.nextpid = s.nextpid ∧ ∀ i todo, s.pc p = .visit .alloc i todo → (s.proc i).state ≠ .unused := by
  cases hp with
  | noTrapframe | noMemory | fork => exact .inl rfl
  | allocUsed h hi =>
    refine .inr ⟨rfl, fun j todo hj => ?_⟩
    cases h.symm.trans hj
    exact hi
  | timer h =>
    refine .inr ⟨rfl, fun j todo hj => ?_⟩
    rw [hj] at h
    cases h
  | _ h => exact .inr ⟨rfl, fun j todo hj => by cases h.symm.trans hj⟩

theorem Pids.proc (h : Pids s) (hi : Inv s) (hok : s.nextpid < Int32.maxValue)
    (hr : s.cpu c = .run p rest) (hp : ProcStep s c p rest s') : Pids s' := by
  have hu := hi.threads.not_unused_of_executes ⟨rest, hr⟩
  have hedit := fun i => (hp.edit hi i).pid_cases hu
  have hlt := h.lt_next initproc
  have hpos := h.pos initproc hi.tree.init_alive.1
  have hzero : (0 : Int32) < s.nextpid := Int32.lt_trans hpos hlt
  have hle : s.nextpid ≤ s'.nextpid := by
    obtain hn | ⟨hn, -⟩ := hp.nextpid <;> rw [hn]
    · exact Int32.le_of_lt (lt_succ hok (Int32.le_refl _))
    · exact Int32.le_refl _
  -- the new pid goes to the one slot that `p` has locked in `allocproc`
  have hnew : ∀ i, (s'.proc i).pid = s.nextpid → (∃ todo, s.pc p = .visit .alloc i todo) ∧
      s'.nextpid = s.nextpid + 1 := by
    intro i he
    obtain ⟨hk, -⟩ | ⟨h0, -⟩ | ⟨-, hun, todo, hpc⟩ := hedit i
    · exact absurd (hk.symm.trans he) (Int32.ne_of_lt (h.lt_next i))
    · exact absurd (h0.symm.trans he) (Int32.ne_of_lt hzero)
    · exact ⟨⟨todo, hpc⟩, hp.nextpid.resolve_right fun hn => hn.2 i todo hpc hun⟩
  constructor
  · intro i
    obtain ⟨hk, -⟩ | ⟨h0, -⟩ | ⟨he, -⟩ := hedit i
    · rw [hk]
      exact Int32.lt_of_lt_of_le (h.lt_next i) hle
    · rw [h0]
      exact Int32.lt_of_lt_of_le hzero hle
    · rw [(hnew i he).2, he]
      exact lt_succ hok (Int32.le_refl _)
  · intro i hs
    obtain ⟨hk, hun⟩ | ⟨-, hun⟩ | ⟨he, -⟩ := hedit i
    · rw [hk]
      exact h.pos i (mt hun hs)
    · exact absurd hun hs
    · rwa [he]
  · intro i j hij h0
    obtain ⟨hk, -⟩ | ⟨hz, -⟩ | ⟨he, -⟩ := hedit i
    · obtain ⟨hk', -⟩ | ⟨hz', -⟩ | ⟨he', -⟩ := hedit j
      · exact h.inj i j (hk ▸ hk' ▸ hij) (hk ▸ h0)
      · exact absurd (hij.trans hz').symm (Int32.ne_of_lt h0)
      · exact absurd (hk.symm.trans (hij.trans he')) (Int32.ne_of_lt (h.lt_next i))
    · exact absurd hz.symm (Int32.ne_of_lt h0)
    · obtain ⟨⟨_, hpc⟩, -⟩ := hnew i he
      obtain ⟨⟨_, hpc'⟩, -⟩ := hnew j (hij ▸ he)
      cases hpc.symm.trans hpc'
      rfl

theorem Pids.step (h : Pids s) (hi : Inv s) (hok : s.nextpid < Int32.maxValue) (hs : Step s c s') :
    Pids s' := by
  have hnext : (∀ p rest, s.cpu c ≠ .run p rest) → s'.nextpid = s.nextpid := by
    intro hc
    cases hs with
    | proc hr => exact absurd hr (hc _ _)
    | rescan | lock | skip | back | switch => rfl
  obtain ⟨hc, hsch⟩ | ⟨p, rest, hr, hp⟩ := hs.scheduled
  · have hpid := hsch.field Proc.pid fun _ => rfl
    constructor
    · intro i
      rw [hpid, hnext hc]
      exact h.lt_next i
    · intro i hu
      rw [hpid]
      exact h.pos i (mt (hsch.unused_iff i).mpr hu)
    · intro i j
      rw [hpid, hpid]
      exact h.inj i j
  · exact h.proc hi hok hr hp

omit [DecidableEq C] in
theorem Pids.boot : Pids (State.boot C) := by
  have hinit : ∀ i, 0 < ((State.boot C).proc i).pid → i = initproc := by
    intro i h0
    by_contra hi
    simp [State.boot, hi, Proc.free] at h0
  constructor
  · intro i
    by_cases hi : i = initproc <;> simp [State.boot, hi, Proc.free]
  · intro i hu
    by_cases hi : i = initproc
    · rw [hi]
      change (0 : Int32) < 1
      decide
    · simp [State.boot, hi, Proc.free] at hu
  · intro i j hij h0
    exact (hinit i h0).trans (hinit j (hij ▸ h0)).symm

/-- As long as `nextpid` has not come to its end, the processes have different pids, all of them
positive: `kill` and the result of `wait` speak about one process. -/
theorem pid_names_one_process (h : Reachable (machine C) (pidLeft · ·) s) :
    (∀ i, (s.proc i).state ≠ .unused → 0 < (s.proc i).pid) ∧
      ∀ i j, (s.proc i).state ≠ .unused → (s.proc i).pid = (s.proc j).pid → i = j := by
  have hinv : Inv s ∧ Pids s := by
    refine h.invariant (I := fun s => Inv s ∧ Pids s) ?_ ?_
    · rintro _ rfl
      exact ⟨.boot, .boot⟩
    · rintro s a s' ⟨hi, hp⟩ hok hn
      exact ⟨hi.step (step_of_next hn), hp.step hi (of_decide_eq_true hok) (step_of_next hn)⟩
  exact ⟨hinv.2.pos, fun i j hu hij => hinv.2.inj i j hij (hinv.2.pos i hu)⟩

end Pids

theorem pid_names_one_process_forkTwice :
    ∃ s, Reachable (machine (Fin NCPU)) (pidLeft · ·) s ∧ (s.proc 1).state ≠ .unused ∧
      0 < (s.proc 1).pid := by
  have h : (finish pidLeft forkTwice).any fun s => (s.proc 1).state ≠ .unused := by decide +kernel
  obtain ⟨s, hr, hu⟩ := Reachable.of_perform h rfl fun _ _ => id
  exact ⟨s, hr, of_decide_eq_true hu, (pid_names_one_process hr).1 1 (of_decide_eq_true hu)⟩

section Tree

variable {C : Type} [DecidableEq C] {s : State C} {i q : Slot}

def State.childOf (s : State C) (i q : Slot) : Prop := (s.proc i).parent = some q

omit [DecidableEq C] in
theorem Tree.ancestor (h : Tree s) (hq : Relation.TransGen s.childOf i q) :
    s.birth q < s.birth i ∧ (s.proc q).state ≠ .unused ∧ (s.proc q).state ≠ .zombie := by
  have halive : ∀ {j r}, s.childOf j r → s.birth r < s.birth j ∧ (s.proc r).state ≠ .unused ∧
      (s.proc r).state ≠ .zombie := fun {j r} hr =>
    ⟨h.older j r hr, fun hu => h.childless r j (.inl hu) hr, fun hz => h.childless r j (.inr hz) hr⟩
  induction hq with
  | single hr => exact halive hr
  | tail _ hr ih => exact ⟨(halive hr).1.trans ih.1, (halive hr).2⟩

omit [DecidableEq C] in
theorem Tree.descends {es : List Event} (h : Tree s) (hh : History es s)
    (hu : (s.proc i).state ≠ .unused) : Relation.ReflTransGen s.childOf i initproc := by
  generalize hn : s.birth i = n
  induction n using Nat.strong_induction_on generalizing i with
  | h n ih =>
    by_cases hi : i = initproc
    · rw [hi]
    · obtain ⟨q, hq⟩ := hh.parent i hi hu
      obtain ⟨hlt, hq', -⟩ := h.ancestor (.single hq)
      exact .head hq (ih _ (hn ▸ hlt) hq' rfl)

/-- The processes form a tree: from each one the parents lead to `initproc`, through processes that
have not exited, and never back. -/
theorem parents_lead_to_init (h : Reachable (machine C) anyStep s)
    (hu : (s.proc i).state ≠ .unused) :
    Relation.ReflTransGen s.childOf i initproc ∧ ∀ q, Relation.TransGen s.childOf i q →
      q ≠ i ∧ (s.proc q).state ≠ .unused ∧ (s.proc q).state ≠ .zombie := by
  obtain ⟨τ, hr⟩ := h
  obtain ⟨es, ho⟩ := hr.observed see
  obtain ⟨hi, hh⟩ := History.of_observed ho
  refine ⟨hi.tree.descends hh hu, fun q hq => ?_⟩
  obtain ⟨hlt, hlive⟩ := hi.tree.ancestor hq
  refine ⟨?_, hlive⟩
  rintro rfl
  exact Nat.lt_irrefl _ hlt

end Tree

theorem parents_lead_to_init_forkTwice :
    ∃ s, Reachable (machine (Fin NCPU)) anyStep s ∧
      Relation.ReflTransGen s.childOf 1 initproc := by
  have h : (finish (fun _ _ => true) forkTwice).any fun s => (s.proc 1).state ≠ .unused := by
    decide +kernel
  obtain ⟨s, hr, hu⟩ := Reachable.of_perform (P := anyStep) h rfl fun _ _ _ => trivial
  exact ⟨s, hr, (parents_lead_to_init hr (of_decide_eq_true hu)).1⟩

end Xv6.Process

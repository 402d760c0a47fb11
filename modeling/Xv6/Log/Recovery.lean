import Xv6.Log.Crash
import Xv6.Log.Operations

namespace Xv6.Log

open Lib.Transition Lib.WriteTrace

variable {P : Type} [DecidableEq P] {lg : LogArea} {s s' : State P} {p : P} {target d₀ : Disk}

def booted (P : Type) [DecidableEq P] (lg : LogArea) (d₀ : Disk) : Machine (State P) (Act P) Panic :=
  ⟨(· = State.boot P d₀), next lg⟩

def Act.isUint : Act P → Bool
  | .logWrite _ b _ => b < 2 ^ 32
  | _ => true

def logsHome (lg : LogArea) (s : State P) (a : Act P) : Bool := atomicHome lg s a && a.isUint

def view (d₀ : Disk) (τ : List (Act P)) : Disk := fun b => (lastLogged τ b).getD (d₀ b)

def Pc.installing : Pc → Bool
  | .commit (.installTrans _) | .commit .clearHead => true
  | _ => false

structure Stable (lg : LogArea) (target : Disk) (s : State P) : Prop where
  clean : (∀ p, (s.pc p).installing = false) → Clean lg target s.disk
  logged : ∀ p, (s.pc p).installing = true → ∃ bs, Logged lg bs target s.disk ∧
    (s.lh = bs ∨ s.lh = []) ∧ ∀ b, ¬ lg.Contains b → s.mem b = target b

theorem Pc.inCommit_of_installing {c : Pc} (h : c.installing = true) : c.inCommit = 1 := by
  cases c with
  | commit c => rfl
  | _ => cases h

theorem installing_update {c : Pc} (h : (s.pc p).installing = c.installing) (q : P) :
    (Function.update s.pc p c q).installing = (s.pc q).installing := by
  by_cases hq : q = p
  · rw [hq, Function.update_self, h]
  · rw [Function.update_of_ne hq]

theorem installing_wakeup {c : Pc} (h : (s.pc p).installing = c.installing) (q : P) :
    (Function.update s.wakeup.pc p c q).installing = (s.pc q).installing := by
  have hw : ∀ c : Pc, c.wakeup.installing = c.installing := by rintro ⟨⟩ <;> rfl
  exact (installing_update ((hw _).trans h) q).trans (hw _)

omit [DecidableEq P] in
theorem Stable.durable (h : Stable lg target s) : Durable lg target s.disk := by
  by_cases hp : ∃ p, (s.pc p).installing = true
  · obtain ⟨p, hp⟩ := hp
    obtain ⟨bs, hl, -⟩ := h.logged p hp
    exact .inr ⟨bs, hl⟩
  · push Not at hp
    exact .inl (h.clean fun p => Bool.eq_false_of_not_eq_true (hp p))

omit [DecidableEq P] in
theorem Stable.move (h : Stable lg target s) (hd : s'.disk = s.disk)
    (hpc : ∀ q, (s'.pc q).installing = (s.pc q).installing)
    (hm : ∀ q, (s.pc q).installing = true → s'.mem = s.mem ∧ s'.lh = s.lh) : Stable lg target s' := by
  constructor
  · intro hq
    rw [hd]
    exact h.clean fun q => (hpc q).symm.trans (hq q)
  · intro q hq
    rw [hpc] at hq
    obtain ⟨hmem, hlh⟩ := hm q hq
    rw [hd, hmem, hlh]
    exact h.logged q hq

section Commit

variable [Fintype P] (hcnt : Counts s) (hin : (s.pc p).inCommit = 1)

include hcnt hin

theorem not_installing_of_ne {q : P} (hq : q ≠ p) : (s.pc q).installing = false := by
  have h0 := hcnt.only_committer hin hq
  cases hi : (s.pc q).installing with
  | false => rfl
  | true =>
    rw [Pc.inCommit_of_installing hi] at h0
    cases h0

theorem Stable.clean_of_committer (h : Stable lg target s) (hp : (s.pc p).installing = false) :
    Clean lg target s.disk := by
  apply h.clean
  intro q
  by_cases hq : q = p
  · rw [hq, hp]
  · exact not_installing_of_ne hcnt hin hq

theorem Stable.of_committer {c : Pc} (hpc : s'.pc = Function.update s.pc p c)
    (hclean : c.installing = false → Clean lg target s'.disk)
    (hlogged : c.installing = true → ∃ bs, Logged lg bs target s'.disk ∧
      (s'.lh = bs ∨ s'.lh = []) ∧ ∀ b, ¬ lg.Contains b → s'.mem b = target b) :
    Stable lg target s' := by
  constructor
  · intro hq
    have hp := hq p
    rw [hpc, Function.update_self] at hp
    exact hclean hp
  · intro q hq
    by_cases hqp : q = p
    · rw [hqp, hpc, Function.update_self] at hq
      exact hlogged hq
    · rw [hpc, Function.update_of_ne hqp, not_installing_of_ne hcnt hin hqp] at hq
      cases hq

end Commit

theorem Clean.write_data (h : Clean lg target d₀) {i : Nat} (hi : i + 1 < lg.size) (x : Block) :
    Clean lg target (Function.update d₀ (lg.start + i + 1) x) := by
  constructor
  · rw [Function.update_of_ne (by omega)]
    exact h.head
  · intro b hb
    have hne : b ≠ lg.start + i + 1 := by
      rintro rfl
      exact hb (lg.contains_data hi)
    rw [Function.update_of_ne hne]
    exact h.home b hb

structure Storable (s : State P) : Prop where
  length_le : s.lh.length ≤ LOGSIZE
  isUint : ∀ b ∈ s.lh, b < 2 ^ 32

theorem Storable.step {a : Act P} (h : Storable s) (hok : a.isUint = true)
    (hlog : ∀ q b, a ≠ .logStore q b) (hs : Step lg s a s') : Storable s' := by
  cases hs with
  | callBegin | sleep | start | spurious | logCheck | endLast | endOther | endCommit =>
    exact ⟨h.length_le, h.isUint⟩
  | logStore => exact absurd rfl (hlog _ _)
  | @logWrite p op b v hp hc =>
    have hlt : s.lh.length < LOGSIZE := by
      unfold logCheck at hc
      split at hc
      · cases hc
      · omega
    constructor
    · change (logBlock s.lh b).length ≤ LOGSIZE
      unfold logBlock
      split
      · exact h.length_le
      · rw [List.length_append]
        exact hlt
    · intro c hcb
      obtain hcb | rfl := mem_logBlock.mp hcb
      · exact h.isUint c hcb
      · exact of_decide_eq_true hok
  | @commit p c hp =>
    obtain hl | hl := commitStep_lh lg s p c
    · exact ⟨by rw [hl]; exact h.length_le, by rw [hl]; exact h.isUint⟩
    · exact ⟨by rw [hl]; exact Nat.zero_le _, by simp [hl]⟩

variable [Fintype P]

theorem Stable.writeHead (hinv : Inv s) (hd : Data lg s) (hst : Storable s)
    (hp : s.pc p = .commit .writeHead) : Stable lg s.mem (commitStep lg s p .writeHead) := by
  have hin : (s.pc p).inCommit = 1 := by rw [hp]; rfl
  have hprog := hd.progress p
  rw [hp] at hprog
  refine .of_committer hinv.counts hin (commitStep_pc lg s p _) (fun hc => by cases hc) fun _ => ?_
  refine ⟨s.lh, ⟨hd.fits, hd.outside, ?_, fun i hi => ?_, fun b hb hbl => ?_⟩, .inl rfl,
    fun _ _ => rfl⟩
  · change readHead (Function.update s.disk lg.start _ lg.start) = _
    rw [Function.update_self]
    exact readHead_putHead ⟨s.lh, hst.length_le, hst.isUint⟩ _
  · change Function.update s.disk lg.start _ (lg.start + i + 1) = _
    rw [Function.update_of_ne (by omega)]
    exact hprog i hi
  · have hne : b ≠ lg.start := by
      rintro rfl
      exact hb lg.contains_start
    change Function.update s.disk lg.start _ b = _
    rw [Function.update_of_ne hne]
    exact hd.home b hb hbl

theorem Stable.commitStep (h : Stable lg target s) (hinv : Inv s) (hd : Data lg s) {c : CommitPc}
    (hp : s.pc p = .commit c) (hc : c ≠ .writeHead) : Stable lg target (commitStep lg s p c) := by
  have hin : (s.pc p).inCommit = 1 := by rw [hp]; rfl
  have hpc := commitStep_pc lg s p c
  refine .of_committer hinv.counts hin hpc ?_ ?_
  · intro hc'
    cases c with
    | start =>
      have hclean := h.clean_of_committer hinv.counts hin (by rw [hp]; rfl)
      exact hclean
    | writeLog tail =>
      have hclean := h.clean_of_committer hinv.counts hin (by rw [hp]; rfl)
      cases htail : s.lh[tail]? with
      | none =>
        simp only [Log.commitStep, htail]
        exact hclean
      | some b =>
        obtain ⟨hlt, -⟩ := List.getElem?_eq_some_iff.mp htail
        have hfit := hd.fits
        simp only [Log.commitStep, htail]
        exact hclean.write_data (by omega) _
    | writeHead => exact absurd rfl hc
    | installTrans tail => cases htail : s.lh[tail]? <;> simp [commitNext, htail, Pc.installing] at hc'
    | clearHead =>
      obtain ⟨bs, -, -, hmem⟩ := h.logged p (by rw [hp]; rfl)
      have hlh := hinv.tidy.cleared p (.inl hp)
      change Clean lg target (Function.update s.disk lg.start (putHead s.lh (s.disk lg.start)))
      rw [hlh]
      refine Clean.write_empty fun b hb => ?_
      rw [hd.home b hb (by simp [hlh]), hmem b hb]
  · intro hc'
    cases c with
    | start =>
      simp only [commitNext] at hc'
      split at hc' <;> cases hc'
    | writeLog tail => cases htail : s.lh[tail]? <;> simp [commitNext, htail, Pc.installing] at hc'
    | writeHead => exact absurd rfl hc
    | installTrans tail =>
      obtain ⟨bs, hl, hbs, hmem⟩ := h.logged p (by rw [hp]; rfl)
      rw [hd.commitStep_mem hp]
      cases htail : s.lh[tail]? with
      | none =>
        simp only [Log.commitStep, htail]
        exact ⟨bs, hl, .inr rfl, hmem⟩
      | some b =>
        obtain ⟨hlt, rfl⟩ := List.getElem?_eq_some_iff.mp htail
        obtain rfl | hnil := hbs
        · simp only [Log.commitStep, htail]
          exact ⟨s.lh, hl.install hlt, .inl rfl, hmem⟩
        · simp [hnil] at hlt
    | clearHead => cases hc'

/-- Nothing is left to be logged: the disk is what the processes see. -/
theorem Stable.endCommit (h : Stable lg target s) (hinv : Inv s) (hd : Data lg s)
    (hp : s.pc p = .finish) :
    Stable lg s.mem ({ s with committing := false }.wakeup.setPc p .idle) := by
  have hin : (s.pc p).inCommit = 1 := by rw [hp]; rfl
  have hlh := hinv.tidy.cleared p (.inr hp)
  have hclean := h.clean_of_committer hinv.counts hin (by rw [hp]; rfl)
  constructor
  · intro _
    exact ⟨hclean.head, fun b hb => hd.home b hb (by simp [hlh])⟩
  · intro q hq
    have hq' := (installing_wakeup (by rw [hp]; rfl) q).symm.trans hq
    by_cases hqp : q = p
    · rw [hqp, hp] at hq'
      cases hq'
    · rw [not_installing_of_ne hinv.counts hin hqp] at hq'
      cases hq'

theorem Stable.step (h : Stable lg target s) (hinv : Inv s) (hd : Data lg s) {a : Act P}
    (hok : atomicHome lg s a) (hs : Step lg s a s')
    (hc : ∀ p, a = .commit p → s.pc p ≠ .commit .writeHead) : Stable lg target s' := by
  cases hs with
  | callBegin hp | sleep hp | start hp | spurious hp | endLast hp =>
    exact h.move rfl (installing_update (by rw [hp]; rfl)) fun _ _ => ⟨rfl, rfl⟩
  | logCheck | logStore => cases hok
  | @logWrite p _ _ _ hp =>
    refine h.move rfl (installing_update (by rw [hp]; rfl)) fun q hq => ?_
    have hnone := hinv.counts.no_op (Pc.inCommit_of_installing hq) p
    rw [hp] at hnone
    cases hnone
  | endOther hp | endCommit hp =>
    exact h.move rfl (installing_wakeup (by rw [hp]; rfl)) fun _ _ => ⟨rfl, rfl⟩
  | @commit p c hp =>
    refine h.commitStep hinv hd hp ?_
    rintro rfl
    exact hc p rfl hp

omit [Fintype P] in
theorem mem_step (hd : Data lg s) {a : Act P} {τ : List (Act P)} (h : s.mem = view d₀ τ)
    (hok : atomicHome lg s a) (hs : Step lg s a s') : s'.mem = view d₀ (a :: τ) := by
  cases hs with
  | callBegin | sleep | start | spurious | endLast | endOther | endCommit => exact h
  | logCheck | logStore => cases hok
  | @logWrite p op b v =>
    funext c
    change Function.update s.mem b v c = (if c = b then some v else lastLogged τ c).getD (d₀ c)
    by_cases hcb : c = b
    · rw [hcb, Function.update_self, if_pos rfl]
      rfl
    · rw [Function.update_of_ne hcb, if_neg hcb, h]
      rfl
  | commit hp => exact (hd.commitStep_mem hp).trans h

def Kept (lg : LogArea) (d₀ : Disk) (τ : List (Act P)) (s : State P) : Prop :=
  ∃ τ₁ τ₂ s₁, τ = τ₂ ++ τ₁ ∧ Run (booted P lg d₀) (logsHome lg · ·) τ₁ s₁ ∧
    (∀ q, (s₁.pc q).op? = none) ∧ (∀ q, .endCommit q ∉ τ₂) ∧ Stable lg (view d₀ τ₁) s

omit [Fintype P] in
theorem Kept.now {τ : List (Act P)} (hr : Run (booted P lg d₀) (logsHome lg · ·) τ s)
    (hop : ∀ q, (s.pc q).op? = none) (h : Stable lg (view d₀ τ) s) : Kept lg d₀ τ s :=
  ⟨τ, [], s, rfl, hr, hop, by simp, h⟩

theorem kept_of_run (hempty : readHead (d₀ lg.start) = []) {τ : List (Act P)}
    (h : Run (booted P lg d₀) (logsHome lg · ·) τ s) :
    Inv s ∧ Data lg s ∧ Storable s ∧ s.mem = view d₀ τ ∧ Kept lg d₀ τ s := by
  induction h with
  | start h =>
    cases h
    have hinit := init_boot (P := P) d₀
    refine ⟨.init hinit, .init hinit, ⟨Nat.zero_le _, fun b hb => by cases hb⟩, rfl,
      .now (.start rfl) (fun _ => rfl) ?_⟩
    exact ⟨fun _ => ⟨hempty, fun _ _ => rfl⟩, fun p hp => by cases hp⟩
  | @step τ s s' a hr hok hn ih =>
    obtain ⟨hinv, hd, hst, hmem, hkept⟩ := ih
    obtain ⟨hhome, huint⟩ := (Bool.and_eq_true _ _).mp hok
    have hn : next lg s a = .done s' := hn
    have hs := step_of_next hn
    have hr' := hr.step hok hn
    have hnostore : ∀ q b, a ≠ .logStore q b := by
      rintro q b rfl
      cases hhome
    refine ⟨hinv.step hs, hd.step hinv hhome hs, hst.step huint hnostore hs,
      mem_step hd hmem hhome hs, ?_⟩
    by_cases hhead : ∃ p, a = .commit p ∧ s.pc p = .commit .writeHead
    · -- the commit point
      obtain ⟨p, rfl, hp⟩ := hhead
      have hin : (s.pc p).inCommit = 1 := by rw [hp]; rfl
      have hstable := Stable.writeHead hinv hd hst hp
      rw [hmem] at hstable
      cases hs with
      | commit hp' =>
        obtain rfl : _ = CommitPc.writeHead := Pc.commit.inj (hp'.symm.trans hp)
        exact .now hr' (no_op_during_commit hinv hin hn).1 hstable
    · push Not at hhead
      obtain ⟨τ₁, τ₂, s₁, rfl, hr₁, hop, hend, hstable⟩ := hkept
      by_cases hfin : ∃ p, a = .endCommit p
      · obtain ⟨p, rfl⟩ := hfin
        cases hs with
        | endCommit hp =>
          have hin : (s.pc p).inCommit = 1 := by rw [hp]; rfl
          refine .now hr' (no_op_during_commit hinv hin hn).1 ?_
          rw [← mem_step hd hmem hhome (.endCommit hp)]
          exact hstable.endCommit hinv hd hp
      · refine ⟨τ₁, a :: τ₂, s₁, rfl, hr₁, hop, fun q hq => ?_, hstable.step hinv hd hhome hs hhead⟩
        obtain rfl | hq := List.mem_cons.mp hq
        · exact hfin ⟨q, rfl⟩
        · exact hend q hq

/-- Whenever the machine crashes, and however often the recovery is interrupted, the home blocks then
hold what was logged up to a moment `s₁` at which no operation was under way, so that each operation
is there as a whole or not at all; and no commit has ended since `s₁`. -/
theorem crash_keeps_whole_operations (hempty : readHead (d₀ lg.start) = []) {τ : List (Act P)}
    (h : Run (booted P lg d₀) (logsHome lg · ·) τ s) {d : Disk}
    (hrec : Relation.ReflTransGen (InterruptedRecovery lg) s.disk d) :
    ∃ τ₁ τ₂ s₁, τ = τ₂ ++ τ₁ ∧ Run (booted P lg d₀) (logsHome lg · ·) τ₁ s₁ ∧
      (∀ q, (s₁.pc q).op? = none) ∧ (∀ q, .endCommit q ∉ τ₂) ∧
      readHead (exec (recoverFromLog lg) d lg.start) = [] ∧
      ∀ b, ¬ lg.Contains b → exec (recoverFromLog lg) d b = (lastLogged τ₁ b).getD (d₀ b) := by
  obtain ⟨-, -, -, -, τ₁, τ₂, s₁, hτ, hr₁, hop, hend, hstable⟩ := kept_of_run hempty h
  have hclean := (hstable.durable.recoveries hrec).exec_recover
  exact ⟨τ₁, τ₂, s₁, hτ, hr₁, hop, hend, hclean.head, hclean.home⟩

theorem crash_keeps_whole_operations_oneOp :
    ∃ (s : State (Fin 2)) (τ₁ τ₂ : List (Act (Fin 2))),
      Run (booted (Fin 2) mkfsLogArea fun _ _ => 0) (logsHome mkfsLogArea · ·) oneOp.reverse s ∧
      oneOp.reverse = τ₂ ++ τ₁ ∧
      exec (recoverFromLog mkfsLogArea) s.disk 40 = (lastLogged τ₁ 40).getD fun _ => 0 := by
  have h : (perform (booted (Fin 2) mkfsLogArea fun _ _ => 0) (logsHome mkfsLogArea)
      (State.boot (Fin 2) fun _ _ => 0) oneOp).isSome := by decide +kernel
  obtain ⟨s, hs⟩ := Option.isSome_iff_exists.mp h
  have hrun := (Run.start (M := booted (Fin 2) mkfsLogArea fun _ _ => 0) rfl).perform hs
  rw [List.append_nil] at hrun
  obtain ⟨τ₁, τ₂, -, hτ, -, -, -, -, hhome⟩ :=
    crash_keeps_whole_operations (by decide) hrun .refl
  exact ⟨s, τ₁, τ₂, hrun, hτ, hhome 40 (by decide)⟩

end Xv6.Log

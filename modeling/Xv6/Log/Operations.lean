import Xv6.Log.Capacity

namespace Xv6.Log

open Lib.Transition

variable {P : Type} [DecidableEq P]

/-- Runs in which `log_write` is one step and logs only home blocks. -/
def atomicHome (lg : LogArea) (_ : State P) : Act P → Bool
  | .logCheck _ _ _ | .logStore _ _ => false
  | .logWrite _ b _ => !decide (lg.Contains b)
  | _ => true

/-- The contents most recently logged for a block. -/
def lastLogged : List (Act P) → Nat → Option Block
  | [], _ => none
  | .logWrite _ b v :: τ, c => if c = b then some v else lastLogged τ c
  | _ :: τ, c => lastLogged τ c

def isBegin (p : P) : Act P → Bool
  | .beginOp q => q = p
  | _ => false

def isCommit : Act P → Bool
  | .commit _ | .endCommit _ => true
  | _ => false

/-- What happened since `p` last passed through `begin_op`. -/
def sinceBegin (p : P) (τ : List (Act P)) : List (Act P) := τ.takeWhile fun a => !isBegin p a

def Progress (lg : LogArea) (s : State P) : Pc → Prop
  | .commit (.writeLog tail) =>
    ∀ i (h : i < s.lh.length), i < tail → s.disk (lg.start + i + 1) = s.mem s.lh[i]
  | .commit .writeHead => ∀ i (h : i < s.lh.length), s.disk (lg.start + i + 1) = s.mem s.lh[i]
  | .commit (.installTrans tail) =>
    (∀ i (h : i < s.lh.length), s.disk (lg.start + i + 1) = s.mem s.lh[i]) ∧
      ∀ i (h : i < s.lh.length), i < tail → s.disk s.lh[i] = s.mem s.lh[i]
  | _ => True

structure Data (lg : LogArea) (s : State P) : Prop where
  fits : s.lh.length < lg.size
  outside : ∀ b ∈ s.lh, ¬ lg.Contains b
  home : ∀ b, ¬ lg.Contains b → b ∉ s.lh → s.disk b = s.mem b
  progress : ∀ p, Progress lg s (s.pc p)

variable {lg : LogArea} {s s' : State P} {p : P}

omit [DecidableEq P] in
theorem Data.init (h : Init s) : Data lg s := by
  obtain ⟨-, -, hl, hp, hm⟩ := h
  refine ⟨?_, by simp [hl], fun b _ _ => by rw [hm], fun p => ?_⟩
  · rw [hl]
    exact lg.size_pos
  · rw [hp]
    trivial

omit [DecidableEq P] in
theorem Progress.of_eq {c : Pc} (h : Progress lg s c) (hl : s'.lh = s.lh) (hm : s'.mem = s.mem)
    (hd : s'.disk = s.disk) : Progress lg s' c := by
  cases c with
  | commit c =>
    cases c with
    | start | clearHead => trivial
    | writeLog | writeHead | installTrans => simpa only [Progress, hl, hm, hd] using h
  | _ => trivial

omit [DecidableEq P] in
theorem Progress.of_outside {c : Pc} (h : c.inCommit = 0) : Progress lg s c := by
  cases c with
  | commit c => cases h
  | _ => trivial

theorem wakeup_update (s : State P) (p : P) (q : P) :
    (Function.update s.wakeup.pc p .idle q).wakeup = (Function.update s.pc p .idle q).wakeup := by
  by_cases hq : q = p
  · subst hq
    rw [Function.update_self, Function.update_self]
  · rw [Function.update_of_ne hq, Function.update_of_ne hq]
    exact Pc.wakeup_wakeup _

theorem Data.move (h : Data lg s) {c : Pc} (hl : s'.lh = s.lh) (hm : s'.mem = s.mem)
    (hd : s'.disk = s.disk) (hpc : ∀ q, (s'.pc q).wakeup = (Function.update s.pc p c q).wakeup)
    (hc : Progress lg s c) : Data lg s' := by
  refine ⟨by rw [hl]; exact h.fits, by rw [hl]; exact h.outside, ?_, fun q => ?_⟩
  · intro b hb hbl
    rw [hl] at hbl
    rw [hm, hd, h.home b hb hbl]
  · have hw : ∀ c : Pc, Progress lg s' c.wakeup ↔ Progress lg s' c := by
      intro c
      cases c <;> exact Iff.rfl
    rw [← hw, hpc, hw]
    refine Progress.of_eq ?_ hl hm hd
    by_cases hq : q = p
    · subst hq
      rwa [Function.update_self]
    · rw [Function.update_of_ne hq]
      exact h.progress q

theorem Data.logStore [Fintype P] (h : Data lg s) (hcnt : Counts s) {op : Op} {b : Nat} {v : Block}
    (hp : s.pc p = .active op) (hb : ¬ lg.Contains b) (hcheck : logCheck lg s = none) :
    Data lg (logStore s p op b v) := by
  have hlen : (s.lh.length : Int) < lg.size - 1 := by
    unfold logCheck at hcheck
    split at hcheck
    · cases hcheck
    · next hn => omega
  have hc := (hcnt.op (congrArg Pc.op? hp : (s.pc p).op? = some op)).1
  refine ⟨?_, ?_, ?_, fun q => ?_⟩
  · simp only [Log.logStore, State.setPc_lh, logBlock]
    split
    · omega
    · simp only [List.length_append, List.length_singleton]
      omega
  · simp only [Log.logStore, State.setPc_lh, logBlock]
    intro c hcl
    split at hcl
    · exact h.outside c hcl
    · obtain hcl | rfl := by simpa using hcl
      · exact h.outside c hcl
      · exact hb
  · intro c hch hcl
    simp only [Log.logStore, State.setPc_lh, logBlock] at hcl
    have hcb : c ≠ b ∧ c ∉ s.lh := by
      split at hcl
      · next hmem => exact ⟨fun e => hcl (e ▸ hmem), hcl⟩
      · simpa [and_comm] using hcl
    simp only [Log.logStore, State.setPc_mem, State.setPc_disk, Function.update_of_ne hcb.1]
    exact h.home c hch hcb.2
  · -- nobody is in `commit()` while an operation is active
    apply Progress.of_outside
    by_cases hq : q = p
    · subst hq
      simp only [Log.logStore, State.setPc_pc, Function.update_self]
      rfl
    · simp only [Log.logStore, State.setPc_pc, Function.update_of_ne hq]
      exact hcnt.no_committer hc q

theorem Data.commit_move [Fintype P] (h : Data lg s) (hcnt : Counts s)
    (hp : (s.pc p).inCommit = 1) {c : Pc} (hpc : s'.pc = Function.update s.pc p c)
    (hl : s'.lh = s.lh) (hm : s'.mem = s.mem)
    (hd : ∀ b, ¬ lg.Contains b → b ∉ s.lh → s'.disk b = s.disk b)
    (hc : Progress lg s' c) : Data lg s' := by
  refine ⟨by rw [hl]; exact h.fits, by rw [hl]; exact h.outside, ?_, fun q => ?_⟩
  · intro b hb hbl
    rw [hl] at hbl
    rw [hd b hb hbl, hm, h.home b hb hbl]
  · rw [hpc]
    by_cases hq : q = p
    · subst hq
      rwa [Function.update_self]
    · rw [Function.update_of_ne hq]
      exact .of_outside (hcnt.only_committer hp hq)

omit [DecidableEq P] in
theorem Data.log_eq_mem (h : Data lg s) {tail b : Nat}
    (hp : s.pc p = .commit (.installTrans tail)) (hb : s.lh[tail]? = some b) :
    s.disk (lg.start + tail + 1) = s.mem b := by
  obtain ⟨hlt, rfl⟩ := List.getElem?_eq_some_iff.mp hb
  have hprog := h.progress p
  rw [hp] at hprog
  exact hprog.1 tail hlt

theorem Data.commitStep_mem (h : Data lg s) {c : CommitPc} (hp : s.pc p = .commit c) :
    (commitStep lg s p c).mem = s.mem := by
  cases c with
  | start | writeHead | clearHead => rfl
  | writeLog tail => cases htail : s.lh[tail]? <;> simp [commitStep, htail]
  | installTrans tail =>
    cases htail : s.lh[tail]? with
    | none => simp [commitStep, htail]
    | some b =>
      simp only [commitStep, htail, State.setPc_mem]
      rw [h.log_eq_mem hp htail, Function.update_eq_self]

theorem Data.commitStep [Fintype P] (h : Data lg s) (hcnt : Counts s) {c : CommitPc}
    (hp : s.pc p = .commit c) : Data lg (commitStep lg s p c) := by
  have hin : (s.pc p).inCommit = 1 := by rw [hp]; rfl
  have hpc := commitStep_pc lg s p c
  have hprog := h.progress p
  rw [hp] at hprog
  have hstart : ∀ i, lg.start + i + 1 ≠ lg.start := fun i => by omega
  have hhead : ∀ b, ¬ lg.Contains b → b ≠ lg.start := fun b hb e => hb (e ▸ lg.contains_start)
  cases c with
  | start =>
    refine h.commit_move hcnt hin hpc rfl rfl (fun _ _ _ => rfl) ?_
    simp only [commitNext]
    split
    · exact fun i _ hi => absurd hi (Nat.not_lt_zero i)
    · trivial
  | writeLog tail =>
    cases htail : s.lh[tail]? with
    | none =>
      have hge : s.lh.length ≤ tail := List.getElem?_eq_none_iff.mp htail
      simp only [commitNext, htail] at hpc
      refine h.commit_move hcnt hin hpc ?_ ?_ ?_ ?_ <;> simp only [Log.commitStep, htail]
      · rfl
      · rfl
      · exact fun _ _ _ => rfl
      · exact fun i (hi : i < s.lh.length) => hprog i hi (by omega)
    | some b =>
      obtain ⟨hlt, hb⟩ := List.getElem?_eq_some_iff.mp htail
      have hfit := h.fits
      simp only [commitNext, htail] at hpc
      refine h.commit_move hcnt hin hpc ?_ ?_ ?_ ?_ <;> simp only [Log.commitStep, htail]
      · rfl
      · rfl
      · intro c hc _
        have hne : c ≠ lg.start + tail + 1 := by
          rintro rfl
          exact hc (lg.contains_data (by omega))
        exact Function.update_of_ne hne _ _
      · intro i hi hit
        simp only [State.setPc_lh, State.setPc_disk, State.setPc_mem] at hi ⊢
        obtain hlt' | rfl : i < tail ∨ i = tail := by omega
        · rw [Function.update_of_ne (by omega)]
          exact hprog i hi hlt'
        · rw [Function.update_self, hb]
  | writeHead =>
    refine h.commit_move hcnt hin hpc rfl rfl (fun b hb _ => ?_) ⟨fun i hi => ?_, fun i _ hi => ?_⟩
    · exact Function.update_of_ne (hhead b hb) _ _
    · exact (Function.update_of_ne (hstart i) _ _).trans (hprog i hi)
    · exact absurd hi (Nat.not_lt_zero i)
  | installTrans tail =>
    obtain ⟨hlog, hinst⟩ := hprog
    cases htail : s.lh[tail]? with
    | none =>
      have hge : s.lh.length ≤ tail := List.getElem?_eq_none_iff.mp htail
      simp only [commitNext, htail] at hpc
      simp only [Log.commitStep, htail]
      refine ⟨lg.size_pos, by simp, fun b hb _ => ?_, fun q => ?_⟩
      · simp only [State.setPc_disk, State.setPc_mem]
        by_cases hbl : b ∈ s.lh
        · obtain ⟨i, hi, rfl⟩ := List.getElem_of_mem hbl
          exact hinst i hi (by omega)
        · exact h.home b hb hbl
      · simp only [State.setPc_pc]
        by_cases hq : q = p
        · subst hq
          rw [Function.update_self]
          trivial
        · rw [Function.update_of_ne hq]
          exact .of_outside (hcnt.only_committer hin hq)
    | some b =>
      obtain ⟨hlt, hb⟩ := List.getElem?_eq_some_iff.mp htail
      have hval := h.log_eq_mem hp htail
      have hbs : b ∈ s.lh := hb ▸ List.getElem_mem hlt
      have hfit := h.fits
      simp only [commitNext, htail] at hpc
      refine h.commit_move hcnt hin hpc ?_ ?_ ?_ ?_ <;> simp only [Log.commitStep, htail]
      · rfl
      · simp only [State.setPc_mem, hval, Function.update_eq_self]
      · intro c _ hcl
        have hne : c ≠ b := by
          rintro rfl
          exact hcl hbs
        exact Function.update_of_ne hne _ _
      · simp only [Progress, State.setPc_lh, State.setPc_disk, State.setPc_mem, hval,
          Function.update_eq_self]
        refine ⟨fun i hi => ?_, fun i hi hit => ?_⟩
        · have hne : lg.start + i + 1 ≠ b := by
            rintro rfl
            exact h.outside _ hbs (lg.contains_data (by omega))
          rw [Function.update_of_ne hne, hlog i hi]
        · by_cases hib : s.lh[i] = b
          · rw [hib, Function.update_self]
          · have hne : i ≠ tail := by
              rintro rfl
              exact hib hb
            rw [Function.update_of_ne hib, hinst i hi (by omega)]
  | clearHead =>
    refine h.commit_move hcnt hin hpc rfl rfl (fun b hb _ => ?_) trivial
    exact Function.update_of_ne (hhead b hb) _ _

theorem Data.step [Fintype P] {a : Act P} (h : Data lg s) (hinv : Inv s)
    (hok : atomicHome lg s a) (hs : Step lg s a s') : Data lg s' := by
  cases hs with
  | callBegin | sleep | start | spurious | endLast =>
    exact h.move rfl rfl rfl (fun _ => rfl) trivial
  | logCheck | logStore => cases hok
  | logWrite hp hc =>
    exact h.logStore hinv.counts hp (by simpa [atomicHome] using hok) hc
  | endOther | endCommit => exact h.move rfl rfl rfl (wakeup_update s _) (trivial : Progress lg s .idle)
  | commit hp => exact h.commitStep hinv.counts hp

structure Traced (lg : LogArea) (τ : List (Act P)) (s : State P) : Prop where
  blocks : ∀ p op, (s.pc p).op? = some op → ∀ b ∈ op.blocks, b ∈ s.lh
  since : ∀ p op, (s.pc p).op? = some op → ∀ a ∈ sinceBegin p τ, isCommit a = false
  mem : ∀ b v, lastLogged τ b = some v → s.mem b = v
  home : ∀ b v, lastLogged τ b = some v → ¬ lg.Contains b

theorem mem_sinceBegin_cons {a a' : Act P} {τ : List (Act P)} (h : a' ∈ sinceBegin p (a :: τ)) :
    a' = a ∨ a' ∈ sinceBegin p τ := by
  unfold sinceBegin at h
  rw [List.takeWhile_cons] at h
  split at h
  · exact List.mem_cons.mp h
  · cases h

theorem Traced.keep {τ : List (Act P)} {a : Act P} (h : Traced lg τ s)
    (hop : ∀ q op, (s'.pc q).op? = some op → (s.pc q).op? = some op) (hl : s'.lh = s.lh)
    (hm : s'.mem = s.mem) (ha : isCommit a = false) (hlast : lastLogged (a :: τ) = lastLogged τ) :
    Traced lg (a :: τ) s' := by
  refine ⟨fun q op hq b hb => ?_, fun q op hq a' ha' => ?_, fun b v hv => ?_, fun b v hv => ?_⟩
  · rw [hl]
    exact h.blocks q op (hop q op hq) b hb
  · obtain rfl | ha' := mem_sinceBegin_cons ha'
    · exact ha
    · exact h.since q op (hop q op hq) a' ha'
  · rw [hlast] at hv
    rw [hm, h.mem b v hv]
  · rw [hlast] at hv
    exact h.home b v hv

theorem mem_logBlock {l : List Nat} {b c : Nat} : c ∈ logBlock l b ↔ c ∈ l ∨ c = b := by
  unfold logBlock
  split
  · next hb => exact ⟨Or.inl, fun h => h.elim id fun e => e ▸ hb⟩
  · simp

theorem op?_update {pc : P → Pc} {c : Pc} {q : P} {op : Op}
    (h : (Function.update pc p c q).op? = some op) :
    q = p ∧ c.op? = some op ∨ q ≠ p ∧ (pc q).op? = some op := by
  by_cases hq : q = p
  · subst hq
    rw [Function.update_self] at h
    exact Or.inl ⟨rfl, h⟩
  · rw [Function.update_of_ne hq] at h
    exact Or.inr ⟨hq, h⟩

theorem Traced.step [Fintype P] {τ : List (Act P)} {a : Act P} (h : Traced lg τ s) (hinv : Inv s)
    (hd : Data lg s) (hok : atomicHome lg s a) (hs : Step lg s a s') : Traced lg (a :: τ) s' := by
  have hidle : ∀ {p : P} {c : Pc}, c.op? = none → ∀ q op,
      (Function.update s.pc p c q).op? = some op → (s.pc q).op? = some op := by
    intro p c hc q op hq
    obtain ⟨-, hq⟩ | ⟨-, hq⟩ := op?_update hq
    · rw [hc] at hq
      cases hq
    · exact hq
  cases hs with
  | callBegin | sleep | spurious | endLast => exact h.keep (hidle rfl) rfl rfl rfl rfl
  | logCheck | logStore => cases hok
  | @start p hp hw =>
    refine ⟨fun q op hq b hb => ?_, fun q op hq a' ha' => ?_, h.mem, h.home⟩
    · obtain ⟨-, hq⟩ | ⟨-, hq⟩ := op?_update hq
      · cases hq
        cases hb
      · exact h.blocks q op hq b hb
    · obtain ⟨rfl, -⟩ | ⟨-, hq⟩ := op?_update hq
      · simp [sinceBegin, isBegin] at ha'
      · obtain rfl | ha' := mem_sinceBegin_cons ha'
        · rfl
        · exact h.since q op hq a' ha'
  | @logWrite p op b v hp hc =>
    have hp' : (s.pc p).op? = some op := by rw [hp]; rfl
    refine ⟨fun q op' hq c hcb => ?_, fun q op' hq a' ha' => ?_, fun c w hw => ?_, fun c w hw => ?_⟩
    · apply mem_logBlock.mpr
      obtain ⟨-, hq⟩ | ⟨-, hq⟩ := op?_update hq
      · cases hq
        exact (mem_logBlock.mp hcb).imp_left (h.blocks p op hp' c)
      · exact Or.inl (h.blocks q op' hq c hcb)
    · obtain rfl | hmem := mem_sinceBegin_cons ha'
      · rfl
      · obtain ⟨rfl, -⟩ | ⟨-, hq⟩ := op?_update hq
        · exact h.since q op hp' a' hmem
        · exact h.since q op' hq a' hmem
    · simp only [lastLogged] at hw
      simp only [logStore, State.setPc_mem]
      by_cases hcb : c = b
      · subst hcb
        rw [if_pos rfl, Option.some.injEq] at hw
        rw [Function.update_self, hw]
      · rw [if_neg hcb] at hw
        rw [Function.update_of_ne hcb, h.mem c w hw]
    · simp only [lastLogged] at hw
      split at hw
      · next hcb => simpa [atomicHome, hcb] using hok
      · exact h.home c w hw
  | @endOther p =>
    refine h.keep (fun q op hq => ?_) rfl rfl rfl rfl
    obtain ⟨-, hq⟩ | ⟨-, hq⟩ := op?_update hq
    · cases hq
    · exact (Pc.op?_wakeup _) ▸ hq
  | @commit p c hp =>
    have hnone := hinv.counts.no_op (p := p) (by rw [hp]; rfl)
    have hops : ∀ q, ((commitStep lg s p c).pc q).op? = none := by
      intro q
      rw [commitStep_pc]
      by_cases hq : q = p
      · subst hq
        simp
      · rw [Function.update_of_ne hq, hnone]
    refine ⟨fun q op hq => ?_, fun q op hq => ?_, fun b v hv => ?_, h.home⟩
    · rw [hops] at hq
      cases hq
    · rw [hops] at hq
      cases hq
    · rw [hd.commitStep_mem hp]
      exact h.mem b v hv
  | @endCommit p hp =>
    have hnone := hinv.counts.no_op (p := p) (by rw [hp]; rfl)
    have hops : ∀ q, (Function.update s.wakeup.pc p .idle q).op? = none := by
      intro q
      by_cases hq : q = p
      · subst hq
        rw [Function.update_self]
        rfl
      · rw [Function.update_of_ne hq]
        exact (Pc.op?_wakeup _).trans (hnone q)
    refine ⟨fun q op hq => ?_, fun q op hq => ?_, h.mem, h.home⟩
    · exact absurd ((hops q).symm.trans hq) (by simp)
    · exact absurd ((hops q).symm.trans hq) (by simp)

variable [Fintype P] {τ : List (Act P)}

theorem traced_of_run (h : Run (machine P lg) (atomicHome lg · ·) τ s) :
    Inv s ∧ Data lg s ∧ Traced lg τ s := by
  refine h.induct (I := fun τ s => Inv s ∧ Data lg s ∧ Traced lg τ s) (fun s (hi : Init s) => ?_) ?_
  · refine ⟨.init hi, .init hi, fun p op hp => ?_, fun p op hp => ?_,
      by simp [lastLogged], by simp [lastLogged]⟩
    · rw [hi.2.2.2.1] at hp
      cases hp
    · rw [hi.2.2.2.1] at hp
      cases hp
  · rintro τ s a s' ⟨hinv, hd, ht⟩ hok hn
    have hs := step_of_next hn
    exact ⟨hinv.step hs, hd.step hinv hok hs, ht.step hinv hd hok hs⟩

omit [Fintype P] in
theorem op?_step {a : Act P} (hs : Step lg s a s') {q : P} {op' : Op}
    (hq : (s'.pc q).op? = some op') : (s.pc q).op?.isSome ∨ ¬ MustWait s := by
  cases hs with
  | callBegin hp | sleep hp | spurious hp | endLast hp =>
    obtain ⟨-, hq⟩ | ⟨-, hq⟩ := op?_update hq
    · cases hq
    · exact Or.inl (by rw [hq]; rfl)
  | logCheck hp | logStore hp | logWrite hp =>
    obtain ⟨rfl, -⟩ | ⟨-, hq⟩ := op?_update hq
    · exact Or.inl (by rw [hp]; rfl)
    · exact Or.inl (by rw [hq]; rfl)
  | start hp hw => exact Or.inr hw
  | endOther | endCommit =>
    obtain ⟨-, hq⟩ | ⟨-, hq⟩ := op?_update hq
    · cases hq
    · exact Or.inl (by rw [← Pc.op?_wakeup]; exact hq ▸ rfl)
  | commit hp =>
    rw [commitStep_pc] at hq
    obtain ⟨-, hq⟩ | ⟨-, hq⟩ := op?_update hq
    · simp at hq
    · exact Or.inl (by rw [hq]; rfl)

theorem no_op_during_commit (hinv : Inv s) {a : Act P} (hp : (s.pc p).inCommit = 1)
    (hn : next lg s a = .done s') :
    (∀ q, (s'.pc q).op? = none) ∧ ∀ q b v, a ≠ .logWrite q b v := by
  have hs := step_of_next hn
  have hnone := hinv.counts.no_op hp
  constructor
  · intro q
    cases hq : (s'.pc q).op? with
    | none => rfl
    | some op' =>
      obtain hsome | hwait := op?_step hs hq
      · simp [hnone] at hsome
      · exact absurd (Or.inl (hinv.counts.committer hp)) hwait
  · rintro q b v rfl
    cases hs with
    | logWrite hq _ =>
      have := hnone q
      rw [hq] at this
      cases this

/-- A transaction contains only whole operations. -/
theorem whole_operations (h : Run (machine P lg) (atomicHome lg · ·) τ s) :
    (∀ p q, (s.pc p).inCommit = 1 → (s.pc q).op? = none) ∧
      (∀ p a s', (s.pc p).inCommit = 1 → next lg s a = .done s' →
        (∀ q, (s'.pc q).op? = none) ∧ ∀ q b v, a ≠ .logWrite q b v) ∧
      (∀ p op, (s.pc p).op? = some op → s.lh = logged τ ∧ (∀ b ∈ op.blocks, b ∈ s.lh) ∧
        ∀ a ∈ sinceBegin p τ, isCommit a = false) ∧
      (∀ p c, s.pc p = .commit c → c ≠ .clearHead → s.lh = logged τ) ∧
      (∀ p s', next lg s (.endCommit p) = .done s' →
        s'.lh = [] ∧ ∀ b v, lastLogged τ b = some v → s'.disk b = v) := by
  obtain ⟨hinv, hd, ht⟩ := traced_of_run h
  refine ⟨fun p q hp => hinv.counts.no_op hp q, fun p a s' hp hn => no_op_during_commit hinv hp hn,
    fun p op hp => ⟨lh_eq_logged_of_op h hp, ht.blocks p op hp, ht.since p op hp⟩,
    fun p c hp hc => lh_eq_logged_of_commit h hp hc, fun p s' hn => ?_⟩
  cases step_of_next hn with
  | endCommit hp =>
    have hl := hinv.tidy.cleared p (Or.inr hp)
    refine ⟨hl, fun b v hv => ?_⟩
    have hb := hd.home b (ht.home b v hv) (by simp [hl])
    exact hb.trans (ht.mem b v hv)

def oneOp : List (Act (Fin 2)) :=
  [.callBegin 0, .beginOp 0, .logWrite 0 40 fun _ => 7, .endOp 0] ++ List.replicate 7 (.commit 0)

def Pc.isFinish (j : Pc) : Bool :=
  match j with
  | .finish => true
  | _ => false

theorem Pc.isFinish_iff {j : Pc} : j.isFinish = true ↔ j = .finish := by
  cases j <;> simp [Pc.isFinish]

theorem whole_operations_oneOp :
    ∃ s s', Run (machine (Fin 2) mkfsLogArea) (atomicHome mkfsLogArea · ·) oneOp.reverse s ∧
      next mkfsLogArea s (.endCommit 0) = .done s' ∧ s'.disk 40 = fun _ => 7 := by
  have h : (perform (machine (Fin 2) mkfsLogArea) (atomicHome mkfsLogArea)
      (State.boot (Fin 2) fun _ _ => 0) oneOp).any fun s => (s.pc 0).isFinish := by decide +kernel
  obtain ⟨s, hs, hp⟩ := (Option.any_eq_true _ _).mp h
  have hfin := Pc.isFinish_iff.mp hp
  have hrun := (Run.start (M := machine (Fin 2) mkfsLogArea) (init_boot fun _ _ => 0)).perform hs
  rw [List.append_nil] at hrun
  have hn : next mkfsLogArea s (.endCommit 0) =
      .done ({ s with committing := false }.wakeup.setPc 0 .idle) := by
    simp only [next, hfin]
  exact ⟨s, _, hrun, hn, ((whole_operations hrun).2.2.2.2 0 _ hn).2 40 _ rfl⟩

end Xv6.Log

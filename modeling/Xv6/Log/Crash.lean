import Mathlib.Logic.Relation
import Xv6.Log.Commit

namespace Xv6.Log

open Lib.WriteTrace

structure Clean (lg : LogArea) (target d : Disk) : Prop where
  head : readHead (d lg.start) = []
  home : ∀ b, ¬ lg.Contains b → d b = target b

structure Logged (lg : LogArea) (bs : List Nat) (target d : Disk) : Prop where
  fits : bs.length < lg.size
  outside : ∀ b ∈ bs, ¬ lg.Contains b
  head : readHead (d lg.start) = bs
  data : ∀ i (h : i < bs.length), d (lg.start + i + 1) = target bs[i]
  home : ∀ b, ¬ lg.Contains b → b ∉ bs → d b = target b

def Durable (lg : LogArea) (target d : Disk) : Prop :=
  Clean lg target d ∨ ∃ bs, Logged lg bs target d

/-- One interrupted run of `recover_from_log`. -/
def InterruptedRecovery (lg : LogArea) (d d' : Disk) : Prop :=
  ∃ k, d' = crash k (recoverFromLog lg) d

variable {lg : LogArea} {target d : Disk} {bs : List Nat}

theorem readHead_putHead_nil (b : Block) : readHead (putHead [] b) = [] :=
  readHead_putHead ⟨[], by simp, by simp⟩ b

theorem Clean.write_empty (h : ∀ b, ¬ lg.Contains b → d b = target b) :
    Clean lg target (Function.update d lg.start (putHead [] (d lg.start))) where
  head := by rw [Function.update_self, readHead_putHead_nil]
  home b hb := by
    have hne : b ≠ lg.start := fun e => hb (e ▸ lg.contains_start)
    rw [Function.update_of_ne hne, h b hb]

theorem Logged.install (h : Logged lg bs target d) {i : Nat} (hi : i < bs.length) :
    Logged lg bs target (Function.update d bs[i] (d (lg.start + i + 1))) := by
  have hout : ∀ {a}, lg.Contains a → a ≠ bs[i] := fun ha e =>
    h.outside bs[i] (List.getElem_mem hi) (e ▸ ha)
  refine ⟨h.fits, h.outside, ?_, ?_, ?_⟩
  · rw [Function.update_of_ne (hout lg.contains_start), h.head]
  · intro j hj
    have hj' : j + 1 < lg.size := by have := h.fits; omega
    rw [Function.update_of_ne (hout (lg.contains_data hj')), h.data j hj]
  · intro b hb hbs
    have hne : b ≠ bs[i] := fun e => hbs (e ▸ List.getElem_mem hi)
    rw [Function.update_of_ne hne, h.home b hb hbs]

theorem crash_installTrans (h : Logged lg bs target d) {tail : Nat} {rest : List Nat}
    (hrest : bs.drop tail = rest) (k : Nat) :
    Logged lg bs target (crash k (installTrans lg tail rest) d) := by
  induction rest generalizing tail d k with
  | nil => simpa [crash, installTrans, skip] using h
  | cons b rest ih =>
    have htail : tail < bs.length := by
      by_contra hge
      rw [List.drop_of_length_le (by omega)] at hrest
      cases hrest
    have hb : b = bs[tail] := by
      rw [List.drop_eq_getElem_cons htail] at hrest
      exact (List.cons.inj hrest).1.symm
    have hrest' : bs.drop (tail + 1) = rest := by
      rw [List.drop_eq_getElem_cons htail] at hrest
      exact (List.cons.inj hrest).2
    have hnext := h.install htail
    rw [← hb] at hnext
    exact crash_induction (crash_write h hnext) (fun k => ih hnext hrest' k) k

theorem exec_installTrans (h : Logged lg bs target d) {tail : Nat} {rest : List Nat}
    (hrest : bs.drop tail = rest) (hdone : ∀ b ∈ bs.take tail, d b = target b) :
    ∀ b ∈ bs, exec (installTrans lg tail rest) d b = target b := by
  induction rest generalizing tail d with
  | nil =>
    have hle : bs.length ≤ tail := List.drop_eq_nil_iff.mp hrest
    rw [List.take_of_length_le hle] at hdone
    exact hdone
  | cons b rest ih =>
    have htail : tail < bs.length := by
      by_contra hge
      rw [List.drop_of_length_le (by omega)] at hrest
      cases hrest
    rw [List.drop_eq_getElem_cons htail] at hrest
    obtain ⟨hb, hrest'⟩ := List.cons.inj hrest
    subst hb
    rw [installTrans, exec_seq, exec_write]
    refine ih (h.install htail) hrest' ?_
    intro c hc
    by_cases hcb : c = bs[tail]
    · subst hcb
      rw [Function.update_self, h.data tail htail]
    · rw [Function.update_of_ne hcb]
      rw [List.take_succ_eq_append_getElem htail, List.mem_append, List.mem_singleton] at hc
      exact hdone c (hc.resolve_right hcb)

theorem exec_installTrans_home (h : Logged lg bs target d) (b : Nat) (hb : ¬ lg.Contains b) :
    exec (installTrans lg 0 bs) d b = target b := by
  by_cases hmem : b ∈ bs
  · exact exec_installTrans h List.drop_zero (by simp) b hmem
  · have hk := crash_installTrans h List.drop_zero (installTrans lg 0 bs d).length
    rw [crash_of_length_le le_rfl] at hk
    exact hk.home b hb hmem

theorem Logged.crash_finish (h : Logged lg bs target d) (k : Nat) :
    Durable lg target (crash k (seq (installTrans lg 0 bs) (writeHead lg [])) d) := by
  refine crash_induction (fun k => Or.inr ⟨bs, crash_installTrans h List.drop_zero k⟩) ?_ k
  have hexec := crash_installTrans h List.drop_zero (installTrans lg 0 bs d).length
  rw [crash_of_length_le le_rfl] at hexec
  exact crash_write (Or.inr ⟨bs, hexec⟩) (Or.inl (Clean.write_empty (exec_installTrans_home h)))

theorem Logged.exec_finish (h : Logged lg bs target d) :
    Clean lg target (exec (seq (installTrans lg 0 bs) (writeHead lg [])) d) := by
  rw [exec_seq]
  exact Clean.write_empty (exec_installTrans_home h)

theorem Clean.logged (h : Clean lg target d) : Logged lg [] target d :=
  ⟨lg.size_pos, by simp, h.head, by simp, fun b hb _ => h.home b hb⟩

theorem Durable.logged (h : Durable lg target d) : ∃ bs, Logged lg bs target d :=
  h.elim (fun hc => ⟨[], hc.logged⟩) id

theorem Logged.recoverFromLog_eq (h : Logged lg bs target d) :
    recoverFromLog lg d = seq (installTrans lg 0 bs) (writeHead lg []) d := by
  simp only [recoverFromLog, h.head]

theorem Durable.crash_recover (h : Durable lg target d) (k : Nat) :
    Durable lg target (crash k (recoverFromLog lg) d) := by
  obtain ⟨bs, hl⟩ := h.logged
  rw [crash, hl.recoverFromLog_eq]
  exact hl.crash_finish k

theorem Durable.exec_recover (h : Durable lg target d) :
    Clean lg target (exec (recoverFromLog lg) d) := by
  obtain ⟨bs, hl⟩ := h.logged
  rw [exec, hl.recoverFromLog_eq]
  exact hl.exec_finish

theorem Durable.recoveries {d' : Disk} (h : Durable lg target d)
    (hr : Relation.ReflTransGen (InterruptedRecovery lg) d d') : Durable lg target d' := by
  induction hr with
  | refl => exact h
  | tail _ hstep ih =>
    obtain ⟨k, rfl⟩ := hstep
    exact ih.crash_recover k

theorem crash_writeLog_home (cache : Nat → Block) (tail : Nat) (rest : List Nat)
    (hfit : tail + rest.length < lg.size) (k : Nat) (b : Nat)
    (hb : ¬ lg.Contains b ∨ b = lg.start) :
    crash k (writeLog lg cache tail rest) d b = d b := by
  induction rest generalizing tail d k with
  | nil => simp [crash, writeLog, skip]
  | cons c rest ih =>
    simp only [List.length_cons] at hfit
    have hne : b ≠ lg.start + tail + 1 := by
      rcases hb with hb | rfl
      · exact fun e => hb (e ▸ lg.contains_data (by omega))
      · omega
    have hw : Function.update d (lg.start + tail + 1) (cache c) b = d b :=
      Function.update_of_ne hne _ _
    refine crash_induction (P := fun x => x b = d b)
      (crash_write (P := fun x => x b = d b) rfl hw) (fun k => ?_) k
    exact (ih (tail + 1) (by omega) k).trans hw

theorem exec_writeLog_below (cache : Nat → Block) (tail : Nat) (rest : List Nat) {a : Nat}
    (ha : a ≤ lg.start + tail) : exec (writeLog lg cache tail rest) d a = d a := by
  induction rest generalizing tail d with
  | nil => rfl
  | cons c rest ih =>
    rw [writeLog, exec_seq, exec_write, ih (tail + 1) (by omega),
      Function.update_of_ne (by omega)]

theorem exec_writeLog_data (lg : LogArea) (cache : Nat → Block) (tail : Nat) (rest : List Nat) (i : Nat)
    (hi : i < rest.length) :
    exec (writeLog lg cache tail rest) d (lg.start + (tail + i) + 1) = cache rest[i] := by
  induction rest generalizing tail d i with
  | nil => simp at hi
  | cons c rest ih =>
    rw [writeLog, exec_seq, exec_write]
    cases i with
    | zero =>
      rw [exec_writeLog_below _ _ _ (by omega)]
      exact Function.update_self _ _ _
    | succ i =>
      have h := ih (d := Function.update d (lg.start + tail + 1) (cache c)) (tail + 1) i
        (by simpa using hi)
      rw [show tail + (i + 1) = tail + 1 + i by omega, h]
      rfl

theorem length_writeLog (cache : Nat → Block) (tail : Nat) (rest : List Nat) (d : Disk) :
    (writeLog lg cache tail rest d).length = rest.length := by
  induction rest generalizing tail d with
  | nil => rfl
  | cons c rest ih => simp [writeLog, seq, write, ih]

def after (lh : LogHeader) (cache d₀ : Disk) : Disk := fun b => if b ∈ lh.block then cache b else d₀ b

theorem crash_commit_uncommitted (lg : LogArea) (lh : LogHeader) (cache d₀ : Disk)
    (hempty : readHead (d₀ lg.start) = []) (hfit : lh.n < lg.size) {k : Nat} (hk : k ≤ lh.n) :
    Clean lg d₀ (crash k (commit lg lh cache) d₀) := by
  have hlen : (writeLog lg cache 0 lh.block d₀).length = lh.n := length_writeLog _ _ _ _
  have hhome : ∀ b, ¬ lg.Contains b ∨ b = lg.start → crash k (commit lg lh cache) d₀ b = d₀ b := by
    intro b hb
    unfold commit
    split
    · rw [crash_seq, if_pos (by omega)]
      exact crash_writeLog_home _ _ _ (by simpa [LogHeader.n] using hfit) _ _ hb
    · simp [crash, skip]
  exact ⟨by rw [hhome _ (Or.inr rfl), hempty], fun b hb => hhome b (Or.inl hb)⟩

theorem logged_writeHead (lg : LogArea) (lh : LogHeader) (cache d₀ : Disk)
    (hhome : ∀ b ∈ lh.block, ¬ lg.Contains b) (hfit : lh.n < lg.size) :
    Logged lg lh.block (after lh cache d₀)
      (exec (writeHead lg lh.block) (exec (writeLog lg cache 0 lh.block) d₀)) := by
  refine ⟨hfit, hhome, ?_, ?_, ?_⟩
  · rw [writeHead, exec_write, Function.update_self, readHead_putHead]
  · intro i hi
    have h := exec_writeLog_data (d := d₀) lg cache 0 lh.block i hi
    rw [Nat.zero_add] at h
    rw [writeHead, exec_write, Function.update_of_ne (by omega), h, after,
      if_pos (List.getElem_mem hi)]
  · intro b hb hmem
    have hne : b ≠ lg.start := fun e => hb (e ▸ lg.contains_start)
    have h := crash_writeLog_home (d := d₀) cache 0 lh.block (by simpa [LogHeader.n] using hfit)
      (writeLog lg cache 0 lh.block d₀).length b (Or.inl hb)
    rw [crash_of_length_le le_rfl] at h
    rw [writeHead, exec_write, Function.update_of_ne hne, h, after, if_neg hmem]

theorem crash_commit_committed (lh : LogHeader) (cache d₀ : Disk)
    (hempty : readHead (d₀ lg.start) = [])
    (hhome : ∀ b ∈ lh.block, ¬ lg.Contains b) (hfit : lh.n < lg.size) {k : Nat} (hk : lh.n < k) :
    Durable lg (after lh cache d₀) (crash k (commit lg lh cache) d₀) := by
  have hlen : (writeLog lg cache 0 lh.block d₀).length = lh.n := length_writeLog _ _ _ _
  unfold commit
  split
  · rw [crash_seq, if_neg (by omega), crash_seq, hlen]
    have hone : (writeHead lg lh.block (exec (writeLog lg cache 0 lh.block) d₀)).length = 1 := rfl
    have hlogged := logged_writeHead lg lh cache d₀ hhome hfit
    split
    · have hk1 : k - lh.n = 1 := by omega
      rw [hk1, crash_of_length_le hone.le]
      exact Or.inr ⟨_, hlogged⟩
    · exact hlogged.crash_finish _
  · next hn =>
    have hnil : lh.block = [] := List.length_eq_zero_iff.mp (Nat.eq_zero_of_not_pos hn)
    refine Or.inl ⟨by simpa [crash, skip] using hempty, fun b _ => ?_⟩
    simp [crash, skip, after, hnil]

/-- Crash atomicity of the redo log: `commit()` is cut off after any `k` of its
block writes, recovery is cut off any number of times, and then completes.
The listed blocks need not even be distinct. -/
theorem crash_atomicity (lg : LogArea) (lh : LogHeader) (cache d₀ : Disk)
    (hempty : readHead (d₀ lg.start) = []) (hhome : ∀ b ∈ lh.block, ¬ lg.Contains b)
    (hsize : lh.n ≤ lg.size - 1) (k : Nat) (d : Disk)
    (hrec : Relation.ReflTransGen (InterruptedRecovery lg) (crash k (commit lg lh cache) d₀) d) :
    readHead (exec (recoverFromLog lg) d lg.start) = [] ∧
      ((∀ b, ¬ lg.Contains b → exec (recoverFromLog lg) d b = d₀ b) ∨
        (∀ b, ¬ lg.Contains b → exec (recoverFromLog lg) d b = after lh cache d₀ b)) ∧
      (lh.n < k → ∀ b, ¬ lg.Contains b → exec (recoverFromLog lg) d b = after lh cache d₀ b) := by
  have hfit : lh.n < lg.size := by have := lg.size_pos; omega
  by_cases hk : k ≤ lh.n
  · have hclean := crash_commit_uncommitted lg lh cache d₀ hempty hfit hk
    have hdone := (Durable.recoveries (Or.inl hclean) hrec).exec_recover
    exact ⟨hdone.head, Or.inl hdone.home, fun h => absurd hk (by omega)⟩
  · have hdur := crash_commit_committed lh cache d₀ hempty hhome hfit (Nat.lt_of_not_le hk)
    have hdone := (hdur.recoveries hrec).exec_recover
    exact ⟨hdone.head, Or.inr hdone.home, fun _ => hdone.home⟩

/-- The log area of an image made by `mkfs`. -/
def mkfsLogArea : LogArea := ⟨2, LOGSIZE, by decide⟩

def twoBlocks : LogHeader := ⟨[40, 41], by decide, by decide⟩

/-- Blocks 40 and 41 are rewritten; the power fails after the fourth write, when
only block 40 is installed, and again after the first write of recovery. -/
theorem crash_atomicity_twoBlocks :
    exec (recoverFromLog mkfsLogArea) (crash 1 (recoverFromLog mkfsLogArea)
      (crash 4 (commit mkfsLogArea twoBlocks fun _ _ => 7) fun _ _ => 0)) 41 = fun _ => 7 :=
  (crash_atomicity mkfsLogArea twoBlocks _ _ (by decide) (by decide) (by decide) 4 _
    (Relation.ReflTransGen.single ⟨1, rfl⟩)).2.2 (by decide) 41 (by decide)

end Xv6.Log

import Xv6.Cache.Machine

namespace Xv6.Cache

open Lib.Transition
open Log (LogArea)

@[simp] def Act.proc : Act → Proc
  | .callBegin p | .beginOp p | .spurious p | .bread p _ | .acquire p | .modify p _ _
  | .logWrite p _ _ _ | .brelse p _ | .unref p | .endOp p | .exec p | .endCommit p => p

def Act.control : Act → Option (Log.Act Proc)
  | .callBegin p => some (.callBegin p)
  | .beginOp p => some (.beginOp p)
  | .spurious p => some (.spurious p)
  | .endOp p => some (.endOp p)
  | .endCommit p => some (.endCommit p)
  | _ => none

/-- What `bget` finds: a buffer that caches the block, or one that nobody uses. -/
inductive Bget (s : State) (b : Nat) : Slot → Buf → Prop where
  | hit {i : Slot} (h : (s.buf i).Caches b) :
      Bget s b i { s.buf i with refcnt := (s.buf i).refcnt + 1 }
  | recycle {i : Slot} (h : ∀ j ∈ s.lru, ¬ (s.buf j).Caches b) (hr : (s.buf i).refcnt = 0) :
      Bget s b i { s.buf i with dev := ROOTDEV, blockno := b, valid := false, refcnt := 1 }

theorem bget_some {s : State} {b : Nat} {i : Slot} {x : Buf} (h : bget s b = some (i, x)) :
    Bget s b i x := by
  simp only [bget] at h
  split at h
  · next j hj =>
    cases h
    exact .hit (by simpa using List.find?_some hj)
  · next hn =>
    split at h <;> cases h
    next j hj =>
      refine .recycle ?_ (by simpa using List.find?_some hj)
      simpa using List.find?_eq_none.mp hn

inductive InstrStep (s : State) (p : Proc) : Instr → State → Prop where
  | bread {r : Reg} {b : Nat} {i : Slot} {x : Buf} (hb : Bget s b i x) :
      InstrStep s p (.bread r b) (((s.setBuf i x).setReg p r i).setIo p (.acquiresleep i))
  | copy {i : Slot} (hi : s.reg p .dst = i) (hl : (s.buf i).lock = some p) :
      InstrStep s p .copy
        (advance ((s.setBuf i { s.buf i with data := (s.buf (s.reg p .src)).data }).writeDisk
          (s.buf i).blockno (s.buf (s.reg p .src)).data) p)
  | putHead {i : Slot} (hi : s.reg p .dst = i) (hl : (s.buf i).lock = some p) :
      InstrStep s p .putHead
        (advance ((s.setBuf i { s.buf i with data := Log.putHead s.log.lh (s.buf i).data }).writeDisk
          (s.buf i).blockno (Log.putHead s.log.lh (s.buf i).data)) p)
  | getHead : InstrStep s p .getHead
      (advance (s.setLog { s.log with lh := Log.readHead (s.buf (s.reg p .dst)).data }) p)
  | bunpin {i : Slot} (hi : s.reg p .dst = i) :
      InstrStep s p .bunpin (s.setBuf i { s.buf i with refcnt := (s.buf i).refcnt - 1 })
  | brelse {r : Reg} {i : Slot} (hi : s.reg p r = i) (hl : (s.buf i).lock = some p) :
      InstrStep s p (.brelse r) ((s.setBuf i { s.buf i with lock := none }).setIo p (.brelse i))

inductive Step (lg : LogArea) (s : State) : Act → State → Prop where
  | control {a : Act} {l : Log.Act Proc} {t : Log.State Proc} (ha : a.control = some l)
      (hf : s.free a.proc) (hl : Log.Step lg s.log l t) : Step lg s a (s.setLog t)
  | bread {p : Proc} {b : Nat} {i : Slot} {x : Buf} (hf : s.inCall p) (hb : Bget s b i x) :
      Step lg s (.bread p b) ((s.setBuf i x).setIo p (.acquiresleep i))
  | acquire {p : Proc} {i : Slot} (hio : s.io p = .acquiresleep i) (hl : (s.buf i).lock = none) :
      Step lg s (.acquire p)
        (((s.setBuf i ((s.buf i).fill p s.log.disk)).setIo p .ready).setDirty i false)
  | modify {p : Proc} {i : Slot} {v : Block} (hf : s.inCall p) (hl : (s.buf i).lock = some p) :
      Step lg s (.modify p i v) ((s.setBuf i { s.buf i with data := v }).setDirty i true)
  | logWrite {p : Proc} {op : Log.Op} {i : Slot} (hp : s.log.pc p = .active op) (hf : s.free p)
      (hl : (s.buf i).lock = some p) (hc : Log.logCheck lg s.log = none) :
      Step lg s (.logWrite p i (s.buf i).blockno (s.buf i).data)
        (((s.setBuf i { s.buf i with
            refcnt := if (s.buf i).blockno ∈ s.log.lh then (s.buf i).refcnt
              else (s.buf i).refcnt + 1 }).setDirty i false).setLog
          (Log.logStore s.log p op (s.buf i).blockno (s.buf i).data))
  | brelse {p : Proc} {i : Slot} (hf : s.inCall p) (hl : (s.buf i).lock = some p) :
      Step lg s (.brelse p i) ((s.setBuf i { s.buf i with lock := none }).setIo p (.brelse i))
  | unref {p : Proc} {i : Slot} (hio : s.io p = .brelse i) : Step lg s (.unref p) (unref s p i)
  | bootEnter {c : BootPc} (hio : s.io 0 = .ready) (hcode : s.code 0 = []) (hb : s.boot = some c) :
      Step lg s (.exec 0) (bootEnter lg s 0 c)
  | commitEnter {p : Proc} {c : Log.CommitPc} (hio : s.io p = .ready) (hcode : s.code p = [])
      (hb : s.boot = none) (hp : s.log.pc p = .commit c) :
      Step lg s (.exec p) (commitEnter lg s p c)
  | instr {p : Proc} {c : Instr} {rest : List Instr} {s' : State} (hio : s.io p = .ready)
      (hcode : s.code p = c :: rest) (hi : InstrStep (s.setCode p rest) p c s') :
      Step lg s (.exec p) s'

section Inversion

variable {lg : LogArea} {s s' : State} {p : Proc}

theorem releasesleep_done {i : Slot} (h : releasesleep s p i = .done s') :
    (s.buf i).lock = some p ∧
      s' = (s.setBuf i { s.buf i with lock := none }).setIo p (.brelse i) := by
  simp only [releasesleep] at h
  split at h <;> cases h
  next hl => exact ⟨hl, rfl⟩

theorem bwrite_done {v : Block} (h : bwrite s p v = .done s') :
    (s.buf (s.reg p .dst)).lock = some p ∧
      s' = advance ((s.setBuf (s.reg p .dst) { s.buf (s.reg p .dst) with data := v }).writeDisk
        (s.buf (s.reg p .dst)).blockno v) p := by
  simp only [bwrite] at h
  split at h <;> cases h
  next hl => exact ⟨hl, rfl⟩

theorem instrStep_of_done {c : Instr} (h : instr s p c = .done s') : InstrStep s p c s' := by
  cases c with
  | bread r b =>
    simp only [instr] at h
    split at h <;> cases h
    next hb => exact .bread (bget_some hb)
  | copy =>
    obtain ⟨hl, rfl⟩ := bwrite_done h
    exact .copy rfl hl
  | putHead =>
    obtain ⟨hl, rfl⟩ := bwrite_done h
    exact .putHead rfl hl
  | getHead =>
    cases h
    exact .getHead
  | bunpin =>
    cases h
    exact .bunpin rfl
  | brelse r =>
    obtain ⟨hl, rfl⟩ := releasesleep_done h
    exact .brelse rfl hl

theorem step_of_exec (h : exec lg s p = .done s') : Step lg s (.exec p) s' := by
  simp only [exec] at h
  split at h
  · next hio hcode => exact .instr hio hcode (instrStep_of_done h)
  · next hio hcode =>
    split at h
    · next hb =>
      split at h <;> cases h
      next hp =>
        subst hp
        exact .bootEnter hio hcode hb
    · next hb hp =>
      cases h
      exact .commitEnter hio hcode hb hp
    · cases h
  · cases h

theorem step_of_lift {a : Act} {l : Log.Act Proc} (ha : a.control = some l)
    (h : (if s.free a.proc then lift s (Log.next lg s.log l) else .blocked) = .done s') :
    Step lg s a s' := by
  split at h
  · next hf =>
    cases hn : Log.next lg s.log l with
    | done t =>
      rw [hn] at h
      cases h
      exact .control ha hf (Log.step_of_next hn)
    | blocked | panic =>
      rw [hn] at h
      cases h
  · cases h

theorem step_of_logWrite {i : Slot} {b : Nat} {v : Block}
    (h : next lg s (.logWrite p i b v) = .done s') : Step lg s (.logWrite p i b v) s' := by
  simp only [next] at h
  split at h
  · next op hp =>
    split at h
    · next hcond =>
      obtain ⟨hf, hl, rfl, rfl⟩ := hcond
      simp only [logWrite] at h
      split at h <;> cases h
      next hc => exact .logWrite hp hf hl hc
    · cases h
  · cases h

theorem step_of_next {a : Act} (h : next lg s a = .done s') : Step lg s a s' := by
  cases a with
  | callBegin | beginOp | spurious | endOp | endCommit => exact step_of_lift rfl h
  | bread p b =>
    simp only [next] at h
    split at h
    · next hf =>
      split at h <;> cases h
      next hb => exact .bread hf (bget_some hb)
    · cases h
  | acquire p =>
    simp only [next] at h
    split at h
    · next i hio =>
      simp only [acquiresleep] at h
      split at h <;> cases h
      next hl => exact .acquire hio hl
    · cases h
  | modify p i v =>
    simp only [next] at h
    split at h <;> cases h
    next hcond => exact .modify hcond.1 hcond.2
  | logWrite p i b v => exact step_of_logWrite h
  | brelse p i =>
    simp only [next] at h
    split at h
    · next hf =>
      obtain ⟨hl, rfl⟩ := releasesleep_done h
      exact .brelse hf hl
    · cases h
  | unref p =>
    simp only [next] at h
    split at h <;> cases h
    next hio => exact .unref hio
  | exec p => exact step_of_exec h

end Inversion

end Xv6.Cache

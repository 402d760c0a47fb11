import Xv6.Cache.Steps
import Xv6.Log.Operations

namespace Xv6.Cache

open Lib.Transition
open Log (LogArea)

/-- Whether a process in `bread` or `brelse` counts for buffer `i`. -/
def Io.refs (i : Slot) : Io → Nat
  | .ready => 0
  | .acquiresleep j | .brelse j => if j = i then 1 else 0

def Buf.holders (x : Buf) : Nat := if x.lock.isSome then 1 else 0

namespace State

/-- The number of callers that have buffer `i` from `bread` and have not given it back:
the holder of its sleep-lock and those still inside `bread` or `brelse`. -/
def refs (s : State) (i : Slot) : Nat := (s.buf i).holders + ∑ p, (s.io p).refs i

def unpinned (s : State) (p : Proc) : Nat :=
  match s.log.pc p, s.code p with
  | .commit (.installTrans tail), .bunpin :: _ => tail - 1
  | .commit (.installTrans tail), _ => tail
  | _, _ => 0

def pins (s : State) : List Nat := s.log.lh.drop (∑ p, s.unpinned p)

def pin (s : State) (i : Slot) : Nat :=
  if (s.buf i).dev = ROOTDEV ∧ (s.buf i).blockno ∈ s.pins then 1 else 0

end State

/-- Process `p` has block `b` in the buffer of register `r`, or is about to get it. -/
structure Open (s : State) (p : Proc) (r : Reg) (b : Nat) : Prop where
  caches : (s.buf (s.reg p r)).Caches b
  owner : (s.buf (s.reg p r)).lock = some p ∧ s.dirty (s.reg p r) = false ∨
    s.io p = .acquiresleep (s.reg p r)

/-- Process `p` has the buffer of register `r`, with block `b` in it as `bread` returned it. -/
structure Holds (s : State) (p : Proc) (r : Reg) (b : Nat) : Prop where
  caches : (s.buf (s.reg p r)).Caches b
  lock : (s.buf (s.reg p r)).lock = some p
  clean : s.dirty (s.reg p r) = false

def Apart (s : State) (p : Proc) (r r' : Reg) : Prop :=
  s.reg p r ≠ s.reg p r' ∨ s.io p = .acquiresleep (s.reg p r')

inductive Shape (lg : LogArea) (s : State) (p : Proc) : Prop where
  | idle (hc : s.code p = [])
  | writeLog₀ {tail b : Nat} (hc : s.code p = writeLogBody lg tail b)
      (hp : s.log.pc p = .commit (.writeLog tail)) (hb : s.log.lh[tail]? = some b)
  | writeLog₁ {tail b : Nat} (hc : s.code p = [.bread .src b, .copy, .brelse .src, .brelse .dst])
      (hp : s.log.pc p = .commit (.writeLog tail)) (hb : s.log.lh[tail]? = some b)
      (hd : Open s p .dst (lg.start + tail + 1))
  | writeLog₂ {tail b : Nat} (hc : s.code p = [.copy, .brelse .src, .brelse .dst])
      (hp : s.log.pc p = .commit (.writeLog tail)) (hb : s.log.lh[tail]? = some b)
      (hd : Holds s p .dst (lg.start + tail + 1)) (hs : Open s p .src b) (hne : Apart s p .dst .src)
  | installTrans₀ {tail b : Nat} (hc : s.code p = installTransBody lg tail b)
      (hp : s.log.pc p = .commit (.installTrans tail)) (hb : s.log.lh[tail]? = some b)
  | installTrans₁ {tail b : Nat}
      (hc : s.code p = [.bread .dst b, .copy, .bunpin, .brelse .src, .brelse .dst])
      (hp : s.log.pc p = .commit (.installTrans tail)) (hb : s.log.lh[tail]? = some b)
      (hs : Open s p .src (lg.start + tail + 1))
  | installTrans₂ {tail b : Nat} (hc : s.code p = [.copy, .bunpin, .brelse .src, .brelse .dst])
      (hp : s.log.pc p = .commit (.installTrans tail)) (hb : s.log.lh[tail]? = some b)
      (hs : Holds s p .src (lg.start + tail + 1)) (hd : Open s p .dst b) (hne : Apart s p .src .dst)
  | installTrans₃ {tail b b' : Nat} (hc : s.code p = [.bunpin, .brelse .src, .brelse .dst])
      (hp : s.log.pc p = .commit (.installTrans (tail + 1))) (hb : s.log.lh[tail]? = some b)
      (hs : Holds s p .src b') (hd : Holds s p .dst b) (hne : Apart s p .src .dst)
  | writeHead₀ (hc : s.code p = writeHeadBody lg)
      (hp : s.boot = none ∧ (s.log.pc p = .commit .writeHead ∨
        s.log.pc p = .commit .clearHead) ∨ s.boot = some .clearHead)
  | writeHead₁ (hc : s.code p = [.putHead, .brelse .dst])
      (hp : s.boot = none ∧ (s.log.pc p = .commit .writeHead ∨
        s.log.pc p = .commit .clearHead) ∨ s.boot = some .clearHead)
      (hd : Open s p .dst lg.start)
  | readHead₀ (hc : s.code p = readHeadBody lg) (hp : s.boot = some .readHead)
  | readHead₁ (hc : s.code p = [.getHead, .brelse .dst]) (hp : s.boot = some .readHead)
      (hd : Open s p .dst lg.start)
  | release₂ {b b' : Nat} (hc : s.code p = [.brelse .src, .brelse .dst]) (hs : Holds s p .src b)
      (hd : Holds s p .dst b') (hne : Apart s p .src .dst)
  | release₁ {b : Nat} (hc : s.code p = [.brelse .dst]) (hd : Holds s p .dst b)

/-- While the first process is in `recover_from_log()` with an empty log. -/
structure Booting (lg : LogArea) (s : State) : Prop where
  idle : ∀ p, s.log.pc p = .idle
  lh : s.log.lh = []
  others : ∀ p, p ≠ 0 → s.io p = .ready ∧ s.code p = []
  head : Log.readHead (s.log.disk lg.start) = []
  data : ∀ i b, (s.buf i).Caches b → (s.buf i).valid → (s.buf i).data = s.log.disk b

structure Inv (lg : LogArea) (s : State) : Prop where
  log : Log.Inv s.log
  lru : ∀ i, i ∈ s.lru
  unique : ∀ i j b, (s.buf i).Caches b → (s.buf j).Caches b → i = j
  dev : ∀ i, (s.buf i).dev ≠ ROOTDEV → (s.buf i).refcnt = 0
  valid : ∀ i p, (s.buf i).lock = some p → (s.buf i).valid
  refcnt : ∀ i, (s.buf i).refcnt.toNat = s.refs i + s.pin i
  cached : ∀ b ∈ s.pins, ∃ i, (s.buf i).Caches b ∧ (s.buf i).valid
  shape : ∀ p, Shape lg s p
  booting : s.boot ≠ none → Booting lg s

section Counting

variable {s s' : State} {i : Slot} {p : Proc}

theorem refs_pos_of_lock (h : (s.buf i).lock = some p) : 1 ≤ s.refs i := by
  have hh : (s.buf i).holders = 1 := by simp [Buf.holders, h]
  rw [State.refs, hh]
  exact Nat.le_add_right _ _

theorem refs_pos_of_io (h : (s.io p).refs i = 1) : 1 ≤ s.refs i := by
  have hle := le_sum s.io (Io.refs i) p
  rw [State.refs]
  omega

theorem refs_le (s : State) (i : Slot) : s.refs i ≤ NPROC + 1 := by
  have hh : (s.buf i).holders ≤ 1 := by
    unfold Buf.holders
    split <;> omega
  have hs : ∑ p, (s.io p).refs i ≤ NPROC := by
    have hone : ∀ p ∈ Finset.univ, (s.io p).refs i ≤ 1 := by
      intro p _
      unfold Io.refs
      split <;> (try split) <;> omega
    have hle := Finset.sum_le_card_nsmul Finset.univ (fun p => (s.io p).refs i) 1 hone
    simpa using hle
  rw [State.refs]
  omega

theorem pin_le (s : State) (i : Slot) : s.pin i ≤ 1 := by
  unfold State.pin
  split <;> omega

theorem pins_congr (hl : s'.log.lh = s.log.lh) (hu : ∀ p, s'.unpinned p = s.unpinned p) :
    s'.pins = s.pins := by
  rw [State.pins, State.pins, hl, Finset.sum_congr rfl fun p _ => hu p]

theorem unpinned_eq_zero (h : (s.log.pc p).inCommit = 0) : s.unpinned p = 0 := by
  unfold State.unpinned
  split
  · next hp _ => simp [hp, Log.Pc.inCommit] at h
  · next hp _ => simp [hp, Log.Pc.inCommit] at h
  · rfl

end Counting

section Facts

variable {lg : LogArea} {s : State} {i : Slot} {p : Proc}

theorem Inv.refcnt_lt (h : Inv lg s) (i : Slot) : (s.buf i).refcnt.toNat + 1 < 2 ^ 32 := by
  have h₁ := refs_le s i
  have h₂ := pin_le s i
  rw [h.refcnt]
  simp only [NPROC] at h₁
  omega

theorem Inv.refcnt_ne_zero (h : Inv lg s) (hr : 1 ≤ s.refs i ∨ s.pin i = 1) :
    (s.buf i).refcnt ≠ 0 := by
  intro hz
  have hc := h.refcnt i
  rw [hz] at hc
  change 0 = _ at hc
  omega

theorem Inv.dev_eq (h : Inv lg s) (hr : 1 ≤ s.refs i) : (s.buf i).dev = ROOTDEV := by
  by_contra hd
  exact h.refcnt_ne_zero (Or.inl hr) (h.dev i hd)

theorem Open.refs_pos {r : Reg} {b : Nat} (h : Open s p r b) : 1 ≤ s.refs (s.reg p r) := by
  obtain ⟨hl, -⟩ | hio := h.owner
  · exact refs_pos_of_lock hl
  · exact refs_pos_of_io (p := p) (by simp [hio, Io.refs])

theorem Open.holds {r : Reg} {b : Nat} (h : Open s p r b) (hio : s.io p = .ready) :
    Holds s p r b := by
  obtain hl | hw := h.owner
  · exact ⟨h.caches, hl.1, hl.2⟩
  · simp [hio] at hw

theorem pins_of_committer (hc : ∀ q, q ≠ p → (s.log.pc q).inCommit = 0) :
    s.pins = s.log.lh.drop (s.unpinned p) := by
  rw [State.pins, Finset.sum_eq_single p]
  · intro q _ hq
    exact unpinned_eq_zero (hc q hq)
  · simp

theorem pins_of_no_committer (hc : ∀ q, (s.log.pc q).inCommit = 0) : s.pins = s.log.lh := by
  rw [State.pins, Finset.sum_eq_zero, List.drop_zero]
  intro q _
  exact unpinned_eq_zero (hc q)

end Facts

end Xv6.Cache

import Xv6.Cache.Invariant
import Xv6.Lib.Bytes

namespace Xv6.Cache

open Lib.Bytes Lib.Transition
open Log (LogArea)

variable {lg : LogArea} {s s' : State} {p : Proc} {a : Act}

structure Frame (s s' : State) (p : Proc) : Prop where
  io : ∀ q, q ≠ p → s'.io q = s.io q
  code : ∀ q, q ≠ p → s'.code q = s.code q
  reg : ∀ q, q ≠ p → s'.reg q = s.reg q
  buf : ∀ i, (s.buf i).refcnt = 0 ∨ ((s'.buf i).dev = (s.buf i).dev ∧
    (s'.buf i).blockno = (s.buf i).blockno ∧ ((s.buf i).valid → (s'.buf i).valid))
  lock : ∀ i q, q ≠ p → (s.buf i).lock = some q →
    (s'.buf i).lock = some q ∧ s'.dirty i = s.dirty i

theorem Frame.caches (hf : Frame s s' p) (h : Inv lg s) {i : Slot} {b : Nat}
    (hr : 1 ≤ s.refs i ∨ s.pin i = 1) (hb : (s.buf i).Caches b) :
    (s'.buf i).Caches b ∧ ((s.buf i).valid → (s'.buf i).valid) := by
  obtain ⟨hd, hn, hv⟩ := (hf.buf i).resolve_left (h.refcnt_ne_zero hr)
  exact ⟨⟨hd.trans hb.1, hn.trans hb.2⟩, hv⟩

structure Keeps (s s' : State) (q : Proc) : Prop where
  opens : ∀ {r b}, Open s q r b → Open s' q r b
  holds : ∀ {r b}, Holds s q r b → Holds s' q r b
  apart : ∀ {r r' b}, Holds s q r b → Apart s q r r' → Apart s' q r r'

theorem Frame.keeps (hf : Frame s s' p) (h : Inv lg s) {q : Proc} (hq : q ≠ p) : Keeps s s' q := by
  refine ⟨fun {r b} ho => ?_, fun {r b} ho => ?_, fun {r r' b} _ hne => ?_⟩
  · have hc := (hf.caches h (Or.inl ho.refs_pos) ho.caches).1
    refine ⟨by rwa [hf.reg q hq], ?_⟩
    rw [hf.reg q hq, hf.io q hq]
    refine ho.owner.imp_left fun hl => ?_
    have hk := hf.lock _ q hq hl.1
    exact ⟨hk.1, hk.2.trans hl.2⟩
  · have hc := (hf.caches h (Or.inl (refs_pos_of_lock ho.lock)) ho.caches).1
    have hk := hf.lock _ q hq ho.lock
    refine ⟨?_, ?_, ?_⟩ <;> rw [hf.reg q hq]
    · exact hc
    · exact hk.1
    · exact hk.2.trans ho.clean
  · rwa [Apart, hf.reg q hq, hf.io q hq]

theorem Shape.keep {q : Proc} (h : Shape lg s q) (hc : s'.code q = s.code q)
    (hl : s.code q = [] ∨ ((s.log.pc q).inCommit = 1 → s'.log.pc q = s.log.pc q ∧
      s'.log.lh = s.log.lh) ∧ s'.boot = s.boot)
    (hk : Keeps s s' q) : Shape lg s' q := by
  obtain hl | ⟨hpc, hboot⟩ := hl
  · exact .idle (hc.trans hl)
  have hpc' : ∀ {c}, s.log.pc q = .commit c → s'.log.pc q = .commit c := fun hq =>
    (hpc (by rw [hq]; rfl)).1.trans hq
  have hlh : ∀ {c} {tail b : Nat}, s.log.pc q = .commit c → s.log.lh[tail]? = some b →
      s'.log.lh[tail]? = some b := fun hq hb => (hpc (by rw [hq]; rfl)).2 ▸ hb
  have hhead : s.boot = none ∧ (s.log.pc q = .commit .writeHead ∨ s.log.pc q = .commit .clearHead) ∨
      s.boot = some .clearHead → s'.boot = none ∧ (s'.log.pc q = .commit .writeHead ∨
        s'.log.pc q = .commit .clearHead) ∨ s'.boot = some .clearHead := by
    rw [hboot]
    exact Or.imp_left (And.imp_right (Or.imp hpc' hpc'))
  cases h with
  | idle h => exact .idle (hc.trans h)
  | writeLog₀ h hp hb => exact .writeLog₀ (hc.trans h) (hpc' hp) (hlh hp hb)
  | writeLog₁ h hp hb hd => exact .writeLog₁ (hc.trans h) (hpc' hp) (hlh hp hb) (hk.opens hd)
  | writeLog₂ h hp hb hd hs hne =>
    exact .writeLog₂ (hc.trans h) (hpc' hp) (hlh hp hb) (hk.holds hd) (hk.opens hs) (hk.apart hd hne)
  | installTrans₀ h hp hb => exact .installTrans₀ (hc.trans h) (hpc' hp) (hlh hp hb)
  | installTrans₁ h hp hb hs =>
    exact .installTrans₁ (hc.trans h) (hpc' hp) (hlh hp hb) (hk.opens hs)
  | installTrans₂ h hp hb hs hd hne =>
    exact .installTrans₂ (hc.trans h) (hpc' hp) (hlh hp hb) (hk.holds hs) (hk.opens hd)
      (hk.apart hs hne)
  | installTrans₃ h hp hb hs hd hne =>
    exact .installTrans₃ (hc.trans h) (hpc' hp) (hlh hp hb) (hk.holds hs) (hk.holds hd)
      (hk.apart hs hne)
  | writeHead₀ h hp => exact .writeHead₀ (hc.trans h) (hhead hp)
  | writeHead₁ h hp hd => exact .writeHead₁ (hc.trans h) (hhead hp) (hk.opens hd)
  | readHead₀ h hp => exact .readHead₀ (hc.trans h) (hboot.trans hp)
  | readHead₁ h hp hd => exact .readHead₁ (hc.trans h) (hboot.trans hp) (hk.opens hd)
  | release₂ h hs hd hne => exact .release₂ (hc.trans h) (hk.holds hs) (hk.holds hd) (hk.apart hs hne)
  | release₁ h hd => exact .release₁ (hc.trans h) (hk.holds hd)

theorem Shape.others (h : Inv lg s) (hf : Frame s s' p)
    (hl : ∀ q, q ≠ p → s.code q = [] ∨
      ((s.log.pc q).inCommit = 1 → s'.log.pc q = s.log.pc q ∧ s'.log.lh = s.log.lh) ∧
        s'.boot = s.boot)
    (hp : Shape lg s' p) (q : Proc) : Shape lg s' q := by
  by_cases hq : q = p
  · exact hq ▸ hp
  · exact (h.shape q).keep (hf.code q hq) (hl q hq) (hf.keeps h hq)

theorem Frame.cached (hf : Frame s s' p) (h : Inv lg s) {b : Nat} (hb : b ∈ s.pins) :
    ∃ i, (s'.buf i).Caches b ∧ (s'.buf i).valid := by
  obtain ⟨i, hi, hv⟩ := h.cached b hb
  have hpin : s.pin i = 1 := if_pos ⟨hi.1, hi.2 ▸ hb⟩
  obtain ⟨hc, hv'⟩ := hf.caches h (Or.inr hpin) hi
  exact ⟨i, hc, hv' hv⟩

theorem refs_io {y : Io} (hio : s'.io = Function.update s.io p y) (i : Slot) :
    s'.refs i + (s.io p).refs i + (s.buf i).holders =
      s.refs i + y.refs i + (s'.buf i).holders := by
  have hu := sum_update s.io (Io.refs i) p y
  simp only [State.refs, hio]
  omega

theorem pin_congr {i : Slot} (hpins : s'.pins = s.pins) (hd : (s'.buf i).dev = (s.buf i).dev)
    (hb : (s'.buf i).blockno = (s.buf i).blockno) : s'.pin i = s.pin i := by
  simp only [State.pin, hpins, hd, hb]

theorem unique_congr (h : Inv lg s) (hid : ∀ i, (s'.buf i).dev = (s.buf i).dev ∧
    (s'.buf i).blockno = (s.buf i).blockno) (i j : Slot) (b : Nat) (hi : (s'.buf i).Caches b)
    (hj : (s'.buf j).Caches b) : i = j := by
  refine h.unique i j b ?_ ?_
  · exact ⟨(hid i).1.symm.trans hi.1, (hid i).2.symm.trans hi.2⟩
  · exact ⟨(hid j).1.symm.trans hj.1, (hid j).2.symm.trans hj.2⟩

section Bget

variable {b : Nat} {j : Slot} {x : Buf}

theorem Bget.of_setCode {c : List Instr} (hb : Bget (s.setCode p c) b j x) : Bget s b j x := by
  cases hb with
  | hit h => exact .hit h
  | recycle h hr => exact .recycle h hr

theorem Bget.lock_eq (hb : Bget s b j x) : x.lock = (s.buf j).lock := by
  cases hb <;> rfl

theorem Bget.caches (hb : Bget s b j x) : x.Caches b := by
  cases hb with
  | hit h => exact h
  | recycle => exact ⟨rfl, rfl⟩

theorem Bget.frame_buf (hb : Bget s b j x) (hs : s'.buf = Function.update s.buf j x) (i : Slot) :
    (s.buf i).refcnt = 0 ∨ ((s'.buf i).dev = (s.buf i).dev ∧
      (s'.buf i).blockno = (s.buf i).blockno ∧ ((s.buf i).valid → (s'.buf i).valid)) := by
  by_cases hi : i = j
  · subst hi
    cases hb with
    | hit => exact Or.inr (by simp [hs])
    | recycle _ hr => exact Or.inl hr
  · exact Or.inr (by simp [hs, hi])

theorem Bget.unique (hb : Bget s b j x) (h : Inv lg s) (hs : s'.buf = Function.update s.buf j x)
    (i k : Slot) (b' : Nat) (hi : (s'.buf i).Caches b') (hk : (s'.buf k).Caches b') : i = k := by
  cases hb with
  | hit hc =>
    refine unique_congr h (fun l => ?_) i k b' hi hk
    by_cases hl : l = j
    · subst hl
      simp [hs]
    · simp [hs, hl]
  | recycle hn =>
    -- No other buffer has the block.
    have hother : ∀ l, l ≠ j → ¬ (s'.buf l).Caches b := fun l hl => by
      simpa [hs, hl] using hn l (h.lru l)
    have hj : (s'.buf j).Caches b := by
      rw [hs, Function.update_self]
      exact ⟨rfl, rfl⟩
    have heq : ∀ l, l ≠ j → s'.buf l = s.buf l := fun l hl => by simp [hs, hl]
    by_cases hij : i = j
    · by_cases hkj : k = j
      · exact hij.trans hkj.symm
      · subst hij
        have hbb : b' = b := hi.2.symm.trans hj.2
        exact absurd (hbb ▸ hk) (hother k hkj)
    · by_cases hkj : k = j
      · subst hkj
        have hbb : b' = b := hk.2.symm.trans hj.2
        exact absurd (hbb ▸ hi) (hother i hij)
      · rw [heq i hij] at hi
        rw [heq k hkj] at hk
        exact h.unique i k b' hi hk

theorem Bget.valid (hb : Bget s b j x) (h : Inv lg s) (hs : s'.buf = Function.update s.buf j x)
    (i : Slot) (q : Proc) (hl : (s'.buf i).lock = some q) : (s'.buf i).valid := by
  by_cases hi : i = j
  · subst hi
    rw [hs, Function.update_self] at hl ⊢
    rw [hb.lock_eq] at hl
    cases hb with
    | hit => exact h.valid i q hl
    | recycle _ hr => exact absurd hr (h.refcnt_ne_zero (Or.inl (refs_pos_of_lock hl)))
  · rw [hs, Function.update_of_ne hi] at hl ⊢
    exact h.valid i q hl

theorem Bget.refcnt (hb : Bget s b j x) (h : Inv lg s) (hs : s'.buf = Function.update s.buf j x)
    (hio : s.io p = .ready) (hio' : s'.io = Function.update s.io p (.acquiresleep j))
    (hpins : s'.pins = s.pins) (i : Slot) :
    (s'.buf i).refcnt.toNat = s'.refs i + s'.pin i := by
  have hrefs := refs_io hio' i
  have hold := h.refcnt i
  rw [hio] at hrefs
  by_cases hi : i = j
  · subst hi
    have hx : s'.buf i = x := by rw [hs, Function.update_self]
    have hh : (s'.buf i).holders = (s.buf i).holders := by
      rw [hx, Buf.holders, Buf.holders, hb.lock_eq]
    simp only [Io.refs, if_true] at hrefs
    cases hb with
    | hit hc =>
      have hpin : s'.pin i = s.pin i := pin_congr hpins (by rw [hx]) (by rw [hx])
      rw [hpin, hx, toNat_add_one (h.refcnt_lt i)]
      omega
    | recycle hn hr =>
      rw [hr] at hold
      change 0 = _ at hold
      have hpin : s'.pin i = 0 := by
        refine if_neg fun hp => ?_
        rw [hpins, hx] at hp
        obtain ⟨k, hk, -⟩ := h.cached b hp.2
        exact hn k (h.lru k) hk
      rw [hpin, hx]
      change 1 = _
      omega
  · have hx : s'.buf i = s.buf i := by rw [hs, Function.update_of_ne hi]
    have hpin : s'.pin i = s.pin i := pin_congr hpins (by rw [hx]) (by rw [hx])
    simp only [Io.refs, if_neg (Ne.symm hi)] at hrefs
    rw [hpin, hx]
    rw [hx] at hrefs
    omega

end Bget

theorem free_iff : s.free p ↔ s.boot = none ∧ s.io p = .ready ∧ s.code p = [] := by
  unfold State.free
  split
  · next hb hio hc => simp [hb, hio, hc]
  · next hn => simpa using hn

theorem free_of_inCall (h : s.inCall p) : s.free p := by
  unfold State.inCall at h
  split at h
  · exact h
  · exact h
  · cases h

structure Quiet (p : Proc) (t u : Log.State Proc) : Prop where
  lh : u.lh = t.lh
  commit : ∀ q, q ≠ p → (t.pc q).inCommit = 1 → u.pc q = t.pc q
  installTrans : ∀ q tail,
    u.pc q = .commit (.installTrans tail) ↔ t.pc q = .commit (.installTrans tail)

theorem Quiet.of_wakeup {t u : Log.State Proc} (hl : u.lh = t.lh)
    (hq : ∀ q, q ≠ p → (u.pc q).wakeup = (t.pc q).wakeup)
    (hp : ∀ tail, t.pc p ≠ .commit (.installTrans tail))
    (hp' : ∀ tail, u.pc p ≠ .commit (.installTrans tail)) : Quiet p t u := by
  have hc : ∀ {x y : Log.Pc} {c}, x.wakeup = y.wakeup → y = .commit c → x = .commit c := by
    intro x y c hw hy
    subst hy
    cases x <;> first | exact hw | cases hw
  have hf : ∀ {x y : Log.Pc}, x.wakeup = y.wakeup → y = .finish → x = .finish := by
    intro x y hw hy
    subst hy
    cases x <;> first | exact hw | cases hw
  refine ⟨hl, fun q hne hin => ?_, fun q tail => ?_⟩
  · cases hpc : t.pc q with
    | commit c => exact hc (hq q hne) hpc
    | finish => exact hf (hq q hne) hpc
    | _ => simp [hpc, Log.Pc.inCommit] at hin
  · by_cases hne : q = p
    · subst hne
      exact iff_of_false (hp' tail) (hp tail)
    · exact ⟨hc (hq q hne).symm, hc (hq q hne)⟩

theorem Quiet.of_control {l : Log.Act Proc} {t u : Log.State Proc} (ha : a.control = some l)
    (hs : Log.Step lg t l u) : Quiet a.proc t u := by
  cases a with
  | callBegin p =>
    cases ha
    cases hs with
    | callBegin h => exact .of_wakeup rfl (by simp +contextual) (by simp [h]) (by simp)
  | spurious p =>
    cases ha
    cases hs with
    | spurious h => exact .of_wakeup rfl (by simp +contextual) (by simp [h]) (by simp)
  | beginOp p =>
    cases ha
    cases hs with
    | sleep h | start h => exact .of_wakeup rfl (by simp +contextual) (by simp [h]) (by simp)
  | endOp p =>
    cases ha
    cases hs with
    | endLast h => exact .of_wakeup rfl (by simp +contextual) (by simp [h]) (by simp)
    | endOther h =>
      exact .of_wakeup rfl (by simp +contextual [Log.State.wakeup]) (by simp [h]) (by simp)
  | endCommit p =>
    cases ha
    cases hs with
    | endCommit h =>
      exact .of_wakeup rfl (by simp +contextual [Log.State.wakeup]) (by simp [h]) (by simp)
  | _ => cases ha

theorem unpinned_congr {q : Proc} (hc : s'.code q = s.code q)
    (hp : ∀ tail, s'.log.pc q = .commit (.installTrans tail) ↔
      s.log.pc q = .commit (.installTrans tail)) : s'.unpinned q = s.unpinned q := by
  by_cases h : ∃ tail, s.log.pc q = .commit (.installTrans tail)
  · obtain ⟨tail, h⟩ := h
    simp only [State.unpinned, (hp tail).mpr h, h, hc]
  · have hz : ∀ {t : State}, (¬ ∃ tail, t.log.pc q = .commit (.installTrans tail)) →
        t.unpinned q = 0 := by
      intro t ht
      unfold State.unpinned
      split
      · next htail _ => exact absurd ⟨_, htail⟩ ht
      · next htail _ => exact absurd ⟨_, htail⟩ ht
      · rfl
    rw [hz h, hz fun ⟨tail, ht⟩ => h ⟨tail, (hp tail).mp ht⟩]

theorem Inv.control (h : Inv lg s) {l : Log.Act Proc} {t : Log.State Proc}
    (ha : a.control = some l) (hf : s.free a.proc) (hl : Log.Step lg s.log l t) :
    Inv lg (s.setLog t) := by
  have hq := Quiet.of_control ha hl
  obtain ⟨hboot, -, hcode⟩ := free_iff.mp hf
  have hpins : (s.setLog t).pins = s.pins :=
    pins_congr hq.lh fun q => unpinned_congr rfl (hq.installTrans q)
  refine ⟨h.log.step hl, h.lru, h.unique, h.dev, h.valid, fun i => ?_, fun b hb => ?_, fun q => ?_, ?_⟩
  · rw [pin_congr hpins rfl rfl]
    exact h.refcnt i
  · rw [hpins] at hb
    exact h.cached b hb
  · refine (h.shape q).keep rfl ?_ ⟨fun ho => ⟨ho.caches, ho.owner⟩,
      fun ho => ⟨ho.caches, ho.lock, ho.clean⟩, fun _ hne => hne⟩
    by_cases hqp : q = a.proc
    · exact Or.inl (hqp ▸ hcode)
    · exact Or.inr ⟨fun hin => ⟨hq.commit q hqp hin, hq.lh⟩, rfl⟩
  · simp [hboot]

theorem Inv.touch (h : Inv lg s) {j : Slot} {x : Buf} {y : Io}
    (hj : 1 ≤ s.refs j) (hbuf : s'.buf = Function.update s.buf j x)
    (hio : s'.io = Function.update s.io p y)
    (hd : x.dev = (s.buf j).dev) (hb : x.blockno = (s.buf j).blockno)
    (hv : (s.buf j).valid → x.valid) (hlv : ∀ q, x.lock = some q → x.valid)
    (hlru : ∀ i, i ∈ s'.lru) (hlog : Log.Inv s'.log)
    (hcode : ∀ q, q ≠ p → s'.code q = s.code q) (hreg : s'.reg = s.reg)
    (hlock : ∀ q, q ≠ p → (s.buf j).lock = some q → x.lock = some q)
    (hdirty : ∀ i q, q ≠ p → (s.buf i).lock = some q → s'.dirty i = s.dirty i)
    (hpins : ∀ b ∈ s'.pins, b ∈ s.pins ∨ x.Caches b ∧ x.valid)
    (hrefcnt : ∀ i, (s'.buf i).refcnt.toNat = s'.refs i + s'.pin i)
    (hl : ∀ q, q ≠ p → s.code q = [] ∨
      ((s.log.pc q).inCommit = 1 → s'.log.pc q = s.log.pc q ∧ s'.log.lh = s.log.lh) ∧
        s'.boot = s.boot)
    (hp : Shape lg s' p) (hboot : s'.boot ≠ none → Booting lg s') : Inv lg s' := by
  have hbuf' : ∀ i, (s'.buf i).dev = (s.buf i).dev ∧ (s'.buf i).blockno = (s.buf i).blockno ∧
      ((s.buf i).valid → (s'.buf i).valid) := by
    intro i
    by_cases hi : i = j
    · subst hi
      simpa [hbuf] using ⟨hd, hb, hv⟩
    · simp [hbuf, hi]
  have hf : Frame s s' p := by
    refine ⟨fun q hq => by rw [hio, Function.update_of_ne hq], hcode, fun q _ => by rw [hreg],
      fun i => Or.inr (hbuf' i), fun i q hq hl => ⟨?_, hdirty i q hq hl⟩⟩
    by_cases hi : i = j
    · subst hi
      simpa [hbuf] using hlock q hq hl
    · simpa [hbuf, hi] using hl
  refine ⟨hlog, hlru, unique_congr h fun i => ⟨(hbuf' i).1, (hbuf' i).2.1⟩, fun i hi => ?_,
    fun i q hl => ?_, hrefcnt, fun b hb => ?_, Shape.others h hf hl hp, hboot⟩
  · by_cases hij : i = j
    · subst hij
      rw [hbuf, Function.update_self, hd] at hi
      exact absurd (h.dev_eq hj) hi
    · rw [hbuf, Function.update_of_ne hij] at hi ⊢
      exact h.dev i hi
  · by_cases hi : i = j
    · subst hi
      rw [hbuf, Function.update_self] at hl ⊢
      exact hlv q hl
    · rw [hbuf, Function.update_of_ne hi] at hl ⊢
      exact h.valid i q hl
  · obtain hb | hb := hpins b hb
    · exact hf.cached h hb
    · exact ⟨j, by rwa [hbuf, Function.update_self]⟩

theorem refcnt_touch (h : Inv lg s) {j : Slot} {x : Buf} {y : Io}
    (hbuf : s'.buf = Function.update s.buf j x) (hio : s'.io = Function.update s.io p y)
    (hne : ∀ i, i ≠ j → y.refs i = (s.io p).refs i) (hpin : ∀ i, i ≠ j → s'.pin i = s.pin i)
    (hj : s'.refs j + (s.io p).refs j + (s.buf j).holders = s.refs j + y.refs j + x.holders →
      x.refcnt.toNat = s'.refs j + s'.pin j) (i : Slot) :
    (s'.buf i).refcnt.toNat = s'.refs i + s'.pin i := by
  have hrefs := refs_io hio i
  by_cases hi : i = j
  · subst hi
    rw [hbuf, Function.update_self] at hrefs ⊢
    exact hj hrefs
  · rw [hbuf, Function.update_of_ne hi] at hrefs ⊢
    rw [hne i hi] at hrefs
    rw [hpin i hi, h.refcnt i]
    omega

theorem refcnt_keep (h : Inv lg s) {j : Slot} {x : Buf} {y : Io}
    (hbuf : s'.buf = Function.update s.buf j x) (hio : s'.io = Function.update s.io p y)
    (hne : ∀ i, i ≠ j → y.refs i = (s.io p).refs i) (hpins : s'.pins = s.pins)
    (hd : x.dev = (s.buf j).dev) (hb : x.blockno = (s.buf j).blockno)
    (hj : s'.refs j + (s.io p).refs j + (s.buf j).holders = s.refs j + y.refs j + x.holders →
      x.refcnt.toNat = s'.refs j + s.pin j) (i : Slot) :
    (s'.buf i).refcnt.toNat = s'.refs i + s'.pin i := by
  refine refcnt_touch h hbuf hio hne (fun k hk => ?_) (fun hrefs => ?_) i
  · exact pin_congr hpins (by simp [hbuf, hk]) (by simp [hbuf, hk])
  · rw [pin_congr hpins (by simp [hbuf, hd]) (by simp [hbuf, hb])]
    exact hj hrefs

theorem Booting.touch (h : Booting lg s) {j : Slot} {x : Buf} (hlog : s'.log = s.log)
    (hbuf : s'.buf = Function.update s.buf j x)
    (hio : ∀ q, q ≠ 0 → s'.io q = s.io q) (hcode : ∀ q, q ≠ 0 → s'.code q = s.code q)
    (hx : ∀ b, x.Caches b → x.valid → x.data = s.log.disk b) : Booting lg s' := by
  refine ⟨by rw [hlog]; exact h.idle, by rw [hlog]; exact h.lh, fun q hq => ?_,
    by rw [hlog]; exact h.head, fun i b hb hv => ?_⟩
  · rw [hio q hq, hcode q hq]
    exact h.others q hq
  · rw [hlog]
    by_cases hi : i = j
    · subst hi
      rw [hbuf, Function.update_self] at hb hv ⊢
      exact hx b hb hv
    · rw [hbuf, Function.update_of_ne hi] at hb hv ⊢
      exact h.data i b hb hv

theorem Buf.fill_eq (x : Buf) (p : Proc) (disk : Disk) :
    (x.fill p disk).dev = x.dev ∧ (x.fill p disk).blockno = x.blockno ∧
      (x.fill p disk).valid = true ∧ (x.fill p disk).lock = some p ∧
      (x.fill p disk).refcnt = x.refcnt ∧
      (x.fill p disk).data = if x.valid then x.data else disk x.blockno := by
  unfold Buf.fill
  split
  · next hv => simp [hv]
  · simp

theorem Inv.eq_zero_of_boot (h : Inv lg s) (hb : s.boot ≠ none) (hio : s.io p ≠ .ready) : p = 0 := by
  by_contra hp
  exact hio ((h.booting hb).others p hp).1

theorem Inv.acquire (h : Inv lg s) {i : Slot} (hio : s.io p = .acquiresleep i)
    (hl : (s.buf i).lock = none) :
    Inv lg (((s.setBuf i ((s.buf i).fill p s.log.disk)).setIo p .ready).setDirty i false) := by
  obtain ⟨hd, hb, hv, hlk, hr, hdata⟩ := (s.buf i).fill_eq p s.log.disk
  have hpos := refs_pos_of_io (s := s) (i := i) (p := p) (by simp [hio, Io.refs])
  refine h.touch (p := p) (j := i) hpos rfl rfl hd hb (fun _ => hv) (fun _ _ => hv) h.lru h.log
    (fun _ _ => rfl) rfl ?_ ?_ (fun b hb => Or.inl hb) ?_ (fun _ _ => Or.inr ⟨fun _ => ⟨rfl, rfl⟩, rfl⟩)
    ?_ ?_
  · simp [hl]
  · intro k q _ hk
    have hki : k ≠ i := by
      rintro rfl
      simp [hl] at hk
    simp [hki]
  · refine refcnt_keep h (p := p) (j := i) rfl rfl ?_ rfl hd hb fun hrefs => ?_
    · intro k hk
      simp [hio, Io.refs, hk.symm]
    · rw [hr, h.refcnt i]
      simp [Buf.holders, hlk, hl, hio, Io.refs] at hrefs
      omega
  · have hne : ∀ {r b}, Holds s p r b → s.reg p r ≠ i := by
      rintro r b ho rfl
      simpa [hl] using ho.lock
    refine (h.shape p).keep rfl (Or.inr ⟨fun _ => ⟨rfl, rfl⟩, rfl⟩)
      ⟨fun {r b} ho => ?_, fun {r b} ho => ?_, fun {r r' b} ho hne' => Or.inl ?_⟩
    · by_cases hri : s.reg p r = i
      · refine ⟨?_, Or.inl ?_⟩
        · simpa [hri, Buf.Caches, hd, hb] using hri ▸ ho.caches
        · simp [hri, hlk]
      · refine ⟨by simpa [hri] using ho.caches, Or.inl ?_⟩
        have hown := ho.owner.resolve_right fun hw => by
          rw [hio, Io.acquiresleep.injEq] at hw
          exact hri hw.symm
        simpa [hri] using hown
    · have hri := hne ho
      exact ⟨by simpa [hri] using ho.caches, by simpa [hri] using ho.lock,
        by simpa [hri] using ho.clean⟩
    · refine hne'.elim id fun hw => ?_
      rw [hio, Io.acquiresleep.injEq] at hw
      exact hw ▸ hne ho
  · intro hboot
    have hp := h.eq_zero_of_boot (p := p) hboot (by simp [hio])
    have hB := h.booting hboot
    refine hB.touch rfl rfl (fun q hq => ?_) (fun _ _ => rfl) fun b hc _ => ?_
    · simp [hp, hq]
    · have hc' : (s.buf i).Caches b := ⟨hd.symm.trans hc.1, hb.symm.trans hc.2⟩
      rw [hdata]
      split
      · next hval => exact hB.data i b hc' hval
      · rw [hc'.2]

theorem Inv.modify (h : Inv lg s) {i : Slot} {v : Block} (hf : s.free p)
    (hl : (s.buf i).lock = some p) :
    Inv lg ((s.setBuf i { s.buf i with data := v }).setDirty i true) := by
  obtain ⟨hboot, hio, hcode⟩ := free_iff.mp hf
  refine h.touch (p := p) (j := i) (y := s.io p) (refs_pos_of_lock hl) rfl
    (Function.update_eq_self p s.io).symm rfl rfl id (fun q hq => h.valid i q hq) h.lru h.log (fun _ _ => rfl) rfl (fun _ _ hq => hq) ?_
    (fun b hb => Or.inl hb) ?_ (fun _ _ => Or.inr ⟨fun _ => ⟨rfl, rfl⟩, rfl⟩) (.idle hcode) ?_
  · intro k q hq hk
    have hki : k ≠ i := by
      rintro rfl
      exact hq (Option.some.inj (hk.symm.trans hl))
    simp [hki]
  · refine refcnt_keep h (p := p) (j := i) (y := s.io p) rfl
      (Function.update_eq_self p s.io).symm (fun _ _ => rfl) rfl rfl rfl fun hrefs => ?_
    have hc := h.refcnt i
    simp only [Buf.holders] at hrefs ⊢
    omega
  · simp [hboot]

theorem Inv.releasesleep (h : Inv lg s) {i : Slot} (hio : s.io p = .ready)
    (hl : (s.buf i).lock = some p) (hbuf : s'.buf = Function.update s.buf i { s.buf i with lock := none })
    (hio' : s'.io = Function.update s.io p (.brelse i)) (hlog : s'.log = s.log)
    (hlru : s'.lru = s.lru) (hcode : ∀ q, q ≠ p → s'.code q = s.code q) (hreg : s'.reg = s.reg)
    (hboot : s'.boot = s.boot) (hdirty : s'.dirty = s.dirty) (hpins : s'.pins = s.pins)
    (hp : Shape lg s' p) (hzero : s.boot ≠ none → p = 0) : Inv lg s' := by
  refine h.touch (p := p) (j := i) (refs_pos_of_lock hl) hbuf hio' rfl rfl id (fun q hq => by cases hq)
    (by rw [hlru]; exact h.lru) (by rw [hlog]; exact h.log) hcode hreg ?_
    (fun _ _ _ _ => by rw [hdirty]) (fun b hb => Or.inl (hpins ▸ hb)) ?_
    (fun _ _ => Or.inr ⟨fun _ => by simp only [hlog, and_self], hboot⟩) hp ?_
  · intro q hq hk
    exact absurd (Option.some.inj (hk.symm.trans hl)) hq
  · refine refcnt_keep h (p := p) (j := i) hbuf hio' ?_ hpins rfl rfl fun hrefs => ?_
    · intro k hk
      simp [hio, Io.refs, hk.symm]
    · have hc := h.refcnt i
      simp [Buf.holders, hl, hio, Io.refs] at hrefs
      change (s.buf i).refcnt.toNat = _
      omega
  · intro hb
    rw [hboot] at hb
    have hp0 := hzero hb
    refine (h.booting hb).touch hlog hbuf (fun q hq => ?_) (fun q hq => ?_) fun b hc hv => ?_
    · rw [hio', hp0, Function.update_of_ne hq]
    · exact hcode q (hp0 ▸ hq)
    · exact (h.booting hb).data i b hc hv

theorem Inv.unref (h : Inv lg s) {i : Slot} (hio : s.io p = .brelse i) :
    Inv lg (unref s p i) := by
  have hr := refs_pos_of_io (s := s) (i := i) (p := p) (by simp [hio, Io.refs])
  have hpos : 1 ≤ (s.buf i).refcnt.toNat := by
    rw [h.refcnt i]
    omega
  refine h.touch (p := p) (j := i) hr rfl rfl rfl rfl id (fun q hq => h.valid i q hq) ?_ h.log
    (fun _ _ => rfl) rfl (fun _ _ hq => hq) (fun _ _ _ _ => rfl) (fun b hb => Or.inl hb) ?_
    (fun _ _ => Or.inr ⟨fun _ => ⟨rfl, rfl⟩, rfl⟩) ?_ ?_
  · intro k
    change k ∈ if _ then _ else _
    split
    · by_cases hk : k = i
      · simp [hk]
      · simp [hk, h.lru k]
    · exact h.lru k
  · refine refcnt_keep h (p := p) (j := i) rfl rfl ?_ rfl rfl rfl fun hrefs => ?_
    · intro k hk
      simp [hio, Io.refs, hk.symm]
    · have hc := h.refcnt i
      have hs := toNat_sub_one hpos
      simp [Buf.holders, hio, Io.refs] at hrefs
      change ((s.buf i).refcnt - 1).toNat = _
      omega
  · have hsame : ∀ k, ((Cache.unref s p i).buf k).dev = (s.buf k).dev ∧
        ((Cache.unref s p i).buf k).blockno = (s.buf k).blockno ∧
        ((Cache.unref s p i).buf k).lock = (s.buf k).lock := by
      intro k
      by_cases hk : k = i
      · subst hk
        simp [Cache.unref]
      · simp [Cache.unref, hk]
    refine (h.shape p).keep rfl (Or.inr ⟨fun _ => ⟨rfl, rfl⟩, rfl⟩)
      ⟨fun {r b} ho => ?_, fun {r b} ho => ?_, fun {r r' b} ho hne => Or.inl ?_⟩
    · have hown := ho.owner.resolve_right fun hw => by simp [hio] at hw
      obtain ⟨h₁, h₂, h₃⟩ := hsame (s.reg p r)
      exact ⟨⟨h₁.trans ho.caches.1, h₂.trans ho.caches.2⟩, Or.inl ⟨h₃.trans hown.1, hown.2⟩⟩
    · obtain ⟨h₁, h₂, h₃⟩ := hsame (s.reg p r)
      exact ⟨⟨h₁.trans ho.caches.1, h₂.trans ho.caches.2⟩, h₃.trans ho.lock, ho.clean⟩
    · exact hne.resolve_right fun hw => by simp [hio] at hw
  · intro hboot
    have hp := h.eq_zero_of_boot (p := p) hboot (by simp [hio])
    refine (h.booting hboot).touch rfl rfl (fun q hq => ?_) (fun _ _ => rfl) fun b hc hv => ?_
    · simp [Cache.unref, hp, hq]
    · exact (h.booting hboot).data i b hc hv

theorem pin_of_no_committer {i : Slot} (hc : ∀ q, (s.log.pc q).inCommit = 0)
    (hd : (s.buf i).dev = ROOTDEV) : s.pin i = if (s.buf i).blockno ∈ s.log.lh then 1 else 0 := by
  simp only [State.pin, pins_of_no_committer hc, hd, true_and]

theorem Inv.logWrite (h : Inv lg s) {i : Slot} {b : Nat} (hf : s.free p)
    (hl : (s.buf i).lock = some p) (hb : (s.buf i).blockno = b)
    (hc : ∀ q, (s.log.pc q).inCommit = 0) (hc' : ∀ q, (s'.log.pc q).inCommit = 0)
    (hlog : Log.Inv s'.log) (hlh : s'.log.lh = Log.logBlock s.log.lh b)
    (hbuf : s'.buf = Function.update s.buf i { s.buf i with
      refcnt := if b ∈ s.log.lh then (s.buf i).refcnt else (s.buf i).refcnt + 1 })
    (hio : s'.io = s.io) (hcode : s'.code = s.code) (hlru : s'.lru = s.lru) (hreg : s'.reg = s.reg)
    (hboot : s'.boot = s.boot) (hdirty : s'.dirty = Function.update s.dirty i false) :
    Inv lg s' := by
  obtain ⟨hnone, -, hcode₀⟩ := free_iff.mp hf
  have hdev := h.dev_eq (refs_pos_of_lock hl)
  have hio' : s'.io = Function.update s.io p (s.io p) := by rw [hio, Function.update_eq_self]
  refine h.touch (p := p) (j := i) (refs_pos_of_lock hl) hbuf hio' rfl rfl id
    (fun q hq => h.valid i q hq) (by rw [hlru]; exact h.lru) hlog (fun _ _ => by rw [hcode]) hreg
    (fun _ _ hq => hq) ?_ ?_ ?_ ?_ (.idle (by rw [hcode, hcode₀])) ?_
  · intro k q hq hk
    have hki : k ≠ i := by
      rintro rfl
      exact hq (Option.some.inj (hk.symm.trans hl))
    rw [hdirty, Function.update_of_ne hki]
  · intro b' hb'
    rw [pins_of_no_committer hc', hlh, Log.mem_logBlock] at hb'
    rw [pins_of_no_committer hc]
    exact hb'.imp id fun hbb => ⟨⟨hdev, hb.trans hbb.symm⟩, h.valid i p hl⟩
  · refine refcnt_touch h hbuf hio' (fun _ _ => rfl) (fun k hk => ?_) fun hrefs => ?_
    · -- Another buffer does not hold the block.
      have hx : s'.buf k = s.buf k := by rw [hbuf, Function.update_of_ne hk]
      simp only [State.pin, pins_of_no_committer hc, pins_of_no_committer hc', hlh, hx]
      refine if_congr (and_congr_right fun hkd => ?_) rfl rfl
      rw [Log.mem_logBlock]
      refine or_iff_left fun hkb => hk ?_
      exact h.unique k i b ⟨hkd, hkb⟩ ⟨hdev, hb⟩
    · have hcnt := h.refcnt i
      have hx : (s'.buf i).dev = ROOTDEV ∧ (s'.buf i).blockno = b := by
        simpa [hbuf] using ⟨hdev, hb⟩
      rw [pin_of_no_committer hc hdev, hb] at hcnt
      rw [pin_of_no_committer hc' hx.1, hx.2, hlh, if_pos (Log.mem_logBlock.mpr (Or.inr rfl))]
      have hle := toNat_add_one (h.refcnt_lt i)
      simp only [Buf.holders] at hrefs
      change (if b ∈ s.log.lh then (s.buf i).refcnt else (s.buf i).refcnt + 1).toNat = _
      split
      · next hin =>
        rw [if_pos hin] at hcnt
        omega
      · next hin =>
        rw [if_neg hin] at hcnt
        omega
  · intro q _
    refine Or.inr ⟨fun hin => ?_, hboot⟩
    simp [hc q] at hin
  · simp [hboot, hnone]

end Xv6.Cache

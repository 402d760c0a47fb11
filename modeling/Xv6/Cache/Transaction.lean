import Xv6.Cache.Refcount
import Xv6.Log.Crash

namespace Xv6.Cache

open Lib.Bytes Lib.Transition
open Log (LogArea)

variable {lg : LogArea} {s s' : State} {p : Proc} {a : Act}

theorem Inv.bget (h : Inv lg s) {b : Nat} {j : Slot} {x : Buf} (hb : Bget s b j x)
    (hio : s.io p = .ready) (hbuf : s'.buf = Function.update s.buf j x)
    (hio' : s'.io = Function.update s.io p (.acquiresleep j)) (hlog : s'.log = s.log)
    (hlru : s'.lru = s.lru) (hcode : ∀ q, q ≠ p → s'.code q = s.code q)
    (hreg : ∀ q, q ≠ p → s'.reg q = s.reg q) (hboot : s'.boot = s.boot)
    (hdirty : s'.dirty = s.dirty) (hpins : s'.pins = s.pins) (hp : Frame s s' p → Shape lg s' p)
    (hzero : s.boot ≠ none → p = 0) : Inv lg s' := by
  have hlock : ∀ i, (s'.buf i).lock = (s.buf i).lock := by
    intro i
    by_cases hi : i = j
    · subst hi
      rw [hbuf, Function.update_self, hb.lock_eq]
    · rw [hbuf, Function.update_of_ne hi]
  have hf : Frame s s' p :=
    ⟨fun q hq => by rw [hio', Function.update_of_ne hq], hcode, hreg, hb.frame_buf hbuf,
      fun i q _ hl => ⟨(hlock i).trans hl, by rw [hdirty]⟩⟩
  refine ⟨by rw [hlog]; exact h.log, by rw [hlru]; exact h.lru, hb.unique h hbuf, fun i hi => ?_,
    hb.valid h hbuf, hb.refcnt h hbuf hio hio' hpins, fun b' hb' => ?_, ?_, fun hn => ?_⟩
  · by_cases hij : i = j
    · subst hij
      rw [hbuf, Function.update_self] at hi
      exact absurd hb.caches.1 hi
    · rw [hbuf, Function.update_of_ne hij] at hi ⊢
      exact h.dev i hi
  · exact hf.cached h (hpins ▸ hb')
  · refine Shape.others h hf (fun q _ => Or.inr ⟨fun _ => by simp only [hlog, and_self], hboot⟩) (hp hf)
  · rw [hboot] at hn
    have hp0 := hzero hn
    refine (h.booting hn).touch hlog hbuf (fun q hq => hf.io q (hp0 ▸ hq))
      (fun q hq => hcode q (hp0 ▸ hq)) fun b' hc hv => ?_
    cases hb with
    | hit => exact (h.booting hn).data j b' hc hv
    | recycle => cases hv

theorem Inv.bread (h : Inv lg s) {b : Nat} {j : Slot} {x : Buf} (hf : s.free p)
    (hb : Bget s b j x) : Inv lg ((s.setBuf j x).setIo p (.acquiresleep j)) := by
  obtain ⟨hboot, hio, hcode⟩ := free_iff.mp hf
  exact h.bget hb hio rfl rfl rfl rfl (fun _ _ => rfl) (fun _ _ => rfl) rfl rfl rfl
    (fun _ => .idle hcode) fun hn => absurd hboot hn

theorem Inv.enter (h : Inv lg s) (hbuf : s'.buf = s.buf) (hio : s'.io = s.io)
    (hlru : s'.lru = s.lru) (hreg : s'.reg = s.reg) (hdirty : s'.dirty = s.dirty)
    (hcode : ∀ q, q ≠ p → s'.code q = s.code q) (hlog : Log.Inv s'.log) (hpins : s'.pins = s.pins)
    (hl : ∀ q, q ≠ p → s.code q = [] ∨
      ((s.log.pc q).inCommit = 1 → s'.log.pc q = s.log.pc q ∧ s'.log.lh = s.log.lh) ∧
        s'.boot = s.boot)
    (hp : Shape lg s' p) (hboot : s'.boot ≠ none → Booting lg s') : Inv lg s' := by
  have hf : Frame s s' p :=
    ⟨fun q _ => by rw [hio], hcode, fun q _ => by rw [hreg], fun i => Or.inr (by simp [hbuf]),
      fun i q _ hl => by rw [hbuf, hdirty]; exact ⟨hl, rfl⟩⟩
  refine ⟨hlog, by rw [hlru]; exact h.lru, by rw [hbuf]; exact h.unique, by rw [hbuf]; exact h.dev,
    by rw [hbuf]; exact h.valid, fun i => ?_, by rw [hbuf, hpins]; exact h.cached,
    Shape.others h hf hl hp, hboot⟩
  rw [pin_congr hpins (by rw [hbuf]) (by rw [hbuf])]
  simp only [State.refs, hbuf, hio]
  exact h.refcnt i

theorem Booting.no_committer (h : Booting lg s) (q : Proc) : (s.log.pc q).inCommit = 0 := by
  rw [h.idle q]
  rfl

theorem pins_idle (hpc : s'.log.pc = s.log.pc) (hlh : s'.log.lh = s.log.lh)
    (hc : ∀ q, (s.log.pc q).inCommit = 0) : s'.pins = s.pins := by
  rw [pins_of_no_committer hc, pins_of_no_committer (by rw [hpc]; exact hc), hlh]

theorem Inv.bootEnter (h : Inv lg s) {c : BootPc} (hb : s.boot = some c) (hcode : s.code 0 = []) :
    Inv lg (bootEnter lg s 0 c) := by
  have hB := h.booting (by simp [hb])
  have hothers : ∀ q, q ≠ 0 → s.code q = [] := fun q hq => (hB.others q hq).2
  have hcodes : ∀ x q, q ≠ 0 → (s.setCode 0 x).code q = s.code q := fun x q hq =>
    Function.update_of_ne hq _ _
  have hbody : ∀ x, Booting lg (s.setCode 0 x) := fun x =>
    ⟨hB.idle, hB.lh, fun q hq => ⟨(hB.others q hq).1, (hcodes x q hq).trans (hothers q hq)⟩, hB.head,
      hB.data⟩
  have hset : ∀ x, Shape lg (s.setCode 0 x) 0 → Inv lg (s.setCode 0 x) := fun x hx =>
    h.enter rfl rfl rfl rfl rfl (hcodes x) h.log
      (pins_idle rfl rfl hB.no_committer)
      (fun q hq => Or.inl (hothers q hq)) hx fun _ => hbody x
  cases c with
  | readHead => exact hset _ (.readHead₀ (by simp) hb)
  | clearHead => exact hset _ (.writeHead₀ (by simp) (Or.inr hb))
  | installTrans tail =>
    simp only [Cache.bootEnter, hB.lh, List.getElem?_nil]
    refine h.enter rfl rfl rfl rfl rfl (fun _ _ => rfl) ?_ ?_ (fun q hq => Or.inl (hothers q hq))
      (.idle hcode) fun _ => ⟨hB.idle, rfl, hB.others, hB.head, hB.data⟩
    · exact h.log.of_control rfl rfl hB.lh.symm rfl
    · exact pins_congr hB.lh.symm fun _ => rfl
  | done =>
    exact h.enter rfl rfl rfl rfl rfl (fun _ _ => rfl) h.log rfl (fun q hq => Or.inl (hothers q hq))
      (.idle hcode) fun hn => absurd rfl hn

theorem pins_update {x : Log.Pc} (hpc : s'.log.pc = Function.update s.log.pc p x)
    (hothers : ∀ q, q ≠ p → (s.log.pc q).inCommit = 0) :
    s'.pins = s'.log.lh.drop (s'.unpinned p) := by
  refine pins_of_committer fun q hq => ?_
  rw [hpc, Function.update_of_ne hq]
  exact hothers q hq

theorem pins_of_log {n : Nat} (hlog : s'.log = s.log)
    (hothers : ∀ q, q ≠ p → (s.log.pc q).inCommit = 0) (hu : s'.unpinned p = n) :
    s'.pins = s.log.lh.drop n := by
  rw [pins_of_committer (by rw [hlog]; exact hothers), hlog, hu]

theorem unpinned_installTrans {tail : Nat} (hp : s.log.pc p = .commit (.installTrans tail))
    (hc : ∀ x, s.code p ≠ .bunpin :: x) : s.unpinned p = tail := by
  unfold State.unpinned
  split
  · next hc' => exact absurd hc' (hc _)
  · next hp' _ =>
    rw [hp] at hp'
    cases hp'
    rfl
  · next hn _ => exact absurd hp (hn tail)

theorem unpinned_other (hp : ∀ tail, s.log.pc p ≠ .commit (.installTrans tail)) :
    s.unpinned p = 0 := by
  unfold State.unpinned
  split
  · next hp' _ => exact absurd hp' (hp _)
  · next hp' _ => exact absurd hp' (hp _)
  · rfl

theorem Inv.commitEnter (h : Inv lg s) {c : Log.CommitPc} (hb : s.boot = none)
    (hp : s.log.pc p = .commit c) (hcode : s.code p = []) : Inv lg (commitEnter lg s p c) := by
  have hin : (s.log.pc p).inCommit = 1 := by rw [hp]; rfl
  have hothers : ∀ q, q ≠ p → (s.log.pc q).inCommit = 0 := fun q =>
    h.log.counts.only_committer hin
  have hstep : Log.Inv (Log.commitStep lg s.log p c) := h.log.step (.commit hp)
  have hpins := pins_of_committer hothers
  have hcodes : ∀ x q, q ≠ p → (s.setCode p x).code q = s.code q := fun x q hq =>
    Function.update_of_ne hq _ _
  -- Entering a body changes the code only.
  have hset : ∀ x, (s.setCode p x).unpinned p = s.unpinned p → Shape lg (s.setCode p x) p →
      Inv lg (s.setCode p x) := fun x hu hx => by
    refine h.enter (p := p) rfl rfl rfl rfl rfl (hcodes x) h.log ?_
      (fun q _ => Or.inr ⟨fun _ => ⟨rfl, rfl⟩, rfl⟩) hx fun hn => absurd hb hn
    rw [pins_of_committer (s := s.setCode p x) (p := p) hothers, hpins, hu]
    rfl
  -- At the end of a loop only the log's state changes.
  have hmove : ∀ {t : Log.State Proc} {x : Log.Pc}, Log.Inv t → t.pc = Function.update s.log.pc p x →
      t.lh.drop ((s.setLog t).unpinned p) = s.log.lh.drop (s.unpinned p) → Inv lg (s.setLog t) := by
    intro t x ht hpc hd
    refine h.enter (p := p) rfl rfl rfl rfl rfl (fun _ _ => rfl) ht ?_ (fun q hq => Or.inr ⟨?_, rfl⟩)
      (.idle hcode) fun hn => absurd hb hn
    · rw [pins_update (s := s) (p := p) (x := x) hpc hothers, hpins]
      exact hd
    · intro hq'
      simp [hothers q hq] at hq'
  cases c with
  | start =>
    refine hmove hstep (Log.commitStep_pc ..) ?_
    have hx : ∀ tail, (if 0 < s.log.lh.length then .commit (.writeLog 0) else .finish : Log.Pc) ≠
        .commit (.installTrans tail) := by
      intro tail
      split <;> simp
    rw [unpinned_other (by simpa [Log.commitStep] using hx), unpinned_other (by simp [hp])]
    rfl
  | writeLog tail =>
    cases hl : s.log.lh[tail]? with
    | none =>
      simp only [Log.commitStep, hl] at hstep
      simp only [Cache.commitEnter, hl]
      refine hmove hstep rfl ?_
      rw [unpinned_other (by simp), unpinned_other (by simp [hp])]
      rfl
    | some b =>
      simp only [Cache.commitEnter, hl]
      refine hset _ ?_ (.writeLog₀ (by simp) hp hl)
      rw [unpinned_other (by simp [hp]), unpinned_other (by simp [hp])]
  | writeHead | clearHead =>
    refine hset _ ?_ (.writeHead₀ (by simp) (Or.inl ⟨hb, by simp [hp]⟩))
    rw [unpinned_other (by simp [hp]), unpinned_other (by simp [hp])]
  | installTrans tail =>
    have hu := unpinned_installTrans hp (by simp [hcode])
    cases hl : s.log.lh[tail]? with
    | none =>
      simp only [Log.commitStep, hl] at hstep
      simp only [Cache.commitEnter, hl]
      refine hmove hstep rfl ?_
      rw [hu, List.drop_of_length_le (List.getElem?_eq_none_iff.mp hl)]
      exact List.drop_nil
    | some b =>
      simp only [Cache.commitEnter, hl]
      refine hset _ ?_ (.installTrans₀ (by simp) hp hl)
      rw [hu]
      exact unpinned_installTrans hp (by simp [installTransBody])

section Instr

variable {rest : List Instr}

theorem unpinned_code (hlog : s'.log = s.log) (hc : ∀ x, s.code p ≠ .bunpin :: x)
    (hc' : ∀ x, s'.code p ≠ .bunpin :: x) : s'.unpinned p = s.unpinned p := by
  by_cases h : ∃ tail, s.log.pc p = .commit (.installTrans tail)
  · obtain ⟨tail, h⟩ := h
    rw [unpinned_installTrans h hc, unpinned_installTrans (by rw [hlog, h]) hc']
  · have hn : ∀ tail, s.log.pc p ≠ .commit (.installTrans tail) := fun tail ht => h ⟨tail, ht⟩
    rw [unpinned_other hn, unpinned_other (by rw [hlog]; exact hn)]

theorem pins_code (hlog : s'.log = s.log) (hcode : ∀ q, q ≠ p → s'.code q = s.code q)
    (hc : ∀ x, s.code p ≠ .bunpin :: x) (hc' : ∀ x, s'.code p ≠ .bunpin :: x) :
    s'.pins = s.pins := by
  refine pins_congr (by rw [hlog]) fun q => ?_
  by_cases hq : q = p
  · subst hq
    exact unpinned_code hlog hc hc'
  · exact unpinned_congr (hcode q hq) fun tail => by rw [hlog]

theorem Shape.bread (h : Shape lg s p) {r : Reg} {b : Nat} (hc : s.code p = .bread r b :: rest)
    (hcode : s'.code p = rest) (hlog : s'.log = s.log) (hboot : s'.boot = s.boot)
    (hnew : Open s' p r b) (hio : s'.io p = .acquiresleep (s'.reg p r))
    (hold : ∀ r' b', r' ≠ r → Open s p r' b' → Holds s' p r' b') : Shape lg s' p := by
  cases h with
  | writeLog₀ hc' hp hb =>
    cases hc'.symm.trans hc
    exact .writeLog₁ hcode (by rw [hlog, hp]) (by rw [hlog, hb]) hnew
  | writeLog₁ hc' hp hb hd =>
    cases hc'.symm.trans hc
    exact .writeLog₂ hcode (by rw [hlog, hp]) (by rw [hlog, hb]) (hold _ _ (by simp) hd) hnew
      (Or.inr hio)
  | installTrans₀ hc' hp hb =>
    cases hc'.symm.trans hc
    exact .installTrans₁ hcode (by rw [hlog, hp]) (by rw [hlog, hb]) hnew
  | installTrans₁ hc' hp hb hs =>
    cases hc'.symm.trans hc
    exact .installTrans₂ hcode (by rw [hlog, hp]) (by rw [hlog, hb]) (hold _ _ (by simp) hs) hnew
      (Or.inr hio)
  | writeHead₀ hc' hp =>
    cases hc'.symm.trans hc
    exact .writeHead₁ hcode (by rw [hlog, hboot]; exact hp) hnew
  | readHead₀ hc' hp =>
    cases hc'.symm.trans hc
    exact .readHead₁ hcode (by rw [hboot, hp]) hnew
  | _ hc' => cases hc'.symm.trans hc

theorem Shape.bread_rest (h : Shape lg s p) {r : Reg} {b : Nat} (hc : s.code p = .bread r b :: rest)
    (x : List Instr) : rest ≠ .bunpin :: x := by
  rintro rfl
  cases h with
  | _ hc' => cases hc'.symm.trans hc

theorem Inv.zero_of_code (h : Inv lg s) {c : Instr} (hc : s.code p = c :: rest)
    (hb : s.boot ≠ none) : p = 0 := by
  by_contra hp
  have hn := ((h.booting hb).others p hp).2
  rw [hc] at hn
  cases hn

theorem Inv.instrBread (h : Inv lg s) {r : Reg} {b : Nat} {j : Slot} {x : Buf}
    (hc : s.code p = .bread r b :: rest) (hio : s.io p = .ready) (hb : Bget s b j x) :
    Inv lg ((((s.setCode p rest).setBuf j x).setReg p r j).setIo p (.acquiresleep j)) := by
  have hrest := (h.shape p).bread_rest hc
  refine h.bget (p := p) hb hio rfl rfl rfl rfl (fun q hq => Function.update_of_ne hq _ _)
    (fun q hq => Function.update_of_ne hq _ _) rfl rfl ?_ (fun hf => ?_) (h.zero_of_code hc)
  · exact pins_code (p := p) rfl (fun q hq => Function.update_of_ne hq _ _) (by simp [hc])
      (by simpa using hrest)
  · refine (h.shape p).bread hc (by simp) rfl rfl ⟨?_, Or.inr ?_⟩ ?_ fun r' b' hr ho => ?_
    · simpa using hb.caches
    · simp
    · simp
    · have hh := ho.holds hio
      refine ⟨?_, ?_, by simpa [hr] using hh.clean⟩
      · simpa [hr] using (hf.caches h (Or.inl ho.refs_pos) ho.caches).1
      · by_cases hj : s.reg p r' = j
        · subst hj
          simpa [hr, hb.lock_eq] using hh.lock
        · simpa [hr, hj] using hh.lock

theorem Inv.bwrite (h : Inv lg s) {i : Slot} {v : Block} (hl : (s.buf i).lock = some p)
    (hbuf : s'.buf = Function.update s.buf i { s.buf i with data := v }) (hio : s'.io = s.io)
    (hlru : s'.lru = s.lru) (hreg : s'.reg = s.reg) (hdirty : s'.dirty = s.dirty)
    (hcode : ∀ q, q ≠ p → s'.code q = s.code q) (hlog : Log.Inv s'.log) (hpins : s'.pins = s.pins)
    (hothers : ∀ q, q ≠ p → s.code q = [] ∨
      ((s.log.pc q).inCommit = 1 → s'.log.pc q = s.log.pc q ∧ s'.log.lh = s.log.lh) ∧
        s'.boot = s.boot)
    (hp : Shape lg s' p) (hboot : s'.boot ≠ none → Booting lg s') : Inv lg s' := by
  have hio' : s'.io = Function.update s.io p (s.io p) := by rw [hio, Function.update_eq_self]
  refine h.touch (refs_pos_of_lock hl) hbuf hio' rfl rfl id (fun q hq => h.valid i q hq)
    (by rw [hlru]; exact h.lru) hlog hcode hreg (fun _ _ hq => hq) (fun _ _ _ _ => by rw [hdirty])
    (fun b hb => Or.inl (hpins ▸ hb)) ?_ hothers hp hboot
  refine refcnt_keep h hbuf hio' (fun _ _ => rfl) hpins rfl rfl fun hrefs => ?_
  have hc := h.refcnt i
  simp only [Buf.holders] at hrefs ⊢
  omega

theorem Holds.congr {r : Reg} {b : Nat} (h : Holds s p r b) (hreg : s'.reg = s.reg)
    (hdirty : s'.dirty = s.dirty)
    (hbuf : ∀ i, (s'.buf i).dev = (s.buf i).dev ∧ (s'.buf i).blockno = (s.buf i).blockno ∧
      (s'.buf i).lock = (s.buf i).lock) : Holds s' p r b := by
  refine ⟨?_, ?_, ?_⟩ <;> rw [hreg]
  · exact ⟨(hbuf _).1.trans h.caches.1, (hbuf _).2.1.trans h.caches.2⟩
  · exact (hbuf _).2.2.trans h.lock
  · rw [hdirty, h.clean]

theorem Holds.update {r : Reg} {b : Nat} {i : Slot} {x : Buf} (h : Holds s p r b)
    (hbuf : s'.buf = Function.update s.buf i x) (hd : x.dev = (s.buf i).dev)
    (hb : x.blockno = (s.buf i).blockno) (hl : x.lock = (s.buf i).lock) (hreg : s'.reg = s.reg)
    (hdirty : s'.dirty = s.dirty) : Holds s' p r b := by
  refine h.congr hreg hdirty fun k => ?_
  by_cases hk : k = i
  · subst hk
    rw [hbuf, Function.update_self]
    exact ⟨hd, hb, hl⟩
  · rw [hbuf, Function.update_of_ne hk]
    exact ⟨rfl, rfl, rfl⟩

theorem Apart.ne {r r' : Reg} (h : Apart s p r r') (hio : s.io p = .ready) :
    s.reg p r ≠ s.reg p r' :=
  h.resolve_right fun hw => by simp [hio] at hw

theorem advance_of_none (hb : s.boot = none) :
    advance s p = s.setLog (s.log.setPc p (commitAfter (s.log.pc p))) := by
  simp only [advance, hb]

theorem advance_of_some {c : BootPc} (hb : s.boot = some c) :
    advance s p = { s with boot := some (bootAfter c) } := by
  simp only [advance, hb]

theorem Inv.commitWrite (h : Inv lg s) {i : Slot} {v : Block} {c : Log.CommitPc}
    (hb : s.boot = none) (hp : s.log.pc p = .commit c)
    (hc : commitAfter (s.log.pc p) = Log.commitNext s.log.lh c)
    (hlh : (Log.commitStep lg s.log p c).lh = s.log.lh) (hl : (s.buf i).lock = some p)
    (hbuf : s'.buf = Function.update s.buf i { s.buf i with data := v }) (hio : s'.io = s.io)
    (hlru : s'.lru = s.lru) (hreg : s'.reg = s.reg) (hdirty : s'.dirty = s.dirty)
    (hboot : s'.boot = s.boot) (hcode : ∀ q, q ≠ p → s'.code q = s.code q)
    (hlog : s'.log = { s.log with disk := s'.log.disk }.setPc p (commitAfter (s.log.pc p)))
    (hu : s'.unpinned p = s.unpinned p) (hp' : Shape lg s' p) : Inv lg s' := by
  have hin : (s.log.pc p).inCommit = 1 := by rw [hp]; rfl
  have hothers : ∀ q, q ≠ p → (s.log.pc q).inCommit = 0 := fun q =>
    h.log.counts.only_committer hin
  have hpc : s'.log.pc = Function.update s.log.pc p (commitAfter (s.log.pc p)) := by
    rw [hlog]
    rfl
  have hlh' : s'.log.lh = s.log.lh := by
    rw [hlog]
    rfl
  refine h.bwrite (p := p) hl hbuf hio hlru hreg hdirty hcode ?_ ?_ (fun q hq => Or.inr ⟨?_, hboot⟩)
    hp' fun hn => absurd (hboot.trans hb) hn
  · have hstep : Log.Inv (Log.commitStep lg s.log p c) := h.log.step (.commit hp)
    refine hstep.of_control ?_ ?_ (by rw [hlh', hlh]) ?_
    · rw [hlog, Log.commitStep_outstanding]
      rfl
    · rw [hlog, Log.commitStep_committing]
      rfl
    · rw [hpc, Log.commitStep_pc, hc]
  · rw [pins_update hpc hothers, pins_of_committer hothers, hu, hlh']
  · intro hq'
    simp [hothers q hq] at hq'

theorem Inv.copy (h : Inv lg s) {i : Slot} {v : Block} (hc : s.code p = .copy :: rest)
    (hio : s.io p = .ready) (hl : (s.buf i).lock = some p) :
    Inv lg (advance (((s.setCode p rest).setBuf i { s.buf i with data := v }).writeDisk
      (s.buf i).blockno v) p) := by
  have hboot : ∀ {c}, s.log.pc p = .commit c → s.boot = none := by
    intro c hp
    by_contra hb
    have hidle := (h.booting hb).idle p
    rw [hp] at hidle
    cases hidle
  have hcode : ∀ q, q ≠ p → Function.update s.code p rest q = s.code q := fun q hq =>
    Function.update_of_ne hq _ _
  cases h.shape p with
  | writeLog₂ hc' hp hb hd hs hne =>
    cases hc'.symm.trans hc
    rw [advance_of_none ?hb]
    case hb => exact hboot hp
    refine h.commitWrite (hboot hp) hp ?_ ?_ hl rfl rfl rfl rfl rfl rfl hcode rfl ?_
      (.release₂ ?_ ((hs.holds hio).update rfl rfl rfl rfl rfl rfl)
        (hd.update rfl rfl rfl rfl rfl rfl) (Or.inl (hne.ne hio).symm))
    · simp [hp, commitAfter, Log.commitNext, hb]
    · simp [Log.commitStep, hb]
    · rw [unpinned_other (by simp [hp, commitAfter]), unpinned_other (by simp [hp])]
    · simp
  | @installTrans₂ tail b hc' hp hb hs hd hne =>
    cases hc'.symm.trans hc
    rw [advance_of_none ?hb]
    case hb => exact hboot hp
    refine h.commitWrite (hboot hp) hp ?_ ?_ hl rfl rfl rfl rfl rfl rfl hcode rfl ?_
      (.installTrans₃ ?_ ?_ hb (hs.update rfl rfl rfl rfl rfl rfl)
        ((hd.holds hio).update rfl rfl rfl rfl rfl rfl) (Or.inl (hne.ne hio)))
    · simp [hp, commitAfter, Log.commitNext, hb]
    · simp [Log.commitStep, hb]
    · rw [unpinned_installTrans hp (by simp [hc])]
      simp [State.unpinned, hp, commitAfter]
    · simp
    · simp [hp, commitAfter]
  | _ hc' => cases hc'.symm.trans hc

theorem Booting.putHead (h : Booting lg s) (hu : Inv lg s) {i : Slot} {v : Block}
    (hi : (s.buf i).Caches lg.start) (hv : Log.readHead v = [])
    (hbuf : s'.buf = Function.update s.buf i { s.buf i with data := v })
    (hio : ∀ q, q ≠ 0 → s'.io q = s.io q) (hcode : ∀ q, q ≠ 0 → s'.code q = s.code q)
    (hpc : s'.log.pc = s.log.pc) (hlh : s'.log.lh = s.log.lh)
    (hdisk : s'.log.disk = Function.update s.log.disk lg.start v) : Booting lg s' := by
  refine ⟨by rw [hpc]; exact h.idle, by rw [hlh, h.lh], fun q hq => ?_, ?_, fun j b hc hval => ?_⟩
  · rw [hio q hq, hcode q hq]
    exact h.others q hq
  · rw [hdisk, Function.update_self, hv]
  · by_cases hj : j = i
    · subst hj
      rw [hbuf, Function.update_self] at hc ⊢
      have hb : b = lg.start := hc.2.symm.trans hi.2
      rw [hdisk, hb, Function.update_self]
    · rw [hbuf, Function.update_of_ne hj] at hc hval ⊢
      have hb : b ≠ lg.start := by
        rintro rfl
        exact hj (hu.unique j i lg.start hc hi)
      rw [hdisk, Function.update_of_ne hb]
      exact h.data j b hc hval

theorem Inv.putHead (h : Inv lg s) {i : Slot} (hc : s.code p = .putHead :: rest)
    (hio : s.io p = .ready) (hi : s.reg p .dst = i) (hl : (s.buf i).lock = some p) :
    Inv lg (advance (((s.setCode p rest).setBuf i
      { s.buf i with data := Log.putHead s.log.lh (s.buf i).data }).writeDisk
      (s.buf i).blockno (Log.putHead s.log.lh (s.buf i).data)) p) := by
  have hcode : ∀ q, q ≠ p → Function.update s.code p rest q = s.code q := fun q hq =>
    Function.update_of_ne hq _ _
  have hcaches : rest = [.brelse .dst] ∧ Holds s p .dst lg.start ∧
      (s.boot = none ∧ (s.log.pc p = .commit .writeHead ∨ s.log.pc p = .commit .clearHead) ∨
        s.boot = some .clearHead) := by
    cases h.shape p with
    | writeHead₁ hc' hp hd =>
      cases hc'.symm.trans hc
      exact ⟨rfl, hd.holds hio, hp⟩
    | _ hc' => cases hc'.symm.trans hc
  obtain ⟨rfl, hd, ⟨hb, hp | hp⟩ | hb⟩ := hcaches
  · rw [advance_of_none ?hb]
    case hb => exact hb
    refine h.commitWrite hb hp ?_ rfl hl rfl rfl rfl rfl rfl rfl hcode rfl ?_
      (.release₁ ?_ (hd.update rfl rfl rfl rfl rfl rfl))
    · simp [hp, commitAfter, Log.commitNext]
    · rw [unpinned_other (by simp [hp] : ∀ tail, s.log.pc p ≠ .commit (.installTrans tail))]
      exact unpinned_installTrans (by simp [hp, commitAfter]) (by simp)
    · simp
  · rw [advance_of_none ?hb]
    case hb => exact hb
    refine h.commitWrite hb hp ?_ rfl hl rfl rfl rfl rfl rfl rfl hcode rfl ?_
      (.release₁ ?_ (hd.update rfl rfl rfl rfl rfl rfl))
    · simp [hp, commitAfter, Log.commitNext]
    · rw [unpinned_other (by simp [hp, commitAfter]), unpinned_other (by simp [hp])]
    · simp
  · rw [advance_of_some ?hb]
    case hb => exact hb
    have hsome : s.boot ≠ none := by simp [hb]
    have hB := h.booting hsome
    have hp0 := h.zero_of_code hc hsome
    have hcaches : (s.buf i).Caches lg.start := hi ▸ hd.caches
    have hothers : ∀ q, q ≠ p → s.code q = [] := fun q hq => (hB.others q (hp0 ▸ hq)).2
    refine h.bwrite (p := p) hl rfl rfl rfl rfl rfl hcode ?_ ?_ (fun q hq => Or.inl (hothers q hq))
      (.release₁ ?_ (hd.update rfl rfl rfl rfl rfl rfl)) fun _ => ?_
    · exact h.log.of_control rfl rfl rfl rfl
    · exact pins_idle rfl rfl hB.no_committer
    · simp
    · refine hB.putHead h hcaches (v := Log.putHead s.log.lh (s.buf i).data) ?_ rfl (fun _ _ => rfl)
        (fun q hq => hcode q (hp0 ▸ hq)) rfl rfl ?_
      · rw [hB.lh, Log.readHead_putHead_nil]
      · change Function.update s.log.disk (s.buf i).blockno _ = _
        rw [hcaches.2]

theorem Inv.head_nil (h : Inv lg s) (hc : s.code p = .getHead :: rest) (hio : s.io p = .ready) :
    s.boot = some .readHead ∧ rest = [.brelse .dst] ∧ Holds s p .dst lg.start ∧
      Log.readHead (s.buf (s.reg p .dst)).data = [] := by
  cases h.shape p with
  | readHead₁ hc' hb hd =>
    cases hc'.symm.trans hc
    have hB := h.booting (by simp [hb])
    have hh := hd.holds hio
    refine ⟨hb, rfl, hh, ?_⟩
    rw [hB.data _ _ hh.caches (h.valid _ p hh.lock), hB.head]
  | _ hc' => cases hc'.symm.trans hc

theorem Inv.getHead (h : Inv lg s) (hc : s.code p = .getHead :: rest) (hio : s.io p = .ready) :
    Inv lg (advance ((s.setCode p rest).setLog
      { s.log with lh := Log.readHead (s.buf (s.reg p .dst)).data }) p) := by
  have hcode : ∀ q, q ≠ p → Function.update s.code p rest q = s.code q := fun q hq =>
    Function.update_of_ne hq _ _
  obtain ⟨hb, rfl, hh, hlh⟩ := h.head_nil hc hio
  have hsome : s.boot ≠ none := by simp [hb]
  have hB := h.booting hsome
  have hp0 := h.zero_of_code hc hsome
  have hothers : ∀ q, q ≠ p → s.code q = [] := fun q hq => (hB.others q (hp0 ▸ hq)).2
  rw [advance_of_some ?hb]
  case hb => exact hb
  refine h.enter (p := p) rfl rfl rfl rfl rfl hcode ?_ ?_ (fun q hq => Or.inl (hothers q hq))
    (.release₁ (by simp) (hh.congr rfl rfl fun _ => ⟨rfl, rfl, rfl⟩))
    fun _ => ⟨hB.idle, hlh, fun q hq => ?_, hB.head, hB.data⟩
  · exact h.log.of_control rfl rfl (hlh.trans hB.lh.symm) rfl
  · exact pins_idle rfl (hlh.trans hB.lh.symm) hB.no_committer
  · exact ⟨(hB.others q hq).1, (hcode q (hp0 ▸ hq)).trans (hB.others q hq).2⟩

theorem Inv.unpin (h : Inv lg s) {i : Slot} {b : Nat} {bs : List Nat} (hi : (s.buf i).Caches b)
    (hr : 1 ≤ s.refs i) (hpins : s.pins = b :: bs) (hb : b ∉ bs) (hpins' : s'.pins = bs)
    (hbuf : s'.buf = Function.update s.buf i { s.buf i with refcnt := (s.buf i).refcnt - 1 })
    (hio : s'.io = s.io) (hlru : s'.lru = s.lru) (hreg : s'.reg = s.reg)
    (hdirty : s'.dirty = s.dirty) (hlog : s'.log = s.log) (hboot : s'.boot = s.boot)
    (hcode : ∀ q, q ≠ p → s'.code q = s.code q) (hp : Shape lg s' p) (hnone : s.boot = none) :
    Inv lg s' := by
  have hio' : s'.io = Function.update s.io p (s.io p) := by rw [hio, Function.update_eq_self]
  refine h.touch hr hbuf hio' rfl rfl id (fun q hq => h.valid i q hq) (by rw [hlru]; exact h.lru)
    (by rw [hlog]; exact h.log) hcode hreg (fun _ _ hq => hq) (fun _ _ _ _ => by rw [hdirty])
    (fun b' hb' => Or.inl ?_) ?_ (fun _ _ => Or.inr ⟨fun _ => by simp only [hlog, and_self], hboot⟩)
    hp fun hn => absurd (hboot.trans hnone) hn
  · rw [hpins'] at hb'
    rw [hpins]
    exact List.mem_cons_of_mem b hb'
  · refine refcnt_touch h hbuf hio' (fun _ _ => rfl) (fun k hk => ?_) fun hrefs => ?_
    · have hx : s'.buf k = s.buf k := by rw [hbuf, Function.update_of_ne hk]
      simp only [State.pin, hpins, hpins', hx]
      refine if_congr (and_congr_right fun hkd => ?_) rfl rfl
      rw [List.mem_cons, or_iff_right]
      intro hkb
      exact hk (h.unique k i b ⟨hkd, hkb⟩ hi)
    · have hcnt := h.refcnt i
      have hpin : s.pin i = 1 := if_pos ⟨hi.1, by rw [hpins, hi.2]; exact List.mem_cons_self⟩
      have hpin' : s'.pin i = 0 := by
        refine if_neg fun hm => hb ?_
        rw [hpins', hbuf, Function.update_self] at hm
        exact hi.2 ▸ hm.2
      have hs := toNat_sub_one (x := (s.buf i).refcnt) (by omega)
      simp only [Buf.holders] at hrefs
      change ((s.buf i).refcnt - 1).toNat = _
      omega

theorem Inv.bunpin (h : Inv lg s) {i : Slot} (hc : s.code p = .bunpin :: rest)
    (hi : s.reg p .dst = i) :
    Inv lg ((s.setCode p rest).setBuf i { s.buf i with refcnt := (s.buf i).refcnt - 1 }) := by
  have hcode : ∀ q, q ≠ p → Function.update s.code p rest q = s.code q := fun q hq =>
    Function.update_of_ne hq _ _
  cases h.shape p with
  | @installTrans₃ tail b b' hc' hp hb hs hd hne =>
    cases hc'.symm.trans hc
    subst hi
    have hin : (s.log.pc p).inCommit = 1 := by rw [hp]; rfl
    have hothers : ∀ q, q ≠ p → (s.log.pc q).inCommit = 0 := fun q =>
      h.log.counts.only_committer hin
    have hnone : s.boot = none := by
      by_contra hb
      simp [(h.booting hb).idle p] at hp
    have hdrop := List.drop_eq_getElem?_toList_append (l := s.log.lh) (i := tail)
    rw [hb] at hdrop
    have hpins : s.pins = b :: s.log.lh.drop (tail + 1) := by
      rw [pins_of_committer hothers, State.unpinned, hp, hc]
      exact hdrop
    have hnodup : b ∉ s.log.lh.drop (tail + 1) := by
      have hn := h.log.tidy.nodup.sublist (List.drop_sublist tail s.log.lh)
      rw [hdrop] at hn
      exact (List.nodup_cons.mp hn).1
    refine h.unpin (p := p) hd.caches (refs_pos_of_lock hd.lock) hpins hnodup ?_ rfl rfl rfl rfl rfl
      rfl rfl hcode (.release₂ (by simp) (hs.update rfl rfl rfl rfl rfl rfl)
        (hd.update rfl rfl rfl rfl rfl rfl) hne) hnone
    exact pins_of_log rfl hothers (unpinned_installTrans hp (by simp))
  | _ hc' => cases hc'.symm.trans hc

theorem Shape.clean (h : Shape lg s p) {r : Reg} (hc : s.code p = .brelse r :: rest) :
    s.dirty (s.reg p r) = false := by
  cases h with
  | release₂ hc' hs =>
    cases hc'.symm.trans hc
    exact hs.clean
  | release₁ hc' hd =>
    cases hc'.symm.trans hc
    exact hd.clean
  | _ hc' => cases hc'.symm.trans hc

theorem Shape.brelse (h : Shape lg s p) {r : Reg} {i : Slot} (hc : s.code p = .brelse r :: rest)
    (hio : s.io p = .ready) (hi : s.reg p r = i) (hcode : s'.code p = rest)
    (hbuf : s'.buf = Function.update s.buf i { s.buf i with lock := none })
    (hreg : s'.reg = s.reg) (hdirty : s'.dirty = s.dirty) :
    Shape lg s' p ∧ ∀ x, rest ≠ .bunpin :: x := by
  cases h with
  | @release₂ b b' hc' hs hd hne =>
    cases hc'.symm.trans hc
    have hdi : s.reg p .dst ≠ i := hi ▸ (hne.ne hio).symm
    refine ⟨.release₁ (b := b') hcode ⟨?_, ?_, ?_⟩, by simp⟩ <;>
      simp only [hreg, hbuf, hdirty, Function.update_of_ne hdi]
    · exact hd.caches
    · exact hd.lock
    · exact hd.clean
  | release₁ hc' =>
    cases hc'.symm.trans hc
    exact ⟨.idle hcode, by simp⟩
  | _ hc' => cases hc'.symm.trans hc

theorem Inv.instrBrelse (h : Inv lg s) {r : Reg} {i : Slot} (hc : s.code p = .brelse r :: rest)
    (hio : s.io p = .ready) (hi : s.reg p r = i) (hl : (s.buf i).lock = some p) :
    Inv lg (((s.setCode p rest).setBuf i { s.buf i with lock := none }).setIo p (.brelse i)) := by
  obtain ⟨hp, hrest⟩ : Shape lg (((s.setCode p rest).setBuf i
      { s.buf i with lock := none }).setIo p (.brelse i)) p ∧ ∀ x, rest ≠ .bunpin :: x :=
    (h.shape p).brelse hc hio hi (by simp) rfl rfl rfl
  refine h.releasesleep hio hl rfl rfl rfl rfl (fun q hq => Function.update_of_ne hq _ _) rfl rfl rfl
    ?_ hp (h.zero_of_code hc)
  exact pins_code (p := p) rfl (fun q hq => Function.update_of_ne hq _ _) (by simp [hc])
    (by simpa using hrest)

theorem Inv.instr (h : Inv lg s) {c : Instr} (hio : s.io p = .ready) (hc : s.code p = c :: rest)
    (hi : InstrStep (s.setCode p rest) p c s') : Inv lg s' := by
  cases hi with
  | bread hb => exact h.instrBread hc hio hb.of_setCode
  | copy hi hl => exact h.copy hc hio hl
  | putHead hi hl => exact h.putHead hc hio hi hl
  | getHead => exact h.getHead hc hio
  | bunpin hi => exact h.bunpin hc hi
  | brelse hi hl => exact h.instrBrelse hc hio hi hl

end Instr

theorem Inv.step (h : Inv lg s) (hs : Step lg s a s') : Inv lg s' := by
  cases hs with
  | control ha hf hl => exact h.control ha hf hl
  | bread hf hb => exact h.bread (free_of_inCall hf) hb
  | acquire hio hl => exact h.acquire hio hl
  | modify hf hl => exact h.modify (free_of_inCall hf) hl
  | @logWrite p op i hp hf hl hc =>
    have hop := h.log.counts.op (congrArg Log.Pc.op? hp : (s.log.pc p).op? = some op)
    have hnone := h.log.counts.no_committer hop.1
    refine h.logWrite hf hl rfl hnone (fun q => ?_) (h.log.step (.logWrite hp hc)) rfl rfl rfl rfl rfl
      rfl rfl rfl
    by_cases hq : q = p
    · simp [Log.logStore, hq, Log.Pc.inCommit]
    · simpa [Log.logStore, hq] using hnone q
  | brelse hf hl =>
    obtain ⟨hb, hio, hcode⟩ := free_iff.mp (free_of_inCall hf)
    exact h.releasesleep hio hl rfl rfl rfl rfl (fun _ _ => rfl) rfl rfl rfl rfl (.idle hcode)
      fun hn => absurd hb hn
  | unref hio => exact h.unref hio
  | bootEnter hio hcode hb => exact h.bootEnter hb hcode
  | commitEnter hio hcode hb hp => exact h.commitEnter hb hp hcode
  | instr hio hcode hi => exact h.instr hio hcode hi

theorem Inv.init {disk : Disk} (hd : Log.readHead (disk lg.start) = []) :
    Inv lg (State.init disk) := by
  have hlog : Log.Inv (State.init disk).log := Log.Inv.init (Log.init_boot disk)
  refine ⟨hlog, by simp [State.init], ?_, by simp [State.init], by simp [State.init], ?_, ?_,
    fun p => .idle rfl, fun _ => ?_⟩
  · intro i j b hi
    cases hi.1
  · intro i
    simp [State.init, State.refs, State.pin, Buf.holders, Io.refs, ROOTDEV]
  · intro b hb
    simp [State.pins, State.init, Log.State.boot] at hb
  · exact ⟨fun _ => rfl, rfl, fun _ _ => ⟨rfl, rfl⟩, hd, fun i b hc => by cases hc.1⟩

theorem Inv.of_reachable {disk : Disk} (hd : Log.readHead (disk lg.start) = [])
    {ok : State → Act → Prop} (hs : Reachable (machine lg disk) ok s) : Inv lg s := by
  refine hs.invariant (fun t ht => ?_) fun _ _ _ ht _ hn => ht.step (step_of_next hn)
  cases ht
  exact Inv.init hd

theorem Bget.keeps {b : Nat} {i : Slot} {x : Buf} (hb : Bget s b i x) (h : Inv lg s)
    (hr : 1 ≤ s.refs i) : x = { s.buf i with refcnt := (s.buf i).refcnt + 1 } := by
  cases hb with
  | hit => rfl
  | recycle _ hz => exact absurd hz (h.refcnt_ne_zero (Or.inl hr))

/-- With an empty log at boot the reference counts are exact: each counts the callers
that have the buffer, and one more while its block is in the in-memory log header and
not yet passed to `bunpin`. -/
theorem refcnt_exact {disk : Disk} (hd : Log.readHead (disk lg.start) = [])
    (hs : Reachable (machine lg disk) anyStep s) (i : Slot) :
    (s.buf i).refcnt.toNat = s.refs i + s.pin i ∧
      (s.log.committing = false → s.pin i =
        if (s.buf i).dev = ROOTDEV ∧ (s.buf i).blockno ∈ s.log.lh then 1 else 0) ∧
      (∀ p, (s.buf i).lock = some p → 1 ≤ (s.buf i).refcnt.toNat ∧
        ∀ b x, bget s b = some (i, x) →
          x = { s.buf i with refcnt := (s.buf i).refcnt + 1 }) := by
  have h : Inv lg s := .of_reachable hd hs
  have hcnt := h.refcnt i
  refine ⟨hcnt, fun hc => ?_, fun p hl => ⟨?_, fun b x hb => ?_⟩⟩
  · rw [State.pin, pins_of_no_committer (h.log.counts.no_committer hc)]
  · have hr := refs_pos_of_lock hl
    omega
  · exact (bget_some hb).keeps h (refs_pos_of_lock hl)

section Schedules

abbrev Acts := List Act

def bootBread : Acts := [.exec 0, .acquire 0]

def bootBrelse : Acts := [.exec 0, .unref 0]

def bootHead : Acts := .exec 0 :: bootBread ++ .exec 0 :: bootBrelse

def bootInstall : Acts :=
  .exec 0 :: bootBread ++ bootBread ++ .exec 0 :: .exec 0 :: bootBrelse ++ bootBrelse

/-- `recover_from_log()` on a log with `n` blocks. -/
def recoverFromLog (n : Nat) : Acts :=
  bootHead ++ (List.replicate n bootInstall).flatten ++ [.exec 0] ++ bootHead ++ [.exec 0]

def finish (disk : Disk) (as : Acts) : Option State :=
  perform (machine Log.mkfsLogArea disk) (fun _ _ => true) (State.init disk) as

/-- The first slot `bget` hands out after boot that is not the log header's. -/
def slotOne : Slot := ⟨1, one_lt_NBUF⟩

/-- After an operation has logged block 50 its buffer counts twice. -/
theorem refcnt_exact_logWrite : ∃ s, Reachable (machine Log.mkfsLogArea fun _ _ => 0) anyStep s ∧
    (s.buf slotOne).refcnt.toNat = 2 ∧ (s.buf slotOne).refcnt.toNat = s.refs slotOne + s.pin slotOne := by
  have h : (finish (fun _ _ => 0) (recoverFromLog 0 ++ [.callBegin 1, .beginOp 1, .bread 1 50,
      .acquire 1, .logWrite 1 slotOne 50 fun _ => 0])).any fun s => (s.buf slotOne).refcnt.toNat = 2 := by
    decide +kernel
  obtain ⟨s, hr, hb⟩ := Reachable.of_perform (P := anyStep) h rfl fun _ _ _ => trivial
  exact ⟨s, hr, of_decide_eq_true hb, (refcnt_exact (by decide +kernel) hr slotOne).1⟩

def committedDisk : Disk := Function.update (fun _ _ => 0) Log.mkfsLogArea.start
  (Log.putHead [50] fun _ => 0)

def slotTwo : Slot := ⟨2, by decide⟩

/-- Recovery passes the block to `bunpin` although nobody pinned it, and its count wraps.
The next process that gets the block from `bread` holds a buffer with count 0. -/
theorem refcnt_zero_held :
    ∃ s, Reachable (machine Log.mkfsLogArea committedDisk) anyStep s ∧ s.log.committing = false ∧
      s.log.lh = [] ∧ (s.buf slotTwo).Caches 50 ∧ (s.buf slotTwo).lock = some 1 ∧
      s.refs slotTwo = 1 ∧ (s.buf slotTwo).refcnt = 0 := by
  have h : (finish committedDisk (recoverFromLog 1 ++ [.bread 1 50, .acquire 1])).any fun s =>
      s.log.committing = false ∧ s.log.lh = [] ∧ (s.buf slotTwo).Caches 50 ∧
      (s.buf slotTwo).lock = some 1 ∧ s.refs slotTwo = 1 ∧ (s.buf slotTwo).refcnt = 0 := by
    decide +kernel
  obtain ⟨s, hr, hb⟩ := Reachable.of_perform (P := anyStep) h rfl fun _ _ _ => trivial
  exact ⟨s, hr, of_decide_eq_true hb⟩

end Schedules

end Xv6.Cache

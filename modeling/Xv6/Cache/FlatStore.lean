import Xv6.Cache.Transaction

namespace Xv6.Cache

open Lib.Transition
open Log (LogArea)

/-- The flat block store: what the blocks hold after the actions of a run, the latest first. -/
def flat (disk : Disk) : List Act → Disk
  | [] => disk
  | .logWrite _ _ b v :: τ => Function.update (flat disk τ) b v
  | _ :: τ => flat disk τ

/-- The block a process has last asked for with `bread`. -/
def asked (p : Proc) : List Act → Option Nat
  | [] => none
  | .bread q b :: τ => if q = p then some b else asked p τ
  | _ :: τ => asked p τ

/-- A modified buffer is passed to `log_write` before `brelse`, and `log_write` is for blocks
outside the log itself. -/
def logsWrites (lg : LogArea) (s : State) : Act → Bool
  | .brelse _ i => !s.dirty i
  | .logWrite _ _ b _ => !decide (lg.Contains b)
  | _ => true

def view (lg : LogArea) (l : Log.State Proc) (b : Nat) : Block :=
  if lg.Contains b then l.disk b else l.mem b

structure Coherent (lg : LogArea) (s : State) : Prop where
  log : Log.Data lg s.log
  data : ∀ i b, (s.buf i).Caches b → (s.buf i).valid → s.dirty i = false →
    (s.buf i).data = view lg s.log b
  dirty : ∀ i, s.dirty i = true → (s.buf i).lock ≠ none

variable {lg : LogArea} {s s' : State} {p : Proc} {a : Act}

section View

variable {l l' : Log.State Proc} {b : Nat}

theorem view_of_contains (hb : lg.Contains b) : view lg l b = l.disk b := if_pos hb

theorem view_of_not_contains (hb : ¬ lg.Contains b) : view lg l b = l.mem b := if_neg hb

theorem view_congr (hd : l'.disk b = l.disk b) (hm : l'.mem b = l.mem b) :
    view lg l' b = view lg l b := by
  simp only [view, hd, hm]

end View

theorem Coherent.put (hc : Coherent lg s) {j : Slot} {x : Buf} (hlog : Log.Data lg s'.log)
    (hbuf : s'.buf = Function.update s.buf j x) (hdirty : ∀ i, i ≠ j → s'.dirty i = s.dirty i)
    (hview : ∀ i b, i ≠ j → (s.buf i).Caches b → view lg s'.log b = view lg s.log b)
    (hj : ∀ b, x.Caches b → x.valid → s'.dirty j = false → x.data = view lg s'.log b)
    (hl : s'.dirty j = true → x.lock ≠ none) : Coherent lg s' := by
  refine ⟨hlog, fun i b hi hv hd => ?_, fun i hd => ?_⟩
  · by_cases hij : i = j
    · subst hij
      rw [hbuf, Function.update_self] at hi hv ⊢
      exact hj b hi hv hd
    · rw [hbuf, Function.update_of_ne hij] at hi hv ⊢
      rw [hview i b hij hi]
      exact hc.data i b hi hv (hdirty i hij ▸ hd)
  · by_cases hij : i = j
    · subst hij
      rw [hbuf, Function.update_self]
      exact hl hd
    · rw [hbuf, Function.update_of_ne hij]
      exact hc.dirty i (hdirty i hij ▸ hd)

theorem Coherent.move (hc : Coherent lg s) (hlog : Log.Data lg s'.log) (hbuf : s'.buf = s.buf)
    (hdirty : s'.dirty = s.dirty) (hdisk : s'.log.disk = s.log.disk)
    (hmem : s'.log.mem = s.log.mem) : Coherent lg s' := by
  refine ⟨hlog, fun i b hi hv hd => ?_, fun i hd => ?_⟩
  · rw [view_congr (congrFun hdisk b) (congrFun hmem b)]
    rw [hbuf] at hi hv ⊢
    exact hc.data i b hi hv (hdirty ▸ hd)
  · rw [hbuf]
    exact hc.dirty i (hdirty ▸ hd)

theorem Coherent.clean (hc : Coherent lg s) {i : Slot} (hl : (s.buf i).lock = none) :
    s.dirty i = false := by
  by_contra hd
  exact hc.dirty i (by simpa using hd) hl

theorem Coherent.disk_eq_mem (hc : Coherent lg s) (h : Inv lg s) {b : Nat} (hb : ¬ lg.Contains b)
    (hn : b ∉ s.pins) : s.log.disk b = s.log.mem b := by
  by_cases hl : b ∈ s.log.lh
  · cases hcom : s.log.committing with
    | false =>
      rw [pins_of_no_committer (h.log.counts.no_committer hcom)] at hn
      exact absurd hl hn
    | true =>
      obtain ⟨p, hp⟩ : ∃ p, (s.log.pc p).inCommit = 1 := h.log.counts.exists_committer hcom
      rw [pins_of_committer fun q => h.log.counts.only_committer hp] at hn
      obtain ⟨i, hi, rfl⟩ := List.getElem_of_mem hl
      have hlt : i < s.unpinned p := by
        by_contra hge
        apply hn
        rw [List.mem_drop_iff_getElem]
        exact ⟨i - s.unpinned p, by omega, by congr 1; omega⟩
      unfold State.unpinned at hlt
      have hprog := hc.log.progress p
      split at hlt
      · next hpc _ =>
        rw [hpc] at hprog
        exact hprog.2 i hi (by omega)
      · next hpc _ =>
        rw [hpc] at hprog
        exact hprog.2 i hi hlt
      · omega
  · exact hc.log.home b hb hl

theorem Coherent.fill (hc : Coherent lg s) (h : Inv lg s) {i : Slot} {b : Nat}
    (hi : (s.buf i).Caches b) (hv : (s.buf i).valid = false) : s.log.disk b = view lg s.log b := by
  by_cases hb : lg.Contains b
  · rw [view_of_contains hb]
  · rw [view_of_not_contains hb]
    refine hc.disk_eq_mem h hb fun hpin => ?_
    obtain ⟨k, hk, hkv⟩ := h.cached b hpin
    rw [h.unique k i b hk hi, hv] at hkv
    cases hkv

section Calls

theorem control_data {l : Log.Act Proc} {t u : Log.State Proc} (ha : a.control = some l)
    (hs : Log.Step lg t l u) : u.disk = t.disk ∧ u.mem = t.mem ∧ Log.atomicHome lg t l := by
  cases a with
  | callBegin | spurious | beginOp | endOp | endCommit =>
    cases ha
    cases hs <;> exact ⟨rfl, rfl, rfl⟩
  | _ => cases ha

theorem Coherent.control (hc : Coherent lg s) (h : Inv lg s) {l : Log.Act Proc}
    {t : Log.State Proc} (ha : a.control = some l) (hl : Log.Step lg s.log l t) :
    Coherent lg (s.setLog t) := by
  obtain ⟨hd, hm, hok⟩ := control_data ha hl
  exact hc.move (hc.log.step h.log hok hl) rfl rfl hd hm

theorem Coherent.bget (hc : Coherent lg s) {b : Nat} {j : Slot} {x : Buf} (hb : Bget s b j x)
    (hbuf : s'.buf = Function.update s.buf j x) (hdirty : s'.dirty = s.dirty)
    (hlog : s'.log = s.log) : Coherent lg s' := by
  refine hc.put (by rw [hlog]; exact hc.log) hbuf (fun _ _ => by rw [hdirty])
    (fun _ _ _ _ => by rw [hlog]) (fun b' hx hv hd => ?_) fun hd => ?_
  · rw [hlog]
    rw [hdirty] at hd
    cases hb with
    | hit => exact hc.data j b' hx hv hd
    | recycle => cases hv
  · rw [hb.lock_eq]
    exact hc.dirty j (hdirty ▸ hd)

theorem Coherent.acquire (hc : Coherent lg s) (h : Inv lg s) {i : Slot}
    (hl : (s.buf i).lock = none) :
    Coherent lg (((s.setBuf i ((s.buf i).fill p s.log.disk)).setIo p .ready).setDirty i false) := by
  obtain ⟨hd, hb, -, -, -, hdata⟩ := (s.buf i).fill_eq p s.log.disk
  refine hc.put hc.log rfl (fun k hk => Function.update_of_ne hk _ _) (fun _ _ _ _ => rfl)
    (fun b hx _ _ => ?_) fun hd => ?_
  · have hx' : (s.buf i).Caches b := ⟨hd.symm.trans hx.1, hb.symm.trans hx.2⟩
    rw [hdata]
    split
    · next hv => exact hc.data i b hx' hv (hc.clean hl)
    · next hv =>
      rw [hx'.2]
      exact hc.fill h hx' (by simpa using hv)
  · simp at hd

theorem Coherent.logWrite (hc : Coherent lg s) (h : Inv lg s) {i : Slot} {op : Log.Op}
    (hp : s.log.pc p = .active op) (hl : (s.buf i).lock = some p)
    (hcheck : Log.logCheck lg s.log = none) (hb : ¬ lg.Contains (s.buf i).blockno) {x : Buf}
    (hbuf : s'.buf = Function.update s.buf i x)
    (hx : x.blockno = (s.buf i).blockno) (hdata : x.data = (s.buf i).data)
    (hdirty : s'.dirty = Function.update s.dirty i false)
    (hlog : s'.log = Log.logStore s.log p op (s.buf i).blockno (s.buf i).data) :
    Coherent lg s' := by
  have hmem : s'.log.mem = Function.update s.log.mem (s.buf i).blockno (s.buf i).data := by
    rw [hlog]
    rfl
  have hdisk : s'.log.disk = s.log.disk := by
    rw [hlog]
    rfl
  refine hc.put ?_ hbuf (fun k hk => by rw [hdirty, Function.update_of_ne hk]) (fun k b hk hkb => ?_)
    (fun b hxb _ _ => ?_) fun hdi => ?_
  · rw [hlog]
    exact hc.log.logStore h.log.counts hp hb hcheck
  · have hne : b ≠ (s.buf i).blockno := by
      rintro rfl
      exact hk (h.unique k i _ hkb ⟨h.dev_eq (refs_pos_of_lock hl), rfl⟩)
    exact view_congr (by rw [hdisk]) (by rw [hmem, Function.update_of_ne hne])
  · obtain rfl : (s.buf i).blockno = b := hx.symm.trans hxb.2
    rw [view_of_not_contains hb, hmem, Function.update_self, hdata]
  · rw [hdirty, Function.update_self] at hdi
    cases hdi

theorem Coherent.keep (hc : Coherent lg s) {i : Slot} {x : Buf}
    (hbuf : s'.buf = Function.update s.buf i x) (hd : x.dev = (s.buf i).dev)
    (hb : x.blockno = (s.buf i).blockno) (hv : x.valid = (s.buf i).valid)
    (hdata : x.data = (s.buf i).data) (hl : s.dirty i = true → x.lock ≠ none)
    (hdirty : s'.dirty = s.dirty) (hlog : s'.log = s.log) : Coherent lg s' := by
  refine hc.put (by rw [hlog]; exact hc.log) hbuf (fun _ _ => by rw [hdirty])
    (fun _ _ _ _ => by rw [hlog]) (fun b hx hxv hdi => ?_) fun hdi => hl (hdirty ▸ hdi)
  rw [hlog, hdata]
  exact hc.data i b ⟨hd.symm.trans hx.1, hb.symm.trans hx.2⟩ (hv ▸ hxv) (hdirty ▸ hdi)

end Calls

section Transactions

variable {rest : List Instr}

theorem bootEnter_log (lg : LogArea) (p : Proc) (c : BootPc) (hl : s.log.lh = []) : (bootEnter lg s p c).log = s.log := by
  cases c with
  | installTrans tail =>
    simp only [bootEnter, hl, List.getElem?_nil]
    exact hl ▸ rfl
  | _ => rfl

theorem bootEnter_frame (lg : LogArea) (s : State) (p : Proc) (c : BootPc) :
    (bootEnter lg s p c).buf = s.buf ∧ (bootEnter lg s p c).dirty = s.dirty ∧
      (bootEnter lg s p c).log.mem = s.log.mem := by
  cases c with
  | installTrans tail =>
    simp only [bootEnter]
    split <;> exact ⟨rfl, rfl, rfl⟩
  | _ => exact ⟨rfl, rfl, rfl⟩

theorem commitEnter_frame (lg : LogArea) (s : State) (p : Proc) (c : Log.CommitPc) :
    (commitEnter lg s p c).buf = s.buf ∧ (commitEnter lg s p c).dirty = s.dirty ∧
      (commitEnter lg s p c).log.disk = s.log.disk ∧ (commitEnter lg s p c).log.mem = s.log.mem ∧
      ((commitEnter lg s p c).log = s.log ∨
        (commitEnter lg s p c).log = Log.commitStep lg s.log p c) := by
  cases c with
  | start => exact ⟨rfl, rfl, rfl, rfl, Or.inr rfl⟩
  | writeHead | clearHead => exact ⟨rfl, rfl, rfl, rfl, Or.inl rfl⟩
  | writeLog tail | installTrans tail =>
    simp only [commitEnter, Log.commitStep]
    cases s.log.lh[tail]? with
    | none => exact ⟨rfl, rfl, rfl, rfl, Or.inr rfl⟩
    | some b => exact ⟨rfl, rfl, rfl, rfl, Or.inl rfl⟩

theorem Coherent.bootEnter (hc : Coherent lg s) {c : BootPc} (hl : s.log.lh = []) :
    Coherent lg (bootEnter lg s p c) := by
  have hlog := bootEnter_log lg p c hl
  obtain ⟨hbuf, hdirty, -⟩ := bootEnter_frame lg s p c
  exact hc.move (by rw [hlog]; exact hc.log) hbuf hdirty (by rw [hlog]) (by rw [hlog])

theorem Coherent.commitEnter (hc : Coherent lg s) (h : Inv lg s) {c : Log.CommitPc}
    (hp : s.log.pc p = .commit c) : Coherent lg (commitEnter lg s p c) := by
  obtain ⟨hbuf, hdirty, hdisk, hmem, hlog⟩ := commitEnter_frame lg s p c
  refine hc.move ?_ hbuf hdirty hdisk hmem
  obtain hlog | hlog := hlog
  · rw [hlog]
    exact hc.log
  · rw [hlog]
    exact hc.log.commitStep h.log.counts hp

theorem Coherent.bwrite (hc : Coherent lg s) (h : Inv lg s) {i : Slot} {b : Nat} {v : Block}
    (hlog : Log.Data lg s'.log) (hi : (s.buf i).Caches b) (hl : (s.buf i).lock = some p)
    (hbuf : s'.buf = Function.update s.buf i { s.buf i with data := v })
    (hdirty : s'.dirty = s.dirty) (hdisk : s'.log.disk = Function.update s.log.disk b v)
    (hmem : s'.log.mem = s.log.mem) (hv : ¬ lg.Contains b → v = s.log.mem b) : Coherent lg s' := by
  refine hc.put hlog hbuf (fun _ _ => by rw [hdirty]) (fun k b' hk hkb => ?_) (fun b' hx _ _ => ?_)
    fun _ => by simp [hl]
  · have hne : b' ≠ b := by
      rintro rfl
      exact hk (h.unique k i _ hkb hi)
    exact view_congr (by rw [hdisk, Function.update_of_ne hne]) (by rw [hmem])
  · obtain rfl : b = b' := hi.2.symm.trans hx.2
    by_cases hb : lg.Contains b
    · rw [view_of_contains hb, hdisk, Function.update_self]
    · rw [view_of_not_contains hb, hmem]
      exact hv hb

theorem Coherent.holds_data (hc : Coherent lg s) (h : Inv lg s) {r : Reg} {b : Nat}
    (hh : Holds s p r b) : (s.buf (s.reg p r)).data = view lg s.log b :=
  hc.data _ b hh.caches (h.valid _ p hh.lock) hh.clean

theorem Coherent.copy (hc : Coherent lg s) (h : Inv lg s) (hcode : s.code p = .copy :: rest)
    (hio : s.io p = .ready) {i : Slot} (hi : s.reg p .dst = i)
    (hl : (s.buf i).lock = some p) :
    Coherent lg (advance (((s.setCode p rest).setBuf i
      { s.buf i with data := (s.buf (s.reg p .src)).data }).writeDisk
      (s.buf i).blockno (s.buf (s.reg p .src)).data) p) := by
  have hboot : ∀ {c}, s.log.pc p = .commit c → s.boot = none := by
    intro c hp
    by_contra hb
    simp [(h.booting hb).idle p] at hp
  subst hi
  cases h.shape p with
  | @writeLog₂ tail b _ hp hb hd hs hne =>
    have hsrc := hc.holds_data h (hs.holds hio)
    obtain ⟨hlt, hbl⟩ := List.getElem?_eq_some_iff.mp hb
    have hout : ¬ lg.Contains b := hc.log.outside b (hbl ▸ List.getElem_mem hlt)
    have hin : lg.Contains (lg.start + tail + 1) := lg.contains_data (by have := hc.log.fits; omega)
    rw [view_of_not_contains hout] at hsrc
    have hstep := hc.log.commitStep h.log.counts hp
    rw [advance_of_none ?hb]
    case hb => exact hboot hp
    refine hc.bwrite h ?_ hd.caches hl rfl rfl ?_ rfl fun hn => absurd hin hn
    · have hafter : commitAfter (s.log.pc p) = .commit (.writeLog (tail + 1)) := by rw [hp]; rfl
      simp only [Log.commitStep, hb] at hstep
      rw [← hafter, ← hsrc, ← hd.caches.2] at hstep
      exact hstep
    · rw [← hd.caches.2]
      rfl
  | @installTrans₂ tail b _ hp hb hs hd hne =>
    have hsrc := hc.holds_data h hs
    obtain ⟨hlt, hbl⟩ := List.getElem?_eq_some_iff.mp hb
    have hin : lg.Contains (lg.start + tail + 1) := lg.contains_data (by have := hc.log.fits; omega)
    rw [view_of_contains hin] at hsrc
    have hval := hc.log.log_eq_mem hp hb
    have hstep := hc.log.commitStep h.log.counts hp
    rw [advance_of_none ?hb]
    case hb => exact hboot hp
    refine hc.bwrite h ?_ hd.caches hl rfl rfl ?_ rfl fun _ => hsrc.trans hval
    · have hafter : commitAfter (s.log.pc p) = .commit (.installTrans (tail + 1)) := by rw [hp]; rfl
      have hmem := hc.log.commitStep_mem hp
      simp only [Log.commitStep, hb, Log.State.setPc_mem] at hstep hmem
      rw [hmem, ← hafter, ← hsrc, ← hd.caches.2] at hstep
      exact hstep
    · rw [← hd.caches.2]
      rfl
  | _ hc' => cases hc'.symm.trans hcode

theorem Coherent.putHead (hc : Coherent lg s) (h : Inv lg s) (hcode : s.code p = .putHead :: rest)
    (hio : s.io p = .ready) {i : Slot} (hi : s.reg p .dst = i) (hl : (s.buf i).lock = some p) :
    Coherent lg (advance (((s.setCode p rest).setBuf i
      { s.buf i with data := Log.putHead s.log.lh (s.buf i).data }).writeDisk
      (s.buf i).blockno (Log.putHead s.log.lh (s.buf i).data)) p) := by
  subst hi
  cases h.shape p with
  | writeHead₁ _ hp hd =>
    have hh := hd.holds hio
    have hdata := hc.holds_data h hh
    have hin := lg.contains_start
    rw [view_of_contains hin] at hdata
    obtain ⟨hb, hp | hp⟩ | hb := hp
    · have hstep := hc.log.commitStep h.log.counts hp
      rw [advance_of_none ?hb]
      case hb => exact hb
      refine hc.bwrite h ?_ hh.caches hl rfl rfl (hh.caches.2 ▸ rfl) rfl fun hn => absurd hin hn
      have hafter : commitAfter (s.log.pc p) = .commit (.installTrans 0) := by rw [hp]; rfl
      simp only [Log.commitStep] at hstep
      rw [← hafter, ← hdata, ← hh.caches.2] at hstep
      exact hstep
    · have hstep := hc.log.commitStep h.log.counts hp
      rw [advance_of_none ?hb]
      case hb => exact hb
      refine hc.bwrite h ?_ hh.caches hl rfl rfl (hh.caches.2 ▸ rfl) rfl fun hn => absurd hin hn
      have hafter : commitAfter (s.log.pc p) = .finish := by rw [hp]; rfl
      simp only [Log.commitStep] at hstep
      rw [← hafter, ← hdata, ← hh.caches.2] at hstep
      exact hstep
    · rw [advance_of_some ?hb]
      case hb => exact hb
      have hB := h.booting (by simp [hb])
      refine hc.bwrite h ⟨hc.log.fits, hc.log.outside, fun b hbn hbl => ?_, fun q => ?_⟩ hh.caches hl
        rfl rfl (hh.caches.2 ▸ rfl) rfl fun hn => absurd hin hn
      · have hne : b ≠ (s.buf (s.reg p .dst)).blockno := fun e => hbn (e ▸ hh.caches.2 ▸ hin)
        exact (Function.update_of_ne hne _ _).trans (hc.log.home b hbn hbl)
      · exact .of_outside (hB.no_committer q)
  | _ hc' => cases hc'.symm.trans hcode

theorem Coherent.getHead (hc : Coherent lg s) (h : Inv lg s) (hcode : s.code p = .getHead :: rest)
    (hio : s.io p = .ready) :
    Coherent lg (advance ((s.setCode p rest).setLog
      { s.log with lh := Log.readHead (s.buf (s.reg p .dst)).data }) p) := by
  obtain ⟨hb, -, -, hlh⟩ := h.head_nil hcode hio
  have hB := h.booting (by simp [hb])
  rw [advance_of_some ?hb]
  case hb => exact hb
  refine hc.move ?_ rfl rfl rfl rfl
  rw [hlh, ← hB.lh]
  exact hc.log

theorem Coherent.instr (hc : Coherent lg s) (h : Inv lg s) {c : Instr} (hio : s.io p = .ready)
    (hcode : s.code p = c :: rest) (hi : InstrStep (s.setCode p rest) p c s') : Coherent lg s' := by
  cases hi with
  | bread hb =>
    exact hc.bget hb.of_setCode rfl rfl rfl
  | copy hi hl => exact hc.copy h hcode hio hi hl
  | putHead hi hl => exact hc.putHead h hcode hio hi hl
  | getHead => exact hc.getHead h hcode hio
  | bunpin => exact hc.keep rfl rfl rfl rfl rfl (hc.dirty _) rfl rfl
  | brelse hi hl =>
    refine hc.keep rfl rfl rfl rfl rfl (fun hd => ?_) rfl rfl
    have hclean := (h.shape p).clean hcode
    subst hi
    exact absurd hd (by simpa using hclean)

end Transactions

theorem Coherent.step (hc : Coherent lg s) (h : Inv lg s) (hok : logsWrites lg s a)
    (hs : Step lg s a s') : Coherent lg s' := by
  cases hs with
  | control ha hf hl => exact hc.control h ha hl
  | bread hf hb => exact hc.bget hb rfl rfl rfl
  | acquire hio hl => exact hc.acquire h hl
  | @modify p i v hf hl =>
    refine hc.put hc.log rfl (fun k hk => Function.update_of_ne hk _ _) (fun _ _ _ _ => rfl)
      (fun b hx hv hd => ?_) fun _ => by simp [hl]
    simp at hd
  | logWrite hp hf hl hcheck =>
    exact hc.logWrite h hp hl hcheck (by simpa [logsWrites] using hok) rfl rfl rfl rfl rfl
  | @brelse p i hf hl =>
    refine hc.keep rfl rfl rfl rfl rfl (fun hd => ?_) rfl rfl
    simp [logsWrites, hd] at hok
  | unref hio => exact hc.keep rfl rfl rfl rfl rfl (hc.dirty _) rfl rfl
  | bootEnter hio hcode hb => exact hc.bootEnter (h.booting (by simp [hb])).lh
  | commitEnter hio hcode hb hp => exact hc.commitEnter h hp
  | instr hio hcode hi => exact hc.instr h hio hcode hi

theorem Coherent.init (lg : LogArea) (disk : Disk) : Coherent lg (State.init disk) := by
  refine ⟨Log.Data.init (Log.init_boot disk), fun i b _ hv => ?_, fun i hd => ?_⟩
  · cases hv
  · cases hd

section Trace

@[simp] theorem advance_buf (s : State) (p : Proc) : (advance s p).buf = s.buf := by
  unfold advance
  split <;> rfl

@[simp] theorem advance_io (s : State) (p : Proc) : (advance s p).io = s.io := by
  unfold advance
  split <;> rfl

@[simp] theorem advance_code (s : State) (p : Proc) : (advance s p).code = s.code := by
  unfold advance
  split <;> rfl

@[simp] theorem advance_mem (s : State) (p : Proc) : (advance s p).log.mem = s.log.mem := by
  unfold advance
  split <;> rfl

theorem caches_update {i j : Slot} {b : Nat} {x : Buf} (hi : (s.buf i).Caches b)
    (hbuf : s'.buf = Function.update s.buf j x) (hd : x.dev = (s.buf j).dev)
    (hb : x.blockno = (s.buf j).blockno) : (s'.buf i).Caches b := by
  by_cases hij : i = j
  · subst hij
    rw [hbuf, Function.update_self]
    exact ⟨hd.trans hi.1, hb.trans hi.2⟩
  · rwa [hbuf, Function.update_of_ne hij]

theorem Bget.caches_update {i j : Slot} {b b' : Nat} {x : Buf} (hb : Bget s b' j x) (h : Inv lg s)
    (hr : 1 ≤ s.refs i) (hi : (s.buf i).Caches b) (hbuf : s'.buf = Function.update s.buf j x) :
    (s'.buf i).Caches b := by
  obtain ⟨hd, hn, -⟩ := (hb.frame_buf hbuf i).resolve_left (h.refcnt_ne_zero (Or.inl hr))
  exact ⟨hd.trans hi.1, hn.trans hi.2⟩

theorem Step.caches (hs : Step lg s a s') (h : Inv lg s) {i : Slot} (hr : 1 ≤ s.refs i) {b : Nat}
    (hi : (s.buf i).Caches b) : (s'.buf i).Caches b := by
  cases hs with
  | control => exact hi
  | bread hf hb => exact hb.caches_update h hr hi rfl
  | @acquire p j hio hl =>
    obtain ⟨hd, hn, -⟩ := (s.buf j).fill_eq p s.log.disk
    exact caches_update hi rfl hd hn
  | modify | logWrite | brelse | unref => exact caches_update hi rfl rfl rfl
  | bootEnter => rwa [(bootEnter_frame ..).1]
  | commitEnter => rwa [(commitEnter_frame ..).1]
  | instr hio hcode hs =>
    cases hs with
    | bread hb => exact hb.of_setCode.caches_update h hr hi rfl
    | copy | putHead | getHead =>
      rw [advance_buf]
      first | exact hi | exact caches_update hi rfl rfl rfl
    | bunpin | brelse => exact caches_update hi rfl rfl rfl

theorem Step.mem (hs : Step lg s a s') (disk : Disk) (τ : List Act)
    (hm : s.log.mem = flat disk τ) : s'.log.mem = flat disk (a :: τ) := by
  cases hs with
  | @control a l t ha hf hl =>
    have hflat : flat disk (a :: τ) = flat disk τ := by
      cases a <;> first | rfl | cases ha
    rw [hflat, ← hm]
    exact (control_data ha hl).2.1
  | bread | acquire | modify | brelse | unref => exact hm
  | logWrite => exact congrArg (Function.update · _ _) hm
  | bootEnter => exact (bootEnter_frame ..).2.2.trans hm
  | commitEnter => exact (commitEnter_frame ..).2.2.2.1.trans hm
  | instr hio hcode hs =>
    cases hs with
    | copy | putHead | getHead => exact (advance_mem _ _).trans hm
    | bread | bunpin | brelse => exact hm

theorem bootEnter_io (lg : LogArea) (s : State) (p : Proc) (c : BootPc) :
    (bootEnter lg s p c).io = s.io ∧ ∀ q, q ≠ p → (bootEnter lg s p c).code q = s.code q := by
  have hcode : ∀ x q, q ≠ p → Function.update s.code p x q = s.code q := fun x q hq =>
    Function.update_of_ne hq _ _
  cases c with
  | readHead | clearHead => exact ⟨rfl, hcode _⟩
  | done => exact ⟨rfl, fun _ _ => rfl⟩
  | installTrans tail =>
    simp only [bootEnter]
    split
    · exact ⟨rfl, hcode _⟩
    · exact ⟨rfl, fun _ _ => rfl⟩

theorem commitEnter_io (lg : LogArea) (s : State) (p : Proc) (c : Log.CommitPc) :
    (commitEnter lg s p c).io = s.io ∧ ∀ q, q ≠ p → (commitEnter lg s p c).code q = s.code q := by
  have hcode : ∀ x q, q ≠ p → Function.update s.code p x q = s.code q := fun x q hq =>
    Function.update_of_ne hq _ _
  cases c with
  | start => exact ⟨rfl, fun _ _ => rfl⟩
  | writeHead | clearHead => exact ⟨rfl, hcode _⟩
  | writeLog tail | installTrans tail =>
    simp only [commitEnter]
    split
    · exact ⟨rfl, hcode _⟩
    · exact ⟨rfl, fun _ _ => rfl⟩

theorem Step.other (hs : Step lg s a s') {q : Proc} (hq : q ≠ a.proc) :
    s'.io q = s.io q ∧ s'.code q = s.code q := by
  cases hs with
  | control | modify | logWrite => exact ⟨rfl, rfl⟩
  | bread | acquire | brelse | unref => exact ⟨Function.update_of_ne hq _ _, rfl⟩
  | bootEnter =>
    obtain ⟨hio, hcode⟩ := bootEnter_io lg s 0 _
    exact ⟨by rw [hio], hcode q hq⟩
  | commitEnter =>
    obtain ⟨hio, hcode⟩ := commitEnter_io lg s _ _
    exact ⟨by rw [hio], hcode q hq⟩
  | instr hio hcode hi =>
    cases hi with
    | bread | brelse => exact ⟨Function.update_of_ne hq _ _, Function.update_of_ne hq _ _⟩
    | copy | putHead | getHead =>
      rw [advance_io, advance_code]
      exact ⟨rfl, Function.update_of_ne hq _ _⟩
    | bunpin => exact ⟨rfl, Function.update_of_ne hq _ _⟩

theorem Shape.bread_rest_ne_nil {r : Reg} {b : Nat} {rest : List Instr} (h : Shape lg s p)
    (hc : s.code p = .bread r b :: rest) : rest ≠ [] := by
  rintro rfl
  cases h with
  | _ hc' => cases hc'.symm.trans hc

theorem Step.waits (hs : Step lg s a s') (h : Inv lg s) {i : Slot}
    (hio : s'.io a.proc = .acquiresleep i) (hcode : s'.code a.proc = []) :
    ∃ b, a = .bread a.proc b ∧ (s'.buf i).Caches b := by
  have hready : ∀ {p : Proc}, s.io p = .ready → s.io p ≠ .acquiresleep i := by
    intro p hp
    simp [hp]
  cases hs with
  | control ha hf => exact absurd hio (hready (free_iff.mp hf).2.1)
  | modify hf => exact absurd hio (hready (free_iff.mp (free_of_inCall hf)).2.1)
  | logWrite hp hf => exact absurd hio (hready (free_iff.mp hf).2.1)
  | @bread p b j x hf hb =>
    refine ⟨b, rfl, ?_⟩
    simp only [State.setIo_io, Act.proc, Function.update_self, Io.acquiresleep.injEq] at hio
    subst hio
    simpa using hb.caches
  | acquire | brelse | unref => simp [Cache.unref] at hio
  | bootEnter hr =>
    rw [(bootEnter_io ..).1] at hio
    exact absurd hio (hready hr)
  | commitEnter hr =>
    rw [(commitEnter_io ..).1] at hio
    exact absurd hio (hready hr)
  | @instr p c rest s' hr hc hi =>
    cases hi with
    | bread => exact absurd (by simpa using hcode) ((h.shape p).bread_rest_ne_nil hc)
    | copy | putHead | getHead =>
      rw [advance_io] at hio
      exact absurd hio (hready hr)
    | bunpin => exact absurd hio (hready hr)
    | brelse => simp at hio

def Asked (τ : List Act) (s : State) : Prop :=
  ∀ p i, s.io p = .acquiresleep i → s.code p = [] →
    ∃ b, asked p τ = some b ∧ (s.buf i).Caches b

theorem asked_cons_of_ne {τ : List Act} {q : Proc} (hq : q ≠ a.proc) :
    asked q (a :: τ) = asked q τ := by
  cases a with
  | bread p b => exact if_neg (Ne.symm hq)
  | _ => rfl

theorem Asked.step {τ : List Act} (h : Asked τ s) (hinv : Inv lg s) (hs : Step lg s a s') :
    Asked (a :: τ) s' := by
  intro q i hio hcode
  by_cases hq : q = a.proc
  · subst hq
    obtain ⟨b, hb, hi⟩ := hs.waits hinv hio hcode
    refine ⟨b, ?_, hi⟩
    rw [hb]
    exact if_pos rfl
  · obtain ⟨hio', hcode'⟩ := hs.other hq
    rw [hio'] at hio
    obtain ⟨b, hb, hi⟩ := h q i hio (hcode' ▸ hcode)
    refine ⟨b, (asked_cons_of_ne hq).trans hb, ?_⟩
    exact hs.caches hinv (refs_pos_of_io (p := q) (by simp [hio, Io.refs])) hi

variable {disk : Disk} {τ : List Act}

theorem coherent_of_run (hd : Log.readHead (disk lg.start) = [])
    (h : Run (machine lg disk) (logsWrites lg · ·) τ s) :
    Inv lg s ∧ Coherent lg s ∧ s.log.mem = flat disk τ ∧ Asked τ s := by
  refine h.induct (I := fun τ s => Inv lg s ∧ Coherent lg s ∧ s.log.mem = flat disk τ ∧ Asked τ s)
    (fun s hs => ?_) ?_
  · cases hs
    exact ⟨.init hd, .init lg disk, rfl, fun _ _ hio => by cases hio⟩
  · rintro τ s a s' ⟨hinv, hc, hm, ha⟩ hok hn
    have hs := step_of_next hn
    exact ⟨hinv.step hs, hc.step hinv hok hs, hs.mem disk τ hm, ha.step hinv hs⟩

/-- `bread` of a block returns what the flat store holds, the log's own blocks apart, which
are as on disk. Between transactions the flat store is on disk. -/
theorem bread_returns_flat (hd : Log.readHead (disk lg.start) = [])
    (h : Run (machine lg disk) (logsWrites lg · ·) τ s) :
    (∀ p s', s.code p = [] → next lg s (.acquire p) = .done s' →
      ∃ i b, asked p τ = some b ∧ (s'.buf i).lock = some p ∧ (s'.buf i).Caches b ∧
        (s'.buf i).data = if lg.Contains b then s.log.disk b else flat disk τ b) ∧
      (s.log.outstanding = 0 → s.log.committing = false →
        ∀ b, ¬ lg.Contains b → s.log.disk b = flat disk τ b) := by
  obtain ⟨hinv, hc, hm, ha⟩ := coherent_of_run hd h
  refine ⟨fun p s' hcode hn => ?_, fun ho hcom b hb => ?_⟩
  · have hs := step_of_next hn
    have hinv' := hinv.step hs
    have hc' := hc.step hinv rfl hs
    cases hs with
    | control hctl => cases hctl
    | @acquire _ i hio hl =>
      obtain ⟨b, hb, hi⟩ := ha p i hio hcode
      obtain ⟨hfd, hfb, hfv, hfl, -, -⟩ := (s.buf i).fill_eq p s.log.disk
      refine ⟨i, b, hb, ?_, ?_, ?_⟩
      · simpa using hfl
      · simpa [Buf.Caches, hfd, hfb] using hi
      · rw [hc'.data i b (by simpa [Buf.Caches, hfd, hfb] using hi) (by simpa using hfv) (by simp),
          ← hm]
        rfl
  · rw [← hm]
    exact hc.log.home b hb (by simp [hinv.log.tidy.quiet ho hcom])

def commitBread : Acts := [.exec 1, .acquire 1]

def commitBrelse : Acts := [.exec 1, .unref 1]

def commitHead : Acts := .exec 1 :: commitBread ++ .exec 1 :: commitBrelse

def commitOne : Acts :=
  .exec 1 :: .exec 1 :: commitBread ++ commitBread ++ .exec 1 :: commitBrelse ++ commitBrelse ++
    .exec 1 :: commitHead ++ .exec 1 :: commitBread ++ commitBread ++
    .exec 1 :: .exec 1 :: commitBrelse ++ commitBrelse ++ .exec 1 :: commitHead

def writeThenRead : Acts :=
  recoverFromLog 0 ++ [.callBegin 1, .beginOp 1, .bread 1 50, .acquire 1,
    .modify 1 slotOne fun _ => 7, .logWrite 1 slotOne 50 fun _ => 7, .brelse 1 slotOne, .unref 1,
    .endOp 1] ++ commitOne ++ [.endCommit 1, .bread 2 50]

theorem bread_returns_flat_written :
    ∃ s s', Run (machine Log.mkfsLogArea fun _ _ => 0) (logsWrites Log.mkfsLogArea · ·)
        writeThenRead.reverse s ∧
      next Log.mkfsLogArea s (.acquire 2) = .done s' ∧
      (∃ i, (s'.buf i).lock = some 2 ∧ (s'.buf i).data = fun _ => 7) ∧
      s.log.disk 50 = fun _ => 7 := by
  have h : (perform (machine Log.mkfsLogArea fun _ _ => 0) (logsWrites Log.mkfsLogArea)
      (State.init fun _ _ => 0) writeThenRead).any fun s =>
        (s.code 2).isEmpty && s.log.outstanding == 0 && !s.log.committing &&
          (next Log.mkfsLogArea s (.acquire 2)).isDone := by decide +kernel
  obtain ⟨s, hs, hb⟩ := (Option.any_eq_true _ _).mp h
  simp only [Bool.and_eq_true, Bool.not_eq_true', List.isEmpty_iff, beq_iff_eq] at hb
  obtain ⟨⟨⟨hcode, ho⟩, hcom⟩, hn⟩ := hb
  obtain ⟨s', hn'⟩ := Outcome.isDone_iff.mp hn
  have hrun := (Run.start (M := machine Log.mkfsLogArea fun _ _ => 0) rfl).perform hs
  rw [List.append_nil] at hrun
  obtain ⟨hread, hhome⟩ := bread_returns_flat (by decide +kernel) hrun
  obtain ⟨i, b, hask, hl, -, hdata⟩ := hread 2 s' hcode hn'
  cases hask
  exact ⟨s, s', hrun, hn', ⟨i, hl, hdata⟩, hhome ho hcom 50 (by decide)⟩

end Trace

end Xv6.Cache

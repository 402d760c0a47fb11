import Xv6.Icache.Machine

namespace Xv6.Icache

open Fs Lib.Transition

variable {N M : Nat} {s : State N M} {p q : Fin N} {r r' : Fin M} {ip jp : Fin NINODE}

namespace Pc

def ref : Pc M → Option (Fin M)
  | .acquire r | .load r | .free _ r => some r
  | _ => none

def inside : Pc M → Option (Fin M)
  | .load r => some r
  | .free .drop _ => none
  | .free _ r => some r
  | _ => none

/-- The reference that `iput` is about to drop. -/
def frees : Pc M → Option (Fin M)
  | .free _ r => some r
  | _ => none

theorem ref_of_frees {x : Pc M} (h : x.frees = some r) : x.ref = some r := by
  cases x <;> first | exact h | cases h

end Pc

structure Owners (s : State N M) : Prop where
  count : ∀ ip, (s.cache ip).ref = ∑ r, if s.entry r = some ip then 1 else 0
  inUse : ∀ p r, (s.pc p).ref = some r → s.holds r p = true
  lock : ∀ ip p r, s.lock ip = some (p, r) → s.entry r = some ip ∧ s.holds r p = true
  inside : ∀ p r ip, (s.pc p).inside = some r → s.entry r = some ip → s.lock ip = some (p, r)
  alone : ∀ p r q, (s.pc p).frees = some r → s.holds r q = true → q = p

theorem holds_iff : s.holds r p = true ↔ ∃ x, s.ref r = some x ∧ x.holders p = true := by
  rw [State.holds]
  cases s.ref r with
  | none => simp
  | some x => simp

theorem entry_of_ref {x : Ref N} (h : s.ref r = some x) : s.entry r = some x.entry := by
  rw [State.entry, h]
  rfl

theorem holds_of_ref {x : Ref N} (h : s.ref r = some x) (p : Fin N) : s.holds r p = x.holders p := by
  rw [State.holds, h]
  rfl

theorem entry_setRef (s : State N M) (r : Fin M) (o : Option (Ref N)) :
    (s.setRef r o).entry = Function.update s.entry r (o.map Ref.entry) := by
  funext r'
  change (Function.update s.ref r o r').map Ref.entry = _
  by_cases h : r' = r
  · rw [h, Function.update_self, Function.update_self]
  · rw [Function.update_of_ne h, Function.update_of_ne h]
    rfl

theorem holds_setRef_self (s : State N M) (r : Fin M) (x : Ref N) (p : Fin N) :
    (s.setRef r (some x)).holds r p = x.holders p :=
  holds_of_ref (Function.update_self ..) p

theorem holds_setRef_of_ne {o : Option (Ref N)} (h : r' ≠ r) (p : Fin N) :
    (s.setRef r o).holds r' p = s.holds r' p := by
  change (Function.update s.ref r o r').elim false _ = _
  rw [Function.update_of_ne h]
  rfl

namespace Owners

theorem pos (h : Owners s) (he : s.entry r = some ip) : 0 < (s.cache ip).ref := by
  have hle := le_sum s.entry (fun e => if e = some ip then (1 : Nat) else 0) r
  simp only [he, if_true] at hle
  rw [h.count]
  exact hle

theorem only (h : Owners s) (h1 : (s.cache ip).ref = 1) (hr : s.entry r = some ip)
    (hr' : s.entry r' = some ip) : r' = r := by
  rw [h.count, ← Finset.card_filter] at h1
  have hle := Finset.card_le_one.mp h1.le
  exact hle r' (by simpa using hr') r (by simpa using hr)

theorem unlocked (h : Owners s) (h0 : (s.cache ip).ref = 0) : s.lock ip = none := by
  cases hl : s.lock ip with
  | none => rfl
  | some pr =>
    have hpos := h.pos (h.lock ip pr.1 pr.2 hl).1
    omega

theorem unlocked_of_last (h : Owners s) (h1 : (s.cache ip).ref = 1) (hr : s.entry r = some ip)
    (halone : ∀ q, s.holds r q = true → q = p) (hne : s.lock ip ≠ some (p, r)) :
    s.lock ip = none := by
  cases hl : s.lock ip with
  | none => rfl
  | some pr =>
    obtain ⟨q, r'⟩ := pr
    obtain ⟨he, hq⟩ := h.lock ip q r' hl
    obtain rfl := h.only h1 hr he
    obtain rfl := halone q hq
    exact absurd hl hne

theorem congr {s' : State N M} (h : Owners s) (hcache : ∀ ip, (s'.cache ip).ref = (s.cache ip).ref)
    (hlock : s'.lock = s.lock) (href : s'.ref = s.ref) (hpc : s'.pc = s.pc) : Owners s' := by
  have he : s'.entry = s.entry := by
    funext r
    rw [State.entry, State.entry, href]
  have hh : s'.holds = s.holds := by
    funext r p
    rw [State.holds, State.holds, href]
  refine ⟨fun ip => ?_, ?_, ?_, ?_, ?_⟩
  · rw [hcache, he]
    exact h.count ip
  · rw [hpc, hh]
    exact h.inUse
  · rw [hlock, he, hh]
    exact h.lock
  · rw [hpc, he, hlock]
    exact h.inside
  · rw [hpc, hh]
    exact h.alone

theorem setEntry (h : Owners s) {i : Inode} (hi : i.ref = (s.cache ip).ref) :
    Owners (s.setEntry ip i) := by
  refine h.congr (fun jp => ?_) rfl rfl rfl
  change (Function.update s.cache ip i jp).ref = _
  by_cases hj : jp = ip
  · rw [hj, Function.update_self, hi]
  · rw [Function.update_of_ne hj]

theorem write (h : Owners s) (k : Nat × Nat) (d : Dinode) : Owners (s.write k d) :=
  h.congr (fun _ => rfl) rfl rfl rfl

theorem setPc (h : Owners s) {x : Pc M} (huse : ∀ r, x.ref = some r → s.holds r p = true)
    (hin : ∀ r ip, x.inside = some r → s.entry r = some ip → s.lock ip = some (p, r))
    (halone : ∀ r q, x.frees = some r → s.holds r q = true → q = p) : Owners (s.setPc p x) := by
  refine ⟨h.count, fun q r hq => ?_, h.lock, fun q r ip hq => ?_, fun q r q' hq => ?_⟩
  · change (Function.update s.pc p x q).ref = some r at hq
    by_cases hqp : q = p
    · rw [hqp, Function.update_self] at hq
      rw [hqp]
      exact huse r hq
    · rw [Function.update_of_ne hqp] at hq
      exact h.inUse q r hq
  · change (Function.update s.pc p x q).inside = some r at hq
    by_cases hqp : q = p
    · rw [hqp, Function.update_self] at hq
      rw [hqp]
      exact hin r ip hq
    · rw [Function.update_of_ne hqp] at hq
      exact h.inside q r ip hq
  · change (Function.update s.pc p x q).frees = some r at hq
    by_cases hqp : q = p
    · rw [hqp, Function.update_self] at hq
      rw [hqp]
      exact halone r q' hq
    · rw [Function.update_of_ne hqp] at hq
      exact h.alone q r q' hq

theorem setPc_none (h : Owners s) {x : Pc M} (hx : x.ref = none) (hin : x.inside = none)
    (hfrees : x.frees = none) : Owners (s.setPc p x) := by
  refine h.setPc (fun r hr => ?_) (fun r ip hr => ?_) (fun r q hr => ?_)
  · rw [hx] at hr
    cases hr
  · rw [hin] at hr
    cases hr
  · rw [hfrees] at hr
    cases hr

theorem takeLock (h : Owners s) (hl : s.lock ip = none) (he : s.entry r = some ip)
    (hh : s.holds r p = true) : Owners (s.setLock ip (some (p, r))) := by
  refine ⟨h.count, h.inUse, fun jp q r' hq => ?_, fun q r' jp hq hjp => ?_, h.alone⟩
  · change Function.update s.lock ip _ jp = _ at hq
    by_cases hj : jp = ip
    · rw [hj, Function.update_self] at hq
      cases hq
      rw [hj]
      exact ⟨he, hh⟩
    · rw [Function.update_of_ne hj] at hq
      exact h.lock jp q r' hq
  · have hlock := h.inside q r' jp hq hjp
    have hj : jp ≠ ip := by
      rintro rfl
      rw [hl] at hlock
      cases hlock
    exact (Function.update_of_ne hj ..).trans hlock

theorem releaseLock (h : Owners s) (hno : ∀ q r, (s.pc q).inside = some r → s.entry r ≠ some ip) :
    Owners (s.setLock ip none) := by
  refine ⟨h.count, h.inUse, fun jp q r' hq => ?_, fun q r' jp hq hjp => ?_, h.alone⟩
  · change Function.update s.lock ip none jp = _ at hq
    by_cases hj : jp = ip
    · rw [hj, Function.update_self] at hq
      cases hq
    · rw [Function.update_of_ne hj] at hq
      exact h.lock jp q r' hq
  · have hj : jp ≠ ip := by
      rintro rfl
      exact hno q r' hq hjp
    exact (Function.update_of_ne hj ..).trans (h.inside q r' jp hq hjp)

theorem inUse_ne (h : Owners s) (hr : s.ref r = none) (hu : (s.pc q).ref = some r') : r' ≠ r := by
  rintro rfl
  obtain ⟨x, hx, -⟩ := holds_iff.mp (h.inUse q r' hu)
  rw [hr] at hx
  cases hx

theorem lock_ne (h : Owners s) (hr : s.ref r = none) (hl : s.lock ip = some (q, r')) : r' ≠ r := by
  rintro rfl
  obtain ⟨x, hx, -⟩ := holds_iff.mp (h.lock ip q r' hl).2
  rw [hr] at hx
  cases hx

theorem newRef (h : Owners s) (hr : s.ref r = none) {x : Ref N} {i : Inode}
    (hi : i.ref = (s.cache x.entry).ref + 1) :
    Owners ((s.setEntry x.entry i).setRef r (some x)) := by
  have hentry : ∀ r', r' ≠ r → ((s.setEntry x.entry i).setRef r (some x)).entry r' = s.entry r' := by
    intro r' hne
    rw [entry_setRef, Function.update_of_ne hne]
    rfl
  have hholds : ∀ r' q, r' ≠ r → ((s.setEntry x.entry i).setRef r (some x)).holds r' q = s.holds r' q := by
    intro r' q hne
    rw [holds_setRef_of_ne hne]
    rfl
  have hnone : s.entry r = none := by
    rw [State.entry, hr]
    rfl
  refine ⟨fun jp => ?_, fun q r' hq => ?_, fun jp q r' hq => ?_, fun q r' jp hq hjp => ?_,
    fun q r' q' hq hh => ?_⟩
  · have hsum := sum_update s.entry (fun e => if e = some jp then (1 : Nat) else 0) r (some x.entry)
    have hc := h.count jp
    simp only [hnone, reduceCtorEq, if_false, add_zero] at hsum
    rw [entry_setRef]
    change (Function.update s.cache x.entry i jp).ref =
      ∑ r', if Function.update s.entry r (some x.entry) r' = some jp then 1 else 0
    rw [hsum]
    by_cases hj : jp = x.entry
    · rw [← hj] at hi ⊢
      rw [Function.update_self, hi, hc, if_pos rfl]
    · rw [Function.update_of_ne hj, hc, if_neg (fun he => hj (Option.some.inj he).symm), add_zero]
  · rw [hholds r' q (h.inUse_ne hr hq)]
    exact h.inUse q r' hq
  · have hne := h.lock_ne hr hq
    rw [hentry r' hne, hholds r' q hne]
    exact h.lock jp q r' hq
  · by_cases hne : r' = r
    · subst hne
      have hlocked : (s.pc q).ref = some r' := by
        revert hq
        change (s.pc q).inside = some r' → _
        cases s.pc q with
        | load r => exact id
        | free st r =>
          cases st <;> first | exact id | exact nofun
        | _ => exact nofun
      exact absurd rfl (h.inUse_ne hr hlocked)
    · rw [hentry r' hne] at hjp
      exact h.inside q r' jp hq hjp
  · have hne := h.inUse_ne hr (Pc.ref_of_frees hq)
    rw [hholds r' q' hne] at hh
    exact h.alone q r' q' hq hh

theorem dropRef (h : Owners s) (he : s.entry r = some ip) (huse : ∀ q, (s.pc q).ref ≠ some r)
    (hin : ∀ q, (s.pc q).inside ≠ some r) (hlock : ∀ jp q, s.lock jp ≠ some (q, r)) :
    Owners (dropRef s r ip) := by
  have hentry : ∀ r', r' ≠ r → (Icache.dropRef s r ip).entry r' = s.entry r' := by
    intro r' hne
    rw [Icache.dropRef, entry_setRef, Function.update_of_ne hne]
    rfl
  have hholds : ∀ r' q, r' ≠ r → (Icache.dropRef s r ip).holds r' q = s.holds r' q := by
    intro r' q hne
    rw [Icache.dropRef, holds_setRef_of_ne hne]
    rfl
  refine ⟨fun jp => ?_, fun q r' hq => ?_, fun jp q r' hq => ?_, fun q r' jp hq hjp => ?_,
    fun q r' q' hq hh => ?_⟩
  · have hsum := sum_update s.entry (fun e => if e = some jp then (1 : Nat) else 0) r none
    have hc := h.count jp
    simp only [he, reduceCtorEq, if_false, add_zero] at hsum
    rw [Icache.dropRef, entry_setRef]
    change (Function.update s.cache ip _ jp).ref =
      ∑ r', if Function.update s.entry r none r' = some jp then 1 else 0
    by_cases hj : jp = ip
    · subst hj
      rw [if_pos rfl] at hsum
      rw [Function.update_self]
      change (s.cache jp).ref - 1 = _
      omega
    · rw [if_neg (fun he => hj (Option.some.inj he).symm), add_zero] at hsum
      rw [Function.update_of_ne hj, hc, hsum]
  · have hne : r' ≠ r := by
      rintro rfl
      exact huse q hq
    rw [hholds r' q hne]
    exact h.inUse q r' hq
  · have hne : r' ≠ r := by
      rintro rfl
      exact hlock jp q hq
    rw [hentry r' hne, hholds r' q hne]
    exact h.lock jp q r' hq
  · have hne : r' ≠ r := by
      rintro rfl
      exact hin q hq
    rw [hentry r' hne] at hjp
    exact h.inside q r' jp hq hjp
  · have hne : r' ≠ r := by
      rintro rfl
      exact huse q (Pc.ref_of_frees hq)
    rw [hholds r' q' hne] at hh
    exact h.alone q r' q' hq hh

theorem setHolder (h : Owners s) {x : Ref N} (hx : s.ref r = some x) (b : Bool)
    (hoff : b = false → (s.pc p).ref ≠ some r ∧ s.lock x.entry ≠ some (p, r))
    (hon : b = true → ∀ q, (s.pc q).frees ≠ some r) :
    Owners (s.setRef r (some (x.setHolder p b))) := by
  have hentry : (s.setRef r (some (x.setHolder p b))).entry = s.entry := by
    rw [entry_setRef]
    exact Function.update_eq_self_iff.mpr (entry_of_ref hx).symm
  have hself : ∀ q, (s.setRef r (some (x.setHolder p b))).holds r q = Function.update x.holders p b q :=
    fun q => holds_setRef_self ..
  -- who held a reference and uses it still holds it
  have hkeep : ∀ r' q, s.holds r' q = true → (q = p → r' = r → b = true) →
      (s.setRef r (some (x.setHolder p b))).holds r' q = true := by
    intro r' q hq hb
    by_cases hne : r' = r
    · subst hne
      rw [hself]
      by_cases hqp : q = p
      · rw [hqp, Function.update_self]
        exact hb hqp rfl
      · rw [Function.update_of_ne hqp, ← holds_of_ref hx]
        exact hq
    · rw [holds_setRef_of_ne hne]
      exact hq
  have hb : ∀ (P : Prop), (b = false → ¬ P) → P → b = true := by
    intro P hn hP
    cases b with
    | false => exact absurd hP (hn rfl)
    | true => rfl
  refine ⟨fun jp => ?_, fun q r' hq => ?_, fun jp q r' hq => ?_, fun q r' jp hq => ?_,
    fun q r' q' hq hh => ?_⟩
  · rw [hentry]
    exact h.count jp
  · refine hkeep r' q (h.inUse q r' hq) ?_
    rintro rfl rfl
    exact hb _ (fun hf => (hoff hf).1) hq
  · obtain ⟨he, hh⟩ := h.lock jp q r' hq
    rw [hentry]
    refine ⟨he, hkeep r' q hh ?_⟩
    rintro rfl rfl
    rw [entry_of_ref hx] at he
    cases he
    exact hb _ (fun hf => (hoff hf).2) hq
  · rw [hentry]
    exact h.inside q r' jp hq
  · by_cases hne : r' = r
    · subst hne
      cases b with
      | true => exact absurd hq (hon rfl q)
      | false =>
        rw [hself] at hh
        have hq' : q' ≠ p := by
          rintro rfl
          rw [Function.update_self] at hh
          cases hh
        rw [Function.update_of_ne hq', ← holds_of_ref hx] at hh
        exact h.alone q r' q' hq hh
    · rw [holds_setRef_of_ne hne] at hh
      exact h.alone q r' q' hq hh

theorem init (h : Init s) : Owners s := by
  have hentry : ∀ r, s.entry r = none := by
    intro r
    rw [State.entry, h.ref r]
    rfl
  refine ⟨fun ip => ?_, fun p r hp => ?_, fun ip p r hl => ?_, fun p r ip hp => ?_, fun p r q hp => ?_⟩
  · rw [h.cache ip]
    refine (Finset.sum_eq_zero fun r _ => ?_).symm
    rw [hentry r]
    rfl
  · rw [h.pc p] at hp
    cases hp
  · rw [h.lock ip] at hl
    cases hl
  · rw [h.pc p] at hp
    cases hp
  · rw [h.pc p] at hp
    cases hp

end Owners

end Xv6.Icache

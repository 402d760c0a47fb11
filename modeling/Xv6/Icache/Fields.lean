import Xv6.Icache.Owners

namespace Xv6.Icache

open Fs Lib.Transition

variable {N M : Nat} {s s' : State N M} {p q : Fin N} {r r' : Fin M} {ip jp : Fin NINODE}

inductive Phase where
  | unlocked
  | loading
  | held
  | freeing (st : Stage)

def Pc.phase (r : Fin M) : Pc M → Phase
  | .load r' => if r' = r then .loading else .held
  | .free st r' => if r' = r then .freeing st else .held
  | _ => .held

def State.phase (s : State N M) (ip : Fin NINODE) : Phase :=
  match s.lock ip with
  | none => .unlocked
  | some (p, r) => (s.pc p).phase r

structure Fresh (i : Inode) (d : Dinode) (gen read : Nat) : Prop where
  same : i.toDinode = d
  type : d.type ≠ 0
  read : read = gen

def EntryOk (i : Inode) (d : Dinode) (gen read : Nat) : Phase → Prop
  | .unlocked | .loading => i.valid = true → Fresh i d gen read
  | .held => i.valid = true ∧ Fresh i d gen read
  | .freeing .truncate | .freeing .clear => i.valid = true ∧ i.nlink = 0 ∧ Fresh i d gen read
  | .freeing .update => i.valid = true ∧ i.nlink = 0 ∧ d.type ≠ 0 ∧ read = gen
  | .freeing .invalidate => True
  | .freeing .unlock => i.valid = false
  | .freeing .drop => False

theorem EntryOk.realloc {i : Inode} {d d' : Dinode} {gen gen' read : Nat} {ph : Phase}
    (h : EntryOk i d gen read ph) (h0 : d.type = 0) : EntryOk i d' gen' read ph := by
  cases ph with
  | unlocked => exact fun hv => absurd h0 (h hv).type
  | loading => exact fun hv => absurd h0 (h hv).type
  | held => exact absurd h0 h.2.type
  | freeing st =>
    cases st with
    | truncate => exact absurd h0 h.2.2.type
    | clear => exact absurd h0 h.2.2.type
    | update => exact absurd h0 h.2.2.1
    | invalidate => trivial
    | unlock => exact h
    | drop => exact h

theorem EntryOk.withRef {i : Inode} {d : Dinode} {gen read : Nat} {ph : Phase} (n : Nat)
    (h : EntryOk i d gen read ph) : EntryOk (withRef i n) d gen read ph := by
  have hf : Fresh i d gen read → Fresh (Icache.withRef i n) d gen read :=
    fun hf => ⟨hf.same, hf.type, hf.read⟩
  cases ph with
  | unlocked => exact fun hv => hf (h hv)
  | loading => exact fun hv => hf (h hv)
  | held => exact ⟨h.1, hf h.2⟩
  | freeing st =>
    cases st with
    | truncate => exact ⟨h.1, h.2.1, hf h.2.2⟩
    | clear => exact ⟨h.1, h.2.1, hf h.2.2⟩
    | update => exact h
    | invalidate => trivial
    | unlock => exact h
    | drop => exact h

def State.Ok (s : State N M) (ip : Fin NINODE) : Prop :=
  EntryOk (s.cache ip) (s.disk (key (s.cache ip))) (s.gen (key (s.cache ip))) (s.read ip) (s.phase ip)

structure Inv (s : State N M) : Prop where
  owners : Owners s
  unique : ∀ ip jp, 0 < (s.cache ip).ref → 0 < (s.cache jp).ref →
    key (s.cache ip) = key (s.cache jp) → ip = jp
  ok : ∀ ip, 0 < (s.cache ip).ref → s.Ok ip
  made : ∀ r x g, s.ref r = some x → x.gen = some g → g ≤ s.gen (key (s.cache x.entry))
  claim : ∀ p dev inum g, s.pc p = .claimed dev inum g → g ≤ s.gen (dev, inum)
  late : ∀ p st r r' x, s.pc p = .free st r → s.ref r' = some x → s.entry r = some x.entry →
    r' ≠ r → x.late = true

section Phases

theorem Pc.phase_of_ne {x : Pc M} (h : x.ref ≠ some r) : x.phase r = .held := by
  cases x with
  | load r' => exact if_neg fun he => h (congrArg some he)
  | free st r' => exact if_neg fun he => h (congrArg some he)
  | _ => rfl

theorem phase_of_lock (h : s.lock ip = some (p, r)) : s.phase ip = (s.pc p).phase r := by
  rw [State.phase, h]

theorem phase_of_unlocked (h : s.lock ip = none) : s.phase ip = .unlocked := by rw [State.phase, h]

theorem phase_congr (hl : s'.lock ip = s.lock ip)
    (hpc : ∀ p r, s.lock ip = some (p, r) → (s'.pc p).phase r = (s.pc p).phase r) :
    s'.phase ip = s.phase ip := by
  cases h : s.lock ip with
  | none => rw [phase_of_unlocked h, phase_of_unlocked (hl.trans h)]
  | some pr => rw [phase_of_lock h, phase_of_lock (hl.trans h), hpc _ _ h]

theorem phase_setPc {x : Pc M} (h : ∀ r, s.lock ip = some (p, r) → x.phase r = (s.pc p).phase r) :
    (s.setPc p x).phase ip = s.phase ip := by
  refine phase_congr rfl fun q r hl => ?_
  change (Function.update s.pc p x q).phase r = _
  by_cases hq : q = p
  · subst hq
    rw [Function.update_self]
    exact h r hl
  · rw [Function.update_of_ne hq]

theorem phase_setPc_other {x : Pc M} (ho : Owners s) (he : s.entry r = some ip) (hne : jp ≠ ip)
    (hold : ∀ r', (s.pc p).ref = some r' → r' = r) (hnew : ∀ r', x.ref = some r' → r' = r) :
    (s.setPc p x).phase jp = s.phase jp := by
  refine phase_setPc fun r' hl => ?_
  have hr' : r' ≠ r := by
    rintro rfl
    have := (ho.lock jp p r' hl).1
    rw [he] at this
    exact hne (Option.some.inj this).symm
  rw [Pc.phase_of_ne fun h => hr' (hnew r' h), Pc.phase_of_ne fun h => hr' (hold r' h)]

theorem ok_congr (h : s.Ok ip) (hc : s'.cache ip = s.cache ip)
    (hd : s'.disk (key (s.cache ip)) = s.disk (key (s.cache ip)))
    (hg : s'.gen (key (s.cache ip)) = s.gen (key (s.cache ip))) (hr : s'.read ip = s.read ip)
    (hp : s'.phase ip = s.phase ip) : s'.Ok ip := by
  rw [State.Ok, hc, hd, hg, hr, hp]
  exact h

end Phases

namespace Inv

theorem setPc (h : Inv s) {x : Pc M} (ho : Owners (s.setPc p x))
    (hphase : ∀ ip r, s.lock ip = some (p, r) → x.phase r = (s.pc p).phase r) (hclaim : ∀ dev inum g, x ≠ .claimed dev inum g)
    (hfree : ∀ st r, x ≠ .free st r) : Inv (s.setPc p x) := by
  refine ⟨ho, h.unique, fun ip hip => ?_, h.made, fun q dev inum g hq => ?_, fun q st r r' y hq => ?_⟩
  · exact ok_congr (h.ok ip hip) rfl rfl rfl rfl (phase_setPc (hphase ip))
  · change Function.update s.pc p x q = _ at hq
    by_cases hqp : q = p
    · rw [hqp, Function.update_self] at hq
      exact absurd hq (hclaim dev inum g)
    · rw [Function.update_of_ne hqp] at hq
      exact h.claim q dev inum g hq
  · change Function.update s.pc p x q = _ at hq
    by_cases hqp : q = p
    · rw [hqp, Function.update_self] at hq
      exact absurd hq (hfree st r)
    · rw [Function.update_of_ne hqp] at hq
      exact h.late q st r r' y hq

theorem addRef (h : Inv s) (hr : s.ref r = none) (hip : 0 < (s.cache ip).ref) {gen : Option Nat}
    (hgen : ∀ g, gen = some g → g ≤ s.gen (key (s.cache ip))) :
    Inv ((s.setEntry ip (withRef (s.cache ip) ((s.cache ip).ref + 1))).setRef r
      (some (newRef s p ip gen))) := by
  set s' := (s.setEntry ip (withRef (s.cache ip) ((s.cache ip).ref + 1))).setRef r
    (some (newRef s p ip gen)) with hs'
  have hself : s'.cache ip = withRef (s.cache ip) ((s.cache ip).ref + 1) := Function.update_self ..
  have hother : ∀ jp, jp ≠ ip → s'.cache jp = s.cache jp := fun jp hj => Function.update_of_ne hj ..
  have hkey : ∀ jp, key (s'.cache jp) = key (s.cache jp) := by
    intro jp
    by_cases hj : jp = ip
    · rw [hj, hself]
      rfl
    · rw [hother jp hj]
  have hpos : ∀ jp, 0 < (s'.cache jp).ref → 0 < (s.cache jp).ref := by
    intro jp hjp
    by_cases hj : jp = ip
    · rw [hj]
      exact hip
    · rwa [hother jp hj] at hjp
  refine ⟨h.owners.newRef hr (x := newRef s p ip gen) rfl, fun jp kp hj hk he => ?_, fun jp hj => ?_,
    fun r' x g hx hg => ?_,
    h.claim, fun q st r₁ r' x hq hx he hne => ?_⟩
  · rw [hkey, hkey] at he
    exact h.unique jp kp (hpos jp hj) (hpos kp hk) he
  · by_cases hji : jp = ip
    · subst hji
      have hok := h.ok jp hip
      rw [State.Ok, hself]
      exact hok.withRef _
    · exact ok_congr (h.ok jp (hpos jp hj)) (hother jp hji) rfl rfl rfl rfl
  · rw [hkey]
    by_cases hne : r' = r
    · subst hne
      have hx' : s'.ref r' = some (newRef s p ip gen) := Function.update_self ..
      rw [hx'] at hx
      cases hx
      exact hgen g hg
    · have hx' : s'.ref r' = s.ref r' := Function.update_of_ne hne ..
      rw [hx'] at hx
      exact h.made r' x g hx hg
  · have hr₁ : r₁ ≠ r := h.owners.inUse_ne hr (q := q) (by
      have hq : s.pc q = .free st r₁ := hq
      rw [hq]
      rfl)
    have he' : s'.entry r₁ = s.entry r₁ := by
      rw [hs', entry_setRef, Function.update_of_ne hr₁]
      rfl
    rw [he'] at he
    by_cases hrr : r' = r
    · subst hrr
      have hx' : s'.ref r' = some (newRef s p ip gen) := Function.update_self ..
      rw [hx'] at hx
      cases hx
      exact decide_eq_true ⟨q, r₁, st, hq, he⟩
    · have hx' : s'.ref r' = s.ref r' := Function.update_of_ne hrr ..
      rw [hx'] at hx
      exact h.late q st r₁ r' x hq hx he hne

theorem recycle (h : Inv s) (hr : s.ref r = none) (h0 : (s.cache ip).ref = 0) {k : Nat × Nat}
    (hno : ∀ jp, 0 < (s.cache jp).ref → key (s.cache jp) ≠ k) {gen : Option Nat}
    (hgen : ∀ g, gen = some g → g ≤ s.gen k) :
    Inv ((s.setEntry ip (recycled (s.cache ip) k)).setRef r (some (newRef s p ip gen))) := by
  set s' := (s.setEntry ip (recycled (s.cache ip) k)).setRef r (some (newRef s p ip gen)) with hs'
  have hself : s'.cache ip = recycled (s.cache ip) k := Function.update_self ..
  have hother : ∀ jp, jp ≠ ip → s'.cache jp = s.cache jp := fun jp hj => Function.update_of_ne hj ..
  have hkip : key (s'.cache ip) = k := by
    rw [hself]
    rfl
  -- an entry that is referred to is another one
  have hne_of : ∀ r₁ jp, s.entry r₁ = some jp → jp ≠ ip := by
    rintro r₁ jp he rfl
    have := h.owners.pos he
    omega
  refine ⟨h.owners.newRef hr (x := newRef s p ip gen) ?_, fun jp kp hj hk he => ?_, fun jp hj => ?_,
    fun r' x g hx hg => ?_, h.claim, fun q st r₁ r' x hq hx he hne => ?_⟩
  · change 1 = (s.cache ip).ref + 1
    rw [h0]
  · by_cases hji : jp = ip <;> by_cases hki : kp = ip
    · rw [hji, hki]
    · rw [hji, hkip, hother kp hki] at he
      rw [hother kp hki] at hk
      exact absurd he.symm (hno kp hk)
    · rw [hki, hkip, hother jp hji] at he
      rw [hother jp hji] at hj
      exact absurd he (hno jp hj)
    · rw [hother jp hji] at hj he
      rw [hother kp hki] at hk he
      exact h.unique jp kp hj hk he
  · by_cases hji : jp = ip
    · subst hji
      have hl : s'.lock jp = none := h.owners.unlocked h0
      rw [State.Ok, phase_of_unlocked hl, hself]
      exact fun hv => absurd hv Bool.false_ne_true
    · have hj' := hj
      rw [hother jp hji] at hj'
      exact ok_congr (h.ok jp hj') (hother jp hji) rfl rfl rfl rfl
  · by_cases hne : r' = r
    · subst hne
      have hx' : s'.ref r' = some (newRef s p ip gen) := Function.update_self ..
      rw [hx'] at hx
      cases hx
      change g ≤ s.gen (key (s'.cache ip))
      rw [hkip]
      exact hgen g hg
    · have hx' : s'.ref r' = s.ref r' := Function.update_of_ne hne ..
      rw [hx'] at hx
      rw [hother x.entry (hne_of r' x.entry (entry_of_ref hx))]
      exact h.made r' x g hx hg
  · have hr₁ : r₁ ≠ r := h.owners.inUse_ne hr (q := q) (by
      have hq : s.pc q = .free st r₁ := hq
      rw [hq]
      rfl)
    have he' : s'.entry r₁ = s.entry r₁ := by
      rw [hs', entry_setRef, Function.update_of_ne hr₁]
      rfl
    rw [he'] at he
    by_cases hrr : r' = r
    · subst hrr
      have hx' : s'.ref r' = some (newRef s p ip gen) := Function.update_self ..
      rw [hx'] at hx
      cases hx
      exact absurd rfl (hne_of r₁ ip he)
    · have hx' : s'.ref r' = s.ref r' := Function.update_of_ne hrr ..
      rw [hx'] at hx
      exact h.late q st r₁ r' x hq hx he hne

theorem iget (h : Inv s) (hr : s.ref r = none) {k : Nat × Nat} {gen : Option Nat}
    (hgen : ∀ g, gen = some g → g ≤ s.gen k) (hn : Icache.iget s p r k gen = .done s') : Inv s' := by
  unfold Icache.iget at hn
  split at hn
  next ip hip =>
    cases hn
    have hf : 0 < (s.cache ip).ref ∧ key (s.cache ip) = k := by simpa using List.find?_some hip
    exact h.addRef hr hf.1 (by rw [hf.2]; exact hgen)
  next hnone =>
    split at hn
    next ip hip =>
      cases hn
      have h0 : (s.cache ip).ref = 0 := by simpa using List.find?_some hip
      refine h.recycle hr h0 (fun jp hj hk => ?_) hgen
      have := List.find?_eq_none.mp hnone jp (List.mem_finRange jp)
      exact this (by simpa using ⟨hj, hk⟩)
    · cases hn

theorem setHolder (h : Inv s) {x : Ref N} (hx : s.ref r = some x) (b : Bool)
    (ho : Owners (s.setRef r (some (x.setHolder p b)))) :
    Inv (s.setRef r (some (x.setHolder p b))) := by
  have hentry : (s.setRef r (some (x.setHolder p b))).entry = s.entry := by
    rw [entry_setRef]
    exact Function.update_eq_self_iff.mpr (entry_of_ref hx).symm
  -- every reference has the entry, the mark and the number it had
  have hold : ∀ r' y, (s.setRef r (some (x.setHolder p b))).ref r' = some y →
      ∃ y', s.ref r' = some y' ∧ y'.entry = y.entry ∧ y'.gen = y.gen ∧ y'.late = y.late := by
    intro r' y hy
    change Function.update s.ref r _ r' = some y at hy
    by_cases hne : r' = r
    · rw [hne, Function.update_self] at hy
      cases hy
      exact ⟨x, hne ▸ hx, rfl, rfl, rfl⟩
    · rw [Function.update_of_ne hne] at hy
      exact ⟨y, hy, rfl, rfl, rfl⟩
  refine ⟨ho, h.unique, fun jp hj => ?_, fun r' y g hy hg => ?_, h.claim, fun q st r₁ r' y hq hy he hne => ?_⟩
  · exact ok_congr (h.ok jp hj) rfl rfl rfl rfl rfl
  · obtain ⟨y', hy', hent, hgen, -⟩ := hold r' y hy
    rw [← hent]
    exact h.made r' y' g hy' (hgen.trans hg)
  · obtain ⟨y', hy', hent, -, hlate⟩ := hold r' y hy
    rw [hentry, ← hent] at he
    rw [← hlate]
    exact h.late q st r₁ r' y' hq hy' he hne

theorem dropRef (h : Inv s) (ho : Owners (dropRef s r ip)) : Inv (dropRef s r ip) := by
  have hself : (Icache.dropRef s r ip).cache ip = withRef (s.cache ip) ((s.cache ip).ref - 1) :=
    Function.update_self ..
  have hother : ∀ jp, jp ≠ ip → (Icache.dropRef s r ip).cache jp = s.cache jp :=
    fun jp hj => Function.update_of_ne hj ..
  have hkey : ∀ jp, key ((Icache.dropRef s r ip).cache jp) = key (s.cache jp) := by
    intro jp
    by_cases hj : jp = ip
    · rw [hj, hself]
      rfl
    · rw [hother jp hj]
  have hpos : ∀ jp, 0 < ((Icache.dropRef s r ip).cache jp).ref → 0 < (s.cache jp).ref := by
    intro jp hjp
    by_cases hj : jp = ip
    · subst hj
      rw [hself] at hjp
      exact lt_of_lt_of_le hjp (Nat.sub_le _ _)
    · rwa [hother jp hj] at hjp
  have hold : ∀ r' x, (Icache.dropRef s r ip).ref r' = some x → r' ≠ r ∧ s.ref r' = some x := by
    intro r' x hx
    change Function.update s.ref r none r' = some x at hx
    by_cases hne : r' = r
    · rw [hne, Function.update_self] at hx
      cases hx
    · rw [Function.update_of_ne hne] at hx
      exact ⟨hne, hx⟩
  refine ⟨ho, fun jp kp hj hk he => ?_, fun jp hj => ?_, fun r' x g hx hg => ?_, h.claim,
    fun q st r₁ r' x hq hx he hne => ?_⟩
  · rw [hkey, hkey] at he
    exact h.unique jp kp (hpos jp hj) (hpos kp hk) he
  · by_cases hji : jp = ip
    · subst hji
      have hok := h.ok jp (hpos jp hj)
      rw [State.Ok, hself]
      exact hok.withRef _
    · exact ok_congr (h.ok jp (hpos jp hj)) (hother jp hji) rfl rfl rfl rfl
  · rw [hkey]
    exact h.made r' x g (hold r' x hx).2 hg
  · have he' : s.entry r₁ = some x.entry := by
      rw [Icache.dropRef, entry_setRef] at he
      by_cases hr₁ : r₁ = r
      · rw [hr₁, Function.update_self] at he
        cases he
      · rwa [Function.update_of_ne hr₁] at he
    exact h.late q st r₁ r' x hq (hold r' x hx).2 he' hne

end Inv

end Xv6.Icache

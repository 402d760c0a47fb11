import Xv6.Icache.Fields

namespace Xv6.Icache

open Fs Lib.Transition

variable {N M ninodes : Nat} {s s' : State N M} {p q : Fin N} {r r' : Fin M} {ip jp : Fin NINODE}

namespace Inv

theorem changeEntry (h : Inv s) (ip : Fin NINODE) (ho : Owners s') (hpos : 0 < (s.cache ip).ref)
    (hcache : ∀ jp, jp ≠ ip → s'.cache jp = s.cache jp)
    (hkey : key (s'.cache ip) = key (s.cache ip))
    (hdisk : ∀ k, k ≠ key (s.cache ip) → s'.disk k = s.disk k) (hgen : s'.gen = s.gen)
    (hread : ∀ jp, jp ≠ ip → s'.read jp = s.read jp) (href : s'.ref = s.ref)
    (hphase : ∀ jp, jp ≠ ip → s'.phase jp = s.phase jp) (hok : s'.Ok ip)
    (hclaim : ∀ q dev inum g, s'.pc q = .claimed dev inum g → s.pc q = .claimed dev inum g)
    (hfree : ∀ q st r, s'.pc q = .free st r → (∃ st', s.pc q = .free st' r) ∨
      ∀ r', s.entry r' = s.entry r → r' = r) : Inv s' := by
  have hkeys : ∀ jp, key (s'.cache jp) = key (s.cache jp) := by
    intro jp
    by_cases hj : jp = ip
    · rw [hj, hkey]
    · rw [hcache jp hj]
  have hlive : ∀ jp, 0 < (s'.cache jp).ref → 0 < (s.cache jp).ref := by
    intro jp hjp
    by_cases hj : jp = ip
    · rw [hj]
      exact hpos
    · rwa [hcache jp hj] at hjp
  have hentry : s'.entry = s.entry := by
    funext r
    rw [State.entry, State.entry, href]
  refine ⟨ho, fun jp kp hj hk he => ?_, fun jp hj => ?_, fun r x g hx hg => ?_,
    fun q dev inum g hq => ?_, fun q st r r' x hq hx he hne => ?_⟩
  · rw [hkeys, hkeys] at he
    exact h.unique jp kp (hlive jp hj) (hlive kp hk) he
  · by_cases hji : jp = ip
    · rw [hji]
      exact hok
    · -- no other entry is for the same inode
      have hne : key (s.cache jp) ≠ key (s.cache ip) :=
        fun hk => hji (h.unique jp ip (hlive jp hj) hpos hk)
      exact ok_congr (h.ok jp (hlive jp hj)) (hcache jp hji) (hdisk _ hne) (by rw [hgen])
        (hread jp hji) (hphase jp hji)
  · rw [hgen, hkeys]
    rw [href] at hx
    exact h.made r x g hx hg
  · rw [hgen]
    exact h.claim q dev inum g (hclaim q dev inum g hq)
  · rw [hentry] at he
    rw [href] at hx
    rcases hfree q st r hq with ⟨st', hst'⟩ | honly
    · exact h.late q st' r r' x hst' hx he hne
    · exact absurd (honly r' ((entry_of_ref hx).trans he.symm)) hne

theorem idle_ne_claimed (dev inum g : Nat) : (Pc.idle : Pc M) ≠ .claimed dev inum g := by
  intro h
  cases h

theorem idle_ne_free (st : Stage) (r : Fin M) : Pc.idle ≠ .free st r := by
  intro h
  cases h

theorem claimed_of_setPc {x : Pc M} {dev inum g : Nat}
    (hq : Function.update s.pc p x q = .claimed dev inum g)
    (hx : ∀ dev inum g, x ≠ .claimed dev inum g) : s.pc q = .claimed dev inum g := by
  by_cases hqp : q = p
  · rw [hqp, Function.update_self] at hq
    exact absurd hq (hx dev inum g)
  · rwa [Function.update_of_ne hqp] at hq

theorem free_of_setPc {x : Pc M} {st : Stage} {r : Fin M}
    (hq : Function.update s.pc p x q = .free st r)
    (hx : ∀ st r, x = .free st r → (∃ st', s.pc p = .free st' r) ∨
      ∀ r', s.entry r' = s.entry r → r' = r) :
    (∃ st', s.pc q = .free st' r) ∨ ∀ r', s.entry r' = s.entry r → r' = r := by
  by_cases hqp : q = p
  · rw [hqp, Function.update_self] at hq
    rw [hqp]
    exact hx st r hq
  · rw [Function.update_of_ne hqp] at hq
    exact Or.inl ⟨st, hq⟩

theorem ok_held (h : Inv s) (hl : s.lock ip = some (p, r)) (hp : (s.pc p).ref ≠ some r) :
    (s.cache ip).valid = true ∧
      Fresh (s.cache ip) (s.disk (key (s.cache ip))) (s.gen (key (s.cache ip))) (s.read ip) := by
  have hok := h.ok ip (h.owners.pos (h.owners.lock ip p r hl).1)
  rw [State.Ok, phase_of_lock hl, Pc.phase_of_ne hp] at hok
  exact hok

theorem phase_setLock_other {o : Option (Fin N × Fin M)} (hj : jp ≠ ip) :
    (s.setLock ip o).phase jp = s.phase jp :=
  phase_congr (Function.update_of_ne hj ..) fun _ _ _ => rfl

theorem change (h : Inv s) (hp : s.pc p = .idle) (hl : s.lock ip = some (p, r)) {d : Dinode}
    (hd : d.type ≠ 0) :
    Inv ((s.setEntry ip (withFields (s.cache ip) d)).write (key (s.cache ip)) d) := by
  obtain ⟨hv, hf⟩ := h.ok_held hl (by rw [hp]; exact nofun)
  have ho : Owners (s.setEntry ip (withFields (s.cache ip) d)) := h.owners.setEntry rfl
  refine h.changeEntry ip (ho.write _ _) (h.owners.pos (h.owners.lock ip p r hl).1)
    (fun jp hj => Function.update_of_ne hj ..) ?_ (fun k hk => Function.update_of_ne hk ..) rfl
    (fun _ _ => rfl) rfl (fun _ _ => rfl) ?_ (fun _ _ _ _ hq => hq) fun _ st _ hq => Or.inl ⟨st, hq⟩
  · change key (Function.update s.cache ip _ ip) = _
    rw [Function.update_self]
    rfl
  · have hc : ((s.setEntry ip (withFields (s.cache ip) d)).write (key (s.cache ip)) d).cache ip =
        withFields (s.cache ip) d := Function.update_self ..
    have hph : ((s.setEntry ip (withFields (s.cache ip) d)).write (key (s.cache ip)) d).phase ip =
        .held := by
      have hl' : ((s.setEntry ip (withFields (s.cache ip) d)).write (key (s.cache ip)) d).lock ip =
        some (p, r) := hl
      rw [phase_of_lock hl']
      change (s.pc p).phase r = .held
      rw [hp]
      rfl
    have hdisk : ((s.setEntry ip (withFields (s.cache ip) d)).write (key (s.cache ip)) d).disk
        (key (s.cache ip)) = d := Function.update_self ..
    rw [State.Ok, hc, hph]
    refine ⟨hv, hdisk.symm, ?_, hf.read⟩
    change (State.disk _ (key (s.cache ip))).type ≠ 0
    rw [hdisk]
    exact hd

theorem iunlock (h : Inv s) (hp : s.pc p = .idle) (hl : s.lock ip = some (p, r)) :
    Inv (s.setLock ip none) := by
  obtain ⟨hv, hf⟩ := h.ok_held hl (by rw [hp]; exact nofun)
  have ho : Owners (s.setLock ip none) := by
    refine h.owners.releaseLock fun q r' hq he => ?_
    have hl' := h.owners.inside q r' ip hq he
    rw [hl] at hl'
    cases hl'
    rw [hp] at hq
    cases hq
  refine h.changeEntry ip ho (h.owners.pos (h.owners.lock ip p r hl).1)
    (fun _ _ => rfl) rfl (fun _ _ => rfl) rfl (fun _ _ => rfl) rfl
    (fun jp hj => phase_setLock_other hj) ?_ (fun _ _ _ _ hq => hq) fun _ st _ hq => Or.inl ⟨st, hq⟩
  rw [State.Ok, phase_of_unlocked (Function.update_self ..)]
  exact fun _ => hf

theorem acquire (h : Inv s) (hp : s.pc p = .acquire r) (he : s.entry r = some ip)
    (hl : s.lock ip = none) : Inv ((s.setLock ip (some (p, r))).setPc p (.load r)) := by
  have hh : s.holds r p = true := h.owners.inUse p r (by rw [hp]; rfl)
  have ho : Owners (s.setLock ip (some (p, r))) := h.owners.takeLock hl he hh
  have ho' : Owners ((s.setLock ip (some (p, r))).setPc p (.load r)) := by
    refine ho.setPc (fun r' hr => ?_) (fun r' jp hr hjp => ?_) (fun r' q hr => nomatch hr)
    · cases hr
      exact hh
    · cases hr
      have hjp : s.entry r = some jp := hjp
      rw [he] at hjp
      cases hjp
      exact Function.update_self ..
  refine h.changeEntry ip ho' (h.owners.pos he) (fun _ _ => rfl) rfl (fun _ _ => rfl) rfl
    (fun _ _ => rfl) rfl (fun jp hj => ?_) ?_ (fun q _ _ _ hq => claimed_of_setPc hq nofun)
    fun q st r hq => free_of_setPc hq nofun
  · rw [phase_setPc_other ho he hj (fun r' hr => ?_) fun r' hr => ?_]
    · exact phase_setLock_other hj
    · change (s.pc p).ref = some r' at hr
      rw [hp] at hr
      cases hr
      rfl
    · cases hr
      rfl
  · have hok := h.ok ip (h.owners.pos he)
    rw [State.Ok, phase_of_unlocked hl] at hok
    have hl' : ((s.setLock ip (some (p, r))).setPc p (.load r)).lock ip = some (p, r) :=
      Function.update_self ..
    have hpc : ((s.setLock ip (some (p, r))).setPc p (.load r)).pc p = .load r :=
      Function.update_self ..
    rw [State.Ok, phase_of_lock hl', hpc, Pc.phase, if_pos rfl]
    exact hok

theorem load (h : Inv s) (hp : s.pc p = .load r) (he : s.entry r = some ip)
    (hn : Icache.load s p ip = .done s') : Inv s' := by
  have hl : s.lock ip = some (p, r) := h.owners.inside p r ip (by rw [hp]; rfl) he
  have hpos := h.owners.pos he
  have hidle : ∀ {t : State N M}, Owners t → Owners (t.setPc p .idle) :=
    fun ht => ht.setPc_none rfl rfl rfl
  -- no other entry is concerned
  have hother : ∀ jp, jp ≠ ip → (s.setPc p .idle).phase jp = s.phase jp := by
    intro jp hj
    refine phase_setPc_other h.owners he hj (fun r' hr => ?_) fun r' hr => by cases hr
    rw [hp] at hr
    cases hr
    rfl
  have hok := h.ok ip hpos
  rw [State.Ok, phase_of_lock hl, hp, Pc.phase, if_pos rfl] at hok
  have hheld : (s.setPc p .idle).phase ip = .held := by
    have hpc : (s.setPc p .idle).pc p = .idle := Function.update_self ..
    have hl' : (s.setPc p .idle).lock ip = some (p, r) := hl
    rw [phase_of_lock hl', hpc]
    rfl
  unfold Icache.load at hn
  dsimp only at hn
  split at hn
  next hv =>
    cases hn
    refine h.changeEntry ip (hidle h.owners) hpos (fun _ _ => rfl) rfl (fun _ _ => rfl) rfl
      (fun _ _ => rfl) rfl hother ?_ (fun q _ _ _ hq => claimed_of_setPc hq idle_ne_claimed)
      fun q st r hq => free_of_setPc hq fun _ _ hx => absurd hx (idle_ne_free _ _)
    rw [State.Ok, hheld]
    exact ⟨hv, hok hv⟩
  next hv =>
    split at hn
    · cases hn
    next ht =>
      cases hn
      set d := s.disk (key (s.cache ip)) with hd
      have ho : Owners (s.setEntry ip (filled (s.cache ip) d)) := h.owners.setEntry rfl
      refine h.changeEntry ip ((hidle ho).congr (fun _ => rfl) rfl rfl rfl) hpos
        (fun jp hj => Function.update_of_ne hj ..) ?_ (fun _ _ => rfl) rfl
        (fun jp hj => Function.update_of_ne hj ..) rfl hother ?_
        (fun q _ _ _ hq => claimed_of_setPc hq idle_ne_claimed)
        fun q st r hq => free_of_setPc hq fun _ _ hx => absurd hx (idle_ne_free _ _)
      · change key (Function.update s.cache ip _ ip) = _
        rw [Function.update_self]
        rfl
      · change EntryOk (Function.update s.cache ip _ ip)
          (s.disk (key (Function.update s.cache ip _ ip)))
          (s.gen (key (Function.update s.cache ip _ ip))) (Function.update s.read ip _ ip)
          ((s.setPc p .idle).phase ip)
        rw [Function.update_self, Function.update_self, hheld]
        exact ⟨rfl, rfl, ht, rfl⟩

theorem startFree (h : Inv s) (hp : s.pc p = .idle) (he : s.entry r = some ip)
    (hh : s.holds r p = true) (halone : ∀ q, s.holds r q = true → q = p) (hl : s.lock ip = none)
    (h1 : (s.cache ip).ref = 1) (hv : (s.cache ip).valid = true) (hnlink : (s.cache ip).nlink = 0) :
    Inv ((s.setLock ip (some (p, r))).setPc p (.free .truncate r)) := by
  have ho : Owners (s.setLock ip (some (p, r))) := h.owners.takeLock hl he hh
  have ho' : Owners ((s.setLock ip (some (p, r))).setPc p (.free .truncate r)) := by
    refine ho.setPc (fun r' hr => ?_) (fun r' jp hr hjp => ?_) fun r' q hr hq => ?_
    · cases hr
      exact hh
    · cases hr
      have hjp : s.entry r = some jp := hjp
      rw [he] at hjp
      cases hjp
      exact Function.update_self ..
    · cases hr
      exact halone q hq
  refine h.changeEntry ip ho' (h.owners.pos he) (fun _ _ => rfl) rfl (fun _ _ => rfl) rfl
    (fun _ _ => rfl) rfl (fun jp hj => ?_) ?_ (fun q _ _ _ hq => claimed_of_setPc hq nofun)
    fun q st r' hq => free_of_setPc hq fun st' r₁ hr => ?_
  · rw [phase_setPc_other ho he hj (fun r' hr => ?_) fun r' hr => ?_]
    · exact phase_setLock_other hj
    · change (s.pc p).ref = some r' at hr
      rw [hp] at hr
      cases hr
    · cases hr
      rfl
  · have hok := h.ok ip (h.owners.pos he)
    rw [State.Ok, phase_of_unlocked hl] at hok
    have hl' : ((s.setLock ip (some (p, r))).setPc p (.free .truncate r)).lock ip = some (p, r) :=
      Function.update_self ..
    have hpc : ((s.setLock ip (some (p, r))).setPc p (.free .truncate r)).pc p =
      .free .truncate r := Function.update_self ..
    rw [State.Ok, phase_of_lock hl', hpc, Pc.phase, if_pos rfl]
    exact ⟨hv, hnlink, hok hv⟩
  · cases hr
    refine Or.inr fun r' hr' => ?_
    rw [he] at hr'
    exact h.owners.only h1 he hr'

theorem owners_stage (ho : Owners s) {st st' : Stage} (hp : s.pc p = .free st r) (hst : st ≠ .drop)
    (hst' : st' ≠ .drop) : Owners (s.setPc p (.free st' r)) := by
  have hu : (s.pc p).ref = some r := by
    rw [hp]
    rfl
  have hi : (s.pc p).inside = some r := by
    rw [hp]
    cases st <;> first | rfl | exact absurd rfl hst
  have hf : (s.pc p).frees = some r := by
    rw [hp]
    rfl
  refine ho.setPc (fun r' hr => ?_) (fun r' jp hr => ?_) fun r' q hr => ?_
  · cases hr
    exact ho.inUse p r hu
  · have hr' : r' = r := by
      cases st' <;> first | exact (Option.some.inj hr).symm | exact absurd rfl hst'
    rw [hr']
    exact ho.inside p r jp hi
  · cases hr
    exact ho.alone p r q hf

theorem lock_of_stage (h : Inv s) {st : Stage} (hp : s.pc p = .free st r) (hst : st ≠ .drop)
    (he : s.entry r = some ip) : s.lock ip = some (p, r) := by
  refine h.owners.inside p r ip ?_ he
  rw [hp]
  cases st <;> first | rfl | exact absurd rfl hst

theorem ok_stage (h : Inv s) {st : Stage} (hp : s.pc p = .free st r) (hst : st ≠ .drop)
    (he : s.entry r = some ip) :
    EntryOk (s.cache ip) (s.disk (key (s.cache ip))) (s.gen (key (s.cache ip))) (s.read ip)
      (.freeing st) := by
  have hok := h.ok ip (h.owners.pos he)
  rw [State.Ok, phase_of_lock (h.lock_of_stage hp hst he), hp, Pc.phase, if_pos rfl] at hok
  exact hok

theorem stage (h : Inv s) {st : Stage} (hp : s.pc p = .free st r) (hst : st ≠ .drop)
    (st' : Stage) (hst' : st' ≠ .drop) (he : s.entry r = some ip) {i : Inode} (hkey : key i = key (s.cache ip))
    (href : i.ref = (s.cache ip).ref) {d : Dinode}
    (hok : EntryOk i d (s.gen (key (s.cache ip))) (s.read ip) (.freeing st')) :
    Inv (((s.setEntry ip i).write (key (s.cache ip)) d).setPc p (.free st' r)) := by
  have hl := h.lock_of_stage hp hst he
  have ho : Owners ((s.setEntry ip i).write (key (s.cache ip)) d) :=
    (h.owners.setEntry href).write _ _
  refine h.changeEntry ip (owners_stage ho hp hst hst') (h.owners.pos he)
    (fun jp hj => Function.update_of_ne hj ..) ?_ (fun k hk => Function.update_of_ne hk ..) rfl
    (fun _ _ => rfl) rfl (fun jp hj => ?_) ?_ (fun q _ _ _ hq => claimed_of_setPc hq nofun)
    fun q st₁ r₁ hq => free_of_setPc hq fun st₂ r₂ hr => ?_
  · change key (Function.update s.cache ip i ip) = _
    rw [Function.update_self, hkey]
  · refine phase_setPc_other ho he hj (fun r' hr => ?_) fun r' hr => ?_
    · change (s.pc p).ref = some r' at hr
      rw [hp] at hr
      cases hr
      rfl
    · cases hr
      rfl
  · have hpc : (((s.setEntry ip i).write (key (s.cache ip)) d).setPc p (.free st' r)).pc p =
        .free st' r := Function.update_self ..
    have hl' : (((s.setEntry ip i).write (key (s.cache ip)) d).setPc p (.free st' r)).lock ip =
      some (p, r) := hl
    rw [State.Ok, phase_of_lock hl', hpc, Pc.phase, if_pos rfl]
    change EntryOk (Function.update s.cache ip i ip)
      (Function.update s.disk (key (s.cache ip)) d (key (Function.update s.cache ip i ip)))
      (s.gen (key (Function.update s.cache ip i ip))) (s.read ip) _
    rw [Function.update_self, hkey, Function.update_self]
    exact hok
  · cases hr
    exact Or.inl ⟨st, hp⟩

theorem unlockStage (h : Inv s) (hp : s.pc p = .free .unlock r) (he : s.entry r = some ip) :
    Inv ((s.setLock ip none).setPc p (.free .drop r)) := by
  have hl := h.lock_of_stage hp (by decide) he
  have hv : (s.cache ip).valid = false := h.ok_stage hp (by decide) he
  -- first the process is seen to need the lock no more, then it lets go of it
  have ho₁ : Owners (s.setPc p (.free .drop r)) := by
    refine h.owners.setPc (fun r' hr => ?_) (fun r' jp hr => nomatch hr) fun r' q hr => ?_
    · cases hr
      exact h.owners.inUse p r (by rw [hp]; rfl)
    · cases hr
      exact h.owners.alone p r q (by rw [hp]; rfl)
  have ho : Owners ((s.setPc p (.free .drop r)).setLock ip none) := by
    refine ho₁.releaseLock fun q r' hq hjp => ?_
    have hl' := ho₁.inside q r' ip hq hjp
    have hl' : s.lock ip = some (q, r') := hl'
    rw [hl] at hl'
    cases hl'
    have hpc : (s.setPc p (.free .drop r)).pc p = .free .drop r := Function.update_self ..
    rw [hpc] at hq
    cases hq
  refine h.changeEntry ip ho (h.owners.pos he) (fun _ _ => rfl) rfl (fun _ _ => rfl) rfl
    (fun _ _ => rfl) rfl (fun jp hj => ?_) ?_ (fun q _ _ _ hq => claimed_of_setPc hq nofun)
    fun q st₁ r₁ hq => free_of_setPc hq fun st₂ r₂ hr => ?_
  · have h₁ : ((s.setPc p (.free .drop r)).setLock ip none).phase jp =
        (s.setPc p (.free .drop r)).phase jp := phase_setLock_other hj
    refine Eq.trans h₁ (phase_setPc_other h.owners he hj (fun r' hr => ?_) fun r' hr => ?_)
    · rw [hp] at hr
      cases hr
      rfl
    · cases hr
      rfl
  · rw [State.Ok, phase_of_unlocked (Function.update_self ..)]
    intro hv'
    rw [show ((s.setLock ip none).setPc p (.free .drop r)).cache ip = s.cache ip from rfl, hv] at hv'
    cases hv'
  · cases hr
    exact Or.inl ⟨.unlock, hp⟩

theorem dropIdle (h : Inv s) (he : s.entry r = some ip) (halone : ∀ q, s.holds r q = true → q = p)
    (hpc : (s.pc p).ref = none) (hin : (s.pc p).inside = none) (hl : s.lock ip ≠ some (p, r)) :
    Inv (Icache.dropRef s r ip) := by
  refine h.dropRef (h.owners.dropRef he (fun q hq => ?_) (fun q hq => ?_) fun jp q hq => ?_)
  · obtain rfl := halone q (h.owners.inUse q r hq)
    rw [hpc] at hq
    cases hq
  · have hl' := h.owners.inside q r ip hq he
    obtain rfl := halone q (h.owners.lock ip q r hl').2
    exact hl hl'
  · obtain ⟨he', hh⟩ := h.owners.lock jp q r hq
    obtain rfl := halone q hh
    rw [he] at he'
    cases he'
    exact hl hq

theorem iput (h : Inv s) (hp : s.pc p = .idle) (he : s.entry r = some ip) (hh : s.holds r p = true)
    (halone : ∀ q, s.holds r q = true → q = p) (hl : s.lock ip ≠ some (p, r))
    (hn : Icache.iput s p r ip = .done s') : Inv s' := by
  unfold Icache.iput at hn
  dsimp only at hn
  split at hn
  next hc =>
    split at hn
    next hl0 =>
      cases hn
      exact h.startFree hp he hh halone hl0 hc.1 hc.2.1 hc.2.2
    · cases hn
  next hc =>
    cases hn
    exact h.dropIdle he halone (by rw [hp]; rfl) (by rw [hp]; rfl) hl

theorem search (h : Inv s) {dev inum : Nat} {type : Int16} (hp : s.pc p = .search dev type inum)
    (hn : Icache.search ninodes s p dev type inum = .done s') : Inv s' := by
  unfold Icache.search at hn
  split at hn
  next hlt =>
    split at hn
    next h0 =>
      cases hn
      set g := s.gen (dev, inum) + 1 with hg
      have ho : Owners ((s.write (dev, inum) (allocated type)).setPc p (.claimed dev inum g)) :=
        (h.owners.write _ _).setPc_none rfl rfl rfl
      have hmono : ∀ k, s.gen k ≤ Function.update s.gen (dev, inum) g k := by
        intro k
        by_cases hk : k = (dev, inum)
        · rw [hk, Function.update_self]
          exact Nat.le_succ _
        · rw [Function.update_of_ne hk]
      refine ⟨ho.congr (fun _ => rfl) rfl rfl rfl, h.unique, fun jp hj => ?_, fun r' x g' hx hg' => ?_,
        fun q dev' inum' g' hq => ?_, fun q st r' r₁ x hq => ?_⟩
      · have hok := h.ok jp hj
        have hph : ((s.write (dev, inum) (allocated type)).setPc p (.claimed dev inum g)).phase jp =
            s.phase jp := by
          refine phase_setPc fun r' _ => ?_
          change Pc.phase r' (.claimed dev inum g) = (s.pc p).phase r'
          rw [hp]
          rfl
        change EntryOk (s.cache jp)
          (Function.update s.disk (dev, inum) (allocated type) (key (s.cache jp)))
          (Function.update s.gen (dev, inum) g (key (s.cache jp))) (s.read jp)
          (((s.write (dev, inum) (allocated type)).setPc p (.claimed dev inum g)).phase jp)
        rw [hph]
        by_cases hk : key (s.cache jp) = (dev, inum)
        · rw [State.Ok, hk] at hok
          rw [hk]
          exact hok.realloc h0
        · rw [Function.update_of_ne hk, Function.update_of_ne hk]
          exact hok
      · exact (h.made r' x g' hx hg').trans (hmono _)
      · change Function.update s.pc p (.claimed dev inum g) q = _ at hq
        by_cases hqp : q = p
        · rw [hqp, Function.update_self] at hq
          cases hq
          exact (Function.update_self (dev, inum) g s.gen).ge
        · rw [Function.update_of_ne hqp] at hq
          exact (h.claim q dev' inum' g' hq).trans (hmono _)
      · change Function.update s.pc p (.claimed dev inum g) q = _ at hq
        by_cases hqp : q = p
        · rw [hqp, Function.update_self] at hq
          cases hq
        · rw [Function.update_of_ne hqp] at hq
          exact h.late q st r' r₁ x hq
    · cases hn
      have hclaim : ∀ dev' inum' g, (Pc.search dev type (inum + 1) : Pc M) ≠ .claimed dev' inum' g := by
        intro _ _ _ hc
        cases hc
      have hfree : ∀ st r, (Pc.search dev type (inum + 1) : Pc M) ≠ .free st r := by
        intro _ _ hc
        cases hc
      refine h.setPc (h.owners.setPc_none rfl rfl rfl) (fun _ r' _ => ?_) hclaim hfree
      rw [hp]
      rfl
  · cases hn

theorem write_same (s : State N M) (k : Nat × Nat) : s.write k (s.disk k) = s := by
  rw [State.write, Function.update_eq_self]

theorem freeStep (h : Inv s) {st : Stage} (hp : s.pc p = .free st r) (he : s.entry r = some ip) :
    Inv (Icache.freeStep s p r ip st) := by
  cases st with
  | truncate =>
    obtain ⟨hv, hnlink, hf⟩ := h.ok_stage hp (by decide) he
    have ht : (truncated (s.cache ip).toDinode).type ≠ 0 := by
      change (s.cache ip).type ≠ 0
      rw [hf.same]
      exact hf.type
    exact h.stage hp (by decide) .clear (by decide) he
      (i := withFields (s.cache ip) (truncated (s.cache ip).toDinode)) rfl rfl
      ⟨hv, hnlink, rfl, ht, hf.read⟩
  | clear =>
    obtain ⟨hv, hnlink, hf⟩ := h.ok_stage hp (by decide) he
    have hstep := h.stage (d := s.disk (key (s.cache ip))) hp (by decide) .update (by decide) he
      (i := withFields (s.cache ip) (cleared (s.cache ip).toDinode)) rfl rfl
      ⟨hv, hnlink, hf.type, hf.read⟩
    have hsame := write_same (s.setEntry ip (withFields (s.cache ip) (cleared (s.cache ip).toDinode)))
      (key (s.cache ip))
    change State.write _ _ (s.disk _) = _ at hsame
    rwa [hsame] at hstep
  | update =>
    have hstep := h.stage (i := s.cache ip) (d := (s.cache ip).toDinode) hp (by decide) .invalidate
      (by decide) he rfl rfl trivial
    have hsame : s.setEntry ip (s.cache ip) = s := by rw [State.setEntry, Function.update_eq_self]
    rwa [hsame] at hstep
  | invalidate =>
    have hstep := h.stage (i := invalidated (s.cache ip)) (d := s.disk (key (s.cache ip))) hp
      (by decide) .unlock (by decide) he rfl rfl rfl
    have hsame := write_same (s.setEntry ip (invalidated (s.cache ip))) (key (s.cache ip))
    change State.write _ _ (s.disk _) = _ at hsame
    rwa [hsame] at hstep
  | unlock => exact h.unlockStage hp he
  | drop =>
    -- the lock has been released
    have hl : ∀ jp, s.lock jp ≠ some (p, r) := by
      intro jp hl
      have hok := h.ok jp (h.owners.pos (h.owners.lock jp p r hl).1)
      rw [State.Ok, phase_of_lock hl, hp, Pc.phase, if_pos rfl] at hok
      exact hok
    have hidle : Inv (s.setPc p .idle) := by
      refine h.setPc (h.owners.setPc_none rfl rfl rfl) (fun jp r' hl' => ?_) idle_ne_claimed idle_ne_free
      have hne : r' ≠ r := by
        rintro rfl
        exact hl jp hl'
      rw [hp]
      exact (if_neg hne.symm).symm
    have hpc : (s.setPc p .idle).pc p = .idle := Function.update_self ..
    refine hidle.dropIdle he (fun q hq => h.owners.alone p r q (by rw [hp]; rfl) hq) ?_ ?_ (hl ip)
    · rw [hpc]
      rfl
    · rw [hpc]
      rfl

theorem init (h : Init s) : Inv s := by
  have hno : ∀ ip, ¬ 0 < (s.cache ip).ref := by
    intro ip
    rw [h.cache ip]
    exact lt_irrefl 0
  refine ⟨Owners.init h, fun ip _ hip => absurd hip (hno ip), fun ip hip => absurd hip (hno ip),
    fun r x g hx => ?_, fun p dev inum g hp => ?_, fun p st r r' x hp => ?_⟩
  · rw [h.ref r] at hx
    cases hx
  · rw [h.pc p] at hp
    cases hp
  · rw [h.pc p] at hp
    cases hp

end Inv

theorem call_done {c : Ref N → Outcome (State N M) Trap} (hn : call s p r c = .done s') :
    ∃ x, s.pc p = .idle ∧ s.ref r = some x ∧ x.holders p = true ∧ c x = .done s' := by
  unfold call at hn
  split at hn
  next x hp hx =>
    split at hn
    next hh => exact ⟨x, hp, hx, hh, hn⟩
    · cases hn
  · cases hn

theorem Inv.step {a : Act N M} (h : Inv s) (hn : next ninodes s a = .done s') : Inv s' := by
  cases a with
  | iget p r dev inum =>
    simp only [next] at hn
    split at hn
    next hp hr => exact h.iget hr (fun _ hg => by cases hg) hn
    · cases hn
  | idup p r r' =>
    obtain ⟨x, hp, hx, -, hn⟩ := call_done hn
    split at hn
    next hr' =>
      cases hn
      exact h.addRef hr' (h.owners.pos (entry_of_ref hx)) fun g hg => h.made r x g hx hg
    · cases hn
  | ilock p r =>
    obtain ⟨x, hp, hx, hh, hn⟩ := call_done hn
    split at hn
    · cases hn
    · cases hn
      refine h.setPc (h.owners.setPc (fun r' hr => ?_) nofun nofun) (fun _ r' _ => ?_) nofun nofun
      · cases hr
        rw [holds_of_ref hx]
        exact hh
      · rw [hp]
        rfl
  | iunlock p r =>
    obtain ⟨x, hp, hx, -, hn⟩ := call_done hn
    split at hn
    next hc =>
      cases hn
      obtain ⟨pr, hl, he⟩ := Option.map_eq_some_iff.mp hc.1
      obtain ⟨q, r'⟩ := pr
      obtain rfl : q = p := he
      exact h.iunlock hp hl
    · cases hn
  | iput p r =>
    obtain ⟨x, hp, hx, hh, hn⟩ := call_done hn
    split at hn
    next hc =>
      have hholds := holds_of_ref hx
      exact h.iput hp (entry_of_ref hx) ((hholds p).trans hh)
        (fun q hq => hc.1 q ((hholds q).symm.trans hq)) hc.2 hn
    · cases hn
  | ialloc p dev type =>
    simp only [next] at hn
    split at hn
    next hc =>
      cases hn
      refine h.setPc (h.owners.setPc_none rfl rfl rfl) (fun _ r' _ => ?_) nofun nofun
      rw [hc.1]
      rfl
    · cases hn
  | change p r d =>
    obtain ⟨x, hp, hx, -, hn⟩ := call_done hn
    split at hn
    next hc =>
      cases hn
      exact h.change hp hc.1 hc.2
    · cases hn
  | share p r q =>
    obtain ⟨x, hp, hx, hh, hn⟩ := call_done hn
    cases hn
    refine h.setHolder hx true (h.owners.setHolder hx true nofun fun _ q' hq' => ?_)
    -- who frees the inode shares its reference with nobody, and is not idle
    obtain rfl := h.owners.alone q' r p hq' ((holds_of_ref hx p).trans hh)
    rw [hp] at hq'
    cases hq'
  | leave p r =>
    obtain ⟨x, hp, hx, -, hn⟩ := call_done hn
    split at hn
    next hc =>
      cases hn
      refine h.setHolder hx false (h.owners.setHolder hx false (fun _ => ⟨?_, hc.2⟩) nofun)
      rw [hp]
      exact nofun
    · cases hn
  | finish p r =>
    simp only [next] at hn
    split at hn
    next dev inum g hp hr =>
      have hidle : Inv (s.setPc p .idle) := by
        refine h.setPc (h.owners.setPc_none rfl rfl rfl) (fun _ r' _ => ?_) nofun nofun
        rw [hp]
        rfl
      refine hidle.iget hr (fun g' hg' => ?_) hn
      cases hg'
      exact h.claim p dev inum g hp
    · cases hn
  | go p =>
    simp only [next] at hn
    split at hn
    next dev type inum hp => exact h.search hp hn
    next r hp =>
      split at hn
      next ip he =>
        split at hn
        next hl =>
          cases hn
          exact h.acquire hp he hl
        · cases hn
      · cases hn
    next r hp =>
      split at hn
      next ip he => exact h.load hp he hn
      · cases hn
    next st r hp =>
      split at hn
      next ip he =>
        cases hn
        exact h.freeStep hp he
      · cases hn
    · cases hn

theorem Inv.reachable (h : Reachable (machine ninodes N M) anyStep s) : Inv s :=
  h.invariant (fun _ => Inv.init) fun _ _ _ hi _ hn => hi.step hn

end Xv6.Icache

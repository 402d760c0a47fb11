import Xv6.Sleep.Machine

namespace Xv6.Sleep

open Lib.Transition

variable {N : Nat} {D : Type} {M : Monitor N D} {pid : Fin N → Nat}

def State.Dozing (s : State N D) (q : Fin N) : Prop :=
  s.pc q = .sleepSet ∨ s.pc q = .sched ∨ s.pc q = .asleep ∧ s.state q = .sleeping

def Pc.asks : Pc N → Bool
  | .sleep | .sleepRelease => true
  | _ => false

structure Rests (s : State N D) (q : Fin N) : Prop where
  sleeping : s.state q = .sleeping → s.pc q = .sched ∨ s.pc q = .asleep
  sched : s.pc q = .sched → s.state q = .sleeping
  chan : s.pc q = .sched ∨ s.pc q = .asleep → s.chan q = true

structure Inv (M : Monitor N D) (s : State N D) : Prop where
  lk : Lib.Holder.Holds s.lk Pc.holdsLk s.pc
  plock : ∀ q, Lib.Holder.Holds (s.plock q) (Pc.holdsLock q) fun p => (p, s.pc p)
  rests : ∀ q, Rests s q
  /-- `wakeup` leaves nobody asleep behind it. -/
  visited : ∀ w q, (s.pc w).visited q = true → ¬ s.Dozing q
  asks : ∀ q, (s.pc q).asks = true → M.blocked s.data = true
  pending : ∀ q, s.Dozing q → M.blocked s.data = true ∨ ∃ w, (s.pc w).scanning = true

theorem Inv.boot (M : Monitor N D) : Inv M (boot M) where
  lk := Lib.Holder.Holds.init fun _ => rfl
  plock _ := Lib.Holder.Holds.init fun _ => rfl
  rests _ := ⟨nofun, nofun, by rintro (h | h) <;> cases h⟩
  visited _ _ h := by cases h
  asks _ h := by cases h
  pending q h := by
    obtain h | h | ⟨h, -⟩ := h <;> cases h

variable {s s' : State N D} {p q w : Fin N} {c : Pc N}

theorem Pc.holdsLk_of_scanning (h : c.scanning = true) : c.holdsLk = true := by
  cases c <;> first | rfl | cases h

theorem Pc.scanning_of_visited (h : c.visited q = true) : c.scanning = true := by
  cases c <;> first | rfl | cases h

theorem Pc.holdsLk_of_asks (h : c.asks = true) : c.holdsLk = true := by
  cases c <;> first | rfl | cases h

theorem Pc.asks_of_scanning (h : c.scanning = true) : c.asks = false := by
  cases c <;> first | rfl | cases h

theorem State.Dozing.scanning (h : s.Dozing p) : (s.pc p).scanning = false := by
  obtain h | h | ⟨h, -⟩ := h <;> rw [h] <;> rfl

structure Goes (M : Monitor N D) (s s' : State N D) (p : Fin N) (c : Pc N) : Prop where
  pc : s'.pc = Function.update s.pc p c
  state : ∀ q, q ≠ p → s'.state q = s.state q
  chan : ∀ q, q ≠ p → s'.chan q = s.chan q
  rests : Rests s' p
  dozes : s'.Dozing p → s.Dozing p ∨ (s.pc p).asks = true
  visited : ∀ q, c.visited q = true → (s.pc p).visited q = true ∨ ¬ s.Dozing q
  asks : c.asks = true → M.blocked s.data = true
  scanning : (s.pc p).scanning = true → c.scanning = true ∨ ∀ q, ¬ s.Dozing q
  /-- The data change in the hands of who has `lk`, and if somebody may wait for the change then
  it goes on to wake them up. -/
  data : s'.data = s.data ∨ (s.pc p).holdsLk = true ∧ c.asks = false ∧
    (c.scanning = true ∨ M.blocked s.data = false)

theorem Goes.pc_self (g : Goes M s s' p c) : s'.pc p = c := by
  rw [g.pc, Function.update_self]

theorem Goes.pc_of_ne (g : Goes M s s' p c) (hq : q ≠ p) : s'.pc q = s.pc q := by
  rw [g.pc, Function.update_of_ne hq]

theorem Goes.dozing_of_ne (g : Goes M s s' p c) (hq : q ≠ p) : s'.Dozing q ↔ s.Dozing q := by
  rw [State.Dozing, State.Dozing, g.pc_of_ne hq, g.state q hq]

theorem Inv.rests_goes (h : Inv M s) (g : Goes M s s' p c) (q : Fin N) : Rests s' q := by
  by_cases hq : q = p
  · subst hq
    exact g.rests
  · obtain ⟨hs, hc, hn⟩ := h.rests q
    constructor
    · rw [g.state q hq, g.pc_of_ne hq]
      exact hs
    · rw [g.state q hq, g.pc_of_ne hq]
      exact hc
    · rw [g.chan q hq, g.pc_of_ne hq]
      exact hn

theorem Inv.visited_goes (h : Inv M s) (g : Goes M s s' p c) (w q : Fin N)
    (hw : (s'.pc w).visited q = true) : ¬ s'.Dozing q := by
  intro hd
  have hwq : w ≠ q := by
    rintro rfl
    have hs := Pc.scanning_of_visited hw
    rw [hd.scanning] at hs
    cases hs
  by_cases hq : q = p
  · subst hq
    rw [g.pc_of_ne hwq] at hw
    obtain hd | hk := g.dozes hd
    · exact h.visited w q hw hd
    · -- a process with `lk` goes to sleep, and `w` has `lk` as well
      have hs := Pc.scanning_of_visited hw
      exact hwq (h.lk.unique (Pc.holdsLk_of_scanning hs) (Pc.holdsLk_of_asks hk))
  · rw [g.dozing_of_ne hq] at hd
    by_cases hwp : w = p
    · subst hwp
      rw [g.pc_self] at hw
      obtain hv | hv := g.visited q hw
      · exact h.visited w q hv hd
      · exact hv hd
    · rw [g.pc_of_ne hwp] at hw
      exact h.visited w q hw hd

theorem Inv.asks_goes (h : Inv M s) (g : Goes M s s' p c) (q : Fin N)
    (hq : (s'.pc q).asks = true) : M.blocked s'.data = true := by
  by_cases hqp : q = p
  · subst hqp
    rw [g.pc_self] at hq
    obtain hd | ⟨-, hd, -⟩ := g.data
    · rw [hd]
      exact g.asks hq
    · rw [hd] at hq
      cases hq
  · rw [g.pc_of_ne hqp] at hq
    obtain hd | ⟨hk, -⟩ := g.data
    · rw [hd]
      exact h.asks q hq
    · exact absurd (h.lk.unique (Pc.holdsLk_of_asks hq) hk) hqp

theorem Goes.before (g : Goes M s s' p c) (hq : s'.Dozing q) :
    s.Dozing q ∨ q = p ∧ (s.pc p).asks = true := by
  by_cases hqp : q = p
  · subst hqp
    exact (g.dozes hq).imp_right fun hk => ⟨rfl, hk⟩
  · exact .inl ((g.dozing_of_ne hqp).mp hq)

theorem Inv.pending_goes (h : Inv M s) (g : Goes M s s' p c) (q : Fin N) (hq : s'.Dozing q) :
    M.blocked s'.data = true ∨ ∃ w, (s'.pc w).scanning = true := by
  have hbefore := g.before hq
  have hpending : M.blocked s.data = true ∨ ∃ w, (s.pc w).scanning = true := by
    obtain hd | ⟨-, hk⟩ := hbefore
    · exact h.pending q hd
    · exact .inl (h.asks p hk)
  have hself : c.scanning = true → ∃ w, (s'.pc w).scanning = true := by
    intro hc
    refine ⟨p, ?_⟩
    rw [g.pc_self]
    exact hc
  obtain hb | ⟨w, hw⟩ := hpending
  · obtain hd | ⟨-, -, hc | hd⟩ := g.data
    · rw [hd]
      exact .inl hb
    · exact .inr (hself hc)
    · rw [hd] at hb
      cases hb
  · right
    by_cases hwp : w = p
    · subst hwp
      obtain hc | hnone := g.scanning hw
      · exact hself hc
      · obtain hd | ⟨-, hk⟩ := hbefore
        · exact absurd hd (hnone q)
        · rw [Pc.asks_of_scanning hw] at hk
          cases hk
    · refine ⟨w, ?_⟩
      rw [g.pc_of_ne hwp]
      exact hw

theorem Inv.goes (h : Inv M s) (g : Goes M s s' p c)
    (hlk : Lib.Holder.Holds s'.lk Pc.holdsLk s'.pc)
    (hplock : ∀ q, Lib.Holder.Holds (s'.plock q) (Pc.holdsLock q) fun p => (p, s'.pc p)) :
    Inv M s' where
  lk := hlk
  plock := hplock
  rests := h.rests_goes g
  visited := h.visited_goes g
  asks := h.asks_goes g
  pending := h.pending_goes g

theorem places_update (f : Fin N → Pc N) (p : Fin N) (c : Pc N) :
    (fun q => (q, Function.update f p c q)) = Function.update (fun q => (q, f q)) p (p, c) := by
  funext q
  by_cases hq : q = p
  · subst hq
    rw [Function.update_self, Function.update_self]
  · rw [Function.update_of_ne hq, Function.update_of_ne hq]

def KeepsLocks (s : State N D) (p : Fin N) (c : Pc N) : Prop :=
  ∀ q, Pc.holdsLock q (p, c) = Pc.holdsLock q (p, s.pc p)

theorem Inv.plock_step (h : Inv M s) (hk : KeepsLocks s p c) (q : Fin N) :
    Lib.Holder.Holds (s.plock q) (Pc.holdsLock q) fun r => (r, Function.update s.pc p c r) := by
  rw [places_update]
  exact (h.plock q).step (hk q)

theorem Inv.plock_acquire (h : Inv M s) (hl : s.plock w = none)
    (hw : Pc.holdsLock w (p, c) = true)
    (hk : ∀ q, q ≠ w → Pc.holdsLock q (p, c) = Pc.holdsLock q (p, s.pc p)) (q : Fin N) :
    Lib.Holder.Holds (Function.update s.plock w (some p) q) (Pc.holdsLock q)
      fun r => (r, Function.update s.pc p c r) := by
  rw [places_update]
  by_cases hq : q = w
  · subst hq
    rw [Function.update_self]
    exact (h.plock q).acquire hl hw
  · rw [Function.update_of_ne hq]
    exact (h.plock q).step (hk q hq)

theorem Inv.plock_release (h : Inv M s) (hl : Pc.holdsLock w (p, s.pc p) = true)
    (hw : Pc.holdsLock w (p, c) = false)
    (hk : ∀ q, q ≠ w → Pc.holdsLock q (p, c) = Pc.holdsLock q (p, s.pc p)) (q : Fin N) :
    Lib.Holder.Holds (Function.update s.plock w none q) (Pc.holdsLock q)
      fun r => (r, Function.update s.pc p c r) := by
  rw [places_update]
  by_cases hq : q = w
  · subst hq
    rw [Function.update_self]
    exact (h.plock q).release hl hw
  · rw [Function.update_of_ne hq]
    exact (h.plock q).step (hk q hq)

def Pc.light : Pc N → Bool
  | .sleepSet | .sched | .asleep | .scan _ | .visit _ => false
  | _ => true

theorem Pc.scanning_of_light (h : c.light = true) : c.scanning = false := by
  cases c <;> first | rfl | cases h

theorem Pc.visited_of_light (h : c.light = true) : c.visited q = false := by
  cases c <;> first | rfl | cases h

theorem State.not_dozing_of_light (h : (s.pc p).light = true) : ¬ s.Dozing p := by
  rintro (hd | hd | ⟨hd, -⟩) <;> rw [hd] at h <;> cases h

theorem Rests.of_light (hc : (s.pc p).light = true) (hs : s.state p ≠ .sleeping) : Rests s p where
  sleeping h := absurd h hs
  sched h := by rw [h] at hc; cases hc
  chan h := by obtain h | h := h <;> rw [h] at hc <;> cases hc

theorem Rests.awake (h : Rests s p) (hc : (s.pc p).light = true) : s.state p ≠ .sleeping := by
  intro hs
  obtain h | h := h.sleeping hs <;> rw [h] at hc <;> cases hc

theorem Goes.of_light (h : Inv M s) (hpc : s'.pc = Function.update s.pc p c)
    (hstate : s'.state = s.state) (hchan : ∀ q, q ≠ p → s'.chan q = s.chan q)
    (hdata : s'.data = s.data ∨
      (s.pc p).holdsLk = true ∧ c.asks = false ∧ M.blocked s.data = false)
    (hp : (s.pc p).light = true) (hc : c.light = true)
    (hasks : c.asks = true → M.blocked s.data = true) : Goes M s s' p c := by
  have hc' : (s'.pc p).light = true := by
    rw [hpc, Function.update_self]
    exact hc
  refine ⟨hpc, fun q _ => congrFun hstate q, hchan, ?_, ?_, ?_, hasks, ?_, ?_⟩
  · refine Rests.of_light hc' ?_
    rw [hstate]
    exact (h.rests p).awake hp
  · intro hd
    exact absurd hd (State.not_dozing_of_light hc')
  · intro q hq
    rw [Pc.visited_of_light hc] at hq
    cases hq
  · intro hs
    rw [Pc.scanning_of_light hp] at hs
    cases hs
  · exact hdata.imp_right fun ⟨hk, ha, hb⟩ => ⟨hk, ha, .inr hb⟩

theorem Inv.goto (h : Inv M s) (hp : (s.pc p).light = true) (hc : c.light = true)
    (hlk : c.holdsLk = (s.pc p).holdsLk) (hk : KeepsLocks s p c)
    (hasks : c.asks = true → M.blocked s.data = true) : Inv M (s.goto p c) :=
  h.goes (.of_light h rfl rfl (fun _ _ => rfl) (.inl rfl) hp hc hasks) (h.lk.step hlk)
    (h.plock_step hk)

theorem Inv.acquire (h : Inv M s) (hp : (s.pc p).light = true) (hc : c.light = true)
    (hlk : c.holdsLk = true) (hk : KeepsLocks s p c) (hasks : c.asks = false)
    (hn : acquire s p c = .done s') : Inv M s' := by
  unfold Sleep.acquire at hn
  split at hn
  case isTrue hl =>
    cases hn
    refine h.goes (c := c) (.of_light h rfl rfl (fun _ _ => rfl) (.inl rfl) hp hc ?_)
      (h.lk.acquire hl hlk) (h.plock_step hk)
    intro ha
    rw [hasks] at ha
    cases ha
  case isFalse => cases hn

theorem Inv.take (h : Inv M s) (hp : s.pc p = .test) (hb : M.blocked s.data = false) :
    Inv M ((s.setData (M.take p s.data)).goto p .entered) := by
  refine h.goes (c := .entered) (.of_light h rfl rfl (fun _ _ => rfl) (.inr ⟨?_, rfl, hb⟩) ?_ rfl
    nofun) (h.lk.step ?_) (h.plock_step fun q => ?_)
  all_goals rw [hp]; rfl

theorem Inv.doze (h : Inv M s) (hp : s.pc p = .sleepRelease) :
    Inv M ((s.setLk none).goto p .sleepSet) := by
  have hs : s.state p ≠ .sleeping := (h.rests p).awake (by rw [hp]; rfl)
  refine h.goes (c := .sleepSet) ⟨rfl, fun _ _ => rfl, fun _ _ => rfl, ⟨?_, ?_, ?_⟩, ?_, nofun,
    nofun, ?_, .inl rfl⟩ (h.lk.release ?_ rfl) (h.plock_step fun q => ?_)
  · intro h
    exact absurd h hs
  · simp [State.goto]
  · simp [State.goto]
  · intro _
    rw [hp]
    exact .inr rfl
  · rw [hp]
    nofun
  all_goals rw [hp]; rfl

theorem Inv.park (h : Inv M s) (hp : s.pc p = .sleepSet) :
    Inv M (((s.setChan p true).setState p .sleeping).goto p .sched) := by
  refine h.goes (c := .sched) ⟨rfl, ?_, ?_, ⟨?_, ?_, ?_⟩, ?_, nofun, nofun, ?_, .inl rfl⟩
    (h.lk.step ?_) (h.plock_step fun q => ?_)
  · intro q hq
    exact Function.update_of_ne hq ..
  · intro q hq
    exact Function.update_of_ne hq ..
  · simp [State.goto]
  · simp [State.goto, State.setState]
  · simp [State.goto, State.setState, State.setChan]
  · intro _
    exact .inl (.inl hp)
  · rw [hp]
    nofun
  all_goals rw [hp]; rfl

theorem Inv.switch (h : Inv M s) (hp : s.pc p = .sched) :
    Inv M ((s.setPlock p none).goto p .asleep) := by
  refine h.goes (c := .asleep) ⟨rfl, fun _ _ => rfl, fun _ _ => rfl, ⟨?_, ?_, ?_⟩, ?_, nofun,
    nofun, ?_, .inl rfl⟩ (h.lk.step ?_) (h.plock_release ?_ rfl ?_)
  · simp [State.goto]
  · simp [State.goto]
  · intro _
    exact (h.rests p).chan (.inl hp)
  · intro _
    exact .inl (.inr (.inl hp))
  · rw [hp]
    nofun
  · rw [hp]
    rfl
  · rw [hp]
    exact decide_eq_true rfl
  · intro q hq
    rw [hp]
    exact (decide_eq_false hq.symm).symm

theorem Inv.resume (h : Inv M s) (hp : s.pc p = .asleep) (hl : s.plock p = none) :
    Inv M ((((s.setState p .running).setPlock p (some p))).goto p .awake) := by
  refine h.goes (c := .awake) ⟨rfl, ?_, fun _ _ => rfl, .of_light ?_ ?_, ?_, nofun, nofun, ?_,
    .inl rfl⟩ (h.lk.step ?_) (h.plock_acquire hl ?_ ?_)
  · intro q hq
    exact Function.update_of_ne hq ..
  · simp [State.goto, Pc.light]
  · simp [State.goto, State.setPlock, State.setState]
  · intro hd
    refine absurd hd (State.not_dozing_of_light ?_)
    simp [State.goto, Pc.light]
  · rw [hp]
    nofun
  · rw [hp]
    rfl
  · exact decide_eq_true rfl
  · intro q hq
    rw [hp]
    exact decide_eq_false hq.symm

theorem Inv.tidy (h : Inv M s) (hp : s.pc p = .awake) :
    Inv M (((s.setChan p false).setPlock p none).goto p .acquire) := by
  refine h.goes (c := .acquire) (.of_light h rfl rfl ?_ (.inl rfl) ?_ rfl nofun) (h.lk.step ?_)
    (h.plock_release ?_ rfl ?_)
  · intro q hq
    exact Function.update_of_ne hq ..
  · rw [hp]
    rfl
  · rw [hp]
    rfl
  · rw [hp]
    exact decide_eq_true rfl
  · intro q hq
    rw [hp]
    exact (decide_eq_false hq.symm).symm

theorem Inv.enter (h : Inv M s) (hp : s.pc p = .entered) :
    Inv M ((s.setLk none).goto p .inside) := by
  refine h.goes (c := .inside) (.of_light h rfl rfl (fun _ _ => rfl) (.inl rfl) ?_ rfl nofun)
    (h.lk.release ?_ rfl) (h.plock_step fun q => ?_)
  all_goals rw [hp]; rfl

theorem Inv.give (h : Inv M s) (hp : s.pc p = .give) :
    Inv M ((s.setData (M.give s.data)).goto p (.scan 0)) := by
  have hs : s.state p ≠ .sleeping := (h.rests p).awake (by rw [hp]; rfl)
  refine h.goes (c := .scan 0) ⟨rfl, fun _ _ => rfl, fun _ _ => rfl, ⟨?_, ?_, ?_⟩, ?_, ?_, nofun,
    fun _ => .inl rfl, .inr ⟨?_, rfl, .inl rfl⟩⟩ (h.lk.step ?_) (h.plock_step fun q => ?_)
  · intro h
    exact absurd h hs
  · simp [State.goto]
  · simp [State.goto]
  · simp [State.Dozing, State.goto]
  · intro q hq
    simp [Pc.visited] at hq
  all_goals rw [hp]; rfl

theorem Goes.of_scan (h : Inv M s) (hpc : s'.pc = Function.update s.pc p c)
    (hstate : s'.state = s.state) (hchan : s'.chan = s.chan) (hdata : s'.data = s.data)
    (hp : (s.pc p).scanning = true) (hc : c.scanning = true)
    (hvisited : ∀ q, c.visited q = true → (s.pc p).visited q = true ∨ ¬ s.Dozing q) :
    Goes M s s' p c := by
  have hself : s'.pc p = c := by rw [hpc, Function.update_self]
  have hs : s.state p ≠ .sleeping := by
    intro hs
    obtain hq | hq := (h.rests p).sleeping hs <;> rw [hq] at hp <;> cases hp
  refine ⟨hpc, fun q _ => congrFun hstate q, fun q _ => congrFun hchan q, ⟨?_, ?_, ?_⟩, ?_,
    hvisited, ?_, fun _ => .inl hc, .inl hdata⟩
  · intro hq
    rw [hstate] at hq
    exact absurd hq hs
  · intro hq
    rw [← hself, hq] at hc
    cases hc
  · intro hq
    rw [← hself] at hc
    obtain hq | hq := hq <;> rw [hq] at hc <;> cases hc
  · intro hd
    rw [← hself, hd.scanning] at hc
    cases hc
  · intro ha
    rw [Pc.asks_of_scanning hc] at ha
    cases ha

theorem Inv.reach {i : Fin N} (h : Inv M s) (hp : s.pc p = .scan i) (hl : s.plock i = none) :
    Inv M ((s.setPlock i (some p)).goto p (.visit i)) := by
  refine h.goes (c := .visit i) (.of_scan h rfl rfl rfl rfl ?_ rfl ?_) (h.lk.step ?_)
    (h.plock_acquire hl ?_ ?_)
  · rw [hp]
    rfl
  · intro q hq
    rw [hp]
    exact .inl hq
  · rw [hp]
    rfl
  · exact decide_eq_true rfl
  · intro q hq
    rw [hp]
    exact decide_eq_false hq.symm

theorem Inv.depart {i : Nat} (h : Inv M s) (hp : s.pc p = .scan i) (hi : ¬ i < N) :
    Inv M ((s.setLk none).goto p .outside) := by
  have hall : ∀ q, ¬ s.Dozing q := by
    intro q
    apply h.visited p q
    rw [hp]
    exact decide_eq_true (by omega)
  have hs : s.state p ≠ .sleeping := by
    intro hs
    obtain hq | hq := (h.rests p).sleeping hs <;> rw [hq] at hp <;> cases hp
  refine h.goes (c := .outside) ⟨rfl, fun _ _ => rfl, fun _ _ => rfl, .of_light ?_ hs, ?_, nofun,
    nofun, fun _ => .inr hall, .inl rfl⟩ (h.lk.release ?_ rfl) (h.plock_step fun q => ?_)
  · simp [State.goto, Pc.light]
  · intro hd
    refine absurd hd (State.not_dozing_of_light ?_)
    simp [State.goto, Pc.light]
  all_goals rw [hp]; rfl

def Pc.grips (q : Fin N) : Pc N → Bool
  | .visit i | .killVisit _ i _ => i = q
  | _ => false

theorem Pc.holdsLock_of_grips (h : c.grips q = true) : Pc.holdsLock q (p, c) = true := by
  cases c <;> first | exact h | cases h

theorem Inv.settled (h : Inv M s) (hp : (s.pc p).grips q = true) :
    s.pc q ≠ .sleepSet ∧ s.pc q ≠ .sched := by
  have hown : Pc.holdsLock q (q, s.pc q) = true → q = p := by
    intro hq
    exact (h.plock q).unique hq (Pc.holdsLock_of_grips hp)
  constructor
  all_goals
    intro hq
    have heq := hown (by rw [hq]; exact decide_eq_true rfl)
    subst heq
    rw [hq] at hp
    cases hp

theorem Inv.setRunnable (h : Inv M s) (hq : s.pc q ≠ .sched) : Inv M (s.setState q .runnable) := by
  have hkeep : ∀ r, (s.setState q .runnable).state r = .sleeping → s.state r = .sleeping := by
    intro r hr
    by_cases hrq : r = q
    · subst hrq
      simp [State.setState] at hr
    · simpa [State.setState, hrq] using hr
  have hdoze : ∀ r, (s.setState q .runnable).Dozing r → s.Dozing r := by
    rintro r (hr | hr | ⟨hr, hs⟩)
    · exact .inl hr
    · exact .inr (.inl hr)
    · exact .inr (.inr ⟨hr, hkeep r hs⟩)
  refine ⟨h.lk, h.plock, fun r => ⟨?_, ?_, (h.rests r).chan⟩, ?_, h.asks, ?_⟩
  · intro hr
    exact (h.rests r).sleeping (hkeep r hr)
  · intro hr
    have hrq : r ≠ q := by
      rintro rfl
      exact hq hr
    have hs := (h.rests r).sched hr
    simpa [State.setState, hrq] using hs
  · intro w r hw hr
    exact h.visited w r hw (hdoze r hr)
  · intro r hr
    exact h.pending r (hdoze r hr)

theorem Inv.setKilled (h : Inv M s) (q : Fin N) : Inv M (s.setKilled q) where
  lk := h.lk
  plock := h.plock
  rests r := ⟨(h.rests r).sleeping, (h.rests r).sched, (h.rests r).chan⟩
  visited := h.visited
  asks := h.asks
  pending := h.pending

theorem Inv.wake (h : Inv M s) (hq : s.pc q ≠ .sched) : Inv M (s.wake q) := by
  unfold State.wake
  split
  · exact h.setRunnable hq
  · exact h

theorem Inv.kill (h : Inv M s) (hq : s.pc q ≠ .sched) : Inv M (s.kill q) := by
  unfold State.kill
  split
  · exact (h.setKilled q).setRunnable hq
  · exact h.setKilled q

@[simp] theorem State.wake_pc (s : State N D) (q : Fin N) : (s.wake q).pc = s.pc := by
  unfold State.wake
  split <;> rfl

@[simp] theorem State.kill_pc (s : State N D) (q : Fin N) : (s.kill q).pc = s.pc := by
  unfold State.kill
  split <;> rfl

theorem Inv.wake_not_dozing (h : Inv M s) (hq : s.pc q ≠ .sleepSet ∧ s.pc q ≠ .sched) :
    ¬ (s.wake q).Dozing q := by
  rintro (hd | hd | ⟨hd, hs⟩)
  · rw [State.wake_pc] at hd
    exact hq.1 hd
  · rw [State.wake_pc] at hd
    exact hq.2 hd
  · rw [State.wake_pc] at hd
    have hc := (h.rests q).chan (.inr hd)
    unfold State.wake at hs
    split at hs
    · simp [State.setState] at hs
    · next hn => exact hn ⟨hs, hc⟩

theorem Inv.visit {i : Fin N} (h : Inv M s) (hp : s.pc p = .visit i) :
    Inv M (((s.wake i).setPlock i none).goto p (.scan (i.val + 1))) := by
  have hi := h.settled (p := p) (q := i) (by rw [hp]; exact decide_eq_true rfl)
  have hp' : (s.wake i).pc p = .visit i := by rw [State.wake_pc, hp]
  have hnot := h.wake_not_dozing hi
  have h := h.wake hi.2
  -- the state after the test is the one that `wakeup` goes on from
  have hplock : (s.wake i).plock = s.plock := by
    unfold State.wake
    split <;> rfl
  generalize s.wake i = r at h hp' hnot hplock
  refine h.goes (c := .scan (i.val + 1)) (.of_scan h rfl rfl rfl rfl ?_ rfl ?_) (h.lk.step ?_)
    (h.plock_release ?_ rfl ?_)
  · rw [hp']
    rfl
  · intro q hq
    rw [hp']
    obtain hlt | heq := Nat.lt_succ_iff_lt_or_eq.mp (of_decide_eq_true hq)
    · exact .inl (decide_eq_true hlt)
    · rw [Fin.ext heq]
      exact .inr hnot
  · rw [hp']
    rfl
  · rw [hp']
    exact decide_eq_true rfl
  · intro q hq
    rw [hp']
    exact (decide_eq_false hq.symm).symm

theorem Inv.unhand {v : Nat} {i : Fin N} {b : Bool} (h : Inv M s) (hp : s.pc p = .killVisit v i b)
    (hc : c.light = true) (hlk : c.holdsLk = false) (hasks : c.asks = false)
    (hk : ∀ q, Pc.holdsLock q (p, c) = false) : Inv M ((s.setPlock i none).goto p c) := by
  refine h.goes (c := c) (.of_light h rfl rfl (fun _ _ => rfl) (.inl rfl) ?_ hc ?_) (h.lk.step ?_)
    (h.plock_release ?_ (hk i) ?_)
  · rw [hp]
    rfl
  · rw [hasks]
    nofun
  · rw [hp, hlk]
    rfl
  · rw [hp]
    exact decide_eq_true rfl
  · intro q hq
    rw [hp, hk q]
    exact (decide_eq_false hq.symm).symm

theorem Inv.hand (h : Inv M s) (hp : (s.pc p).light = true) (hc : c.light = true)
    (hlk : c.holdsLk = (s.pc p).holdsLk) (hasks : c.asks = true → M.blocked s.data = true)
    (hl : s.plock w = none) (hold : ∀ q, Pc.holdsLock q (p, s.pc p) = false)
    (hk : ∀ q, Pc.holdsLock q (p, c) = decide (w = q)) :
    Inv M ((s.setPlock w (some p)).goto p c) := by
  refine h.goes (c := c) (.of_light h rfl rfl (fun _ _ => rfl) (.inl rfl) hp hc hasks)
    (h.lk.step hlk) (h.plock_acquire hl ?_ ?_)
  · rw [hk]
    exact decide_eq_true rfl
  · intro q hq
    rw [hk, hold]
    exact decide_eq_false hq.symm

theorem Inv.killStep {v : Nat} {i : Fin N} {b : Bool} (h : Inv M s)
    (hp : s.pc p = .killVisit v i b) :
    Inv M (((s.kill i).setPlock i none).goto p (.back b)) := by
  have hi := h.settled (p := p) (q := i) (by rw [hp]; exact decide_eq_true rfl)
  have hp' : (s.kill i).pc p = .killVisit v i b := by rw [State.kill_pc, hp]
  refine (h.kill hi.2).unhand hp' ?_ ?_ ?_ ?_
  all_goals cases b <;> intros <;> rfl

theorem acquireProc_done (hn : acquireProc s p q c = .done s') :
    s.plock q = none ∧ s' = (s.setPlock q (some p)).goto p c := by
  unfold acquireProc at hn
  split at hn
  · next hl =>
    cases hn
    exact ⟨hl, rfl⟩
  · cases hn

theorem Inv.run (h : Inv M s) (hn : runStep M pid s p = .done s') : Inv M s' := by
  unfold runStep at hn
  cases hp : s.pc p with
  | outside | inside => rw [hp] at hn; cases hn
  | acquire | leave =>
    rw [hp] at hn
    refine h.acquire ?_ rfl rfl (fun q => ?_) rfl hn
    all_goals rw [hp]; rfl
  | test =>
    rw [hp] at hn
    simp only at hn
    split at hn
    case isTrue hb =>
      cases hn
      refine h.goto ?_ rfl ?_ (fun q => ?_) fun _ => hb
      all_goals rw [hp]; rfl
    case isFalse hb =>
      cases hn
      exact h.take hp (Bool.eq_false_iff.mpr hb)
  | sleep =>
    rw [hp] at hn
    obtain ⟨hl, rfl⟩ := acquireProc_done hn
    refine h.hand ?_ rfl ?_ (fun _ => h.asks p ?_) hl (fun q => ?_) fun q => rfl
    all_goals rw [hp]; rfl
  | sleepRelease => rw [hp] at hn; cases hn; exact h.doze hp
  | sleepSet => rw [hp] at hn; cases hn; exact h.park hp
  | sched => rw [hp] at hn; cases hn; exact h.switch hp
  | asleep =>
    rw [hp] at hn
    simp only at hn
    split at hn
    · obtain ⟨hl, rfl⟩ := acquireProc_done hn
      exact h.resume hp hl
    · cases hn
  | awake => rw [hp] at hn; cases hn; exact h.tidy hp
  | entered => rw [hp] at hn; cases hn; exact h.enter hp
  | give => rw [hp] at hn; cases hn; exact h.give hp
  | scan i =>
    rw [hp] at hn
    simp only at hn
    split at hn
    case isTrue hi =>
      obtain ⟨hl, rfl⟩ := acquireProc_done hn
      exact h.reach (i := ⟨i, hi⟩) hp hl
    case isFalse hi => cases hn; exact h.depart hp hi
  | visit i => rw [hp] at hn; cases hn; exact h.visit hp
  | killScan v i b =>
    rw [hp] at hn
    simp only at hn
    split at hn
    case isTrue hi =>
      obtain ⟨hl, rfl⟩ := acquireProc_done hn
      refine h.hand ?_ rfl ?_ nofun hl (fun q => ?_) fun q => rfl
      all_goals rw [hp]; rfl
    case isFalse hi =>
      cases hn
      refine h.goto ?_ ?_ ?_ (fun q => ?_) ?_
      all_goals first | rw [hp] | skip
      all_goals cases b <;> first | rfl | nofun
  | killVisit v i b =>
    rw [hp] at hn
    simp only at hn
    split at hn <;> cases hn
    · exact h.killStep hp
    · exact h.unhand hp rfl rfl rfl fun _ => rfl

theorem Inv.step {a : Act N} (h : Inv M s) (hn : next M pid s a = .done s') : Inv M s' := by
  cases a with
  | enter p =>
    simp only [next] at hn
    split at hn
    case isTrue hp =>
      cases hn
      refine h.goto ?_ rfl ?_ (fun q => ?_) nofun
      all_goals rw [hp]; rfl
    case isFalse => cases hn
  | leave p =>
    simp only [next] at hn
    split at hn
    case isTrue hp =>
      cases hn
      refine h.goto ?_ rfl ?_ (fun q => ?_) nofun
      all_goals obtain hp | hp := hp <;> rw [hp] <;> rfl
    case isFalse => cases hn
  | kill p v =>
    simp only [next] at hn
    split at hn
    case isTrue hp =>
      cases hn
      refine h.goto ?_ rfl ?_ (fun q => ?_) nofun
      all_goals rw [hp]; rfl
    case isFalse =>
      split at hn
      case isTrue hp =>
        cases hn
        refine h.goto ?_ rfl ?_ (fun q => ?_) nofun
        all_goals rw [hp]; rfl
      case isFalse => cases hn
  | run p => exact h.run hn

theorem Inv.reachable {ok : State N D → Act N → Prop} (h : Reachable (machine M pid) ok s) :
    Inv M s := by
  refine Reachable.invariant (fun s hs => ?_) (fun s a s' h _ hn => h.step hn) h
  rw [hs]
  exact Inv.boot M

end Xv6.Sleep

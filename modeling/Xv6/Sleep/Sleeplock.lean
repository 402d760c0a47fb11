import Xv6.Sleep.Safety

namespace Xv6.Sleep

open Lib.Transition

variable {N : Nat} {D : Type} {M : Monitor N D} {pid : Fin N → Nat}
variable {s s' : State N D} {p q w : Fin N} {c : Pc N}

inductive Hands (M : Monitor N D) (s s' : State N D) (p : Fin N) (c : Pc N) : Prop where
  | keep (hc : c.owns = (s.pc p).owns) (hd : s'.data = s.data)
  | take (hc : c.owns = true) (hb : M.blocked s.data = false) (hd : s'.data = M.take p s.data)
  | give (hp : (s.pc p).owns = true) (hc : c.owns = false) (hd : s'.data = M.give s.data)

structure Moves (M : Monitor N D) (s s' : State N D) (p : Fin N) (c : Pc N) : Prop where
  pc : s'.pc = Function.update s.pc p c
  state : ∀ q, q ≠ p → s'.state q = s.state q ∨ s'.state q = .runnable
  hands : Hands M s s' p c

theorem State.wake_state (s : State N D) (i q : Fin N) :
    (s.wake i).state q = s.state q ∨ (s.wake i).state q = .runnable := by
  unfold State.wake
  split
  · by_cases hq : q = i
    · subst hq
      exact .inr (Function.update_self ..)
    · exact .inl (Function.update_of_ne hq ..)
  · exact .inl rfl

theorem State.kill_state (s : State N D) (i q : Fin N) :
    (s.kill i).state q = s.state q ∨ (s.kill i).state q = .runnable := by
  unfold State.kill
  split
  · by_cases hq : q = i
    · subst hq
      exact .inr (Function.update_self ..)
    · exact .inl (Function.update_of_ne hq ..)
  · exact .inl rfl

@[simp] theorem State.wake_data (s : State N D) (q : Fin N) : (s.wake q).data = s.data := by
  unfold State.wake
  split <;> rfl

@[simp] theorem State.kill_data (s : State N D) (q : Fin N) : (s.kill q).data = s.data := by
  unfold State.kill
  split <;> rfl

theorem acquire_done (hn : acquire s p c = .done s') : s' = (s.setLk (some p)).goto p c := by
  unfold acquire at hn
  split at hn
  · cases hn
    rfl
  · cases hn

theorem Moves.of_pc (hpc : s'.pc = Function.update s.pc p c)
    (hstate : ∀ q, q ≠ p → s'.state q = s.state q) (hdata : s'.data = s.data)
    (hc : c.owns = (s.pc p).owns) : Moves M s s' p c :=
  ⟨hpc, fun q hq => .inl (hstate q hq), .keep hc hdata⟩

theorem runStep_moves (hn : runStep M pid s p = .done s') : ∃ c, Moves M s s' p c := by
  unfold runStep at hn
  cases hp : s.pc p with
  | outside | inside => rw [hp] at hn; cases hn
  | acquire | leave =>
    rw [hp] at hn
    rw [acquire_done hn]
    refine ⟨_, .of_pc rfl (fun _ _ => rfl) rfl ?_⟩
    rw [hp]
    rfl
  | test =>
    rw [hp] at hn
    simp only at hn
    split at hn
    case isTrue =>
      cases hn
      refine ⟨_, .of_pc rfl (fun _ _ => rfl) rfl ?_⟩
      rw [hp]
      rfl
    case isFalse hb =>
      cases hn
      exact ⟨.entered, rfl, fun _ _ => .inl rfl, .take rfl (Bool.eq_false_iff.mpr hb) rfl⟩
  | sleep =>
    rw [hp] at hn
    rw [(acquireProc_done hn).2]
    refine ⟨_, .of_pc rfl (fun _ _ => rfl) rfl ?_⟩
    rw [hp]
    rfl
  | sleepRelease | sched | awake | entered =>
    rw [hp] at hn
    cases hn
    refine ⟨_, .of_pc rfl (fun _ _ => rfl) rfl ?_⟩
    rw [hp]
    rfl
  | sleepSet =>
    rw [hp] at hn
    cases hn
    refine ⟨_, .of_pc rfl (fun q hq => Function.update_of_ne hq ..) rfl ?_⟩
    rw [hp]
    rfl
  | asleep =>
    rw [hp] at hn
    simp only at hn
    split at hn
    · rw [(acquireProc_done hn).2]
      refine ⟨_, .of_pc rfl (fun q hq => Function.update_of_ne hq ..) rfl ?_⟩
      rw [hp]
      rfl
    · cases hn
  | give =>
    rw [hp] at hn
    cases hn
    refine ⟨.scan 0, rfl, fun _ _ => .inl rfl, .give ?_ rfl rfl⟩
    rw [hp]
    rfl
  | scan i =>
    rw [hp] at hn
    simp only at hn
    split at hn
    case isTrue hi =>
      rw [(acquireProc_done hn).2]
      refine ⟨_, .of_pc rfl (fun _ _ => rfl) rfl ?_⟩
      rw [hp]
      rfl
    case isFalse hi =>
      cases hn
      refine ⟨_, .of_pc rfl (fun _ _ => rfl) rfl ?_⟩
      rw [hp]
      rfl
  | visit i =>
    rw [hp] at hn
    cases hn
    refine ⟨.scan (i.val + 1), ?_, fun q _ => s.wake_state i q, .keep ?_ (s.wake_data i)⟩
    · simp [State.goto, State.setPlock]
    · rw [hp]
      rfl
  | killScan v i b =>
    rw [hp] at hn
    simp only at hn
    split at hn
    case isTrue hi =>
      rw [(acquireProc_done hn).2]
      refine ⟨_, .of_pc rfl (fun _ _ => rfl) rfl ?_⟩
      rw [hp]
      cases b <;> rfl
    case isFalse hi =>
      cases hn
      refine ⟨_, .of_pc rfl (fun _ _ => rfl) rfl ?_⟩
      rw [hp]
      cases b <;> rfl
  | killVisit v i b =>
    rw [hp] at hn
    simp only at hn
    split at hn
    · cases hn
      refine ⟨.back b, ?_, fun q _ => s.kill_state i q, .keep ?_ (s.kill_data i)⟩
      · simp [State.goto, State.setPlock]
      · rw [hp]
        cases b <;> rfl
    · cases hn
      refine ⟨_, .of_pc rfl (fun _ _ => rfl) rfl ?_⟩
      rw [hp]
      cases b <;> rfl

theorem next_calls {a : Act N} (hn : next M pid s a = .done s') :
    (∃ p c, (s.pc p = .inside ∨ s.pc p = .outside) ∧ s' = s.goto p c ∧
      (proper s a = true → c.owns = (s.pc p).owns)) ∨
      ∃ p, a = .run p ∧ runStep M pid s p = .done s' := by
  cases a with
  | enter p =>
    simp only [next] at hn
    split at hn
    case isTrue hp =>
      cases hn
      refine .inl ⟨p, .acquire, .inr hp, rfl, fun _ => ?_⟩
      rw [hp]
      rfl
    case isFalse => cases hn
  | leave p =>
    simp only [next] at hn
    split at hn
    case isTrue hp =>
      cases hn
      refine .inl ⟨p, .leave, hp, rfl, fun hok => ?_⟩
      rw [of_decide_eq_true hok]
      rfl
    case isFalse => cases hn
  | kill p v =>
    simp only [next] at hn
    split at hn
    case isTrue hp =>
      cases hn
      refine .inl ⟨p, .killScan v 0 true, .inl hp, rfl, fun _ => ?_⟩
      rw [hp]
      rfl
    case isFalse =>
      split at hn
      case isTrue hp =>
        cases hn
        refine .inl ⟨p, .killScan v 0 false, .inr hp, rfl, fun _ => ?_⟩
        rw [hp]
        rfl
      case isFalse => cases hn
  | run p => exact .inr ⟨p, rfl, hn⟩

theorem next_moves {a : Act N} (hok : proper s a = true) (hn : next M pid s a = .done s') :
    ∃ p c, Moves M s s' p c := by
  obtain ⟨p, c, -, rfl, hc⟩ | ⟨p, -, hn⟩ := next_calls hn
  · exact ⟨p, c, .of_pc rfl (fun _ _ => rfl) rfl (hc hok)⟩
  · exact ⟨p, runStep_moves hn⟩

def Owned (s : State N Sleeplock) : Prop :=
  ∃ o, Lib.Holder.Holds o Pc.owns s.pc ∧ s.data.locked = o.isSome

theorem Owned.step {s s' : State N Sleeplock} {a : Act N} (h : Owned s)
    (hok : proper s a = true) (hn : next (sleeplock pid) pid s a = .done s') : Owned s' := by
  obtain ⟨o, h, hlocked⟩ := h
  obtain ⟨p, c, hpc, -, hands⟩ := next_moves hok hn
  cases hands with
  | keep hc hd =>
    refine ⟨o, ?_, ?_⟩
    · rw [hpc]
      exact h.step hc
    · rw [hd]
      exact hlocked
  | take hc hb hd =>
    have hnone : o = none := by
      change s.data.locked = false at hb
      rw [hlocked] at hb
      exact Option.not_isSome_iff_eq_none.mp (Bool.eq_false_iff.mp hb)
    refine ⟨some p, ?_, ?_⟩
    · rw [hpc]
      exact h.acquire hnone hc
    · rw [hd]
      rfl
  | give hp hc hd =>
    refine ⟨none, ?_, ?_⟩
    · rw [hpc]
      exact h.release hp hc
    · rw [hd]
      rfl

theorem Owned.reachable {s : State N Sleeplock}
    (h : Reachable (machine (sleeplock pid) pid) (proper · ·) s) : Owned s := by
  refine Reachable.invariant (fun s hs => ?_) (fun s a s' h hok hn => h.step hok hn) h
  rw [hs]
  exact ⟨none, Lib.Holder.Holds.init fun _ => rfl, rfl⟩

theorem Inv.dozing_step {a : Act N} (h : Inv M s) (hq : s.Dozing q)
    (hn : next M pid s a = .done s') : s'.Dozing q ∨ s'.state q = .runnable := by
  obtain ⟨p, c, hp, rfl, -⟩ | ⟨p, -, hn⟩ := next_calls hn
  · have hne : q ≠ p := by
      rintro rfl
      obtain hq | hq | ⟨hq, -⟩ := hq <;> rw [hq] at hp <;> obtain hp | hp := hp <;> cases hp
    left
    simpa [State.Dozing, State.goto, hne] using hq
  · by_cases hqp : q = p
    · subst hqp
      left
      unfold runStep at hn
      obtain hq | hq | ⟨hq, hs⟩ := hq <;> rw [hq] at hn
      · cases hn
        simp [State.Dozing, State.goto]
      · cases hn
        have hs := (h.rests q).sched hq
        simpa [State.Dozing, State.goto, State.setPlock] using hs
      · simp only [hs] at hn
        cases hn
    · obtain ⟨c, hm⟩ := runStep_moves hn
      have hpc : s'.pc q = s.pc q := by rw [hm.pc, Function.update_of_ne hqp]
      refine (hm.state q hqp).imp_left fun hs => ?_
      rw [State.Dozing, hpc, hs]
      exact hq

def performs (M : Monitor N D) (pid : Fin N → Nat) (s : State N D) (τ : List (Act N)) :
    Option (State N D) :=
  perform (machine M pid) (fun _ _ => true) s τ

theorem performs_step {a : Act N} (hn : next M pid s a = .done s') (τ : List (Act N)) :
    performs M pid s (a :: τ) = performs M pid s' τ :=
  perform_cons τ rfl hn

theorem performs_cons {a : Act N} {τ : List (Act N)} (hp : performs M pid s (a :: τ) = some s') :
    ∃ r, next M pid s a = .done r ∧ performs M pid r τ = some s' := by
  unfold performs at hp
  rw [perform] at hp
  split at hp
  · next r _ hn => exact ⟨r, hn, hp⟩
  · cases hp

theorem Inv.runnable_on_the_way {τ : List (Act N)} (h : Inv M s) (hq : s.Dozing q)
    (hp : performs M pid s τ = some s') (hq' : ¬ s'.Dozing q) :
    ∃ τ₁ τ₂ r, τ = τ₁ ++ τ₂ ∧ performs M pid s τ₁ = some r ∧ performs M pid r τ₂ = some s' ∧
      r.state q = .runnable := by
  induction τ generalizing s with
  | nil =>
    cases hp
    exact absurd hq hq'
  | cons a τ ih =>
    obtain ⟨r, hn, hr⟩ := performs_cons hp
    obtain hd | hs := h.dozing_step hq hn
    · obtain ⟨τ₁, τ₂, t, rfl, h₁, h₂, ht⟩ := ih (h.step hn) hd hr
      refine ⟨a :: τ₁, τ₂, t, rfl, ?_, h₂, ht⟩
      rw [performs_step hn, h₁]
    · exact ⟨[a], τ, r, rfl, performs_step hn [], hr, hs⟩

theorem Inv.performs {τ : List (Act N)} (h : Inv M s) (hp : performs M pid s τ = some s') :
    Inv M s' := by
  induction τ generalizing s with
  | nil =>
    cases hp
    exact h
  | cons a τ ih =>
    obtain ⟨r, hn, hr⟩ := performs_cons hp
    exact ih (h.step hn) hr

/-- The process has called `sleep` and has not been woken up. -/
def State.InSleep (s : State N D) (q : Fin N) : Prop := (s.pc q).asks = true ∨ s.Dozing q

theorem Inv.dozing_of_inSleep (h : Inv M s) (hw : (s.pc w).scanning = true) (hq : s.InSleep q) :
    s.Dozing q := by
  obtain hq | hq := hq
  · have heq := h.lk.unique (Pc.holdsLk_of_scanning hw) (Pc.holdsLk_of_asks hq)
    subst heq
    rw [Pc.asks_of_scanning hw] at hq
    cases hq
  · exact hq

theorem Inv.visit_wakes (h : Inv M s) (hw : s.pc w = .visit q) (hq : s.InSleep q) :
    s.state q = .sleeping ∧
      ∃ s', (machine M pid).next s (.run w) = .done s' ∧ s'.state q = .runnable := by
  have hd := h.dozing_of_inSleep (w := w) (by rw [hw]; rfl) hq
  have hset := h.settled (p := w) (q := q) (by rw [hw]; exact decide_eq_true rfl)
  obtain hd | hd | ⟨hd, hs⟩ := hd
  · exact absurd hd hset.1
  · exact absurd hd hset.2
  · have hc := (h.rests q).chan (.inr hd)
    refine ⟨hs, _, by change runStep M pid s w = _; rw [runStep, hw], ?_⟩
    change (s.wake q).state q = .runnable
    rw [State.wake, if_pos ⟨hs, hc⟩]
    exact Function.update_self ..

theorem Inv.scanned (h : Inv M s) (hw : s.pc w = .scan N) : ¬ s.Dozing q := by
  apply h.visited w q
  rw [hw]
  exact decide_eq_true q.isLt

def State.Quiet (s : State N D) : Prop := s.lk = none ∧ ∀ q, s.plock q = none

theorem Inv.blocked_of_sleeping (h : Inv M s) (hl : s.lk = none) (hp : s.state p = .sleeping) :
    M.blocked s.data = true := by
  have hd : s.Dozing p := by
    obtain hq | hq := (h.rests p).sleeping hp
    · exact .inr (.inl hq)
    · exact .inr (.inr ⟨hq, hp⟩)
  obtain hb | ⟨w, hw⟩ := h.pending p hd
  · exact hb
  · have hfree := h.lk.free hl w
    rw [Pc.holdsLk_of_scanning hw] at hfree
    cases hfree

/-- At most one process is inside the sleep-lock, an unlocked sleep-lock has no sleepers, and
`wakeup`, called with the lock under which a sleeper tested its condition, wakes it up. -/
theorem sleeplock_safe (pid : Fin N → Nat) :
    (∀ s, Reachable (machine (sleeplock pid) pid) (proper · ·) s →
      ∀ p q, (s.pc p).owns = true → (s.pc q).owns = true → p = q) ∧
    (∀ s, Reachable (machine (sleeplock pid) pid) anyStep s →
      s.Quiet → s.data.locked = false → ∀ p, ¬ (s.state p = .sleeping ∧ s.chan p = true)) ∧
    ∀ (D : Type) (M : Monitor N D) (s : State N D), Reachable (machine M pid) anyStep s →
      ∀ w q, s.InSleep q →
        (s.pc w = .visit q → s.state q = .sleeping ∧
          ∃ s', (machine M pid).next s (.run w) = .done s' ∧ s'.state q = .runnable) ∧
        (s.pc w = .scan 0 → ∀ τ s', performs M pid s τ = some s' → s'.pc w = .scan N →
          ∃ τ₁ τ₂ r, τ = τ₁ ++ τ₂ ∧ performs M pid s τ₁ = some r ∧ performs M pid r τ₂ = some s' ∧
            r.state q = .runnable) := by
  refine ⟨?_, ?_, ?_⟩
  · intro s h p q hp hq
    obtain ⟨o, ho, -⟩ := Owned.reachable h
    exact ho.unique hp hq
  · rintro s h ⟨hl, -⟩ hlocked p ⟨hp, -⟩
    have hb := (Inv.reachable h).blocked_of_sleeping hl hp
    change s.data.locked = true at hb
    rw [hlocked] at hb
    cases hb
  · intro D M s h w q hq
    have h := Inv.reachable h
    refine ⟨fun hw => h.visit_wakes hw hq, fun hw τ s' hp hw' => ?_⟩
    have hd := h.dozing_of_inSleep (w := w) (by rw [hw]; rfl) hq
    exact h.runnable_on_the_way hd hp ((h.performs hp).scanned hw')

def contended : List (Act 2) :=
  [.enter 0, .run 0, .run 0, .run 0, .enter 1, .run 1, .run 1, .run 1, .run 1, .run 1, .run 1]

def released : List (Act 2) := [.leave 0, .run 0, .run 0]

/-- Two turns of `wakeup`'s loop. -/
def wokenUp : List (Act 2) := [.run 0, .run 0, .run 0, .run 0]

def pids (p : Fin 2) : Nat := p.val + 1

theorem contended_performs :
    ((perform (machine (sleeplock pids) pids) proper (boot (sleeplock pids)) contended).any
      fun s => (s.pc 0).owns && decide (s.state 1 = .sleeping) &&
        (perform (machine (sleeplock pids) pids) proper s released).any fun t =>
          decide (t.pc 0 = .scan 0) && decide (t.pc 1 = .asleep) && decide (t.state 1 = .sleeping) &&
          (performs (sleeplock pids) pids t wokenUp).any
            fun t' => decide (t'.pc 0 = .scan 2)) = true := by
  decide +kernel

theorem sleeplock_safe_two :
    (∃ s, Reachable (machine (sleeplock pids) pids) (proper · ·) s ∧ s.state 1 = .sleeping ∧
      (s.pc 0).owns = true ∧ ¬ (s.pc 1).owns = true) ∧
    ∃ s, Reachable (machine (sleeplock pids) pids) anyStep s ∧ s.pc 0 = .scan 0 ∧ s.InSleep 1 ∧
      ∃ τ₁ τ₂ r, wokenUp = τ₁ ++ τ₂ ∧ performs (sleeplock pids) pids s τ₁ = some r ∧
        r.state 1 = .runnable := by
  obtain ⟨hex, -, hwake⟩ := sleeplock_safe pids
  obtain ⟨s, hs, h⟩ := (Option.any_eq_true _ _).mp contended_performs
  simp only [Bool.and_eq_true, decide_eq_true_eq] at h
  obtain ⟨⟨hown, hsleep⟩, h⟩ := h
  have hrun : Run (machine (sleeplock pids) pids) (proper · ·) _ s := (Run.start rfl).perform hs
  refine ⟨⟨s, ⟨_, hrun⟩, hsleep, hown, fun h1 => ?_⟩, ?_⟩
  · exact absurd (hex s ⟨_, hrun⟩ 0 1 hown h1) (by decide)
  obtain ⟨t, ht, h⟩ := (Option.any_eq_true _ _).mp h
  simp only [Bool.and_eq_true, decide_eq_true_eq] at h
  obtain ⟨⟨⟨hscan, hpc⟩, hstate⟩, h⟩ := h
  have hin : t.InSleep 1 := .inr (.inr (.inr ⟨hpc, hstate⟩))
  have hany : Reachable (machine (sleeplock pids) pids) anyStep t :=
    ⟨_, (hrun.perform ht).mono fun _ _ _ => trivial⟩
  obtain ⟨t', ht', hend⟩ := (Option.any_eq_true _ _).mp h
  obtain ⟨τ₁, τ₂, r, hτ, hr, -, hrun⟩ :=
    (hwake _ _ t hany 0 1 hin).2 hscan _ t' ht' (of_decide_eq_true hend)
  exact ⟨t, hany, hscan, hin, τ₁, τ₂, r, hτ, hr, hrun⟩

end Xv6.Sleep

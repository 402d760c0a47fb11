import Xv6.Disk.Traffic

namespace Xv6.Disk

open Lib Lib.Transition Lib.Holder

variable {B : Type} {N : Nat}

section Runs

variable [DecidableEq B] {s s' : State B N}

theorem Inv.thread_step (h : Inv s) (p : Fin N) :
    (∀ s', threadStep s p = .done s' → Inv s') ∧ ∀ e, threadStep s p = .panic e → e = .intrStatus := by
  cases hp : s.pc p with
  | idle | sleepFree b w | sleepBuf b x =>
    simp only [threadStep, hp]
    exact ⟨nofun, nofun⟩
  | lock b w =>
    simp only [threadStep, hp]
    split
    next hl =>
      refine ⟨fun s' hn => ?_, nofun⟩
      cases hn
      exact h.move hp (h.owners.lock.acquire hl rfl) ⟨rfl, rfl, rfl, rfl, rfl⟩
    next => exact ⟨nofun, nofun⟩
  | alloc b w =>
    simp only [threadStep, hp]
    rcases alloc3Desc_ok s with ⟨x, hs, hx, hf⟩ | ⟨s₁, hs, freed⟩
    · rw [hs]
      refine ⟨fun s' hn => ?_, nofun⟩
      cases hn
      exact h.alloc_step hp hx hf
    · rw [hs]
      refine ⟨fun s' hn => ?_, nofun⟩
      cases hn
      have h₁ := h.freed freed
      have like := freed.pc p
      rw [hp] at like
      exact h₁.move rfl (h₁.owners.lock.release like.locked rfl)
        ⟨like.buffer.symm, like.idx.symm, like.formatted.symm, like.sent.symm, like.pending.symm⟩
  | format b w x =>
    simp only [threadStep, hp]
    refine ⟨fun s' hn => ?_, nofun⟩
    cases hn
    exact h.format_step hp
  | notify b x =>
    simp only [threadStep, hp]
    refine ⟨fun s' hn => ?_, nofun⟩
    cases hn
    exact h.notify_step hp
  | wait b x =>
    simp only [threadStep, hp]
    split
    next =>
      refine ⟨fun s' hn => ?_, nofun⟩
      cases hn
      exact h.move hp (h.owners.lock.release (by rw [hp]; rfl) rfl) ⟨rfl, rfl, rfl, rfl, rfl⟩
    next hd =>
      obtain ⟨s₁, hs₁, h₁⟩ := h.finish_step hp (Bool.eq_false_iff.mpr hd)
      rw [hs₁]
      refine ⟨fun s' hn => ?_, nofun⟩
      cases hn
      exact h₁
  | relock b x =>
    simp only [threadStep, hp]
    split
    next hl =>
      refine ⟨fun s' hn => ?_, nofun⟩
      cases hn
      exact h.move hp (h.owners.lock.acquire hl rfl) ⟨rfl, rfl, rfl, rfl, rfl⟩
    next => exact ⟨nofun, nofun⟩
  | intr =>
    simp only [threadStep, hp]
    split
    next hl =>
      refine ⟨fun s' hn => ?_, nofun⟩
      cases hn
      exact h.move hp (h.owners.lock.acquire hl rfl) ⟨rfl, rfl, rfl, rfl, rfl⟩
    next => exact ⟨nofun, nofun⟩
  | intrLoop =>
    simp only [threadStep, hp]
    split
    next hne =>
      split
      next => exact ⟨nofun, fun e hn => by cases hn; rfl⟩
      next =>
        obtain ⟨q, b, x, -, -, -, hbuf⟩ := h.front_sent hne
        rw [hbuf]
        refine ⟨fun s' hn => ?_, nofun⟩
        cases hn
        exact h.handle_step hne hbuf
    next =>
      refine ⟨fun s' hn => ?_, nofun⟩
      cases hn
      exact h.move hp (h.owners.lock.release (by rw [hp]; rfl) rfl) ⟨rfl, rfl, rfl, rfl, rfl⟩

theorem Inv.step (h : Inv s) {a : Act B N} (hn : next s a = .done s') : Inv s' := by
  cases a with
  | rw p b w =>
    simp only [next] at hn
    split at hn
    next hp =>
      split at hn
      next hb =>
        cases hn
        exact h.rw_step hp hb
      next => cases hn
    next => cases hn
  | intr p =>
    simp only [next] at hn
    split at hn
    next hp =>
      cases hn
      exact h.move hp (h.owners.lock.step (by rw [hp]; rfl)) ⟨rfl, rfl, rfl, rfl, rfl⟩
    next => cases hn
  | kill p =>
    cases hn
    have like := (s.pc p).woken_like
    exact h.move rfl (h.owners.lock.step like.locked)
      ⟨like.buffer, like.idx, like.formatted, like.sent, like.pending⟩
  | go p => exact (h.thread_step p).1 s' hn
  | take =>
    simp only [next] at hn
    split at hn
    next hne =>
      cases hn
      exact h.take_step hne
    next => cases hn
  | post i status =>
    simp only [next] at hn
    split at hn
    next hi =>
      cases hn
      exact h.post_step hi
    next => cases hn

omit [DecidableEq B] in
theorem Inv.init (h : Init s) : Inv s := by
  have hidx : ∀ p x, (s.pc p).idx ≠ some x := by
    intro p x
    rw [h.pc p]
    intro hc
    cases hc
  have hsent : ∀ p z, (s.pc p).sent ≠ some z := by
    intro p z
    rw [h.pc p]
    intro hc
    cases hc
  have hA : s.availRing.contents = [] := by
    apply Circular.contents_eq_nil
    rw [State.availRing, Circular.isEmpty, h.seen, h.availIdx]
    simp
  have hU : s.usedRing.contents = [] := by
    apply Circular.contents_eq_nil
    rw [State.usedRing, Circular.isEmpty, h.usedIdx, h.usedId]
    rfl
  have hQ : s.queue = [] := by rw [State.queue, hA, hU, h.working]; rfl
  refine ⟨⟨?_, fun p q b hp => ?_, fun p x hp => absurd hp (hidx p x),
    fun p q x y i hp => absurd hp (hidx p x), fun i => ⟨fun _ p x hp => absurd hp (hidx p x),
    fun _ => h.free i⟩⟩, fun p b x hp => ?_, fun p b x hp => ?_, ?_, ?_, ?_,
    fun p b x hp => absurd hp (hsent p _), fun p b x hp => absurd hp (hsent p _),
    fun p b x hp => absurd hp (hsent p _), ?_, ?_⟩
  · rw [h.lock]
    exact Holds.init fun q => by rw [h.pc q]; rfl
  · rw [h.pc p] at hp
    cases hp
  · rw [h.pc p] at hp
    cases hp
  · rw [h.pc p] at hp
    cases hp
  · rw [State.availRing, Circular.size, h.availIdx, h.seen]
    rfl
  · rw [hQ]
    exact List.nodup_nil
  · rw [hQ]
    intro z hz
    cases hz
  · rw [h.published, h.taken, hA]
    rfl
  · rw [h.posted, h.handled, hU]
    rfl

theorem Inv.reachable (h : Reachable (machine B N) anyStep s) : Inv s :=
  h.invariant (fun _ => Inv.init) fun _ _ _ hi _ hn => hi.step hn

/-- The driver's bookkeeping of descriptors and of both rings in any interleaving of its
callers, its interrupt handler and the device. -/
theorem disk_driver_safe (h : Reachable (machine B N) anyStep s) :
    (∀ p x, (s.pc p).idx = some x → x.toList.Nodup) ∧
    (∀ p q x y, p ≠ q → (s.pc p).idx = some x → (s.pc q).idx = some y →
      x.toList.Disjoint y.toList) ∧
    (∀ i, s.free i = true ↔ ∀ p x, (s.pc p).idx = some x → i ∉ x.toList) ∧
    (Finset.univ.filter fun p => (s.pc p).idx.isSome).card ≤ 2 ∧
    (s.availIdx - s.seen).toNat + s.working.length + s.usedRing.size ≤ 2 ∧
    s.published = s.taken ++ s.availRing.contents ∧
    s.posted = s.handled ++ s.usedRing.contents ∧
    (∀ p b x, (s.pc p).sent = some (b, x) → s.clears x.first ≤ 1 ∧
      (s.disk b = false ↔ s.clears x.first = 1) ∧ (s.clears x.first = 1 → s.posts x.first = 1)) ∧
    (s.usedIdx ≠ slot s.usedId → ∃ p b x, (s.pc p).sent = some (b, x) ∧
      x.first = s.used s.usedIdx ∧ s.buf (s.used s.usedIdx) = some b ∧ s.disk b = true ∧
      s.posts x.first = 1 ∧ s.clears x.first = 0) ∧
    ∀ a e, next s a = .panic e → e = .intrStatus := by
  have hi := Inv.reachable h
  refine ⟨hi.owners.distinct, ?_, hi.owners.free, hi.owners.inFlight_le, ?_, hi.traffic.published,
    hi.traffic.posted, ?_, ?_, ?_⟩
  · intro p q x y hpq hx hy i hix hiy
    exact hpq (hi.owners.disjoint p q x y i hx hy hix hiy)
  · rw [hi.traffic.count]
    exact hi.sizes_le
  · intro p b x hp
    have hc := hi.traffic.clears p b x hp
    cases hd : s.disk b with
    | true =>
      rw [hd, if_pos rfl] at hc
      simp [hc]
    | false =>
      rw [hd, if_neg Bool.false_ne_true] at hc
      exact ⟨hc.le, by simp [hc], fun _ => hi.posts_of_clear hp hd⟩
  · intro hne
    obtain ⟨p, b, x, hp, hx, hd, hbuf⟩ := hi.front_sent hne
    refine ⟨p, b, x, hp, hx, hbuf, hd, ?_, ?_⟩
    · exact hi.posts_of_used hp (by rw [hx]; exact front_mem hne)
    · rw [hi.traffic.clears p b x hp, if_pos hd]
  · intro a e hn
    cases a with
    | go p => exact (hi.thread_step p).2 e hn
    | rw p b w =>
      simp only [next] at hn
      split at hn
      · split at hn <;> cases hn
      · cases hn
    | intr p =>
      simp only [next] at hn
      split at hn <;> cases hn
    | kill p => cases hn
    | take =>
      simp only [next] at hn
      split at hn <;> cases hn
    | post i status =>
      simp only [next] at hn
      split at hn <;> cases hn

/-- The state of the driver at boot, for `N` threads and buffers with numbers. -/
def State.boot (N : Nat) : State Nat N where
  free _ := true
  desc _ := ⟨.null, false, false, 0⟩
  avail _ := 0
  availIdx := 0
  used _ := 0
  usedId := 0
  usedIdx := 0
  buf _ := none
  status _ := 0
  disk _ := false
  lock := none
  pc _ := .idle
  seen := 0
  working := []
  published := []
  taken := []
  posted := []
  handled := []
  posts _ := 0
  clears _ := 0

/-- Two requests are in flight and the later one is finished first. -/
theorem disk_driver_safe_two : ∃ s : State Nat 3, Reachable (machine Nat 3) anyStep s ∧
    s.published = [0, 3] ∧ s.posted = [3] ∧ s.handled = [3] ∧ s.disk 1 = true ∧ s.disk 2 = false ∧
    s.clears 3 ≤ 1 := by
  let as : List (Act Nat 3) :=
    [.rw 0 1 true, .go 0, .go 0, .go 0, .go 0, .go 0, .rw 1 2 false, .go 1, .go 1, .go 1, .go 1,
      .take, .take, .post 3 0, .go 1, .intr 2, .go 2, .go 2]
  have h : (perform (machine Nat 3) (fun _ _ => true) (State.boot 3) as).any (fun s =>
      s.published = [0, 3] ∧ s.posted = [3] ∧ s.handled = [3] ∧ s.disk 1 = true ∧
        s.disk 2 = false ∧ (s.pc 1).sent = some (2, ⟨3, 4, 5⟩)) = true := by decide +kernel
  have hinit : (machine Nat 3).init (State.boot 3) :=
    ⟨fun _ => rfl, rfl, rfl, rfl, rfl, fun _ => rfl, rfl, rfl, rfl, rfl, rfl, rfl⟩
  obtain ⟨s, hr, hs⟩ := Reachable.of_perform (P := anyStep) h hinit fun _ _ _ => trivial
  obtain ⟨hpub, hpost, hhand, h₁, h₂, hsent⟩ := of_decide_eq_true hs
  obtain ⟨-, -, -, -, -, -, -, hclears, -⟩ := disk_driver_safe hr
  exact ⟨s, hr, hpub, hpost, hhand, h₁, h₂, (hclears 1 2 _ hsent).1⟩

end Runs

end Xv6.Disk

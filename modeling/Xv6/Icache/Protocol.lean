import Xv6.Icache.Steps

namespace Xv6.Icache

open Fs Lib.Transition

variable {N M ninodes : Nat} {s s' : State N M} {p q : Fin N} {r r' : Fin M} {ip jp : Fin NINODE}

structure LastHolder (s : State N M) (p : Fin N) (r : Fin M) (ip : Fin NINODE) : Prop where
  entry : s.entry r = some ip
  only : ∀ r', s.entry r' = some ip → r' = r
  holds : ∀ q, s.holds r q = true ↔ q = p

structure Effect (s : State N M) (a : Act N M) (s' : State N M) : Prop where
  identity : ∀ ip, 0 < (s.cache ip).ref → key (s'.cache ip) = key (s.cache ip)
  disk : ∀ k, (s.disk k).type ≠ 0 → (s'.disk k).type = 0 → ∃ p r ip, a = .go p ∧
    s.pc p = .free .update r ∧ s.entry r = some ip ∧ key (s.cache ip) = k
  start : ∀ p r, (s.pc p).frees = none → (s'.pc p).frees = some r → ∃ ip, LastHolder s p r ip ∧
    (s.cache ip).valid = true ∧ (s.cache ip).nlink = 0

theorem Effect.of_same {a : Act N M}
    (hkey : ∀ ip, 0 < (s.cache ip).ref → key (s'.cache ip) = key (s.cache ip))
    (hdisk : s'.disk = s.disk) (hpc : ∀ p, (s.pc p).frees = none → (s'.pc p).frees = none) :
    Effect s a s' := by
  refine ⟨hkey, fun k h h0 => ?_, fun p r hp hp' => ?_⟩
  · rw [hdisk] at h0
    exact absurd h0 h
  · rw [hpc p hp] at hp'
    cases hp'

theorem frees_setPc {x : Pc M} (hx : (s.pc p).frees = none → x.frees = none) (q : Fin N)
    (hq : (s.pc q).frees = none) : (Function.update s.pc p x q).frees = none := by
  by_cases hqp : q = p
  · rw [hqp] at hq ⊢
    rw [Function.update_self]
    exact hx hq
  · rwa [Function.update_of_ne hqp]

theorem key_update {i : Inode} (hi : key i = key (s.cache jp)) (ip : Fin NINODE) :
    key (Function.update s.cache jp i ip) = key (s.cache ip) := by
  by_cases hj : ip = jp
  · rw [hj, Function.update_self, hi]
  · rw [Function.update_of_ne hj]

theorem iget_effect {k : Nat × Nat} {gen : Option Nat} (hn : iget s p r k gen = .done s')
    (a : Act N M) : Effect s a s' := by
  unfold iget at hn
  split at hn
  · cases hn
    exact .of_same (fun ip _ => key_update (by rfl) ip) rfl fun _ hq => hq
  · split at hn
    next jp hjp =>
      cases hn
      have h0 : (s.cache jp).ref = 0 := by simpa using List.find?_some hjp
      refine .of_same (fun ip hip => ?_) rfl fun _ hq => hq
      have hj : ip ≠ jp := by
        rintro rfl
        omega
      change key (Function.update s.cache _ _ ip) = _
      rw [Function.update_of_ne hj]
    · cases hn

theorem iput_effect (h : Inv s) {x : Ref N} (hx : s.ref r = some x) (hh : x.holders p = true)
    (halone : ∀ q, x.holders q = true → q = p) (hn : iput s p r x.entry = .done s') (a : Act N M) :
    Effect s a s' := by
  unfold iput at hn
  dsimp only at hn
  split at hn
  next hc =>
    split at hn
    · cases hn
      refine ⟨fun _ _ => rfl, fun k h h0 => absurd h0 h, fun q r' hq hq' => ?_⟩
      change (Function.update s.pc p (.free .truncate r) q).frees = some r' at hq'
      have hqp : q = p := by
        by_contra hqp
        rw [Function.update_of_ne hqp, hq] at hq'
        cases hq'
      subst hqp
      rw [Function.update_self] at hq'
      cases hq'
      refine ⟨x.entry, ⟨entry_of_ref hx, fun r' => h.owners.only hc.1 (entry_of_ref hx), fun q' => ?_⟩,
        hc.2⟩
      rw [holds_of_ref hx]
      exact ⟨halone q', fun he => he ▸ hh⟩
    · cases hn
  · cases hn
    exact .of_same (fun ip _ => key_update (by rfl) ip) rfl fun _ hq => hq

theorem search_effect {dev inum : Nat} {type : Int16}
    (hn : search ninodes s p dev type inum = .done s') (a : Act N M) : Effect s a s' := by
  unfold search at hn
  split at hn
  · split at hn
    next h0 =>
      cases hn
      refine ⟨fun _ _ => rfl, fun k hk hk0 => ?_, fun q r hq hq' => ?_⟩
      · -- only a free inode is written
        have hne : k ≠ (dev, inum) := by
          rintro rfl
          exact hk h0
        change (Function.update s.disk (dev, inum) _ k).type = 0 at hk0
        rw [Function.update_of_ne hne] at hk0
        exact absurd hk0 hk
      · have := frees_setPc (s := s) (p := p) (x := .claimed dev inum (s.gen (dev, inum) + 1))
          (fun _ => rfl) q hq
        change (Function.update s.pc p _ q).frees = some r at hq'
        rw [this] at hq'
        cases hq'
    · cases hn
      exact .of_same (fun _ _ => rfl) rfl (frees_setPc fun _ => rfl)
  · cases hn

theorem load_effect (hn : load s p ip = .done s') (a : Act N M) : Effect s a s' := by
  unfold load at hn
  dsimp only at hn
  split at hn
  · cases hn
    exact .of_same (fun _ _ => rfl) rfl (frees_setPc fun _ => rfl)
  · split at hn
    · cases hn
    · cases hn
      exact .of_same (fun ip _ => key_update (by rfl) ip) rfl (frees_setPc fun _ => rfl)

theorem freeStep_effect (h : Inv s) {st : Stage} (hp : s.pc p = .free st r) (he : s.entry r = some ip) :
    Effect s (.go p) (freeStep s p r ip st) := by
  have hfrees : ∀ {x : Pc M}, (s.pc p).frees = none → x.frees = none := by
    intro x hf
    rw [hp] at hf
    cases hf
  cases st with
  | truncate =>
    obtain ⟨-, -, hf⟩ := h.ok_stage hp (by decide) he
    refine ⟨fun jp _ => key_update (by rfl) jp, fun k hk hk0 => ?_, fun q r' hq hq' => ?_⟩
    · change (Function.update s.disk (key (s.cache ip)) _ k).type = 0 at hk0
      by_cases hkk : k = key (s.cache ip)
      · subst hkk
        rw [Function.update_self] at hk0
        change (s.cache ip).type = 0 at hk0
        rw [hf.same] at hk0
        exact absurd hk0 hk
      · rw [Function.update_of_ne hkk] at hk0
        exact absurd hk0 hk
    · rw [show ((freeStep s p r ip .truncate).pc q).frees = none from frees_setPc hfrees q hq] at hq'
      cases hq'
  | clear => exact .of_same (fun jp _ => key_update (by rfl) jp) rfl (frees_setPc hfrees)
  | update =>
    refine ⟨fun _ _ => rfl, fun k hk hk0 => ⟨p, r, ip, rfl, hp, he, ?_⟩, fun q r' hq hq' => ?_⟩
    · change (Function.update s.disk (key (s.cache ip)) _ k).type = 0 at hk0
      by_contra hkk
      rw [Function.update_of_ne (Ne.symm hkk)] at hk0
      exact hk hk0
    · rw [show ((freeStep s p r ip .update).pc q).frees = none from frees_setPc hfrees q hq] at hq'
      cases hq'
  | invalidate => exact .of_same (fun jp _ => key_update (by rfl) jp) rfl (frees_setPc hfrees)
  | unlock => exact .of_same (fun _ _ => rfl) rfl (frees_setPc hfrees)
  | drop => exact .of_same (fun jp _ => key_update (by rfl) jp) rfl (frees_setPc hfrees)

theorem Inv.effect {a : Act N M} (h : Inv s) (hn : next ninodes s a = .done s') : Effect s a s' := by
  cases a with
  | iget p r dev inum =>
    simp only [next] at hn
    split at hn
    · exact iget_effect hn _
    · cases hn
  | idup p r r' =>
    obtain ⟨x, -, -, -, hn⟩ := call_done hn
    split at hn
    · cases hn
      exact .of_same (fun ip _ => key_update (by rfl) ip) rfl fun _ hq => hq
    · cases hn
  | ilock p r =>
    obtain ⟨x, -, -, -, hn⟩ := call_done hn
    split at hn
    · cases hn
    · cases hn
      exact .of_same (fun _ _ => rfl) rfl (frees_setPc fun _ => rfl)
  | iunlock p r =>
    obtain ⟨x, -, -, -, hn⟩ := call_done hn
    split at hn
    · cases hn
      exact .of_same (fun _ _ => rfl) rfl fun _ hq => hq
    · cases hn
  | iput p r =>
    obtain ⟨x, -, hx, hh, hn⟩ := call_done hn
    split at hn
    next hc => exact iput_effect h hx hh hc.1 hn _
    · cases hn
  | ialloc p dev type =>
    simp only [next] at hn
    split at hn
    · cases hn
      exact .of_same (fun _ _ => rfl) rfl (frees_setPc fun _ => rfl)
    · cases hn
  | change p r d =>
    obtain ⟨x, -, -, -, hn⟩ := call_done hn
    split at hn
    next hc =>
      cases hn
      refine ⟨fun ip _ => key_update (by rfl) ip, fun k hk hk0 => ?_, fun q r' hq hq' => ?_⟩
      · change (Function.update s.disk (key (s.cache x.entry)) d k).type = 0 at hk0
        by_cases hkk : k = key (s.cache x.entry)
        · rw [hkk, Function.update_self] at hk0
          exact absurd hk0 hc.2
        · rw [Function.update_of_ne hkk] at hk0
          exact absurd hk0 hk
      · change (s.pc q).frees = some r' at hq'
        rw [hq] at hq'
        cases hq'
    · cases hn
  | share p r q =>
    obtain ⟨x, -, -, -, hn⟩ := call_done hn
    cases hn
    exact .of_same (fun _ _ => rfl) rfl fun _ hq => hq
  | leave p r =>
    obtain ⟨x, -, -, -, hn⟩ := call_done hn
    split at hn
    · cases hn
      exact .of_same (fun _ _ => rfl) rfl fun _ hq => hq
    · cases hn
  | finish p r =>
    simp only [next] at hn
    split at hn
    next dev inum g hp hr =>
      have he := iget_effect hn (.finish p r)
      refine ⟨he.identity, fun k hk hk0 => ?_, fun q r' hq hq' => ?_⟩
      · obtain ⟨q, r', ip, ha, -⟩ := he.disk k hk hk0
        cases ha
      · obtain ⟨ip, hlast, hc⟩ := he.start q r' (frees_setPc (fun _ => rfl) q hq) hq'
        exact ⟨ip, ⟨hlast.entry, hlast.only, hlast.holds⟩, hc⟩
    · cases hn
  | go p =>
    simp only [next] at hn
    split at hn
    · exact search_effect hn _
    · split at hn
      · split at hn
        · cases hn
          exact .of_same (fun _ _ => rfl) rfl (frees_setPc fun _ => rfl)
        · cases hn
      · cases hn
    · split at hn
      · exact load_effect hn _
      · cases hn
    next st r hp =>
      split at hn
      next ip he =>
        cases hn
        exact freeStep_effect h hp he
      · cases hn
    · cases hn

theorem not_sleeping (h : Inv s) (a : Act N M) : next ninodes s a ≠ .panic .sleeping := by
  intro hn
  have hcall : ∀ {p r} {c : Ref N → Outcome (State N M) Trap}, call s p r c = .panic .sleeping →
      ∃ x, s.ref r = some x ∧ c x = .panic .sleeping := by
    intro p r c hn
    unfold call at hn
    split at hn
    next x hp hx =>
      split at hn
      · exact ⟨x, hx, hn⟩
      · cases hn
    · cases hn
  have higet : ∀ {t : State N M} {p r k gen}, iget t p r k gen ≠ .panic .sleeping := by
    intro t p r k gen hn
    unfold iget at hn
    split at hn
    · cases hn
    · split at hn <;> cases hn
  cases a with
  | iget p r dev inum =>
    simp only [next] at hn
    split at hn
    · exact higet hn
    · cases hn
  | idup p r r' =>
    obtain ⟨x, -, hn⟩ := hcall hn
    split at hn <;> cases hn
  | ilock p r =>
    obtain ⟨x, -, hn⟩ := hcall hn
    split at hn <;> cases hn
  | iunlock p r =>
    obtain ⟨x, -, hn⟩ := hcall hn
    split at hn <;> cases hn
  | iput p r =>
    obtain ⟨x, hx, hn⟩ := hcall hn
    split at hn
    next hc =>
      unfold iput at hn
      dsimp only at hn
      split at hn
      next hfree =>
        have hl := h.owners.unlocked_of_last hfree.1 (entry_of_ref hx)
          (fun q hq => hc.1 q ((holds_of_ref hx q).symm.trans hq)) hc.2
        rw [hl] at hn
        cases hn
      · cases hn
    · cases hn
  | ialloc p dev type =>
    simp only [next] at hn
    split at hn <;> cases hn
  | change p r d =>
    obtain ⟨x, -, hn⟩ := hcall hn
    split at hn <;> cases hn
  | share p r q =>
    obtain ⟨x, -, hn⟩ := hcall hn
    cases hn
  | leave p r =>
    obtain ⟨x, -, hn⟩ := hcall hn
    split at hn <;> cases hn
  | finish p r =>
    simp only [next] at hn
    split at hn
    · exact higet hn
    · cases hn
  | go p =>
    simp only [next] at hn
    split at hn
    · unfold search at hn
      split at hn
      · split at hn <;> cases hn
      · cases hn
    · split at hn
      · split at hn <;> cases hn
      · cases hn
    · split at hn
      · unfold load at hn
        dsimp only at hn
        split at hn
        · cases hn
        · split at hn <;> cases hn
      · cases hn
    · split at hn <;> cases hn
    · cases hn

/-- The protocol of the inode cache, for any interleaving of its users. -/
theorem icache_protocol (h : Reachable (machine ninodes N M) anyStep s) :
    (∀ ip jp, 0 < (s.cache ip).ref → 0 < (s.cache jp).ref → (s.cache ip).dev = (s.cache jp).dev →
      (s.cache ip).inum = (s.cache jp).inum → ip = jp) ∧
    (∀ a s', next ninodes s a = .done s' → ∀ ip, 0 < (s.cache ip).ref →
      (s'.cache ip).dev = (s.cache ip).dev ∧ (s'.cache ip).inum = (s.cache ip).inum) ∧
    (∀ a, next ninodes s a ≠ .panic .sleeping) ∧
    (∀ a s' p r, next ninodes s a = .done s' → (s.pc p).frees = none → (s'.pc p).frees = some r →
      ∃ ip, LastHolder s p r ip ∧ (s.cache ip).nlink = 0) ∧
    (∀ a s' k, next ninodes s a = .done s' → (s.disk k).type ≠ 0 → (s'.disk k).type = 0 →
      ∃ p r ip, a = .go p ∧ s.pc p = .free .update r ∧ s.entry r = some ip ∧
        ((s.cache ip).dev, (s.cache ip).inum) = k ∧ (s.cache ip).nlink = 0 ∧
        s.lock ip = some (p, r) ∧ (∀ q, s.holds r q = true → q = p) ∧
        ∀ r' x, s.ref r' = some x → x.entry = ip → r' ≠ r → x.late = true) ∧
    ∀ ip p r, s.lock ip = some (p, r) → (s.pc p).ref ≠ some r →
      (s.cache ip).valid = true ∧ (s.cache ip).toDinode = s.disk (key (s.cache ip)) ∧
      s.read ip = s.gen (key (s.cache ip)) ∧
      ∀ x g, s.ref r = some x → x.gen = some g → g ≤ s.read ip := by
  have hi := Inv.reachable h
  refine ⟨fun ip jp hip hjp hd hn => ?_, fun a s' hn ip hip => ?_, not_sleeping hi,
    fun a s' p r hn hp hp' => ?_, fun a s' k hn hk hk0 => ?_, fun ip p r hl hp => ?_⟩
  · exact hi.unique ip jp hip hjp (Prod.ext hd hn)
  · exact Prod.mk.inj ((hi.effect hn).identity ip hip)
  · obtain ⟨ip, hlast, -, hnlink⟩ := (hi.effect hn).start p r hp hp'
    exact ⟨ip, hlast, hnlink⟩
  · obtain ⟨p, r, ip, ha, hp, he, hkey⟩ := (hi.effect hn).disk k hk hk0
    have hok := hi.ok_stage hp (by decide) he
    refine ⟨p, r, ip, ha, hp, he, hkey, hok.2.1, hi.lock_of_stage hp (by decide) he, fun q hq => ?_,
      fun r' x hx hxe hne => ?_⟩
    · exact hi.owners.alone p r q (by rw [hp]; rfl) hq
    · exact hi.late p .update r r' x hp hx (by rw [hxe]; exact he) hne
  · obtain ⟨hv, hf⟩ := hi.ok_held hl hp
    refine ⟨hv, hf.same, hf.read, fun x g hx hg => ?_⟩
    have he := (hi.owners.lock ip p r hl).1
    rw [entry_of_ref hx] at he
    cases he
    rw [hf.read]
    exact hi.made r x g hx hg

def State.boot (N M : Nat) : State N M where
  cache _ := noInode
  lock _ := none
  disk _ := Dinode.zero
  ref _ := none
  pc _ := .idle
  gen _ := 0
  read _ := 0

/-- The second process has allocated and locked the inode before the first one, which has freed
it, drops its reference. -/
theorem icache_protocol_reuse : ∃ s : State 2 2, Reachable (machine 2 2 2) anyStep s ∧
    s.pc 0 = .free .drop 0 ∧ (s.cache ⟨0, by decide⟩).ref = 2 ∧ s.lock ⟨0, by decide⟩ = some (1, 1) ∧
    (s.cache ⟨0, by decide⟩).toDinode = s.disk (1, 1) ∧ (s.disk (1, 1)).type = 2 := by
  let as : List (Act 2 2) :=
    [.ialloc 0 1 1, .go 0, .finish 0 0, .ilock 0 0, .go 0, .go 0, .iunlock 0 0, .iput 0 0, .go 0,
      .go 0, .go 0, .ialloc 1 1 2, .go 1, .finish 1 1, .ilock 1 1, .go 0, .go 0, .go 1, .go 1]
  have h : (perform (machine 2 2 2) (fun _ _ => true) (State.boot 2 2) as).any (fun s =>
      s.pc 0 = .free .drop 0 ∧ s.pc 1 = .idle ∧ (s.cache ⟨0, by decide⟩).ref = 2 ∧
      s.lock ⟨0, by decide⟩ = some (1, 1) ∧ key (s.cache ⟨0, by decide⟩) = (1, 1) ∧
      (s.disk (1, 1)).type = 2) = true := by decide +kernel
  have hinit : (machine 2 2 2).init (State.boot 2 2) :=
    ⟨fun _ => rfl, fun _ => rfl, fun _ => rfl, fun _ => rfl⟩
  obtain ⟨s, hr, hs⟩ := Reachable.of_perform (P := anyStep) h hinit fun _ _ _ => trivial
  obtain ⟨h₀, h₁, href, hl, hkey, ht⟩ := of_decide_eq_true hs
  obtain ⟨-, -, -, -, -, hfresh⟩ := icache_protocol hr
  obtain ⟨-, hsame, -, -⟩ := hfresh _ 1 1 hl (by rw [h₁]; exact nofun)
  rw [hkey] at hsame
  exact ⟨s, hr, h₀, href, hl, hsame, ht⟩

end Xv6.Icache

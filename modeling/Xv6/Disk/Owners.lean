import Mathlib.Algebra.Order.BigOperators.Group.Finset
import Xv6.Disk.Virtio

namespace Xv6.Disk

open Lib Lib.Transition Lib.Holder

variable {B : Type} {N : Nat}

def Pc.locked : Pc B → Bool
  | .alloc _ _ | .format _ _ _ | .notify _ _ | .wait _ _ | .intrLoop => true
  | _ => false

def Pc.formatted : Pc B → Option (B × Idx)
  | .notify b x | .wait b x | .sleepBuf b x | .relock b x => some (b, x)
  | _ => none

def Pc.sent : Pc B → Option (B × Idx)
  | .wait b x | .sleepBuf b x | .relock b x => some (b, x)
  | _ => none

def Pc.pending : Pc B → Option (B × Idx)
  | .notify b x => some (b, x)
  | _ => none

structure Pc.Like (k k' : Pc B) : Prop where
  buffer : k.buffer = k'.buffer
  idx : k.idx = k'.idx
  locked : k.locked = k'.locked
  formatted : k.formatted = k'.formatted
  sent : k.sent = k'.sent
  pending : k.pending = k'.pending

theorem Pc.Like.refl (k : Pc B) : k.Like k := ⟨rfl, rfl, rfl, rfl, rfl, rfl⟩

theorem Pc.woken_like (k : Pc B) : k.woken.Like k := by
  cases k <;> exact ⟨rfl, rfl, rfl, rfl, rfl, rfl⟩

theorem wakeFree_like (s : State B N) (q : Fin N) : (s.wakeFree.pc q).Like (s.pc q) := by
  rw [State.wakeFree_pc]
  split
  next h => rw [h]; exact ⟨rfl, rfl, rfl, rfl, rfl, rfl⟩
  next => exact .refl _

theorem wakeBuf_like [DecidableEq B] (s : State B N) (b : B) (q : Fin N) :
    ((s.wakeBuf b).pc q).Like (s.pc q) := by
  rw [State.wakeBuf_pc]
  split
  next h =>
    rw [h]
    split
    · exact ⟨rfl, rfl, rfl, rfl, rfl, rfl⟩
    · exact .refl _
  next => exact .refl _

theorem Pc.idx_of_formatted {k : Pc B} {b : B} {x : Idx} (h : k.formatted = some (b, x)) :
    k.idx = some x ∧ k.buffer = some b := by
  cases k <;> cases h <;> exact ⟨rfl, rfl⟩

theorem Pc.formatted_of_sent {k : Pc B} {b : B} {x : Idx} (h : k.sent = some (b, x)) :
    k.formatted = some (b, x) := by
  cases k <;> cases h <;> rfl

theorem Pc.formatted_of_pending {k : Pc B} {b : B} {x : Idx} (h : k.pending = some (b, x)) :
    k.formatted = some (b, x) := by
  cases k <;> cases h
  rfl

theorem Pc.not_sent_of_pending {k : Pc B} {z : B × Idx} (h : k.pending = some z) : k.sent = none := by
  cases k <;> cases h
  rfl

theorem Pc.locked_of_pending {k : Pc B} {z : B × Idx} (h : k.pending = some z) :
    k.locked = true := by
  cases k <;> cases h
  rfl

theorem Idx.first_mem (x : Idx) : x.first ∈ x.toList := List.mem_cons_self

structure Owners (s : State B N) : Prop where
  lock : Holds s.lock Pc.locked s.pc
  buffer : ∀ p q b, (s.pc p).buffer = some b → (s.pc q).buffer = some b → p = q
  distinct : ∀ p x, (s.pc p).idx = some x → x.toList.Nodup
  disjoint : ∀ p q x y i, (s.pc p).idx = some x → (s.pc q).idx = some y →
    i ∈ x.toList → i ∈ y.toList → p = q
  free : ∀ i, s.free i = true ↔ ∀ p x, (s.pc p).idx = some x → i ∉ x.toList

section

variable {s s' : State B N} {p : Fin N} {k : Pc B}

theorem Owners.keep (h : Owners s) (hlock : Holds s'.lock Pc.locked s'.pc)
    (hb : ∀ q, (s'.pc q).buffer = (s.pc q).buffer) (hx : ∀ q, (s'.pc q).idx = (s.pc q).idx)
    (hf : s'.free = s.free) : Owners s' where
  lock := hlock
  buffer p q b := by
    rw [hb, hb]
    exact h.buffer p q b
  distinct p x := by
    rw [hx]
    exact h.distinct p x
  disjoint p q x y i := by
    rw [hx, hx]
    exact h.disjoint p q x y i
  free i := by
    rw [hf, h.free i]
    simp only [hx]

theorem Holds.like {lock : Option (Fin N)} {pc pc' : Fin N → Pc B} (h : Holds lock Pc.locked pc)
    (hl : ∀ q, (pc' q).Like (pc q)) : Holds lock Pc.locked pc' := by
  intro q
  rw [(hl q).locked]
  exact h q

theorem update_fun {β : Type} (f : Pc B → β) {pc : Fin N → Pc B} {k₀ : Pc B} (hp : pc p = k₀)
    (h : f k = f k₀) (q : Fin N) : f (Function.update pc p k q) = f (pc q) := by
  by_cases hq : q = p
  · subst hq
    rw [Function.update_self, h, hp]
  · rw [Function.update_of_ne hq]

theorem Owners.rw (h : Owners s) (hp : s.pc p = .idle) {b : B} {w : Bool}
    (hb : ∀ q, (s.pc q).buffer ≠ some b) : Owners (s.setPc p (.lock b w)) := by
  have hx : ∀ q, ((s.setPc p (.lock b w)).pc q).idx = (s.pc q).idx :=
    update_fun Pc.idx hp rfl
  refine ⟨h.lock.step (by rw [hp]; rfl), fun q r c hq hr => ?_, fun q x => ?_, fun q r x y i => ?_,
    fun i => ?_⟩
  · change (Function.update s.pc p (.lock b w) q).buffer = some c at hq
    change (Function.update s.pc p (.lock b w) r).buffer = some c at hr
    by_cases eq : q = p <;> by_cases er : r = p
    · rw [eq, er]
    · subst eq
      rw [Function.update_self] at hq
      rw [Function.update_of_ne er] at hr
      cases hq
      exact absurd hr (hb r)
    · subst er
      rw [Function.update_self] at hr
      rw [Function.update_of_ne eq] at hq
      cases hr
      exact absurd hq (hb q)
    · rw [Function.update_of_ne eq] at hq
      rw [Function.update_of_ne er] at hr
      exact h.buffer q r c hq hr
  · rw [hx]
    exact h.distinct q x
  · rw [hx, hx]
    exact h.disjoint q r x y i
  · simp only [hx]
    exact h.free i

theorem Owners.take (h : Owners s) {b : B} {w : Bool} {x : Idx} (hp : s.pc p = .alloc b w)
    (hx : x.toList.Nodup) (hf : ∀ i ∈ x.toList, s.free i = true)
    (hpc : s'.pc = Function.update s.pc p (.format b w x)) (hlock : s'.lock = s.lock)
    (hfree : ∀ i, s'.free i = (!decide (i ∈ x.toList) && s.free i)) : Owners s' := by
  have hb : ∀ q, (s'.pc q).buffer = (s.pc q).buffer := by
    rw [hpc]
    exact update_fun Pc.buffer hp rfl
  have hself : (s'.pc p).idx = some x := by rw [hpc, Function.update_self]; rfl
  have hother : ∀ q, q ≠ p → (s'.pc q).idx = (s.pc q).idx := by
    intro q hq
    rw [hpc, Function.update_of_ne hq]
  -- the new descriptors were nobody's
  have hnew : ∀ q y i, q ≠ p → (s'.pc q).idx = some y → i ∈ x.toList → i ∉ y.toList := by
    intro q y i hq hy hi
    rw [hother q hq] at hy
    exact (h.free i).mp (hf i hi) q y hy
  refine ⟨?_, ?_, fun q y hy => ?_, fun q r y z i hy hz hi hj => ?_, fun i => ?_⟩
  · rw [hpc, hlock]
    exact h.lock.step (by rw [hp]; rfl)
  · intro q r c
    rw [hb, hb]
    exact h.buffer q r c
  · by_cases hq : q = p
    · subst hq
      rw [hself] at hy
      cases hy
      exact hx
    · rw [hother q hq] at hy
      exact h.distinct q y hy
  · by_cases hq : q = p <;> by_cases hr : r = p
    · rw [hq, hr]
    · subst hq
      rw [hself] at hy
      cases hy
      exact absurd hj (hnew r z i hr hz hi)
    · subst hr
      rw [hself] at hz
      cases hz
      exact absurd hi (hnew q y i hq hy hj)
    · rw [hother q hq] at hy
      rw [hother r hr] at hz
      exact h.disjoint q r y z i hy hz hi hj
  · rw [hfree i, Bool.and_eq_true, h.free i]
    constructor
    · rintro ⟨hi, hall⟩ q y hy
      by_cases hq : q = p
      · subst hq
        rw [hself] at hy
        cases hy
        simpa using hi
      · rw [hother q hq] at hy
        exact hall q y hy
    · intro hall
      refine ⟨by simpa using hall p x hself, fun q y hy => ?_⟩
      by_cases hq : q = p
      · subst hq
        rw [hp] at hy
        cases hy
      · exact hall q y ((hother q hq).trans hy)

theorem Owners.release (h : Owners s) {b : B} {x : Idx} (hp : s.pc p = .wait b x)
    (hpc : ∀ q, q ≠ p → (s'.pc q).Like (s.pc q)) (hself : s'.pc p = .idle) (hlock : s'.lock = none)
    (hfree : ∀ i, s'.free i = (decide (i ∈ x.toList) || s.free i)) : Owners s' := by
  have hidx : (s.pc p).idx = some x := by rw [hp]; rfl
  refine ⟨?_, fun q r c hq hr => ?_, fun q y hy => ?_, fun q r y z i hy hz => ?_, fun i => ?_⟩
  · rw [hlock]
    refine Holds.init fun q => ?_
    by_cases hq : q = p
    · rw [hq, hself]
      rfl
    · rw [(hpc q hq).locked]
      cases hl : (s.pc q).locked with
      | false => rfl
      | true => exact absurd (h.lock.unique hl (by rw [hp]; rfl)) hq
  · have hqp : q ≠ p := by
      rintro rfl
      rw [hself] at hq
      cases hq
    have hrp : r ≠ p := by
      rintro rfl
      rw [hself] at hr
      cases hr
    rw [(hpc q hqp).buffer] at hq
    rw [(hpc r hrp).buffer] at hr
    exact h.buffer q r c hq hr
  · have hqp : q ≠ p := by
      rintro rfl
      rw [hself] at hy
      cases hy
    rw [(hpc q hqp).idx] at hy
    exact h.distinct q y hy
  · have hqp : q ≠ p := by
      rintro rfl
      rw [hself] at hy
      cases hy
    have hrp : r ≠ p := by
      rintro rfl
      rw [hself] at hz
      cases hz
    rw [(hpc q hqp).idx] at hy
    rw [(hpc r hrp).idx] at hz
    exact h.disjoint q r y z i hy hz
  · rw [hfree i, Bool.or_eq_true, h.free i, decide_eq_true_eq]
    constructor
    · intro hi q y hy hmem
      have hqp : q ≠ p := by
        rintro rfl
        rw [hself] at hy
        cases hy
      rw [(hpc q hqp).idx] at hy
      rcases hi with hi | hall
      · exact hqp (h.disjoint q p y x i hy hidx hmem hi)
      · exact hall q y hy hmem
    · intro hall
      by_cases hi : i ∈ x.toList
      · exact Or.inl hi
      · refine Or.inr fun q y hy => ?_
        by_cases hqp : q = p
        · subst hqp
          rw [hidx] at hy
          cases hy
          exact hi
        · rw [← (hpc q hqp).idx] at hy
          exact hall q y hy

theorem Owners.inFlight_le (h : Owners s) :
    (Finset.univ.filter fun p => (s.pc p).idx.isSome).card ≤ 2 := by
  let chain : Fin N → Finset (Fin NUM) := fun p => ((s.pc p).idx.map (·.toList.toFinset)).getD ∅
  have hchain : ∀ p x, (s.pc p).idx = some x → chain p = x.toList.toFinset := by
    intro p x hp
    change ((s.pc p).idx.map _).getD ∅ = _
    rw [hp]
    rfl
  have hcard : ∀ p ∈ Finset.univ.filter (fun p => (s.pc p).idx.isSome), (chain p).card = 3 := by
    intro p hp
    obtain ⟨x, hx⟩ := Option.isSome_iff_exists.mp (Finset.mem_filter.mp hp).2
    rw [hchain p x hx, List.toFinset_card_of_nodup (h.distinct p x hx)]
    rfl
  have hdisj : Set.PairwiseDisjoint
      (Finset.univ.filter (fun p => (s.pc p).idx.isSome) : Set (Fin N)) chain := by
    intro p hp q hq hne
    obtain ⟨x, hx⟩ := Option.isSome_iff_exists.mp (Finset.mem_filter.mp hp).2
    obtain ⟨y, hy⟩ := Option.isSome_iff_exists.mp (Finset.mem_filter.mp hq).2
    rw [Function.onFun, hchain p x hx, hchain q y hy, Finset.disjoint_left]
    intro i hi hj
    exact hne (h.disjoint p q x y i hx hy (List.mem_toFinset.mp hi) (List.mem_toFinset.mp hj))
  have hsum := Finset.card_biUnion hdisj
  rw [Finset.sum_const_nat hcard] at hsum
  have hle : ((Finset.univ.filter fun p => (s.pc p).idx.isSome).biUnion chain).card ≤ NUM := by
    have := Finset.card_le_univ ((Finset.univ.filter fun p => (s.pc p).idx.isSome).biUnion chain)
    rwa [Fintype.card_fin] at this
  rw [hsum] at hle
  change _ * 3 ≤ 8 at hle
  omega

end

section Descriptors

variable {s s' : State B N}

structure Freed (s s' : State B N) (back : Fin NUM → Bool) : Prop where
  free : ∀ i, s'.free i = (back i || s.free i)
  pc : ∀ q, (s'.pc q).Like (s.pc q)
  desc : ∀ i, (s'.desc i).hasNext = (s.desc i).hasNext ∧ (s'.desc i).next = (s.desc i).next
  rest : ∀ d f pc, { s' with desc := d, free := f, pc := pc } = { s with desc := d, free := f, pc := pc }

theorem freeDesc_ok {i : Fin NUM} (h : s.free i = false) :
    ∃ s', freeDesc s i = .ok s' ∧ Freed s s' (· = i) := by
  have hi : (⟨i.val, i.isLt⟩ : Fin NUM) = i := rfl
  rw [freeDesc, dif_pos i.isLt, hi, h]
  refine ⟨_, rfl, fun j => ?_, wakeFree_like s, fun j => ?_, fun _ _ _ => rfl⟩
  · change Function.update s.free i true j = _
    by_cases hj : j = i
    · subst hj
      simp
    · simp [hj]
  · change (Function.update s.desc i { s.desc i with addr := .null } j).hasNext = _ ∧
      (Function.update s.desc i { s.desc i with addr := .null } j).next = _
    by_cases hj : j = i
    · subst hj
      rw [Function.update_self]
      exact ⟨rfl, rfl⟩
    · rw [Function.update_of_ne hj]
      exact ⟨rfl, rfl⟩

theorem Pc.Like.trans {k k' k'' : Pc B} (h : k.Like k') (h' : k'.Like k'') : k.Like k'' :=
  ⟨h.buffer.trans h'.buffer, h.idx.trans h'.idx, h.locked.trans h'.locked,
    h.formatted.trans h'.formatted, h.sent.trans h'.sent, h.pending.trans h'.pending⟩

theorem Freed.trans {s'' : State B N} {back back' : Fin NUM → Bool} (h : Freed s s' back)
    (h' : Freed s' s'' back') : Freed s s'' (fun i => back' i || back i) where
  free i := by rw [h'.free, h.free, Bool.or_assoc]
  pc q := (h'.pc q).trans (h.pc q)
  desc i := ⟨(h'.desc i).1.trans (h.desc i).1, (h'.desc i).2.trans (h.desc i).2⟩
  rest d f pc := (h'.rest d f pc).trans (h.rest d f pc)

structure Chained (s : State B N) (x : Idx) : Prop where
  first : (s.desc x.first).hasNext = true ∧ (s.desc x.first).next = x.second
  second : (s.desc x.second).hasNext = true ∧ (s.desc x.second).next = x.third
  third : (s.desc x.third).hasNext = false

theorem freeChain_succ {fuel : Nat} {i : Fin NUM} (h : freeDesc s i = .ok s') :
    freeChain (fuel + 1) s i =
      if (s'.desc i).hasNext then freeChain fuel s' (s'.desc i).next else .ok s' := by
  rw [freeChain, h]
  change (if h : i.val < NUM then _ else _) = _
  rw [dif_pos i.isLt]
  rfl

theorem freeChain_ok {x : Idx} (h : Chained s x) (hx : x.toList.Nodup)
    (hf : ∀ i ∈ x.toList, s.free i = false) :
    ∃ s', freeChain (NUM + 1) s x.first = .ok s' ∧ Freed s s' (fun i => decide (i ∈ x.toList)) := by
  obtain ⟨i, j, k⟩ := x
  simp only [Idx.toList, List.nodup_cons, List.mem_cons, List.not_mem_nil, or_false, not_or,
    List.nodup_nil, and_true, not_false_eq_true] at hx hf
  obtain ⟨⟨hij, hik⟩, hjk⟩ := hx
  obtain ⟨s₁, h₁, f₁⟩ := freeDesc_ok (hf i (Or.inl rfl))
  have hj : s₁.free j = false := by
    rw [f₁.free, hf j (Or.inr (Or.inl rfl))]
    simpa using Ne.symm hij
  obtain ⟨s₂, h₂, f₂⟩ := freeDesc_ok hj
  have hk : s₂.free k = false := by
    rw [f₂.free, f₁.free, hf k (Or.inr (Or.inr rfl))]
    simp [Ne.symm hik, Ne.symm hjk]
  obtain ⟨s₃, h₃, f₃⟩ := freeDesc_ok hk
  have d₁ := f₁.desc i
  have d₂ := (f₁.trans f₂).desc j
  have d₃ := ((f₁.trans f₂).trans f₃).desc k
  have hchain : freeChain (NUM + 1) s i = .ok s₃ := by
    change freeChain (6 + 1 + 1 + 1) s i = _
    rw [freeChain_succ h₁, d₁.1, h.first.1, if_pos rfl, d₁.2, h.first.2, freeChain_succ h₂, d₂.1,
      h.second.1, if_pos rfl, d₂.2, h.second.2, freeChain_succ h₃, d₃.1, h.third]
    rfl
  refine ⟨s₃, hchain, ?_⟩
  have hback : (fun l => decide (l ∈ (Idx.mk i j k).toList)) =
      fun l => decide (l = k) || (decide (l = j) || decide (l = i)) := by
    funext l
    rw [Bool.eq_iff_iff]
    simp [Idx.toList]
    tauto
  rw [hback]
  exact (f₁.trans f₂).trans f₃

theorem allocDesc_spec {free : Fin NUM → Bool} {i : Fin NUM} (h : allocDesc free = some i) :
    free i = true :=
  List.find?_some h

theorem Freed.undo {f back : Fin NUM → Bool} (h : Freed { s with free := f } s' back)
    (hf : ∀ i, (back i || f i) = s.free i) : Freed s s' (fun _ => false) where
  free i := (h.free i).trans (hf i)
  pc := h.pc
  desc := h.desc
  rest := h.rest

theorem markUsed_self (s : State B N) (i : Fin NUM) : (markUsed s i).free i = false :=
  Function.update_self ..

theorem markUsed_ne (s : State B N) {i j : Fin NUM} (h : j ≠ i) : (markUsed s i).free j = s.free j :=
  Function.update_of_ne h ..

theorem alloc3Desc_ok (s : State B N) :
    (∃ x, alloc3Desc s = .ok ({ s with free := fun i => !decide (i ∈ x.toList) && s.free i }, some x) ∧
      x.toList.Nodup ∧ ∀ i ∈ x.toList, s.free i = true) ∨
    ∃ s', alloc3Desc s = .ok (s', none) ∧ Freed s s' (fun _ => false) := by
  rw [alloc3Desc]
  cases hi : allocDesc s.free with
  | none => exact Or.inr ⟨s, rfl, fun _ => rfl, fun _ => .refl _, fun _ => ⟨rfl, rfl⟩, fun _ _ _ => rfl⟩
  | some i =>
    have fi := allocDesc_spec hi
    have ui := markUsed_self s i
    dsimp only
    cases hj : allocDesc (markUsed s i).free with
    | none =>
      obtain ⟨s', h', f'⟩ := freeDesc_ok ui
      refine Or.inr ⟨s', ?_, f'.undo fun l => ?_⟩
      · dsimp only
        rw [h']
        rfl
      · by_cases hl : l = i
        · subst hl
          simp [fi]
        · simp [hl]
    | some j =>
      have fj := allocDesc_spec hj
      have hji : j ≠ i := by
        rintro rfl
        rw [ui] at fj
        cases fj
      rw [markUsed_ne s hji] at fj
      have uj := markUsed_self (markUsed s i) j
      rw [← markUsed_ne (markUsed s i) hji.symm] at ui
      dsimp only
      cases hk : allocDesc (markUsed (markUsed s i) j).free with
      | none =>
        obtain ⟨s₁, h₁, f₁⟩ := freeDesc_ok ui
        have uj : s₁.free j = false := by
          rw [f₁.free, uj]
          simpa using hji
        obtain ⟨s₂, h₂, f₂⟩ := freeDesc_ok uj
        refine Or.inr ⟨s₂, ?_, Freed.undo (s := s) (f₁.trans f₂) fun l => ?_⟩
        · dsimp only
          rw [h₁]
          change (freeDesc s₁ j >>= _) = _
          rw [h₂]
          rfl
        · by_cases hl : l = j
          · subst hl
            simp [fj]
          · by_cases hl' : l = i
            · subst hl'
              simp [fi]
            · simp [hl, hl', markUsed]
      | some k =>
        have fk := allocDesc_spec hk
        have hkj : k ≠ j := by
          rintro rfl
          rw [uj] at fk
          cases fk
        have hki : k ≠ i := by
          rintro rfl
          rw [ui] at fk
          cases fk
        rw [markUsed_ne _ hkj, markUsed_ne _ hki] at fk
        refine Or.inl ⟨⟨i, j, k⟩, ?_, ?_, ?_⟩
        · have hfree : Function.update (Function.update (Function.update s.free i false) j false) k
              false = fun l => !decide (l ∈ (Idx.mk i j k).toList) && s.free l := by
            funext l
            simp only [Function.update_apply, Idx.toList, List.mem_cons, List.not_mem_nil, or_false]
            by_cases h1 : l = i <;> by_cases h2 : l = j <;> by_cases h3 : l = k <;> simp [h1, h2, h3]
          change Except.ok (State.mk _ _ _ _ _ _ _ _ _ _ _ _ _ _ _ _ _ _ _ _, some _) = _
          rw [← hfree]
          rfl
        · simp [Idx.toList, Ne.symm hji, Ne.symm hki, Ne.symm hkj]
        · intro l hl
          simp only [Idx.toList, List.mem_cons, List.not_mem_nil, or_false] at hl
          rcases hl with rfl | rfl | rfl
          · exact fi
          · exact fj
          · exact fk

end Descriptors

end Xv6.Disk

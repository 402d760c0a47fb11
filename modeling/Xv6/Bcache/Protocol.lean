import Xv6.Bcache.Identity

namespace Xv6.Bcache

open Lib.Bytes Lib.Holder Lib.Pointers Lib.Transition

variable {N : Nat} {pid : Fin N → Nat} {s s' t : State N} {xs : List Slot} {i j : Slot} {p q : Fin N}
  {dev blockno : UInt32}

theorem find_of_imp {f g : Slot → Bool} (h : xs.find? f = some i) (hi : g i = true)
    (himp : ∀ j, g j = true → f j = true) : xs.find? g = some i := by
  obtain ⟨-, l, r, rfl, hl⟩ := List.find?_eq_some_iff_append.mp h
  refine List.find?_eq_some_iff_append.mpr ⟨hi, l, r, rfl, fun j hj => ?_⟩
  have hf := hl j hj
  simp only [Bool.not_eq_true'] at hf ⊢
  exact Bool.eq_false_iff.mpr fun hg => Bool.eq_false_iff.mp hf (himp j hg)

theorem find_of_unique {g : Slot → Bool} (hmem : i ∈ xs) (hi : g i = true)
    (huniq : ∀ j ∈ xs, g j = true → j = i) : xs.find? g = some i := by
  cases hfind : xs.find? g with
  | none => exact absurd hi (List.find?_eq_none.mp hfind i hmem)
  | some j => rw [huniq j (List.mem_of_find?_eq_some hfind) (List.find?_some hfind)]

def State.rename (s : State N) (i : Slot) (dev blockno : UInt32) : State N :=
  s.setBuf i ⟨false, dev, blockno, (s.buf i).lock, 1⟩

theorem rename_lock (j : Slot) : ((s.rename i dev blockno).buf j).lock = (s.buf j).lock := by
  by_cases hj : j = i
  · subst hj
    rw [State.rename, State.setBuf_self]
  · rw [State.rename, State.setBuf_ne _ hj]

theorem rename_named_ne {d b : UInt32} (hj : j ≠ i) :
    (s.rename i dev blockno).named d b j = s.named d b j := by
  rw [State.named, State.rename, State.setBuf_ne _ hj, State.named]

theorem rename_named_self {d b : UInt32} :
    (s.rename i dev blockno).named d b i = true ↔ dev = d ∧ blockno = b := by
  rw [named_iff, State.rename, State.setBuf_self]

theorem Inv.recycle (h : Inv s xs) (hp : s.pc p = .idle)
    (hnone : xs.find? (s.named dev blockno) = none) (hfree : (s.buf i).refcnt = 0) :
    Inv ((s.rename i dev blockno).goto p (.acquiresleep i dev blockno)) xs := by
  have hmiss : ∀ j, s.named dev blockno j ≠ true :=
    fun j => List.find?_eq_none.mp hnone j (h.listed.all j)
  have hfresh : ∀ j, ¬((s.buf j).dev = dev ∧ (s.buf j).blockno = blockno) :=
    fun j hj => hmiss j (named_iff.mpr hj)
  have hold : ∀ j, j ≠ i → (s.rename i dev blockno).buf j = s.buf j :=
    fun j hj => State.setBuf_ne _ hj
  have hnew : (s.rename i dev blockno).buf i = ⟨false, dev, blockno, (s.buf i).lock, 1⟩ :=
    State.setBuf_self _
  refine ⟨⟨h.listed.ring, h.listed.all⟩, fun j k hd hb => ?_, fun q j d b hr => ?_, fun j => ?_,
    fun j => ?_⟩
  · rw [State.goto_buf] at hd hb ⊢
    by_cases hj : j = i
    · by_cases hk : k = i
      · exact .inl (hj.trans hk.symm)
      · subst hj
        rw [hnew, hold k hk] at hd hb
        exact absurd ⟨hd.symm, hb.symm⟩ (hfresh k)
    · by_cases hk : k = i
      · subst hk
        rw [hnew, hold j hj] at hd hb
        exact absurd ⟨hd, hb⟩ (hfresh j)
      · rw [hold j hj, hold k hk] at hd hb
        rw [hold j hj]
        exact h.unique j k hd hb
  · change xs.find? ((s.rename i dev blockno).named d b) = some j
    obtain ⟨rfl, hc⟩ | hq := ref_goto hr
    · cases hc
      refine find_of_unique (h.listed.all _) (rename_named_self.mpr ⟨rfl, rfl⟩) fun k _ hk => ?_
      by_contra hne
      rw [rename_named_ne hne] at hk
      exact hmiss k hk
    · have hq : (s.pc q).ref = some (j, d, b) := hq
      have hne := h.ne_of_free hfree hq
      refine find_of_imp (h.first q j d b hq) ?_ fun k hk => ?_
      · rw [rename_named_ne hne]
        exact h.named_of_ref hq
      · by_cases hki : k = i
        · subst hki
          obtain ⟨rfl, rfl⟩ := rename_named_self.mp hk
          exact absurd (h.named_of_ref hq) (hmiss j)
        · rwa [rename_named_ne hki] at hk
  · have hgoto := references_goto s p (.acquiresleep i dev blockno) j
    have hidle : (s.pc p).uses j = 0 := by
      rw [hp]
      rfl
    have huses : (Pc.acquiresleep i dev blockno).uses j = if i = j then 1 else 0 := uses_of_ref rfl j
    have hcount := h.count j
    rw [huses, hidle] at hgoto
    change ((s.rename i dev blockno).buf j).refcnt.toNat =
      (s.goto p (.acquiresleep i dev blockno)).references j
    by_cases hj : j = i
    · subst hj
      rw [if_pos rfl] at hgoto
      rw [hfree] at hcount
      have hzero : s.references j = 0 := hcount.symm
      have hone : ((s.rename j dev blockno).buf j).refcnt.toNat = 1 := by
        rw [hnew]
        rfl
      omega
    · rw [if_neg (Ne.symm hj)] at hgoto
      rw [hold j hj]
      omega
  · rw [State.goto_buf, rename_lock]
    refine (h.lock j).step ?_
    rw [hp]
    rfl

theorem Inv.move (h : Inv s xs) (hother : ∀ q j d b, (s.pc q).ref = some (j, d, b) →
    s.named d b i = false) : ∃ ys, Inv ((s.unlink i).push i) ys := by
  obtain ⟨l, r, rfl⟩ := List.append_of_mem (h.listed.all i)
  refine ⟨i :: (l ++ r), h.listed.move, h.unique, fun q j d b hr => ?_, h.count, h.lock⟩
  have hr : (s.pc q).ref = some (j, d, b) := hr
  have hfind := h.first q j d b hr
  have hi := hother q j d b hr
  change (i :: (l ++ r)).find? (s.named d b) = some j
  rw [List.find?_append, List.find?_cons, hi] at hfind
  rw [List.find?_cons, hi, List.find?_append]
  exact hfind

theorem Inv.unref (h : Inv s xs) (hp : s.pc p = .unref i dev blockno) :
    ∃ ys, Inv ((unref s i).goto p .idle) ys := by
  have href : (s.pc p).ref = some (i, dev, blockno) := by
    rw [hp]
    rfl
  have hpos := references_pos href
  have hcount := h.count i
  have hgoto := references_goto s p .idle
  have hidle : ∀ j, Pc.idle.uses j = 0 := fun _ => rfl
  have hdrop : Inv ((s.setRefcnt i ((s.buf i).refcnt - 1)).goto p .idle) xs := by
    refine h.setRefcnt (fun j d b hr => by cases hr) ?_ (fun j hj => ?_) (fun j => ?_)
    · have hi := hgoto i
      rw [uses_of_ref href, if_pos rfl, hidle] at hi
      rw [toNat_sub_one (by omega)]
      omega
    · have hj' := hgoto j
      rw [uses_of_ref href, if_neg (Ne.symm hj), hidle] at hj'
      omega
    · rw [hp]
      rfl
  rw [Bcache.unref]
  split
  next hzero =>
    apply hdrop.move
    intro q j d b hr
    -- another caller with this block would have this buffer
    have hq : (s.pc q).ref = some (j, d, b) := by
      obtain ⟨-, hc⟩ | hq := ref_goto hr
      · cases hc
      · exact hq
    rw [(setRefcnt_sameNames.goto p .idle).named]
    by_contra hnamed
    have hnamed := named_iff.mp (Bool.not_eq_false _ ▸ hnamed)
    have hown := named_iff.mp (h.named_of_ref href)
    have hj := h.first q j d b hq
    rw [← hnamed.1, ← hnamed.2, hown.1, hown.2, h.first p i dev blockno href] at hj
    exact hdrop.ne_of_free hzero hr (Option.some.inj hj).symm
  next => exact ⟨xs, hdrop⟩

theorem scan_test {follow : Node → Node} {test : Slot → Bool} {fuel : Nat} {x : Node}
    (h : scan follow test fuel x = some i) : test i = true := by
  induction fuel generalizing x with
  | zero => cases h
  | succ fuel ih =>
    cases x with
    | none => cases h
    | some j =>
      rw [scan] at h
      split at h
      next hj =>
        cases h
        exact hj
      next => exact ih h

theorem bget_cases (hn : bget s p dev blockno = .done s') :
    (∃ i, scan s.next (s.named dev blockno) NBUF (s.next none) = some i ∧
      s' = (s.setRefcnt i ((s.buf i).refcnt + 1)).goto p (.acquiresleep i dev blockno)) ∨
    (scan s.next (s.named dev blockno) NBUF (s.next none) = none ∧ ∃ i, (s.buf i).refcnt = 0 ∧
      s' = (s.rename i dev blockno).goto p (.acquiresleep i dev blockno)) := by
  rw [bget] at hn
  split at hn
  next i hi =>
    cases hn
    exact .inl ⟨i, hi, rfl⟩
  next hnone =>
    split at hn
    next i hi =>
      cases hn
      exact .inr ⟨hnone, i, by simpa using scan_test hi, rfl⟩
    next => cases hn

theorem Inv.step {a : Act N} (h : Inv s xs) (hroom : roomy s a) (hn : next pid s a = .done s') :
    ∃ ys, Inv s' ys := by
  cases a with
  | bget p dev blockno =>
    simp only [next] at hn
    split at hn
    next hp =>
      obtain ⟨i, hi, rfl⟩ | ⟨hnone, i, hfree, rfl⟩ := bget_cases hn
      · rw [h.listed.scan_next] at hi
        exact ⟨xs, h.hit hroom hp hi⟩
      · rw [h.listed.scan_next] at hnone
        exact ⟨xs, h.recycle hp hnone hfree⟩
    next => cases hn
  | acquiresleep p =>
    simp only [next] at hn
    split at hn
    next i dev blockno hp =>
      split at hn
      next hl =>
        cases hn
        exact ⟨xs, h.acquiresleep hp hl⟩
      next => cases hn
    next => cases hn
  | brelse p =>
    simp only [next] at hn
    split at hn
    next i dev blockno hp =>
      split at hn
      next =>
        cases hn
        exact ⟨xs, h.brelse hp⟩
      next => cases hn
    next => cases hn
  | unref p =>
    simp only [next] at hn
    split at hn
    next i dev blockno hp =>
      cases hn
      exact h.unref hp
    next => cases hn
  | bpin i =>
    cases hn
    exact ⟨xs, h.bpin hroom i⟩
  | bunpin i =>
    simp only [next] at hn
    split at hn
    next hpin =>
      cases hn
      exact ⟨xs, h.bunpin hpin⟩
    next => cases hn

theorem inv_of_reachable (h : Reachable (machine N pid) roomy s) : ∃ xs, Inv s xs := by
  refine Reachable.invariant (I := fun s => ∃ xs, Inv s xs) ?_ ?_ h
  · rintro s ⟨prev, next, rfl⟩
    exact ⟨_, binit_inv N prev next⟩
  · rintro s a s' ⟨xs, hs⟩ hok hn
    exact hs.step hok hn

theorem unref_sameBlock (i j : Slot) : ((unref s i).buf j).dev = (s.buf j).dev ∧
    ((unref s i).buf j).blockno = (s.buf j).blockno := by
  have hs : SameNames s (s.setRefcnt i ((s.buf i).refcnt - 1)) := setRefcnt_sameNames
  rw [unref]
  split
  · exact ⟨hs.dev j, hs.blockno j⟩
  · exact ⟨hs.dev j, hs.blockno j⟩

theorem next_keeps_block {a : Act N} (hn : next pid s a = .done s') (hi : (s.buf i).refcnt ≠ 0) :
    (s'.buf i).dev = (s.buf i).dev ∧ (s'.buf i).blockno = (s.buf i).blockno := by
  have of_same : ∀ {t : State N}, SameNames s t →
      (t.buf i).dev = (s.buf i).dev ∧ (t.buf i).blockno = (s.buf i).blockno :=
    fun ht => ⟨ht.dev i, ht.blockno i⟩
  cases a with
  | bget p dev blockno =>
    simp only [next] at hn
    split at hn
    next =>
      obtain ⟨j, -, rfl⟩ | ⟨-, j, hfree, rfl⟩ := bget_cases hn
      · exact of_same (setRefcnt_sameNames.goto p _)
      · have hne : i ≠ j := by
          rintro rfl
          exact hi hfree
        rw [State.goto_buf, State.rename, State.setBuf_ne _ hne]
        exact ⟨rfl, rfl⟩
    next => cases hn
  | acquiresleep p =>
    simp only [next] at hn
    split at hn
    next =>
      split at hn
      next =>
        cases hn
        exact of_same (setLock_sameNames.goto p _)
      next => cases hn
    next => cases hn
  | brelse p =>
    simp only [next] at hn
    split at hn
    next =>
      split at hn
      next =>
        cases hn
        exact of_same (setLock_sameNames.goto p _)
      next => cases hn
    next => cases hn
  | unref p =>
    simp only [next] at hn
    split at hn
    next j _ _ _ =>
      cases hn
      exact unref_sameBlock j i
    next => cases hn
  | bpin j =>
    cases hn
    exact of_same (setRefcnt_sameNames.setPins j _)
  | bunpin j =>
    simp only [next] at hn
    split at hn
    next =>
      cases hn
      exact of_same (setRefcnt_sameNames.setPins j _)
    next => cases hn

structure Consistent (pid : Fin N → Nat) (s : State N) : Prop where
  /-- The list through `head.next` has every buffer once, and `prev` leads through it backwards. -/
  list : ∃ xs : List Slot, xs.Nodup ∧ (∀ i, i ∈ xs) ∧ Links s.next none (xs.map some) none ∧
    Links s.prev none (xs.map some).reverse none
  prev_next : ∀ x, s.prev (s.next x) = x
  next_prev : ∀ x, s.next (s.prev x) = x
  unique : ∀ i j, i ≠ j → (s.buf i).dev = (s.buf j).dev → (s.buf i).blockno = (s.buf j).blockno →
    (s.buf i).dev = 0
  keeps : ∀ a s', next pid s a = .done s' → ∀ i, (s.buf i).refcnt ≠ 0 →
    (s'.buf i).dev = (s.buf i).dev ∧ (s'.buf i).blockno = (s.buf i).blockno
  same : ∀ p q i j dev blockno, (s.pc p).ref = some (i, dev, blockno) →
    (s.pc q).ref = some (j, dev, blockno) → i = j
  block : ∀ p i dev blockno, (s.pc p).ref = some (i, dev, blockno) →
    (s.buf i).dev = dev ∧ (s.buf i).blockno = blockno
  exclusive : ∀ p q i dev blockno, s.pc p = .holds i dev blockno → s.pc q = .holds i dev blockno →
    p = q
  no_panic : ∀ p, next pid s (.brelse p) ≠ .panic .brelse

/-- As long as `refcnt` has room for the references to each buffer, the buffer cache is consistent
after any interleaving of `bget`, `brelse`, `bpin` and `bunpin`. -/
theorem bcache_consistent (N : Nat) (pid : Fin N → Nat) (s : State N)
    (h : Reachable (machine N pid) roomy s) : Consistent pid s := by
  obtain ⟨xs, hs⟩ := inv_of_reachable h
  have hring := hs.listed.ring
  have hall : ∀ x : Node, x ∈ none :: xs.map some := by
    intro x
    cases x with
    | none => exact List.mem_cons_self
    | some i => exact List.mem_cons_of_mem none (List.mem_map_of_mem (hs.listed.all i))
  refine ⟨⟨xs, hs.listed.nodup, hs.listed.all, hring.next_links, hring.prev_links⟩,
    fun x => hring.prev_next (hall x), fun x => ?_, fun i j hij hd hb => ?_,
    fun a s' hn i => next_keeps_block hn, ?_, ?_, ?_, ?_⟩
  · refine hring.symm.prev_next ?_
    have := hall x
    simpa using this
  · exact (hs.unique i j hd hb).resolve_left hij
  · intro p q i j dev blockno hp hq
    have hi := hs.first p i dev blockno hp
    rw [hs.first q j dev blockno hq] at hi
    exact (Option.some.inj hi).symm
  · intro p i dev blockno hp
    exact named_iff.mp (hs.named_of_ref hp)
  · intro p q i dev blockno hp hq
    refine (hs.lock i).unique ?_ ?_
    · simp [hp, Pc.holding]
    · simp [hq, Pc.holding]
  · intro p hpanic
    simp only [next] at hpanic
    split at hpanic
    next i dev blockno hp =>
      have hlock : (s.buf i).lock = some p := (hs.lock i).lock_eq (by simp [hp, Pc.holding])
      have hholding : holdingsleep pid (s.buf i) p = true := by simp [holdingsleep, hlock]
      rw [if_pos hholding] at hpanic
      cases hpanic
    next => cases hpanic

def pids (p : Fin 3) : Nat := p.val + 1

def started : State 3 := binit 3 (fun _ => none) (fun _ => none)

theorem run_started {ok : State 3 → Act 3 → Prop} : Run (machine 3 pids) ok [] started :=
  .start ⟨_, _, rfl⟩

def handOver : List (Act 3) :=
  [.bget 0 1 5, .acquiresleep 0, .bget 1 1 5, .brelse 0, .unref 0, .acquiresleep 1]

def isRoomy (s : State 3) (_ : Act 3) : Bool := ∀ i, s.references i + 1 < 2 ^ 32

theorem bcache_consistent_two : ∃ s, Reachable (machine 3 pids) roomy s ∧
    (∃ i, s.pc 1 = .holds i 1 5) ∧ Consistent pids s := by
  have h : (perform (machine 3 pids) isRoomy started handOver).any
      (fun s => decide (∃ i, s.pc 1 = .holds i 1 5)) = true := by decide +kernel
  obtain ⟨s, hr, hs⟩ := Reachable.of_perform (P := roomy) h ⟨_, _, rfl⟩
    fun _ _ hok => by simpa [isRoomy, roomy] using hok
  exact ⟨s, hr, of_decide_eq_true hs, bcache_consistent 3 pids s hr⟩

def State.pinned (s : State N) (i : Slot) (k : Nat) : State N :=
  (s.setRefcnt i ((s.buf i).refcnt + UInt32.ofNat k)).setPins i (s.pins i + k)

theorem pinned_succ (pid : Fin N → Nat) (s : State N) (i : Slot) (k : Nat) :
    next pid (s.pinned i k) (.bpin i) = .done (s.pinned i (k + 1)) := by
  have hrefcnt : (s.pinned i k).buf i =
      { s.buf i with refcnt := (s.buf i).refcnt + UInt32.ofNat k } := State.setRefcnt_self _
  have hpins : (s.pinned i k).pins i = s.pins i + k := Function.update_self ..
  have hadd : (s.buf i).refcnt + UInt32.ofNat k + 1 = (s.buf i).refcnt + UInt32.ofNat (k + 1) := by
    rw [UInt32.add_assoc, UInt32.ofNat_add]
    rfl
  rw [next, hrefcnt, hpins, State.setRefcnt, hrefcnt, hadd]
  simp only [State.pinned, State.setRefcnt, State.setPins, State.setBuf, Function.update_idem,
    Nat.add_assoc]

theorem reachable_pinned (h : Reachable (machine N pid) anyStep s) (i : Slot) (k : Nat) :
    Reachable (machine N pid) anyStep (s.pinned i k) := by
  induction k with
  | zero =>
    have hzero : s.pinned i 0 = s := by
      simp [State.pinned, State.setRefcnt, State.setPins, State.setBuf]
    rw [hzero]
    exact h
  | succ k ih =>
    obtain ⟨τ, hrun⟩ := ih
    have hn : (machine N pid).next (s.pinned i k) (.bpin i) = .done (s.pinned i (k + 1)) :=
      pinned_succ pid s i k
    exact ⟨_, hrun.step trivial hn⟩

def slot0 : Slot := ⟨0, by decide⟩

def slot1 : Slot := ⟨1, by decide⟩

def always (_ : State 3) (_ : Act 3) : Bool := true

/-- With `2 ^ 32 - 1` calls of `bpin` besides the reference of its holder, `refcnt` is 0 again. The
buffer is recycled while it is held, and a third caller gets the same block in another buffer. -/
theorem bcache_refcnt_wraps : ∃ s, Reachable (machine 3 pids) anyStep s ∧
    s.pc 0 = .holds slot0 1 5 ∧ s.pc 2 = .holds slot1 1 5 ∧ (s.buf slot0).blockno = 7 := by
  have h : ((perform (machine 3 pids) always started [.bget 0 1 5, .acquiresleep 0]).bind fun s =>
      perform (machine 3 pids) always (s.pinned slot0 (2 ^ 32 - 1))
        [.bget 1 1 7, .bget 2 1 5, .acquiresleep 2]).any
      (fun s => decide (s.pc 0 = .holds slot0 1 5 ∧ s.pc 2 = .holds slot1 1 5 ∧
        (s.buf slot0).blockno = 7)) = true := by decide +kernel
  obtain ⟨t, ht, hQ⟩ := (Option.any_eq_true _ _).mp h
  obtain ⟨s, hs, ht⟩ := Option.bind_eq_some_iff.mp ht
  have hheld : Reachable (machine 3 pids) anyStep s :=
    ⟨_, (run_started.perform hs).mono fun _ _ _ => trivial⟩
  obtain ⟨τ, hrun⟩ := reachable_pinned hheld slot0 (2 ^ 32 - 1)
  have hrun : Run (machine 3 pids) (always · ·) τ _ := hrun.mono fun _ _ _ => rfl
  exact ⟨t, ⟨_, (hrun.perform ht).mono fun _ _ _ => trivial⟩, of_decide_eq_true hQ⟩

end Xv6.Bcache

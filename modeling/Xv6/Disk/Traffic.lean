import Xv6.Disk.Owners

namespace Xv6.Disk

open Lib Lib.Transition Lib.Holder
open scoped Fin.CommRing

variable {B : Type} {N : Nat}

def State.availRing (s : State B N) : Circular (Fin NUM) NUM :=
  ⟨s.avail, slot s.seen, slot s.availIdx⟩

def State.usedRing (s : State B N) : Circular (Fin NUM) NUM := ⟨s.used, s.usedIdx, slot s.usedId⟩

def State.queue (s : State B N) : List (Fin NUM) :=
  s.availRing.contents ++ s.working ++ s.usedRing.contents

def Linked (s : State B N) : Prop :=
  ∀ p b x, (s.pc p).formatted = some (b, x) → Chained s x ∧ s.buf x.first = some b

structure Traffic (s : State B N) : Prop where
  pending : ∀ p b x, (s.pc p).pending = some (b, x) → s.avail (slot s.availIdx) = x.first ∧
    s.disk b = true ∧ s.posts x.first = 0 ∧ s.clears x.first = 0
  count : (s.availIdx - s.seen).toNat = s.availRing.size
  nodup : s.queue.Nodup
  sound : ∀ h ∈ s.queue, ∃ p b x, (s.pc p).sent = some (b, x) ∧ x.first = h ∧ s.disk b = true
  complete : ∀ p b x, (s.pc p).sent = some (b, x) → s.disk b = true → x.first ∈ s.queue
  posts : ∀ p b x, (s.pc p).sent = some (b, x) →
    s.posts x.first = if x.first ∈ s.availRing.contents ++ s.working then 0 else 1
  clears : ∀ p b x, (s.pc p).sent = some (b, x) →
    s.clears x.first = if s.disk b then 0 else 1
  published : s.published = s.taken ++ s.availRing.contents
  posted : s.posted = s.handled ++ s.usedRing.contents

structure Inv (s : State B N) : Prop where
  owners : Owners s
  linked : Linked s
  traffic : Traffic s

section Bounds

variable {s : State B N}

theorem slot_succ (n : UInt16) : slot (n + 1) = slot n + 1 := by
  have h : (n + 1).toNat % NUM = (n.toNat + 1) % NUM := by
    have := n.toNat_lt
    change (n + 1).toNat % 8 = (n.toNat + 1) % 8
    rw [UInt16.toNat_add, UInt16.toNat_one]
    omega
  rw [slot, slot, ← Circular.ofNat_succ]
  exact Fin.ext h

theorem sub_succ_toNat {m n : UInt16} (h : n ≠ m) : (m - (n + 1)).toNat + 1 = (m - n).toNat := by
  have hm := m.toNat_lt
  have hn := n.toNat_lt
  have hne : n.toNat ≠ m.toNat := fun e => h (UInt16.toNat_inj.mp e)
  rw [UInt16.toNat_sub, UInt16.toNat_sub, UInt16.toNat_add, UInt16.toNat_one]
  omega

theorem succ_sub_toNat {m n : UInt16} (h : (m - n).toNat ≤ 2) :
    (m + 1 - n).toNat = (m - n).toNat + 1 := by
  have hm := m.toNat_lt
  have hn := n.toNat_lt
  rw [UInt16.toNat_sub] at h
  rw [UInt16.toNat_sub, UInt16.toNat_sub, UInt16.toNat_add, UInt16.toNat_one]
  omega

theorem Inv.queue_length_le (h : Inv s) : s.queue.length ≤ 2 := by
  have hsub : s.queue.toFinset ⊆ (Finset.univ.filter fun p => (s.pc p).idx.isSome).image
      fun p => ((s.pc p).idx.map (·.first)).getD 0 := by
    intro i hi
    obtain ⟨p, b, x, hs, rfl, -⟩ := h.traffic.sound i (List.mem_toFinset.mp hi)
    have hx := (Pc.idx_of_formatted (Pc.formatted_of_sent hs)).1
    refine Finset.mem_image.mpr ⟨p, Finset.mem_filter.mpr ⟨Finset.mem_univ p, ?_⟩, ?_⟩
    · rw [hx]
      rfl
    · rw [hx]
      rfl
  have hcard := (Finset.card_le_card hsub).trans Finset.card_image_le
  rw [List.toFinset_card_of_nodup h.traffic.nodup] at hcard
  exact hcard.trans h.owners.inFlight_le

theorem length_contents (q : Circular (Fin NUM) NUM) : q.contents.length = q.size := by
  simp [Circular.contents]

theorem Inv.sizes_le (h : Inv s) : s.availRing.size + s.working.length + s.usedRing.size ≤ 2 := by
  have := h.queue_length_le
  rwa [State.queue, List.length_append, List.length_append, length_contents, length_contents] at this

theorem not_full {q : Circular (Fin NUM) NUM} (h : q.size ≤ 2) : q.isFull = false := by
  by_contra hf
  have := q.isFull_iff.mp (by simpa using hf)
  change q.size + 1 = 8 at this
  omega

theorem Inv.avail_not_full (h : Inv s) : s.availRing.isFull = false :=
  not_full (by have := h.sizes_le; omega)

theorem Inv.used_not_full (h : Inv s) : s.usedRing.isFull = false :=
  not_full (by have := h.sizes_le; omega)

theorem Inv.head_unique (h : Inv s) {p q : Fin N} {b c : B} {x y : Idx}
    (hp : (s.pc p).formatted = some (b, x)) (hq : (s.pc q).formatted = some (c, y))
    (he : x.first = y.first) : p = q := by
  refine h.owners.disjoint p q x y x.first (Pc.idx_of_formatted hp).1 (Pc.idx_of_formatted hq).1
    x.first_mem ?_
  rw [he]
  exact y.first_mem

theorem Inv.buffer_unique (h : Inv s) {p q : Fin N} {b : B} {x y : Idx}
    (hp : (s.pc p).formatted = some (b, x)) (hq : (s.pc q).formatted = some (b, y)) : p = q :=
  h.owners.buffer p q b (Pc.idx_of_formatted hp).2 (Pc.idx_of_formatted hq).2

end Bounds

section Keep

variable {s s' : State B N}

theorem Linked.keep (h : Linked s) (hf : ∀ q, (s'.pc q).formatted = (s.pc q).formatted)
    (hd : ∀ i, (s'.desc i).hasNext = (s.desc i).hasNext ∧ (s'.desc i).next = (s.desc i).next)
    (hb : s'.buf = s.buf) : Linked s' := by
  intro p b x hp
  rw [hf] at hp
  obtain ⟨hc, hbuf⟩ := h p b x hp
  refine ⟨⟨?_, ?_, ?_⟩, by rw [hb]; exact hbuf⟩
  · rw [(hd _).1, (hd _).2]
    exact hc.first
  · rw [(hd _).1, (hd _).2]
    exact hc.second
  · rw [(hd _).1]
    exact hc.third

structure SameTraffic (s s' : State B N) : Prop where
  avail : s'.avail = s.avail
  availIdx : s'.availIdx = s.availIdx
  used : s'.used = s.used
  usedId : s'.usedId = s.usedId
  usedIdx : s'.usedIdx = s.usedIdx
  disk : s'.disk = s.disk
  seen : s'.seen = s.seen
  working : s'.working = s.working
  published : s'.published = s.published
  taken : s'.taken = s.taken
  posted : s'.posted = s.posted
  handled : s'.handled = s.handled
  posts : s'.posts = s.posts
  clears : s'.clears = s.clears

theorem Traffic.keep (h : Traffic s) (hs : SameTraffic s s')
    (hp : ∀ q b x, (s'.pc q).pending = some (b, x) → (s.pc q).pending = some (b, x))
    (hq : ∀ q b x, (s'.pc q).sent = some (b, x) → (s.pc q).sent = some (b, x))
    (hq' : ∀ q b x, (s.pc q).sent = some (b, x) → s.disk b = true → (s'.pc q).sent = some (b, x)) :
    Traffic s' := by
  have hA : s'.availRing = s.availRing := by
    simp only [State.availRing, hs.avail, hs.seen, hs.availIdx]
  have hU : s'.usedRing = s.usedRing := by
    simp only [State.usedRing, hs.used, hs.usedIdx, hs.usedId]
  have hQ : s'.queue = s.queue := by simp only [State.queue, hA, hU, hs.working]
  refine ⟨fun p b x he => ?_, ?_, ?_, fun i hi => ?_, fun p b x he hd => ?_, fun p b x he => ?_,
    fun p b x he => ?_, ?_, ?_⟩
  · rw [hs.avail, hs.availIdx, hs.disk, hs.posts, hs.clears]
    exact h.pending p b x (hp p b x he)
  · rw [hs.availIdx, hs.seen, hA]
    exact h.count
  · rw [hQ]
    exact h.nodup
  · rw [hQ] at hi
    obtain ⟨p, b, x, he, hx, hd⟩ := h.sound i hi
    exact ⟨p, b, x, hq' p b x he hd, hx, by rw [hs.disk]; exact hd⟩
  · rw [hs.disk] at hd
    rw [hQ]
    exact h.complete p b x (hq p b x he) hd
  · rw [hs.posts, hA, hs.working]
    exact h.posts p b x (hq p b x he)
  · rw [hs.clears, hs.disk]
    exact h.clears p b x (hq p b x he)
  · rw [hs.published, hs.taken, hA]
    exact h.published
  · rw [hs.posted, hs.handled, hU]
    exact h.posted

theorem Inv.keep (h : Inv s) (hs : SameTraffic s s') (hlock : Holds s'.lock Pc.locked s'.pc)
    (hpc : ∀ q, (s'.pc q).buffer = (s.pc q).buffer ∧ (s'.pc q).idx = (s.pc q).idx ∧
      (s'.pc q).formatted = (s.pc q).formatted ∧ (s'.pc q).sent = (s.pc q).sent ∧
      (s'.pc q).pending = (s.pc q).pending)
    (hf : s'.free = s.free)
    (hd : ∀ i, (s'.desc i).hasNext = (s.desc i).hasNext ∧ (s'.desc i).next = (s.desc i).next)
    (hb : s'.buf = s.buf) : Inv s' where
  owners := h.owners.keep hlock (fun q => (hpc q).1) (fun q => (hpc q).2.1) hf
  linked := h.linked.keep (fun q => (hpc q).2.2.1) hd hb
  traffic := h.traffic.keep hs (fun q b x => by rw [(hpc q).2.2.2.2]; exact id)
    (fun q b x => by rw [(hpc q).2.2.2.1]; exact id)
    (fun q b x he _ => by rw [(hpc q).2.2.2.1]; exact he)

end Keep

section Device

variable {s : State B N}

theorem Traffic.sound_of_perm {s' : State B N} (h : Traffic s) (hq : s'.queue.Perm s.queue)
    (hpc : s'.pc = s.pc) (hd : s'.disk = s.disk) :
    s'.queue.Nodup ∧
    (∀ i ∈ s'.queue, ∃ p b x, (s'.pc p).sent = some (b, x) ∧ x.first = i ∧ s'.disk b = true) ∧
    ∀ p b x, (s'.pc p).sent = some (b, x) → s'.disk b = true → x.first ∈ s'.queue := by
  rw [hpc, hd]
  refine ⟨hq.nodup_iff.mpr h.nodup, fun i hi => h.sound i (hq.mem_iff.mp hi), fun p b x hp hb => ?_⟩
  exact hq.mem_iff.mpr (h.complete p b x hp hb)

theorem Inv.take_step (h : Inv s) (hne : s.seen ≠ s.availIdx) :
    Inv { s with
      seen := s.seen + 1
      working := s.avail (slot s.seen) :: s.working
      taken := s.taken ++ [s.avail (slot s.seen)] } := by
  set s' : State B N := { s with
    seen := s.seen + 1
    working := s.avail (slot s.seen) :: s.working
    taken := s.taken ++ [s.avail (slot s.seen)] } with hs'
  have hring : s'.availRing = s.availRing.take := by
    rw [State.availRing, State.availRing, Circular.take, hs']
    simp only [slot_succ]
  have hcount := h.traffic.count
  have hsub := sub_succ_toNat hne
  have hempty : s.availRing.isEmpty = false := by
    cases he : s.availRing.isEmpty with
    | false => rfl
    | true =>
      rw [Circular.isEmpty_iff] at he
      omega
  have hcont : s.availRing.contents = s.avail (slot s.seen) :: s'.availRing.contents := by
    rw [Circular.contents_take hempty, hring]
    rfl
  have hmem : ∀ i, i ∈ s'.availRing.contents ++ s'.working ↔
      i ∈ s.availRing.contents ++ s.working := by
    intro i
    rw [hcont]
    simp only [hs', List.mem_append, List.mem_cons]
    tauto
  have hqueue : s'.queue.Perm s.queue := by
    refine List.Perm.append_right _ ?_
    rw [hcont]
    exact List.perm_middle
  obtain ⟨hnodup, hsound, hcomplete⟩ := h.traffic.sound_of_perm hqueue rfl rfl
  refine ⟨h.owners.keep h.owners.lock (fun _ => rfl) (fun _ => rfl) rfl,
    h.linked.keep (fun _ => rfl) (fun _ => ⟨rfl, rfl⟩) rfl,
    h.traffic.pending, ?_, hnodup, hsound, hcomplete, ?_, h.traffic.clears, ?_, h.traffic.posted⟩
  · have hsize := Circular.size_take hempty
    rw [hring]
    change (s.availIdx - (s.seen + 1)).toNat = _
    omega
  · intro p b x hp
    simp only [hmem]
    exact h.traffic.posts p b x hp
  · change s.published = s.taken ++ [s.avail (slot s.seen)] ++ s'.availRing.contents
    rw [h.traffic.published, hcont, List.append_assoc]
    rfl

theorem Inv.post_step (h : Inv s) {i : Fin NUM} {status : Nat} (hi : i ∈ s.working) :
    Inv { s with
      working := s.working.erase i
      status := Function.update s.status i status
      used := Function.update s.used (slot s.usedId) i
      usedId := s.usedId + 1
      posted := s.posted ++ [i]
      posts := Function.update s.posts i (s.posts i + 1) } := by
  set s' : State B N := { s with
    working := s.working.erase i
    status := Function.update s.status i status
    used := Function.update s.used (slot s.usedId) i
    usedId := s.usedId + 1
    posted := s.posted ++ [i]
    posts := Function.update s.posts i (s.posts i + 1) } with hs'
  have hring : s'.usedRing = s.usedRing.put i := by
    rw [State.usedRing, State.usedRing, Circular.put, hs']
    simp only [slot_succ]
  have hcont : s'.usedRing.contents = s.usedRing.contents ++ [i] := by
    rw [hring, Circular.contents_put h.used_not_full]
  have hqueue : s'.queue.Perm s.queue := by
    have hw := (List.perm_cons_erase hi).symm
    have : s.availRing.contents ++ s.working.erase i ++ (s.usedRing.contents ++ [i]) |>.Perm
        (s.availRing.contents ++ s.working ++ s.usedRing.contents) := by
      rw [List.append_assoc, List.append_assoc]
      refine List.Perm.append_left _ ?_
      rw [← List.append_assoc]
      refine (List.perm_append_singleton i _).trans ?_
      exact hw.append_right s.usedRing.contents
    rw [State.queue, hcont]
    exact this
  have hnd : (s.availRing.contents ++ s.working).Nodup := h.traffic.nodup.of_append_left
  have hmem : ∀ j, j ∈ s'.availRing.contents ++ s'.working ↔
      j ≠ i ∧ j ∈ s.availRing.contents ++ s.working := by
    intro j
    have hw : s.working.Nodup := hnd.of_append_right
    have hA : i ∉ s.availRing.contents := fun hm => List.disjoint_of_nodup_append hnd hm hi
    change j ∈ s.availRing.contents ++ s.working.erase i ↔ _
    simp only [List.mem_append, hw.mem_erase_iff]
    constructor
    · rintro (hj | hj)
      · exact ⟨fun e => hA (e ▸ hj), Or.inl hj⟩
      · exact ⟨hj.1, Or.inr hj.2⟩
    · rintro ⟨hji, hj | hj⟩
      · exact Or.inl hj
      · exact Or.inr ⟨hji, hj⟩
  obtain ⟨hnodup, hsound, hcomplete⟩ := h.traffic.sound_of_perm hqueue rfl rfl
  have hiq : i ∈ s.availRing.contents ++ s.working := List.mem_append_right _ hi
  obtain ⟨q, c, y, hq, hy, -⟩ := h.traffic.sound i (List.mem_append_left _ hiq)
  refine ⟨h.owners.keep h.owners.lock (fun _ => rfl) (fun _ => rfl) rfl,
    h.linked.keep (fun _ => rfl) (fun _ => ⟨rfl, rfl⟩) rfl, ?_, h.traffic.count, hnodup, hsound,
    hcomplete, ?_, h.traffic.clears, h.traffic.published, ?_⟩
  · intro p b x hp
    -- the request is sent, so it is not the one in preparation
    have hne : x.first ≠ i := by
      intro e
      have hpq := h.head_unique (Pc.formatted_of_pending hp) (Pc.formatted_of_sent hq) (e.trans hy.symm)
      rw [← hpq, Pc.not_sent_of_pending hp] at hq
      cases hq
    change _ ∧ _ ∧ Function.update s.posts i (s.posts i + 1) x.first = 0 ∧ _
    rw [Function.update_of_ne hne]
    exact h.traffic.pending p b x hp
  · intro p b x hp
    have hold := h.traffic.posts p b x hp
    simp only [hmem]
    change Function.update s.posts i (s.posts i + 1) x.first = _
    by_cases hx : x.first = i
    · rw [hx, Function.update_self, if_neg (fun e => e.1 rfl)]
      rw [hx, if_pos hiq] at hold
      rw [hold]
    · rw [Function.update_of_ne hx, hold]
      simp only [hx, ne_eq, not_false_eq_true, true_and]
  · change s.posted ++ [i] = s.handled ++ s'.usedRing.contents
    rw [h.traffic.posted, hcont, List.append_assoc]

end Device

section Driver

variable {s : State B N} {p : Fin N}

theorem front_mem (hne : s.usedIdx ≠ slot s.usedId) :
    s.used s.usedIdx ∈ s.usedRing.contents := by
  have hempty : s.usedRing.isEmpty = false := decide_eq_false (Ne.symm hne)
  rw [Circular.contents_take hempty]
  exact List.mem_cons_self

theorem Inv.posts_of_used (h : Inv s) {b : B} {x : Idx} (hp : (s.pc p).sent = some (b, x))
    (hx : x.first ∈ s.usedRing.contents) : s.posts x.first = 1 := by
  rw [h.traffic.posts p b x hp, if_neg]
  intro hm
  exact List.disjoint_of_nodup_append h.traffic.nodup hm hx

theorem Inv.posts_of_clear (h : Inv s) {b : B} {x : Idx} (hp : (s.pc p).sent = some (b, x))
    (hd : s.disk b = false) : s.posts x.first = 1 := by
  rw [h.traffic.posts p b x hp, if_neg]
  intro hm
  obtain ⟨q, c, y, hq, hy, hc⟩ := h.traffic.sound _ (List.mem_append_left _ hm)
  have hqp := h.head_unique (Pc.formatted_of_sent hq) (Pc.formatted_of_sent hp) hy
  rw [hqp, hp] at hq
  cases hq
  rw [hd] at hc
  cases hc

theorem Inv.front_sent (h : Inv s) (hne : s.usedIdx ≠ slot s.usedId) :
    ∃ q b x, (s.pc q).sent = some (b, x) ∧ x.first = s.used s.usedIdx ∧ s.disk b = true ∧
      s.buf (s.used s.usedIdx) = some b := by
  have hmem : s.used s.usedIdx ∈ s.queue := List.mem_append_right _ (front_mem hne)
  obtain ⟨q, b, x, hq, hx, hb⟩ := h.traffic.sound _ hmem
  refine ⟨q, b, x, hq, hx, hb, ?_⟩
  rw [← hx]
  exact (h.linked q b x (Pc.formatted_of_sent hq)).2

theorem Inv.handle_step [DecidableEq B] (h : Inv s) (hne : s.usedIdx ≠ slot s.usedId) {b : B}
    (hbuf : s.buf (s.used s.usedIdx) = some b) :
    Inv { s.wakeBuf b with
      disk := Function.update s.disk b false
      usedIdx := s.usedIdx + 1
      handled := s.handled ++ [s.used s.usedIdx]
      clears := Function.update s.clears (s.used s.usedIdx) (s.clears (s.used s.usedIdx) + 1) } := by
  set s' : State B N := { s.wakeBuf b with
    disk := Function.update s.disk b false
    usedIdx := s.usedIdx + 1
    handled := s.handled ++ [s.used s.usedIdx]
    clears := Function.update s.clears (s.used s.usedIdx) (s.clears (s.used s.usedIdx) + 1) } with hs'
  have like : ∀ q, (s'.pc q).Like (s.pc q) := wakeBuf_like s b
  obtain ⟨r, c, x, hr, hx, hd, hc⟩ := h.front_sent hne
  obtain rfl : b = c := Option.some.inj (hbuf.symm.trans hc)
  rw [← hx] at hs'
  have hempty : s.usedRing.isEmpty = false := decide_eq_false (Ne.symm hne)
  have hcont : s.usedRing.contents = x.first :: s'.usedRing.contents := by
    rw [Circular.contents_take hempty, hx]
    rfl
  have hqueue : s.queue.Perm (x.first :: s'.queue) := by
    rw [State.queue, hcont]
    exact List.perm_middle
  have hnodup : (x.first :: s'.queue).Nodup := hqueue.nodup_iff.mp h.traffic.nodup
  have hgone : x.first ∉ s'.queue := (List.nodup_cons.mp hnodup).1
  -- the other requests have other buffers and other heads
  have hother : ∀ q d y, (s.pc q).formatted = some (d, y) → (d = b ↔ y.first = x.first) := by
    intro q d y hq
    constructor
    · rintro rfl
      have := h.buffer_unique hq (Pc.formatted_of_sent hr)
      rw [this, Pc.formatted_of_sent hr] at hq
      cases hq
      rfl
    · intro e
      have := h.head_unique hq (Pc.formatted_of_sent hr) e
      rw [this, Pc.formatted_of_sent hr] at hq
      cases hq
      rfl
  refine ⟨h.owners.keep (Holds.like h.owners.lock like) (fun q => (like q).buffer)
    (fun q => (like q).idx) rfl, h.linked.keep (fun q => (like q).formatted) (fun _ => ⟨rfl, rfl⟩) rfl,
    ?_, h.traffic.count, (List.nodup_cons.mp hnodup).2, ?_, ?_, ?_, ?_, h.traffic.published, ?_⟩
  · intro q d y hq
    rw [(like q).pending] at hq
    have hne' : y.first ≠ x.first := by
      intro e
      have := h.head_unique (Pc.formatted_of_pending hq) (Pc.formatted_of_sent hr) e
      rw [← this, Pc.not_sent_of_pending hq] at hr
      cases hr
    have hdb : d ≠ b := fun e => hne' ((hother q d y (Pc.formatted_of_pending hq)).mp e)
    have hold := h.traffic.pending q d y hq
    rw [hs']
    change _ ∧ Function.update s.disk b false d = true ∧ _ ∧
      Function.update s.clears x.first _ y.first = 0
    rw [Function.update_of_ne hdb, Function.update_of_ne hne']
    exact hold
  · intro i hi
    obtain ⟨q, d, y, hq, hy, hd'⟩ := h.traffic.sound i (hqueue.mem_iff.mpr (List.mem_cons_of_mem _ hi))
    refine ⟨q, d, y, by rw [(like q).sent]; exact hq, hy, ?_⟩
    have hdb : d ≠ b := by
      intro e
      rw [← hy, (hother q d y (Pc.formatted_of_sent hq)).mp e] at hi
      exact hgone hi
    exact (Function.update_of_ne hdb ..).trans hd'
  · intro q d y hq hd'
    rw [(like q).sent] at hq
    have hdb : d ≠ b := by
      rintro rfl
      rw [hs'] at hd'
      change Function.update s.disk d false d = true at hd'
      rw [Function.update_self] at hd'
      cases hd'
    have hmem := h.traffic.complete q d y hq ((Function.update_of_ne hdb ..).symm.trans hd')
    rcases List.mem_cons.mp (hqueue.mem_iff.mp hmem) with e | hmem
    · exact absurd ((hother q d y (Pc.formatted_of_sent hq)).mpr e) hdb
    · exact hmem
  · intro q d y hq
    rw [(like q).sent] at hq
    exact h.traffic.posts q d y hq
  · intro q d y hq
    rw [(like q).sent] at hq
    have hold := h.traffic.clears q d y hq
    rw [hs']
    change Function.update s.clears x.first (s.clears x.first + 1) y.first =
      if Function.update s.disk b false d then 0 else 1
    by_cases hdb : d = b
    · rw [(hother q d y (Pc.formatted_of_sent hq)).mp hdb] at hold ⊢
      rw [hdb, hd, if_pos rfl] at hold
      rw [hdb, Function.update_self, Function.update_self, hold]
      rfl
    · have hy : y.first ≠ x.first := fun e => hdb ((hother q d y (Pc.formatted_of_sent hq)).mpr e)
      rw [Function.update_of_ne hdb, Function.update_of_ne hy]
      exact hold
  · rw [hs']
    change s.posted = s.handled ++ [x.first] ++ s'.usedRing.contents
    rw [h.traffic.posted, hcont, List.append_assoc]
    rfl

theorem Inv.format_step [DecidableEq B] (h : Inv s) {b : B} {w : Bool} {x : Idx}
    (hp : s.pc p = .format b w x) : Inv ((formatRequest s b w x).setPc p (.notify b x)) := by
  set s' := (formatRequest s b w x).setPc p (.notify b x) with hs'
  have hidx : (s.pc p).idx = some x := by rw [hp]; rfl
  have hbuf : (s.pc p).buffer = some b := by rw [hp]; rfl
  have hself : s'.pc p = .notify b x := Function.update_self ..
  have hrest : ∀ q, q ≠ p → s'.pc q = s.pc q := fun q hq => Function.update_of_ne hq ..
  have hne : ∀ q d y, (s.pc q).formatted = some (d, y) → q ≠ p := by
    rintro q d y hq rfl
    rw [hp] at hq
    cases hq
  have hsent : ∀ q, (s'.pc q).sent = (s.pc q).sent := update_fun Pc.sent hp rfl
  have hout : ∀ q d y i, (s.pc q).formatted = some (d, y) → i ∈ y.toList → i ∉ x.toList := by
    intro q d y i hq hi hi'
    exact hne q d y hq (h.owners.disjoint q p y x i (Pc.idx_of_formatted hq).1 hidx hi hi')
  have hfirst : ∀ q d y, (s.pc q).formatted = some (d, y) → y.first ≠ x.first := by
    intro q d y hq e
    refine hout q d y y.first hq y.first_mem ?_
    rw [e]
    exact x.first_mem
  have hdb : ∀ q d y, (s.pc q).formatted = some (d, y) → d ≠ b := by
    rintro q d y hq rfl
    exact hne q d y hq (h.owners.buffer q p d (Pc.idx_of_formatted hq).2 hbuf)
  have hdesc : ∀ i, i ∉ x.toList → s'.desc i = s.desc i := by
    intro i hi
    simp only [Idx.toList, List.mem_cons, List.not_mem_nil, or_false, not_or] at hi
    simp only [hs', State.setPc_desc, formatRequest]
    rw [Function.update_of_ne hi.2.2, Function.update_of_ne hi.2.1, Function.update_of_ne hi.1]
  have hchained : Chained s' x := by
    have hx := h.owners.distinct p x hidx
    simp only [Idx.toList, List.nodup_cons, List.mem_cons, List.not_mem_nil, or_false, not_or,
      List.nodup_nil, and_true, not_false_eq_true] at hx
    have h₃ : s'.desc x.third = ⟨.status x.first, false, true, 0⟩ := Function.update_self ..
    have h₂ : s'.desc x.second = ⟨.data b, true, !w, x.third⟩ :=
      (Function.update_of_ne hx.2 ..).trans (Function.update_self ..)
    have h₁ : s'.desc x.first = ⟨.header w, true, false, x.second⟩ :=
      (Function.update_of_ne hx.1.2 ..).trans
        ((Function.update_of_ne hx.1.1 ..).trans (Function.update_self ..))
    refine ⟨?_, ?_, ?_⟩
    · rw [h₁]
      exact ⟨rfl, rfl⟩
    · rw [h₂]
      exact ⟨rfl, rfl⟩
    · rw [h₃]
  have hA : s'.availRing.contents = s.availRing.contents := s.availRing.contents_stage x.first
  have hQ : s'.queue = s.queue := by
    rw [State.queue, hA]
    rfl
  have hposts : ∀ q d y, (s.pc q).formatted = some (d, y) → s'.posts y.first = s.posts y.first :=
    fun q d y hq => Function.update_of_ne (hfirst q d y hq) ..
  have hclears : ∀ q d y, (s.pc q).formatted = some (d, y) → s'.clears y.first = s.clears y.first :=
    fun q d y hq => Function.update_of_ne (hfirst q d y hq) ..
  have hdisk : ∀ q d y, (s.pc q).formatted = some (d, y) → s'.disk d = s.disk d :=
    fun q d y hq => Function.update_of_ne (hdb q d y hq) ..
  refine ⟨h.owners.keep (h.owners.lock.step (by rw [hp]; rfl)) (update_fun Pc.buffer hp rfl)
    (update_fun Pc.idx hp rfl) rfl, ?_, ?_, h.traffic.count, ?_, ?_, ?_, ?_, ?_, ?_,
    h.traffic.posted⟩
  · intro q d y hq
    by_cases hqp : q = p
    · rw [hqp, hself] at hq
      cases hq
      exact ⟨hchained, Function.update_self ..⟩
    · rw [hrest q hqp] at hq
      obtain ⟨hc, hb⟩ := h.linked q d y hq
      have hin : ∀ i ∈ y.toList, s'.desc i = s.desc i := fun i hi => hdesc i (hout q d y i hq hi)
      refine ⟨⟨?_, ?_, ?_⟩, (Function.update_of_ne (hfirst q d y hq) ..).trans hb⟩
      · rw [hin _ y.first_mem]
        exact hc.first
      · rw [hin _ (List.mem_cons_of_mem _ List.mem_cons_self)]
        exact hc.second
      · rw [hin _ (List.mem_cons_of_mem _ (List.mem_cons_of_mem _ List.mem_cons_self))]
        exact hc.third
  · intro q d y hq
    -- only the holder of the lock prepares a request
    have hqp : q = p := by
      by_contra hqp
      rw [hrest q hqp] at hq
      exact hqp (h.owners.lock.unique (Pc.locked_of_pending hq) (by rw [hp]; rfl))
    rw [hqp, hself] at hq
    cases hq
    exact ⟨Function.update_self .., Function.update_self .., Function.update_self ..,
      Function.update_self ..⟩
  · rw [hQ]
    exact h.traffic.nodup
  · intro i hi
    rw [hQ] at hi
    obtain ⟨q, d, y, hq, hy, hd⟩ := h.traffic.sound i hi
    refine ⟨q, d, y, (hsent q).trans hq, hy, ?_⟩
    rw [hdisk q d y (Pc.formatted_of_sent hq)]
    exact hd
  · intro q d y hq hd
    rw [hsent] at hq
    rw [hdisk q d y (Pc.formatted_of_sent hq)] at hd
    rw [hQ]
    exact h.traffic.complete q d y hq hd
  · intro q d y hq
    rw [hsent] at hq
    rw [hposts q d y (Pc.formatted_of_sent hq), hA]
    exact h.traffic.posts q d y hq
  · intro q d y hq
    rw [hsent] at hq
    rw [hclears q d y (Pc.formatted_of_sent hq), hdisk q d y (Pc.formatted_of_sent hq)]
    exact h.traffic.clears q d y hq
  · rw [hA]
    exact h.traffic.published

theorem Inv.notify_step (h : Inv s) {b : B} {x : Idx} (hp : s.pc p = .notify b x) :
    Inv ({ s with availIdx := s.availIdx + 1, published := s.published ++ [x.first] }.setPc p
      (.wait b x)) := by
  set s' := { s with availIdx := s.availIdx + 1, published := s.published ++ [x.first] }.setPc p
    (.wait b x) with hs'
  have hself : s'.pc p = .wait b x := Function.update_self ..
  have hrest : ∀ q, q ≠ p → s'.pc q = s.pc q := fun q hq => Function.update_of_ne hq ..
  have hpend : (s.pc p).pending = some (b, x) := by rw [hp]; rfl
  have hform : (s.pc p).formatted = some (b, x) := by rw [hp]; rfl
  obtain ⟨hslot, hdisk, hposts, hclears⟩ := h.traffic.pending p b x hpend
  have hring : s'.availRing = s.availRing.put x.first := by
    have : Function.update s.avail (slot s.availIdx) x.first = s.avail := by
      rw [← hslot, Function.update_eq_self]
    rw [Circular.put, State.availRing, State.availRing, this, hs']
    simp only [State.setPc, slot_succ]
  have hcont : s'.availRing.contents = s.availRing.contents ++ [x.first] := by
    rw [hring, Circular.contents_put h.avail_not_full]
  have hqueue : s'.queue.Perm (x.first :: s.queue) := by
    rw [State.queue, hcont, List.append_assoc, List.append_assoc, State.queue]
    rw [List.append_assoc]
    exact List.perm_middle
  have hnew : x.first ∉ s.queue := by
    intro hm
    obtain ⟨q, d, y, hq, hy, -⟩ := h.traffic.sound _ hm
    have := h.head_unique (Pc.formatted_of_sent hq) hform hy
    rw [this, hp] at hq
    cases hq
  have hfirst : ∀ q d y, q ≠ p → (s.pc q).sent = some (d, y) → y.first ≠ x.first := by
    intro q d y hqp hq e
    exact hqp (h.head_unique (Pc.formatted_of_sent hq) hform e)
  have hmem : ∀ i, i ∈ s'.availRing.contents ++ s'.working ↔
      i = x.first ∨ i ∈ s.availRing.contents ++ s.working := by
    intro i
    rw [hcont]
    change i ∈ s.availRing.contents ++ [x.first] ++ s.working ↔ _
    simp only [List.mem_append, List.mem_singleton]
    tauto
  refine ⟨h.owners.keep (h.owners.lock.step (by rw [hp]; rfl)) (update_fun Pc.buffer hp rfl)
    (update_fun Pc.idx hp rfl) rfl,
    h.linked.keep (update_fun Pc.formatted hp rfl) (fun _ => ⟨rfl, rfl⟩) rfl,
    ?_, ?_, ?_, ?_, ?_, ?_, ?_, ?_, h.traffic.posted⟩
  · intro q d y hq
    by_cases hqp : q = p
    · rw [hqp, hself] at hq
      cases hq
    · rw [hrest q hqp] at hq
      exact absurd (h.owners.lock.unique (Pc.locked_of_pending hq) (Pc.locked_of_pending hpend)) hqp
  · have hcount := h.traffic.count
    have hle := h.sizes_le
    rw [hring, Circular.size_put h.avail_not_full, ← hcount]
    exact succ_sub_toNat (hcount.trans_le (by omega))
  · exact hqueue.nodup_iff.mpr (List.nodup_cons.mpr ⟨hnew, h.traffic.nodup⟩)
  · intro i hi
    rcases List.mem_cons.mp (hqueue.mem_iff.mp hi) with rfl | hi
    · exact ⟨p, b, x, by rw [hself]; rfl, rfl, hdisk⟩
    · obtain ⟨q, d, y, hq, hy, hd⟩ := h.traffic.sound i hi
      have hqp : q ≠ p := by
        rintro rfl
        rw [hp] at hq
        cases hq
      exact ⟨q, d, y, by rw [hrest q hqp]; exact hq, hy, hd⟩
  · intro q d y hq hd
    refine hqueue.mem_iff.mpr ?_
    by_cases hqp : q = p
    · rw [hqp, hself] at hq
      cases hq
      exact List.mem_cons_self
    · rw [hrest q hqp] at hq
      exact List.mem_cons_of_mem _ (h.traffic.complete q d y hq hd)
  · intro q d y hq
    simp only [hmem]
    by_cases hqp : q = p
    · rw [hqp, hself] at hq
      cases hq
      rw [if_pos (Or.inl rfl)]
      exact hposts
    · rw [hrest q hqp] at hq
      simp only [hfirst q d y hqp hq, false_or]
      exact h.traffic.posts q d y hq
  · intro q d y hq
    by_cases hqp : q = p
    · rw [hqp, hself] at hq
      cases hq
      exact hclears.trans (if_pos hdisk).symm
    · rw [hrest q hqp] at hq
      exact h.traffic.clears q d y hq
  · change s.published ++ [x.first] = s.taken ++ s'.availRing.contents
    rw [h.traffic.published, hcont, List.append_assoc]

theorem Inv.finish_step (h : Inv s) {b : B} {x : Idx} (hp : s.pc p = .wait b x)
    (hd : s.disk b = false) :
    ∃ s', freeChain (NUM + 1) { s with buf := Function.update s.buf x.first none } x.first = .ok s' ∧
      Inv ((s'.setLock none).setPc p .idle) := by
  have hform : (s.pc p).formatted = some (b, x) := by rw [hp]; rfl
  have hidx := (Pc.idx_of_formatted hform).1
  let s₀ := { s with buf := Function.update s.buf x.first none }
  have hchain : Chained s₀ x := ⟨(h.linked p b x hform).1.first, (h.linked p b x hform).1.second,
    (h.linked p b x hform).1.third⟩
  have hused : ∀ i ∈ x.toList, s₀.free i = false := by
    intro i hi
    refine Bool.eq_false_iff.mpr fun hfree => ?_
    exact (h.owners.free i).mp hfree p x hidx hi
  obtain ⟨s', hs', freed⟩ := freeChain_ok hchain (h.owners.distinct p x hidx) hused
  refine ⟨s', hs', ?_⟩
  -- apart from descriptors and sleepers the state is that before
  have hrest := freed.rest s'.desc s'.free s'.pc
  obtain ⟨hbuf, hsame⟩ : s'.buf = s₀.buf ∧ SameTraffic s ((s'.setLock none).setPc p .idle) := by
    change s' = _ at hrest
    rw [hrest]
    exact ⟨rfl, rfl, rfl, rfl, rfl, rfl, rfl, rfl, rfl, rfl, rfl, rfl, rfl, rfl, rfl⟩
  set s'' := (s'.setLock none).setPc p .idle
  have hself : s''.pc p = .idle := Function.update_self ..
  have hother : ∀ q, q ≠ p → (s''.pc q).Like (s.pc q) := by
    intro q hq
    have : s''.pc q = s'.pc q := Function.update_of_ne hq ..
    rw [this]
    exact freed.pc q
  have hne : ∀ q z, (s''.pc q).formatted = some z → q ≠ p := by
    rintro q z hq rfl
    rw [hself] at hq
    cases hq
  refine ⟨h.owners.release hp hother hself rfl freed.free, ?_, h.traffic.keep hsame ?_ ?_ ?_⟩
  · intro q c y hq
    have hqp := hne q _ hq
    rw [(hother q hqp).formatted] at hq
    obtain ⟨hc, hb⟩ := h.linked q c y hq
    have hfirst : y.first ≠ x.first := fun e => hqp (h.head_unique hq hform e)
    refine ⟨⟨?_, ?_, ?_⟩, ?_⟩
    · exact ⟨(freed.desc _).1.trans hc.first.1, (freed.desc _).2.trans hc.first.2⟩
    · exact ⟨(freed.desc _).1.trans hc.second.1, (freed.desc _).2.trans hc.second.2⟩
    · exact (freed.desc _).1.trans hc.third
    · change s'.buf y.first = some c
      rw [hbuf]
      exact (Function.update_of_ne hfirst ..).trans hb
  · intro q c y hq
    rw [← (hother q (hne q _ (Pc.formatted_of_pending hq))).pending]
    exact hq
  · intro q c y hq
    rw [← (hother q (hne q _ (Pc.formatted_of_sent hq))).sent]
    exact hq
  · intro q c y hq hc
    have hqp : q ≠ p := by
      rintro rfl
      rw [hp] at hq
      cases hq
      rw [hd] at hc
      cases hc
    rw [(hother q hqp).sent]
    exact hq

theorem Inv.move (h : Inv s) {o : Option (Fin N)} {k k₀ : Pc B} (hp : s.pc p = k₀)
    (hlock : Holds o Pc.locked (Function.update s.pc p k))
    (hk : k.buffer = k₀.buffer ∧ k.idx = k₀.idx ∧ k.formatted = k₀.formatted ∧ k.sent = k₀.sent ∧
      k.pending = k₀.pending) : Inv ((s.setLock o).setPc p k) :=
  h.keep ⟨rfl, rfl, rfl, rfl, rfl, rfl, rfl, rfl, rfl, rfl, rfl, rfl, rfl, rfl⟩ hlock
    (fun q => ⟨update_fun Pc.buffer hp hk.1 q, update_fun Pc.idx hp hk.2.1 q,
      update_fun Pc.formatted hp hk.2.2.1 q, update_fun Pc.sent hp hk.2.2.2.1 q,
      update_fun Pc.pending hp hk.2.2.2.2 q⟩)
    rfl (fun _ => ⟨rfl, rfl⟩) rfl

theorem Inv.freed (h : Inv s) {s' : State B N} (hf : Freed s s' (fun _ => false)) : Inv s' := by
  have hrest := hf.rest s'.desc s'.free s'.pc
  obtain ⟨hbuf, hlock, hsame⟩ : s'.buf = s.buf ∧ s'.lock = s.lock ∧ SameTraffic s s' := by
    change s' = _ at hrest
    rw [hrest]
    exact ⟨rfl, rfl, rfl, rfl, rfl, rfl, rfl, rfl, rfl, rfl, rfl, rfl, rfl, rfl, rfl, rfl⟩
  refine h.keep hsame ?_ (fun q => ?_) (funext hf.free) hf.desc hbuf
  · rw [hlock]
    exact Holds.like h.owners.lock hf.pc
  · exact ⟨(hf.pc q).buffer, (hf.pc q).idx, (hf.pc q).formatted, (hf.pc q).sent, (hf.pc q).pending⟩

theorem Inv.alloc_step (h : Inv s) {b : B} {w : Bool} {x : Idx} (hp : s.pc p = .alloc b w)
    (hx : x.toList.Nodup) (hf : ∀ i ∈ x.toList, s.free i = true) :
    Inv ({ s with free := fun i => !decide (i ∈ x.toList) && s.free i }.setPc p (.format b w x)) where
  owners := h.owners.take hp hx hf rfl rfl fun _ => rfl
  linked := h.linked.keep (update_fun Pc.formatted hp rfl) (fun _ => ⟨rfl, rfl⟩) rfl
  traffic := by
    refine h.traffic.keep
      ⟨rfl, rfl, rfl, rfl, rfl, rfl, rfl, rfl, rfl, rfl, rfl, rfl, rfl, rfl⟩ ?_ ?_ ?_
    · intro q c y hq
      rw [← update_fun Pc.pending hp (k := .format b w x) rfl q]
      exact hq
    · intro q c y hq
      rw [← update_fun Pc.sent hp (k := .format b w x) rfl q]
      exact hq
    · intro q c y hq _
      rw [← update_fun Pc.sent hp (k := .format b w x) rfl q] at hq
      exact hq

theorem Inv.rw_step (h : Inv s) {b : B} {w : Bool} (hp : s.pc p = .idle)
    (hb : ∀ q, (s.pc q).buffer ≠ some b) : Inv (s.setPc p (.lock b w)) where
  owners := h.owners.rw hp hb
  linked := h.linked.keep (update_fun Pc.formatted hp rfl) (fun _ => ⟨rfl, rfl⟩) rfl
  traffic := by
    refine h.traffic.keep
      ⟨rfl, rfl, rfl, rfl, rfl, rfl, rfl, rfl, rfl, rfl, rfl, rfl, rfl, rfl⟩ ?_ ?_ ?_
    · intro q c y hq
      rw [← update_fun Pc.pending hp (k := .lock b w) rfl q]
      exact hq
    · intro q c y hq
      rw [← update_fun Pc.sent hp (k := .lock b w) rfl q]
      exact hq
    · intro q c y hq _
      rw [← update_fun Pc.sent hp (k := .lock b w) rfl q] at hq
      exact hq

end Driver

end Xv6.Disk

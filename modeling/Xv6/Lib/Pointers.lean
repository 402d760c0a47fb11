import Mathlib.Logic.Function.Basic
import Mathlib.Tactic

namespace Xv6.Lib.Pointers

variable {α : Type} {next next' prev : α → α} {a b c z : α} {xs ys : List α}

def Links (next : α → α) : α → List α → α → Prop
  | a, [], z => next a = z
  | a, b :: xs, z => next a = b ∧ Links next b xs z

theorem links_append :
    Links next a (xs ++ b :: ys) z ↔ Links next a xs b ∧ Links next b ys z := by
  induction xs generalizing a with
  | nil => rfl
  | cons c xs ih => simp only [List.cons_append, Links, ih, and_assoc]

theorem Links.left (h : Links next a (xs ++ ys) z) : Links next a xs (ys.headD z) := by
  cases ys with
  | nil =>
    rw [List.append_nil] at h
    exact h
  | cons y ys => exact (links_append.mp h).1

theorem Links.right (h : Links next a (xs ++ ys) z) (hb : next b = ys.headD z) :
    Links next b ys z := by
  cases ys with
  | nil => exact hb
  | cons y ys => exact ⟨hb, (links_append.mp h).2⟩

theorem Links.join (hx : Links next a xs (ys.headD z)) (hy : Links next b ys z) :
    Links next a (xs ++ ys) z := by
  cases ys with
  | nil =>
    rw [List.append_nil]
    exact hx
  | cons y ys => exact links_append.mpr ⟨hx, hy.2⟩

theorem Links.congr (h : Links next a xs z) (he : ∀ c ∈ a :: xs, next' c = next c) :
    Links next' a xs z := by
  induction xs generalizing a with
  | nil =>
    have ha := he a List.mem_cons_self
    rw [Links, ha]
    exact h
  | cons b xs ih =>
    have ha := he a List.mem_cons_self
    refine ⟨?_, ih h.2 fun c hc => he c (List.mem_cons_of_mem a hc)⟩
    rw [ha]
    exact h.1

theorem getLastD_mem (xs : List α) (a : α) : xs.getLastD a ∈ a :: xs := by
  induction xs generalizing a with
  | nil => exact List.mem_cons_self
  | cons b xs ih =>
    rw [List.getLastD_cons]
    exact List.mem_cons_of_mem a (ih b)

theorem Links.next_last (h : Links next a xs z) : next (xs.getLastD a) = z := by
  induction xs generalizing a with
  | nil => exact h
  | cons b xs ih =>
    rw [List.getLastD_cons]
    exact ih h.2

theorem Links.next_mem (h : Links next a xs z) (hc : c ∈ a :: xs) : next c ∈ z :: xs := by
  induction xs generalizing a with
  | nil =>
    obtain rfl := List.mem_singleton.mp hc
    have hn : next c = z := h
    rw [hn]
    exact List.mem_cons_self
  | cons b xs ih =>
    obtain rfl | hc := List.mem_cons.mp hc
    · rw [h.1]
      exact List.mem_cons_of_mem z List.mem_cons_self
    · obtain he | hm := List.mem_cons.mp (ih h.2 hc)
      · exact List.mem_cons.mpr (.inl he)
      · exact List.mem_cons_of_mem z (List.mem_cons_of_mem b hm)

variable [DecidableEq α]

theorem Links.redirect (h : Links next a xs z) (hd : (a :: xs).Nodup) (w : α) :
    Links (Function.update next (xs.getLastD a) w) a xs w := by
  induction xs generalizing a with
  | nil => exact Function.update_self ..
  | cons b xs ih =>
    obtain ⟨ha, hd⟩ := List.nodup_cons.mp hd
    rw [List.getLastD_cons]
    refine ⟨?_, ih h.2 hd⟩
    have hne : a ≠ xs.getLastD b := by
      rintro rfl
      exact ha (getLastD_mem xs b)
    rw [Function.update_of_ne hne]
    exact h.1

omit [DecidableEq α] in
theorem last_not_mem (hd : (a :: (xs ++ ys)).Nodup) : xs.getLastD a ∉ ys := by
  rw [← List.cons_append] at hd
  exact fun hm => List.disjoint_of_nodup_append hd (getLastD_mem xs a) hm

theorem Links.insert (h : Links next a (xs ++ ys) a) (hd : (a :: (xs ++ ys)).Nodup)
    (hb : b ∉ a :: xs) (hn : next b = next (xs.getLastD a)) :
    Links (Function.update next (xs.getLastD a) b) a (xs ++ b :: ys) a := by
  have hdx : (a :: xs).Nodup := by
    rw [← List.cons_append] at hd
    exact (List.nodup_append.mp hd).1
  have hright : Links next b ys a := h.right (hn.trans h.left.next_last)
  refine links_append.mpr ⟨h.left.redirect hdx b, hright.congr fun c hc => ?_⟩
  apply Function.update_of_ne
  rintro rfl
  obtain heq | hc := List.mem_cons.mp hc
  · rw [← heq] at hb
    exact hb (getLastD_mem xs a)
  · exact last_not_mem hd hc

theorem Links.remove (h : Links next a (xs ++ b :: ys) a) (hd : (a :: (xs ++ b :: ys)).Nodup) :
    Links (Function.update next (xs.getLastD a) (next b)) a (xs ++ ys) a := by
  obtain ⟨hx, hy⟩ := links_append.mp h
  have hdx : (a :: xs).Nodup := by
    rw [← List.cons_append] at hd
    exact (List.nodup_append.mp hd).1
  have hhead : next b = ys.headD a := by
    have : Links next b ([] ++ ys) a := hy
    exact this.left
  have hx' := hx.redirect hdx (next b)
  have hy' : Links (Function.update next (xs.getLastD a) (next b)) b ys a := by
    refine hy.congr fun c hc => Function.update_of_ne ?_ _ _
    rintro rfl
    exact last_not_mem hd hc
  rw [hhead] at hx' hy' ⊢
  exact hx'.join hy'

omit [DecidableEq α] in
theorem getLastD_reverse (xs : List α) (a : α) : xs.reverse.getLastD a = xs.headD a := by
  rw [List.getLastD_eq_getLast?, List.getLast?_reverse, List.headD_eq_head?_getD]

structure Doubly (next prev : α → α) (a : α) (xs : List α) : Prop where
  nodup : (a :: xs).Nodup
  next_links : Links next a xs a
  prev_links : Links prev a xs.reverse a

omit [DecidableEq α] in
theorem Doubly.symm (h : Doubly next prev a xs) : Doubly prev next a xs.reverse := by
  refine ⟨?_, h.prev_links, ?_⟩
  · have hd := List.nodup_cons.mp h.nodup
    have hnot : a ∉ xs.reverse := fun hm => hd.1 (List.mem_reverse.mp hm)
    exact List.nodup_cons.mpr ⟨hnot, List.nodup_reverse.mpr hd.2⟩
  · rw [List.reverse_reverse]
    exact h.next_links

omit [DecidableEq α] in
theorem Doubly.single (hn : next a = a) (hp : prev a = a) : Doubly next prev a [] :=
  ⟨List.nodup_singleton a, hn, hp⟩

omit [DecidableEq α] in
theorem Doubly.next_head (h : Doubly next prev a xs) : next a = xs.headD a := by
  have : Links next a ([] ++ xs) a := h.next_links
  exact this.left

omit [DecidableEq α] in
theorem Doubly.next_mem (h : Doubly next prev a (xs ++ b :: ys)) : next b = ys.headD a := by
  have : Links next b ([] ++ ys) a := (links_append.mp h.next_links).2
  exact this.left

omit [DecidableEq α] in
theorem Doubly.prev_mem (h : Doubly next prev a (xs ++ b :: ys)) : prev b = xs.getLastD a := by
  have hs := h.symm
  rw [List.reverse_append, List.reverse_cons, List.append_assoc, List.singleton_append] at hs
  rw [hs.next_mem, ← getLastD_reverse, List.reverse_reverse]

omit [DecidableEq α] in
theorem Doubly.prev_next (h : Doubly next prev a xs) (hc : c ∈ a :: xs) : prev (next c) = c := by
  obtain rfl | hc := List.mem_cons.mp hc
  · rw [h.next_head, ← getLastD_reverse]
    exact h.prev_links.next_last
  · obtain ⟨ys, zs, rfl⟩ := List.append_of_mem hc
    have hp := h.prev_links
    rw [List.reverse_append, List.reverse_cons, List.append_assoc] at hp
    rw [h.next_mem, ← getLastD_reverse]
    exact (links_append.mp hp).1.next_last

theorem Doubly.remove (h : Doubly next prev a (xs ++ b :: ys)) :
    Doubly (Function.update next (prev b) (next b)) (Function.update prev (next b) (prev b)) a
      (xs ++ ys) := by
  have hd := h.nodup
  have hs := h.symm
  rw [List.reverse_append, List.reverse_cons, List.append_assoc, List.singleton_append] at hs
  refine ⟨hd.sublist ?_, ?_, ?_⟩
  · exact ((List.sublist_cons_self b ys).append_left xs).cons_cons a
  · rw [h.prev_mem]
    exact h.next_links.remove hd
  · rw [h.next_mem, ← getLastD_reverse, List.reverse_append]
    exact hs.next_links.remove hs.nodup

theorem Doubly.push (h : Doubly next prev a xs) (hb : b ∉ a :: xs) :
    Doubly (Function.update (Function.update next b (next a)) a b)
      (Function.update (Function.update prev b a) (next a) b) a (b :: xs) := by
  have hne : a ≠ b := fun e => hb (e ▸ List.mem_cons_self)
  have hbx : b ∉ xs := fun hm => hb (List.mem_cons_of_mem a hm)
  have hd := List.nodup_cons.mp h.nodup
  have hne' : ∀ c ∈ a :: xs, c ≠ b := by
    rintro c hc rfl
    exact hb hc
  have hnext : Links (Function.update next b (next a)) a xs a :=
    h.next_links.congr fun c hc => Function.update_of_ne (hne' c hc) ..
  have hprev : Links (Function.update prev b a) a xs.reverse a := by
    refine h.prev_links.congr fun c hc => Function.update_of_ne (hne' c ?_) ..
    simpa using hc
  refine ⟨?_, ?_, ?_⟩
  · refine List.nodup_cons.mpr ⟨?_, List.nodup_cons.mpr ⟨hbx, hd.2⟩⟩
    rw [List.mem_cons, not_or]
    exact ⟨hne, hd.1⟩
  · have hfront : Links (Function.update next b (next a)) a ([] ++ xs) a := hnext
    refine hfront.insert h.nodup ?_ ?_
    · simpa using hne.symm
    · rw [Function.update_self]
      exact (Function.update_of_ne hne ..).symm
  · rw [h.next_head, ← getLastD_reverse, List.reverse_cons]
    have hall : Links (Function.update prev b a) a (xs.reverse ++ []) a := by
      rw [List.append_nil]
      exact hprev
    refine hall.insert ?_ ?_ ?_
    · rw [List.append_nil]
      exact h.symm.nodup
    · simpa using hb
    · rw [Function.update_self]
      exact hprev.next_last.symm

end Xv6.Lib.Pointers

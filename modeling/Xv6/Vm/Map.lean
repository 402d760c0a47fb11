import Xv6.Vm.Tree

namespace Xv6.Vm

open Lib.Command

variable {s s' s'' : Phys} {root a w va vpn : Nat} {free free' free'' : List Nat}
  {n : List (Fin 512)} {k : Fin 512} {E : Panic → Prop}

def Chain (m : Mem) : Nat → List Nat → Prop
  | head, [] => head = 0
  | head, a :: free => head = a ∧ Chain m (m a 0) free

theorem Chain.congr {m m' : Mem} {head : Nat} (h : Chain m head free)
    (heq : ∀ a ∈ free, m' a = m a) : Chain m' head free := by
  induction free generalizing head with
  | nil => exact h
  | cons a free ih =>
    obtain ⟨rfl, h⟩ := h
    refine ⟨rfl, ?_⟩
    rw [heq head List.mem_cons_self]
    exact ih h fun b hb => heq b (List.mem_cons_of_mem _ hb)

/-- `free` is the free list, of distinct pages. -/
structure Pool (s : Phys) (free : List Nat) : Prop where
  chain : Chain s.mem s.freelist free
  nodup : free.Nodup
  page : ∀ a ∈ free, a ≠ 0 ∧ a % 4096 = 0 ∧ a < 2 ^ 64

structure Table (s : Phys) (root : Nat) (free : List Nat) : Prop where
  tree : Tree s.mem root
  pool : Pool s free
  apart : ∀ n, node s.mem root n ∉ free

structure Grows (root : Nat) (s : Phys) (free : List Nat) (s' : Phys) (free' : List Nat) : Prop where
  rest : free' ⊆ free
  keep : ∀ n, node s.mem root n ≠ 0 → node s'.mem root n = node s.mem root n
  fresh : ∀ n, node s.mem root n = 0 → node s'.mem root n = 0 ∨ node s'.mem root n ∈ free
  frame : ∀ a, a ∉ free → (∀ n, node s.mem root n ≠ a) → s'.mem a = s.mem a
  plain : Plain s.mem root → Plain s'.mem root

theorem Grows.refl (root : Nat) (s : Phys) (free : List Nat) : Grows root s free s free :=
  ⟨fun _ => id, fun _ _ => rfl, fun _ h => .inl h, fun _ _ _ => rfl, id⟩

theorem Grows.not_table (h : Grows root s free s' free') (ha : a ∉ free)
    (hnode : ∀ n, node s.mem root n ≠ a) : ∀ n, node s'.mem root n ≠ a := by
  intro n he
  by_cases hz : node s.mem root n = 0
  · obtain hz' | hm := h.fresh n hz
    · exact hnode n (by rw [hz, ← hz', he])
    · rw [he] at hm
      exact ha hm
  · rw [h.keep n hz] at he
    exact hnode n he

theorem Grows.trans (h : Grows root s free s' free') (h' : Grows root s' free' s'' free'') :
    Grows root s free s'' free'' := by
  have hsub : ∀ a, a ∈ free' → a ∈ free := fun _ ha => h.rest ha
  refine ⟨fun _ ha => h.rest (h'.rest ha), fun n hn => ?_, fun n hn => ?_, fun a ha hnode => ?_,
    fun hp => h'.plain (h.plain hp)⟩
  · have hk := h.keep n hn
    rw [h'.keep n (by rw [hk]; exact hn), hk]
  · obtain hz | hm := h.fresh n hn
    · exact (h'.fresh n hz).imp_right (hsub _)
    · by_cases hz : node s'.mem root n = 0
      · exact (h'.fresh n hz).imp_right (hsub _)
      · rw [h'.keep n hz]
        exact .inr hm
  · have ha' : a ∉ free' := fun hm => ha (hsub a hm)
    rw [h'.frame a ha' (h.not_table ha hnode), h.frame a ha hnode]

theorem load_meets {p : PtePtr} {Q : Nat → Phys → Prop} (h : Q (s.mem p.1 p.2) s) :
    Meets (load p) s Q E := by
  apply Meets.bind
  apply Meets.get
  exact Meets.pure h

theorem kalloc_meets (h : Pool s free) : Meets kalloc s (fun a s' =>
    (a = 0 ∧ ∃ f, s' = { s with fails := f }) ∨
    (a ≠ 0 ∧ ∃ free' f, free = a :: free' ∧ s' = ({ s with fails := f } : Phys).pop)) E := by
  apply Meets.bind
  apply Meets.get
  dsimp only
  split
  · apply Meets.bind
    refine Meets.modify (f := fun _ => _) ?_
    exact Meets.pure (.inl ⟨rfl, _, rfl⟩)
  next hc =>
    apply Meets.bind
    refine Meets.modify (f := fun _ => _) ?_
    apply Meets.pure
    have hne : s.freelist ≠ 0 := fun e => hc (.inr e)
    refine .inr ⟨hne, ?_⟩
    cases free with
    | nil => exact absurd h.chain hne
    | cons a free => exact ⟨free, _, by rw [h.chain.1], rfl⟩

theorem Table.fails (h : Table s root free) (f : List Bool) :
    Table { s with fails := f } root free :=
  ⟨h.tree, ⟨h.pool.chain, h.pool.nodup, h.pool.page⟩, h.apart⟩

theorem Grows.fails (root : Nat) (s : Phys) (free : List Nat) (f : List Bool) :
    Grows root s free { s with fails := f } free :=
  ⟨fun _ => id, fun _ _ => rfl, fun _ h => .inl h, fun _ _ _ => rfl, id⟩

theorem Tree.next_ne_zero (h : Tree s.mem root) (hn : n.length < 2)
    (ht : node s.mem root n ≠ 0) (hv : s.mem (node s.mem root n) k &&& PTE_V ≠ 0) :
    next s.mem (node s.mem root n) k ≠ 0 := by
  rw [next_of_valid ht hv]
  exact h.upper n k hn ht hv

/-- What a walk to the table at `n` finds. -/
def found (s : Phys) (root : Nat) (n : List (Fin 512)) : Option Nat :=
  if node s.mem root n = 0 then none else some (node s.mem root n)

theorem walkLevel_lookup (h : Tree s.mem root) (hn : n.length < 2)
    (ht : node s.mem root n ≠ 0) :
    walkLevel (node s.mem root n, k) false s = .ok (found s root (k :: n), s) := by
  rw [found, node_cons _ _ _ hn]
  by_cases hv : s.mem (node s.mem root n) k &&& PTE_V ≠ 0
  · rw [if_neg (h.next_ne_zero hn ht hv), next_of_valid ht hv]
    simp only [walkLevel, load, bind_assoc, pure_bind, get_bind, if_pos hv]
    rfl
  · rw [next_of_invalid (not_not.mp hv), if_pos rfl]
    simp only [walkLevel, load, bind_assoc, pure_bind, get_bind, if_neg hv]
    rfl

theorem lt_MAXVA {va : Nat} : ¬MAXVA ≤ va ↔ va < 2 ^ 38 := by
  rw [Nat.not_le]
  rfl

def pteAt (s : Phys) (root vpn : Nat) : Option PtePtr :=
  if node s.mem root (lowest vpn) = 0 then none
  else some (node s.mem root (lowest vpn), index 0 vpn)

theorem walk_lookup (h : Tree s.mem root) (hva : va < 2 ^ 38) (hvpn : va / 4096 = vpn) :
    walk root va false s = .ok (pteAt s root vpn, s) := by
  have hroot : node s.mem root [] ≠ 0 := h.root_ne
  have hfirst : walkLevel (root, index 2 vpn) false s = .ok (found s root [index 2 vpn], s) :=
    walkLevel_lookup h (by decide) hroot
  rw [walk, if_neg (lt_MAXVA.mpr hva), walkDown, PX_eq_index 2 hvpn, PX_eq_index 0 hvpn,
    bind_assoc, bind_of_ok hfirst, found]
  by_cases h2 : node s.mem root [index 2 vpn] = 0
  · have hlow : node s.mem root (lowest vpn) = 0 := by
      rw [lowest, node_cons _ _ _ (by simp), h2, next_zero]
    rw [if_pos h2, pteAt, if_pos hlow]
    rfl
  · have hsecond := walkLevel_lookup (k := index 1 vpn) h (by simp) h2
    rw [if_neg h2]
    dsimp only
    rw [walkDown, PX_eq_index 1 hvpn, bind_assoc, bind_of_ok hsecond, found, pteAt, lowest]
    by_cases h1 : node s.mem root [index 1 vpn, index 2 vpn] = 0
    · rw [if_pos h1, if_pos h1]
      rfl
    · rw [if_neg h1, if_neg h1]
      rfl

theorem node_ne_of_valid (h : entry s.mem root vpn &&& PTE_V ≠ 0) :
    node s.mem root (lowest vpn) ≠ 0 := by
  intro hz
  rw [entry, if_pos hz, Nat.zero_and] at h
  exact h rfl

theorem walk_valid (h : Tree s.mem root) (hlt : vpn < 2 ^ 26)
    (hvalid : entry s.mem root vpn &&& PTE_V ≠ 0) :
    walk root (vpn * 4096) false s = .ok (some (node s.mem root (lowest vpn), index 0 vpn), s) ∧
      s.mem (node s.mem root (lowest vpn)) (index 0 vpn) = entry s.mem root vpn := by
  have hne := node_ne_of_valid hvalid
  have hwalk := walk_lookup h (by omega) (Nat.mul_div_cancel vpn (by decide))
  rw [pteAt, if_neg hne] at hwalk
  refine ⟨hwalk, ?_⟩
  rw [entry, if_neg hne]

theorem Table.missing (h : Table s root (a :: free)) (hn : n.length < 2)
    (ht : node s.mem root n ≠ 0) (hv : s.mem (node s.mem root n) k &&& PTE_V = 0) :
    Missing s.mem root n k a := by
  obtain ⟨hne, hal, hlt⟩ := h.pool.page a List.mem_cons_self
  refine ⟨hn, ht, hv, hne, hal, hlt, fun n he => h.apart n ?_⟩
  rw [he]
  exact List.mem_cons_self

theorem Table.link (h : Table s root (a :: free)) (hl : Missing s.mem root n k a)
    (hm : s'.mem = link s.mem (node s.mem root n) k a) (hf : s'.freelist = s.mem a 0) :
    Table s' root free := by
  obtain ⟨hne, hnd⟩ := List.nodup_cons.mp h.pool.nodup
  have hnode := link_node h.tree hl
  refine ⟨?_, ⟨?_, hnd, fun b hb => h.pool.page b (List.mem_cons_of_mem a hb)⟩, fun q hq => ?_⟩
  · rw [hm]
    exact link_tree h.tree hl
  · rw [hm, hf]
    refine h.pool.chain.2.congr fun b hb => link_other ?_ ?_
    · rintro rfl
      exact h.apart n (List.mem_cons_of_mem a hb)
    · rintro rfl
      exact hne hb
  · rw [hm, hnode] at hq
    split at hq
    · exact hne hq
    · exact h.apart q (List.mem_cons_of_mem a hq)

theorem Table.link_grows (h : Table s root (a :: free)) (hl : Missing s.mem root n k a)
    (hm : s'.mem = Vm.link s.mem (node s.mem root n) k a) :
    Grows root s (a :: free) s' free := by
  have hnode := link_node h.tree hl
  refine ⟨fun _ => List.mem_cons_of_mem a, fun q hq => ?_, fun q hq => ?_, fun b hb hnb => ?_,
    fun hp => ?_⟩
  · have hqk : q ≠ k :: n := by
      rintro rfl
      exact hq hl.node_eq
    rw [hm, hnode, if_neg hqk]
  · rw [hm, hnode]
    split
    · exact .inr List.mem_cons_self
    · exact .inl hq
  · rw [hm]
    refine link_other (hnb n).symm ?_
    rintro rfl
    exact hb List.mem_cons_self
  · rw [hm]
    exact link_plain h.tree hl hp

theorem walkLevel_alloc (h : Table s root free) (hn : n.length < 2) (ht : node s.mem root n ≠ 0) :
    Meets (walkLevel (node s.mem root n, k) true) s
      (fun r s' => ∃ free', Table s' root free' ∧ Grows root s free s' free' ∧
        (∀ v, entry s'.mem root v = entry s.mem root v) ∧
        ∀ t, r = some t → t = node s'.mem root (k :: n) ∧ t ≠ 0) E := by
  apply Meets.bind
  apply load_meets
  split
  next hv =>
    apply Meets.pure
    refine ⟨free, h, .refl root s free, fun _ => rfl, fun t he => ?_⟩
    have hnext := h.tree.next_ne_zero hn ht hv
    rw [next_of_valid ht hv] at hnext
    obtain rfl := Option.some.inj he
    rw [node_cons _ _ _ hn, next_of_valid ht hv]
    exact ⟨rfl, hnext⟩
  next hv =>
    simp only [Bool.not_true, Bool.false_eq_true, if_false]
    apply Meets.seq (kalloc_meets h.pool)
    rintro a s₁ (⟨rfl, f, rfl⟩ | ⟨ha, free', f, rfl, rfl⟩)
    · rw [if_pos rfl]
      exact Meets.pure ⟨free, h.fails f, .fails root s free f, fun _ => rfl, nofun⟩
    · rw [if_neg ha]
      refine Meets.bind (Meets.modify (Meets.bind (Meets.modify (Meets.pure ?_))))
      have hl := h.missing hn ht (not_not.mp hv)
      have hhead : s.freelist = a := h.pool.chain.1
      have hm : ((Phys.setPage (Phys.pop { s with fails := f }) a (.fill 0)).setWord
          (node s.mem root n) k (PA2PTE a ||| PTE_V)).mem = link s.mem (node s.mem root n) k a := by
        simp [Phys.setPage, Phys.setWord, Phys.pop, link, hhead,
          Function.update_of_ne (hl.new n)]
      refine ⟨free', h.link hl hm ?_, h.link_grows hl hm, fun v => ?_, fun t he => ?_⟩
      · change s.mem s.freelist 0 = s.mem a 0
        rw [hhead]
      · rw [hm]
        exact link_entry h.tree hl v
      · obtain rfl := Option.some.inj he
        rw [hm, link_node h.tree hl, if_pos rfl]
        exact ⟨rfl, ha⟩

theorem walk_alloc (h : Table s root free) (hva : va < 2 ^ 38) (hvpn : va / 4096 = vpn) :
    Meets (walk root va true) s
      (fun r s' => ∃ free', Table s' root free' ∧ Grows root s free s' free' ∧
        (∀ v, entry s'.mem root v = entry s.mem root v) ∧
        ∀ p, r = some p → p = (node s'.mem root (lowest vpn), index 0 vpn) ∧
          node s'.mem root (lowest vpn) ≠ 0) E := by
  have hroot : node s.mem root [] ≠ 0 := h.tree.root_ne
  rw [walk, if_neg (lt_MAXVA.mpr hva), walkDown, PX_eq_index 2 hvpn, PX_eq_index 0 hvpn, bind_assoc]
  apply Meets.seq (walkLevel_alloc h (by decide) hroot)
  rintro r s₁ ⟨free₁, h₁, hg₁, he₁, hr₁⟩
  cases r with
  | none => exact Meets.pure ⟨free₁, h₁, hg₁, he₁, nofun⟩
  | some t =>
    obtain ⟨ht, hne⟩ := hr₁ t rfl
    rw [ht] at hne
    dsimp only
    rw [walkDown, PX_eq_index 1 hvpn, bind_assoc, ht]
    apply Meets.seq (walkLevel_alloc h₁ (by simp) hne)
    rintro r s₂ ⟨free₂, h₂, hg₂, he₂, hr₂⟩
    have he : ∀ v, entry s₂.mem root v = entry s.mem root v := fun v => (he₂ v).trans (he₁ v)
    cases r with
    | none => exact Meets.pure ⟨free₂, h₂, hg₁.trans hg₂, he, nofun⟩
    | some t' =>
      obtain ⟨ht', hne'⟩ := hr₂ t' rfl
      refine Meets.pure ⟨free₂, h₂, hg₁.trans hg₂, he, fun p hp => ?_⟩
      obtain rfl := Option.some.inj hp
      rw [ht'] at hne' ⊢
      exact ⟨rfl, hne'⟩

end Xv6.Vm

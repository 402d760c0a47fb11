import Xv6.Vm.PageTable

namespace Xv6.Vm

/-- The table that entry `i` of the page table at `t` points to, or 0. -/
def next (m : Mem) (t : Nat) (i : Fin 512) : Nat :=
  if t ≠ 0 ∧ m t i &&& PTE_V ≠ 0 then PTE2PA (m t i) else 0

/-- The page tables of the tree at `root`, by the indices that lead to them, the
latest first. There are three levels. -/
def node (m : Mem) (root : Nat) : List (Fin 512) → Nat
  | [] => root
  | i :: n => if n.length < 2 then next m (node m root n) i else 0

def index (level vpn : Nat) : Fin 512 := ⟨vpn / 512 ^ level % 512, Nat.mod_lt _ (by decide)⟩

def lowest (vpn : Nat) : List (Fin 512) := [index 1 vpn, index 2 vpn]

def entry (m : Mem) (root vpn : Nat) : Nat :=
  if node m root (lowest vpn) = 0 then 0 else m (node m root (lowest vpn)) (index 0 vpn)

variable {m m' : Mem} {root t a w : Nat} {n : List (Fin 512)} {k : Fin 512} {vpn : Nat}

theorem next_zero (m : Mem) (i : Fin 512) : next m 0 i = 0 := by
  simp [next]

theorem next_congr (h : t ≠ 0 → m' t = m t) (i : Fin 512) : next m' t i = next m t i := by
  by_cases ht : t = 0
  · rw [ht, next_zero, next_zero]
  · rw [next, next, h ht]

theorem next_of_valid (ht : t ≠ 0) (hv : m t k &&& PTE_V ≠ 0) : next m t k = PTE2PA (m t k) := by
  rw [next, if_pos ⟨ht, hv⟩]

theorem next_of_invalid (hv : m t k &&& PTE_V = 0) : next m t k = 0 := by
  rw [next, if_neg (fun h => h.2 hv)]

theorem node_cons (m : Mem) (root : Nat) (i : Fin 512) (hn : n.length < 2) :
    node m root (i :: n) = next m (node m root n) i := by
  rw [node, if_pos hn]

theorem node_long (m : Mem) (root : Nat) (i : Fin 512) (hn : ¬n.length < 2) :
    node m root (i :: n) = 0 := by
  rw [node, if_neg hn]

theorem node_congr
    (h : ∀ n, n.length < 2 → node m root n ≠ 0 → m' (node m root n) = m (node m root n))
    (n : List (Fin 512)) : node m' root n = node m root n := by
  induction n with
  | nil => rfl
  | cons i n ih =>
    rw [node, node, ih]
    split
    next hn => exact next_congr (h n hn) i
    next => rfl

theorem lowest_length (vpn : Nat) : (lowest vpn).length = 2 := rfl

theorem index_inj {vpn' : Nat} (h : vpn < 2 ^ 27) (h' : vpn' < 2 ^ 27)
    (hlow : lowest vpn = lowest vpn') (h0 : index 0 vpn = index 0 vpn') : vpn = vpn' := by
  simp only [lowest, List.cons.injEq, index, Fin.mk.injEq, and_true] at hlow h0
  omega

theorem PX_eq_index {va : Nat} (level : Nat) (h : va / 4096 = vpn) :
    PX level va = index level vpn := by
  apply Fin.ext
  change _ = vpn / 512 ^ level % 512
  rw [PX_val, ← h, Nat.div_div_eq_div_mul, Nat.pow_add, Nat.pow_mul]

structure Tree (m : Mem) (root : Nat) : Prop where
  root_ne : root ≠ 0
  inj : ∀ n n', node m root n ≠ 0 → node m root n = node m root n' → n = n'
  upper : ∀ n k, n.length < 2 → node m root n ≠ 0 → m (node m root n) k &&& PTE_V ≠ 0 →
    PTE2PA (m (node m root n) k) ≠ 0

def Plain (m : Mem) (root : Nat) : Prop :=
  ∀ n k, n.length < 2 → node m root n ≠ 0 → m (node m root n) k &&& PTE_V ≠ 0 →
    m (node m root n) k &&& (PTE_R ||| PTE_W ||| PTE_X) = 0

theorem Plain.congr (h : Plain m root)
    (heq : ∀ n, n.length < 2 → node m root n ≠ 0 → m' (node m root n) = m (node m root n)) :
    Plain m' root := by
  intro n k hn hne hv
  rw [node_congr heq] at hne hv ⊢
  rw [heq n hn hne] at hv ⊢
  exact h n k hn hne hv

def putEntry (m : Mem) (root vpn w : Nat) : Mem :=
  Function.update m (node m root (lowest vpn))
    (Function.update (m (node m root (lowest vpn))) (index 0 vpn) w)

/-- A page `a` of zeroes becomes a table: entry `k` of table `t` points to it. -/
def link (m : Mem) (t : Nat) (k : Fin 512) (a : Nat) : Mem :=
  Function.update (Function.update m a (Page.fill 0)) t
    (Function.update (m t) k (PA2PTE a ||| PTE_V))

section PutEntry

variable (h : Tree m root) (hne : node m root (lowest vpn) ≠ 0)

include h

theorem putEntry_upper (vpn w : Nat) (hn : n.length < 2) (hz : node m root n ≠ 0) :
    putEntry m root vpn w (node m root n) = m (node m root n) := by
  apply Function.update_of_ne
  intro heq
  rw [h.inj n _ hz heq, lowest_length] at hn
  omega

theorem putEntry_node (vpn w : Nat) (n : List (Fin 512)) :
    node (putEntry m root vpn w) root n = node m root n := by
  apply node_congr
  intro n hn hz
  exact putEntry_upper h vpn w hn hz

theorem putEntry_tree (vpn w : Nat) : Tree (putEntry m root vpn w) root := by
  have hnode := putEntry_node h vpn w
  refine ⟨h.root_ne, fun n n' hn he => ?_, fun n k hn hnz hv => ?_⟩
  · rw [hnode] at hn
    rw [hnode, hnode] at he
    exact h.inj n n' hn he
  · rw [hnode] at hnz hv ⊢
    rw [putEntry_upper h vpn w hn hnz] at hv ⊢
    exact h.upper n k hn hnz hv

include hne in
theorem putEntry_entry {vpn' : Nat} (hlt : vpn < 2 ^ 27) (hlt' : vpn' < 2 ^ 27) :
    entry (putEntry m root vpn w) root vpn' = if vpn' = vpn then w else entry m root vpn' := by
  have hnode := putEntry_node h vpn w
  rw [entry, entry, hnode]
  by_cases he : vpn' = vpn
  · subst he
    rw [if_neg hne, if_pos rfl, putEntry, Function.update_self, Function.update_self]
  · rw [if_neg he]
    split
    · rfl
    next hz =>
      by_cases hlow : node m root (lowest vpn') = node m root (lowest vpn)
      · have hl := h.inj _ _ hz hlow
        have hidx : index 0 vpn' ≠ index 0 vpn := fun hi => he (index_inj hlt' hlt hl hi)
        rw [putEntry, hlow, Function.update_self, Function.update_of_ne hidx]
      · rw [putEntry, Function.update_of_ne hlow]

end PutEntry

theorem link_self : link m t k a t k = PA2PTE a ||| PTE_V := by
  rw [link, Function.update_self, Function.update_self]

theorem link_ne {j : Fin 512} (hj : j ≠ k) : link m t k a t j = m t j := by
  rw [link, Function.update_self, Function.update_of_ne hj]

theorem link_other {b : Nat} (hb : b ≠ t) (hba : b ≠ a) : link m t k a b = m b := by
  rw [link, Function.update_of_ne hb, Function.update_of_ne hba]

/-- Entry `k` of the table at `n` has no table yet, and `a` is a page that can become one. -/
structure Missing (m : Mem) (root : Nat) (n : List (Fin 512)) (k : Fin 512) (a : Nat) : Prop where
  short : n.length < 2
  table : node m root n ≠ 0
  invalid : m (node m root n) k &&& PTE_V = 0
  ne_zero : a ≠ 0
  aligned : a % 4096 = 0
  lt : a < 2 ^ 64
  new : ∀ n, node m root n ≠ a

section Link

variable (h : Tree m root) (hl : Missing m root n k a)

include hl

theorem Missing.node_eq : node m root (k :: n) = 0 := by
  rw [node_cons m root k hl.short, next_of_invalid hl.invalid]

theorem Missing.PTE2PA : PTE2PA (PA2PTE a ||| PTE_V) = a := by
  have hentry : Xv6.PTE2PA (PA2PTE a ||| 0 ||| PTE_V) = a :=
    PTE2PA_entry (by decide) hl.aligned hl.lt
  rwa [Nat.or_zero] at hentry

theorem link_new (j : Fin 512) : link m (node m root n) k a a j = 0 := by
  rw [link, Function.update_of_ne (hl.new n).symm, Function.update_self]
  rfl

include h

theorem link_node (n' : List (Fin 512)) :
    node (link m (node m root n) k a) root n' = if n' = k :: n then a else node m root n' := by
  induction n' with
  | nil => rfl
  | cons j q ih =>
    by_cases hq : q.length < 2
    · rw [node_cons _ _ _ hq, node_cons _ _ _ hq, ih]
      by_cases hqk : q = k :: n
      · -- the new table is empty
        subst hqk
        have hzero : link m (node m root n) k a a j &&& PTE_V = 0 := by
          rw [link_new hl, Nat.zero_and]
        rw [if_pos rfl, next_of_invalid hzero, hl.node_eq, next_zero, if_neg]
        intro he
        have := congrArg List.length he
        simp at this
      · rw [if_neg hqk]
        by_cases hz : node m root q = 0
        · have hjq : j :: q ≠ k :: n := by
            rintro he
            cases he
            exact hl.table hz
          rw [hz, next_zero, next_zero, if_neg hjq]
        · by_cases ht : node m root q = node m root n
          · obtain rfl := h.inj q n hz ht
            by_cases hj : j = k
            · subst hj
              have hvalid : (PA2PTE a ||| PTE_V) &&& PTE_V ≠ 0 := PA2PTE_valid a
              rw [← link_self] at hvalid
              rw [if_pos rfl, next_of_valid hz hvalid, link_self, hl.PTE2PA]
            · rw [if_neg (by simpa using hj), next, next, link_ne hj]
          · have hw : link m (node m root n) k a (node m root q) = m (node m root q) :=
              link_other ht (hl.new q)
            have hjq : j :: q ≠ k :: n := by
              intro he
              cases he
              exact ht rfl
            rw [next_congr (fun _ => hw), if_neg hjq]
    · have hjq : j :: q ≠ k :: n := by
        intro he
        cases he
        exact hq hl.short
      rw [node_long _ _ _ hq, node_long _ _ _ hq, if_neg hjq]

theorem link_tree : Tree (link m (node m root n) k a) root := by
  have hnode := link_node h hl
  refine ⟨h.root_ne, fun q q' hq he => ?_, fun q j hq hz hval => ?_⟩
  · rw [hnode] at hq
    rw [hnode, hnode] at he
    split at he
    next hqk =>
      split at he
      next hqk' => rw [hqk, hqk']
      next => exact absurd he.symm (hl.new q')
    next hqk =>
      rw [if_neg hqk] at hq
      split at he
      next => exact absurd he (hl.new q)
      next => exact h.inj q q' hq he
  · rw [hnode] at hz hval ⊢
    split at hz
    next hqk =>
      rw [if_pos hqk, link_new hl, Nat.zero_and] at hval
      exact absurd rfl hval
    next hqk =>
      rw [if_neg hqk] at hval ⊢
      by_cases ht : node m root q = node m root n
      · rw [ht] at hval ⊢
        by_cases hj : j = k
        · subst hj
          rw [link_self, hl.PTE2PA]
          exact hl.ne_zero
        · rw [link_ne hj] at hval ⊢
          exact h.upper n j hl.short hl.table hval
      · rw [link_other ht (hl.new q)] at hval ⊢
        exact h.upper q j hq hz hval

theorem link_plain (hp : Plain m root) : Plain (link m (node m root n) k a) root := by
  intro q j hq hz hval
  rw [link_node h hl] at hz hval ⊢
  split at hz
  next hqk =>
    rw [if_pos hqk, link_new hl, Nat.zero_and] at hval
    exact absurd rfl hval
  next hqk =>
    rw [if_neg hqk] at hval ⊢
    by_cases ht : node m root q = node m root n
    · rw [ht] at hval ⊢
      by_cases hj : j = k
      · subst hj
        rw [link_self]
        exact PA2PTE_plain a
      · rw [link_ne hj] at hval ⊢
        exact hp n j hl.short hl.table hval
    · rw [link_other ht (hl.new q)] at hval ⊢
      exact hp q j hq hz hval

theorem link_entry (vpn : Nat) :
    entry (link m (node m root n) k a) root vpn = entry m root vpn := by
  rw [entry, entry, link_node h hl]
  by_cases hlow : lowest vpn = k :: n
  · rw [if_pos hlow, hlow, hl.node_eq, if_pos rfl, if_neg hl.ne_zero, link_new hl]
  · rw [if_neg hlow]
    split
    · rfl
    next hz =>
      have ht : node m root (lowest vpn) ≠ node m root n := by
        intro heq
        have hn := hl.short
        rw [← h.inj _ n hz heq, lowest_length] at hn
        omega
      rw [link_other ht (hl.new _)]

end Link

end Xv6.Vm

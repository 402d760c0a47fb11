import Xv6.Vm.Grow

namespace Xv6.Vm

open Lib.Command

variable {m : Mem} {s s' : Phys} {root a : Nat} {free free' : List Nat}
  {n : List (Fin 512)} {i k : Fin 512}

/-- Page `a` is a table of the tree, from the table at `n` on down. -/
def Below (m : Mem) (root : Nat) (n : List (Fin 512)) (a : Nat) : Prop :=
  a ≠ 0 ∧ ∃ q, n <:+ q ∧ node m root q = a

def Intact (m : Mem) (root : Nat) (n : List (Fin 512)) (s : Phys) : Prop :=
  ∀ a, Below m root n a → s.mem a = m a

structure Freed (m : Mem) (root : Nat) (n : List (Fin 512)) (s : Phys) (free : List Nat) (s' : Phys)
    (free' : List Nat) : Prop where
  pool : Pool s' free'
  free : ∀ a ∈ free', a ∈ free ∨ Below m root n a
  frame : ∀ a, ¬Below m root n a → s'.mem a = s.mem a

structure Swept (m : Mem) (root : Nat) (n : List (Fin 512)) (s : Phys) (free : List Nat)
    (done : List (Fin 512)) (s' : Phys) (free' : List Nat) : Prop where
  pool : Pool s' free'
  free : ∀ a ∈ free', a ∈ free ∨ ∃ k ∈ done, Below m root (k :: n) a
  frame : ∀ a, ¬Below m root n a → s'.mem a = s.mem a
  word : ∀ k, k ∉ done → s'.mem (node m root n) k = m (node m root n) k
  rest : ∀ k, k ∉ done → Intact m root (k :: n) s'

theorem Below.self (h : node m root n ≠ 0) : Below m root n (node m root n) :=
  ⟨h, n, List.suffix_rfl, rfl⟩

theorem Below.of_cons (h : Below m root (k :: n) a) : Below m root n a := by
  obtain ⟨hne, q, hq, rfl⟩ := h
  exact ⟨hne, q, (List.suffix_cons k n).trans hq, rfl⟩

section Disjoint

variable (ht : Tree m root)

include ht

theorem Below.ne_node (h : Below m root (k :: n) a) : a ≠ node m root n := by
  obtain ⟨hne, q, hq, rfl⟩ := h
  intro he
  obtain rfl := ht.inj q n hne he
  have := hq.length_le
  simp at this

theorem Below.unique (h : Below m root (k :: n) a) (h' : Below m root (i :: n) a) : k = i := by
  obtain ⟨hne, q, hq, rfl⟩ := h
  obtain ⟨-, q', hq', he⟩ := h'
  obtain rfl := ht.inj q q' hne he.symm
  have heq := List.IsSuffix.eq_of_length (List.suffix_of_suffix_length_le hq hq' le_rfl) rfl
  exact (List.cons.inj heq).1

end Disjoint

theorem Swept.skip {done : List (Fin 512)} (h : Swept m root n s free done s' free') (i : Fin 512) :
    Swept m root n s free (done ++ [i]) s' free' := by
  have hout : ∀ k, k ∉ done ++ [i] → k ∉ done := fun k hk hm => hk (List.mem_append_left _ hm)
  refine ⟨h.pool, fun a ha => ?_, h.frame, fun k hk => h.word k (hout k hk),
    fun k hk => h.rest k (hout k hk)⟩
  refine (h.free a ha).imp_right ?_
  rintro ⟨k, hk, hb⟩
  exact ⟨k, List.mem_append_left _ hk, hb⟩

theorem Swept.step {done : List (Fin 512)} {s₁ s₂ : Phys} {free₁ free₂ : List Nat}
    (h : Swept m root n s free done s₁ free₁) (ht : Tree m root) (hn : node m root n ≠ 0)
    (hfree : ∀ a ∈ free, ¬Below m root n a) (hf : Freed m root (i :: n) s₁ free₁ s₂ free₂) :
    Swept m root n s free (done ++ [i]) (s₂.setWord (node m root n) i 0) free₂ := by
  have hself : ¬Below m root (i :: n) (node m root n) := fun hb => hb.ne_node ht rfl
  have hother : ∀ b, b ≠ node m root n → (s₂.setWord (node m root n) i 0).mem b = s₂.mem b :=
    fun b hb => Function.update_of_ne hb ..
  have hlist : ∀ b ∈ free₂, b ∈ free ∨ ∃ k ∈ done ++ [i], Below m root (k :: n) b := by
    intro b hb
    obtain hb | hb := hf.free b hb
    · refine (h.free b hb).imp_right ?_
      rintro ⟨k, hk, hb⟩
      exact ⟨k, List.mem_append_left _ hk, hb⟩
    · exact .inr ⟨i, by simp, hb⟩
  have hout : ∀ k, k ∉ done ++ [i] → k ∉ done ∧ k ≠ i := by
    intro k hk
    simpa [not_or] using hk
  refine ⟨hf.pool.congr rfl fun b hb => hother b ?_, hlist, fun b hb => ?_, fun k hk => ?_,
    fun k hk b hb => ?_⟩
  · obtain hb | ⟨k, -, hb⟩ := hlist b hb
    · rintro rfl
      exact hfree _ hb (.self hn)
    · exact hb.ne_node ht
  · have hne : b ≠ node m root n := by
      rintro rfl
      exact hb (.self hn)
    rw [hother b hne, hf.frame b fun hi => hb hi.of_cons, h.frame b hb]
  · obtain ⟨hk, hki⟩ := hout k hk
    have hword : (s₂.setWord (node m root n) i 0).mem (node m root n) k =
        s₂.mem (node m root n) k := by
      simp [Phys.setWord, Phys.setPage, hki]
    rw [hword, hf.frame _ hself]
    exact h.word k hk
  · obtain ⟨hk, hki⟩ := hout k hk
    rw [hother b (hb.ne_node ht), hf.frame b fun hi => hki (hb.unique ht hi)]
    exact h.rest k hk b hb

theorem exists_vpn (i j k : Fin 512) : ∃ v, v < 2 ^ 27 ∧ lowest v = [i, j] ∧ index 0 v = k := by
  refine ⟨j * 2 ^ 18 + i * 2 ^ 9 + k, by omega, ?_, ?_⟩
  · simp only [lowest, List.cons.injEq, and_true, Fin.ext_iff, index]
    omega
  · simp only [Fin.ext_iff, index]
    omega

theorem leafless_of_entry (h : ∀ v, v < 2 ^ 27 → entry m root v &&& PTE_V = 0)
    (hn : n.length = 2) (hne : node m root n ≠ 0) (k : Fin 512) :
    m (node m root n) k &&& PTE_V = 0 := by
  obtain ⟨i, j, rfl⟩ := List.length_eq_two.mp hn
  obtain ⟨v, hv, hlow, rfl⟩ := exists_vpn i j k
  have he := h v hv
  rwa [entry, hlow, if_neg hne] at he

variable [KernelImage]

structure Hollow (m : Mem) (root : Nat) : Prop where
  tree : Tree m root
  plain : Plain m root
  leafless : ∀ n k, n.length = 2 → node m root n ≠ 0 → m (node m root n) k &&& PTE_V = 0
  pages : ∀ n, node m root n ≠ 0 → IsPage (node m root n)

theorem freewalk_meets {depth : Nat} (h : Hollow m root) (hdepth : n.length + depth = 3)
    (hn : node m root n ≠ 0) (hin : Intact m root n s) (hpool : Pool s free)
    (hfree : ∀ a ∈ free, ¬Below m root n a) :
    Meets (freewalk depth (node m root n)) s (fun _ s' => ∃ free', Freed m root n s free s' free')
      (fun _ => False) := by
  induction depth generalizing n s free with
  | zero =>
    -- there is no fourth level
    cases n with
    | nil => simp at hdepth
    | cons i n =>
      have hlong : ¬n.length < 2 := by
        rw [List.length_cons] at hdepth
        omega
      exact absurd (node_long m root i hlong) hn
  | succ depth ih =>
    rw [freewalk]
    refine Meets.seq (Meets.forM (fun done s' => ∃ free', Swept m root n s free done s' free') ?_ ?_) ?_
    · exact ⟨free, hpool, fun a ha => .inl ha, fun _ _ => rfl,
        fun k _ => congrFun (hin _ (.self hn)) k, fun k _ a ha => hin a ha.of_cons⟩
    · rintro done i rest s₁ hlist ⟨free₁, hs⟩
      have hi : i ∉ done := by
        have hnd := List.nodup_finRange 512
        rw [hlist] at hnd
        exact fun hm => (List.nodup_append.mp hnd).2.2 i hm i List.mem_cons_self rfl
      apply Meets.bind
      apply load_meets
      rw [hs.word i hi]
      by_cases hv : m (node m root n) i &&& PTE_V ≠ 0
      · have hshort : n.length < 2 := by
          by_contra hlong
          exact hv (h.leafless n i (by omega) hn)
        have hnext : PTE2PA (m (node m root n) i) = node m root (i :: n) := by
          rw [node_cons _ _ _ hshort, next_of_valid hn hv]
        have hne : node m root (i :: n) ≠ 0 := by
          rw [← hnext]
          exact h.tree.upper n i hshort hn hv
        rw [if_pos ⟨hv, h.plain n i hshort hn hv⟩, hnext]
        refine Meets.seq (ih ?_ hne (hs.rest i hi) hs.pool ?_) ?_
        · rw [List.length_cons]
          omega
        · intro a ha hb
          obtain ha | ⟨k, hk, hbk⟩ := hs.free a ha
          · exact hfree a ha hb.of_cons
          · rw [hbk.unique h.tree hb] at hk
            exact hi hk
        · rintro _ s₂ ⟨free₂, hf⟩
          exact Meets.modify ⟨free₂, hs.step h.tree hn hfree hf⟩
      · rw [if_neg (fun hc => hv hc.1), if_neg hv]
        exact Meets.pure ⟨free₁, hs.skip i⟩
    · rintro _ s₁ ⟨free₁, hs⟩
      refine kfree_meets (h.pages n hn) ⟨_, hs.pool.push (h.pages n hn) ?_, fun a ha => ?_, fun a ha => ?_⟩
      · intro hm
        obtain hm | ⟨k, -, hb⟩ := hs.free _ hm
        · exact hfree _ hm (.self hn)
        · exact hb.ne_node h.tree rfl
      · obtain rfl | ha := List.mem_cons.mp ha
        · exact .inr (.self hn)
        · refine (hs.free a ha).imp_right ?_
          rintro ⟨k, -, hb⟩
          exact hb.of_cons
      · rw [← hs.frame a ha]
        refine Function.update_of_ne ?_ ..
        rintro rfl
        exact ha (.self hn)

end Xv6.Vm

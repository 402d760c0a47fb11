import Xv6.Vm.Map

namespace Xv6.Vm

open Lib.Command

variable {s s' : Phys} {root a w va vpn pa perm : Nat} {free free' : List Nat}

def mapping (m : Mem) (root vpn : Nat) : Option (Nat × Nat) :=
  if entry m root vpn &&& PTE_V = 0 then none
  else some (PTE2PA (entry m root vpn), PTE_FLAGS (entry m root vpn))

/-- The entry `walk` finds for an address. -/
def lookup (root va : Nat) : VmM (Option (Nat × Nat)) := do
  match ← walk root va false with
  | none => return none
  | some pte => do
    let w ← load pte
    if w &&& PTE_V = 0 then return none else return some (PTE2PA w, PTE_FLAGS w)

theorem lookup_eq (h : Table s root free) (hva : va < 2 ^ 38) (hvpn : va / 4096 = vpn) :
    lookup root va s = .ok (mapping s.mem root vpn, s) := by
  rw [lookup, bind_of_ok (walk_lookup h.tree hva hvpn), pteAt, mapping, entry]
  by_cases hz : node s.mem root (lowest vpn) = 0
  · rw [if_pos hz, if_pos hz, Nat.zero_and, if_pos rfl]
    rfl
  · rw [if_neg hz, if_neg hz]
    simp only [load, bind_assoc, pure_bind, get_bind]
    split <;> rfl

theorem setWord_mem (s : Phys) (root vpn w : Nat) :
    (s.setWord (node s.mem root (lowest vpn)) (index 0 vpn) w).mem = putEntry s.mem root vpn w :=
  rfl

theorem Table.put (h : Table s root free) (vpn w : Nat) :
    Table (s.setWord (node s.mem root (lowest vpn)) (index 0 vpn) w) root free := by
  refine ⟨putEntry_tree h.tree vpn w, ⟨?_, h.pool.nodup, h.pool.page⟩, fun n hn => ?_⟩
  · refine h.pool.chain.congr fun b hb => Function.update_of_ne ?_ ..
    rintro rfl
    exact h.apart _ hb
  · rw [setWord_mem, putEntry_node h.tree] at hn
    exact h.apart n hn

theorem Table.put_grows (h : Table s root free) (vpn w : Nat) :
    Grows root s free (s.setWord (node s.mem root (lowest vpn)) (index 0 vpn) w) free := by
  have hnode := putEntry_node h.tree vpn w
  refine ⟨fun _ => id, fun n _ => hnode n, fun n hn => .inl ?_, fun a _ hna => ?_, fun hp => ?_⟩
  · rw [setWord_mem, hnode]
    exact hn
  · exact Function.update_of_ne (hna _).symm ..
  · exact hp.congr fun n => putEntry_upper h.tree vpn w

/-- The entry for a page of a range that starts at `first` and is mapped to `pa` on. -/
def leaf (first pa perm v : Nat) : Nat :=
  PA2PTE ((pa + (v - first) * 4096) % 2 ^ 64) ||| perm ||| PTE_V

def Filled (m m' : Mem) (root first k pa perm : Nat) : Prop :=
  ∀ v, v < 2 ^ 27 → entry m' root v =
    if first ≤ v ∧ v < first + k then leaf first pa perm v else entry m root v

theorem Filled.zero {m m' : Mem} {first : Nat} (h : ∀ v, entry m' root v = entry m root v) :
    Filled m m' root first 0 pa perm := by
  intro v _
  rw [if_neg (by omega)]
  exact h v

theorem Filled.cons {m m₁ m₂ : Mem} {first k : Nat} (hpa : pa < 2 ^ 64)
    (h₁ : ∀ v, v < 2 ^ 27 → entry m₁ root v =
      if v = first then PA2PTE pa ||| perm ||| PTE_V else entry m root v)
    (h₂ : Filled m₁ m₂ root (first + 1) k ((pa + 4096) % 2 ^ 64) perm) :
    Filled m m₂ root first (k + 1) pa perm := by
  intro v hv
  rw [h₂ v hv]
  by_cases hin : first + 1 ≤ v ∧ v < first + 1 + k
  · have hmod : ((pa + 4096) % 2 ^ 64 + (v - (first + 1)) * 4096) % 2 ^ 64 =
        (pa + (v - first) * 4096) % 2 ^ 64 := by omega
    rw [if_pos hin, if_pos (by omega), leaf, leaf, hmod]
  · rw [if_neg hin, h₁ v hv]
    by_cases he : v = first
    · rw [if_pos he, if_pos (by omega), leaf, he, Nat.sub_self, Nat.zero_mul, Nat.add_zero,
        Nat.mod_eq_of_lt hpa]
    · rw [if_neg he, if_neg (by omega)]

theorem mapFrom_step {first last fuel : Nat} {Q : Bool → Phys → Prop} {E : Panic → Prop}
    (h : Table s root free) (hlt : first < 2 ^ 26)
    (hfree : entry s.mem root first &&& PTE_V = 0)
    (hnone : ∀ s₁ free₁, Table s₁ root free₁ → Grows root s free s₁ free₁ →
      (∀ v, entry s₁.mem root v = entry s.mem root v) → Q false s₁)
    (hsome : ∀ s₁ free₁, Table s₁ root free₁ → Grows root s free s₁ free₁ →
      (∀ v, v < 2 ^ 27 → entry s₁.mem root v =
        if v = first then PA2PTE pa ||| perm ||| PTE_V else entry s.mem root v) →
      Meets (if first * 4096 = last then return true
        else mapFrom root last perm fuel (first * 4096 + PGSIZE) ((pa + PGSIZE) % 2 ^ 64)) s₁ Q E) :
    Meets (mapFrom root last perm (fuel + 1) (first * 4096) pa) s Q E := by
  have hvpn : first * 4096 / 4096 = first := Nat.mul_div_cancel first (by decide)
  rw [mapFrom]
  apply Meets.seq (walk_alloc h (by omega) hvpn)
  rintro r s₁ ⟨free₁, h₁, hg₁, he₁, hr₁⟩
  cases r with
  | none => exact Meets.pure (hnone s₁ free₁ h₁ hg₁ he₁)
  | some p =>
    obtain ⟨rfl, hne⟩ := hr₁ p rfl
    have hentry : s₁.mem (node s₁.mem root (lowest first)) (index 0 first) =
        entry s.mem root first := by
      rw [← he₁, entry, if_neg hne]
    apply Meets.bind
    apply load_meets
    rw [hentry, if_neg (not_not.mpr hfree)]
    refine Meets.bind (Meets.modify ?_)
    refine hsome _ free₁ (h₁.put first _) (hg₁.trans (h₁.put_grows first _)) fun v hv => ?_
    rw [setWord_mem, putEntry_entry h₁.tree hne (by omega) hv, he₁]

theorem mapFrom_meets {first n fuel : Nat} (h : Table s root free) (hpa : pa < 2 ^ 64)
    (hend : first + n < 2 ^ 26) (hfuel : n < fuel)
    (hfree : ∀ v, first ≤ v → v ≤ first + n → entry s.mem root v &&& PTE_V = 0) :
    Meets (mapFrom root ((first + n) * 4096) perm fuel (first * 4096) pa) s
      (fun ok s' => ∃ free' k, Table s' root free' ∧ Grows root s free s' free' ∧
        (if ok then k = n + 1 else k < n + 1) ∧ Filled s.mem s'.mem root first k pa perm)
      (fun _ => False) := by
  induction n generalizing s free first fuel pa with
  | zero =>
    obtain ⟨fuel, rfl⟩ := Nat.exists_eq_succ_of_ne_zero (by omega : fuel ≠ 0)
    refine mapFrom_step h (by omega) (hfree first le_rfl le_rfl) ?_ ?_
    · intro s₁ free₁ h₁ hg₁ he₁
      exact ⟨free₁, 0, h₁, hg₁, Nat.zero_lt_one, .zero he₁⟩
    · intro s₁ free₁ h₁ hg₁ he₁
      rw [if_pos (by rw [Nat.add_zero])]
      exact Meets.pure ⟨free₁, 1, h₁, hg₁, rfl, .cons hpa he₁ (.zero fun _ => rfl)⟩
  | succ n ih =>
    obtain ⟨fuel, rfl⟩ := Nat.exists_eq_succ_of_ne_zero (by omega : fuel ≠ 0)
    refine mapFrom_step h (by omega) (hfree first le_rfl (by omega)) ?_ ?_
    · intro s₁ free₁ h₁ hg₁ he₁
      exact ⟨free₁, 0, h₁, hg₁, Nat.succ_pos _, .zero he₁⟩
    · intro s₁ free₁ h₁ hg₁ he₁
      have hnext : first * 4096 + PGSIZE = (first + 1) * 4096 := by
        rw [Nat.add_mul, Nat.one_mul]
        rfl
      have hlast : (first + (n + 1)) * 4096 = (first + 1 + n) * 4096 := by
        rw [Nat.add_comm n 1, Nat.add_assoc]
      have hne : first * 4096 ≠ (first + 1 + n) * 4096 := by
        intro he
        have := Nat.eq_of_mul_eq_mul_right (by decide) he
        omega
      rw [hlast, if_neg hne, hnext]
      refine (ih h₁ (Nat.mod_lt _ (by decide)) (by omega) (by omega) fun v hv hv' => ?_).post ?_
      · rw [he₁ v (by omega), if_neg (by omega)]
        exact hfree v (by omega) (by omega)
      · rintro ok s₂ ⟨free₂, k, h₂, hg₂, hk, hfill⟩
        refine ⟨free₂, k + 1, h₂, hg₁.trans hg₂, ?_, hfill.cons hpa he₁⟩
        split at hk
        next hok => rw [if_pos hok, hk]
        next hok =>
          rw [if_neg hok]
          omega

theorem mappages_meets {size : Nat} (h : Table s root free) (hsize : 1 ≤ size)
    (hend : va + size ≤ MAXVA) (hpa : pa < 2 ^ 64)
    (hfree : ∀ v, va / 4096 ≤ v → v ≤ (va + size - 1) / 4096 → entry s.mem root v &&& PTE_V = 0) :
    Meets (mappages root va size pa perm) s
      (fun ok s' => ∃ free' k, Table s' root free' ∧ Grows root s free s' free' ∧
        (if ok then k = (va + size - 1) / 4096 - va / 4096 + 1
          else k < (va + size - 1) / 4096 - va / 4096 + 1) ∧
        Filled s.mem s'.mem root (va / 4096) k pa perm)
      (fun _ => False) := by
  change va + size ≤ 2 ^ 38 at hend
  have hlast : PGROUNDDOWN ((va + size + (2 ^ 64 - 1)) % 2 ^ 64) = (va + size - 1) / 4096 * 4096 := by
    have hmod : (va + size + (2 ^ 64 - 1)) % 2 ^ 64 = va + size - 1 := by omega
    rw [hmod, PGROUNDDOWN_eq (by omega)]
  have hfirst : PGROUNDDOWN va = va / 4096 * 4096 := PGROUNDDOWN_eq (by omega)
  have hle : va / 4096 ≤ (va + size - 1) / 4096 := Nat.div_le_div_right (by omega)
  have hsplit : (va + size - 1) / 4096 = va / 4096 + ((va + size - 1) / 4096 - va / 4096) := by
    omega
  have hfuel : (va + size - 1) / 4096 - va / 4096 < MAXVA / PGSIZE + 1 := by
    change _ < 2 ^ 26 + 1
    omega
  rw [mappages, hlast, hfirst, hsplit]
  refine (mapFrom_meets h hpa (by omega) hfuel fun v hv hv' => hfree v hv (by omega)).post ?_
  rintro ok s' ⟨free', k, h', hg, hk, hfill⟩
  refine ⟨free', k, h', hg, ?_, hfill⟩
  rwa [← hsplit]

section Leaf

variable {first v : Nat} (hal : pa % 4096 = 0) (hperm : perm < 1024)

include hperm

theorem leaf_valid : leaf first pa perm v &&& PTE_V ≠ 0 := entry_valid hperm

theorem leaf_flags : PTE_FLAGS (leaf first pa perm v) = perm ||| PTE_V := PTE_FLAGS_entry hperm

include hal

theorem leaf_pa : PTE2PA (leaf first pa perm v) = (pa + (v - first) * 4096) % 2 ^ 64 :=
  PTE2PA_entry hperm (by omega) (Nat.mod_lt _ (by decide))

end Leaf

theorem flags_ne (hrwx : perm &&& (PTE_R ||| PTE_W ||| PTE_X) ≠ 0) : perm ||| PTE_V ≠ PTE_V := by
  intro he
  have hand := congrArg (· &&& (PTE_R ||| PTE_W ||| PTE_X)) he
  have hv : PTE_V &&& (PTE_R ||| PTE_W ||| PTE_X) = 0 := by decide
  simp only [Nat.and_or_distrib_right, hv, Nat.or_zero] at hand
  exact hrwx hand

theorem mapping_eq_none_iff {m : Mem} {v : Nat} :
    mapping m root v = none ↔ entry m root v &&& PTE_V = 0 := by
  rw [mapping]
  split
  next h => simp [h]
  next h => simp [h]

theorem mapping_congr {m m' : Mem} {v : Nat} (h : entry m' root v = entry m root v) :
    mapping m' root v = mapping m root v := by
  rw [mapping, mapping, h]

theorem Filled.mapping {m m' : Mem} {first k v : Nat} (h : Filled m m' root first k pa perm)
    (hal : pa % 4096 = 0) (hperm : perm < 1024) (hv : v < 2 ^ 26) :
    mapping m' root v = if first ≤ v ∧ v < first + k
      then some ((pa + (v - first) * PGSIZE) % 2 ^ 64, perm ||| PTE_V) else mapping m root v := by
  have he := h v (by omega)
  split
  next hin =>
    rw [if_pos hin] at he
    rw [Vm.mapping, he, if_neg (leaf_valid hperm), leaf_pa hal hperm, leaf_flags hperm]
    rfl
  next hin =>
    rw [if_neg hin] at he
    exact mapping_congr he

section Empty

variable {m : Mem} (hm : m root = Page.fill 0)

include hm

theorem node_empty (i : Fin 512) (n : List (Fin 512)) : node m root (i :: n) = 0 := by
  induction n generalizing i with
  | nil =>
    have hzero : m root i &&& PTE_V = 0 := by
      rw [hm]
      exact Nat.zero_and _
    rw [node_cons _ _ _ (by simp)]
    exact next_of_invalid hzero
  | cons j n ih =>
    rw [node, ih, next_zero]
    split <;> rfl

theorem tree_empty (hroot : root ≠ 0) : Tree m root := by
  have hnil : ∀ n, node m root n ≠ 0 → n = [] := by
    intro n hn
    cases n with
    | nil => rfl
    | cons i n => exact absurd (node_empty hm i n) hn
  refine ⟨hroot, fun n n' hn he => ?_, fun n k _ hn hv => ?_⟩
  · rw [hnil n hn, hnil n' (by rwa [← he])]
  · obtain rfl := hnil n hn
    have hzero : m root k &&& PTE_V = 0 := by
      rw [hm]
      exact Nat.zero_and _
    exact absurd hzero hv

theorem mapping_empty (v : Nat) : mapping m root v = none := by
  have hlow : node m root (lowest v) = 0 := node_empty hm _ _
  rw [mapping_eq_none_iff, entry, if_pos hlow, Nat.zero_and]

end Empty

end Xv6.Vm

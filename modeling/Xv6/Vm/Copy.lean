import Mathlib.Data.List.TakeWhile
import Xv6.Lib.WriteTrace
import Xv6.Vm.FiniteMap
import Xv6.Vm.UserMemory

namespace Xv6.Vm

open Lib.Bytes Lib.Command

open Lib.WriteTrace (apply apply_append)

def fetch (pa off n : Nat) : VmM (List UInt8) := do
  let s ← get
  return (List.range n).map fun k => (s.mem pa).byte (off + k)

def copyinFrom (pagetable : Nat) : (fuel srcva len : Nat) → VmM (Bool × List UInt8)
  | _, _, 0 => return (true, [])
  | 0, _, _ + 1 => return (false, [])
  | fuel + 1, srcva, len + 1 => do
    let va0 := PGROUNDDOWN srcva
    let pa0 ← walkaddr pagetable va0
    if pa0 = 0 then return (false, [])
    else do
      let n := min (PGSIZE - (srcva - va0)) (len + 1)
      let bytes ← fetch pa0 (srcva - va0) n
      let (ok, more) ← copyinFrom pagetable fuel ((va0 + PGSIZE) % 2 ^ 64) (len + 1 - n)
      return (ok, bytes ++ more)

def copyin (pagetable srcva len : Nat) : VmM (Bool × List UInt8) :=
  copyinFrom pagetable len srcva len

abbrev Place := Nat × Nat

def contents (s : Phys) (p : Place) : UInt8 := (s.mem p.1).byte p.2

/-- The page is mapped, and user code has access to it. -/
def UserPage (s : Phys) (root v : Nat) : Prop :=
  v * 4096 < MAXVA ∧ entry s.mem root v &&& PTE_V ≠ 0 ∧ entry s.mem root v &&& PTE_U ≠ 0

instance (s : Phys) (root v : Nat) : Decidable (UserPage s root v) :=
  inferInstanceAs (Decidable (_ ∧ _ ∧ _))

def addresses (va len : Nat) : List Nat := (List.range len).map fun k => (va + k) % 2 ^ 64

def locate (s : Phys) (root u : Nat) : Place := (pageAt s.mem root (u / 4096), u % 4096)

def stretch (a off n : Nat) : List Place := (List.range n).map fun k => (a, off + k)

/-- The part of the range before the first page that is not accessible, in physical memory. -/
def places (s : Phys) (root va len : Nat) : List Place :=
  ((addresses va len).takeWhile fun u => UserPage s root (u / 4096)).map (locate s root)

variable {s s' : Phys} {root va len n v : Nat}

theorem length_stretch (a off n : Nat) : (stretch a off n).length = n := by
  simp [stretch]

theorem stretch_succ (a off n : Nat) : stretch a off (n + 1) = (a, off) :: stretch a (off + 1) n := by
  rw [stretch, List.range_succ_eq_map, List.map_cons, List.map_map]
  congr 1
  apply List.map_congr_left
  intro k _
  simp only [Function.comp, Prod.mk.injEq, true_and]
  omega

theorem addresses_zero (va : Nat) : addresses va 0 = [] := rfl

theorem length_addresses (va len : Nat) : (addresses va len).length = len := by
  simp [addresses]

theorem addresses_add (va n m : Nat) :
    addresses va (n + m) = addresses va n ++ addresses ((va + n) % 2 ^ 64) m := by
  rw [addresses, List.range_add, List.map_append, List.map_map]
  congr 1
  apply List.map_congr_left
  intro k _
  simp only [Function.comp]
  omega

theorem addresses_split (hva : va < 2 ^ 64) (hn : n = min (4096 - va % 4096) len) :
    addresses va len =
      (List.range n).map (fun k => va + k) ++ addresses ((va / 4096 * 4096 + 4096) % 2 ^ 64) (len - n) := by
  have hfirst : addresses va n = (List.range n).map fun k => va + k := by
    apply List.map_congr_left
    intro k hk
    have := List.mem_range.mp hk
    exact Nat.mod_eq_of_lt (by omega)
  obtain ⟨m, rfl⟩ : ∃ m, len = n + m := ⟨len - n, by omega⟩
  rw [addresses_add, hfirst, Nat.add_sub_cancel_left]
  cases m with
  | zero => rw [addresses_zero, addresses_zero]
  | succ m =>
    have : va + n = va / 4096 * 4096 + 4096 := by omega
    rw [this]

theorem places_split (hva : va < 2 ^ 64) (hn : n = min (4096 - va % 4096) len) (hlen : 0 < len) :
    places s root va len =
      if UserPage s root (va / 4096) then
        stretch (pageAt s.mem root (va / 4096)) (va % 4096) n ++
          places s root ((va / 4096 * 4096 + 4096) % 2 ^ 64) (len - n)
      else [] := by
  have hdiv : ∀ k, k < n → (va + k) / 4096 = va / 4096 := fun k hk => by omega
  rw [places, addresses_split hva hn]
  split
  next hu =>
    have hall : ∀ u ∈ (List.range n).map (fun k => va + k), UserPage s root (u / 4096) := by
      intro u hu'
      obtain ⟨k, hk, rfl⟩ := List.mem_map.mp hu'
      rwa [hdiv k (List.mem_range.mp hk)]
    rw [List.takeWhile_append_of_pos (by simpa using hall), List.map_append, List.map_map]
    congr 1
    apply List.map_congr_left
    intro k hk
    have := List.mem_range.mp hk
    simp only [Function.comp, locate, hdiv k this, Prod.mk.injEq, true_and]
    omega
  next hu =>
    obtain ⟨m, hm⟩ : ∃ m, n = m + 1 := ⟨n - 1, by omega⟩
    rw [hm, List.range_succ_eq_map, List.map_cons, List.cons_append, List.takeWhile_cons_of_neg,
      List.map_nil]
    simpa using hu

theorem length_places_le (s : Phys) (root va len : Nat) : (places s root va len).length ≤ len := by
  rw [places, List.length_map]
  have := (List.takeWhile_prefix (l := addresses va len) fun u =>
    decide (UserPage s root (u / 4096))).length_le
  rwa [length_addresses] at this

theorem length_places_eq_iff (s : Phys) (root va len : Nat) :
    (places s root va len).length = len ↔ ∀ u ∈ addresses va len, UserPage s root (u / 4096) := by
  constructor
  · intro h u hu
    rw [places, List.length_map] at h
    have heq := (List.takeWhile_prefix (l := addresses va len)
      (fun u => UserPage s root (u / 4096))).eq_of_length (by rw [h, length_addresses])
    rw [← heq] at hu
    simpa using List.mem_takeWhile_imp hu
  · intro h
    rw [places, List.length_map, List.takeWhile_eq_self_iff.mpr (by simpa using h), length_addresses]

theorem mem_places {p : Place} (h : p ∈ places s root va len) :
    p.2 < 4096 ∧ ∃ v, UserPage s root v ∧ p.1 = pageAt s.mem root v := by
  obtain ⟨u, hu, rfl⟩ := List.mem_map.mp h
  exact ⟨Nat.mod_lt u (by decide), u / 4096, by simpa using List.mem_takeWhile_imp hu, rfl⟩

structure Backed (s : Phys) (root : Nat) : Prop where
  tree : Tree s.mem root
  frame : ∀ v, UserPage s root v → pageAt s.mem root v ≠ 0

theorem walkaddr_lookup (h : Tree s.mem root) (hva : va < 2 ^ 64) :
    walkaddr root (PGROUNDDOWN va) s =
      .ok (if UserPage s root (va / 4096) then pageAt s.mem root (va / 4096) else 0, s) := by
  have hround := PGROUNDDOWN_eq hva
  have hvpn : va / 4096 * 4096 / 4096 = va / 4096 := Nat.mul_div_cancel _ (by decide)
  rw [walkaddr, hround]
  split
  next hmax =>
    rw [if_neg (fun hu => absurd hu.1 (Nat.not_lt.mpr hmax))]
    rfl
  next hmax =>
    rw [bind_of_ok (walk_lookup h (lt_MAXVA.mp hmax) hvpn), pteAt]
    by_cases hz : node s.mem root (lowest (va / 4096)) = 0
    · have hentry : entry s.mem root (va / 4096) = 0 := by rw [entry, if_pos hz]
      rw [if_pos hz, if_neg]
      · rfl
      · rintro ⟨-, hv, -⟩
        rw [hentry, Nat.zero_and] at hv
        exact hv rfl
    · have hload : s.mem (node s.mem root (lowest (va / 4096))) (index 0 (va / 4096)) =
          entry s.mem root (va / 4096) := by rw [entry, if_neg hz]
      rw [if_neg hz]
      simp only [load, bind_assoc, pure_bind, get_bind, hload, UserPage, Nat.not_le.mp hmax, true_and]
      by_cases hv : entry s.mem root (va / 4096) &&& PTE_V = 0
      · rw [if_pos hv, if_neg (fun hu => hu.1 hv)]
        rfl
      · by_cases hu : entry s.mem root (va / 4096) &&& PTE_U = 0
        · rw [if_neg hv, if_pos hu, if_neg (fun hu' => hu'.2 hu)]
          rfl
        · rw [if_neg hv, if_neg hu, if_pos ⟨hv, hu⟩]
          rfl

theorem fetch_eq (s : Phys) (a off n : Nat) :
    fetch a off n s = .ok ((stretch a off n).map (contents s), s) := by
  rw [stretch, List.map_map]
  rfl

theorem copyinFrom_eq (h : Backed s root) {fuel : Nat} (hva : va < 2 ^ 64) (hfuel : len ≤ fuel) :
    copyinFrom root fuel va len s =
      .ok (((places s root va len).length = len, (places s root va len).map (contents s)), s) := by
  induction fuel generalizing va len with
  | zero =>
    obtain rfl := Nat.le_zero.mp hfuel
    rfl
  | succ fuel ih =>
    cases len with
    | zero => rfl
    | succ len =>
      have hoff : va - va / 4096 * 4096 = va % 4096 := by omega
      have hpos : 0 < len + 1 := by omega
      have hsize : PGSIZE = 4096 := rfl
      rw [copyinFrom, bind_of_ok (walkaddr_lookup h.tree hva), places_split hva rfl hpos]
      by_cases hu : UserPage s root (va / 4096)
      · rw [if_pos hu, if_pos hu, if_neg (h.frame _ hu), PGROUNDDOWN_eq hva, hoff, hsize]
        generalize hn : min (4096 - va % 4096) (len + 1) = n
        have hnext : (va / 4096 * 4096 + 4096) % 2 ^ 64 < 2 ^ 64 := Nat.mod_lt _ (by decide)
        have hrest := @ih _ (len + 1 - n) hnext (by omega)
        have hdone : ((stretch (pageAt s.mem root (va / 4096)) (va % 4096) n ++
            places s root ((va / 4096 * 4096 + 4096) % 2 ^ 64) (len + 1 - n)).length = len + 1) ↔
            (places s root ((va / 4096 * 4096 + 4096) % 2 ^ 64) (len + 1 - n)).length =
              len + 1 - n := by
          rw [List.length_append, length_stretch]
          omega
        rw [bind_of_ok (fetch_eq ..), bind_of_ok hrest, List.map_append, decide_eq_decide.mpr hdone]
        rfl
      · rw [if_neg hu, if_neg hu, if_pos rfl]
        rfl

theorem apply_congr (ws : List (Place × UInt8)) {f g : Place → UInt8}
    (h : ∀ p, p.2 < 4096 → f p = g p) (p : Place) (hp : p.2 < 4096) : apply ws f p = apply ws g p := by
  induction ws generalizing f g with
  | nil => exact h p hp
  | cons w ws ih =>
    rw [Lib.WriteTrace.apply_cons, Lib.WriteTrace.apply_cons]
    refine ih fun q hq => ?_
    by_cases he : q = w.1
    · rw [he, Function.update_self, Function.update_self]
    · rw [Function.update_of_ne he, Function.update_of_ne he, h q hq]

/-- A page table whose user pages are pages of memory and hold none of its tables. -/
structure Confined (s : Phys) (root : Nat) : Prop extends Backed s root where
  apart : ∀ v n, UserPage s root v → node s.mem root n ≠ pageAt s.mem root v

section Frame

variable (h : Confined s root)
  (hm : ∀ n, node s.mem root n ≠ 0 → s'.mem (node s.mem root n) = s.mem (node s.mem root n))

include hm

theorem pageAt_frame (v : Nat) : pageAt s'.mem root v = pageAt s.mem root v := by
  rw [pageAt, pageAt, entry_frame hm]

theorem userPage_frame (v : Nat) : UserPage s' root v ↔ UserPage s root v := by
  rw [UserPage, UserPage, entry_frame hm]

theorem places_frame (va len : Nat) : places s' root va len = places s root va len := by
  have hloc : locate s' root = locate s root := by
    funext u
    rw [locate, locate, pageAt_frame hm]
  rw [places, places, hloc]
  simp only [userPage_frame hm]

include h

theorem Confined.of_tables : Confined s' root := by
  refine ⟨⟨h.tree.frame hm, fun v hv => ?_⟩, fun v n hv => ?_⟩
  · rw [pageAt_frame hm]
    exact h.toBacked.frame v ((userPage_frame hm v).mp hv)
  · rw [node_frame hm, pageAt_frame hm]
    exact h.apart v n ((userPage_frame hm v).mp hv)

end Frame

structure Copied (root : Nat) (ws : List (Place × UInt8)) (s s' : Phys) : Prop where
  freelist : s'.freelist = s.freelist
  bytes : ∀ p : Place, p.2 < 4096 → contents s' p = apply ws (contents s) p
  frame : ∀ a, (∀ v, UserPage s root v → pageAt s.mem root v ≠ a) → s'.mem a = s.mem a

section Copied

variable {ws ws' : List (Place × UInt8)} (h : Confined s root) (hc : Copied root ws s s')

include h hc

theorem Copied.tables (n : List (Fin 512)) :
    s'.mem (node s.mem root n) = s.mem (node s.mem root n) :=
  hc.frame _ fun v hv => (h.apart v n hv).symm

theorem Copied.pageAt_eq (v : Nat) : pageAt s'.mem root v = pageAt s.mem root v :=
  pageAt_frame (fun n _ => hc.tables h n) v

theorem Copied.userPage_iff (v : Nat) : UserPage s' root v ↔ UserPage s root v :=
  userPage_frame (fun n _ => hc.tables h n) v

theorem Copied.places_eq (va len : Nat) : places s' root va len = places s root va len :=
  places_frame (fun n _ => hc.tables h n) va len

theorem Copied.confined : Confined s' root :=
  h.of_tables fun n _ => hc.tables h n

theorem Copied.trans {s'' : Phys} (hc' : Copied root ws' s' s'') : Copied root (ws ++ ws') s s'' := by
  refine ⟨hc'.freelist.trans hc.freelist, fun p hp => ?_, fun a ha => ?_⟩
  · rw [hc'.bytes p hp, apply_append]
    exact apply_congr ws' (fun p => hc.bytes p) p hp
  · rw [hc'.frame a fun v hv => ?_, hc.frame a ha]
    rw [hc.pageAt_eq h]
    exact ha v ((hc.userPage_iff h v).mp hv)

end Copied

theorem Copied.nil (root : Nat) (s : Phys) : Copied root [] s s :=
  ⟨rfl, fun _ _ => rfl, fun _ _ => rfl⟩

theorem apply_stretch (a off : Nat) (bytes : List UInt8) (f : Place → UInt8) (p : Place) :
    apply ((stretch a off bytes.length).zip bytes) f p =
      if p.1 = a ∧ off ≤ p.2 ∧ p.2 < off + bytes.length then bytes.getD (p.2 - off) 0 else f p := by
  induction bytes generalizing off f with
  | nil => rw [if_neg (by simp)]; rfl
  | cons b bytes ih =>
    rw [List.length_cons, stretch_succ, List.zip_cons_cons, Lib.WriteTrace.apply_cons, ih]
    by_cases hp : p = (a, off)
    · subst hp
      rw [if_neg (by simp), if_pos (by simp), Function.update_self, Nat.sub_self]
      rfl
    · rw [Function.update_of_ne hp]
      by_cases hin : p.1 = a ∧ off + 1 ≤ p.2 ∧ p.2 < off + 1 + bytes.length
      · have hsub : p.2 - off = p.2 - (off + 1) + 1 := by omega
        rw [if_pos hin, if_pos (by omega), hsub, List.getD_cons_succ]
      · rw [if_neg hin, if_neg]
        rintro ⟨h1, h2, h3⟩
        refine hin ⟨h1, Nat.lt_of_le_of_ne h2 fun he => hp (Prod.ext h1 he.symm), by omega⟩

theorem Copied.memmove (hu : UserPage s root v) (off : Nat) (bytes : List UInt8) :
    Copied root ((stretch (pageAt s.mem root v) off bytes.length).zip bytes) s
      (s.setPage (pageAt s.mem root v) ((s.mem (pageAt s.mem root v)).store off bytes)) := by
  refine ⟨rfl, fun p hp => ?_, fun a ha => Function.update_of_ne (ha v hu).symm ..⟩
  rw [apply_stretch]
  by_cases hpage : p.1 = pageAt s.mem root v
  · have hself : (s.setPage (pageAt s.mem root v)
        ((s.mem (pageAt s.mem root v)).store off bytes)).mem p.1 =
          (s.mem (pageAt s.mem root v)).store off bytes := by
      rw [hpage]
      exact Function.update_self ..
    rw [contents, hself, Page.byte_store _ _ _ hp, contents, hpage]
    simp only [true_and]
  · have hother : (s.setPage (pageAt s.mem root v)
        ((s.mem (pageAt s.mem root v)).store off bytes)).mem p.1 = s.mem p.1 :=
      Function.update_of_ne hpage ..
    rw [contents, hother, if_neg (fun hin => hpage hin.1)]
    rfl

theorem copyoutFrom_copied (h : Confined s root) {fuel : Nat} {src : List UInt8} (hva : va < 2 ^ 64)
    (hfuel : src.length ≤ fuel) :
    ∃ s', copyoutFrom root fuel va src s =
        .ok ((places s root va src.length).length = src.length, s') ∧
      Copied root ((places s root va src.length).zip src) s s' := by
  induction fuel generalizing s va src with
  | zero =>
    obtain rfl := List.length_eq_zero_iff.mp (Nat.le_zero.mp hfuel)
    exact ⟨s, rfl, .nil root s⟩
  | succ fuel ih =>
    cases src with
    | nil => exact ⟨s, rfl, .nil root s⟩
    | cons b src =>
      have hoff : va - va / 4096 * 4096 = va % 4096 := by omega
      have hpos : 0 < (b :: src).length := Nat.succ_pos _
      have hsize : PGSIZE = 4096 := rfl
      rw [copyoutFrom, bind_of_ok (walkaddr_lookup h.tree hva), places_split hva rfl hpos]
      rw [List.length_cons] at hfuel
      by_cases hu : UserPage s root (va / 4096)
      · rw [if_pos hu, if_pos hu, if_neg (h.frame _ hu), PGROUNDDOWN_eq hva, hoff, hsize]
        generalize hn : min (4096 - va % 4096) (b :: src).length = n
        have htake : ((b :: src).take n).length = n := by
          rw [List.length_take]
          omega
        have hdrop : ((b :: src).drop n).length = (b :: src).length - n := List.length_drop
        have hc := Copied.memmove hu (va % 4096) ((b :: src).take n)
        rw [htake] at hc
        rw [Vm.memmove, modify_bind]
        generalize Phys.setPage _ _ _ = s₁ at hc ⊢
        have hnext : (va / 4096 * 4096 + 4096) % 2 ^ 64 < 2 ^ 64 := Nat.mod_lt _ (by decide)
        obtain ⟨s', hrun, hc'⟩ := @ih s₁ _ (hc.confined h) ((b :: src).drop n) hnext
          (by rw [hdrop, List.length_cons]; omega)
        rw [hc.places_eq h, hdrop] at hrun hc'
        have hdone : ((stretch (pageAt s.mem root (va / 4096)) (va % 4096) n ++
            places s root ((va / 4096 * 4096 + 4096) % 2 ^ 64) ((b :: src).length - n)).length =
              (b :: src).length) ↔
            (places s root ((va / 4096 * 4096 + 4096) % 2 ^ 64) ((b :: src).length - n)).length =
              (b :: src).length - n := by
          rw [List.length_append, length_stretch]
          omega
        refine ⟨s', by rw [hrun, decide_eq_decide.mpr hdone], ?_⟩
        have hzip : ∀ ps : List Place, (stretch (pageAt s.mem root (va / 4096)) (va % 4096) n ++ ps).zip
            (b :: src) = (stretch (pageAt s.mem root (va / 4096)) (va % 4096) n).zip
              ((b :: src).take n) ++ ps.zip ((b :: src).drop n) := fun ps => by
          rw [← List.zip_append (by rw [length_stretch, htake]), List.take_append_drop]
        rw [hzip]
        exact hc.trans h hc'
      · rw [if_neg hu, if_neg hu, if_pos rfl]
        exact ⟨s, rfl, .nil root s⟩

def DistinctFrames (s : Phys) (root va len : Nat) : Prop :=
  ∀ u ∈ addresses va len, ∀ u' ∈ addresses va len,
    pageAt s.mem root (u / 4096) = pageAt s.mem root (u' / 4096) → u / 4096 = u' / 4096

theorem nodup_addresses (va : Nat) (hlen : len ≤ 2 ^ 64) : (addresses va len).Nodup := by
  apply List.Nodup.map_on _ List.nodup_range
  intro k hk k' hk' he
  have := List.mem_range.mp hk
  have := List.mem_range.mp hk'
  omega

theorem nodup_places (hlen : len ≤ 2 ^ 64) (hd : DistinctFrames s root va len) :
    (places s root va len).Nodup := by
  have hsub : ((addresses va len).takeWhile fun u => decide (UserPage s root (u / 4096))) ⊆
      addresses va len := (List.takeWhile_prefix _).subset
  refine List.Nodup.map_on ?_ ((nodup_addresses va hlen).sublist (List.takeWhile_sublist _))
  intro u hu u' hu' he
  obtain ⟨hpage, hoff⟩ := Prod.mk.inj he
  have := hd u (hsub hu) u' (hsub hu') hpage
  omega

theorem Copied.copyin (h : Confined s root) {src : List UInt8} (hva : va < 2 ^ 64)
    (hlen : src.length ≤ 2 ^ 64)
    (hc : Copied root ((places s root va src.length).zip src) s s')
    (hall : ∀ u ∈ addresses va src.length, UserPage s root (u / 4096))
    (hd : DistinctFrames s root va src.length) :
    Vm.copyin root va src.length s' = .ok ((true, src), s') := by
  have hfull := (length_places_eq_iff s root va src.length).mpr hall
  have hback : (places s root va src.length).map (contents s') = src := by
    have hzip := Lib.WriteTrace.map_apply_zip hfull (nodup_places hlen hd) (contents s)
    exact (List.map_congr_left fun p hp => hc.bytes p (mem_places hp).1).trans hzip
  rw [Vm.copyin, copyinFrom_eq (hc.confined h).toBacked hva le_rfl, hc.places_eq h, hback, hfull]
  simp

/-- `copyout` and `copyin` succeed exactly if user code has access to every page of the range, also
when the range passes `MAXVA` or wraps around; they copy the bytes of the range before the first
page without access, all of them on success, and touch no other byte; and `copyin` gives back what
`copyout` has copied if the pages are distinct. -/
theorem copy_exact_confined (h : Confined s root) (hva : va < 2 ^ 64) :
    (∀ src : List UInt8, src.length < 2 ^ 64 → ∃ s',
      copyout root va src s = .ok (∀ u ∈ addresses va src.length, UserPage s root (u / 4096), s') ∧
      (∀ p : Place, p.2 < 4096 →
        contents s' p = apply ((places s root va src.length).zip src) (contents s) p) ∧
      (∀ a, (∀ v, UserPage s root v → pageAt s.mem root v ≠ a) → s'.mem a = s.mem a) ∧
      ((∀ u ∈ addresses va src.length, UserPage s root (u / 4096)) →
        DistinctFrames s root va src.length →
        Vm.copyin root va src.length s' = .ok ((true, src), s'))) ∧
    (∀ len, Vm.copyin root va len s = .ok ((∀ u ∈ addresses va len, UserPage s root (u / 4096),
      (places s root va len).map (contents s)), s)) ∧
    ∀ len, ((∀ u ∈ addresses va len, UserPage s root (u / 4096)) →
        places s root va len = (addresses va len).map (locate s root)) ∧
      ∀ p ∈ places s root va len, ∃ v, UserPage s root v ∧ p.1 = pageAt s.mem root v := by
  refine ⟨fun src hlen => ?_, fun len => ?_, fun len => ⟨fun hall => ?_, fun p hp => (mem_places hp).2⟩⟩
  · obtain ⟨s', hrun, hc⟩ := @copyoutFrom_copied s root va h _ src hva le_rfl
    rw [decide_eq_decide.mpr (length_places_eq_iff s root va src.length)] at hrun
    exact ⟨s', hrun, hc.bytes, hc.frame, hc.copyin h hva hlen.le⟩
  · rw [Vm.copyin, copyinFrom_eq h.toBacked hva le_rfl,
      decide_eq_decide.mpr (length_places_eq_iff s root va len)]
  · rw [places, List.takeWhile_eq_self_iff.mpr (by simpa using hall)]

theorem userPage_of_mapping {pa flags : Nat} (hv : v * 4096 < MAXVA)
    (hm : mapping s.mem root v = some (pa, flags)) :
    pageAt s.mem root v = pa ∧ (UserPage s root v ↔ flags &&& PTE_U ≠ 0) := by
  rw [mapping] at hm
  split at hm
  · cases hm
  next hvalid =>
    obtain ⟨rfl, rfl⟩ := Prod.mk.inj (Option.some.inj hm)
    rw [UserPage, and_flags (entry s.mem root v) (by decide : PTE_U < 1024)]
    exact ⟨rfl, fun hu => hu.2.2, fun hu => ⟨hv, hvalid, hu⟩⟩

theorem small_confined : ∃ s, Confined s smallRoot ∧ UserPage s smallRoot 5 := by
  have hroot : small.mem smallRoot = Page.fill 0 := rfl
  have hok : (mappages smallRoot 0x5000 0x1000 0x87000000 (PTE_R ||| PTE_U) small).toOption.map
      Prod.fst = some true := by decide +kernel
  have hmap : Meets (mappages smallRoot 0x5000 0x1000 0x87000000 (PTE_R ||| PTE_U)) small _ _ :=
    mappages_meets small_table (by decide) (by decide) (by decide)
      fun v _ _ => mapping_eq_none_iff.mp (mapping_empty hroot v)
  obtain ⟨ok, s', hrun, free', k, ht, hg, hk, hfill⟩ := hmap.ok fun _ => id
  rw [hrun] at hok
  obtain rfl : ok = true := Option.some.inj hok
  obtain rfl : k = 1 := hk
  have hentry : ∀ v, v < 2 ^ 26 → mapping s'.mem smallRoot v =
      if 5 ≤ v ∧ v < 5 + 1 then _ else mapping small.mem smallRoot v := fun v hv =>
    hfill.mapping (by decide) (by decide) hv
  have hfive := userPage_of_mapping (by decide) ((hentry 5 (by decide)).trans (if_pos (by decide)))
  have honly : ∀ v, UserPage s' smallRoot v → v = 5 := by
    intro v hu
    have hlt : v < 2 ^ 26 := by
      have : v * 4096 < 2 ^ 38 := hu.1
      omega
    by_contra hne
    have hnone := hentry v hlt
    rw [if_neg (by omega), mapping_empty hroot v] at hnone
    exact hu.2.1 (mapping_eq_none_iff.mp hnone)
  refine ⟨s', ⟨⟨ht.tree, fun v hv => ?_⟩, fun v n hv => ?_⟩, hfive.2.mpr (by decide)⟩
  · rw [honly v hv, hfive.1]
    decide
  · rw [honly v hv, hfive.1]
    refine hg.not_table (by decide) (fun n => ?_) n
    cases n with
    | nil => decide
    | cons i n =>
      rw [node_empty hroot]
      decide

/-- A copy to a range that begins in the accessible page 5 and ends in page 6. -/
theorem copy_exact_confined_small :
    ∃ s s' ok, Confined s smallRoot ∧ copyout smallRoot 0x5fff [1, 2] s = .ok (ok, s') ∧
      ∀ p : Place, p.2 < 4096 →
        contents s' p = apply ((places s smallRoot 0x5fff 2).zip [1, 2]) (contents s) p := by
  obtain ⟨s, h, -⟩ := small_confined
  obtain ⟨s', hrun, hbytes, -⟩ := (copy_exact_confined h (by decide : 0x5fff < 2 ^ 64)).1 [1, 2]
    (by decide)
  exact ⟨s, s', _, h, hrun, hbytes⟩

end Xv6.Vm

import Xv6.Vm.Copy

namespace Xv6.Vm

open Lib.Command

def strFrom (page : Page) : (n off : Nat) → List UInt8 × Bool
  | 0, _ => ([], false)
  | n + 1, off =>
    if page.byte off = 0 then ([0], true)
    else (page.byte off :: (strFrom page n (off + 1)).1, (strFrom page n (off + 1)).2)

def copyinstrFrom (pagetable : Nat) : (fuel srcva max : Nat) → VmM (Bool × List UInt8)
  | _, _, 0 => return (false, [])
  | 0, _, _ + 1 => return (false, [])
  | fuel + 1, srcva, max + 1 => do
    let va0 := PGROUNDDOWN srcva
    let pa0 ← walkaddr pagetable va0
    if pa0 = 0 then return (false, [])
    else do
      let n := min (PGSIZE - (srcva - va0)) (max + 1)
      let s ← get
      let (bytes, gotNull) := strFrom (s.mem pa0) n (srcva - va0)
      if gotNull then return (true, bytes)
      else do
        let (ok, more) ← copyinstrFrom pagetable fuel ((va0 + PGSIZE) % 2 ^ 64) (max + 1 - n)
        return (ok, bytes ++ more)

/-- Copy a string from user memory to the kernel, at most `max` bytes of it. -/
def copyinstr (pagetable srcva max : Nat) : VmM (Bool × List UInt8) :=
  copyinstrFrom pagetable max srcva max

def cut : List UInt8 → List UInt8
  | [] => []
  | b :: bytes => if b = 0 then [0] else b :: cut bytes

variable {s : Phys} {root va len k : Nat}

theorem cut_append_of_mem {xs : List UInt8} (h : 0 ∈ xs) (ys : List UInt8) :
    cut (xs ++ ys) = cut xs := by
  induction xs with
  | nil => cases h
  | cons b xs ih =>
    rw [List.cons_append, cut, cut]
    split
    next => rfl
    next hb => rw [ih ((List.mem_cons.mp h).resolve_left fun he => hb he.symm)]

theorem cut_append_of_notMem {xs : List UInt8} (h : 0 ∉ xs) (ys : List UInt8) :
    cut (xs ++ ys) = xs ++ cut ys := by
  induction xs with
  | nil => rfl
  | cons b xs ih =>
    obtain ⟨hb, h⟩ := not_or.mp (mt List.mem_cons.mpr h)
    rw [List.cons_append, cut, if_neg (Ne.symm hb), ih h, List.cons_append]

theorem cut_of_notMem {xs : List UInt8} (h : 0 ∉ xs) : cut xs = xs := by
  simpa [cut] using cut_append_of_notMem h []

theorem length_cut_le (xs : List UInt8) : (cut xs).length ≤ xs.length := by
  induction xs with
  | nil => exact le_rfl
  | cons b xs ih =>
    rw [cut]
    split
    · simp
    · simpa using ih

theorem strFrom_eq (s : Phys) (a n off : Nat) :
    strFrom (s.mem a) n off =
      (cut ((stretch a off n).map (contents s)), decide (0 ∈ (stretch a off n).map (contents s))) := by
  induction n generalizing off with
  | zero => rfl
  | succ n ih =>
    rw [strFrom, stretch_succ, List.map_cons, cut, ih]
    change (if contents s (a, off) = 0 then _ else _) = _
    split
    next hb => simp [hb]
    next hb =>
      have hmem : (0 ∈ contents s (a, off) :: (stretch a (off + 1) n).map (contents s)) ↔
          0 ∈ (stretch a (off + 1) n).map (contents s) := by
        rw [List.mem_cons, or_iff_right (Ne.symm hb)]
      rw [decide_eq_decide.mpr hmem]
      rfl

theorem copyinstrFrom_eq (h : Backed s root) {fuel : Nat} (hva : va < 2 ^ 64) (hfuel : len ≤ fuel) :
    copyinstrFrom root fuel va len s =
      .ok ((0 ∈ (places s root va len).map (contents s),
        cut ((places s root va len).map (contents s))), s) := by
  induction fuel generalizing va len with
  | zero =>
    obtain rfl := Nat.le_zero.mp hfuel
    rfl
  | succ fuel ih =>
    cases len with
    | zero => rfl
    | succ len =>
      have hoff : va - va / 4096 * 4096 = va % 4096 := by omega
      have hpos : 0 < len + 1 := by omega
      have hsize : PGSIZE = 4096 := rfl
      rw [copyinstrFrom, bind_of_ok (walkaddr_lookup h.tree hva), places_split hva rfl hpos]
      by_cases hu : UserPage s root (va / 4096)
      · rw [if_pos hu, if_pos hu, if_neg (h.frame _ hu), PGROUNDDOWN_eq hva, hoff, hsize, get_bind,
          strFrom_eq]
        generalize hn : min (4096 - va % 4096) (len + 1) = n
        have hnext : (va / 4096 * 4096 + 4096) % 2 ^ 64 < 2 ^ 64 := Nat.mod_lt _ (by decide)
        have hrest := @ih _ (len + 1 - n) hnext (by omega)
        rw [List.map_append]
        generalize (stretch (pageAt s.mem root (va / 4096)) (va % 4096) n).map (contents s) = page
        by_cases hnul : (0 : UInt8) ∈ page
        · rw [cut_append_of_mem hnul]
          simp only [hnul, decide_true, if_true, List.mem_append, true_or]
          rfl
        · simp only [hnul, decide_false, Bool.false_eq_true, if_false, List.mem_append, false_or]
          rw [bind_of_ok hrest, cut_of_notMem hnul, cut_append_of_notMem hnul]
          rfl
      · rw [if_neg hu, if_neg hu, if_pos rfl]
        rfl

/-- The byte `k` bytes after an address. -/
def byteAt (s : Phys) (root va k : Nat) : UInt8 := contents s (locate s root ((va + k) % 2 ^ 64))

/-- User code has access to the first `k + 1` bytes at `va`, and the last of them is the first
that is NUL. -/
structure StringAt (s : Phys) (root va k : Nat) : Prop where
  access : ∀ j ≤ k, UserPage s root ((va + j) % 2 ^ 64 / 4096)
  nul : byteAt s root va k = 0
  first : ∀ j < k, byteAt s root va j ≠ 0

theorem take_addresses {m : Nat} (va : Nat) (h : m ≤ len) :
    (addresses va len).take m = addresses va m := by
  rw [addresses, ← List.map_take, List.take_range, Nat.min_eq_left h]
  rfl

theorem takeWhile_addresses (s : Phys) (root va len : Nat) :
    (addresses va len).takeWhile (fun u => UserPage s root (u / 4096)) =
      addresses va (places s root va len).length := by
  have hpre := List.takeWhile_prefix (l := addresses va len) fun u =>
    decide (UserPage s root (u / 4096))
  have hle := hpre.length_le
  rw [length_addresses] at hle
  rw [places, List.length_map]
  exact (List.prefix_iff_eq_take.mp hpre).trans (take_addresses va hle)

theorem map_places (s : Phys) (root va len : Nat) :
    (places s root va len).map (contents s) =
      (List.range (places s root va len).length).map (byteAt s root va) := by
  conv_lhs => rw [places, takeWhile_addresses, addresses, List.map_map, List.map_map]
  rfl

theorem userPage_of_lt {j : Nat} (hj : j < (places s root va len).length) :
    UserPage s root ((va + j) % 2 ^ 64 / 4096) := by
  have hmem : (va + j) % 2 ^ 64 ∈ addresses va (places s root va len).length :=
    List.mem_map.mpr ⟨j, List.mem_range.mpr hj, rfl⟩
  rw [← takeWhile_addresses] at hmem
  simpa using List.mem_takeWhile_imp hmem

theorem lt_length_places (hacc : ∀ j ≤ k, UserPage s root ((va + j) % 2 ^ 64 / 4096))
    (hk : k < len) : k < (places s root va len).length := by
  obtain ⟨m, rfl⟩ : ∃ m, len = k + 1 + m := ⟨len - (k + 1), by omega⟩
  have hall : ∀ u ∈ addresses va (k + 1), UserPage s root (u / 4096) := by
    intro u hu
    obtain ⟨j, hj, rfl⟩ := List.mem_map.mp hu
    exact hacc j (Nat.lt_succ_iff.mp (List.mem_range.mp hj))
  rw [places, addresses_add, List.takeWhile_append_of_pos (by simpa using hall), List.length_map,
    List.length_append, length_addresses]
  omega

theorem places_of_access (hacc : ∀ j ≤ k, UserPage s root ((va + j) % 2 ^ 64 / 4096)) :
    (places s root va (k + 1)).length = k + 1 := by
  have hlt : k < (places s root va (k + 1)).length := lt_length_places hacc (Nat.lt_succ_self k)
  have hle := length_places_le s root va (k + 1)
  omega

theorem StringAt.cut_eq (h : StringAt s root va k) (hk : k < len) :
    cut ((places s root va len).map (contents s)) = (List.range (k + 1)).map (byteAt s root va) := by
  have hlt := lt_length_places h.access hk
  rw [map_places]
  obtain ⟨m, hm⟩ : ∃ m, (places s root va len).length = k + (1 + m) :=
    ⟨(places s root va len).length - (k + 1), by omega⟩
  have hfirst : (0 : UInt8) ∉ (List.range k).map (byteAt s root va) := by
    intro hmem
    obtain ⟨j, hj, hnul⟩ := List.mem_map.mp hmem
    exact h.first j (List.mem_range.mp hj) hnul
  rw [hm, List.range_add, List.map_append, cut_append_of_notMem hfirst, List.range_succ,
    List.map_append]
  congr 1
  rw [Nat.add_comm 1 m, List.range_succ_eq_map, List.map_cons, List.map_cons, Nat.add_zero, cut,
    if_pos h.nul, List.map_singleton, h.nul]

theorem exists_stringAt (h : (0 : UInt8) ∈ (places s root va len).map (contents s)) :
    ∃ k < len, StringAt s root va k := by
  have hle := length_places_le s root va len
  have hacc : ∀ i < (places s root va len).length, UserPage s root ((va + i) % 2 ^ 64 / 4096) :=
    fun i hi => userPage_of_lt hi
  rw [map_places] at h
  obtain ⟨j, hj, hnul⟩ := List.mem_map.mp h
  have hex : ∃ k, byteAt s root va k = 0 := ⟨j, hnul⟩
  have hfind := Nat.find_min' hex hnul
  have hj := List.mem_range.mp hj
  exact ⟨Nat.find hex, by omega, fun i hi => hacc i (by omega), Nat.find_spec hex,
    fun i hi => Nat.find_min hex hi⟩

/-- `copyinstr` succeeds exactly if there is a NUL among the first `max` bytes and user code has
access up to there, and then it has stored the string; it never stores more than `max` bytes, and
on success it agrees with `copyin`. -/
theorem copyinstr_bounded_string (h : Backed s root) (hva : va < 2 ^ 64) (max : Nat) :
    ∃ ok bytes, copyinstr root va max s = .ok ((ok, bytes), s) ∧ bytes.length ≤ max ∧
      (ok = true ↔ ∃ k < max, StringAt s root va k) ∧
      (∀ k < max, StringAt s root va k → bytes = (List.range (k + 1)).map (byteAt s root va)) ∧
      (ok = true → copyin root va bytes.length s = .ok ((true, bytes), s)) := by
  have hiff : (0 : UInt8) ∈ (places s root va max).map (contents s) ↔
      ∃ k < max, StringAt s root va k := by
    refine ⟨exists_stringAt, fun ⟨k, hk, hs⟩ => ?_⟩
    rw [map_places]
    exact List.mem_map.mpr ⟨k, List.mem_range.mpr (lt_length_places hs.access hk), hs.nul⟩
  refine ⟨_, _, copyinstrFrom_eq h hva le_rfl, ?_, ?_, fun k hk hs => hs.cut_eq hk, fun hok => ?_⟩
  · refine (length_cut_le _).trans ?_
    rw [List.length_map]
    exact length_places_le s root va max
  · rw [decide_eq_true_iff]
    exact hiff
  · obtain ⟨k, hk, hs⟩ := hiff.mp (of_decide_eq_true hok)
    have hfull := places_of_access hs.access
    rw [hs.cut_eq hk, List.length_map, List.length_range, copyin, copyinFrom_eq h hva le_rfl,
      map_places, hfull]
    simp

/-- A byte of the page table of `small_confined`. -/
theorem copyinstr_bounded_string_small :
    ∃ s ok bytes, Backed s smallRoot ∧
      copyinstr smallRoot 0x5ffe 8 s = .ok ((ok, bytes), s) ∧ bytes.length ≤ 8 ∧
      (ok = true → copyin smallRoot 0x5ffe bytes.length s = .ok ((true, bytes), s)) := by
  obtain ⟨s, h, -⟩ := small_confined
  obtain ⟨ok, bytes, hrun, hlen, -, -, hcopyin⟩ :=
    copyinstr_bounded_string h.toBacked (by decide : 0x5ffe < 2 ^ 64) 8
  exact ⟨s, ok, bytes, h.toBacked, hrun, hlen, hcopyin⟩

end Xv6.Vm

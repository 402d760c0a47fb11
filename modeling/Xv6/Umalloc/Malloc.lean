import Xv6.Umalloc.Heap

namespace Xv6.Umalloc

open Lib.Pointers

variable {h : Heap} {start f p bp nunits : Nat} {xs : List Nat}

def Heap.Inside (h : Heap) (start x : Nat) : Prop :=
  x = h.base ∧ h.base < start ∧ h.size x = 0 ∨ start ≤ x ∧ x < h.brk ∧ x + h.bytes x ≤ h.brk

/-- From `f`, which is `freep`, the free list goes through `xs` back to `f`. -/
structure FreeList (h : Heap) (start f : Nat) (xs : List Nat) : Prop where
  entry : h.freep = some f
  ring : Links h.next f xs f
  nodup : (f :: xs).Nodup
  inside : ∀ x ∈ f :: xs, h.Inside start x
  le_brk : start ≤ h.brk
  le_memory : h.brk ≤ memory

/-- Nothing has been allocated yet, or the blocks of the free list are memory from `sbrk`. -/
def Sound (h : Heap) (start : Nat) : Prop :=
  h.freep = none ∧ h.base < start ∧ start ≤ h.brk ∧ h.brk ≤ memory ∨ ∃ f xs, FreeList h start f xs

theorem FreeList.lt_brk (hl : FreeList h start f xs) {x : Nat} (hx : x ∈ f :: xs) : x < h.brk := by
  have hle := hl.le_brk
  obtain ⟨rfl, hb, -⟩ | ⟨-, hlt, -⟩ := hl.inside x hx
  · omega
  · exact hlt

theorem FreeList.length_le (hl : FreeList h start f xs) : xs.length < memory := by
  have hsub : f :: xs ⊆ List.range memory := fun x hx =>
    List.mem_range.mpr ((hl.lt_brk hx).trans_le hl.le_memory)
  have hlen := (hl.nodup.subperm hsub).length_le
  rw [List.length_range, List.length_cons] at hlen
  exact hlen

theorem FreeList.rotate (hl : FreeList h start f xs) (hp : p ∈ f :: xs) :
    ∃ zs, Links h.next p zs p ∧ (f :: xs).Perm (p :: zs) := by
  obtain rfl | hp := List.mem_cons.mp hp
  · exact ⟨xs, hl.ring, .refl _⟩
  · obtain ⟨ys, zs, rfl⟩ := List.append_of_mem hp
    obtain ⟨hy, hz⟩ := links_append.mp hl.ring
    refine ⟨zs ++ f :: ys, links_append.mpr ⟨hz, hy⟩, ?_⟩
    have hperm : (f :: ys ++ p :: zs).Perm (p :: zs ++ f :: ys) := List.perm_append_comm
    exact hperm

theorem freeSearch_top {z : Nat} (n : Nat) (hl : Links h.next f xs z) (hz : z ≤ f)
    (hlt : ∀ x ∈ f :: xs, x < bp) :
    ∃ p ∈ f :: xs, freeSearch h bp (n + xs.length + 1) f = some p := by
  induction xs generalizing f with
  | nil =>
    have hn : h.next f = z := hl
    have hf := hlt f List.mem_cons_self
    refine ⟨f, List.mem_cons_self, ?_⟩
    rw [freeSearch, if_neg (by omega), if_pos ⟨by omega, .inl hf⟩]
  | cons b xs ih =>
    obtain ⟨hn, hl⟩ := hl
    obtain ⟨hf, hlt⟩ := List.forall_mem_cons.mp hlt
    have hb := hlt b List.mem_cons_self
    rw [List.length_cons, ← Nat.add_assoc, freeSearch, if_neg (by omega)]
    by_cases hle : b ≤ f
    · refine ⟨f, List.mem_cons_self, ?_⟩
      rw [if_pos ⟨by omega, .inl hf⟩]
    · obtain ⟨p, hp, hrun⟩ := ih hl (by omega) hlt
      refine ⟨p, List.mem_cons_of_mem f hp, ?_⟩
      rw [if_neg (by omega), hn]
      exact hrun

theorem free_top (hl : FreeList h start f xs) {nu : Nat} (hnu : 0 < nu)
    (hle : h.brk + nu * sizeofHeader ≤ memory) {g : Heap}
    (hg : g = { h with brk := h.brk + nu * sizeofHeader }.setSize h.brk nu) :
    ∃ p ∈ f :: xs, ∃ h', free g h.brk = some h' ∧ h'.freep = some p ∧
      h'.brk = h.brk + nu * sizeofHeader ∧
      (h'.next p = h.brk ∧ h'.size h.brk = nu ∨
        p + h.bytes p = h.brk ∧ h'.size p = h.size p + nu ∧
          ∀ x ∈ f :: xs, h'.next x = h.next x ∧ (x ≠ p → h'.size x = h.size x)) := by
  have hne : ∀ x ∈ f :: xs, x ≠ h.brk := fun x hx => (hl.lt_brk hx).ne
  have hnext : g.next = h.next := by
    rw [hg, Heap.next_setSize]
    rfl
  have hsize : ∀ x, x ≠ h.brk → g.size x = h.size x := by
    intro x hx
    rw [hg, Heap.size_setSize, Function.update_of_ne hx]
    rfl
  have htop : g.size h.brk = nu := by
    rw [hg, Heap.size_setSize, Function.update_self]
  have hbrk : g.brk = h.brk + nu * sizeofHeader := by rw [hg]; rfl
  have hfreep : g.freep = some f := by rw [hg]; exact hl.entry
  have hlen := hl.length_le
  obtain ⟨k, hk⟩ : ∃ k, memory + 2 = k + xs.length + 1 := ⟨memory + 1 - xs.length, by omega⟩
  obtain ⟨p, hp, hsearch⟩ := freeSearch_top (h := g) k (by rw [hnext]; exact hl.ring) le_rfl
    fun x hx => hl.lt_brk hx
  have hpn : g.next p < h.brk := by
    rw [hnext]
    exact hl.lt_brk (hl.ring.next_mem hp)
  have hupper : joinUpper g p h.brk = g.setPtr h.brk (g.next p) := by
    rw [joinUpper, if_neg (by omega)]
  refine ⟨p, hp, (joinLower (joinUpper g p h.brk) p h.brk).setFreep p, ?_, rfl, ?_, ?_⟩
  · rw [free, hfreep, hk]
    simp only [Option.bind_eq_bind, Option.bind_some, hsearch]
    rfl
  · rw [hupper, joinLower]
    split <;> exact hbrk
  · rw [hupper, joinLower]
    have hbytes : (g.setPtr h.brk (g.next p)).bytes p = h.bytes p := by
      rw [Heap.bytes, Heap.size_setPtr, hsize p (hne p hp), Heap.bytes]
    rw [hbytes]
    by_cases hjoin : p + h.bytes p = h.brk
    · right
      rw [if_pos hjoin]
      have hsum : uint (h.size p + nu) = h.size p + nu := by
        refine Nat.mod_eq_of_lt ?_
        rw [Heap.bytes, sizeofHeader] at hjoin
        rw [sizeofHeader, memory] at hle
        omega
      refine ⟨hjoin, ?_, fun x hx => ⟨?_, fun hxp => ?_⟩⟩
      · simp [hsize p (hne p hp), htop, hsum]
      · by_cases hxp : x = p
        · simp [hxp, hnext]
        · simp [hxp, hne x hx, hnext]
      · simp [hxp, hsize x (hne x hx)]
    · left
      rw [if_neg hjoin]
      simp [htop]

def Given (start nunits : Nat) (r : Option Nat × Heap) : Prop :=
  ∀ bp, r.1 = some bp → start ≤ bp ∧ bp + nunits * sizeofHeader ≤ r.2.brk

theorem take_given {prevp x : Nat} (hin : h.Inside start x) (hpos : 0 < nunits)
    (hsize : nunits ≤ h.size x) :
    Given start nunits (some (take h nunits prevp x).1, (take h nunits prevp x).2) := by
  obtain ⟨-, -, h0⟩ | ⟨hlo, -, hhi⟩ := hin
  · omega
  · rintro bp ⟨⟩
    rw [Heap.bytes] at hhi
    rw [take]
    by_cases heq : h.size x = nunits
    · rw [if_pos heq]
      rw [heq] at hhi
      exact ⟨hlo, hhi⟩
    · have hself : (h.setSize x (h.size x - nunits)).bytes x = (h.size x - nunits) * sizeofHeader := by
        rw [Heap.bytes, Heap.size_setSize, Function.update_self]
      have hsum : (h.size x - nunits) * sizeofHeader + nunits * sizeofHeader =
          h.size x * sizeofHeader := by
        rw [← Nat.add_mul, Nat.sub_add_cancel hsize]
      rw [if_neg heq]
      simp only [hself, Heap.brk_setSize, Heap.brk_setFreep]
      exact ⟨by omega, by omega⟩

def growAndSearch (nunits : Nat) (ok : Bool) (k : Nat) (h : Heap) : Option (Option Nat × Heap) := do
  match ← morecore h nunits ok with
  | none => some (none, h)
  | some h =>
    let p ← h.freep
    mallocLoop nunits ok k h p (h.next p)

theorem mallocLoop_search {f prevp nunits : Nat} (k : Nat) (ok : Bool) {zs : List Nat}
    (hl : Links h.next prevp zs f) (hf : h.freep = some f) (hout : f ∉ zs) :
    (∃ q ∈ prevp :: zs, nunits ≤ h.size (h.next q) ∧
      mallocLoop nunits ok (k + zs.length + 1) h prevp (h.next prevp) =
        some (some (take h nunits q (h.next q)).1, (take h nunits q (h.next q)).2)) ∨
    (∀ q ∈ f :: zs, h.size q < nunits) ∧
      mallocLoop nunits ok (k + zs.length + 1) h prevp (h.next prevp) =
        growAndSearch nunits ok k h := by
  induction zs generalizing prevp with
  | nil =>
    have hn : h.next prevp = f := hl
    rw [List.length_nil, Nat.add_zero, mallocLoop]
    by_cases hsize : nunits ≤ h.size (h.next prevp)
    · left
      refine ⟨prevp, List.mem_cons_self, hsize, ?_⟩
      rw [if_pos hsize]
    · right
      rw [if_neg hsize, hn, if_pos hf]
      refine ⟨?_, rfl⟩
      rw [List.forall_mem_singleton, ← hn]
      exact Nat.lt_of_not_le hsize
  | cons z zs ih =>
    obtain ⟨hn, hl⟩ := hl
    rw [List.mem_cons, not_or] at hout
    rw [List.length_cons, ← Nat.add_assoc, mallocLoop]
    by_cases hsize : nunits ≤ h.size (h.next prevp)
    · left
      refine ⟨prevp, List.mem_cons_self, hsize, ?_⟩
      rw [if_pos hsize]
    · have hne : h.freep ≠ some (h.next prevp) := by
        rw [hf, hn]
        exact fun he => hout.1 (Option.some.inj he)
      rw [if_neg hsize, if_neg hne, hn]
      rw [hn] at hsize
      obtain ⟨q, hq, hroom, hrun⟩ | ⟨hall, hrun⟩ := ih hl hout.2
      · exact .inl ⟨q, List.mem_cons_of_mem prevp hq, hroom, hrun⟩
      · refine .inr ⟨?_, hrun⟩
        obtain ⟨hfz, hall⟩ := List.forall_mem_cons.mp hall
        exact List.forall_mem_cons.mpr ⟨hfz, List.forall_mem_cons.mpr ⟨Nat.lt_of_not_le hsize, hall⟩⟩

theorem recorded_pos (nu : Nat) : 0 < recorded nu := by
  rw [recorded]
  split <;> omega

theorem asked_eq {nu : Nat} (hnu : nu * sizeofHeader < 2 ^ 31) :
    (asked nu).toInt = (recorded nu * sizeofHeader : Nat) := by
  refine Int32.toInt_ofNat_of_lt ?_
  rw [recorded]
  split
  · decide
  · exact hnu

theorem lt_of_asked {nu : Nat} (h : (asked nu).toInt = (recorded nu * sizeofHeader : Nat)) :
    recorded nu * sizeofHeader < 2 ^ 31 := by
  have hlt := (asked nu).toInt_lt
  omega

theorem le_recorded (nu : Nat) : nu ≤ recorded nu := by
  rw [recorded]
  split <;> omega

theorem morecore_eq {nu : Nat} (ok : Bool) (hnu : nu * sizeofHeader < 2 ^ 31) :
    morecore h nu ok = some none ∨ h.brk + recorded nu * sizeofHeader ≤ memory ∧
      morecore h nu ok = (free ({ h with brk := h.brk + recorded nu * sizeofHeader }.setSize h.brk
        (recorded nu)) h.brk).map some := by
  have hasked := asked_eq hnu
  have hpos : 0 < recorded nu * sizeofHeader := Nat.mul_pos (recorded_pos nu) (by decide)
  rw [morecore, sbrk, hasked, if_pos (by exact_mod_cast hpos)]
  by_cases hok : ok = true ∧ (h.brk : Int) + (recorded nu * sizeofHeader : Nat) ≤ memory
  · right
    have hnew : ((h.brk : Int) + (recorded nu * sizeofHeader : Nat)).toNat =
        h.brk + recorded nu * sizeofHeader := by omega
    have hmapped : { h with brk := h.brk + recorded nu * sizeofHeader }.mapped h.brk = true := by
      rw [sizeofHeader] at hpos ⊢
      simp only [Heap.mapped, decide_eq_true_eq]
      omega
    refine ⟨by exact_mod_cast hok.2, ?_⟩
    rw [if_pos hok, hnew]
    simp only [hmapped, if_true]
  · left
    rw [if_neg hok]

theorem FreeList.grow (hl : FreeList h start f xs) (ok : Bool) (hpos : 0 < nunits)
    (hlt : nunits * sizeofHeader < 2 ^ 31) {k : Nat} (hk : memory < k) :
    ∃ r, growAndSearch nunits ok k h = some r ∧ Given start nunits r := by
  obtain hmore | ⟨hle, hmore⟩ := morecore_eq ok hlt
  · rw [growAndSearch, hmore]
    exact ⟨_, rfl, by rintro _ ⟨⟩⟩
  · obtain ⟨p, hp, h', hfree, hentry, hbrk, hcase⟩ := free_top hl (recorded_pos nunits) hle rfl
    have hroom := le_recorded nunits
    have hlo := hl.le_brk
    rw [growAndSearch, hmore, hfree]
    simp only [Option.map_some, Option.bind_eq_bind, Option.bind_some, hentry]
    obtain ⟨hn, hs⟩ | ⟨hjoin, hs, hsame⟩ := hcase
    · -- the new block comes first
      obtain ⟨k, rfl⟩ : ∃ j, k = j + 1 := ⟨k - 1, by omega⟩
      have hbytes : h'.bytes h.brk = recorded nunits * sizeofHeader := by rw [Heap.bytes, hs]
      have hin : h'.Inside start h.brk := by
        refine .inr ⟨hlo, ?_, by omega⟩
        have := Nat.mul_pos (recorded_pos nunits) (by decide : 0 < sizeofHeader)
        omega
      rw [mallocLoop, hn, if_pos (by omega)]
      exact ⟨_, rfl, take_given hin hpos (by omega)⟩
    · -- `p` has grown, and the search comes to `p` at last
      obtain ⟨zs, hz, hperm⟩ := hl.rotate hp
      have hmem : ∀ x ∈ p :: zs, x ∈ f :: xs := fun x hx => hperm.mem_iff.mpr hx
      have hz' : Links h'.next p zs p := hz.congr fun x hx => (hsame x (hmem x hx)).1
      have hout : p ∉ zs := (List.nodup_cons.mp (hperm.nodup_iff.mp hl.nodup)).1
      have hlen := hperm.length_eq
      have hshort := hl.length_le
      rw [List.length_cons, List.length_cons] at hlen
      have hin : ∀ x ∈ p :: zs, nunits ≤ h'.size x → h'.Inside start x := by
        intro x hx hsize
        have hlt := hl.lt_brk (hmem x hx)
        obtain hbase | ⟨hge, -, hhi⟩ := hl.inside x (hmem x hx)
        · exfalso
          by_cases hxp : x = p
          · rw [Heap.bytes, ← hxp, hbase.2.2] at hjoin
            omega
          · rw [(hsame x (hmem x hx)).2 hxp, hbase.2.2] at hsize
            omega
        · refine .inr ⟨hge, by omega, ?_⟩
          by_cases hxp : x = p
          · rw [Heap.bytes, hxp, hs, Nat.add_mul, hbrk]
            rw [Heap.bytes] at hjoin
            omega
          · rw [Heap.bytes, (hsame x (hmem x hx)).2 hxp]
            rw [Heap.bytes] at hhi
            omega
      obtain ⟨k, rfl⟩ : ∃ j, k = j + zs.length + 1 := ⟨k - 1 - zs.length, by omega⟩
      obtain ⟨q, hq, hsize, hrun⟩ | ⟨hall, -⟩ := mallocLoop_search k ok hz' hentry hout
      · exact ⟨_, hrun, take_given (hin _ (hz'.next_mem hq) hsize) hpos hsize⟩
      · have := hall p List.mem_cons_self
        omega

theorem FreeList.mallocLoop (hl : FreeList h start f xs) (ok : Bool) (hpos : 0 < nunits)
    (hlt : nunits * sizeofHeader < 2 ^ 31) :
    ∃ r, mallocLoop nunits ok (2 * memory + 4) h f (h.next f) = some r ∧ Given start nunits r := by
  have hlen := hl.length_le
  obtain ⟨k, hk⟩ : ∃ k, 2 * memory + 4 = k + xs.length + 1 := ⟨2 * memory + 3 - xs.length, by omega⟩
  rw [hk]
  obtain ⟨q, hq, hsize, hrun⟩ | ⟨-, hrun⟩ :=
    mallocLoop_search k ok hl.ring hl.entry (List.nodup_cons.mp hl.nodup).1
  · exact ⟨_, hrun, take_given (hl.inside _ (hl.ring.next_mem hq)) hpos hsize⟩
  · rw [hrun]
    exact hl.grow ok hpos hlt (by omega)

/-- The request, rounded up, is less than 2^31 bytes. -/
def Small (nbytes : UInt32) : Prop := units nbytes * sizeofHeader < 2 ^ 31

instance (nbytes : UInt32) : Decidable (Small nbytes) := inferInstanceAs (Decidable (_ < _))

theorem units_eq (nbytes : UInt32) : units nbytes = (nbytes.toNat + 15) / 16 + 1 := by
  have hlt := nbytes.toNat_lt
  rw [units, uint, sizeofHeader]
  omega

theorem units_pos (nbytes : UInt32) : 0 < units nbytes := by
  rw [units_eq]
  omega

theorem le_units (nbytes : UInt32) : sizeofHeader + nbytes.toNat ≤ units nbytes * sizeofHeader := by
  rw [units_eq, sizeofHeader]
  omega

theorem Sound.prepare (hs : Sound h start) : ∃ xs, FreeList (prepare h).1 start (prepare h).2 xs := by
  obtain ⟨hf, hbase, hlo, hhi⟩ | ⟨f, xs, hl⟩ := hs
  · rw [Umalloc.prepare, hf]
    refine ⟨[], rfl, ?_, List.nodup_singleton _, ?_, hlo, hhi⟩
    · simp [Links]
    · rw [List.forall_mem_singleton]
      exact .inl ⟨rfl, hbase, by simp⟩
  · rw [Umalloc.prepare, hl.entry]
    exact ⟨xs, hl⟩

/-- `malloc` returns 0 or a block whose bytes all are memory from `sbrk`, and what `morecore` asks for
is what it records, for small requests and for no others. -/
theorem malloc_inside_sbrk_memory (hs : Sound h start) (nbytes : UInt32) (ok : Bool) :
    ((∃ r h', malloc h nbytes ok = some (r, h') ∧
        ∀ bp, r = some bp → start ≤ bp ∧ bp + sizeofHeader + nbytes.toNat ≤ h'.brk) ∧
      (asked (units nbytes)).toInt = (recorded (units nbytes) * sizeofHeader : Nat)) ↔
      Small nbytes := by
  refine ⟨fun h => ?_, fun hsmall => ⟨?_, asked_eq hsmall⟩⟩
  · have hfit := lt_of_asked h.2
    have hle := Nat.mul_le_mul_right sizeofHeader (le_recorded (units nbytes))
    exact hle.trans_lt hfit
  obtain ⟨xs, hl⟩ := hs.prepare
  obtain ⟨⟨r, h'⟩, hm, hgiven⟩ := hl.mallocLoop ok (units_pos nbytes) hsmall
  refine ⟨r, h', hm, fun bp hr => ?_⟩
  have hroom := le_units nbytes
  obtain ⟨hlo, hhi⟩ := hgiven bp hr
  dsimp only at hhi
  exact ⟨hlo, by omega⟩

def newborn : Heap := ⟨fun _ => ⟨0, 0⟩, 0x1000, none, 0x4000⟩

theorem malloc_inside_sbrk_memory_newborn :
    ∃ r h', malloc newborn 100 true = some (r, h') ∧
      (∀ bp, r = some bp → 0x4000 ≤ bp ∧ bp + 16 + 100 ≤ h'.brk) ∧ r.isSome = true := by
  have hs : Sound newborn 0x4000 := .inl ⟨rfl, by decide, le_rfl, by decide⟩
  obtain ⟨⟨r, h', hm, hin⟩, -⟩ := (malloc_inside_sbrk_memory hs 100 true).mpr (by decide)
  have hsome : (malloc newborn 100 true).map (fun r => r.1.isSome) = some true := by
    decide +kernel
  rw [hm] at hsome
  exact ⟨r, h', hm, hin, Option.some.inj hsome⟩

/-- `malloc(0xFFFFFFFF)` asks `sbrk` for 16 bytes, records 2^28 + 1 units, and returns a block of 16
bytes. `malloc(0x80000000)` asks for a negative number: it returns a block above a break inside a
page; where a page begins at the break, the store to the new header kills the process. -/
theorem malloc_outside_sbrk_memory :
    (malloc newborn 0xFFFFFFFF true).map (fun r => (r.1, r.2.brk)) =
        some (some 0x4000, 0x4010) ∧
      (asked (units 0xFFFFFFFF)).toInt = 16 ∧ recorded (units 0xFFFFFFFF) = 2 ^ 28 + 1 ∧
      (asked (units 0x80000000)).toInt = -(2 ^ 31) + 16 ∧
      (malloc { newborn with brk := 0x4010 } 0x80000000 true).map (fun r => (r.1, r.2.brk)) =
        some (some 0x4010, 0x4010) ∧
      (malloc newborn 0x80000000 true).isNone = true := by
  decide +kernel

end Xv6.Umalloc

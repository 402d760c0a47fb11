import Xv6.Console.Input
import Xv6.Param
import Xv6.Pipe.Machine

namespace Xv6.Read

open Lib Console.Input Pipe

abbrev Stores := List (Nat × UInt8)

/-- The bytes `bs` one after the other from `dst` on. -/
def stored (dst : Nat) (bs : List UInt8) : Stores := bs.mapIdx fun j b => (dst + j, b)

def copyoutFrom (mapped : Nat → Bool) : Nat → Nat → List UInt8 → Stores × Bool
  | 0, _, _ => ([], true)
  | fuel + 1, dstva, src =>
    if src = [] then ([], true)
    else
      let va0 := dstva / PGSIZE * PGSIZE
      if mapped va0 then
        let n := PGSIZE - (dstva - va0)
        let rest := copyoutFrom mapped fuel (va0 + PGSIZE) (src.drop n)
        (stored dstva (src.take n) ++ rest.1, rest.2)
      else ([], false)

/-- Copy from kernel to user: what has been stored, and whether that is everything. -/
def copyout (mapped : Nat → Bool) (dstva : Nat) (src : List UInt8) : Stores × Bool :=
  copyoutFrom mapped src.length dstva src

/-- What a read returns, what it has stored and what it leaves of the buffer it reads from. -/
structure Result (β : Type) where
  value : Int
  stores : Stores
  buffer : β

/-- A pipe as a reader finds it when it has `pi->lock`. -/
structure PipeView where
  ring : Ring UInt8 PIPESIZE
  writeopen : Bool
  killed : Bool

def pipeCopy (mapped : Nat → Bool) (addr : Nat) :
    (left i : Nat) → Ring UInt8 PIPESIZE → Result (Ring UInt8 PIPESIZE)
  | 0, i, ring => ⟨i, [], ring⟩
  | left + 1, i, ring =>
    if ring.isEmpty then ⟨i, [], ring⟩
    else
      let ch := ring.front
      let ring := ring.pop
      let out := copyout mapped (addr + i) [ch]
      if out.2 then
        let rest := pipeCopy mapped addr left (i + 1) ring
        ⟨rest.value, out.1 ++ rest.stores, rest.buffer⟩
      else ⟨i, out.1, ring⟩

/-- `piperead`, for a reader that finds the pipe in these states one after the other as long as it
has to sleep. None: it is still asleep. -/
def piperead (mapped : Nat → Bool) (addr : Nat) (n : Int32) :
    List PipeView → Option (Result (Ring UInt8 PIPESIZE))
  | [] => none
  | v :: views =>
    if v.ring.isEmpty && v.writeopen then
      if v.killed then some ⟨-1, [], v.ring⟩ else piperead mapped addr n views
    else some (pipeCopy mapped addr n.toInt.toNat 0 v.ring)

structure ConsView where
  cons : Cons
  killed : Bool

inductive ConsEnd where
  | sleep (n dst : Nat)
  | ret (value : Int)

/-- The loop of `consoleread` until the reader leaves `cons.lock`. -/
def consCopy (mapped : Nat → Bool) (target : Nat) (killed : Bool) :
    (n dst : Nat) → Cons → Cons × Stores × ConsEnd
  | 0, _, s => (s, [], .ret target)
  | n + 1, dst, s =>
    if s.r = s.w then (s, [], if killed then .ret (-1) else .sleep (n + 1) dst)
    else
      let c := s.buf (Ring.index INPUT_BUF s.r)
      let s := { s with r := s.r + 1 }
      if c = ctrl 'D' then
        -- the end of file is saved for next time if this read has something to return
        (if n + 1 < target then { s with r := s.r - 1 } else s, [], .ret (target - (n + 1)))
      else
        let out := copyout mapped dst [c]
        if out.2 then
          if c = newline then (s, out.1, .ret (target - n))
          else
            let rest := consCopy mapped target killed n (dst + 1) s
            (rest.1, out.1 ++ rest.2.1, rest.2.2)
        else (s, out.1, .ret (target - (n + 1)))

def consResume (mapped : Nat → Bool) (target n dst : Nat) (stores : Stores) :
    List ConsView → Option (Result Cons)
  | [] => none
  | v :: views =>
    match consCopy mapped target v.killed n dst v.cons with
    | (s, new, .ret value) => some ⟨value, stores ++ new, s⟩
    | (_, new, .sleep n dst) => consResume mapped target n dst (stores ++ new) views

/-- `consoleread`. A negative count is as good as 0: the loop is not entered, and `target - n`
is 0. -/
def consoleread (mapped : Nat → Bool) (dst : Nat) (n : Int32) (views : List ConsView) :
    Option (Result Cons) :=
  consResume mapped n.toInt.toNat n.toInt.toNat dst [] views

structure Within (addr n : Nat) (stores : Stores) : Prop where
  length_le : stores.length ≤ n
  addrs : ∀ x ∈ stores, addr ≤ x.1 ∧ x.1 < addr + n

section Within

variable {addr n m : Nat} {stores more : Stores}

theorem Within.nil : Within addr n [] := ⟨Nat.zero_le n, nofun⟩

theorem Within.mono (h : Within addr n stores) (hm : n ≤ m) : Within addr m stores := by
  refine ⟨h.length_le.trans hm, fun x hx => ?_⟩
  have := h.addrs x hx
  omega

theorem Within.append (h : Within addr n stores) (h' : Within (addr + n) m more) :
    Within addr (n + m) (stores ++ more) := by
  constructor
  · have := h.length_le
    have := h'.length_le
    rw [List.length_append]
    omega
  · intro x hx
    obtain hx | hx := List.mem_append.mp hx
    · have := h.addrs x hx
      omega
    · have := h'.addrs x hx
      omega

theorem stored_within (dst : Nat) (bs : List UInt8) : Within dst bs.length (stored dst bs) := by
  constructor
  · simp [stored]
  · intro x hx
    obtain ⟨j, hj, rfl⟩ := List.mem_mapIdx.mp hx
    exact ⟨Nat.le_add_right dst j, by simpa using hj⟩

theorem copyoutFrom_within (mapped : Nat → Bool) (fuel dst : Nat) (bs : List UInt8) :
    Within dst bs.length (copyoutFrom mapped fuel dst bs).1 := by
  induction fuel generalizing dst bs with
  | zero => exact .nil
  | succ fuel ih =>
    rw [copyoutFrom]
    split
    · exact .nil
    dsimp only
    split
    · have hfirst := stored_within dst (bs.take (PGSIZE - (dst - dst / PGSIZE * PGSIZE)))
      have hrest := ih (dst / PGSIZE * PGSIZE + PGSIZE)
        (bs.drop (PGSIZE - (dst - dst / PGSIZE * PGSIZE)))
      rw [List.length_take] at hfirst
      rw [List.length_drop] at hrest
      have hpage := Nat.div_add_mod dst PGSIZE
      have hmod := Nat.mod_lt dst (show 0 < PGSIZE by decide)
      rw [Nat.mul_comm] at hpage
      by_cases hle : bs.length ≤ PGSIZE - (dst - dst / PGSIZE * PGSIZE)
      · -- the last page: nothing is left
        have hnil := hrest.length_le
        have : (copyoutFrom mapped fuel (dst / PGSIZE * PGSIZE + PGSIZE)
            (bs.drop (PGSIZE - (dst - dst / PGSIZE * PGSIZE)))).1 = [] :=
          List.length_eq_zero_iff.mp (by omega)
        rw [this, List.append_nil]
        exact hfirst.mono (min_le_right _ _)
      · rw [min_eq_left (by omega)] at hfirst
        have hnext : dst / PGSIZE * PGSIZE + PGSIZE =
            dst + (PGSIZE - (dst - dst / PGSIZE * PGSIZE)) := by omega
        rw [hnext] at hrest ⊢
        exact (hfirst.append hrest).mono (by omega)
    · exact .nil

theorem copyout_within (mapped : Nat → Bool) (dst : Nat) (bs : List UInt8) :
    Within dst bs.length (copyout mapped dst bs).1 :=
  copyoutFrom_within mapped bs.length dst bs

end Within

def reaches (mapped : Nat → Bool) (va : Nat) : Bool := mapped (va / PGSIZE * PGSIZE)

theorem copyout_one (mapped : Nat → Bool) (dst : Nat) (b : UInt8) :
    copyout mapped dst [b] = if reaches mapped dst then ([(dst, b)], true) else ([], false) := by
  have hpos : 0 < PGSIZE - (dst - dst / PGSIZE * PGSIZE) := by
    have hpage := Nat.div_add_mod dst PGSIZE
    have hmod := Nat.mod_lt dst (show 0 < PGSIZE by decide)
    rw [Nat.mul_comm] at hpage
    omega
  obtain ⟨k, hk⟩ := Nat.exists_eq_succ_of_ne_zero hpos.ne'
  rw [reaches]
  split
  next h => simp [copyout, copyoutFrom, hk, stored, h]
  next h => simp [copyout, copyoutFrom, h]

section Bounds

variable {mapped : Nat → Bool}

theorem pipeCopy_bounds (mapped : Nat → Bool) (addr left i : Nat) (ring : Ring UInt8 PIPESIZE) :
    Within (addr + i) left (pipeCopy mapped addr left i ring).stores ∧
      (pipeCopy mapped addr left i ring).value ≤ i + left := by
  induction left generalizing i ring with
  | zero => exact ⟨.nil, by simp [pipeCopy]⟩
  | succ left ih =>
    rw [pipeCopy]
    split
    · exact ⟨.nil, by dsimp only; omega⟩
    dsimp only
    have hone := copyout_within mapped (addr + i) [ring.front]
    split
    · obtain ⟨hrest, hvalue⟩ := ih (i + 1) ring.pop
      refine ⟨?_, by dsimp only; omega⟩
      rw [Nat.add_comm left 1]
      exact hone.append hrest
    · exact ⟨hone.mono (by simp), by dsimp only; omega⟩

theorem piperead_bounds {addr : Nat} {n : Int32} {views : List PipeView}
    {out : Result (Ring UInt8 PIPESIZE)} (h : piperead mapped addr n views = some out) :
    Within addr n.toInt.toNat out.stores ∧ out.value ≤ n.toInt.toNat := by
  induction views with
  | nil => cases h
  | cons v views ih =>
    rw [piperead] at h
    split at h
    · split at h
      · cases h
        exact ⟨.nil, by dsimp only; omega⟩
      · exact ih h
    · cases h
      have := pipeCopy_bounds mapped addr n.toInt.toNat 0 v.ring
      simpa using this

theorem consCopy_within (mapped : Nat → Bool) (target : Nat) (killed : Bool) (n dst : Nat)
    (s : Cons) : Within dst n (consCopy mapped target killed n dst s).2.1 := by
  induction n generalizing dst s with
  | zero => exact .nil
  | succ n ih =>
    rw [consCopy]
    split
    · exact .nil
    dsimp only
    split
    · exact .nil
    have hone := copyout_within mapped dst [s.buf (Ring.index INPUT_BUF s.r)]
    split
    · split
      · exact hone.mono (by simp)
      · rw [Nat.add_comm n 1]
        exact hone.append (ih (dst + 1) _)
    · exact hone.mono (by simp)

theorem consCopy_sleep {target : Nat} {killed : Bool} {n dst n' dst' : Nat} {s : Cons}
    (h : (consCopy mapped target killed n dst s).2.2 = .sleep n' dst') :
    ∃ k, n = k + n' ∧ dst' = dst + k ∧
      Within dst k (consCopy mapped target killed n dst s).2.1 := by
  induction n generalizing dst s with
  | zero => cases h
  | succ n ih =>
    rw [consCopy] at h ⊢
    split at h
    next he =>
      rw [if_pos he]
      split at h
      · cases h
      · cases h
        exact ⟨0, (Nat.zero_add _).symm, rfl, .nil⟩
    next he =>
      rw [if_neg he]
      dsimp only at h ⊢
      split at h
      · cases h
      next hd =>
      rw [if_neg hd]
      split at h
      next hout =>
        rw [if_pos hout]
        split at h
        · cases h
        next hnl =>
          rw [if_neg hnl]
          obtain ⟨k, hk, hdst, hin⟩ := ih h
          have hone := copyout_within mapped dst [s.buf (Ring.index INPUT_BUF s.r)]
          exact ⟨1 + k, by omega, by omega, hone.append hin⟩
      · cases h

theorem consCopy_value {target : Nat} {killed : Bool} {n dst : Nat} {s : Cons} {value : Int}
    (h : (consCopy mapped target killed n dst s).2.2 = .ret value) : value ≤ target := by
  induction n generalizing dst s with
  | zero =>
    cases h
    exact le_rfl
  | succ n ih =>
    rw [consCopy] at h
    split at h
    · split at h
      · cases h
        omega
      · cases h
    dsimp only at h
    split at h
    · cases h
      omega
    split at h
    · split at h
      · cases h
        omega
      · exact ih h
    · cases h
      omega

theorem consResume_bounds {target n dst done : Nat} {stores : Stores} {views : List ConsView}
    {out : Result Cons} (h : consResume mapped target n dst stores views = some out) {addr : Nat}
    (hdst : dst = addr + done) (hin : Within addr done stores) :
    Within addr (done + n) out.stores ∧ out.value ≤ target := by
  induction views generalizing n dst done stores with
  | nil => cases h
  | cons v views ih =>
    rw [consResume] at h
    have hnew := consCopy_within mapped target v.killed n dst v.cons
    split at h
    next s new value hc =>
      cases h
      rw [hc, hdst] at hnew
      exact ⟨hin.append hnew, consCopy_value (congrArg (fun x => x.2.2) hc)⟩
    next s new n' dst' hc =>
      obtain ⟨k, hk, hdst', hsleep⟩ := consCopy_sleep (congrArg (fun x => x.2.2) hc)
      rw [hc, hdst] at hsleep
      have := ih h (by omega) (hin.append hsleep)
      rwa [Nat.add_assoc, ← hk] at this

theorem consoleread_bounds {addr : Nat} {n : Int32} {views : List ConsView} {out : Result Cons}
    (h : consoleread mapped addr n views = some out) :
    Within addr n.toInt.toNat out.stores ∧ out.value ≤ n.toInt.toNat := by
  have := consResume_bounds h rfl (.nil : Within addr 0 [])
  rwa [Nat.zero_add] at this

end Bounds

def queue (s : Cons) : Ring UInt8 INPUT_BUF := ⟨s.buf, s.r, s.w⟩

/-- What has been stored are the first elements of the queue, and the rest is left. -/
structure Removes {cap : Nat} [NeZero cap] (before : Ring UInt8 cap) (stores : Stores)
    (after : Ring UInt8 cap) : Prop where
  bytes : stores.map Prod.snd = before.contents.take stores.length
  left : after.contents = before.contents.drop stores.length

section Removes

variable {cap : Nat} [NeZero cap] {r r' : Ring UInt8 cap} {stores : Stores}

theorem Removes.refl (r : Ring UInt8 cap) : Removes r [] r := ⟨rfl, rfl⟩

theorem removes_cons_iff (hr : r.isEmpty = false) (dst : Nat) :
    Removes r ((dst, r.front) :: stores) r' ↔ Removes r.pop stores r' := by
  have hc := Ring.contents_pop hr
  constructor
  · rintro ⟨hbytes, hleft⟩
    rw [hc, List.map_cons, List.length_cons, List.take_succ_cons] at hbytes
    rw [hc, List.length_cons, List.drop_succ_cons] at hleft
    exact ⟨(List.cons.inj hbytes).2, hleft⟩
  · rintro ⟨hbytes, hleft⟩
    constructor
    · rw [hc, List.map_cons, hbytes, List.length_cons, List.take_succ_cons]
    · rw [hc, hleft, List.length_cons, List.drop_succ_cons]

theorem not_removes_pop (hr : r.isEmpty = false) : ¬Removes r [] r.pop := by
  intro h
  have hlen := congrArg List.length h.left
  rw [Ring.contents_pop hr, List.length_nil, List.drop_zero, List.length_cons] at hlen
  omega

end Removes

/-- Every byte that `piperead` takes from the pipe has a place to go. -/
def Fits {cap : Nat} (mapped : Nat → Bool) (addr n : Nat) (r : Ring UInt8 cap) : Prop :=
  ∀ i, i < n → i < r.size → reaches mapped (addr + i)

theorem fits_succ_iff {cap : Nat} {r : Ring UInt8 cap} {mapped : Nat → Bool} {addr n : Nat}
    (hr : r.isEmpty = false) :
    Fits mapped addr (n + 1) r ↔ reaches mapped addr ∧ Fits mapped (addr + 1) n r.pop := by
  have hsize := Ring.size_pop hr
  constructor
  · intro h
    refine ⟨h 0 (Nat.succ_pos n) (by omega), fun i hi hlt => ?_⟩
    have := h (i + 1) (by omega) (by omega)
    rwa [Nat.add_comm i 1, ← Nat.add_assoc] at this
  · rintro ⟨hfirst, hrest⟩ i hi hlt
    cases i with
    | zero => exact hfirst
    | succ i =>
      have := hrest i (by omega) (by omega)
      rwa [Nat.add_right_comm] at this

theorem pipeCopy_removes_iff {mapped : Nat → Bool} {addr left i : Nat}
    {ring : Ring UInt8 PIPESIZE} :
    Removes ring (pipeCopy mapped addr left i ring).stores
      (pipeCopy mapped addr left i ring).buffer ↔ Fits mapped (addr + i) left ring := by
  induction left generalizing i ring with
  | zero => exact iff_of_true (.refl ring) fun _ hi => absurd hi (Nat.not_lt_zero _)
  | succ left ih =>
    rw [pipeCopy]
    cases he : ring.isEmpty with
    | true =>
      have hsize := (ring.isEmpty_iff).mp he
      exact iff_of_true (.refl ring) fun _ _ hlt => by omega
    | false =>
      rw [fits_succ_iff he]
      cases hm : reaches mapped (addr + i) with
      | false =>
        simp only [copyout_one, hm]
        exact iff_of_false (not_removes_pop he) fun h => absurd h.1 (by decide)
      | true =>
        simp only [copyout_one, hm, ↓reduceIte, Bool.false_eq_true, true_and]
        exact (removes_cons_iff he (addr + i)).trans (ih (i := i + 1))

/-- How many of the bytes in the queue `consoleread` delivers if it can: up to a newline, or to an
end of file. -/
def wanted : Nat → List UInt8 → Nat
  | n + 1, c :: q => if c = ctrl 'D' then 0 else if c = newline then 1 else wanted n q + 1
  | _, _ => 0

/-- All the bytes wanted have a place to go, and the call does not begin at an end of file. -/
def ConsFits (mapped : Nat → Bool) (target n dst : Nat) (q : List UInt8) : Prop :=
  (∀ i < wanted n q, reaches mapped (dst + i)) ∧ ¬(0 < n ∧ n = target ∧ q.head? = some (ctrl 'D'))

theorem contents_queue {s : Cons} (h : s.r = s.w) : (queue s).contents = [] := by
  have hsize := ((queue s).isEmpty_iff).mp (decide_eq_true h)
  rw [Ring.contents, hsize]
  rfl

theorem consCopy_removes_iff {mapped : Nat → Bool} {target : Nat} {killed : Bool} {n dst : Nat}
    {s : Cons} (hn : n ≤ target) :
    Removes (queue s) (consCopy mapped target killed n dst s).2.1
      (queue (consCopy mapped target killed n dst s).1) ↔
      ConsFits mapped target n dst (queue s).contents := by
  induction n generalizing dst s with
  | zero =>
    exact iff_of_true (.refl (queue s)) ⟨fun i hi => absurd hi (Nat.not_lt_zero i), fun h =>
      absurd h.1 (Nat.lt_irrefl 0)⟩
  | succ n ih =>
    rw [consCopy]
    by_cases he : s.r = s.w
    · rw [if_pos he, contents_queue he]
      exact iff_of_true (.refl (queue s)) ⟨fun i hi => absurd hi (Nat.not_lt_zero i), fun h => by
        cases h.2.2⟩
    rw [if_neg he]
    have he : (queue s).isEmpty = false := decide_eq_false he
    have hq : (queue s).contents = s.buf (Ring.index INPUT_BUF s.r) :: (queue s).pop.contents :=
      Ring.contents_pop he
    rw [hq]
    dsimp only
    by_cases hc : s.buf (Ring.index INPUT_BUF s.r) = ctrl 'D'
    · rw [if_pos hc]
      have hzero : wanted (n + 1) (s.buf (Ring.index INPUT_BUF s.r) :: (queue s).pop.contents) = 0 :=
        if_pos hc
      split
      next hlt =>
        rw [UInt32.add_sub_cancel]
        refine iff_of_true (.refl (queue s)) ⟨fun i hi => by omega, fun h => by omega⟩
      next hge =>
        refine iff_of_false (not_removes_pop he) fun h => h.2 ⟨n.succ_pos, by omega, ?_⟩
        exact congrArg some hc
    rw [if_neg hc]
    have hhead : ¬(0 < n + 1 ∧ n + 1 = target ∧ (s.buf (Ring.index INPUT_BUF s.r) ::
        (queue s).pop.contents).head? = some (ctrl 'D')) := fun h => hc (Option.some.inj h.2.2)
    cases hm : reaches mapped dst with
    | false =>
      simp only [copyout_one, hm]
      refine iff_of_false (not_removes_pop he) fun h => ?_
      have hfirst := h.1 0 (by
        rw [wanted, if_neg hc]
        split <;> omega)
      rw [Nat.add_zero, hm] at hfirst
      cases hfirst
    | true =>
      simp only [copyout_one, hm, ↓reduceIte]
      by_cases hnl : s.buf (Ring.index INPUT_BUF s.r) = newline
      · rw [if_pos hnl]
        refine iff_of_true ((removes_cons_iff he dst).mpr (.refl _)) ⟨fun i hi => ?_, hhead⟩
        rw [wanted, if_neg hc, if_pos hnl] at hi
        obtain rfl : i = 0 := by omega
        exact hm
      · rw [if_neg hnl]
        refine (removes_cons_iff he dst).trans ?_
        refine (ih (s := { s with r := s.r + 1 }) (by omega)).trans ?_
        change ConsFits mapped target n (dst + 1) (queue s).pop.contents ↔ _
        have hwanted : wanted (n + 1) (s.buf (Ring.index INPUT_BUF s.r) ::
            (queue s).pop.contents) = wanted n (queue s).pop.contents + 1 := by
          rw [wanted, if_neg hc, if_neg hnl]
        rw [ConsFits, ConsFits, hwanted]
        constructor
        · rintro ⟨hrest, -⟩
          refine ⟨fun i hi => ?_, hhead⟩
          cases i with
          | zero => exact hm
          | succ i =>
            have := hrest i (by omega)
            rwa [Nat.add_right_comm] at this
        · rintro ⟨hall, -⟩
          refine ⟨fun i hi => ?_, fun h => by omega⟩
          have := hall (i + 1) (by omega)
          rwa [Nat.add_comm i 1, ← Nat.add_assoc] at this

theorem consCopy_asleep {mapped : Nat → Bool} {target : Nat} {killed : Bool} {n dst n' dst' : Nat}
    {s : Cons} (h : (consCopy mapped target killed n dst s).2.2 = .sleep n' dst') :
    (consCopy mapped target killed n dst s).2.1.map Prod.snd = (queue s).contents ∧
      n = n' + (queue s).contents.length ∧ dst' = dst + (queue s).contents.length := by
  induction n generalizing dst s with
  | zero => cases h
  | succ n ih =>
    rw [consCopy] at h ⊢
    by_cases he : s.r = s.w
    · rw [if_pos he] at h ⊢
      rw [contents_queue he]
      cases killed with
      | true => cases h
      | false =>
        cases h
        exact ⟨rfl, rfl, rfl⟩
    rw [if_neg he] at h ⊢
    have hq := Ring.contents_pop (show (queue s).isEmpty = false from decide_eq_false he)
    rw [hq]
    dsimp only at h ⊢
    split at h
    · cases h
    next hc =>
    rw [if_neg hc]
    cases hm : reaches mapped dst with
    | false =>
      simp only [copyout_one, hm] at h
      cases h
    | true =>
      simp only [copyout_one, hm, ↓reduceIte] at h ⊢
      split at h
      · cases h
      next hnl =>
        rw [if_neg hnl]
        obtain ⟨hbytes, hn, hdst⟩ := ih h
        have hpop : (queue { s with r := s.r + 1 }).contents = (queue s).pop.contents := rfl
        rw [hpop] at hbytes hn hdst
        rw [List.length_cons]
        exact ⟨congrArg (_ :: ·) hbytes, by omega, by omega⟩

/-- The bytes that the queue holds in these states, one after the other. -/
def typed (views : List ConsView) : List UInt8 := views.flatMap fun v => (queue v.cons).contents

theorem consResume_asleep {mapped : Nat → Bool} {target n dst : Nat} {stores : Stores}
    {views more : List ConsView} (h : consResume mapped target n dst stores views = none) :
    ∃ new, new.map Prod.snd = typed views ∧ (typed views).length ≤ n ∧
      consResume mapped target n dst stores (views ++ more) =
        consResume mapped target (n - (typed views).length) (dst + (typed views).length)
          (stores ++ new) more := by
  induction views generalizing n dst stores with
  | nil => exact ⟨[], rfl, Nat.zero_le n, by simp [typed]⟩
  | cons v views ih =>
    rw [List.cons_append, consResume]
    rw [consResume] at h
    split at h
    · cases h
    next s new n' dst' hc =>
      obtain ⟨hbytes, hn, hdst⟩ := consCopy_asleep (congrArg (fun x => x.2.2) hc)
      rw [hc] at hbytes
      obtain ⟨rest, hrest, hle, hresume⟩ := ih h
      have htyped : typed (v :: views) = (queue v.cons).contents ++ typed views := rfl
      have hlen := congrArg List.length htyped
      rw [List.length_append] at hlen
      refine ⟨new ++ rest, ?_, by omega, ?_⟩
      · rw [List.map_append, hbytes, hrest, htyped]
      · have hn' : n' - (typed views).length = n - (typed (v :: views)).length := by omega
        have hdst'' : dst' + (typed views).length = dst + (typed (v :: views)).length := by omega
        rw [hresume, hn', hdst'', List.append_assoc]

/-- A read removes exactly what it delivers just if everything it takes out has a place to go:
`piperead` from the pipe it finds when it need not sleep, and `consoleread`, which has delivered
everything before it sleeps, from the queue in which it ends, unless it begins at an end of file. -/
theorem reads_remove_delivered (mapped : Nat → Bool) (addr : Nat) (n : Int32) :
    (∀ (v : PipeView) (views : List PipeView) (out : Result (Ring UInt8 PIPESIZE)),
      v.ring.isEmpty = false ∨ v.writeopen = false ∨ v.killed = true →
      piperead mapped addr n (v :: views) = some out →
      (Removes v.ring out.stores out.buffer ↔ Fits mapped addr n.toInt.toNat v.ring)) ∧
    (∀ (views : List ConsView) (v : ConsView) (out : Result Cons),
      consoleread mapped addr n views = none → consoleread mapped addr n (views ++ [v]) = some out →
      ∃ before last, out.stores = before ++ last ∧ before.map Prod.snd = typed views ∧
        (Removes (queue v.cons) last (queue out.buffer) ↔ ConsFits mapped n.toInt.toNat
          (n.toInt.toNat - (typed views).length) (addr + (typed views).length)
          (queue v.cons).contents)) := by
  constructor
  · intro v views out hv h
    rw [piperead] at h
    split at h
    next hwait =>
      rw [Bool.and_eq_true] at hwait
      have hkilled : v.killed = true := by simpa [hwait] using hv
      rw [if_pos hkilled] at h
      cases h
      have hsize := (v.ring.isEmpty_iff).mp hwait.1
      exact iff_of_true (.refl v.ring) fun _ _ hlt => by omega
    next =>
      cases h
      exact pipeCopy_removes_iff (i := 0)
  · intro views v out hsleep h
    obtain ⟨new, hnew, hle, hresume⟩ := @consResume_asleep mapped _ _ _ _ views [v] hsleep
    rw [consoleread, hresume, consResume] at h
    split at h
    next s last value hc =>
      cases h
      refine ⟨new, last, rfl, hnew, ?_⟩
      have hiff := @consCopy_removes_iff mapped _ v.killed _ (addr + (typed views).length) v.cons
        (Nat.sub_le n.toInt.toNat (typed views).length)
      rwa [hc] at hiff
    · cases h

def oneByte : Ring UInt8 PIPESIZE := ⟨fun _ => 7, 0, 1⟩

/-- The console after the line `a` has been typed. -/
def oneLine : Cons := ⟨fun j => if j = 0 then 97 else newline, 0, 2, 2⟩

theorem reads_remove_delivered_one :
    (∃ out, piperead (fun _ => true) 0 1 [⟨oneByte, true, false⟩] = some out ∧
      Removes oneByte out.stores out.buffer ∧ out.stores = [(0, 7)]) ∧
    ∃ out before last, consoleread (fun _ => true) 0 2 [⟨oneLine, false⟩] = some out ∧
      out.stores = before ++ last ∧ before = [] ∧
      Removes (queue oneLine) last (queue out.buffer) := by
  have hpipe := (reads_remove_delivered (fun _ => true) 0 1).1
  refine ⟨⟨_, rfl, ?_, by decide +kernel⟩, ?_⟩
  · exact (hpipe ⟨oneByte, true, false⟩ [] _ (.inl (by decide)) rfl).mpr fun _ _ _ => rfl
  · obtain ⟨before, last, hout, hbefore, hiff⟩ :=
      (reads_remove_delivered (fun _ => true) 0 2).2 [] ⟨oneLine, false⟩ _ rfl rfl
    refine ⟨_, before, last, rfl, hout, List.map_eq_nil_iff.mp hbefore, hiff.mpr ⟨fun _ _ => rfl, ?_⟩⟩
    decide +kernel

/-- With an address that is not mapped, both reads return 0 without having stored anything, and
the byte is gone. -/
theorem failed_read_loses_byte :
    (∃ out, piperead (fun _ => false) 0 1 [⟨oneByte, true, false⟩] = some out ∧
      out.value = 0 ∧ out.stores = [] ∧ oneByte.contents = [7] ∧ out.buffer.contents = []) ∧
    (∃ out, consoleread (fun _ => false) 0 2 [⟨oneLine, false⟩] = some out ∧
      out.value = 0 ∧ out.stores = [] ∧ (queue oneLine).contents = [97, newline] ∧
      (queue out.buffer).contents = [newline]) := by
  refine ⟨⟨_, rfl, ?_⟩, ⟨_, rfl, ?_⟩⟩ <;> decide +kernel

end Xv6.Read

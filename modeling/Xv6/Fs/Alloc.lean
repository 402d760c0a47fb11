import Xv6.Fs.Blocks
import Xv6.Fs.Update

namespace Xv6.Fs

open Lib.Command

def addLog (l : List Nat) (b : Nat) : List Nat := if b ∈ l then l else l ++ [b]

theorem mem_addLog {l : List Nat} {b c : Nat} : c ∈ addLog l b ↔ c = b ∨ c ∈ l := by
  unfold addLog
  split
  next hb =>
    constructor
    · exact Or.inr
    · rintro (rfl | hc)
      · exact hb
      · exact hc
  · rw [List.mem_append, List.mem_singleton, or_comm]

theorem length_addLog (l : List Nat) (b : Nat) :
    (addLog l b).length = l.length + if b ∈ l then 0 else 1 := by
  unfold addLog
  split <;> simp

theorem length_addLog_le (l : List Nat) (b : Nat) : (addLog l b).length ≤ l.length + 1 := by
  rw [length_addLog]
  split <;> omega

namespace State

def log (s : State) (b : Nat) : State := { s with logged := addLog s.logged b }

def give (s : State) (b : Nat) : State where
  sb := s.sb
  data := grant s.sb s.data b
  outstanding := s.outstanding
  logged := addLog (addLog s.logged (BBLOCK b s.sb.bmapstart.toNat)) b
  icache := s.icache

def setDinode (s : State) (ip : Fin NINODE) (din : Dinode) : State :=
  s.setInode ip { s.icache ip with toDinode := din }

end State

/-- Where a write may stop the machine: the log is to hold more than `B` blocks, no operation is
under way, or there is no room on the disk. -/
def Stops (sb : Superblock) (outstanding B : Nat) (room : Prop) : Panic → Prop
  | .tooBigTransaction => LOGSIZE ≤ B ∨ sb.nlog.toNat ≤ B + 1
  | .logWriteOutsideOfTrans => outstanding < 1
  | .ballocOutOfBlocks => ¬room
  | _ => False

theorem not_stops {sb : Superblock} {outstanding B : Nat} {room : Prop} (hlog : B < LOGSIZE)
    (hnlog : B + 1 < sb.nlog.toNat) (hop : 1 ≤ outstanding) (hroom : room) (e : Panic) :
    ¬ Stops sb outstanding B room e := by
  intro he
  cases e
  case tooBigTransaction =>
    change LOGSIZE ≤ B ∨ sb.nlog.toNat ≤ B + 1 at he
    omega
  case logWriteOutsideOfTrans => exact absurd he (Nat.not_lt.mpr hop)
  case ballocOutOfBlocks => exact he hroom
  all_goals exact he

section Balloc

variable {s : State} {B : Nat} {room : Prop}

theorem logWrite_meets (b : Nat) (hB : s.logged.length ≤ B) :
    Meets (logWrite b) s (fun _ s' => s' = s.log b) (Stops s.sb s.outstanding B room) := by
  apply Meets.bind
  apply Meets.get
  split
  next h =>
    apply Meets.throw
    change LOGSIZE ≤ B ∨ s.sb.nlog.toNat ≤ B + 1
    omega
  · split
    next h => exact Meets.throw h
    · split
      next hb =>
        apply Meets.pure
        rw [State.log, addLog, if_pos hb]
      next hb =>
        apply Meets.modify
        rw [State.log, addLog, if_neg hb]

theorem takeWhile_range (b size n : Nat) :
    (List.range n).takeWhile (fun bi => b + bi < size) = List.range (min n (size - b)) := by
  induction n with
  | zero => simp
  | succ n ih =>
    rw [List.range_succ, List.takeWhile_append, ih, List.length_range, List.length_range]
    by_cases hn : n < size - b
    · have h1 : min n (size - b) = n := by omega
      have h2 : min (n + 1) (size - b) = n + 1 := by omega
      have h3 : b + n < size := by omega
      rw [if_pos h1, h2, List.range_succ, List.takeWhile_cons_of_pos (by simpa using h3),
        List.takeWhile_nil]
    · have h2 : min (n + 1) (size - b) = min n (size - b) := by omega
      rw [h2]
      split
      next h1 =>
        have h3 : ¬ b + n < size := by omega
        rw [List.takeWhile_cons_of_neg (by simpa using h3), List.append_nil, h1]
      · rfl

theorem freeBit_eq_some {bp : Block} {b size bi : Nat} (h : freeBit bp b size = some bi) :
    bi < BPB ∧ b + bi < size ∧ isFree bp bi ∧ ∀ j < bi, ¬ isFree bp j := by
  rw [freeBit, takeWhile_range] at h
  obtain ⟨hfree, hmem, hfirst⟩ := List.find?_range_eq_some.mp h
  have hlt := List.mem_range.mp hmem
  refine ⟨by omega, by omega, hfree, fun j hj => ?_⟩
  simpa using hfirst j hj

theorem freeBit_eq_none {bp : Block} {b size : Nat} (h : freeBit bp b size = none) {bi : Nat}
    (hbi : bi < BPB) (hlt : b + bi < size) : ¬ isFree bp bi := by
  rw [freeBit, takeWhile_range, List.find?_eq_none] at h
  exact h bi (List.mem_range.mpr (by omega))

theorem BBLOCK_add {b bi m : Nat} (hb : b % BPB = 0) (hbi : bi < BPB) :
    BBLOCK (b + bi) m = BBLOCK b m := by
  change b % 8192 = 0 at hb
  change bi < 8192 at hbi
  change (b + bi) / 8192 + m = b / 8192 + m
  omega

theorem add_mod_BPB {b bi : Nat} (hb : b % BPB = 0) (hbi : bi < BPB) : (b + bi) % BPB = bi := by
  change b % 8192 = 0 at hb
  change bi < 8192 at hbi
  change (b + bi) % 8192 = bi
  omega

theorem ballocFrom_meets (hB : s.logged.length + 1 ≤ B)
    (hroom : (∀ c < s.sb.size.toNat, ¬ Free s.sb s.data c) → ¬room) (fuel b : Nat)
    (hb : b % BPB = 0) (hno : ∀ c < b, c < s.sb.size.toNat → ¬ Free s.sb s.data c)
    (hfuel : s.sb.size.toNat < b + fuel * BPB) :
    Meets (ballocFrom fuel b) s
      (fun a s' => a < s.sb.size.toNat ∧ Free s.sb s.data a ∧ (∀ c < a, ¬ Free s.sb s.data c) ∧
        s' = s.give a)
      (Stops s.sb s.outstanding B room) := by
  induction fuel generalizing b with
  | zero =>
    apply Meets.throw
    refine hroom fun c hc => hno c ?_ hc
    omega
  | succ fuel ih =>
    apply Meets.bind
    apply Meets.get
    dsimp only
    split
    next hlt =>
      rw [bread, bind_assoc]
      apply Meets.bind
      apply Meets.get
      rw [pure_bind]
      split
      next bi hbit =>
        obtain ⟨hbi, hsize, hfree, hfirst⟩ := freeBit_eq_some hbit
        have hbno := BBLOCK_add (m := s.sb.bmapstart.toNat) hb hbi
        have hmod := add_mod_BPB hb hbi
        apply Meets.bind
        apply Meets.modify
        apply (logWrite_meets (s := s.setBlock (BBLOCK b s.sb.bmapstart.toNat)
          (markUsed (s.data (BBLOCK b s.sb.bmapstart.toNat)) bi)) _ (by
            change s.logged.length ≤ B
            omega)).seq
        rintro _ s₁ rfl
        apply Meets.bind
        apply Meets.bind
        apply Meets.modify
        have hlen := length_addLog_le s.logged (BBLOCK b s.sb.bmapstart.toNat)
        refine (logWrite_meets (b + bi) ?_).post ?_
        · change (addLog s.logged (BBLOCK b s.sb.bmapstart.toNat)).length ≤ B
          omega
        · rintro _ s₂ rfl
          apply Meets.pure
          refine ⟨hsize, ?_, fun c hc => ?_, ?_⟩
          · rw [Free, hbno, hmod]
            exact hfree
          · by_cases hcb : c < b
            · exact hno c hcb (by omega)
            · have hc' : c = b + (c - b) := by omega
              have hlt : c - b < BPB := by omega
              rw [hc', Free, BBLOCK_add hb hlt, add_mod_BPB hb hlt]
              exact hfirst (c - b) (by omega)
          · rw [State.give, grant, hbno, hmod]
            rfl
      next hbit =>
        apply ih (b + BPB)
        · rw [Nat.add_mod_right]
          exact hb
        · intro c hc hcs
          by_cases hcb : c < b
          · exact hno c hcb hcs
          · have hbi : c - b < BPB := by omega
            have hc' : c = b + (c - b) := by omega
            have hn := freeBit_eq_none hbit hbi (by omega)
            rw [hc', Free, BBLOCK_add hb hbi, add_mod_BPB hb hbi]
            exact hn
        · rw [Nat.succ_mul] at hfuel
          omega
    next hge =>
      apply Meets.throw
      refine hroom fun c hc => hno c ?_ hc
      omega

theorem balloc_first_meets (hB : s.logged.length + 1 ≤ B)
    (hroom : (∀ c < s.sb.size.toNat, ¬ Free s.sb s.data c) → ¬room) :
    Meets balloc s
      (fun a s' => a < s.sb.size.toNat ∧ Free s.sb s.data a ∧ (∀ c < a, ¬ Free s.sb s.data c) ∧
        s' = s.give a)
      (Stops s.sb s.outstanding B room) := by
  apply Meets.bind
  apply Meets.get
  apply ballocFrom_meets hB hroom
  · rfl
  · intro c hc
    omega
  · have hmod := Nat.mod_lt s.sb.size.toNat (show 0 < BPB by decide)
    have hdiv := Nat.div_add_mod' s.sb.size.toNat BPB
    rw [Nat.succ_mul]
    omega

theorem balloc_meets (hB : s.logged.length + 1 ≤ B)
    (hroom : (∀ c < s.sb.size.toNat, ¬ Free s.sb s.data c) → ¬room) :
    Meets balloc s (fun a s' => a < s.sb.size.toNat ∧ Free s.sb s.data a ∧ s' = s.give a)
      (Stops s.sb s.outstanding B room) := by
  apply (balloc_first_meets hB hroom).post
  rintro a s' ⟨hlt, hfree, -, hs'⟩
  exact ⟨hlt, hfree, hs'⟩

end Balloc

end Xv6.Fs

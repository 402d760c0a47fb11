import Xv6.Pipe.Steps

namespace Xv6.Pipe

open Lib Lib.Transition

variable {N : Nat}

/-- All user buffers are mapped: no `copyin` and no `copyout` fails. -/
def mapped (_ : State N) : Act N → Bool
  | .step _ .badAddr => false
  | _ => true

theorem PIPESIZE_dvd : PIPESIZE ∣ 2 ^ 32 := by decide

theorem PIPESIZE_lt : PIPESIZE < 2 ^ 32 := by decide

structure Fifo (s : State N) : Prop where
  size : s.ring.size ≤ PIPESIZE
  order : s.delivered ++ s.ring.contents = s.accepted

def Knows (s : State N) : Pc N → Prop
  | .copy i _ => i = 0 → s.ring.isEmpty = false ∨ s.writeopen = false
  | .ret false n r => r = 0 → 0 < n → s.ring.isEmpty = true ∧ s.writeopen = false
  | .wake _ _ k => Knows s k
  | _ => True

theorem Knows.congr {s s' : State N} (hr : s'.ring = s.ring) (ho : s'.writeopen = s.writeopen)
    {k : Pc N} (h : Knows s k) : Knows s' k := by
  induction k with
  | copy => simpa [Knows, hr, ho] using h
  | ret writable =>
    cases writable with
    | true => trivial
    | false => simpa [Knows, hr, ho] using h
  | wake chan todo k ih => exact ih h
  | _ => trivial

theorem Knows.of_not_holds {s : State N} {k : Pc N} (h : k.holds = false) : Knows s k := by
  cases k with
  | idle | acquire | sleepSet | asleep => trivial
  | _ => cases h

theorem Knows.of_entry {s : State N} {k : Pc N} (h : k.entry) : Knows s k := by
  cases k with
  | write | read | close => trivial
  | _ => cases h

variable {s s' : State N} {p : Fin N} {a : Choice}

theorem Fifo.congr (h : Fifo s) (hr : s'.ring = s.ring) (ha : s'.accepted = s.accepted)
    (hd : s'.delivered = s.delivered) : Fifo s' := by
  constructor
  · rw [hr]
    exact h.size
  · rw [hr, ha, hd]
    exact h.order

theorem Fifo.size_lt (h : Fifo s) (hf : s.ring.isFull = false) : s.ring.size < PIPESIZE := by
  refine h.size.lt_of_ne fun he => ?_
  rw [(Ring.isFull_iff PIPESIZE_lt s.ring).mpr he] at hf
  cases hf

theorem Fifo.step (h : Fifo s) (hs : Step s p a s') (hm : a ≠ .badAddr) : Fifo s' := by
  cases hs with
  | @store i ch buf _ hf =>
    have hlt := h.size_lt hf
    constructor
    · rw [State.setPc_ring, Ring.size_push PIPESIZE_lt hlt]
      exact hlt
    · simp only [State.setPc_ring, State.setPc_delivered, State.setPc_accepted]
      rw [Ring.contents_push PIPESIZE_dvd PIPESIZE_lt hlt, ← List.append_assoc, h.order]
  | take _ _ he =>
    constructor
    · have hsize := Ring.size_pop he
      have hle := h.size
      simp only [State.setPc_ring]
      omega
    · simp only [State.setPc_ring, State.setPc_delivered, State.setPc_accepted]
      rw [List.append_assoc, List.singleton_append, ← Ring.contents_pop he]
      exact h.order
  | readFault _ _ _ ha => exact absurd ha hm
  | _ => exact h.congr rfl rfl rfl

theorem Knows.self (hl : Locks s) (hk : Knows s (s.pc p)) (hs : Step s p a s')
    (hm : a ≠ .badAddr) : Knows s' (s'.pc p) := by
  have hsound := hl.sound p
  cases hs with
  | fresh h =>
    rw [State.setKilled_pc, h]
    trivial
  | acquire h =>
    rw [h] at hsound
    simpa using Knows.of_entry hsound
  | readGo h hn =>
    simp only [State.setPc_pc, Function.update_self]
    intro _
    by_contra hno
    exact hn (by simpa [not_or] using hno)
  | @readEnd i n h hn =>
    rw [h] at hk
    simp only [State.setPc_pc, Function.update_self]
    intro hi hpos
    obtain rfl : i = 0 := by exact_mod_cast hi
    have he := hn hpos
    exact ⟨he, (hk rfl).resolve_left (by simp [he])⟩
  | readFault _ _ _ ha => exact absurd ha hm
  | wakeEnd h | wake h | wakeOther h =>
    rw [h] at hk
    simp only [State.setPc_pc, Function.update_self]
    refine Knows.congr (s := s) ?_ ?_ hk <;> rfl
  | _ => simp [Knows]

structure Stream (s : State N) : Prop where
  locks : Locks s
  fifo : Fifo s
  knows : ∀ q, Knows s (s.pc q)

theorem Stream.step (h : Stream s) (hs : Step s p a s') (hm : a ≠ .badAddr) : Stream s' where
  locks := h.locks.step hs
  fifo := h.fifo.step hs hm
  knows :=
    h.locks.keep hs (fun _ => .of_not_holds) (fun hr _ ho _ => .congr hr ho) h.knows
      (.self h.locks (h.knows p) hs hm)

theorem Stream.kill (h : Stream s) (q : Fin N) : Stream ((s.setKilled q true).setChan q none) where
  locks := h.locks.kill q
  fifo := h.fifo.congr rfl rfl rfl
  knows r := by refine Knows.congr (s := s) ?_ ?_ (h.knows r) <;> rfl

theorem Stream.alloc (cell : Fin PIPESIZE → UInt8) : Stream (State.alloc N cell) where
  locks := .alloc cell
  fifo := ⟨by simp [State.alloc, Ring.size], by simp [State.alloc, Ring.contents, Ring.size]⟩
  knows q := trivial

theorem Stream.of_reachable (h : Reachable (machine N) (mapped · ·) s) : Stream s := by
  refine h.invariant ?_ ?_
  · rintro _ ⟨cell, rfl⟩
    exact .alloc cell
  · intro s a s' hi hok hn
    obtain ⟨p, c, rfl, hs⟩ | ⟨p, -, rfl⟩ := step_of_next hn
    · refine hi.step hs ?_
      rintro rfl
      cases hok
    · exact hi.kill p

/-- With all buffers mapped, what readers have got, followed by what is in the pipe, is what
writers have put in, and the pipe never holds more than `PIPESIZE` bytes. A `piperead` of at
least one byte returns 0 only if the write end is closed and all has been delivered. -/
theorem pipe_fifo (h : Reachable (machine N) (mapped · ·) s) :
    s.delivered ++ s.ring.contents = s.accepted ∧ s.ring.size ≤ PIPESIZE ∧
      ∀ p n, s.pc p = .ret false n 0 → 0 < n →
        s.writeopen = false ∧ s.delivered = s.accepted := by
  have hi := Stream.of_reachable h
  refine ⟨hi.fifo.order, hi.fifo.size, fun p n hpc hn => ?_⟩
  have hk := hi.knows p
  rw [hpc] at hk
  obtain ⟨he, ho⟩ := hk rfl hn
  have hsize := s.ring.isEmpty_iff.mp he
  have horder := hi.fifo.order
  rw [Ring.contents, hsize, List.range_zero, List.map_nil, List.append_nil] at horder
  exact ⟨ho, horder⟩

section Runs

abbrev Acts := List (Act 2)

def go (p : Fin 2) (n : Nat) : Acts := List.replicate n (.step p .go)

def finish (ok : State 2 → Act 2 → Bool) (as : Acts) : Option (State 2) :=
  perform (machine 2) ok (State.alloc 2 fun _ => 0) as

def writeThenRead : Acts :=
  [.step 0 (.write [1, 2, 3])] ++ go 0 9 ++ [.step 1 (.read 2)] ++ go 1 5

theorem pipe_fifo_writeThenRead :
    ∃ s, Reachable (machine 2) (mapped · ·) s ∧ s.delivered = [1, 2] ∧
      s.delivered ++ s.ring.contents = [1, 2, 3] := by
  have h : (finish mapped writeThenRead).any fun s =>
      s.delivered = [1, 2] ∧ s.accepted = [1, 2, 3] := by decide +kernel
  obtain ⟨s, hr, hd⟩ := Reachable.of_perform h ⟨_, rfl⟩ fun _ _ => id
  obtain ⟨hd, ha⟩ := of_decide_eq_true hd
  exact ⟨s, hr, hd, (pipe_fifo hr).1.trans ha⟩

end Runs

end Xv6.Pipe

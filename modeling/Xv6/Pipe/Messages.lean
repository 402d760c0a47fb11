import Xv6.Pipe.Fifo

namespace Xv6.Pipe

open Lib Lib.Transition

variable {N : Nat}

/-- Writers write `k` bytes in a call and readers ask for `k`, all buffers are mapped, and nobody is
killed. -/
def messages (k : Nat) (_ : State N) : Act N → Bool
  | .kill _ | .step _ .badAddr => false
  | .step _ (.write buf) => buf.length = k
  | .step _ (.read n) => n = k
  | _ => true

def Written (τ : List (Act N)) (m : List UInt8) : Prop := ∃ q, Act.step q (.write m) ∈ τ

def Whole (τ : List (Act N)) (k : Nat) (bytes : List UInt8) : Prop :=
  ∃ ms : List (List UInt8), bytes = ms.flatten ∧ ∀ m ∈ ms, Written τ m ∧ m.length = k

structure AtRest (τ : List (Act N)) (k : Nat) (s : State N) : Prop where
  accepted : Whole τ k s.accepted
  delivered : k ∣ s.delivered.length

def Pc.Begins (τ : List (Act N)) (k : Nat) : Pc N → Prop
  | .write i buf => i = 0 ∧ Written τ buf ∧ buf.length = k
  | .read n => n = k
  | .close _ => True
  | _ => False

def Pc.Knows (τ : List (Act N)) (k : Nat) (s : State N) : Pc N → Prop
  | .idle => True
  | .acquire j | .asleep j | .sleepSet _ j => j.Begins τ k
  | .sleep _ j => AtRest τ k s ∧ j.Begins τ k
  | .wake _ _ j => j.Knows τ k s
  | .write i buf => k ∣ s.delivered.length ∧ ∃ w done, s.accepted = w ++ done ∧ Whole τ k w ∧
      done.length = i ∧ Written τ (done ++ buf) ∧ (done ++ buf).length = k
  | .read n => AtRest τ k s ∧ n = k
  | .copy i n => Whole τ k s.accepted ∧ n = k ∧ i ≤ k ∧
      ∃ d part, s.delivered = d ++ part ∧ k ∣ d.length ∧ part.length = i
  | .ret false _ r => AtRest τ k s ∧ (0 < r → r = k ∧
      ∃ d m, s.delivered = d ++ m ∧ Written τ m ∧ m.length = k)
  | .ret true _ _ | .close _ | .closed => AtRest τ k s

variable {τ τ' : List (Act N)} {k : Nat} {s s' : State N} {p : Fin N} {a : Choice} {bytes : List UInt8}

theorem Written.mono (hτ : τ ⊆ τ') {m : List UInt8} (h : Written τ m) : Written τ' m := by
  obtain ⟨q, hq⟩ := h
  exact ⟨q, hτ hq⟩

theorem Whole.mono (hτ : τ ⊆ τ') (h : Whole τ k bytes) : Whole τ' k bytes := by
  obtain ⟨ms, he, hms⟩ := h
  exact ⟨ms, he, fun m hm => ⟨(hms m hm).1.mono hτ, (hms m hm).2⟩⟩

theorem Whole.length (h : Whole τ k bytes) : k ∣ bytes.length := by
  obtain ⟨ms, rfl, hms⟩ := h
  rw [List.length_flatten]
  refine List.dvd_sum fun n hn => ?_
  obtain ⟨m, hm, rfl⟩ := List.mem_map.mp hn
  rw [(hms m hm).2]

theorem Whole.append (h : Whole τ k bytes) {m : List UInt8} (hm : Written τ m) (hlen : m.length = k) :
    Whole τ k (bytes ++ m) := by
  obtain ⟨ms, rfl, hms⟩ := h
  refine ⟨ms ++ [m], by simp, fun m' hm' => ?_⟩
  rcases List.mem_append.mp hm' with hm' | hm'
  · exact hms m' hm'
  · rw [List.mem_singleton.mp hm']
    exact ⟨hm, hlen⟩

theorem mem_of_flatten {ms : List (List UInt8)} {d part rest : List UInt8} (hk : 0 < k)
    (hms : ∀ m ∈ ms, m.length = k) (he : ms.flatten = d ++ part ++ rest) (hd : k ∣ d.length)
    (hpart : part.length = k) : part ∈ ms := by
  induction ms generalizing d with
  | nil =>
    have := congrArg List.length he
    simp only [List.flatten_nil, List.length_nil, List.length_append] at this
    omega
  | cons m ms ih =>
    have hm := hms m List.mem_cons_self
    obtain ⟨c, hc⟩ := hd
    rw [List.flatten_cons, List.append_assoc] at he
    cases c with
    | zero =>
      obtain rfl : d = [] := List.length_eq_zero_iff.mp (by simpa using hc)
      rw [List.nil_append] at he
      obtain ⟨rfl, -⟩ := List.append_inj he (hm.trans hpart.symm)
      exact List.mem_cons_self
    | succ c =>
      have hsplit : d = d.take k ++ d.drop k := (List.take_append_drop k d).symm
      have htake : (d.take k).length = k := by
        rw [List.length_take, hc, Nat.mul_succ]
        omega
      rw [hsplit, List.append_assoc] at he
      obtain ⟨-, he⟩ := List.append_inj he (hm.trans htake.symm)
      refine List.mem_cons_of_mem m (ih (fun m' hm' => hms m' (List.mem_cons_of_mem m hm'))
        (d := d.drop k) ?_ ?_)
      · rw [he, List.append_assoc]
      · rw [List.length_drop, hc, Nat.mul_succ, Nat.add_sub_cancel]
        exact Nat.dvd_mul_right k c

theorem Pc.Begins.mono (hτ : τ ⊆ τ') {j : Pc N} (h : j.Begins τ k) : j.Begins τ' k := by
  cases j with
  | write i buf => exact ⟨h.1, h.2.1.mono hτ, h.2.2⟩
  | read | close => exact h
  | _ => cases h

theorem AtRest.congr (h : AtRest τ k s) (hτ : τ ⊆ τ') (ha : s'.accepted = s.accepted)
    (hd : s'.delivered = s.delivered) : AtRest τ' k s' := by
  constructor
  · rw [ha]
    exact h.accepted.mono hτ
  · rw [hd]
    exact h.delivered

theorem Pc.Knows.congr {j : Pc N} (h : j.Knows τ k s) (hτ : τ ⊆ τ')
    (ha : s'.accepted = s.accepted) (hd : s'.delivered = s.delivered) : j.Knows τ' k s' := by
  induction j with
  | idle => trivial
  | acquire | asleep | sleepSet => exact Pc.Begins.mono hτ h
  | sleep => exact ⟨h.1.congr hτ ha hd, h.2.mono hτ⟩
  | wake chan todo j ih => exact ih h
  | write i buf =>
    obtain ⟨hdel, w, done, he, hw, hlen, hm, hk⟩ := h
    refine ⟨by rwa [hd], w, done, by rw [ha, he], hw.mono hτ, hlen, hm.mono hτ, hk⟩
  | read => exact ⟨h.1.congr hτ ha hd, h.2⟩
  | copy i n =>
    obtain ⟨hw, hn, hi, d, part, he, hdvd⟩ := h
    exact ⟨by rw [ha]; exact hw.mono hτ, hn, hi, d, part, by rw [hd, he], hdvd⟩
  | ret writable =>
    cases writable with
    | true => exact AtRest.congr h hτ ha hd
    | false =>
      refine ⟨h.1.congr hτ ha hd, fun hr => ?_⟩
      obtain ⟨he, d, m, hm, hw, hk⟩ := h.2 hr
      exact ⟨he, d, m, by rw [hd, hm], hw.mono hτ, hk⟩
  | close | closed => exact AtRest.congr h hτ ha hd

theorem Pc.Knows.of_not_holds (hτ : τ ⊆ τ') {j : Pc N} (hj : j.holds = false) (h : j.Knows τ k s) :
    j.Knows τ' k s' := by
  cases j with
  | idle => trivial
  | acquire | asleep | sleepSet => exact Pc.Begins.mono hτ h
  | _ => cases hj

theorem Pc.Begins.knows (h : AtRest τ k s) {j : Pc N} (hj : j.Begins τ k) : j.Knows τ k s := by
  cases j with
  | write i buf =>
    obtain ⟨rfl, hm, hlen⟩ := hj
    exact ⟨h.delivered, s.accepted, [], (List.append_nil _).symm, h.accepted, rfl, hm, hlen⟩
  | read => exact ⟨h, hj⟩
  | close => exact h
  | _ => cases hj

structure Atomic (τ : List (Act N)) (k : Nat) (s : State N) : Prop where
  stream : Stream s
  rest : s.lock = none → AtRest τ k s
  knows : ∀ q, (s.pc q).Knows τ k s

theorem Fifo.length_accepted (h : Fifo s) : s.accepted.length = s.delivered.length + s.ring.size := by
  rw [← h.order, List.length_append, Ring.contents, List.length_map, List.length_range]

theorem Fifo.write_at_start (h : Fifo s) (hk : k ∣ PIPESIZE) {i : Nat} {ch : UInt8}
    {buf : List UInt8} (hpc : (Pc.write i (ch :: buf) : Pc N).Knows τ k s)
    (hf : s.ring.isFull = true) : i = 0 := by
  obtain ⟨hdel, w, done, he, hw, rfl, -, hlen⟩ := hpc
  have hsize := (Ring.isFull_iff PIPESIZE_lt s.ring).mp hf
  have hacc := h.length_accepted
  rw [hsize, he, List.length_append] at hacc
  have hdvd : k ∣ done.length := by
    have hsum : k ∣ w.length + done.length := by
      rw [hacc]
      exact dvd_add hdel hk
    exact (Nat.dvd_add_right hw.length).mp hsum
  rw [List.length_append, List.length_cons] at hlen
  exact Nat.eq_zero_of_dvd_of_lt hdvd (by omega)

theorem Fifo.read_end (h : Fifo s) (hk : 0 < k) {i n : Nat} (hpc : (Pc.copy i n : Pc N).Knows τ k s)
    (hn : i < n → s.ring.isEmpty = true) : (Pc.ret false n i : Pc N).Knows τ k s := by
  obtain ⟨hw, rfl, hi, d, part, he, hd, rfl⟩ := hpc
  have hacc := h.length_accepted
  by_cases hfull : part.length = n
  · obtain ⟨ms, hms, hall⟩ := hw
    have hflat : ms.flatten = d ++ part ++ s.ring.contents := by rw [← hms, ← h.order, he]
    have hmem := mem_of_flatten hk (fun m hm => (hall m hm).2) hflat hd hfull
    refine ⟨⟨⟨ms, hms, hall⟩, ?_⟩, fun _ => ⟨by rw [hfull], d, part, he, hall part hmem⟩⟩
    rw [he, List.length_append, hfull]
    exact Nat.dvd_add_self_right.mpr hd
  · have hempty := s.ring.isEmpty_iff.mp (hn (by omega))
    rw [hempty, Nat.add_zero, he, List.length_append] at hacc
    have hdvd : n ∣ part.length := (Nat.dvd_add_right hd).mp (hacc ▸ hw.length)
    have hzero : part.length = 0 := Nat.eq_zero_of_dvd_of_lt hdvd (by omega)
    refine ⟨⟨hw, ?_⟩, fun hpos => ?_⟩
    · rw [he, List.length_append, hzero]
      exact hd
    · rw [hzero] at hpos
      cases hpos

theorem Atomic.self (h : Atomic τ k s) (hk : k ∣ PIPESIZE) (hs : Step s p a s')
    (hok : messages k s (.step p a)) : (s'.pc p).Knows (.step p a :: τ) k s' := by
  have hτ : τ ⊆ .step p a :: τ := List.subset_cons_self _ _
  have hpc := h.knows p
  have hpos : 0 < k := Nat.pos_of_dvd_of_pos hk (by decide)
  cases hs with
  | fresh hp =>
    rw [State.setKilled_pc, hp]
    trivial
  | writeCall buf hp hr ha =>
    subst ha
    simp only [State.setPc_pc, Function.update_self]
    exact ⟨rfl, ⟨p, List.mem_cons_self⟩, of_decide_eq_true hok⟩
  | readCall n hp hr ha =>
    subst ha
    simp only [State.setPc_pc, Function.update_self]
    change n = k
    exact of_decide_eq_true hok
  | closeWrite | closeRead =>
    simp only [State.setPc_pc, Function.update_self]
    trivial
  | acquire hp hl =>
    rw [hp] at hpc
    simp only [State.setPc_pc, Function.update_self]
    refine Pc.Begins.knows ?_ (Pc.Begins.mono hτ hpc)
    exact (h.rest hl).congr hτ rfl rfl
  | writeEnd hp =>
    rw [hp] at hpc
    obtain ⟨hdel, w, done, he, hw, -, hm, hlen⟩ := hpc
    rw [List.append_nil] at hm hlen
    simp only [State.setPc_pc, Function.update_self]
    refine ⟨?_, hdel⟩
    change Whole _ k s.accepted
    rw [he]
    exact (hw.append hm hlen).mono hτ
  | giveUp hp hf =>
    rw [hp] at hpc
    obtain rfl := h.stream.fifo.write_at_start hk hpc hf
    obtain ⟨hdel, w, done, he, hw, hlen, -⟩ := hpc
    simp only [State.setPc_pc, Function.update_self]
    refine ⟨?_, hdel⟩
    change Whole _ k s.accepted
    rw [he, List.length_eq_zero_iff.mp hlen, List.append_nil]
    exact hw.mono hτ
  | writeWait hp hf =>
    rw [hp] at hpc
    obtain rfl := h.stream.fifo.write_at_start hk hpc hf
    obtain ⟨hdel, w, done, he, hw, hlen, hm, hlen'⟩ := hpc
    obtain rfl := List.length_eq_zero_iff.mp hlen
    simp only [State.setPc_pc, Function.update_self]
    refine ⟨⟨?_, hdel⟩, rfl, hm.mono hτ, hlen'⟩
    change Whole _ k s.accepted
    rw [he, List.append_nil]
    exact hw.mono hτ
  | writeFault _ _ ha | readFault _ _ _ ha =>
    subst ha
    cases hok
  | @store i ch buf hp hf =>
    rw [hp] at hpc
    obtain ⟨hdel, w, done, he, hw, hlen, hm, hlen'⟩ := hpc
    simp only [State.setPc_pc, Function.update_self]
    have happ : done ++ ch :: buf = done ++ [ch] ++ buf := by simp
    refine ⟨hdel, w, done ++ [ch], ?_, hw.mono hτ, by simp [hlen], ?_, ?_⟩
    · change s.accepted ++ [ch] = _
      rw [he, List.append_assoc]
    · rw [← happ]
      exact hm.mono hτ
    · rw [← happ]
      exact hlen'
  | readKilled hp =>
    rw [hp] at hpc
    simp only [State.setPc_pc, Function.update_self]
    exact ⟨hpc.1.congr hτ rfl rfl, fun h => absurd h (by decide)⟩
  | readWait hp =>
    rw [hp] at hpc
    simp only [State.setPc_pc, Function.update_self]
    exact ⟨hpc.1.congr hτ rfl rfl, hpc.2⟩
  | readGo hp =>
    rw [hp] at hpc
    simp only [State.setPc_pc, Function.update_self]
    exact ⟨hpc.1.accepted.mono hτ, hpc.2, Nat.zero_le k, s.delivered, [], (List.append_nil _).symm,
      hpc.1.delivered, rfl⟩
  | @take i n hp hi he =>
    rw [hp] at hpc
    obtain ⟨hw, hn, -, d, part, hd, hdvd, hlen⟩ := hpc
    simp only [State.setPc_pc, Function.update_self]
    refine ⟨hw.mono hτ, hn, by omega, d, part ++ [s.ring.front], ?_, hdvd, by simp [hlen]⟩
    change s.delivered ++ [s.ring.front] = _
    rw [hd, List.append_assoc]
  | readEnd hp hn =>
    rw [hp] at hpc
    simp only [State.setPc_pc, Function.update_self]
    exact (h.stream.fifo.read_end hpos hpc hn).congr hτ rfl rfl
  | shutWrite hp | shutRead hp =>
    rw [hp] at hpc
    simp only [State.setPc_pc, Function.update_self]
    exact AtRest.congr hpc hτ rfl rfl
  | wakeEnd hp | wake hp | wakeOther hp =>
    rw [hp] at hpc
    simp only [State.setPc_pc, Function.update_self]
    exact Pc.Knows.congr hpc hτ rfl rfl
  | sleep hp =>
    rw [hp] at hpc
    simp only [State.setLock_pc, State.setPc_pc, Function.update_self]
    exact hpc.2.mono hτ
  | sleepSet hp | woken hp =>
    rw [hp] at hpc
    simp only [State.setPc_pc, Function.update_self]
    exact Pc.Begins.mono hτ hpc
  | ret | closed =>
    simp only [State.setLock_pc, State.setPc_pc, Function.update_self]
    trivial

theorem Step.frame_bytes (h : Step s p a s') (hn : (s.pc p).holds = false) :
    s'.accepted = s.accepted ∧ s'.delivered = s.delivered := by
  cases h with
  | store h | take h => simp [h, Pc.holds] at hn
  | _ => exact ⟨rfl, rfl⟩

theorem Atomic.step (h : Atomic τ k s) (hk : k ∣ PIPESIZE) (hs : Step s p a s')
    (hok : messages k s (.step p a)) : Atomic (.step p a :: τ) k s' := by
  have hτ : τ ⊆ .step p a :: τ := List.subset_cons_self _ _
  have hm : a ≠ .badAddr := by
    rintro rfl
    cases hok
  refine ⟨h.stream.step hs hm, fun hl => ?_, fun q => ?_⟩
  · by_cases hfree : s.lock = none
    · have hn : (s.pc p).holds = false := by
        by_contra hh
        have := (h.stream.locks.lock p).mpr (by simpa using hh)
        rw [hfree] at this
        cases this
      obtain ⟨ha, hd⟩ := hs.frame_bytes hn
      exact (h.rest hfree).congr hτ ha hd
    · -- the lock has just been released
      have hpc := h.knows p
      cases hs with
      | sleep hp =>
        rw [hp] at hpc
        exact hpc.1.congr hτ rfl rfl
      | @ret writable n r hp =>
        rw [hp] at hpc
        cases writable with
        | true => exact AtRest.congr hpc hτ rfl rfl
        | false => exact hpc.1.congr hτ rfl rfl
      | closed hp =>
        rw [hp] at hpc
        exact AtRest.congr hpc hτ rfl rfl
      | acquire => cases hl
      | _ => exact absurd hl hfree
  · by_cases hq : q = p
    · subst hq
      exact h.self hk hs hok
    · rw [hs.pc_other hq]
      cases hh : (s.pc q).holds with
      | false => exact (h.knows q).of_not_holds hτ hh
      | true =>
        have hn : (s.pc p).holds = false := by
          by_contra hp
          exact hq (h.stream.locks.unique hh (by simpa using hp))
        obtain ⟨ha, hd⟩ := hs.frame_bytes hn
        exact (h.knows q).congr hτ ha hd

theorem Atomic.run (hk : k ∣ PIPESIZE) (h : Run (machine N) (messages k · ·) τ s) :
    Atomic τ k s := by
  induction h with
  | start h =>
    obtain ⟨cell, rfl⟩ := h
    exact ⟨.alloc cell, fun _ => ⟨⟨[], rfl, nofun⟩, Nat.dvd_zero k⟩, fun _ => trivial⟩
  | @step τ s s' act _ hok hn ih =>
    cases act with
    | step p c => exact ih.step hk (step_of_done rfl hn) hok
    | kill => cases hok

/-- With writers that write `k` bytes and readers that ask for `k`, where `k` divides `PIPESIZE`, a
`piperead` that returns a positive count returns `k`, and the bytes that it has delivered, the last
ones of all, are the message of one `pipewrite`. -/
theorem pipe_messages_whole (hk : k ∣ PIPESIZE) (h : Run (machine N) (messages k · ·) τ s)
    {n : Nat} {r : Int} (hret : s.pc p = .ret false n r) (hr : 0 < r) :
    r = k ∧ ∃ before message, s.delivered = before ++ message ∧ message.length = k ∧
      ∃ q, Act.step q (.write message) ∈ τ := by
  have hpc := (Atomic.run hk h).knows p
  rw [hret] at hpc
  obtain ⟨hrk, d, m, he, hm, hlen⟩ := hpc.2 hr
  exact ⟨hrk, d, m, he, hlen, hm⟩

def Pc.returnsFour : Pc N → Bool
  | .ret false n r => n = 4 ∧ r = 4
  | _ => false

theorem Pc.eq_of_returnsFour {j : Pc N} (h : j.returnsFour) : j = .ret false 4 4 := by
  cases j with
  | ret writable n r =>
    cases writable with
    | true => cases h
    | false =>
      obtain ⟨rfl, rfl⟩ := of_decide_eq_true h
      rfl
  | _ => cases h

def oneMessage : Acts :=
  [.step 0 (.write [1, 2, 3, 4])] ++ go 0 10 ++ [.step 1 (.read 4)] ++ go 1 10

theorem pipe_messages_whole_four :
    ∃ τ, ∃ s : State 2, Run (machine 2) (messages 4 · ·) τ s ∧ s.pc 1 = .ret false 4 4 ∧
      ∃ before message, s.delivered = before ++ message ∧ message.length = 4 ∧
        ∃ q, Act.step q (.write message) ∈ τ := by
  have h : (finish (messages 4) oneMessage).any fun s => (s.pc 1).returnsFour := by decide +kernel
  obtain ⟨s, hs, hret⟩ := (Option.any_eq_true _ _).mp h
  have hret := Pc.eq_of_returnsFour hret
  have hrun := (Run.start (M := machine 2) ⟨_, rfl⟩).perform hs
  exact ⟨_, s, hrun, hret, (pipe_messages_whole (by decide) hrun hret (by decide)).2⟩

end Xv6.Pipe

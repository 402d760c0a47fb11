import Xv6.Lib.Transition
import Xv6.Primes.Sieve

namespace Xv6.Primes

open Lib.Transition

def capacity : Nat := 128

inductive Pc where
  /-- The read of `prime`. -/
  | first
  /-- `printf`. -/
  | print (prime : Int)
  /-- `pipe` and `fork`. -/
  | spawn (prime : Int)
  | filter (prime : Int)
  | send (prime buf : Int)
  | finish
  | wait
  | exited
  deriving DecidableEq

structure Stage where
  /-- What its pipe `p` holds. -/
  inbox : List Int
  pc : Pc
  /-- All that it has written to `pout`. -/
  sent : List Int
  deriving DecidableEq

inductive Fault where
  /-- `prime` is used although nothing was read. -/
  | uninitialized
  deriving DecidableEq

abbrev Result := Outcome (List Stage × List Int) Fault

def Stage.fresh : Stage := ⟨[], .first, []⟩

/-- `write(pout[1], &x, 4)`: the child is the next process of the chain. A full pipe makes it wait,
unless nobody can read from it any more. -/
def write (x : Int) : List Stage → Option (List Stage)
  | [] => none
  | r :: rest =>
    if r.inbox.length < capacity then some ({ r with inbox := r.inbox ++ [x] } :: rest)
    else if r.pc = .exited then some (r :: rest)
    else none

/-- The next step of the process `q`, which has the processes `rest` for its descendants. The write
end of its pipe may be closed. -/
def Stage.step (closed : Bool) (q : Stage) (rest : List Stage) : Result :=
  match q.pc with
  | .first =>
    match q.inbox with
    | [] => if closed then .panic .uninitialized else .blocked
    | x :: box =>
      .done ({ q with inbox := box, pc := if x = -1 then .exited else .print x } :: rest, [])
  | .print p => .done ({ q with pc := .spawn p } :: rest, [p])
  | .spawn p => .done ({ q with pc := .filter p } :: .fresh :: rest, [])
  | .filter p =>
    match q.inbox with
    | [] => if closed then .done ({ q with pc := .finish } :: rest, []) else .blocked
    | x :: box =>
      .done ({ q with
        inbox := box
        pc := if x = -1 then .finish else if x.tmod p ≠ 0 then .send p x else .filter p } :: rest, [])
  | .send p x =>
    match write x rest with
    | none => .blocked
    | some rest => .done ({ q with pc := .filter p, sent := q.sent ++ [x] } :: rest, [])
  | .finish =>
    match write (-1) rest with
    | none => .blocked
    | some rest => .done ({ q with pc := .wait, sent := q.sent ++ [-1] } :: rest, [])
  | .wait =>
    match rest with
    | [] => .done ([{ q with pc := .exited }], [])
    | r :: rest =>
      if r.pc = .exited then .done ({ q with pc := .exited } :: r :: rest, []) else .blocked
  | .exited => .blocked

def behind (q : Stage) : Result → Result
  | .blocked => .blocked
  | .done (chain, out) => .done (q :: chain, out)
  | .panic e => .panic e

/-- A step of the process with number `i`. -/
def advance (closed : Bool) : Nat → List Stage → Result
  | _, [] => .blocked
  | 0, q :: rest => q.step closed rest
  | i + 1, q :: rest => behind q (advance (q.pc = .exited) i rest)

structure State where
  feed : List Int
  closed : Bool
  chain : List Stage
  output : List Int
  deriving DecidableEq

inductive Action where
  | feed
  | close
  | stage (i : Nat)
  deriving DecidableEq

def next (s : State) : Action → Outcome State Fault
  | .feed =>
    match s.feed with
    | [] => .blocked
    | x :: feed =>
      match write x s.chain with
      | none => .blocked
      | some chain => .done { s with feed, chain }
  | .close => if s.feed = [] ∧ s.closed = false then .done { s with closed := true } else .blocked
  | .stage i =>
    match advance s.closed i s.chain with
    | .blocked => .blocked
    | .done (chain, out) => .done { s with chain, output := s.output ++ out }
    | .panic e => .panic e

/-- `traversal` on a pipe to which `xs` and then -1 are written. -/
def start (xs : List Int) : State := ⟨xs ++ [-1], false, [.fresh], []⟩

def machine (xs : List Int) : Machine State Action Fault where
  init s := s = start xs
  next := next

/-- A bound on the steps of a chain that begins with a fresh stage and has `n` integers to read. -/
def steps : Nat → Nat
  | 0 => 0
  | n + 1 => steps n + 2 * n + 6

theorem steps_mono {m n : Nat} (h : m ≤ n) : steps m ≤ steps n := by
  induction n with
  | zero => rw [Nat.le_zero.mp h]
  | succ n ih =>
    obtain h | rfl := Nat.lt_succ_iff_lt_or_eq.mp (Nat.lt_succ_of_le h)
    · have := ih (Nat.lt_succ_iff.mp h)
      rw [steps]
      omega
    · exact le_rfl

inductive Works : (toCome : List Int) → List Stage → (out : List Int) → (n : Nat) → Prop where
  | first {toCome box sent xs : List Int} (hbox : box ++ toCome = xs ++ [-1])
      (hxs : ∀ x ∈ xs, 1 < x) :
      Works toCome [⟨box, .first, sent⟩] (sieved xs) (steps (xs.length + 1))
  | print {toCome box sent xs : List Int} {p : Int} (hbox : box ++ toCome = xs ++ [-1])
      (hxs : ∀ x ∈ xs, 1 < x) :
      Works toCome [⟨box, .print p, sent⟩] (p :: sieved (kept p xs))
        (steps ((kept p xs).length + 1) + 2 * xs.length + 7)
  | spawn {toCome box sent xs : List Int} {p : Int} (hbox : box ++ toCome = xs ++ [-1])
      (hxs : ∀ x ∈ xs, 1 < x) :
      Works toCome [⟨box, .spawn p, sent⟩] (sieved (kept p xs))
        (steps ((kept p xs).length + 1) + 2 * xs.length + 6)
  | filter {toCome box sent xs out : List Int} {p : Int} {rest : List Stage} {n : Nat}
      (hbox : box ++ toCome = xs ++ [-1]) (hxs : ∀ x ∈ xs, 1 < x)
      (h : Works (kept p xs ++ [-1]) rest out n) :
      Works toCome (⟨box, .filter p, sent⟩ :: rest) out (n + 2 * xs.length + 5)
  | send {toCome box sent xs out : List Int} {p x : Int} {rest : List Stage} {n : Nat}
      (hbox : box ++ toCome = xs ++ [-1]) (hxs : ∀ x ∈ xs, 1 < x)
      (h : Works (x :: (kept p xs ++ [-1])) rest out n) :
      Works toCome (⟨box, .send p x, sent⟩ :: rest) out (n + 2 * xs.length + 6)
  | finish {sent out : List Int} {rest : List Stage} {n : Nat} (h : Works [-1] rest out n) :
      Works [] (⟨[], .finish, sent⟩ :: rest) out (n + 2)
  | wait {sent out : List Int} {rest : List Stage} {n : Nat} (hsent : sent.getLast? = some (-1))
      (h : Works [] rest out n) : Works [] (⟨[], .wait, sent⟩ :: rest) out (n + 1)
  | exited {sent : List Int} : Works [] [⟨[], .exited, sent⟩] [] 0
  | left {sent : List Int} {rest : List Stage} (hsent : sent.getLast? = some (-1))
      (hrest : ∀ r ∈ rest, r.pc = .exited) (h : Works [] rest [] 0) :
      Works [] (⟨[], .exited, sent⟩ :: rest) [] 0

variable {toCome out printed : List Int} {chain chain' rest : List Stage} {q r : Stage} {n i : Nat}
  {x : Int} {closed : Bool}

theorem Works.push (h : Works (x :: toCome) (r :: rest) out n) :
    Works toCome ({ r with inbox := r.inbox ++ [x] } :: rest) out n := by
  have hcons : ∀ box : List Int, box ++ [x] ++ toCome = box ++ x :: toCome := fun box => by
    rw [List.append_assoc, List.singleton_append]
  cases h with
  | first hbox hxs => exact .first ((hcons _).trans hbox) hxs
  | print hbox hxs => exact .print ((hcons _).trans hbox) hxs
  | spawn hbox hxs => exact .spawn ((hcons _).trans hbox) hxs
  | filter hbox hxs h => exact .filter ((hcons _).trans hbox) hxs h
  | send hbox hxs h => exact .send ((hcons _).trans hbox) hxs h

theorem Works.not_exited (h : Works (x :: toCome) (r :: rest) out n) : r.pc ≠ .exited := by
  cases h <;> nofun

theorem Works.ne_nil (h : Works toCome chain out n) : chain ≠ [] := by
  cases h <;> nofun

theorem Works.write (h : Works (x :: toCome) rest out n) {rest' : List Stage}
    (hw : Primes.write x rest = some rest') : Works toCome rest' out n := by
  cases rest with
  | nil => cases hw
  | cons r rest =>
    rw [Primes.write, if_neg h.not_exited] at hw
    split at hw
    · cases hw
      exact h.push
    · cases hw

theorem Works.all_exited (h : Works toCome (r :: rest) out n) (hr : r.pc = .exited) :
    ∀ q ∈ r :: rest, q.pc = .exited := by
  cases h with
  | exited => simp
  | left _ hrest _ => simpa using hrest
  | _ => cases hr

theorem Works.eq_nil_of_exited (h : Works toCome chain out n) (hall : ∀ q ∈ chain, q.pc = .exited) :
    out = [] := by
  cases h with
  | exited | left => rfl
  | _ => cases hall _ List.mem_cons_self

theorem cons_eq_append {y : Int} {box xs : List Int} (h : y :: box ++ toCome = xs ++ [-1])
    (hxs : ∀ x ∈ xs, 1 < x) (hy : y ≠ -1) :
    ∃ ys, xs = y :: ys ∧ box ++ toCome = ys ++ [-1] ∧ ∀ x ∈ ys, 1 < x := by
  cases xs with
  | nil => exact absurd (List.cons.inj h).1 hy
  | cons z ys =>
    obtain ⟨rfl, hys⟩ := List.cons.inj h
    exact ⟨ys, rfl, hys, fun x hx => hxs x (List.mem_cons_of_mem _ hx)⟩

theorem eq_nil_of_cons {box xs : List Int} (h : -1 :: box ++ toCome = xs ++ [-1])
    (hxs : ∀ x ∈ xs, 1 < x) : xs = [] ∧ box = [] ∧ toCome = [] := by
  cases xs with
  | nil =>
    have hnil := (List.cons.inj h).2
    exact ⟨rfl, List.append_eq_nil_iff.mp hnil⟩
  | cons z ys =>
    have hz := hxs z List.mem_cons_self
    rw [← (List.cons.inj h).1] at hz
    omega

theorem kept_cons_of_dvd {p : Int} {xs : List Int} (h : p ∣ x) : kept p (x :: xs) = kept p xs :=
  List.filter_cons_of_neg (by simpa using h)

theorem kept_cons_of_not_dvd {p : Int} {xs : List Int} (h : ¬ p ∣ x) :
    kept p (x :: xs) = x :: kept p xs :=
  List.filter_cons_of_pos (by simpa using h)

theorem Works.step (h : Works toCome (q :: rest) out n) (hclosed : closed → toCome = [])
    (hs : q.step closed rest = .done (chain', printed)) :
    ∃ out' n', Works toCome chain' out' n' ∧ out = printed ++ out' ∧ n' < n := by
  cases h with
  | @first _ box sent xs hbox hxs =>
    cases box with
    | nil =>
      simp only [Stage.step] at hs
      split at hs <;> cases hs
    | cons x box =>
      cases hs
      split
      next hx =>
        subst hx
        obtain ⟨rfl, rfl, rfl⟩ := eq_nil_of_cons hbox hxs
        exact ⟨[], 0, .exited, rfl, by decide⟩
      next hx =>
        obtain ⟨ys, rfl, hys, hgt⟩ := cons_eq_append hbox hxs hx
        refine ⟨_, _, .print hys hgt, sieved_cons x ys, ?_⟩
        have hmono : steps ((kept x ys).length + 1) ≤ steps (ys.length + 1) :=
          steps_mono (Nat.succ_le_succ (length_kept_le x ys))
        have hsteps : steps (ys.length + 1 + 1) =
          steps (ys.length + 1) + 2 * (ys.length + 1) + 6 := rfl
        rw [List.length_cons, hsteps]
        omega
  | print hbox hxs =>
    cases hs
    exact ⟨_, _, .spawn hbox hxs, rfl, Nat.lt_succ_self _⟩
  | @spawn _ box sent xs p hbox hxs =>
    cases hs
    have hkept : ∀ x ∈ kept p xs, 1 < x := fun x hx => hxs x (List.mem_of_mem_filter hx)
    exact ⟨_, _, .filter hbox hxs (.first rfl hkept), rfl, Nat.lt_succ_self _⟩
  | @filter _ box sent xs _ p _ n hbox hxs h =>
    cases box with
    | nil =>
      simp only [Stage.step] at hs
      split at hs
      next hc =>
        rw [hclosed hc] at hbox
        simp at hbox
      next => cases hs
    | cons x box =>
      cases hs
      split
      next hx =>
        subst hx
        obtain ⟨rfl, rfl, rfl⟩ := eq_nil_of_cons hbox hxs
        exact ⟨_, _, .finish h, rfl, by simp⟩
      next hx =>
        obtain ⟨ys, rfl, hys, hgt⟩ := cons_eq_append hbox hxs hx
        rw [List.length_cons]
        split
        next hmod =>
          rw [kept_cons_of_not_dvd (mt Int.tmod_eq_zero_of_dvd hmod)] at h
          exact ⟨_, _, .send hys hgt h, rfl, by omega⟩
        next hmod =>
          rw [kept_cons_of_dvd (Int.dvd_of_tmod_eq_zero (not_not.mp hmod))] at h
          exact ⟨_, _, .filter hys hgt h, rfl, by omega⟩
  | send hbox hxs h =>
    simp only [Stage.step] at hs
    split at hs
    next => cases hs
    next hw =>
      cases hs
      exact ⟨_, _, .filter hbox hxs (h.write hw), rfl, Nat.lt_succ_self _⟩
  | finish h =>
    simp only [Stage.step] at hs
    split at hs
    next => cases hs
    next hw =>
      cases hs
      exact ⟨_, _, .wait (by simp) (h.write hw), rfl, Nat.lt_succ_self _⟩
  | wait hsent h =>
    simp only [Stage.step] at hs
    split at hs
    next => exact absurd rfl h.ne_nil
    next r rest =>
      split at hs
      next hr =>
        cases hs
        have hall := h.all_exited hr
        cases h with
        | exited => exact ⟨_, _, .left hsent hall .exited, rfl, by decide⟩
        | left hs' hr' h' => exact ⟨_, _, .left hsent hall (.left hs' hr' h'), rfl, by decide⟩
        | _ => cases hr
      next => cases hs
  | exited => cases hs
  | left => cases hs

theorem Works.tail (h : Works toCome (q :: rest) out n) (hrest : rest ≠ []) :
    ∃ toCome' m, Works toCome' rest out m ∧ (q.pc = .exited → toCome' = []) ∧
      ∀ rest' out' m', Works toCome' rest' out' m' → m' < m →
        ∃ n' < n, Works toCome (q :: rest') out' n' := by
  cases h with
  | first | print | spawn | exited => exact absurd rfl hrest
  | filter hbox hxs h =>
    exact ⟨_, _, h, nofun, fun _ _ _ h' hlt => ⟨_, by omega, .filter hbox hxs h'⟩⟩
  | send hbox hxs h =>
    exact ⟨_, _, h, nofun, fun _ _ _ h' hlt => ⟨_, by omega, .send hbox hxs h'⟩⟩
  | finish h => exact ⟨_, _, h, nofun, fun _ _ _ h' hlt => ⟨_, by omega, .finish h'⟩⟩
  | wait hsent h => exact ⟨_, _, h, nofun, fun _ _ _ h' hlt => ⟨_, by omega, .wait hsent h'⟩⟩
  | left hsent hrest h => exact ⟨_, _, h, fun _ => rfl, fun _ _ _ _ hlt => by omega⟩

theorem advance_nil : Primes.advance closed i [] = .blocked := by
  cases i <;> rfl

theorem Works.advance (h : Works toCome chain out n) (hclosed : closed → toCome = [])
    (hs : Primes.advance closed i chain = .done (chain', printed)) :
    ∃ out' n', Works toCome chain' out' n' ∧ out = printed ++ out' ∧ n' < n := by
  induction i generalizing closed toCome chain chain' out n with
  | zero =>
    cases chain with
    | nil => cases hs
    | cons q rest => exact h.step hclosed hs
  | succ i ih =>
    cases chain with
    | nil => cases hs
    | cons q rest =>
      rw [Primes.advance] at hs
      cases hres : Primes.advance (q.pc = .exited) i rest with
      | blocked => rw [hres] at hs; cases hs
      | panic e => rw [hres] at hs; cases hs
      | done res =>
        rw [hres] at hs
        cases hs
        have hne : rest ≠ [] := by
          rintro rfl
          rw [advance_nil] at hres
          cases hres
        obtain ⟨toCome', m, ht, hc, hback⟩ := h.tail hne
        obtain ⟨out', m', h', hout, hlt⟩ := ih ht (fun he => hc (of_decide_eq_true he)) hres
        obtain ⟨n', hn, hw⟩ := hback _ _ _ h' hlt
        exact ⟨out', n', hw, hout, hn⟩

theorem Works.not_panic (h : Works toCome chain out n) (hclosed : closed → toCome = []) {e : Fault} :
    Primes.advance closed i chain ≠ .panic e := by
  induction i generalizing closed toCome chain out n with
  | zero =>
    intro hs
    cases h with
    | @first _ box sent xs hbox hxs =>
      cases box with
      | nil =>
        simp only [Primes.advance, Stage.step] at hs
        split at hs
        next hc =>
          rw [hclosed hc] at hbox
          simp at hbox
        next => cases hs
      | cons => cases hs
    | print | spawn | exited | left => cases hs
    | filter | send | finish | wait =>
      simp only [Primes.advance, Stage.step] at hs
      repeat (split at hs <;> try cases hs)
  | succ i ih =>
    cases chain with
    | nil => nofun
    | cons q rest =>
      intro hs
      rw [Primes.advance] at hs
      cases hres : Primes.advance (q.pc = .exited) i rest with
      | blocked => rw [hres] at hs; cases hs
      | done res => rw [hres] at hs; cases hs
      | panic e' =>
        have hne : rest ≠ [] := by
          rintro rfl
          rw [advance_nil] at hres
          cases hres
        obtain ⟨toCome', m, ht, hc, -⟩ := h.tail hne
        exact ih ht (fun he => hc (of_decide_eq_true he)) hres

def Lively (toCome : List Int) (chain : List Stage) : Prop :=
  (∀ closed, ∃ i res, advance closed i chain = .done res) ∨ (∀ q ∈ chain, q.pc = .exited) ∨
    toCome ≠ [] ∧ ∃ q rest, chain = q :: rest ∧ q.inbox = []

theorem Lively.step (h : ∀ closed, ∃ res, q.step closed rest = .done res) :
    Lively toCome (q :: rest) :=
  .inl fun closed => ⟨0, h closed⟩

theorem Lively.behind (h : ∀ closed, ∃ i res, advance closed i rest = .done res) :
    Lively toCome (q :: rest) := by
  refine .inl fun closed => ?_
  obtain ⟨i, ⟨chain, out⟩, hres⟩ := h (q.pc = .exited)
  exact ⟨i + 1, (q :: chain, out), by rw [advance, hres]; rfl⟩

theorem Works.can_write (h : Works (x :: toCome) rest out n) (hl : Lively (x :: toCome) rest) :
    (∃ rest', Primes.write x rest = some rest') ∨
      ∀ closed, ∃ i res, Primes.advance closed i rest = .done res := by
  cases rest with
  | nil => exact absurd rfl h.ne_nil
  | cons r rest =>
    rw [Primes.write]
    by_cases hroom : r.inbox.length < capacity
    · exact .inl ⟨_, if_pos hroom⟩
    · obtain hl | hl | ⟨-, q, rest', he, hq⟩ := hl
      · exact .inr hl
      · exact absurd (hl r List.mem_cons_self) h.not_exited
      · obtain ⟨rfl, rfl⟩ := List.cons.inj he
        rw [hq] at hroom
        exact absurd (by decide) hroom

theorem Works.lively (h : Works toCome chain out n) : Lively toCome chain := by
  induction h with
  | @first toCome box sent xs hbox hxs =>
    cases box with
    | nil => exact .inr (.inr ⟨by rintro rfl; simp at hbox, _, _, rfl, rfl⟩)
    | cons x box => exact Lively.step fun _ => ⟨_, rfl⟩
  | print | spawn => exact Lively.step fun _ => ⟨_, rfl⟩
  | @filter toCome box sent xs out p rest n hbox hxs h ih =>
    cases box with
    | nil => exact .inr (.inr ⟨by rintro rfl; simp at hbox, _, _, rfl, rfl⟩)
    | cons x box => exact Lively.step fun _ => ⟨_, rfl⟩
  | send hbox hxs h ih =>
    obtain ⟨rest', hw⟩ | hs := h.can_write ih
    · exact Lively.step fun _ => ⟨_, by simp only [Stage.step, hw]; rfl⟩
    · exact Lively.behind hs
  | finish h ih =>
    obtain ⟨rest', hw⟩ | hs := h.can_write ih
    · exact Lively.step fun _ => ⟨_, by simp only [Stage.step, hw]; rfl⟩
    · exact Lively.behind hs
  | @wait sent out rest n hsent h ih =>
    obtain hs | hall | ⟨hne, -⟩ := ih
    · exact Lively.behind hs
    · cases rest with
      | nil => exact absurd rfl h.ne_nil
      | cons r rest =>
        exact Lively.step fun _ => ⟨_, by rw [Stage.step, if_pos (hall r List.mem_cons_self)]⟩
    · exact absurd rfl hne
  | exited => exact .inr (.inl (by simp))
  | left hsent hrest h => exact .inr (.inl (by simpa using hrest))

theorem Works.exits (h : Works toCome chain out n) (hq : chain[i]? = some q)
    (hpc : q.pc = .exited) (hi : i + 1 < chain.length) :
    q.sent.getLast? = some (-1) ∧ ∀ r ∈ chain.drop (i + 1), r.pc = .exited := by
  induction i generalizing toCome chain out n with
  | zero =>
    cases h with
    | left hsent hrest h =>
      cases hq
      exact ⟨hsent, hrest⟩
    | exited => simp at hi
    | _ => cases hq; cases hpc
  | succ i ih =>
    cases chain with
    | nil => cases hq
    | cons p rest =>
      rw [List.length_cons] at hi
      obtain ⟨_, _, ht, -⟩ := h.tail (List.length_pos_iff.mp (by omega))
      exact ih ht hq (by omega)

structure Sieving (xs : List Int) (taken : Nat) (s : State) : Prop where
  closed : s.closed → s.feed = []
  works : ∃ out n, Works s.feed s.chain out n ∧ s.output ++ out = sieved xs ∧
    taken + n + s.feed.length + (if s.closed then 0 else 1) ≤ steps (xs.length + 1) + xs.length + 2

variable {xs : List Int} {s s' : State} {a : Action} {taken : Nat}

theorem Sieving.start (hxs : ∀ x ∈ xs, 1 < x) : Sieving xs 0 (start xs) := by
  refine ⟨nofun, sieved xs, _, .first rfl hxs, rfl, ?_⟩
  simp [Primes.start]
  omega

theorem Sieving.next (h : Sieving xs taken s) (hn : Primes.next s a = .done s') :
    Sieving xs (taken + 1) s' := by
  obtain ⟨hclosed, out, n, hw, hout, hle⟩ := h
  cases a with
  | feed =>
    cases hf : s.feed with
    | nil => simp [Primes.next, hf] at hn
    | cons x feed =>
      cases hc : Primes.write x s.chain with
      | none => simp [Primes.next, hf, hc] at hn
      | some chain =>
        simp only [Primes.next, hf, hc] at hn
        cases hn
        rw [hf] at hw hle
        refine ⟨fun hc => ?_, out, n, hw.write hc, hout, ?_⟩
        · rw [hclosed hc] at hf
          cases hf
        · rw [List.length_cons] at hle
          change taken + 1 + n + feed.length + (if s.closed then 0 else 1) ≤ _
          omega
  | close =>
    rw [Primes.next] at hn
    split at hn
    next hc =>
      cases hn
      refine ⟨fun _ => hc.1, out, n, hw, hout, ?_⟩
      simp only [hc.2] at hle
      simp
      simp at hle
      omega
    next => cases hn
  | stage i =>
    cases hres : Primes.advance s.closed i s.chain with
    | blocked => simp [Primes.next, hres] at hn
    | panic e => simp [Primes.next, hres] at hn
    | done res =>
      simp only [Primes.next, hres] at hn
      cases hn
      obtain ⟨out', n', hw', rfl, hlt⟩ := hw.advance hclosed hres
      refine ⟨hclosed, out', n', hw', ?_, by simp only; omega⟩
      rw [← hout, List.append_assoc]

theorem Sieving.run {ok : State → Action → Prop} (hxs : ∀ x ∈ xs, 1 < x) {τ : List Action}
    (h : Run (machine xs) ok τ s) : Sieving xs τ.length s := by
  induction h with
  | start h =>
    cases h
    exact .start hxs
  | step _ _ hn ih => exact ih.next hn

theorem Sieving.not_panic (h : Sieving xs taken s) {e : Fault} : Primes.next s a ≠ .panic e := by
  obtain ⟨hclosed, out, n, hw, -⟩ := h
  intro hs
  cases a with
  | feed =>
    simp only [Primes.next] at hs
    split at hs
    · cases hs
    · split at hs <;> cases hs
  | close =>
    rw [Primes.next] at hs
    split at hs <;> cases hs
  | stage i =>
    cases hres : Primes.advance s.closed i s.chain with
    | blocked => simp [Primes.next, hres] at hs
    | done res => simp [Primes.next, hres] at hs
    | panic e' => exact hw.not_panic hclosed hres

theorem Sieving.final (h : Sieving xs taken s) (hstuck : ∀ a s', Primes.next s a ≠ .done s') :
    (∀ q ∈ s.chain, q.pc = .exited) ∧ s.output = sieved xs := by
  obtain ⟨hclosed, out, n, hw, hout, -⟩ := h
  obtain hs | hall | ⟨hne, q, rest, hq, hbox⟩ := hw.lively
  · obtain ⟨i, res, hres⟩ := hs s.closed
    exact absurd (by simp only [Primes.next, hres]; rfl) (hstuck (.stage i) _)
  · rw [hw.eq_nil_of_exited hall, List.append_nil] at hout
    exact ⟨hall, hout⟩
  · obtain ⟨x, feed, hf⟩ := List.exists_cons_of_ne_nil hne
    have hroom : q.inbox.length < capacity := by rw [hbox]; decide
    have hwrite : Primes.write x s.chain = some ({ q with inbox := q.inbox ++ [x] } :: rest) := by
      rw [hq, Primes.write, if_pos hroom]
    exact absurd (by simp only [Primes.next, hf, hwrite]; rfl) (hstuck .feed _)

/-- With any interleaving, the chain of processes started on a stream of integers greater than 1
prints those that no earlier printed one divides and ends: nothing is read before it is written, a
stage ends after it has passed on -1 and after its descendants, runs are bounded, and where nothing
can happen any more all stages have ended and all has been printed. For the stream `2, …, n` these
are the primes up to `n`. -/
theorem pipeline_prints_sieved (xs : List Int) (hxs : ∀ x ∈ xs, 1 < x) :
    (∀ τ s, Run (machine xs) anyStep τ s →
      (∀ a e, next s a ≠ .panic e) ∧ s.output <+: sieved xs ∧
      (∀ i q, s.chain[i]? = some q → q.pc = .exited → i + 1 < s.chain.length →
        q.sent.getLast? = some (-1) ∧ ∀ r ∈ s.chain.drop (i + 1), r.pc = .exited) ∧
      τ.length ≤ steps (xs.length + 1) + xs.length + 2 ∧
      ((∀ a s', next s a ≠ .done s') →
        (∀ q ∈ s.chain, q.pc = .exited) ∧ s.output = sieved xs)) ∧
    ∀ n, xs = upto n → sieved xs = primesUpto n := by
  refine ⟨fun τ s hrun => ?_, fun n hn => hn ▸ sieved_upto n⟩
  have h := Sieving.run hxs hrun
  obtain ⟨out, n, hw, hout, hle⟩ := h.works
  refine ⟨fun a e => h.not_panic, ⟨out, hout⟩, fun i q hq => hw.exits hq, by omega, h.final⟩

theorem advance_of_exited {chain : List Stage} (h : ∀ q ∈ chain, q.pc = .exited) (closed : Bool)
    (i : Nat) : advance closed i chain = .blocked := by
  induction chain generalizing closed i with
  | nil => cases i <;> rfl
  | cons q rest ih =>
    obtain ⟨hq, hrest⟩ := List.forall_mem_cons.mp h
    cases i with
    | zero => simp [advance, Stage.step, hq]
    | succ i => simp [advance, ih hrest, behind]

def traverseFour : List Action :=
  List.replicate 4 .feed ++ .close :: List.replicate 8 (.stage 0) ++ List.replicate 5 (.stage 1) ++
    [.stage 2, .stage 1, .stage 0]

theorem pipeline_prints_sieved_four :
    ∃ τ s, Run (machine (upto 4)) anyStep τ s ∧ (∀ q ∈ s.chain, q.pc = .exited) ∧
      s.output = [2, 3] ∧ s.output = primesUpto 4 := by
  have h : (perform (machine (upto 4)) (fun _ _ => true) (start (upto 4)) traverseFour).any fun s =>
      s.feed = [] ∧ s.closed = true ∧ (∀ q ∈ s.chain, q.pc = .exited) ∧ s.output = [2, 3] := by
    decide +kernel
  obtain ⟨s, ⟨τ, hrun⟩, hs⟩ := Reachable.of_perform (P := anyStep) h rfl fun _ _ _ => trivial
  obtain ⟨hfeed, hclosed, hexited, hout⟩ := of_decide_eq_true hs
  obtain ⟨hsieve, hprimes⟩ := pipeline_prints_sieved (upto 4) (by decide)
  have hstop : ∀ a s', next s a ≠ .done s' := by
    intro a s'
    cases a <;> simp [next, hfeed, hclosed, advance_of_exited hexited]
  obtain ⟨-, hprinted⟩ := (hsieve τ s hrun).2.2.2.2 hstop
  exact ⟨τ, s, hrun, hexited, hout, hprinted.trans (hprimes 4 rfl)⟩

end Xv6.Primes

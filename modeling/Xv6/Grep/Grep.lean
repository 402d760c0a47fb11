import Xv6.Grep.Match
import Xv6.Lib.Command

namespace Xv6.Grep

open Lib.Command

def bufSize : Nat := 1024

def newline : UInt8 := '\n'.toUInt8

inductive Fault where
  /-- An index outside `buf`. -/
  | outside (i : Nat)
  | fuel
  deriving DecidableEq

/-- A call of `read`: how much it asks for, and how much there is to be read. -/
structure Call where
  count : Nat
  left : Nat
  deriving DecidableEq

structure State where
  buf : Nat → UInt8
  /-- What `read` has yet to return. -/
  input : Str
  calls : List Call
  /-- What each call of `write` wrote. -/
  output : List Str

abbrev GrepM := Cmd State Fault

def load (i : Nat) : GrepM UInt8 := do
  let s ← get
  if i < bufSize then return s.buf i else throw (.outside i)

def store (i : Nat) (b : UInt8) : GrepM Unit :=
  if i < bufSize then modify fun s => { s with buf := Function.update s.buf i b }
  else throw (.outside i)

def storeAll : Nat → Str → GrepM Unit
  | _, [] => pure ()
  | i, b :: w => do
    store i b
    storeAll (i + 1) w

def loadAll : Nat → Nat → GrepM Str
  | _, 0 => pure []
  | i, n + 1 => do
    let b ← load i
    let w ← loadAll (i + 1) n
    return b :: w

/-- `read(fd, buf+i, count)`. With `left` bytes to be read, the next piece has `split left` bytes
unless that is none, more than asked for or more than there are. -/
def read (split : Nat → Nat) (i count : Nat) : GrepM Nat := do
  let s ← get
  let n := min (min count s.input.length) (max 1 (split s.input.length))
  modify fun s => { s with calls := s.calls ++ [⟨count, s.input.length⟩] }
  storeAll i (s.input.take n)
  modify fun s => { s with input := s.input.drop n }
  return n

/-- `write(1, buf+i, n)`. -/
def write (i n : Nat) : GrepM Unit := do
  let w ← loadAll i n
  modify fun s => { s with output := s.output ++ [w] }

/-- `strchr`, over at most so many bytes as the buffer has. -/
def strchr (c : UInt8) : Nat → Nat → GrepM (Option Nat)
  | 0, i => throw (.outside i)
  | k + 1, i => do
    let b ← load i
    if b = 0 then return none
    else if b = c then return some i
    else strchr c k (i + 1)

def cstr : Nat → Nat → GrepM Str
  | 0, i => throw (.outside i)
  | k + 1, i => do
    let b ← load i
    if b = 0 then return []
    else
      let w ← cstr k (i + 1)
      return b :: w

def copyUp : Nat → Nat → Nat → GrepM Unit
  | _, _, 0 => pure ()
  | dst, src, n + 1 => do
    let b ← load src
    store dst b
    copyUp (dst + 1) (src + 1) n

def copyDown (dst src : Nat) : Nat → GrepM Unit
  | 0 => pure ()
  | n + 1 => do
    let b ← load (src + n)
    store (dst + n) b
    copyDown dst src n

def memmove (dst src n : Nat) : GrepM Unit :=
  if dst < src then copyUp dst src n else copyDown dst src n

/-- What is done with the line from `p` to its newline at `q`. -/
def line (pattern : Str) (p q : Nat) : GrepM Unit := do
  store q 0
  let text ← cstr (bufSize - p) p
  if matchRe pattern text then do
    store q newline
    write p (q + 1 - p)
  else return ()

/-- The inner loop: the value of `p` at its end. -/
def scan (pattern : Str) : Nat → Nat → GrepM Nat
  | 0, _ => throw .fuel
  | k + 1, p => do
    match ← strchr newline (bufSize - p) p with
    | none => return p
    | some q =>
      line pattern p q
      scan pattern k (q + 1)

def carry (m p : Nat) : GrepM Nat :=
  if 0 < m then do
    memmove 0 p (m - p)
    return m - p
  else return m

def grepLoop (pattern : Str) (split : Nat → Nat) : Nat → Nat → GrepM Unit
  | 0, _ => throw .fuel
  | k + 1, m => do
    let n ← read split m (bufSize - m - 1)
    if n = 0 then return ()
    else do
      store (m + n) 0
      let p ← scan pattern bufSize 0
      let m ← carry (m + n) p
      grepLoop pattern split k m

/-- `grep(pattern, fd)`, with at most `fuel` calls of `read`. -/
def grep (pattern : Str) (split : Nat → Nat) (fuel : Nat) : GrepM Unit :=
  grepLoop pattern split fuel 0

section Buffer

/-- From index `i` on, the buffer holds the bytes `w`. -/
def Holds (buf : Nat → UInt8) : Nat → Str → Prop
  | _, [] => True
  | i, b :: w => buf i = b ∧ Holds buf (i + 1) w

variable {buf buf' : Nat → UInt8} {i j k : Nat} {u v w : Str} {s : State} {c : UInt8}

theorem holds_append : Holds buf i (u ++ v) ↔ Holds buf i u ∧ Holds buf (i + u.length) v := by
  induction u generalizing i with
  | nil => simp [Holds]
  | cons b u ih =>
    rw [List.cons_append, Holds, Holds, ih, and_assoc, List.length_cons, Nat.add_right_comm]
    rfl

theorem Holds.congr (h : Holds buf i w) (he : ∀ j, i ≤ j → j < i + w.length → buf' j = buf j) :
    Holds buf' i w := by
  induction w generalizing i with
  | nil => trivial
  | cons b w ih =>
    obtain ⟨hb, hw⟩ := h
    simp only [List.length_cons] at he
    refine ⟨(he i le_rfl (by omega)).trans hb, ih hw fun j hj hj' => he j (by omega) (by omega)⟩

theorem Holds.update (h : Holds buf i w) {b : UInt8} (hj : j < i ∨ i + w.length ≤ j) :
    Holds (Function.update buf j b) i w :=
  h.congr fun _ _ _ => Function.update_of_ne (by omega) _ _

/-- The buffer after storing the bytes `w` from index `i` on. -/
def put (buf : Nat → UInt8) : Nat → Str → Nat → UInt8
  | _, [] => buf
  | i, b :: w => put (Function.update buf i b) (i + 1) w

theorem put_of_lt (h : j < i) : put buf i w j = buf j := by
  induction w generalizing i buf with
  | nil => rfl
  | cons b w ih => rw [put, ih (by omega), Function.update_of_ne (by omega)]

theorem holds_put : Holds (put buf i w) i w := by
  induction w generalizing i buf with
  | nil => trivial
  | cons b w ih =>
    refine ⟨?_, ih⟩
    rw [put, put_of_lt (Nat.lt_succ_self i), Function.update_self]

theorem load_eq (hi : i < bufSize) : load i s = .ok (s.buf i, s) := by
  rw [load, get_bind, if_pos hi]
  rfl

theorem store_eq (hi : i < bufSize) :
    store i c s = .ok ((), { s with buf := Function.update s.buf i c }) := by
  rw [store, if_pos hi]
  rfl

theorem storeAll_eq (hi : i + w.length ≤ bufSize) :
    storeAll i w s = .ok ((), { s with buf := put s.buf i w }) := by
  induction w generalizing i s with
  | nil => rfl
  | cons b w ih =>
    rw [List.length_cons] at hi
    rw [storeAll, bind_of_ok (store_eq (by omega)), ih (by omega)]
    rfl

theorem loadAll_eq (h : Holds s.buf i w) (hi : i + w.length ≤ bufSize) :
    loadAll i w.length s = .ok (w, s) := by
  induction w generalizing i with
  | nil => rfl
  | cons b w ih =>
    rw [List.length_cons] at hi
    rw [List.length_cons, loadAll, bind_of_ok (load_eq (by omega)), bind_of_ok (ih h.2 (by omega)), h.1]
    rfl

theorem write_eq (h : Holds s.buf i w) (hi : i + w.length ≤ bufSize) :
    write i w.length s = .ok ((), { s with output := s.output ++ [w] }) := by
  rw [write, bind_of_ok (loadAll_eq h hi)]
  rfl

theorem strchr_found (h : Holds s.buf i (u ++ c :: v)) (hc : c ∉ u) (h0 : (0 : UInt8) ∉ u)
    (hne : c ≠ 0) (hi : i + u.length < bufSize) (hk : u.length < k) :
    strchr c k i s = .ok (some (i + u.length), s) := by
  induction u generalizing i k with
  | nil =>
    obtain ⟨k, rfl⟩ := Nat.exists_eq_add_one.mpr hk
    rw [strchr, bind_of_ok (load_eq (i := i) hi), h.1, if_neg hne, if_pos rfl]
    rfl
  | cons b u ih =>
    obtain ⟨k, rfl⟩ := Nat.exists_eq_add_one.mpr (Nat.zero_lt_of_lt hk)
    obtain ⟨hbc, hc⟩ := not_or.mp (mt List.mem_cons.mpr hc)
    obtain ⟨hb0, h0⟩ := not_or.mp (mt List.mem_cons.mpr h0)
    rw [List.length_cons] at hi hk ⊢
    rw [strchr, bind_of_ok (load_eq (by omega)), h.1, if_neg (Ne.symm hb0), if_neg (Ne.symm hbc),
      ih h.2 hc h0 (by omega) (by omega)]
    congr 3
    omega

theorem strchr_none (h : Holds s.buf i (w ++ [0])) (hc : c ∉ w) (h0 : (0 : UInt8) ∉ w)
    (hi : i + w.length < bufSize) (hk : w.length < k) : strchr c k i s = .ok (none, s) := by
  induction w generalizing i k with
  | nil =>
    obtain ⟨k, rfl⟩ := Nat.exists_eq_add_one.mpr hk
    rw [strchr, bind_of_ok (load_eq (i := i) hi), h.1, if_pos rfl]
    rfl
  | cons b w ih =>
    obtain ⟨k, rfl⟩ := Nat.exists_eq_add_one.mpr (Nat.zero_lt_of_lt hk)
    obtain ⟨hbc, hc⟩ := not_or.mp (mt List.mem_cons.mpr hc)
    obtain ⟨hb0, h0⟩ := not_or.mp (mt List.mem_cons.mpr h0)
    rw [List.length_cons] at hi hk
    rw [strchr, bind_of_ok (load_eq (by omega)), h.1, if_neg (Ne.symm hb0), if_neg (Ne.symm hbc),
      ih h.2 hc h0 (by omega) (by omega)]

theorem cstr_eq (h : Holds s.buf i (w ++ [0])) (h0 : (0 : UInt8) ∉ w)
    (hi : i + w.length < bufSize) (hk : w.length < k) : cstr k i s = .ok (w, s) := by
  induction w generalizing i k with
  | nil =>
    obtain ⟨k, rfl⟩ := Nat.exists_eq_add_one.mpr hk
    rw [cstr, bind_of_ok (load_eq (i := i) hi), h.1, if_pos rfl]
    rfl
  | cons b w ih =>
    obtain ⟨k, rfl⟩ := Nat.exists_eq_add_one.mpr (Nat.zero_lt_of_lt hk)
    obtain ⟨hb0, h0⟩ := not_or.mp (mt List.mem_cons.mpr h0)
    rw [List.length_cons] at hi hk
    rw [cstr, bind_of_ok (load_eq (by omega)), h.1, if_neg (Ne.symm hb0),
      bind_of_ok (ih h.2 h0 (by omega) (by omega))]
    rfl

theorem copyUp_eq (h : Holds s.buf j w) (hij : i < j) (hj : j + w.length ≤ bufSize) :
    copyUp i j w.length s = .ok ((), { s with buf := put s.buf i w }) := by
  induction w generalizing i j s with
  | nil => rfl
  | cons b w ih =>
    obtain ⟨hb, hw⟩ := h
    rw [List.length_cons] at hj ⊢
    rw [copyUp, bind_of_ok (load_eq (by omega)), hb, bind_of_ok (store_eq (by omega)),
      ih (hw.update (by omega)) (by omega) (by omega)]
    rfl

theorem copyDown_self {n : Nat} (hi : i + n ≤ bufSize) : copyDown i i n s = .ok ((), s) := by
  induction n with
  | zero => rfl
  | succ n ih =>
    rw [copyDown, bind_of_ok (load_eq (by omega)), bind_of_ok (store_eq (by omega)),
      Function.update_eq_self, ih (by omega)]

theorem memmove_meets (h : Holds s.buf j w) (hj : j + w.length ≤ bufSize) :
    Meets (memmove 0 j w.length) s
      (fun _ s' => ∃ buf, s' = { s with buf := buf } ∧ Holds buf 0 w) (fun _ => False) := by
  rw [memmove]
  split
  next hpos => exact Meets.of_eq (copyUp_eq h hpos hj) ⟨_, rfl, holds_put⟩
  next hpos =>
    obtain rfl : j = 0 := by omega
    exact Meets.of_eq (copyDown_self (by omega)) ⟨s.buf, rfl, h⟩

end Buffer

section Lines

/-- The lines of a text that end with a newline, without it. -/
def terminated (text : Str) : List Str := (text.splitOn newline).dropLast

def unterminated (text : Str) : Str := (text.splitOn newline).getLastD []

variable {pattern text u v w : Str}

theorem terminated_append (h : newline ∉ u) :
    terminated (u ++ newline :: v) = u :: terminated v := by
  rw [terminated, List.splitOn_append_cons_self_of_not_mem h,
    List.dropLast_cons_of_ne_nil (List.splitOn_ne_nil _ _)]
  rfl

theorem unterminated_append (h : newline ∉ u) :
    unterminated (u ++ newline :: v) = unterminated v := by
  have hne := List.splitOn_ne_nil newline v
  rw [unterminated, List.splitOn_append_cons_self_of_not_mem h, unterminated,
    List.getLastD_eq_getLast?, List.getLastD_eq_getLast?, List.getLast?_cons_of_ne_nil hne]

theorem terminated_of_notMem (h : newline ∉ w) : terminated w = [] := by
  rw [terminated, List.splitOn_eq_singleton h]
  rfl

theorem unterminated_of_notMem (h : newline ∉ w) : unterminated w = w := by
  rw [unterminated, List.splitOn_eq_singleton h]
  rfl

def matching (pattern text : Str) : List Str :=
  ((terminated text).filter (matchRe pattern)).map (· ++ [newline])

/-- No line has more than 1023 bytes, its newline included. -/
structure Short (text : Str) : Prop where
  terminated : ∀ l ∈ terminated text, l.length + 1 ≤ 1023
  unterminated : (unterminated text).length ≤ 1023

def reply (pattern l : Str) : List Str := if matchRe pattern l then [l ++ [newline]] else []

theorem matching_append (h : newline ∉ u) :
    matching pattern (u ++ newline :: v) = reply pattern u ++ matching pattern v := by
  rw [matching, terminated_append h, reply, List.filter_cons]
  split <;> rfl

theorem matching_of_notMem (h : newline ∉ w) : matching pattern w = [] := by
  rw [matching, terminated_of_notMem h]
  rfl

theorem Short.tail (h : newline ∉ u) (hs : Short (u ++ newline :: v)) : Short v := by
  obtain ⟨hterm, hlast⟩ := hs
  rw [terminated_append h] at hterm
  rw [unterminated_append h] at hlast
  exact ⟨fun l hl => hterm l (List.mem_cons_of_mem u hl), hlast⟩

theorem Short.length_lt (hs : Short (u ++ v)) (h : newline ∉ u) (hv : v ≠ []) : u.length < 1023 := by
  have hpos := List.length_pos_of_ne_nil hv
  by_cases hmem : newline ∈ v
  · obtain ⟨x, y, rfl, hx⟩ := List.eq_append_cons_of_mem hmem
    have hux : newline ∉ u ++ x := by simp [h, hx]
    rw [← List.append_assoc] at hs
    have := hs.terminated (u ++ x) (by rw [terminated_append hux]; exact List.mem_cons_self)
    rw [List.length_append] at this
    omega
  · have huv : newline ∉ u ++ v := by simp [h, hmem]
    have := hs.unterminated
    rw [unterminated_of_notMem huv, List.length_append] at this
    omega

theorem Short.length_le (hs : Short u) (h : newline ∉ u) : u.length ≤ 1023 := by
  simpa [unterminated_of_notMem h] using hs.unterminated

end Lines

section Loops

variable {pattern u v w : Str} {s : State} {p k : Nat}

theorem line_meets (h : Holds s.buf p (u ++ newline :: v)) (h0 : (0 : UInt8) ∉ u)
    (hp : p + u.length + v.length < bufSize) :
    Meets (line pattern p (p + u.length)) s
      (fun _ s' => ∃ buf, s' = { s with buf := buf, output := s.output ++ reply pattern u } ∧
        Holds buf (p + u.length + 1) v)
      (fun _ => False) := by
  obtain ⟨hu, -, hv⟩ := holds_append.mp h
  have hcut : Holds (Function.update s.buf (p + u.length) 0) p (u ++ [0]) :=
    holds_append.mpr ⟨hu.update (by omega), Function.update_self .., trivial⟩
  have hv' : Holds (Function.update s.buf (p + u.length) 0) (p + u.length + 1) v :=
    hv.update (by omega)
  rw [line, reply]
  refine Meets.bind (Meets.of_eq (store_eq (by omega)) ?_)
  refine Meets.bind (Meets.of_eq (cstr_eq hcut h0 (by omega) (by omega)) ?_)
  split
  next hm =>
    have hback : Holds (Function.update (Function.update s.buf (p + u.length) 0) (p + u.length) newline)
        p (u ++ [newline]) :=
      holds_append.mpr ⟨(hu.update (by omega)).update (by omega), Function.update_self .., trivial⟩
    have hlen : p + u.length + 1 - p = (u ++ [newline]).length := by
      rw [List.length_append, List.length_singleton]
      omega
    refine Meets.bind (Meets.of_eq (store_eq (by omega)) ?_)
    rw [hlen]
    exact Meets.of_eq (write_eq hback (by omega)) ⟨_, rfl, hv'.update (by omega)⟩
  next => exact Meets.pure ⟨_, by rw [List.append_nil], hv'⟩

theorem scan_meets (h : Holds s.buf p (w ++ [0])) (h0 : (0 : UInt8) ∉ w)
    (hp : p + w.length < bufSize) (hk : w.length < k) :
    Meets (scan pattern k p) s
      (fun p' s' => ∃ buf out tail, s' = { s with buf := buf, output := s.output ++ out } ∧
        p' + tail.length = p + w.length ∧ Holds buf p' tail ∧ newline ∉ tail ∧
        ∀ rest, matching pattern (w ++ rest) = out ++ matching pattern (tail ++ rest) ∧
          (Short (w ++ rest) → Short (tail ++ rest)) ∧ tail ⊆ w)
      (fun _ => False) := by
  induction k generalizing p w s with
  | zero => omega
  | succ k ih =>
    rw [scan]
    by_cases hmem : newline ∈ w
    · obtain ⟨u, v, rfl, hu⟩ := List.eq_append_cons_of_mem hmem
      rw [List.append_assoc] at h
      rw [List.length_append, List.length_cons] at hp hk
      have hu0 : (0 : UInt8) ∉ u := fun hm => h0 (List.mem_append_left _ hm)
      have hfound := strchr_found h hu hu0 (by decide) (by omega) (k := bufSize - p) (by omega)
      refine Meets.bind (Meets.of_eq hfound ?_)
      refine Meets.seq (line_meets h hu0 (by simp; omega)) ?_
      rintro _ _ ⟨buf, rfl, hv⟩
      refine (ih hv (fun hm => h0 (by simp [hm])) (by omega) (by omega)).post ?_
      rintro p' _ ⟨buf', out, tail, rfl, hp', htail, hnl, hrest⟩
      refine ⟨buf', reply pattern u ++ out, tail, by rw [List.append_assoc], ?_, htail, hnl, ?_⟩
      · rw [hp', List.length_append, List.length_cons]
        omega
      · intro rest
        obtain ⟨hmatch, hshort, hsub⟩ := hrest rest
        rw [List.append_assoc, List.cons_append]
        refine ⟨?_, fun hs => hshort (hs.tail hu), fun b hb => ?_⟩
        · rw [matching_append hu, hmatch, List.append_assoc]
        · exact List.mem_append_right u (List.mem_cons_of_mem _ (hsub hb))
    · refine Meets.bind (Meets.of_eq (strchr_none h hmem h0 hp (by omega)) ?_)
      refine Meets.pure ⟨s.buf, [], w, by rw [List.append_nil], rfl, (holds_append.mp h).1, hmem, ?_⟩
      exact fun rest => ⟨rfl, id, fun _ hb => hb⟩

def Asks (calls : List Call) : Prop := ∀ call ∈ calls, call.left ≠ 0 → call.count ≠ 0

variable {split : Nat → Nat}

theorem read_meets (h : Holds s.buf 0 u) (hs : Short (u ++ s.input)) (hu : newline ∉ u)
    (hcalls : Asks s.calls) :
    Meets (read split u.length (bufSize - u.length - 1)) s
      (fun n s' => ∃ buf piece calls, s' = ⟨buf, s'.input, calls, s.output⟩ ∧ piece.length = n ∧
        s.input = piece ++ s'.input ∧ Holds buf 0 (u ++ piece) ∧ Asks calls ∧
        u.length + n < bufSize ∧ (n = 0 → s.input = []))
      (fun _ => False) := by
  have hroom : s.input ≠ [] → u.length < 1023 := hs.length_lt hu
  have hle : s.input = [] → u.length ≤ 1023 := fun he => by
    rw [he, List.append_nil] at hs
    exact hs.length_le hu
  have hcount : s.input ≠ [] → bufSize - u.length - 1 ≠ 0 := fun hne => by
    have := hroom hne
    rw [bufSize]
    omega
  have hbuf : u.length < bufSize := by
    by_cases he : s.input = []
    · exact Nat.lt_of_le_of_lt (hle he) (by decide)
    · exact (hroom he).trans (by decide)
  rw [read, Meets, get_bind]
  generalize hn : min (min (bufSize - u.length - 1) s.input.length)
    (max 1 (split s.input.length)) = n
  have hlen : (s.input.take n).length = n := by
    rw [List.length_take]
    omega
  rw [modify_bind, bind_of_ok (storeAll_eq (by omega)), modify_bind]
  refine ⟨_, s.input.take n, _, rfl, hlen, (List.take_append_drop n s.input).symm, ?_, ?_, ?_, ?_⟩
  · refine holds_append.mpr ⟨h.congr fun j _ hj => put_of_lt (by omega), ?_⟩
    rw [Nat.zero_add]
    exact holds_put
  · intro call hcall
    rcases List.mem_append.mp hcall with hcall | hcall
    · exact hcalls call hcall
    · rw [List.mem_singleton.mp hcall]
      exact fun hleft => hcount (List.length_pos_iff.mp (Nat.pos_of_ne_zero hleft))
  · omega
  · intro hzero
    by_contra hne
    have hpos := List.length_pos_of_ne_nil hne
    have := hcount hne
    omega

theorem grepLoop_meets (h : Holds s.buf 0 u) (hs : Short (u ++ s.input)) (hu : newline ∉ u)
    (h0 : (0 : UInt8) ∉ u ++ s.input) (hcalls : Asks s.calls) (hk : s.input.length < k) :
    Meets (grepLoop pattern split k u.length) s
      (fun _ s' => s'.output = s.output ++ matching pattern (u ++ s.input) ∧ Asks s'.calls)
      (fun _ => False) := by
  induction k generalizing u s with
  | zero => omega
  | succ k ih =>
    rw [grepLoop]
    refine Meets.seq (read_meets h hs hu hcalls) ?_
    rintro n s₁ ⟨buf, piece, calls, he, hn, hin, hbuf, hcalls', hroom, hend⟩
    obtain ⟨buf₁, left, calls₁, out₁⟩ := s₁
    obtain ⟨rfl, -, rfl, rfl⟩ := State.mk.inj he
    rw [hin, ← List.append_assoc] at hs h0 ⊢
    split
    next hzero =>
      obtain ⟨rfl, rfl⟩ := List.append_eq_nil_iff.mp ((hend hzero).symm.trans hin).symm
      refine Meets.pure ⟨?_, hcalls'⟩
      rw [List.append_nil, List.append_nil, matching_of_notMem hu, List.append_nil]
    next hpos =>
      have h0' : (0 : UInt8) ∉ u ++ piece := fun hm => h0 (List.mem_append_left _ hm)
      have hlen : (u ++ piece).length = u.length + n := by rw [List.length_append, hn]
      refine Meets.bind (Meets.of_eq (store_eq hroom) ?_)
      have hterm : Holds (Function.update buf₁ (u.length + n) 0) 0 (u ++ piece ++ [0]) := by
        refine holds_append.mpr ⟨hbuf.update (by omega), ?_, trivial⟩
        rw [hlen, Nat.zero_add, Function.update_self]
      refine Meets.seq (scan_meets hterm h0' (by omega) (by omega)) ?_
      rintro p _ ⟨buf₂, out, tail, rfl, hp, htail, hnl, hrest⟩
      obtain ⟨hmatch, hshort, hsub⟩ := hrest left
      have hm : u.length + n - p = tail.length := by omega
      rw [carry, if_pos (by omega), hm, bind_assoc]
      refine Meets.seq (memmove_meets htail (by omega)) ?_
      rintro _ _ ⟨buf₃, rfl, hfront⟩
      rw [pure_bind]
      have hleft : left.length < k := by
        have : s.input.length = piece.length + left.length := by rw [hin, List.length_append]
        omega
      have hnul : (0 : UInt8) ∉ tail ++ left := fun hm => by
        rcases List.mem_append.mp hm with hm | hm
        · exact h0' (hsub hm)
        · exact h0 (List.mem_append_right _ hm)
      refine (ih hfront (hshort hs) hnl hnul hcalls' hleft).post ?_
      rintro _ s' ⟨hout, hasks⟩
      refine ⟨?_, hasks⟩
      rw [hout, hmatch, List.append_assoc]

end Loops

/-- The program before its first `read`. -/
def start (buf : Nat → UInt8) (input : Str) : State := ⟨buf, input, [], []⟩

/-- However `read` splits an input of short lines, `grep` writes the lines that match, stays inside
its buffer and asks for something as long as there is something to be read. -/
theorem grep_writes_matching_lines (pattern input : Str) (split : Nat → Nat) (buf : Nat → UInt8)
    (fuel : Nat) (hnul : (0 : UInt8) ∉ input) (hshort : Short input) (hfuel : input.length < fuel) :
    ∃ s, grep pattern split fuel (start buf input) = .ok ((), s) ∧
      s.output = ((terminated input).filter (matchRe pattern)).map (· ++ [newline]) ∧
      ∀ call ∈ s.calls, call.left ≠ 0 → call.count ≠ 0 := by
  have h : Meets (grepLoop pattern split fuel ([] : Str).length) (start buf input)
      (fun _ s => s.output = [] ++ matching pattern ([] ++ input) ∧ Asks s.calls) (fun _ => False) :=
    grepLoop_meets trivial hshort List.not_mem_nil hnul nofun hfuel
  obtain ⟨_, s, hrun, hout, hasks⟩ := h.ok fun _ => id
  exact ⟨s, hrun, hout, hasks⟩

/-- `grep b` on the lines `ab`, `c` and `b` and an unfinished `b`, read in pieces of three bytes. -/
theorem grep_writes_matching_lines_three :
    ∃ s, grep [98] (fun _ => 3) 9 (start (fun _ => 0) [97, 98, 10, 99, 10, 98, 10, 98]) =
        .ok ((), s) ∧
      s.output = [[97, 98, 10], [98, 10]] ∧ ∀ call ∈ s.calls, call.left ≠ 0 → call.count ≠ 0 :=
  grep_writes_matching_lines [98] [97, 98, 10, 99, 10, 98, 10, 98] (fun _ => 3) (fun _ => 0) 9
    (by decide) ⟨by decide, by decide⟩ (by decide)

end Xv6.Grep

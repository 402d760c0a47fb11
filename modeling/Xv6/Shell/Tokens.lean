import Mathlib.Data.List.TakeWhile
import Xv6.Lib.Command

namespace Xv6.Shell

/-- A pointer into the line, as what is between it and the end `es`. -/
abbrev Ptr := List UInt8

def whitespace : List UInt8 := [' ', '\t', '\r', '\n', '\x0b'].map Char.toUInt8

def symbols : List UInt8 := ['<', '|', '>', '&', ';', '(', ')'].map Char.toUInt8

def isSpace (c : UInt8) : Bool := whitespace.contains c

def isWord (c : UInt8) : Bool := !whitespace.contains c && !symbols.contains c

inductive Sym where
  | bar
  | lparen
  | rparen
  | semi
  | amp
  | lt
  | gt
  /-- `>>` -/
  | append
  deriving DecidableEq

namespace Sym

/-- The character that `peek` sees. -/
def first : Sym → UInt8
  | bar => '|'.toUInt8
  | lparen => '('.toUInt8
  | rparen => ')'.toUInt8
  | semi => ';'.toUInt8
  | amp => '&'.toUInt8
  | lt => '<'.toUInt8
  | gt | append => '>'.toUInt8

def ofByte (c : UInt8) : Option Sym :=
  [bar, lparen, rparen, semi, amp, lt].find? fun k => k.first = c

end Sym

/-- What `gettoken` returns: `0`, `'a'` or the symbol. -/
inductive Ret where
  | nul
  | sym (k : Sym)
  | word
  deriving DecidableEq

structure Span where
  q : Ptr
  eq : Ptr
  deriving DecidableEq

inductive Stop where
  | panic (message : String)
  | fuel
  deriving DecidableEq

abbrev Parser := Lib.Command.Cmd Ptr Stop

def skip (s : Ptr) : Ptr := s.dropWhile isSpace

/-- The `switch` of `gettoken`: what is returned, and the end of the token. -/
def scan : Ptr → Ret × Ptr
  | [] => (.nul, [])
  | c :: s =>
    if c = 0 then (.nul, c :: s)
    else if c = '>'.toUInt8 then
      if s.head? = some '>'.toUInt8 then (.sym .append, s.tail) else (.sym .gt, s)
    else
      match Sym.ofByte c with
      | some k => (.sym k, s)
      | none => (.word, (c :: s).dropWhile isWord)

def gettoken : Parser (Ret × Span) := fun s =>
  let q := skip s
  let (ret, eq) := scan q
  .ok ((ret, ⟨q, eq⟩), skip eq)

def peek (toks : List Char) : Parser Bool := fun s =>
  let s := skip s
  .ok (s.head?.any (toks.map Char.toUInt8).contains, s)

inductive Token where
  | sym (k : Sym)
  | word (text : List UInt8)
  deriving DecidableEq

def Token.ret : Token → Ret
  | sym k => .sym k
  | word _ => .word

def tokens : List UInt8 → List Token
  | [] => []
  | c :: s =>
    if isSpace c then tokens s
    else if c = '>'.toUInt8 then
      if s.head? = some '>'.toUInt8 then .sym .append :: tokens s.tail else .sym .gt :: tokens s
    else
      match Sym.ofByte c with
      | some k => .sym k :: tokens s
      | none => .word (c :: s.takeWhile isWord) :: tokens (s.dropWhile isWord)
termination_by s => s.length
decreasing_by
  all_goals simp only [List.length_cons, List.length_tail]
  any_goals omega
  have := (List.dropWhile_suffix (l := s) isWord).length_le
  omega

@[simp] theorem tokens_nil : tokens [] = [] := by
  rw [tokens]

theorem tokens_skip (s : Ptr) : tokens (skip s) = tokens s := by
  induction s with
  | nil => rfl
  | cons c s ih =>
    unfold skip
    rw [List.dropWhile_cons]
    split
    case isTrue hc =>
      rw [tokens, if_pos hc]
      exact ih
    case isFalse => rfl

theorem skip_suffix (s : Ptr) : skip s <:+ s := List.dropWhile_suffix _

theorem isSpace_of_skip {s s' : Ptr} {c : UInt8} (h : skip s = c :: s') : isSpace c = false := by
  have hne : s.dropWhile isSpace ≠ [] := by
    intro hn
    rw [skip, hn] at h
    cases h
  have hc := List.head_dropWhile_not isSpace hne
  have hd : (s.dropWhile isSpace).head hne = c := by
    simp only [skip] at h
    simp [h]
  rw [hd] at hc
  exact hc

/-- `sp` spans the word `w` of the line `s`. -/
structure Word (s : Ptr) (sp : Span) (w : List UInt8) : Prop where
  suffix : sp.q <:+ s
  split : sp.q = w ++ sp.eq
  word : ∀ c ∈ w, isWord c = true
  stop : ∀ c ∈ sp.eq.head?, isWord c = false

theorem Word.mono {s s' : Ptr} {sp : Span} {w : List UInt8} (h : Word s' sp w) (hs : s' <:+ s) :
    Word s sp w :=
  { h with suffix := h.suffix.trans hs }

theorem Sym.ofByte_first {c : UInt8} {k : Sym} (h : Sym.ofByte c = some k) : k.first = c := by
  have := List.find?_some h
  exact of_decide_eq_true this

theorem symbols_eq : symbols = [Sym.lt, .bar, .gt, .amp, .semi, .lparen, .rparen].map Sym.first := rfl

theorem isWord_of_ofByte {c : UInt8} (hs : isSpace c = false) (hg : c ≠ '>'.toUInt8)
    (h : Sym.ofByte c = none) : isWord c = true := by
  have hnone : symbols.contains c = false := by
    rw [List.contains_eq_mem]
    apply decide_eq_false
    rw [symbols_eq, List.mem_map]
    rintro ⟨k, -, hk⟩
    have hno : ∀ k ∈ [Sym.bar, .lparen, .rparen, .semi, .amp, .lt], ¬ k.first = c := by
      intro k hk
      simpa using List.find?_eq_none.mp h k hk
    cases k with
    | gt | append => exact hg hk.symm
    | _ => exact hno _ (by decide) hk
  change whitespace.contains c = false at hs
  rw [isWord, hs, hnone]
  rfl

theorem not_isWord_head (s : Ptr) : ∀ c ∈ (s.dropWhile isWord).head?, isWord c = false := by
  intro c hc
  cases hd : s.dropWhile isWord with
  | nil =>
    rw [hd] at hc
    cases hc
  | cons d s' =>
    rw [hd] at hc
    cases hc
    have hne : s.dropWhile isWord ≠ [] := by rw [hd]; exact List.cons_ne_nil _ _
    have hw := List.head_dropWhile_not isWord hne
    simp only [hd, List.head_cons] at hw
    exact hw

theorem scan_spec {c : UInt8} {s : Ptr} (hs : isSpace c = false) (h0 : c ≠ 0) :
    ∃ t, tokens (c :: s) = t :: tokens (scan (c :: s)).2 ∧ (scan (c :: s)).1 = t.ret ∧
      (scan (c :: s)).2 <:+ s ∧ (∀ k, t = .sym k → k.first = c) ∧
      ∀ w, t = .word w → c ∈ w ∧ Word (c :: s) ⟨c :: s, (scan (c :: s)).2⟩ w := by
  rw [tokens, if_neg (by rw [hs]; nofun), scan, if_neg h0]
  split
  case isTrue hg =>
    split
    · refine ⟨_, rfl, rfl, List.tail_suffix s, ?_, nofun⟩
      rintro k ⟨⟩
      exact hg.symm
    · refine ⟨_, rfl, rfl, List.suffix_rfl, ?_, nofun⟩
      rintro k ⟨⟩
      exact hg.symm
  case isFalse hg =>
    cases hk : Sym.ofByte c with
    | some k =>
      refine ⟨_, rfl, rfl, List.suffix_rfl, ?_, nofun⟩
      rintro k' ⟨⟩
      exact Sym.ofByte_first hk
    | none =>
      have hc := isWord_of_ofByte hs hg hk
      have hdrop : (c :: s).dropWhile isWord = s.dropWhile isWord := List.dropWhile_cons_of_pos hc
      refine ⟨.word (c :: s.takeWhile isWord), ?_, rfl, ?_, nofun, ?_⟩
      · simp only [hdrop]
      · simp only [hdrop]
        exact List.dropWhile_suffix _
      · rintro w h
        cases h
        simp only [hdrop]
        refine ⟨List.mem_cons_self, List.suffix_rfl, ?_, ?_, not_isWord_head s⟩
        · simp [List.takeWhile_append_dropWhile]
        · intro d hd
          obtain rfl | hd := List.mem_cons.mp hd
          · exact hc
          · exact List.mem_takeWhile_imp hd

variable {s : Ptr} {t : Token} {ts : List Token}

theorem skip_cons {c : UInt8} {r : Ptr} (h0 : 0 ∉ s) (hs : skip s = c :: r) :
    isSpace c = false ∧ c ≠ 0 ∧ c :: r <:+ s := by
  have hsuf : c :: r <:+ s := hs ▸ skip_suffix s
  refine ⟨isSpace_of_skip hs, ?_, hsuf⟩
  rintro rfl
  exact h0 (hsuf.mem List.mem_cons_self)

theorem skip_eq_nil (h0 : 0 ∉ s) (h : tokens s = []) : skip s = [] := by
  rw [← tokens_skip] at h
  cases hs : skip s with
  | nil => rfl
  | cons c r =>
    obtain ⟨hspace, hc, -⟩ := skip_cons h0 hs
    obtain ⟨t, ht, -⟩ := scan_spec (s := r) hspace hc
    rw [hs, ht] at h
    cases h

theorem gettoken_nil (h0 : 0 ∉ s) (h : tokens s = []) :
    gettoken s = .ok ((.nul, ⟨[], []⟩), []) := by
  simp only [gettoken, skip_eq_nil h0 h]
  rfl

theorem gettoken_cons (h0 : 0 ∉ s) (h : tokens s = t :: ts) :
    ∃ sp s', gettoken s = .ok ((t.ret, sp), s') ∧ tokens s' = ts ∧ s' <:+ s ∧
      s'.length < s.length ∧ ∀ w, t = .word w → Word s sp w := by
  rw [← tokens_skip] at h
  cases hs : skip s with
  | nil =>
    rw [hs, tokens_nil] at h
    cases h
  | cons c r =>
    obtain ⟨hspace, hc, hsuf⟩ := skip_cons h0 hs
    obtain ⟨t', ht, hret, hrest, -, hword⟩ := scan_spec (s := r) hspace hc
    rw [hs, ht] at h
    cases h
    have hin : skip (scan (c :: r)).2 <:+ r := (skip_suffix _).trans hrest
    refine ⟨⟨c :: r, (scan (c :: r)).2⟩, skip (scan (c :: r)).2, ?_, tokens_skip _, ?_, ?_, ?_⟩
    · simp only [gettoken, hs, hret]
    · exact hin.trans ((List.suffix_cons c r).trans hsuf)
    · have hlt := hin.length_le
      have hle := hsuf.length_le
      rw [List.length_cons] at hle
      omega
    · intro w hw
      exact (hword w hw).2.mono hsuf

def starts (toks : List Char) : List Token → Bool
  | .sym k :: _ => (toks.map Char.toUInt8).contains k.first
  | _ => false

def symbolic (toks : List Char) : Bool := (toks.map Char.toUInt8).all symbols.contains

theorem mem_symbols {toks : List Char} (h : symbolic toks = true) {c : UInt8}
    (hc : c ∈ toks.map Char.toUInt8) : c ∈ symbols := by
  simpa using List.all_eq_true.mp h c hc

theorem peek_spec {toks : List Char} (h0 : 0 ∉ s) (hsym : symbolic toks = true) :
    peek toks s = .ok (starts toks (tokens s), skip s) := by
  have hany : (skip s).head?.any (toks.map Char.toUInt8).contains = starts toks (tokens s) := by
    rw [← tokens_skip]
    cases hs : skip s with
    | nil => rw [tokens_nil]; rfl
    | cons c r =>
      obtain ⟨hspace, hc, -⟩ := skip_cons h0 hs
      obtain ⟨t, ht, -, -, hfirst, hword⟩ := scan_spec (s := r) hspace hc
      rw [ht]
      cases t with
      | sym k =>
        simp only [List.head?_cons, Option.any_some, starts]
        rw [hfirst k rfl]
      | word w =>
        obtain ⟨hcw, hw⟩ := hword w rfl
        have hc := hw.word c hcw
        simp only [List.head?_cons, Option.any_some, starts]
        rw [List.contains_eq_mem]
        apply decide_eq_false
        intro hin
        simp [isWord, mem_symbols hsym hin] at hc
  simp only [peek, hany]

end Xv6.Shell

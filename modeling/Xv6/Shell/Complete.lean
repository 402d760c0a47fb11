import Xv6.Shell.Sound

namespace Xv6.Shell

open Lib.Command

namespace Cmd

variable {ω ω' : Type}

inductive Rel (R : ω → ω' → Prop) : Cmd ω → Cmd ω' → Prop where
  | exec {ws : List ω} {ws' : List ω'} (h : List.Forall₂ R ws ws') : Rel R (exec ws) (exec ws')
  | redir {cmd : Cmd ω} {cmd' : Cmd ω'} {file : ω} {file' : ω'} {mode fd : Nat}
      (h : Rel R cmd cmd') (hf : R file file') :
      Rel R (redir cmd file mode fd) (redir cmd' file' mode fd)
  | pipe {left right : Cmd ω} {left' right' : Cmd ω'} (h : Rel R left left')
      (hr : Rel R right right') : Rel R (pipe left right) (pipe left' right')
  | list {left right : Cmd ω} {left' right' : Cmd ω'} (h : Rel R left left')
      (hr : Rel R right right') : Rel R (list left right) (list left' right')
  | back {cmd : Cmd ω} {cmd' : Cmd ω'} (h : Rel R cmd cmd') : Rel R (back cmd) (back cmd')

variable {R : ω → ω' → Prop} {cmd : Cmd ω} {cmd' : Cmd ω'}

theorem Rel.addArg (h : Rel R cmd cmd') {w : ω} {w' : ω'} (hw : R w w') :
    Rel R (cmd.addArg w) (cmd'.addArg w') := by
  induction h with
  | exec h => exact .exec (List.rel_append h (.cons hw .nil))
  | redir _ hf ih => exact .redir ih hf
  | pipe h hr => exact .pipe h hr
  | list h hr => exact .list h hr
  | back h => exact .back h

theorem wrap_wrap (cmd : Cmd ω) (rs rs' : List (Redirection ω)) :
    (cmd.wrap rs).wrap rs' = cmd.wrap (rs ++ rs') := List.foldl_append.symm

theorem wrap_addArg (cmd : Cmd ω) (rs : List (Redirection ω)) (w : ω) :
    (cmd.wrap rs).addArg w = (cmd.addArg w).wrap rs := by
  induction rs generalizing cmd with
  | nil => rfl
  | cons r rs ih => exact ih _

end Cmd

variable {s₀ s : Ptr} {ts : List Token} {rest : List Token} {n : Nat}

def Accepts (f : Parser (Cmd Span)) (s₀ s : Ptr) (rest : List Token) (t : Cmd Text) : Prop :=
  Meets f s (fun cmd s' => tokens s' = rest ∧ s' <:+ s ∧ cmd.Rel (Word s₀) t) fun _ => False

theorem Accepts.mono {f : Parser (Cmd Span)} {s s' : Ptr} {t : Cmd Text}
    (h : Accepts f s₀ s' rest t) (hs : s' <:+ s) :
    Meets f s' (fun cmd s'' => tokens s'' = rest ∧ s'' <:+ s ∧ cmd.Rel (Word s₀) t)
      fun _ => False :=
  Meets.post h fun _ _ ⟨ht, hsuf, hrel⟩ => ⟨ht, hsuf.trans hs, hrel⟩

theorem peek_meets_of {α : Type} {f : Bool → Parser α} {Q : α → Ptr → Prop} {E : Stop → Prop}
    {toks : List Char} (b : Bool) (h0 : 0 ∉ s) (hsym : symbolic toks = true)
    (hb : starts toks (tokens s) = b)
    (h : ∀ s', s' <:+ s → tokens s' = tokens s → Meets (f b) s' Q E) :
    Meets (peek toks >>= f) s Q E := by
  refine peek_meets h0 hsym fun s' hr => ?_
  have ht : tokens s' = tokens s := hr.tokens.symm
  rw [ht, hb]
  exact h s' hr.suffix ht

theorem redirect_opens {k : Sym} {mode fd : Nat} (h : k.opens = some (mode, fd)) (cmd : Cmd Span)
    (file : Span) : redirect (.sym k) cmd file = .redir cmd file mode fd := by
  cases k <;> cases h <;> rfl

theorem starts_of_opens {k : Sym} {mode fd : Nat} (h : k.opens = some (mode, fd)) :
    starts ['<', '>'] (.sym k :: ts) = true := by
  cases k <;> first | rfl | cases h

variable (h0 : 0 ∉ s₀)

include h0 in
theorem nulFree_of_suffix (hs : s <:+ s₀) : 0 ∉ s := fun hm => h0 (hs.mem hm)

include h0 in
theorem parseredirs_complete {rs : List (Redirection Text)} (h : Redirs ts rs) (cmd : Cmd Span)
    (t : Cmd Text) (hs : s <:+ s₀) (ht : tokens s = ts ++ rest)
    (hrest : starts ['<', '>'] rest = false) (hcmd : cmd.Rel (Word s₀) t) (hn : s.length < n) :
    Accepts (parseredirs n cmd) s₀ s rest (t.wrap rs) := by
  induction h generalizing cmd t s n with
  | nil =>
    obtain ⟨n, rfl⟩ : ∃ m, n = m + 1 := ⟨n - 1, by omega⟩
    rw [parseredirs]
    have hb : starts ['<', '>'] (tokens s) = false := by
      rw [ht]
      exact hrest
    refine peek_meets_of false (nulFree_of_suffix h0 hs) rfl hb fun s₁ hs₁ ht₁ => ?_
    exact Meets.pure ⟨by rw [ht₁, ht]; rfl, hs₁, hcmd⟩
  | @cons k w mode fd ts rs hk _ ih =>
    obtain ⟨n, rfl⟩ : ∃ m, n = m + 1 := ⟨n - 1, by omega⟩
    rw [parseredirs]
    have hb : starts ['<', '>'] (tokens s) = true := by
      rw [ht]
      exact starts_of_opens hk
    refine peek_meets_of true (nulFree_of_suffix h0 hs) rfl hb fun s₁ hs₁ ht₁ => ?_
    rw [if_pos rfl]
    have hs₁' := hs₁.trans hs
    refine gettoken_meets_of (nulFree_of_suffix h0 hs₁') (ht₁.trans ht) fun _ s₂ h₂ ht₂ hlt _ => ?_
    have hs₂' := h₂.suffix.trans hs₁'
    refine gettoken_meets_of (nulFree_of_suffix h0 hs₂') ht₂ fun sp s₃ h₃ ht₃ hlt' hword => ?_
    have hs₃ : s₃ <:+ s := (h₃.suffix.trans h₂.suffix).trans hs₁
    have hlen := hs₁.length_le
    change Meets (parseredirs n (redirect (.sym k) cmd sp)) s₃ _ _
    rw [redirect_opens hk]
    refine Accepts.mono ?_ hs₃
    exact ih _ _ (hs₃.trans hs) ht₃ (.redir hcmd ((hword w rfl).mono hs₂')) (by omega)

include h0 in
theorem parsebacks_complete {k : Nat} (cmd : Cmd Span) (t : Cmd Text) (hs : s <:+ s₀)
    (ht : tokens s = List.replicate k (.sym .amp) ++ rest) (hrest : starts ['&'] rest = false)
    (hcmd : cmd.Rel (Word s₀) t) (hn : s.length < n) :
    Accepts (parsebacks n cmd) s₀ s rest (Cmd.back^[k] t) := by
  induction k generalizing cmd t s n with
  | zero =>
    obtain ⟨n, rfl⟩ : ∃ m, n = m + 1 := ⟨n - 1, by omega⟩
    rw [parsebacks]
    have hb : starts ['&'] (tokens s) = false := by
      rw [ht]
      exact hrest
    refine peek_meets_of false (nulFree_of_suffix h0 hs) rfl hb fun s₁ hs₁ ht₁ => ?_
    exact Meets.pure ⟨by rw [ht₁, ht]; rfl, hs₁, hcmd⟩
  | succ k ih =>
    obtain ⟨n, rfl⟩ : ∃ m, n = m + 1 := ⟨n - 1, by omega⟩
    rw [parsebacks]
    rw [List.replicate_succ, List.cons_append] at ht
    have hb : starts ['&'] (tokens s) = true := by
      rw [ht]
      rfl
    refine peek_meets_of true (nulFree_of_suffix h0 hs) rfl hb fun s₁ hs₁ ht₁ => ?_
    rw [if_pos rfl]
    have hs₁' := hs₁.trans hs
    refine gettoken_meets_of (nulFree_of_suffix h0 hs₁') (ht₁.trans ht) fun _ s₂ h₂ ht₂ hlt _ => ?_
    have hs₂ := h₂.suffix.trans hs₁
    have hlen := hs₁.length_le
    rw [Function.iterate_succ_apply]
    refine Accepts.mono ?_ hs₂
    exact ih _ _ (hs₂.trans hs) ht₂ (.back hcmd) (by omega)

def Follows (toks : List Char) (rest : List Token) : Prop := rest = [] ∨ starts toks rest = true

def apart (toks toks' : List Char) : Bool :=
  (toks.map Char.toUInt8).all fun c => !(toks'.map Char.toUInt8).contains c

def within (toks toks' : List Char) : Bool :=
  (toks.map Char.toUInt8).all (toks'.map Char.toUInt8).contains

theorem Follows.not_starts {toks toks' : List Char} (h : Follows toks rest)
    (hd : apart toks toks' = true) : starts toks' rest = false := by
  obtain rfl | h := h
  · rfl
  · obtain ⟨k, ts', rfl, hk⟩ := starts_iff.mp h
    apply Bool.eq_false_iff.mpr
    intro h'
    obtain ⟨k', ts'', heq, hk'⟩ := starts_iff.mp h'
    cases heq
    have hnot := List.all_eq_true.mp hd _ hk
    simp [hk'] at hnot

theorem Follows.mono {toks toks' : List Char} (h : Follows toks rest)
    (hd : within toks toks' = true) : Follows toks' rest := by
  refine h.imp_right fun h => ?_
  obtain ⟨k, ts', rfl, hk⟩ := starts_iff.mp h
  exact starts_iff.mpr ⟨k, ts', rfl, by simpa using List.all_eq_true.mp hd _ hk⟩

abbrev afterExec : List Char := ['|', ')', '&', ';']

theorem Words.not_starts {ws : List Text} {rs : List (Redirection Text)} {toks : List Char}
    (h : Words ts ws rs) (hrest : starts toks rest = false) : starts toks (ts ++ rest) = false := by
  cases h with
  | nil => exact hrest
  | cons => rfl

theorem Redirs.not_starts {rs : List (Redirection Text)} {toks : List Char}
    (h : Redirs ts rs) (hrest : starts toks rest = false)
    (hd : apart ['<', '>'] toks = true) :
    starts toks (ts ++ rest) = false := by
  cases h with
  | nil => exact hrest
  | cons hk =>
    refine Follows.not_starts (.inr ?_) hd
    exact starts_of_opens hk

include h0 in
theorem parseargs_complete {ws₀ ws : List Text} {rs₀ rs : List (Redirection Text)} {argc : Nat}
    (h : Words ts ws rs) (cmd : Cmd Span) (hs : s <:+ s₀) (ht : tokens s = ts ++ rest)
    (hrest : Follows afterExec rest) (hcmd : cmd.Rel (Word s₀) (Cmd.wrap (.exec ws₀) rs₀))
    (hargc : argc + ws.length ≤ 9) (hn : s.length < n) :
    Accepts (parseargs n argc cmd) s₀ s rest (Cmd.wrap (.exec (ws₀ ++ ws)) (rs₀ ++ rs)) := by
  induction h generalizing cmd s n argc ws₀ rs₀ with
  | nil =>
    obtain ⟨n, rfl⟩ : ∃ m, n = m + 1 := ⟨n - 1, by omega⟩
    rw [parseargs, List.append_nil, List.append_nil]
    rw [List.nil_append] at ht
    obtain rfl | hstarts := hrest
    · have hb : starts afterExec (tokens s) = false := by rw [ht]; rfl
      refine peek_meets_of false (nulFree_of_suffix h0 hs) rfl hb fun s₁ hs₁ ht₁ => ?_
      rw [if_neg Bool.false_ne_true]
      have hnil := gettoken_nil (nulFree_of_suffix h0 (hs₁.trans hs)) (ht₁.trans ht)
      refine Meets.bind (Meets.of_eq hnil ?_)
      exact Meets.pure ⟨tokens_nil, List.nil_suffix, hcmd⟩
    · have hb : starts afterExec (tokens s) = true := by rw [ht]; exact hstarts
      refine peek_meets_of true (nulFree_of_suffix h0 hs) rfl hb fun s₁ hs₁ ht₁ => ?_
      exact Meets.pure ⟨ht₁.trans ht, hs₁, hcmd⟩
  | @cons w ts ts' ws rs rs' hr h ih =>
    obtain ⟨n, rfl⟩ : ∃ m, n = m + 1 := ⟨n - 1, by omega⟩
    rw [parseargs]
    have hb : starts afterExec (tokens s) = false := by rw [ht]; rfl
    refine peek_meets_of false (nulFree_of_suffix h0 hs) rfl hb fun s₁ hs₁ ht₁ => ?_
    rw [if_neg Bool.false_ne_true]
    have hs₁' := hs₁.trans hs
    rw [List.cons_append, List.append_assoc] at ht
    refine gettoken_meets_of (nulFree_of_suffix h0 hs₁') (ht₁.trans ht)
      fun sp s₂ h₂ ht₂ hlt hword => ?_
    have hs₂' := h₂.suffix.trans hs₁'
    have hlen := hs₁.length_le
    rw [List.length_cons] at hargc
    change Meets (if argc + 1 ≥ MAXARGS then _ else _) _ _ _
    rw [if_neg (by rw [MAXARGS]; omega)]
    have hno : starts ['<', '>'] rest = false := hrest.not_starts rfl
    have hredir := h.not_starts hno
    have harg := hcmd.addArg ((hword w rfl).mono hs₁')
    rw [Cmd.wrap_addArg] at harg
    refine Meets.seq (parseredirs_complete h0 hr _ _ hs₂' ht₂ hredir harg (by omega)) ?_
    rintro c s₃ ⟨ht₃, hs₃, hc⟩
    rw [Cmd.wrap_wrap] at hc
    have hlen₃ := hs₃.length_le
    have hargs : Accepts (parseargs n (argc + 1) c) s₀ s₃ rest
        (Cmd.wrap (.exec (ws₀ ++ [w] ++ ws)) (rs₀ ++ rs ++ rs')) :=
      ih c (hs₃.trans hs₂') ht₃ hc (by omega) (by omega)
    rw [List.append_assoc, List.append_assoc] at hargs
    exact hargs.mono (hs₃.trans (h₂.suffix.trans hs₁))

def Complete (s₀ : Ptr) (f : Nat → Parser (Cmd Span)) (k : Nat)
    (G : List Token → Cmd Text → Prop) (toks : List Char) (n : Nat) : Prop :=
  ∀ (s : Ptr) (ts rest : List Token) (cmd : Cmd Text), G ts cmd → s <:+ s₀ →
    tokens s = ts ++ rest → Follows toks rest → 4 * s.length + k ≤ n → Accepts (f n) s₀ s rest cmd

include h0 in
theorem parseexec_complete (hline : Complete s₀ parseline 4 Line [')'] (n - 2)) :
    Complete s₀ parseexec 2 Exec afterExec n := by
  intro s ts rest cmd h hs ht hrest hn
  obtain ⟨n, rfl⟩ : ∃ m, n = m + 2 := ⟨n - 2, by omega⟩
  rw [parseexec]
  have hno : starts ['<', '>'] rest = false := hrest.not_starts rfl
  cases h with
  | @block ts ts' cmd rs h hr =>
    have hb : starts ['('] (tokens s) = true := by rw [ht]; rfl
    refine peek_meets_of true (nulFree_of_suffix h0 hs) rfl hb fun s₁ hs₁ ht₁ => ?_
    rw [if_pos rfl, parseblock]
    have hs₁' := hs₁.trans hs
    have hb : starts ['('] (tokens s₁) = true := by rw [ht₁, ht]; rfl
    refine peek_meets_of true (nulFree_of_suffix h0 hs₁') rfl hb fun s₂ hs₂ ht₂ => ?_
    rw [if_pos rfl]
    have hs₂' := hs₂.trans hs₁'
    refine gettoken_meets_of (nulFree_of_suffix h0 hs₂') (ht₂.trans (ht₁.trans ht))
      fun _ s₃ h₃ ht₃ hlt _ => ?_
    have hs₃' := h₃.suffix.trans hs₂'
    have hlen : s₂.length ≤ s.length := (hs₂.trans hs₁).length_le
    rw [List.append_eq, List.append_assoc] at ht₃
    refine Meets.seq (hline s₃ _ _ _ h hs₃' ht₃ (.inr rfl) (by omega)) ?_
    rintro c s₄ ⟨ht₄, hs₄, hc⟩
    have hs₄' := hs₄.trans hs₃'
    have hb : starts [')'] (tokens s₄) = true := by rw [ht₄]; rfl
    refine peek_meets_of true (nulFree_of_suffix h0 hs₄') rfl hb fun s₅ hs₅ ht₅ => ?_
    rw [if_pos rfl]
    have hs₅' := hs₅.trans hs₄'
    refine gettoken_meets_of (nulFree_of_suffix h0 hs₅') (ht₅.trans ht₄)
      fun _ s₆ h₆ ht₆ hlt' _ => ?_
    have hs₆ : s₆ <:+ s₃ := (h₆.suffix.trans hs₅).trans hs₄
    have hlen' := hs₆.length_le
    refine Accepts.mono ?_ (hs₆.trans (h₃.suffix.trans (hs₂.trans hs₁)))
    exact parseredirs_complete h0 hr c cmd (hs₆.trans hs₃') ht₆ hno hc (by omega)
  | @words ts ts' ws rs rs' hr h hw =>
    rw [List.append_assoc] at ht
    have hparen : starts ['('] rest = false := hrest.not_starts rfl
    have hb : starts ['('] (tokens s) = false := by
      rw [ht]
      exact hr.not_starts (h.not_starts hparen) rfl
    refine peek_meets_of false (nulFree_of_suffix h0 hs) rfl hb fun s₁ hs₁ ht₁ => ?_
    rw [if_neg Bool.false_ne_true]
    have hs₁' := hs₁.trans hs
    have hlen := hs₁.length_le
    have hexec : (Cmd.exec []).Rel (Word s₀) (.exec []) := .exec .nil
    refine Meets.seq (parseredirs_complete h0 hr _ _ hs₁' (ht₁.trans ht) (h.not_starts hno) hexec
      (by omega)) ?_
    rintro c s₂ ⟨ht₂, hs₂, hc⟩
    have hlen₂ := hs₂.length_le
    refine Accepts.mono ?_ (hs₂.trans hs₁)
    exact parseargs_complete h0 h c (hs₂.trans hs₁') ht₂ hrest hc (by omega) (by omega)

include h0 in
theorem parsepipe_complete (hexec : Complete s₀ parseexec 2 Exec afterExec n)
    (hpipe : Complete s₀ parsepipe 3 Pipe ['&', ';', ')'] n) :
    Complete s₀ parsepipe 3 Pipe ['&', ';', ')'] (n + 1) := by
  intro s ts rest cmd h hs ht hrest hn
  rw [parsepipe]
  cases h with
  | one h =>
    refine Meets.seq (hexec s _ _ _ h hs ht (hrest.mono rfl) (by omega)) ?_
    rintro c s₁ ⟨ht₁, hs₁, hc⟩
    have hb : starts ['|'] (tokens s₁) = false := by
      rw [ht₁]
      exact hrest.not_starts rfl
    refine peek_meets_of false (nulFree_of_suffix h0 (hs₁.trans hs)) rfl hb
      fun s₂ hs₂ ht₂ => ?_
    exact Meets.pure ⟨ht₂.trans ht₁, hs₂.trans hs₁, hc⟩
  | pipe h hr =>
    rw [List.append_assoc] at ht
    refine Meets.seq (hexec s _ _ _ h hs ht (.inr rfl) (by omega)) ?_
    rintro c s₁ ⟨ht₁, hs₁, hc⟩
    have hb : starts ['|'] (tokens s₁) = true := by rw [ht₁]; rfl
    refine peek_meets_of true (nulFree_of_suffix h0 (hs₁.trans hs)) rfl hb
      fun s₂ hs₂ ht₂ => ?_
    rw [if_pos rfl]
    have hs₂' := hs₂.trans (hs₁.trans hs)
    refine gettoken_meets_of (nulFree_of_suffix h0 hs₂') (ht₂.trans ht₁)
      fun _ s₃ h₃ ht₃ hlt _ => ?_
    have hlen : s₂.length ≤ s.length := (hs₂.trans hs₁).length_le
    have hs₃ : s₃ <:+ s := h₃.suffix.trans (hs₂.trans hs₁)
    refine Meets.seq (hpipe s₃ _ _ _ hr (hs₃.trans hs) ht₃ hrest (by omega)) ?_
    rintro c' s' ⟨ht', hs', hc'⟩
    exact Meets.pure ⟨ht', hs'.trans hs₃, .pipe hc hc'⟩

theorem follows_backs {k : Nat} (h : Follows [';', ')'] rest) :
    Follows ['&', ';', ')'] (List.replicate k (.sym .amp) ++ rest) := by
  cases k with
  | zero => exact h.mono rfl
  | succ k => exact .inr rfl

include h0 in
theorem parseline_head {α : Type} {f : Cmd Span → Parser α} {Q : α → Ptr → Prop} {k : Nat}
    {cmd : Cmd Text} (hpipe : Complete s₀ parsepipe 3 Pipe ['&', ';', ')'] n) (h : Pipe ts cmd)
    (hs : s <:+ s₀) (ht : tokens s = ts ++ (List.replicate k (.sym .amp) ++ rest))
    (hrest : Follows [';', ')'] rest) (hn : 4 * s.length + 3 ≤ n)
    (hf : ∀ c s', tokens s' = rest → s' <:+ s → c.Rel (Word s₀) (Cmd.back^[k] cmd) →
      Meets (f c) s' Q fun _ => False) :
    Meets (parsepipe n >>= fun c => parsebacks n c >>= f) s Q fun _ => False := by
  refine Meets.seq (hpipe s _ _ _ h hs ht (follows_backs hrest) hn) ?_
  rintro c s₁ ⟨ht₁, hs₁, hc⟩
  have hlen := hs₁.length_le
  have hno : starts ['&'] rest = false := hrest.not_starts rfl
  refine Meets.seq (parsebacks_complete h0 c cmd (hs₁.trans hs) ht₁ hno hc (by omega)) ?_
  rintro c' s₂ ⟨ht₂, hs₂, hc'⟩
  exact hf c' s₂ ht₂ (hs₂.trans hs₁) hc'

include h0 in
theorem parseline_complete (hpipe : Complete s₀ parsepipe 3 Pipe ['&', ';', ')'] n)
    (hline : Complete s₀ parseline 4 Line [')'] n) :
    Complete s₀ parseline 4 Line [')'] (n + 1) := by
  intro s ts rest cmd h hs ht hrest hn
  rw [parseline]
  cases h with
  | one k h =>
    rw [List.append_assoc] at ht
    refine parseline_head h0 hpipe h hs ht (hrest.mono rfl) (by omega)
      fun c s₁ ht₁ hs₁ hc => ?_
    have hb : starts [';'] (tokens s₁) = false := by
      rw [ht₁]
      exact hrest.not_starts rfl
    refine peek_meets_of false (nulFree_of_suffix h0 (hs₁.trans hs)) rfl hb
      fun s₂ hs₂ ht₂ => ?_
    exact Meets.pure ⟨ht₂.trans ht₁, hs₂.trans hs₁, hc⟩
  | list k h hr =>
    rw [List.append_assoc, List.append_assoc] at ht
    refine parseline_head h0 hpipe h hs ht (.inr rfl) (by omega) fun c s₁ ht₁ hs₁ hc => ?_
    have hb : starts [';'] (tokens s₁) = true := by rw [ht₁]; rfl
    refine peek_meets_of true (nulFree_of_suffix h0 (hs₁.trans hs)) rfl hb
      fun s₂ hs₂ ht₂ => ?_
    rw [if_pos rfl]
    have hs₂' := hs₂.trans (hs₁.trans hs)
    refine gettoken_meets_of (nulFree_of_suffix h0 hs₂') (ht₂.trans ht₁)
      fun _ s₃ h₃ ht₃ hlt _ => ?_
    have hlen : s₂.length ≤ s.length := (hs₂.trans hs₁).length_le
    have hs₃ : s₃ <:+ s := h₃.suffix.trans (hs₂.trans hs₁)
    refine Meets.seq (hline s₃ _ _ _ hr (hs₃.trans hs) ht₃ hrest (by omega)) ?_
    rintro c' s' ⟨ht', hs', hc'⟩
    exact Meets.pure ⟨ht', hs'.trans hs₃, .list hc hc'⟩

include h0 in
theorem parse_complete (n : Nat) : Complete s₀ parseline 4 Line [')'] n := by
  suffices key : ∀ n, (∀ m ≤ n, Complete s₀ parseline 4 Line [')'] m) ∧
      Complete s₀ parsepipe 3 Pipe ['&', ';', ')'] n from (key n).1 n le_rfl
  intro n
  induction n with
  | zero =>
    refine ⟨?_, ?_⟩
    · intro m hm s ts rest cmd _ _ _ _ hn
      omega
    · intro s ts rest cmd _ _ _ _ hn
      omega
  | succ n ih =>
    obtain ⟨hlines, hpipe⟩ := ih
    have hexec := parseexec_complete h0 (hlines (n - 2) (Nat.sub_le n 2))
    refine ⟨?_, parsepipe_complete h0 hexec hpipe⟩
    intro m hm
    obtain hlt | rfl := Nat.lt_or_eq_of_le hm
    · exact hlines m (by omega)
    · exact parseline_complete h0 hpipe (hlines n le_rfl)

end Xv6.Shell

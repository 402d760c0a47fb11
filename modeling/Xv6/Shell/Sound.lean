import Xv6.Shell.Grammar

namespace Xv6.Shell

open Lib.Command

structure Reads (s : Ptr) (ts : List Token) (s' : Ptr) : Prop where
  tokens : tokens s = ts ++ tokens s'
  suffix : s' <:+ s

variable {s s' s'' : Ptr} {t : Token} {ts ts' : List Token} {n : Nat}

theorem Reads.trans (h : Reads s ts s') (h' : Reads s' ts' s'') : Reads s (ts ++ ts') s'' :=
  ⟨by rw [h.tokens, h'.tokens, List.append_assoc], h'.suffix.trans h.suffix⟩

theorem Reads.skip (s : Ptr) : Reads s [] (skip s) := ⟨(tokens_skip s).symm, skip_suffix s⟩

theorem Reads.nulFree (h : Reads s ts s') (h0 : 0 ∉ s) : 0 ∉ s' := fun hm => h0 (h.suffix.mem hm)

theorem Reads.length_le (h : Reads s ts s') : s'.length ≤ s.length := h.suffix.length_le

section Commands

variable {α : Type} {f : Bool → Parser α} {g : Ret × Span → Parser α} {Q : α → Ptr → Prop}
  {E : Stop → Prop}

theorem peek_meets {toks : List Char} (h0 : 0 ∉ s) (hsym : symbolic toks = true)
    (h : ∀ s', Reads s [] s' → Meets (f (starts toks (tokens s'))) s' Q E) :
    Meets (peek toks >>= f) s Q E := by
  refine Meets.bind (Meets.of_eq (peek_spec h0 hsym) ?_)
  rw [← tokens_skip]
  exact h _ (.skip s)

theorem gettoken_meets (h0 : 0 ∉ s) (hnil : tokens s = [] → Meets (g (.nul, ⟨[], []⟩)) [] Q E)
    (hcons : ∀ t ts sp s', tokens s = t :: ts → Reads s [t] s' → s'.length < s.length →
      (∀ w, t = .word w → Word s sp w) → Meets (g (t.ret, sp)) s' Q E) :
    Meets (gettoken >>= g) s Q E := by
  cases h : tokens s with
  | nil => exact Meets.bind (Meets.of_eq (gettoken_nil h0 h) (hnil h))
  | cons t ts =>
    obtain ⟨sp, s', hget, hts, hsuf, hlt, hword⟩ := gettoken_cons h0 h
    refine Meets.bind (Meets.of_eq hget (hcons t ts sp s' h ⟨?_, hsuf⟩ hlt hword))
    rw [h, hts]
    rfl

theorem gettoken_meets_of (h0 : 0 ∉ s) (ht : tokens s = t :: ts)
    (h : ∀ sp s', Reads s [t] s' → tokens s' = ts → s'.length < s.length →
      (∀ w, t = .word w → Word s sp w) → Meets (g (t.ret, sp)) s' Q E) :
    Meets (gettoken >>= g) s Q E := by
  refine gettoken_meets h0 (fun hnil => ?_) fun t' ts' sp s' ht' hr hlt hword => ?_
  · rw [ht] at hnil
    cases hnil
  · rw [ht] at ht'
    cases ht'
    refine h sp s' hr ?_ hlt hword
    have := hr.tokens
    rw [ht] at this
    simpa using this.symm

end Commands

theorem starts_iff {toks : List Char} : starts toks ts = true ↔
    ∃ k ts', ts = .sym k :: ts' ∧ k.first ∈ toks.map Char.toUInt8 := by
  constructor
  · intro h
    cases ts with
    | nil => cases h
    | cons t ts =>
      cases t with
      | word w => cases h
      | sym k => exact ⟨k, ts, rfl, by simpa [starts] using h⟩
  · rintro ⟨k, ts', rfl, hk⟩
    simpa [starts] using hk

theorem Sym.eq_of_first {k k' : Sym} (h : k'.first = k.first) (hk : k ∉ [Sym.gt, .append]) :
    k' = k := by
  cases k with
  | gt | append => exact absurd hk (by decide)
  | _ => cases k' <;> first | rfl | exact absurd h (by decide)

theorem starts_single {c : Char} (k : Sym) (h : starts [c] ts = true) (hc : c.toUInt8 = k.first)
    (hk : k ∉ [Sym.gt, .append]) : ∃ ts', ts = .sym k :: ts' := by
  obtain ⟨k', ts', rfl, hmem⟩ := starts_iff.mp h
  rw [List.map_singleton, List.mem_singleton, hc] at hmem
  exact ⟨ts', by rw [Sym.eq_of_first hmem hk]⟩

theorem starts_redir (h : starts ['<', '>'] ts = true) :
    ∃ k mode fd ts', ts = .sym k :: ts' ∧ k.opens = some (mode, fd) := by
  obtain ⟨k, ts', rfl, hk⟩ := starts_iff.mp h
  cases k with
  | lt | gt | append => exact ⟨_, _, _, ts', rfl, rfl⟩
  | _ => exact absurd hk (by decide)

def Ends : Stop → Prop := fun e => e ≠ .fuel

theorem ends_panic (m : String) : Ends (.panic m) := nofun

theorem parseredirs_sound (cmd : Cmd Span) (h0 : 0 ∉ s) (hn : s.length < n) :
    Meets (parseredirs n cmd) s (fun _ s' => ∃ ts rs, Reads s ts s' ∧ Redirs ts rs) Ends := by
  induction n generalizing s cmd with
  | zero => omega
  | succ n ih =>
    rw [parseredirs]
    refine peek_meets h0 rfl fun s₁ h₁ => ?_
    split
    case isFalse => exact Meets.pure ⟨[], [], h₁, .nil⟩
    case isTrue hs =>
      obtain ⟨k, mode, fd, ts, hts, hk⟩ := starts_redir hs
      refine gettoken_meets_of (h₁.nulFree h0) hts fun _ s₂ h₂ _ hlt _ => ?_
      have h0₂ := h₂.nulFree (h₁.nulFree h0)
      refine gettoken_meets h0₂ (fun _ => Meets.throw (ends_panic _))
        fun t _ sp s₃ _ h₃ hlt' _ => ?_
      cases t with
      | sym => exact Meets.throw (ends_panic _)
      | word w =>
        have hlen := h₁.length_le
        have h0₃ := h₃.nulFree h0₂
        refine Meets.post (ih _ h0₃ (by omega)) ?_
        rintro _ s' ⟨ts', rs, hr, hrs⟩
        exact ⟨_, _, h₁.trans (h₂.trans (h₃.trans hr)), .cons hk hrs⟩

theorem starts_amp (h : starts ['&'] ts = true) : ∃ ts', ts = .sym .amp :: ts' :=
  starts_single .amp h rfl (by decide)

theorem starts_semi (h : starts [';'] ts = true) : ∃ ts', ts = .sym .semi :: ts' :=
  starts_single .semi h rfl (by decide)

theorem starts_bar (h : starts ['|'] ts = true) : ∃ ts', ts = .sym .bar :: ts' :=
  starts_single .bar h rfl (by decide)

theorem starts_lparen (h : starts ['('] ts = true) : ∃ ts', ts = .sym .lparen :: ts' :=
  starts_single .lparen h rfl (by decide)

theorem starts_rparen (h : starts [')'] ts = true) : ∃ ts', ts = .sym .rparen :: ts' :=
  starts_single .rparen h rfl (by decide)

theorem parsebacks_sound (cmd : Cmd Span) (h0 : 0 ∉ s) (hn : s.length < n) :
    Meets (parsebacks n cmd) s (fun _ s' => ∃ k, Reads s (List.replicate k (.sym .amp)) s')
      Ends := by
  induction n generalizing s cmd with
  | zero => omega
  | succ n ih =>
    rw [parsebacks]
    refine peek_meets h0 rfl fun s₁ h₁ => ?_
    split
    case isFalse => exact Meets.pure ⟨0, h₁⟩
    case isTrue hs =>
      obtain ⟨ts, hts⟩ := starts_amp hs
      refine gettoken_meets_of (h₁.nulFree h0) hts fun _ s₂ h₂ _ hlt _ => ?_
      have hlen := h₁.length_le
      refine Meets.post (ih _ (h₂.nulFree (h₁.nulFree h0)) (by omega)) ?_
      rintro _ s' ⟨k, hr⟩
      exact ⟨k + 1, h₁.trans (h₂.trans hr)⟩

theorem parseargs_sound (argc : Nat) (ret : Cmd Span) (h0 : 0 ∉ s) (hn : s.length < n)
    (hargc : argc < MAXARGS) :
    Meets (parseargs n argc ret) s
      (fun _ s' => ∃ ts ws rs, Reads s ts s' ∧ Words ts ws rs ∧ argc + ws.length < MAXARGS) Ends := by
  induction n generalizing s argc ret with
  | zero => omega
  | succ n ih =>
    rw [parseargs]
    refine peek_meets h0 rfl fun s₁ h₁ => ?_
    have h0₁ := h₁.nulFree h0
    have hlen := h₁.length_le
    split
    case isTrue => exact Meets.pure ⟨[], [], [], h₁, .nil, hargc⟩
    case isFalse =>
      refine gettoken_meets h0₁ (fun hnil => ?_) fun t _ sp s₂ _ h₂ hlt _ => ?_
      · have hend : Reads s₁ [] [] := ⟨by rw [hnil, tokens_nil]; rfl, List.nil_suffix⟩
        exact Meets.pure ⟨[], [], [], h₁.trans hend, .nil, hargc⟩
      · cases t with
        | sym => exact Meets.throw (ends_panic _)
        | word w =>
          change Meets (if argc + 1 ≥ MAXARGS then _ else _) _ _ _
          split
          · exact Meets.throw (ends_panic _)
          · have h0₂ := h₂.nulFree h0₁
            refine Meets.seq (parseredirs_sound _ h0₂ (by omega)) ?_
            rintro ret' s₃ ⟨ts, rs, h₃, hrs⟩
            have hlen' := h₃.length_le
            refine Meets.post (ih (argc + 1) ret' (h₃.nulFree h0₂) (by omega) (by omega)) ?_
            rintro _ s' ⟨ts', ws, rs', hr, hws, hlt⟩
            refine ⟨.word w :: (ts ++ ts'), w :: ws, rs ++ rs', h₁.trans (h₂.trans (h₃.trans hr)),
              .cons hrs hws, ?_⟩
            rw [List.length_cons]
            omega

/-- With enough fuel for the length of the line, `f` returns what `G` derives or stops. -/
def Sound (f : Nat → Parser (Cmd Span)) (k : Nat) (G : List Token → Cmd Text → Prop) (n : Nat) :
    Prop :=
  ∀ s : Ptr, 0 ∉ s → 4 * s.length + k ≤ n →
    Meets (f n) s (fun _ s' => ∃ ts cmd, Reads s ts s' ∧ G ts cmd) Ends

theorem parseline_step (hpipe : Sound parsepipe 3 Pipe n)
    (hline : Sound parseline 4 Line n) : Sound parseline 4 Line (n + 1) := by
  intro s h0 hn
  rw [parseline]
  refine Meets.seq (hpipe s h0 (by omega)) ?_
  rintro c s₁ ⟨ts, cmd, h₁, hcmd⟩
  have hlen₁ := h₁.length_le
  refine Meets.seq (parsebacks_sound c (h₁.nulFree h0) (by omega)) ?_
  rintro c' s₂ ⟨k, h₂⟩
  have h₂ := h₁.trans h₂
  refine peek_meets (h₂.nulFree h0) rfl fun s₃ h₃ => ?_
  have h₃ := h₂.trans h₃
  rw [List.append_nil] at h₃
  split
  case isFalse => exact Meets.pure ⟨_, _, h₃, .one k hcmd⟩
  case isTrue hs =>
    obtain ⟨ts', hts⟩ := starts_semi hs
    refine gettoken_meets_of (h₃.nulFree h0) hts fun _ s₄ h₄ _ hlt _ => ?_
    have hlen₃ := h₃.length_le
    have h₄ := h₃.trans h₄
    refine Meets.seq (hline s₄ (h₄.nulFree h0) (by omega)) ?_
    rintro c'' s' ⟨ts'', right, hr, hright⟩
    have hr := h₄.trans hr
    rw [List.append_assoc] at hr
    exact Meets.pure ⟨_, _, hr, .list k hcmd hright⟩

theorem parsepipe_step (hexec : Sound parseexec 2 Exec n)
    (hpipe : Sound parsepipe 3 Pipe n) : Sound parsepipe 3 Pipe (n + 1) := by
  intro s h0 hn
  rw [parsepipe]
  refine Meets.seq (hexec s h0 (by omega)) ?_
  rintro c s₁ ⟨ts, cmd, h₁, hcmd⟩
  refine peek_meets (h₁.nulFree h0) rfl fun s₂ h₂ => ?_
  have h₂ := h₁.trans h₂
  rw [List.append_nil] at h₂
  split
  case isFalse => exact Meets.pure ⟨_, _, h₂, .one hcmd⟩
  case isTrue hs =>
    obtain ⟨ts', hts⟩ := starts_bar hs
    refine gettoken_meets_of (h₂.nulFree h0) hts fun _ s₃ h₃ _ hlt _ => ?_
    have hlen := h₂.length_le
    have h₃ := h₂.trans h₃
    refine Meets.seq (hpipe s₃ (h₃.nulFree h0) (by omega)) ?_
    rintro c'' s' ⟨ts'', right, hr, hright⟩
    have hr := h₃.trans hr
    rw [List.append_assoc] at hr
    exact Meets.pure ⟨_, _, hr, .pipe hcmd hright⟩

theorem parseblock_step (hline : Sound parseline 4 Line n) :
    Sound parseblock 1 Exec (n + 1) := by
  intro s h0 hn
  rw [parseblock]
  refine peek_meets h0 rfl fun s₁ h₁ => ?_
  split
  case isFalse => exact Meets.throw (ends_panic _)
  case isTrue hs =>
    obtain ⟨ts, hts⟩ := starts_lparen hs
    refine gettoken_meets_of (h₁.nulFree h0) hts fun _ s₂ h₂ _ hlt _ => ?_
    have hlen := h₁.length_le
    have h₂ := h₁.trans h₂
    refine Meets.seq (hline s₂ (h₂.nulFree h0) (by omega)) ?_
    rintro c s₃ ⟨ts', cmd, h₃, hcmd⟩
    have hlen₃ := h₃.length_le
    have h₃ := h₂.trans h₃
    refine peek_meets (h₃.nulFree h0) rfl fun s₄ h₄ => ?_
    split
    case isFalse => exact Meets.throw (ends_panic _)
    case isTrue hs =>
      obtain ⟨ts'', hts⟩ := starts_rparen hs
      have hlen₄ := h₄.length_le
      have h₄ := h₃.trans h₄
      refine gettoken_meets_of (h₄.nulFree h0) hts fun _ s₅ h₅ _ hlt' _ => ?_
      have h₅ := h₄.trans h₅
      refine Meets.post (parseredirs_sound c (h₅.nulFree h0) (by omega)) ?_
      rintro _ s' ⟨ts₃, rs, hr, hrs⟩
      have hr := h₅.trans hr
      rw [List.append_nil, List.append_assoc, List.append_assoc] at hr
      exact ⟨_, _, hr, .block hcmd hrs⟩

theorem parseexec_step (hblock : Sound parseblock 1 Exec n) :
    Sound parseexec 2 Exec (n + 1) := by
  intro s h0 hn
  rw [parseexec]
  refine peek_meets h0 rfl fun s₁ h₁ => ?_
  have hlen := h₁.length_le
  split
  case isTrue =>
    refine Meets.post (hblock s₁ (h₁.nulFree h0) (by omega)) ?_
    rintro _ s' ⟨ts, cmd, hr, hcmd⟩
    exact ⟨ts, cmd, h₁.trans hr, hcmd⟩
  case isFalse =>
    refine Meets.seq (parseredirs_sound _ (h₁.nulFree h0) (by omega)) ?_
    rintro c s₂ ⟨ts, rs, h₂, hrs⟩
    have hlen₂ := h₂.length_le
    have h₂ := h₁.trans h₂
    refine Meets.post (parseargs_sound 0 c (h₂.nulFree h0) (by omega) (by decide)) ?_
    rintro _ s' ⟨ts', ws, rs', hr, hws, hlt⟩
    refine ⟨_, _, h₂.trans hr, .words hrs hws ?_⟩
    rw [MAXARGS] at hlt
    omega

theorem parse_sound (n : Nat) : Sound parseline 4 Line n ∧ Sound parsepipe 3 Pipe n ∧
    Sound parseblock 1 Exec n ∧ Sound parseexec 2 Exec n := by
  induction n with
  | zero => refine ⟨?_, ?_, ?_, ?_⟩ <;> (intro s _ hn; omega)
  | succ n ih =>
    obtain ⟨hline, hpipe, hblock, hexec⟩ := ih
    exact ⟨parseline_step hpipe hline, parsepipe_step hexec hpipe, parseblock_step hline,
      parseexec_step hblock⟩

end Xv6.Shell

import Xv6.Shell.Language

namespace Xv6.Shell

open Lib.Command

variable {s₀ s : Ptr} {n argc : Nat} {ω : Type}

def storeArgs : Nat → List Ptr → List (Option Ptr) → List (Option Ptr)
  | argc, [], slots => slots.set argc none
  | argc, p :: ps, slots => storeArgs (argc + 1) ps (slots.set argc (some p))

/-- The array after `parseexec`. It is cleared by `execcmd`. -/
def slots (ps : List Ptr) : List (Option Ptr) := storeArgs 0 ps (List.replicate MAXARGS none)

def terminateArgs (n : Nat) :
    List (Option Ptr) → List (Option Ptr) → List UInt8 → Option (List UInt8)
  | none :: _, _, buf => some buf
  | some _ :: argv, some eq :: eargv, buf => terminateArgs n argv eargv (poke n buf eq)
  | _, _, _ => none

/-- `nulterminate` with the arrays that it goes through. -/
def nulterminateSlots (n : Nat) : Cmd Span → List UInt8 → Option (List UInt8)
  | .exec argv, buf => terminateArgs n (slots (argv.map Span.q)) (slots (argv.map Span.eq)) buf
  | .redir cmd file _ _, buf => do
    let buf ← nulterminateSlots n cmd buf
    return poke n buf file.eq
  | .pipe left right, buf | .list left right, buf => do
    let buf ← nulterminateSlots n left buf
    nulterminateSlots n right buf
  | .back cmd, buf => nulterminateSlots n cmd buf

def Cmd.execs : Cmd ω → List (List ω)
  | exec argv => [argv]
  | redir cmd _ _ _ => cmd.execs
  | pipe left right | list left right => left.execs ++ right.execs
  | back cmd => cmd.execs

theorem storeArgs_eq (ps : List Ptr) (pre : List (Option Ptr)) (k : Nat) (hk : ps.length < k) :
    storeArgs pre.length ps (pre ++ List.replicate k none) =
      pre ++ ps.map some ++ List.replicate (k - ps.length) none := by
  induction ps generalizing pre k with
  | nil =>
    obtain ⟨k, rfl⟩ := Nat.exists_eq_add_one.mpr hk
    simp [storeArgs, List.replicate_succ]
  | cons p ps ih =>
    rw [List.length_cons] at hk
    obtain ⟨k, rfl⟩ : ∃ k', k = k' + 1 := ⟨k - 1, by omega⟩
    have hset : (pre ++ List.replicate (k + 1) none).set pre.length (some p) =
        (pre ++ [some p]) ++ List.replicate k none := by
      simp [List.replicate_succ]
    have hnext := ih (pre ++ [some p]) k (by omega)
    rw [List.length_append, List.length_singleton] at hnext
    rw [storeArgs, hset, hnext, List.length_cons, Nat.add_sub_add_right]
    simp

theorem slots_eq {ps : List Ptr} (h : ps.length < MAXARGS) :
    slots ps = ps.map some ++ List.replicate (MAXARGS - ps.length) none :=
  storeArgs_eq ps [] MAXARGS h

theorem terminateArgs_eq (argv : List Span) (k : Nat) (rest : List (Option Ptr)) (buf : List UInt8) :
    terminateArgs n ((argv.map Span.q).map some ++ List.replicate (k + 1) none)
        ((argv.map Span.eq).map some ++ rest) buf =
      some (argv.foldl (fun buf w => poke n buf w.eq) buf) := by
  induction argv generalizing buf with
  | nil => rfl
  | cons w argv ih => exact ih (poke n buf w.eq)

theorem nulterminateSlots_eq (cmd : Cmd Span) (buf : List UInt8)
    (h : ∀ argv ∈ cmd.execs, argv.length < MAXARGS) :
    nulterminateSlots n cmd buf = some (nulterminate n cmd buf) := by
  induction cmd generalizing buf with
  | exec argv =>
    have hlen : argv.length < MAXARGS := h argv List.mem_cons_self
    obtain ⟨k, hk⟩ := Nat.exists_eq_add_one.mpr (Nat.sub_pos_of_lt hlen)
    rw [nulterminateSlots, slots_eq (by rwa [List.length_map]), slots_eq (by rwa [List.length_map]),
      List.length_map, List.length_map, hk]
    exact terminateArgs_eq argv k _ buf
  | redir cmd file mode fd ih =>
    rw [nulterminateSlots, ih buf h]
    rfl
  | pipe left right ihl ihr | list left right ihl ihr =>
    obtain ⟨hl, hr⟩ := List.forall_mem_append.mp h
    rw [nulterminateSlots, ihl buf hl]
    exact ihr _ hr
  | back cmd ih => exact ih buf h

def Delimited (s₀ : Ptr) (sp : Span) : Prop :=
  ∃ s s', s <:+ s₀ ∧ gettoken s = .ok ((.word, sp), s')

theorem Delimited.word {sp : Span} (h : Delimited s₀ sp) (h0 : 0 ∉ s₀) : ∃ w, Word s₀ sp w := by
  obtain ⟨s, s', hs, hget⟩ := h
  have h0 : 0 ∉ s := fun hm => h0 (hs.mem hm)
  cases ht : tokens s with
  | nil =>
    rw [gettoken_nil h0 ht] at hget
    cases hget
  | cons t ts =>
    obtain ⟨sp', s'', hget', -, -, -, hword⟩ := gettoken_cons h0 ht
    rw [hget] at hget'
    cases t with
    | sym k => cases hget'
    | word w =>
      cases hget'
      exact ⟨w, (hword w rfl).mono hs⟩

structure Formed (s₀ : Ptr) (cmd : Cmd Span) : Prop where
  words : ∀ sp ∈ cmd.words, Delimited s₀ sp
  execs : ∀ argv ∈ cmd.execs, argv.length < MAXARGS

theorem Formed.redir {cmd : Cmd Span} {file : Span} (h : Formed s₀ cmd) (hf : Delimited s₀ file)
    (mode fd : Nat) : Formed s₀ (.redir cmd file mode fd) := by
  refine ⟨List.forall_mem_append.mpr ⟨h.words, ?_⟩, h.execs⟩
  rw [List.forall_mem_singleton]
  exact hf

theorem Formed.pipe {left right : Cmd Span} (hl : Formed s₀ left) (hr : Formed s₀ right) :
    Formed s₀ (.pipe left right) :=
  ⟨List.forall_mem_append.mpr ⟨hl.words, hr.words⟩, List.forall_mem_append.mpr ⟨hl.execs, hr.execs⟩⟩

theorem Formed.list {left right : Cmd Span} (hl : Formed s₀ left) (hr : Formed s₀ right) :
    Formed s₀ (.list left right) :=
  ⟨List.forall_mem_append.mpr ⟨hl.words, hr.words⟩, List.forall_mem_append.mpr ⟨hl.execs, hr.execs⟩⟩

theorem Formed.back {cmd : Cmd Span} (h : Formed s₀ cmd) : Formed s₀ (.back cmd) :=
  ⟨h.words, h.execs⟩

inductive Simple (s₀ : Ptr) (argc : Nat) : Cmd Span → Prop where
  | exec {argv : List Span} (hw : ∀ sp ∈ argv, Delimited s₀ sp) (hlen : argv.length = argc) :
      Simple s₀ argc (.exec argv)
  | redir {cmd : Cmd Span} {file : Span} (h : Simple s₀ argc cmd) (hf : Delimited s₀ file)
      (mode fd : Nat) : Simple s₀ argc (.redir cmd file mode fd)

theorem Simple.addArg {cmd : Cmd Span} {w : Span} (h : Simple s₀ argc cmd) (hw : Delimited s₀ w) :
    Simple s₀ (argc + 1) (cmd.addArg w) := by
  induction h with
  | exec hws hlen =>
    refine .exec (List.forall_mem_append.mpr ⟨hws, ?_⟩) ?_
    · rw [List.forall_mem_singleton]
      exact hw
    · rw [List.length_append, hlen, List.length_singleton]
  | redir _ hf mode fd ih => exact .redir ih hf mode fd

theorem Simple.formed {cmd : Cmd Span} (h : Simple s₀ argc cmd) (hlt : argc < MAXARGS) :
    Formed s₀ cmd := by
  induction h with
  | exec hws hlen =>
    refine ⟨hws, ?_⟩
    rw [Cmd.execs, List.forall_mem_singleton, hlen]
    exact hlt
  | redir _ hf mode fd ih => exact ih.redir hf mode fd

section Commands

variable {α : Type} {f : Bool → Parser α} {g : Ret × Span → Parser α} {Q : α → Ptr → Prop}
  {E : Stop → Prop}

theorem peek_suffix_meets {toks : List Char} (hs : s <:+ s₀)
    (h : ∀ b s', s' <:+ s₀ → Meets (f b) s' Q E) : Meets (peek toks >>= f) s Q E :=
  Meets.bind (Meets.of_eq rfl (h _ _ ((skip_suffix s).trans hs)))

theorem scan_suffix (s : Ptr) : (scan s).2 <:+ s := by
  cases s with
  | nil => exact List.suffix_rfl
  | cons c s =>
    rw [scan]
    split
    · exact List.suffix_rfl
    · split
      · split
        · exact (List.tail_suffix s).trans (List.suffix_cons c s)
        · exact List.suffix_cons c s
      · split
        · exact List.suffix_cons c s
        · exact List.dropWhile_suffix _

theorem gettoken_suffix_meets (hs : s <:+ s₀)
    (h : ∀ ret sp s', (ret = .word → Delimited s₀ sp) → s' <:+ s₀ → Meets (g (ret, sp)) s' Q E) :
    Meets (gettoken >>= g) s Q E := by
  have hget : gettoken s = .ok (((scan (skip s)).1, ⟨skip s, (scan (skip s)).2⟩),
      skip (scan (skip s)).2) := rfl
  have hend : skip (scan (skip s)).2 <:+ s :=
    (skip_suffix _).trans ((scan_suffix _).trans (skip_suffix s))
  refine Meets.bind (Meets.of_eq hget (h _ _ _ (fun hret => ?_) (hend.trans hs)))
  rw [hret] at hget
  exact ⟨s, skip (scan (skip s)).2, hs, hget⟩

end Commands

theorem parseredirs_keeps {P : Cmd Span → Prop} (cmd : Cmd Span)
    (hP : ∀ cmd file mode fd, P cmd → Delimited s₀ file → P (.redir cmd file mode fd)) (h : P cmd)
    (hs : s <:+ s₀) :
    Meets (parseredirs n cmd) s (fun cmd s' => P cmd ∧ s' <:+ s₀) fun _ => True := by
  induction n generalizing s cmd with
  | zero => exact Meets.throw trivial
  | succ n ih =>
    rw [parseredirs]
    refine peek_suffix_meets hs fun b s₁ h₁ => ?_
    split
    case isFalse => exact Meets.pure ⟨h, h₁⟩
    case isTrue =>
      refine gettoken_suffix_meets h₁ fun op _ s₂ _ h₂ => ?_
      refine gettoken_suffix_meets h₂ fun ret file s₃ hfile h₃ => ?_
      split
      case isFalse => exact Meets.throw trivial
      case isTrue hret =>
        refine ih _ ?_ h₃
        unfold redirect
        split
        · exact hP _ _ _ _ h (hfile hret)
        · exact hP _ _ _ _ h (hfile hret)
        · exact hP _ _ _ _ h (hfile hret)
        · exact h

theorem parsebacks_formed (cmd : Cmd Span) (h : Formed s₀ cmd) (hs : s <:+ s₀) :
    Meets (parsebacks n cmd) s (fun cmd s' => Formed s₀ cmd ∧ s' <:+ s₀) fun _ => True := by
  induction n generalizing s cmd with
  | zero => exact Meets.throw trivial
  | succ n ih =>
    rw [parsebacks]
    refine peek_suffix_meets hs fun b s₁ h₁ => ?_
    split
    case isFalse => exact Meets.pure ⟨h, h₁⟩
    case isTrue => exact gettoken_suffix_meets h₁ fun _ _ s₂ _ h₂ => ih _ h.back h₂

theorem parseargs_formed (ret : Cmd Span) (h : Simple s₀ argc ret) (hlt : argc < MAXARGS)
    (hs : s <:+ s₀) :
    Meets (parseargs n argc ret) s (fun cmd s' => Formed s₀ cmd ∧ s' <:+ s₀) fun _ => True := by
  induction n generalizing s argc ret with
  | zero => exact Meets.throw trivial
  | succ n ih =>
    rw [parseargs]
    refine peek_suffix_meets hs fun b s₁ h₁ => ?_
    split
    case isTrue => exact Meets.pure ⟨h.formed hlt, h₁⟩
    case isFalse =>
      refine gettoken_suffix_meets h₁ fun tok w s₂ hw h₂ => ?_
      cases tok with
      | nul => exact Meets.pure ⟨h.formed hlt, h₂⟩
      | sym k => exact Meets.throw trivial
      | word =>
        change Meets (if argc + 1 ≥ MAXARGS then _ else _) _ _ _
        split
        case isTrue => exact Meets.throw trivial
        case isFalse hmax =>
          have hkeeps := parseredirs_keeps (n := n) (P := Simple s₀ (argc + 1)) (ret.addArg w)
            (fun _ _ mode fd hc hf => .redir hc hf mode fd) (h.addArg (hw rfl)) h₂
          refine Meets.seq hkeeps ?_
          rintro ret' s₃ ⟨hret, h₃⟩
          exact ih ret' hret (Nat.not_le.mp hmax) h₃

def Forms (s₀ : Ptr) (f : Parser (Cmd Span)) : Prop :=
  ∀ s, s <:+ s₀ → Meets f s (fun cmd s' => Formed s₀ cmd ∧ s' <:+ s₀) fun _ => True

section Step

variable (hline : Forms s₀ (parseline n)) (hpipe : Forms s₀ (parsepipe n))
  (hblock : Forms s₀ (parseblock n)) (hexec : Forms s₀ (parseexec n))

include hline

theorem parseblock_forms : Forms s₀ (parseblock (n + 1)) := by
  intro s hs
  rw [parseblock]
  refine peek_suffix_meets hs fun b s₁ h₁ => ?_
  split
  case isFalse => exact Meets.throw trivial
  case isTrue =>
    refine gettoken_suffix_meets h₁ fun _ _ s₂ _ h₂ => ?_
    refine Meets.seq (hline s₂ h₂) ?_
    rintro cmd s₃ ⟨hcmd, h₃⟩
    refine peek_suffix_meets h₃ fun b s₄ h₄ => ?_
    split
    case isFalse => exact Meets.throw trivial
    case isTrue =>
      refine gettoken_suffix_meets h₄ fun _ _ s₅ _ h₅ => ?_
      exact parseredirs_keeps cmd (fun _ _ mode fd hc hf => hc.redir hf mode fd) hcmd h₅

include hpipe

theorem parseline_forms : Forms s₀ (parseline (n + 1)) := by
  intro s hs
  rw [parseline]
  refine Meets.seq (hpipe s hs) ?_
  rintro cmd s₁ ⟨hcmd, h₁⟩
  refine Meets.seq (parsebacks_formed cmd hcmd h₁) ?_
  rintro cmd' s₂ ⟨hcmd', h₂⟩
  refine peek_suffix_meets h₂ fun b s₃ h₃ => ?_
  split
  case isFalse => exact Meets.pure ⟨hcmd', h₃⟩
  case isTrue =>
    refine gettoken_suffix_meets h₃ fun _ _ s₄ _ h₄ => ?_
    refine Meets.seq (hline s₄ h₄) ?_
    rintro right s' ⟨hright, h'⟩
    exact Meets.pure ⟨hcmd'.list hright, h'⟩

omit hline
include hexec

theorem parsepipe_forms : Forms s₀ (parsepipe (n + 1)) := by
  intro s hs
  rw [parsepipe]
  refine Meets.seq (hexec s hs) ?_
  rintro cmd s₁ ⟨hcmd, h₁⟩
  refine peek_suffix_meets h₁ fun b s₂ h₂ => ?_
  split
  case isFalse => exact Meets.pure ⟨hcmd, h₂⟩
  case isTrue =>
    refine gettoken_suffix_meets h₂ fun _ _ s₃ _ h₃ => ?_
    refine Meets.seq (hpipe s₃ h₃) ?_
    rintro right s' ⟨hright, h'⟩
    exact Meets.pure ⟨hcmd.pipe hright, h'⟩

omit hpipe hexec
include hblock

theorem parseexec_forms : Forms s₀ (parseexec (n + 1)) := by
  intro s hs
  rw [parseexec]
  refine peek_suffix_meets hs fun b s₁ h₁ => ?_
  split
  case isTrue => exact hblock s₁ h₁
  case isFalse =>
    have hkeeps := parseredirs_keeps (n := n) (P := Simple s₀ 0) (.exec [])
      (fun _ _ mode fd hc hf => .redir hc hf mode fd)
      (.exec (fun _ h => absurd h List.not_mem_nil) rfl) h₁
    refine Meets.seq hkeeps ?_
    rintro ret s₂ ⟨hret, h₂⟩
    exact parseargs_formed ret hret (by decide) h₂

end Step

theorem parse_forms (s₀ : Ptr) (n : Nat) : Forms s₀ (parseline n) ∧ Forms s₀ (parsepipe n) ∧
    Forms s₀ (parseblock n) ∧ Forms s₀ (parseexec n) := by
  induction n with
  | zero => refine ⟨?_, ?_, ?_, ?_⟩ <;> (intro s _; exact Meets.throw trivial)
  | succ n ih =>
    obtain ⟨hline, hpipe, hblock, hexec⟩ := ih
    exact ⟨parseline_forms hline hpipe, parsepipe_forms hpipe hexec, parseblock_forms hline,
      parseexec_forms hblock⟩

theorem parsecmd_formed {fuel : Nat} {cmd : Cmd Span} {buf : List UInt8}
    (h : parsecmd fuel s = .ok (cmd, buf)) :
    Formed s cmd ∧ buf = nulterminate s.length cmd (s ++ [0]) := by
  cases hp : parseline fuel s with
  | error e =>
    rw [parsecmd_of_error hp] at h
    cases h
  | ok r =>
    obtain ⟨cmd', s'⟩ := r
    have hformed := ((parse_forms s fuel).1 s List.suffix_rfl).of_ok hp
    rw [parsecmd_of_ok hp] at h
    split at h
    · cases h
      exact ⟨hformed.1, rfl⟩
    · cases h

theorem Word.addr_eq {sp : Span} {w : Text} (h : Word s₀ sp w) :
    addr s₀.length sp.eq = addr s₀.length sp.q + w.length := by
  have hle := h.suffix.length_le
  have hlen := congrArg List.length h.split
  rw [List.length_append] at hlen
  rw [addr, addr]
  omega

/-- After `nulterminate`, every word of the command is the string at its beginning. -/
structure Terminated (s : List UInt8) (cmd : Cmd Span) (buf : List UInt8) (sp : Span) : Prop where
  token : Delimited s sp
  string : sp.q = string s.length buf sp.q ++ sp.eq
  nul : buf[addr s.length sp.eq]? = some 0
  outside : ∀ sp' ∈ cmd.words,
    ¬(addr s.length sp.q ≤ addr s.length sp'.eq ∧ addr s.length sp'.eq < addr s.length sp.eq)

theorem Formed.terminated {cmd : Cmd Span} (h : Formed s₀ cmd) (h0 : 0 ∉ s₀) {sp : Span}
    (hsp : sp ∈ cmd.words) :
    Terminated s₀ cmd (nulterminate s₀.length cmd (s₀ ++ [0])) sp := by
  have hwords : ∀ sp' ∈ cmd.words, ∃ w, Word s₀ sp' w := fun sp' hsp' =>
    (h.words sp' hsp').word h0
  obtain ⟨w, hw⟩ := hwords sp hsp
  refine ⟨h.words sp hsp, ?_, ?_, fun sp' hsp' hin => ?_⟩
  · rw [nulterminate_eq, hw.string_eq h0 hwords hsp]
    exact hw.split
  · have hlt : addr s₀.length sp.eq < (s₀ ++ [0]).length := by
      rw [List.length_append, List.length_singleton, addr]
      omega
    rw [nulterminate_eq, getElem?_pokes _ _ hlt, if_pos]
    exact List.mem_map_of_mem (List.mem_map_of_mem hsp)
  · obtain ⟨w', hw'⟩ := hwords sp' hsp'
    have haddr := hw.addr_eq
    refine hw.end_ne hw' (j := addr s₀.length sp'.eq - addr s₀.length sp.q) ?_ ?_
    · omega
    · omega

/-- When the parser returns, `nulterminate` has gone through every node without leaving an array:
each argument and each file is the string that `gettoken` has delimited, no terminator is inside a
token, and each `argv` ends with a null pointer in one of its slots. -/
theorem nulterminate_delimits (s : { s : List UInt8 // 0 ∉ s }) (fuel : Nat) (cmd : Cmd Span)
    (buf : List UInt8) (h : parsecmd fuel s = .ok (cmd, buf)) :
    (∀ sp ∈ cmd.words, Terminated s cmd buf sp) ∧
    (∀ argv ∈ cmd.execs, argv.length < MAXARGS ∧ (slots (argv.map Span.q)).length = MAXARGS ∧
      (slots (argv.map Span.q)).take (argv.length + 1) = argv.map (fun w => some w.q) ++ [none]) ∧
    nulterminateSlots s.val.length cmd (s.val ++ [0]) = some buf := by
  obtain ⟨hformed, rfl⟩ := parsecmd_formed h
  refine ⟨fun sp => hformed.terminated s.property, fun argv hargv => ?_, ?_⟩
  · have hlt := hformed.execs argv hargv
    obtain ⟨k, hk⟩ := Nat.exists_eq_add_one.mpr (Nat.sub_pos_of_lt hlt)
    rw [slots_eq (by rwa [List.length_map]), List.length_map, hk]
    refine ⟨hlt, ?_, ?_⟩
    · simp only [List.length_append, List.length_map, List.length_replicate]
      omega
    · have hlen : argv.length + 1 = (argv.map (fun w : Span => some w.q) ++ [none]).length := by simp
      rw [List.map_map, List.replicate_succ, List.append_cons, hlen]
      exact List.take_left
  · exact nulterminateSlots_eq cmd _ hformed.execs

theorem nulterminate_delimits_sample : ∃ cmd buf, parsecmd 44 sample = .ok (cmd, buf) ∧
    (∀ sp ∈ cmd.words, Terminated sample cmd buf sp) ∧ cmd.words.length = 4 := by
  have hok : (parsecmd 44 sample).toOption.map (fun r => r.1.words.length) = some 4 := by
    decide +kernel
  cases hp : parsecmd 44 sample with
  | error e =>
    rw [hp] at hok
    cases hok
  | ok r =>
    obtain ⟨cmd, buf⟩ := r
    rw [hp] at hok
    exact ⟨cmd, buf, rfl, (nulterminate_delimits sample 44 cmd buf hp).1, Option.some.inj hok⟩

end Xv6.Shell

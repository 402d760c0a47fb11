import Xv6.Shell.Complete

namespace Xv6.Shell

open Lib.Command

variable {s₀ : Ptr} {n : Nat} {ω ω' : Type}

/-- All words of a command, in the order in which `nulterminate` visits them. -/
def Cmd.words : Cmd ω → List ω
  | exec argv => argv
  | redir cmd file _ _ => cmd.words ++ [file]
  | pipe left right | list left right => left.words ++ right.words
  | back cmd => cmd.words

theorem nulterminate_eq (n : Nat) (cmd : Cmd Span) (buf : List UInt8) :
    nulterminate n cmd buf = (cmd.words.map Span.eq).foldl (poke n) buf := by
  induction cmd generalizing buf with
  | exec argv => simp only [nulterminate, Cmd.words, List.foldl_map]
  | redir cmd file mode fd ih => simp only [nulterminate, Cmd.words, ih, List.map_append,
      List.foldl_append, List.map_cons, List.map_nil, List.foldl_cons, List.foldl_nil]
  | pipe left right ihl ihr | list left right ihl ihr =>
    simp only [nulterminate, Cmd.words, ihl, ihr, List.map_append, List.foldl_append]
  | back cmd ih => exact ih buf

theorem getElem?_pokes (ps : List Ptr) (buf : List UInt8) {i : Nat} (hi : i < buf.length) :
    (ps.foldl (poke n) buf)[i]? = if i ∈ ps.map (addr n) then some 0 else buf[i]? := by
  induction ps generalizing buf with
  | nil => rfl
  | cons p ps ih =>
    have hlen : i < (poke n buf p).length := by rwa [poke, List.length_set]
    rw [List.foldl_cons, ih _ hlen, poke, List.getElem?_set]
    by_cases hp : addr n p = i
    · simp [hp, hi]
    · have hne : i ≠ addr n p := Ne.symm hp
      simp [hp, hne]

theorem getElem?_addr {p : Ptr} (hp : p <:+ s₀) (j : Nat) :
    s₀[addr s₀.length p + j]? = p[j]? := by
  obtain ⟨pre, rfl⟩ := hp
  have haddr : addr (pre ++ p).length p = pre.length := by
    rw [addr, List.length_append]
    omega
  rw [haddr, List.getElem?_append_right (Nat.le_add_right _ _), Nat.add_sub_cancel_left]

theorem takeWhile_eq {l w : List UInt8} (h : ∀ j < w.length, l[j]? = w[j]?) (h0 : 0 ∉ w)
    (hend : l[w.length]? = some 0) : l.takeWhile (· ≠ 0) = w := by
  induction w generalizing l with
  | nil =>
    cases l with
    | nil => rfl
    | cons c l =>
      cases hend
      rfl
  | cons d w ih =>
    cases l with
    | nil => cases hend
    | cons c l =>
      have hc : c = d := by simpa using h 0 (Nat.succ_pos _)
      subst hc
      have hne : c ≠ 0 := fun he => h0 (by rw [he]; exact List.mem_cons_self)
      have hrest : l.takeWhile (· ≠ 0) = w := by
        refine ih (fun j hj => ?_) (fun hm => h0 (List.mem_cons_of_mem c hm)) ?_
        · simpa using h (j + 1) (Nat.succ_lt_succ hj)
        · simpa using hend
      rw [List.takeWhile_cons_of_pos (by simpa using hne), hrest]

theorem Word.end_ne {sp sp' : Span} {w w' : Text} (h : Word s₀ sp w) (h' : Word s₀ sp' w') {j : Nat}
    (hj : j < w.length) : addr s₀.length sp.q + j ≠ addr s₀.length sp'.eq := by
  intro heq
  have hsuf : sp'.eq <:+ s₀ := by
    refine List.IsSuffix.trans ?_ h'.suffix
    rw [h'.split]
    exact List.suffix_append _ _
  have hin : s₀[addr s₀.length sp.q + j]? = some w[j] := by
    rw [getElem?_addr h.suffix, h.split, List.getElem?_append_left hj, List.getElem?_eq_getElem hj]
  have hend := getElem?_addr hsuf 0
  rw [Nat.add_zero, ← heq, hin, ← List.head?_eq_getElem?] at hend
  have hstop := h'.stop w[j] hend.symm
  rw [h.word _ (List.getElem_mem hj)] at hstop
  cases hstop

theorem Word.string_eq {ws : List Span} {sp : Span} {w : Text} (h : Word s₀ sp w) (h0 : 0 ∉ s₀)
    (hws : ∀ sp' ∈ ws, ∃ w', Word s₀ sp' w') (hsp : sp ∈ ws) :
    string s₀.length ((ws.map Span.eq).foldl (poke s₀.length) (s₀ ++ [0])) sp.q = w := by
  have hq : s₀.length = addr s₀.length sp.q + (w.length + sp.eq.length) := by
    have hle := h.suffix.length_le
    have hlen := congrArg List.length h.split
    rw [List.length_append] at hlen
    rw [addr]
    omega
  refine takeWhile_eq (fun j hj => ?_) (fun hm => ?_) ?_
  · have hno : addr s₀.length sp.q + j ∉ (ws.map Span.eq).map (addr s₀.length) := by
      rw [List.map_map, List.mem_map]
      rintro ⟨sp', hsp', heq⟩
      obtain ⟨w', hw'⟩ := hws sp' hsp'
      exact h.end_ne hw' hj heq.symm
    rw [List.getElem?_drop, getElem?_pokes _ _ (by rw [List.length_append]; omega), if_neg hno,
      List.getElem?_append_left (by omega), getElem?_addr h.suffix, h.split,
      List.getElem?_append_left hj]
  · refine h0 (h.suffix.mem ?_)
    rw [h.split]
    exact List.mem_append_left _ hm
  · have hend : addr s₀.length sp.q + w.length = addr s₀.length sp.eq := by
      rw [addr, addr] at *
      omega
    have hyes : addr s₀.length sp.eq ∈ (ws.map Span.eq).map (addr s₀.length) :=
      List.mem_map_of_mem (List.mem_map_of_mem hsp)
    rw [List.getElem?_drop, hend, getElem?_pokes _ _ ?_, if_pos hyes]
    rw [List.length_append, addr]
    simp only [List.length_singleton]
    omega

theorem forall₂_mem {R : ω → ω' → Prop} {ws : List ω} {ws' : List ω'} (h : List.Forall₂ R ws ws') :
    ∀ w ∈ ws, ∃ w', R w w' := by
  induction h with
  | nil => nofun
  | cons hw _ ih => exact List.forall_mem_cons.mpr ⟨⟨_, hw⟩, ih⟩

theorem map_eq_of_forall₂ {R : ω → ω' → Prop} {ws : List ω} {ws' : List ω'} {f : ω → ω'}
    (h : List.Forall₂ R ws ws') (hf : ∀ w ∈ ws, ∀ w', R w w' → f w = w') : ws.map f = ws' := by
  induction h with
  | nil => rfl
  | cons hw _ ih =>
    obtain ⟨hfw, hf⟩ := List.forall_mem_cons.mp hf
    rw [List.map_cons, hfw _ hw, ih hf]

variable {R : ω → ω' → Prop} {cmd : Cmd ω} {cmd' : Cmd ω'}

theorem Cmd.Rel.words (h : cmd.Rel R cmd') : ∀ w ∈ cmd.words, ∃ w', R w w' := by
  induction h with
  | exec h => exact forall₂_mem h
  | redir _ hf ih =>
    refine List.forall_mem_append.mpr ⟨ih, ?_⟩
    rw [List.forall_mem_singleton]
    exact ⟨_, hf⟩
  | pipe _ _ ihl ihr | list _ _ ihl ihr => exact List.forall_mem_append.mpr ⟨ihl, ihr⟩
  | back _ ih => exact ih

theorem Cmd.Rel.map_eq {f : ω → ω'} (h : cmd.Rel R cmd')
    (hf : ∀ w ∈ cmd.words, ∀ w', R w w' → f w = w') : cmd.map f = cmd' := by
  induction h with
  | exec h => rw [Cmd.map, map_eq_of_forall₂ h hf]
  | redir _ hw ih =>
    obtain ⟨hl, hr⟩ := List.forall_mem_append.mp hf
    rw [Cmd.map, ih hl, hr _ (List.mem_singleton_self _) _ hw]
  | pipe _ _ ihl ihr | list _ _ ihl ihr =>
    obtain ⟨hl, hr⟩ := List.forall_mem_append.mp hf
    rw [Cmd.map, ihl hl, ihr hr]
  | back _ ih => rw [Cmd.map, ih hf]

theorem Cmd.Rel.read_eq {cmd : Cmd Span} {t : Cmd Text} (h : cmd.Rel (Word s₀) t) (h0 : 0 ∉ s₀) :
    cmd.read s₀.length (nulterminate s₀.length cmd (s₀ ++ [0])) = t := by
  rw [nulterminate_eq]
  refine h.map_eq fun sp hsp w hw => ?_
  exact hw.string_eq h0 h.words hsp

theorem parsecmd_of_ok {s s' : Ptr} {fuel : Nat} {cmd : Cmd Span}
    (h : parseline fuel s = .ok (cmd, s')) :
    parsecmd fuel s = if skip s' = [] then .ok (cmd, nulterminate s.length cmd (s ++ [0]))
      else .error (.panic "syntax") := by
  rw [parsecmd, h]
  rfl

theorem parsecmd_of_error {s : Ptr} {fuel : Nat} {e : Stop} (h : parseline fuel s = .error e) :
    parsecmd fuel s = .error e := by
  rw [parsecmd, h]
  rfl

theorem parsecmd_complete {s : Ptr} {fuel : Nat} {t : Cmd Text} (h0 : 0 ∉ s)
    (hf : 4 * s.length + 4 ≤ fuel) (h : Line (tokens s) t) :
    ∃ cmd buf, parsecmd fuel s = .ok (cmd, buf) ∧ cmd.read s.length buf = t := by
  have hacc : Accepts (parseline fuel) s s [] t :=
    parse_complete h0 fuel s (tokens s) [] t h List.suffix_rfl (List.append_nil _).symm (.inl rfl) hf
  obtain ⟨cmd, s', hp, ht, hs, hrel⟩ := Meets.ok hacc fun _ => id
  refine ⟨cmd, _, ?_, hrel.read_eq h0⟩
  rw [parsecmd_of_ok hp, if_pos (skip_eq_nil (nulFree_of_suffix h0 hs) ht)]

theorem parsecmd_sound {s : Ptr} {fuel : Nat} (h0 : 0 ∉ s) (hf : 4 * s.length + 4 ≤ fuel) :
    (∃ m, parsecmd fuel s = .error (.panic m)) ∨
      ∃ r t, parsecmd fuel s = .ok r ∧ Line (tokens s) t := by
  have hsound := (parse_sound fuel).1 s h0 hf
  cases hp : parseline fuel s with
  | error e =>
    left
    rw [parsecmd_of_error hp]
    simp only [Meets, hp] at hsound
    cases e with
    | panic m => exact ⟨m, rfl⟩
    | fuel => exact absurd rfl hsound
  | ok r =>
    obtain ⟨cmd, s'⟩ := r
    obtain ⟨ts, t, hr, ht⟩ := hsound.of_ok hp
    rw [parsecmd_of_ok hp]
    split
    case isTrue hskip =>
      right
      refine ⟨_, t, rfl, ?_⟩
      rw [hr.tokens, ← tokens_skip s', hskip, tokens_nil, List.append_nil]
      exact ht
    case isFalse => exact .inl ⟨_, rfl⟩

/-- The parser returns or stops with an error, it returns if and only if the tokens of the line
can be derived, and then the command is the one of the derivation. -/
theorem parsecmd_accepts_grammar (s : { s : List UInt8 // 0 ∉ s }) (fuel : Nat)
    (hf : 4 * s.val.length + 4 ≤ fuel) :
    parsecmd fuel s ≠ .error .fuel ∧
    ((∃ cmd buf, parsecmd fuel s = .ok (cmd, buf)) ↔ ∃ t, Line (tokens s) t) ∧
    ∀ cmd buf t, parsecmd fuel s = .ok (cmd, buf) → Line (tokens s) t →
      cmd.read s.val.length buf = t := by
  have hsound := parsecmd_sound s.property hf
  refine ⟨?_, ⟨?_, ?_⟩, ?_⟩
  · intro he
    obtain ⟨m, hm⟩ | ⟨r, t, hr, -⟩ := hsound
    · rw [he] at hm
      cases hm
    · rw [he] at hr
      cases hr
  · rintro ⟨cmd, buf, hp⟩
    obtain ⟨m, hm⟩ | ⟨r, t, -, ht⟩ := hsound
    · rw [hp] at hm
      cases hm
    · exact ⟨t, ht⟩
  · rintro ⟨t, ht⟩
    obtain ⟨cmd, buf, hp, -⟩ := parsecmd_complete s.property hf ht
    exact ⟨cmd, buf, hp⟩
  · intro cmd buf t hp ht
    obtain ⟨cmd', buf', hp', hread⟩ := parsecmd_complete s.property hf ht
    rw [hp] at hp'
    cases hp'
    exact hread

/-- `a<b|(c;d)&` -/
def sample : { s : List UInt8 // 0 ∉ s } :=
  ⟨['a', '<', 'b', '|', '(', 'c', ';', 'd', ')', '&'].map Char.toUInt8, by decide⟩

def letter (c : Char) : Text := [c.toUInt8]

theorem tokens_sample : tokens sample = [.word (letter 'a'), .sym .lt, .word (letter 'b'), .sym .bar,
    .sym .lparen, .word (letter 'c'), .sym .semi, .word (letter 'd'), .sym .rparen, .sym .amp] := by
  decide +kernel

def sampleCmd : Cmd Text :=
  .back (.pipe (.redir (.exec [letter 'a']) (letter 'b') O_RDONLY 0)
    (.list (.exec [letter 'c']) (.exec [letter 'd'])))

theorem line_sample : Line (tokens sample) sampleCmd := by
  have hword : ∀ w, Exec [.word w] (.exec [w]) := fun w =>
    .words .nil (.cons .nil .nil) (by simp)
  have hleft : Exec [.word (letter 'a'), .sym .lt, .word (letter 'b')]
      (.redir (.exec [letter 'a']) (letter 'b') O_RDONLY 0) :=
    .words .nil (.cons (.cons rfl .nil) .nil) (by decide)
  have hlist : Line [.word (letter 'c'), .sym .semi, .word (letter 'd')]
      (.list (.exec [letter 'c']) (.exec [letter 'd'])) :=
    .list 0 (.one (hword _)) (.one 0 (.one (hword _)))
  rw [tokens_sample]
  exact .one 1 (.pipe hleft (.one (.block hlist .nil)))

theorem parsecmd_accepts_grammar_sample : ∃ cmd buf, parsecmd 44 sample = .ok (cmd, buf) ∧
    cmd.read 10 buf = sampleCmd := by
  obtain ⟨-, hiff, hread⟩ := parsecmd_accepts_grammar sample 44 (by decide)
  obtain ⟨cmd, buf, hp⟩ := hiff.mpr ⟨_, line_sample⟩
  exact ⟨cmd, buf, hp, hread cmd buf _ hp line_sample⟩

end Xv6.Shell

import Mathlib.Data.List.TakeWhile
import Xv6.Xargs.Run

namespace Xv6.Xargs

open Lib.Command
open Grep (Str newline Holds holds_append terminated unterminated)

section Bounds

variable {env : Env} {s s' : State} {i : Nat}

theorem loadBuf_meets : Meets (loadBuf i) s (fun c s' => i < bufSize ∧ c = s.buf i ∧ s = s')
    (fun _ => True) := by
  refine Meets.bind (Meets.get ?_)
  split
  next h => exact Meets.pure ⟨h, rfl, rfl⟩
  · exact Meets.throw trivial

theorem storeBuf_meets (c : UInt8) : Meets (storeBuf i c) s
    (fun _ s' => i < bufSize ∧ s' = { s with buf := Function.update s.buf i c }) (fun _ => True) := by
  unfold storeBuf
  split
  next h => exact Meets.modify ⟨h, rfl⟩
  · exact Meets.throw trivial

theorem storeArg_meets (q : Pointer) : Meets (storeArg i q) s
    (fun _ s' => i < argsSize ∧ s' = { s with argsbuf := Function.update s.argsbuf i q })
    (fun _ => True) := by
  unfold storeArg
  split
  next h => exact Meets.modify ⟨h, rfl⟩
  · exact Meets.throw trivial

theorem endField_meets : Meets endField s
    (fun _ s' => s.p < bufSize ∧ s.pa < argsSize ∧ s' = s.endField) (fun _ => True) := by
  refine Meets.bind (Meets.get ((storeBuf_meets 0).seq ?_))
  rintro _ _ ⟨hp, rfl⟩
  refine (storeArg_meets _).seq ?_
  rintro _ _ ⟨hpa, rfl⟩
  exact Meets.modify ⟨hp, hpa, rfl⟩

/-- The part of the state that `run` leaves alone. -/
def State.place (s : State) : (Nat → UInt8) × Nat × Nat × Nat := (s.buf, s.p, s.pa, s.reads)

theorem run_place (env : Env) : Keeps State.place (run env) := by
  refine Keeps.get_bind fun s => Keeps.set_bind (fun _ => rfl) ?_
  split
  · split
    · exact Keeps.set fun _ => rfl
    · exact Keeps.throw _
  · exact Keeps.pure ()

theorem endLine_meets : Meets (endLine env) s
    (fun _ s' => s.pa < argsSize ∧ s'.place = s.place) (fun _ => True) := by
  refine Meets.bind (Meets.get ((storeArg_meets _).seq ?_))
  rintro _ _ ⟨hpa, rfl⟩
  exact (run_place env _).post fun _ _ h => ⟨hpa, h⟩

/-- What a turn of the loop needs, and what it does to the positions. -/
theorem turn_meets : Meets (turn env) s
    (fun _ s' => s.p < bufSize ∧ s'.p = s.p + 1 ∧ s'.reads = s.reads ∧
      (∀ i, s.p < i → s'.buf i = s.buf i) ∧
      if s.buf s.p = newline then s.pa + 1 < argsSize ∧ s'.pa = env.args.length
      else if s.buf s.p = space then s.pa < argsSize ∧ s'.pa = s.pa + 1
      else s'.pa = s.pa) (fun _ => True) := by
  refine Meets.bind (Meets.get (loadBuf_meets.seq ?_))
  rintro _ _ ⟨hp, rfl, rfl⟩
  have hbuf : ∀ i, s.p < i → Function.update s.buf s.p 0 i = s.buf i := fun i hi =>
    Function.update_of_ne (by omega) ..
  by_cases hs : s.buf s.p = space
  · rw [if_pos (Or.inl hs), if_pos hs]
    refine endField_meets.seq ?_
    rintro _ _ ⟨-, hpa, rfl⟩
    refine Meets.modify ⟨hp, rfl, rfl, hbuf, ?_⟩
    rw [if_neg (by rw [hs]; exact space_ne_newline), if_pos hs]
    exact ⟨hpa, rfl⟩
  by_cases hn : s.buf s.p = newline
  · rw [if_pos (Or.inr hn), if_neg hs]
    refine endField_meets.seq ?_
    rintro _ _ ⟨-, -, rfl⟩
    refine endLine_meets.seq ?_
    rintro _ s₁ ⟨hpa, hplace⟩
    obtain ⟨hb, hp₁, -, hr⟩ : s₁.buf = _ ∧ s₁.p = s.p ∧ s₁.pa = _ ∧ s₁.reads = s.reads := by
      simpa [State.place, State.endField] using hplace
    refine Meets.bind (Meets.modify (Meets.modify ⟨hp, congrArg (· + 1) hp₁, hr, ?_, ?_⟩))
    · intro i hi
      dsimp only
      rw [hb]
      exact hbuf i hi
    · rw [if_pos hn]
      exact ⟨hpa, rfl⟩
  · rw [if_neg (not_or.mpr ⟨hs, hn⟩)]
    refine Meets.bind (Meets.pure (Meets.modify ⟨hp, rfl, rfl, fun _ _ => rfl, ?_⟩))
    rw [if_neg hn, if_neg hs]

theorem read_meets : Meets (read env) s
    (fun more s' => if more then ∃ c, s' = s.got c ∧
        (env.read s.reads = .byte c ∨ env.read s.reads = .error ∧ s.buf s.p = c)
      else env.read s.reads = .eof ∧ s' = { s with reads := s.reads + 1 }) (fun _ => True) := by
  refine Meets.bind (Meets.get (Meets.bind (Meets.modify ?_)))
  cases hr : env.read s.reads with
  | byte c =>
    refine (storeBuf_meets c).seq ?_
    rintro _ _ ⟨-, rfl⟩
    exact Meets.pure ⟨c, rfl, .inl rfl⟩
  | eof => exact Meets.pure ⟨rfl, rfl⟩
  | error =>
    refine Meets.pure ⟨s.buf s.p, ?_, .inr ⟨rfl, rfl⟩⟩
    rw [State.got, Function.update_eq_self]

theorem loop_bounds {line : Str} {buf : Nat → UInt8} (fuel : Nat) (hline : newline ∉ line)
    (hsync : Sync buf s) (hp : s.p ≤ bufSize) (hpa : s.pa = env.args.length + line.count space) :
    Meets (loop env fuel) s
      (fun _ s' => ∃ rest, Seen env.read buf s.reads rest ∧ s.p + rest.length ≤ bufSize ∧
        (∀ l ∈ terminated (line ++ rest), env.args.length + l.count space + 1 < argsSize) ∧
        s'.pa = env.args.length + (unterminated (line ++ rest)).count space) (fun _ => True) := by
  induction fuel generalizing s line with
  | zero => exact Meets.throw trivial
  | succ fuel ih =>
    refine read_meets.seq ?_
    rintro ⟨⟩ s₁ hr
    · obtain ⟨heof, rfl⟩ := hr
      refine Meets.pure ⟨[], heof, hp, ?_, ?_⟩
      · rw [List.append_nil, Grep.terminated_of_notMem hline]
        exact fun l hl => absurd hl List.not_mem_nil
      · rw [List.append_nil, Grep.unterminated_of_notMem hline]
        exact hpa
    obtain ⟨c, rfl, hc⟩ := hr
    have hrp : (s.got c).buf (s.got c).p = c := Function.update_self ..
    have hseen : env.read s.reads = .byte c ∨ env.read s.reads = .error ∧ buf s.reads = c := by
      rwa [hsync.fresh s.p le_rfl, hsync.reads] at hc
    refine turn_meets.seq ?_
    rintro _ s₂ ⟨hp₁, hp₂, hr₂, hbuf, hcase⟩
    rw [hrp] at hcase
    have hp₁ : s.p < bufSize := hp₁
    have hp₂ : s₂.p = s.p + 1 := hp₂
    have hr₂ : s₂.reads = s.reads + 1 := hr₂
    have hsync₂ : Sync buf s₂ := hsync.next hp₂ hr₂ fun i hi =>
      (hbuf i hi).trans (Function.update_of_ne (by omega) ..)
    have happ : ∀ rest, line ++ c :: rest = line ++ [c] ++ rest := by simp
    split at hcase
    next hn =>
      subst hn
      obtain ⟨hlt, hpa₂⟩ := hcase
      have hlt : s.pa + 1 < argsSize := hlt
      have hnil : newline ∉ ([] : Str) := List.not_mem_nil
      refine (ih hnil hsync₂ (by omega) hpa₂).post ?_
      rintro _ s' ⟨rest, hrest, hlen, hwhole, hlast⟩
      rw [List.nil_append] at hwhole hlast
      rw [hr₂] at hrest
      refine ⟨newline :: rest, ⟨hseen, hrest⟩, by rw [List.length_cons]; omega, ?_, ?_⟩
      · rw [Grep.terminated_append hline]
        intro l hl
        obtain rfl | hl := List.mem_cons.mp hl
        · omega
        · exact hwhole l hl
      · rw [Grep.unterminated_append hline]
        exact hlast
    next hn =>
      have hline₂ : newline ∉ line ++ [c] := by simp [hline, Ne.symm hn]
      have hpa₂ : s₂.pa = env.args.length + (line ++ [c]).count space := by
        rw [List.count_append]
        split at hcase
        next hs =>
          have hpa₂ : s₂.pa = s.pa + 1 := hcase.2
          rw [hs, List.count_singleton_self]
          omega
        next hs =>
          have hpa₂ : s₂.pa = s.pa := hcase
          rw [List.count_singleton, if_neg (by simpa using hs)]
          omega
      refine (ih hline₂ hsync₂ (by omega) hpa₂).post ?_
      rintro _ s' ⟨rest, hrest, hlen, hslots⟩
      rw [hr₂] at hrest
      refine ⟨c :: rest, ⟨hseen, hrest⟩, by rw [List.length_cons]; omega, ?_⟩
      rwa [happ]

theorem main_bounds (env : Env) (fuel : Nat) (buf : Nat → UInt8) (argsbuf : Nat → Pointer) :
    Meets (main env fuel) (start buf argsbuf)
      (fun _ _ => ∃ input, Seen env.read buf 0 input ∧ input.length ≤ bufSize ∧ Slots env input)
      (fun _ => True) := by
  have hfew := env.few
  have hcopy := copyArgs_meets (s := start buf argsbuf) (n := env.args.length)
    (by change _ ≤ 128; omega)
  refine (hcopy.mono (fun _ _ => id) fun _ => False.elim).seq ?_
  rintro _ _ ⟨a, rfl, -⟩
  refine Meets.bind (Meets.modify ?_)
  have hnil : newline ∉ ([] : Str) := List.not_mem_nil
  refine (loop_bounds fuel hnil ⟨rfl, fun _ _ => rfl⟩ (Nat.zero_le _) rfl).seq ?_
  rintro _ s₁ ⟨input, hseen, hlen, hwhole, hpa⟩
  rw [List.nil_append] at hwhole hpa
  have hlen : 0 + input.length ≤ bufSize := hlen
  rw [Nat.zero_add] at hlen
  have hlast : Meets (lastLine env) s₁ (fun _ _ => s₁.pa < argsSize) (fun _ => True) := by
    refine Meets.bind (Meets.get ?_)
    split
    · exact endLine_meets.post fun _ _ h => h.1
    next h =>
      refine Meets.pure ?_
      change _ < 128
      omega
  refine hlast.seq fun _ _ hlt => ?_
  exact (Meets.any _ _).post fun _ _ _ => ⟨input, hseen, hlen, hwhole, hpa ▸ hlt⟩

end Bounds

section Lines

variable {env : Env} {input : Str}

/-- The calls of `read` from the `k`th on give these bytes, and then 0. -/
def Serves (read : Nat → Got) : Nat → Str → Prop
  | k, [] => read k = .eof
  | k, c :: rest => read k = .byte c ∧ Serves read (k + 1) rest

theorem Serves.seen {read : Nat → Got} {k : Nat} (h : Serves read k input) (buf : Nat → UInt8) :
    Seen read buf k input := by
  induction input generalizing k with
  | nil => exact h
  | cons c input ih => exact ⟨.inl h.1, ih h.2⟩

theorem Serves.unique {read : Nat → Got} {buf : Nat → UInt8} {k : Nat} {input' : Str}
    (h : Serves read k input) (h' : Seen read buf k input') : input' = input := by
  induction input generalizing k input' with
  | nil =>
    cases input' with
    | nil => rfl
    | cons c input' => rcases h'.1 with hc | ⟨hc, -⟩ <;> cases h.symm.trans hc
  | cons c input ih =>
    cases input' with
    | nil => cases h.1.symm.trans h'
    | cons c' input' =>
      obtain ⟨hc | ⟨hc, -⟩, hrest⟩ := h'
      · rw [ih h.2 hrest, Got.byte.inj (h.1.symm.trans hc)]
      · cases h.1.symm.trans hc

def lines (input : Str) : List Str :=
  terminated input ++ if unterminated input = [] then [] else [unterminated input]

theorem mem_of_mem_splitOn {a c : UInt8} {l f : Str} (hf : f ∈ l.splitOn a) (hc : c ∈ f) :
    c ∈ l := by
  induction l generalizing f with
  | nil =>
    obtain rfl : f = [] := by simpa using hf
    exact hc
  | cons d l ih =>
    rw [List.splitOn_cons_eq_if_modifyHead] at hf
    split at hf
    · rcases List.mem_cons.mp hf with rfl | hf
      · exact absurd hc List.not_mem_nil
      · exact List.mem_cons_of_mem d (ih hf hc)
    · cases hl : l.splitOn a with
      | nil => exact absurd hl (List.splitOn_ne_nil a l)
      | cons g gs =>
        rw [hl, List.modifyHead_cons] at hf
        rcases List.mem_cons.mp hf with rfl | hf
        · rcases List.mem_cons.mp hc with rfl | hc
          · exact List.mem_cons_self
          · exact List.mem_cons_of_mem d (ih (hl ▸ List.mem_cons_self) hc)
        · exact List.mem_cons_of_mem d (ih (hl ▸ List.mem_cons_of_mem g hf) hc)

theorem cut_eq_self_iff {f : Str} : cut f = f ↔ 0 ∉ f := by
  rw [cut, List.takeWhile_eq_self_iff]
  constructor
  · intro h hmem
    simpa using h 0 hmem
  · intro h c hc
    have hne : c ≠ 0 := fun e => h (e ▸ hc)
    simpa using hne

theorem vectorOf_of_notMem {line : Str} (h : 0 ∉ line) :
    vectorOf env line = env.args ++ line.splitOn space := by
  rw [vectorOf, List.map_congr_left, List.map_id]
  intro f hf
  exact cut_eq_self_iff.mpr fun hc => h (mem_of_mem_splitOn hf hc)

theorem exists_mem_splitOn {a c : UInt8} {l : Str} (hc : c ∈ l) (hne : c ≠ a) :
    ∃ f ∈ l.splitOn a, c ∈ f := by
  induction l with
  | nil => exact absurd hc List.not_mem_nil
  | cons d l ih =>
    rw [List.splitOn_cons_eq_if_modifyHead]
    split
    next hd =>
      obtain rfl | hc := List.mem_cons.mp hc
      · exact absurd (by simpa using hd) hne
      · obtain ⟨f, hf, hcf⟩ := ih hc
        exact ⟨f, List.mem_cons_of_mem _ hf, hcf⟩
    next =>
      cases hl : l.splitOn a with
      | nil => exact absurd hl (List.splitOn_ne_nil a l)
      | cons g gs =>
        rw [List.modifyHead_cons]
        obtain rfl | hc := List.mem_cons.mp hc
        · exact ⟨c :: g, List.mem_cons_self, List.mem_cons_self⟩
        · obtain ⟨f, hf, hcf⟩ := ih hc
          rw [hl] at hf
          obtain rfl | hf := List.mem_cons.mp hf
          · exact ⟨d :: f, List.mem_cons_self, List.mem_cons_of_mem d hcf⟩
          · exact ⟨f, List.mem_cons_of_mem _ hf, hcf⟩

theorem splitOn_lines (input : Str) :
    input.splitOn newline = terminated input ++ [unterminated input] := by
  have hne := List.splitOn_ne_nil newline input
  rw [terminated, unterminated, List.getLastD_eq_getLast?, List.getLast?_eq_some_getLast hne,
    Option.getD_some, List.dropLast_concat_getLast]

theorem unterminated_eq_nil_iff :
    unterminated input = [] ↔ input = [] ∨ input.getLast? = some newline := by
  constructor
  · intro h
    obtain rfl | ⟨w, c, rfl⟩ := List.eq_nil_or_concat input
    · exact .inl rfl
    · rw [List.concat_eq_append] at h ⊢
      refine .inr ?_
      rw [List.getLast?_concat]
      by_contra hc
      rw [Option.some.injEq] at hc
      have hsplit := splitOn_append_other (splitOn_lines w) hc
      rw [unterminated, hsplit, List.getLastD_concat] at h
      simp at h
  · rintro (rfl | h)
    · rfl
    · obtain ⟨w, rfl⟩ := List.getLast?_eq_some_iff.mp h
      rw [unterminated, List.splitOn_append_cons_self, List.splitOn_nil, List.getLastD_concat]

theorem fork_of_length {vs : List (List Str)} {k : Nat}
    (h : vs.length ≤ (spawned env k vs).length) : ∀ j < vs.length, env.fork (k + j) = true := by
  induction vs generalizing k with
  | nil => exact fun j hj => absurd hj (Nat.not_lt_zero j)
  | cons xs vs ih =>
    have hle := length_spawned_le env (k + 1) vs
    rw [spawned, List.length_append, List.length_cons] at h
    have hk : env.fork k = true := by
      by_contra hk
      rw [if_neg hk, List.length_nil] at h
      omega
    rw [if_pos hk, List.length_singleton] at h
    intro j hj
    cases j with
    | zero => exact hk
    | succ j =>
      rw [List.length_cons] at hj
      rw [← Nat.add_assoc, Nat.add_right_comm]
      exact ih (by omega) j (by omega)

/-- What `main` has run is what the lines say exactly if nothing is left over and nothing is cut. -/
theorem commands_eq_iff :
    spawned env 0 ((terminated input).map (vectorOf env) ++ leftover env (unterminated input)) =
        (lines input).map (fun l => (env.args.head?, env.args ++ l.splitOn space)) ↔
      (input = [] ∨ input.getLast? = some newline) ∧ 0 ∉ input ∧
        ∀ k < (lines input).length, env.fork k = true := by
  constructor
  · intro h
    have hlen := congrArg List.length h
    rw [List.length_map] at hlen
    have hlines : (lines input).length =
        (terminated input).length + if unterminated input = [] then 0 else 1 := by
      rw [lines, List.length_append]
      split <;> rfl
    have hle : ((terminated input).map (vectorOf env) ++
        leftover env (unterminated input)).length ≤ (lines input).length := by
      rw [List.length_append, List.length_map, hlines, leftover]
      split
      · exact Nat.le_add_right ..
      next hne =>
        rw [if_neg]
        · rfl
        intro hnil
        rw [hnil] at hne
        exact hne rfl
    have hfork := fork_of_length (hle.trans_eq hlen.symm)
    rw [spawned_of_fork hfork] at h
    have hsame := List.map_injective_iff.mpr (Prod.mk_right_injective env.args.head?)
      (h.trans (List.map_map (g := fun xs => (env.args.head?, xs))
        (f := fun l : Str => env.args ++ l.splitOn space)).symm)
    have hunt : unterminated input = [] := by
      by_contra hne
      rw [lines, if_neg hne, List.map_append] at hsame
      have hlast := (List.append_inj hsame (by rw [List.length_map, List.length_map])).2
      rw [leftover] at hlast
      split at hlast
      · cases hlast
      · have hfields := congrArg List.length (List.append_cancel_left (List.singleton_inj.mp hlast))
        have hpos := List.length_pos_of_ne_nil (List.splitOn_ne_nil space (unterminated input))
        rw [List.length_map, List.length_dropLast] at hfields
        omega
    have hnone : leftover env [] = [] := rfl
    have hall : lines input = terminated input := by
      rw [lines, hunt, if_pos rfl, List.append_nil]
    rw [hunt, hnone, List.append_nil] at hsame hfork
    rw [hall] at hsame ⊢
    refine ⟨unterminated_eq_nil_iff.mp hunt, fun hnul => ?_, fun k hk => ?_⟩
    · obtain ⟨l, hl, hmem⟩ := exists_mem_splitOn hnul (show (0 : UInt8) ≠ newline by decide)
      rw [splitOn_lines, hunt] at hl
      obtain hl | hl := List.mem_append.mp hl
      · obtain ⟨f, hf, hcf⟩ := exists_mem_splitOn hmem (show (0 : UInt8) ≠ space by decide)
        have hline := List.append_cancel_left (List.map_inj_left.mp hsame l hl)
        have hcut := List.map_inj_left.mp (hline.trans (List.map_id _).symm) f hf
        exact cut_eq_self_iff.mp hcut hcf
      · rw [List.mem_singleton.mp hl] at hmem
        exact absurd hmem List.not_mem_nil
    · have hk := hfork k (by rwa [List.length_map])
      rwa [Nat.zero_add] at hk
  · rintro ⟨hend, hnul, hfork⟩
    have hunt := unterminated_eq_nil_iff.mpr hend
    have hlines : lines input = terminated input := by
      rw [lines, hunt, if_pos rfl, List.append_nil]
    have hleft : leftover env (unterminated input) = [] := by
      rw [hunt]
      rfl
    rw [hlines] at hfork ⊢
    rw [hleft, List.append_nil, spawned_of_fork, List.map_map]
    · apply List.map_congr_left
      intro l hl
      have hmem : l ∈ input.splitOn newline := splitOn_lines input ▸ List.mem_append_left _ hl
      rw [Function.comp_apply, vectorOf_of_notMem fun hc => hnul (mem_of_mem_splitOn hmem hc)]
    · intro j hj
      rw [List.length_map] at hj
      rw [Nat.zero_add]
      exact hfork j hj

/-- For an input of at most 2047 bytes, each line is run with all its fields, and every child has
been waited for, exactly if the lines all end with a newline, fit and hold no zero byte, and every
`fork` is successful. -/
theorem xargs_runs_lines (env : Env) (input : Str) (hread : Serves env.read 0 input)
    (hlen : input.length ≤ 2047) (buf : Nat → UInt8) (argsbuf : Nat → Pointer) :
    (∃ n, ∀ fuel ≥ n, ∃ s', main env fuel (start buf argsbuf) = .ok ((), s') ∧
      s'.commands = (lines input).map (fun l => (env.args.head?, env.args ++ l.splitOn space)) ∧
      s'.children = 0) ↔
    (input = [] ∨ input.getLast? = some newline) ∧ 0 ∉ input ∧
      (∀ l ∈ lines input, env.args.length + (l.splitOn space).length < argsSize) ∧
      ∀ k < (lines input).length, env.fork k = true := by
  have hrun : ∀ fuel, input.length + 1 < fuel → Slots env input → _ := fun fuel hfuel hslots =>
    main_meets (hread.seen buf) (by change _ ≤ 2048; omega) hslots hfuel argsbuf
  constructor
  · rintro ⟨n, h⟩
    obtain ⟨s', hmain, hcommands, -⟩ := h (max n (input.length + 2)) (le_max_left ..)
    obtain ⟨input', hseen, -, hslots⟩ := (main_bounds env _ buf argsbuf).of_ok hmain
    rw [hread.unique hseen] at hslots
    have hdone := (hrun _ (lt_of_lt_of_le (Nat.lt_succ_self _) (le_max_right ..)) hslots).of_ok hmain
    obtain ⟨hend, hnul, hfork⟩ := commands_eq_iff.mp (hdone.2.symm.trans hcommands)
    refine ⟨hend, hnul, fun l hl => ?_, hfork⟩
    rw [lines, unterminated_eq_nil_iff.mpr hend, if_pos rfl, List.append_nil] at hl
    rw [length_splitOn]
    exact hslots.whole l hl
  · rintro ⟨hend, hnul, hslots, hfork⟩
    have hunt := unterminated_eq_nil_iff.mpr hend
    have hslots' : Slots env input := by
      have hfew := env.few
      constructor
      · intro l hl
        have hlt := hslots l (List.mem_append_left _ hl)
        rwa [length_splitOn] at hlt
      · rw [hunt]
        change env.args.length + 0 < 128
        omega
    refine ⟨input.length + 2, fun fuel hfuel => ?_⟩
    obtain ⟨_, s', hmain, hchildren, hcommands⟩ :=
      (hrun fuel (by omega) hslots').ok fun _ => id
    exact ⟨s', hmain, hcommands.trans (commands_eq_iff.mpr ⟨hend, hnul, hfork⟩), hchildren⟩

end Lines


/-- `xargs c` with the given input, when every `fork` succeeds. -/
def sample (input : Str) : Env where
  args := [['c'.toUInt8]]
  read k :=
    match input[k]? with
    | some c => .byte c
    | none => .eof
  fork _ := true
  few := by decide

theorem serves_sample {input done rest : Str} (h : input = done ++ rest) :
    Serves (sample input).read done.length rest := by
  induction rest generalizing done with
  | nil =>
    have hk : input[done.length]? = none := by simp [h]
    change (match input[done.length]? with | some c => Got.byte c | none => .eof) = _
    rw [hk]
  | cons c rest ih =>
    constructor
    · have hk : input[done.length]? = some c := by simp [h]
      change (match input[done.length]? with | some c => Got.byte c | none => .eof) = _
      rw [hk]
    · have hnext := ih (show input = done ++ [c] ++ rest by simpa using h)
      rwa [List.length_append] at hnext

/-- `a b`, without a newline. -/
def openLine : Str := ['a'.toUInt8, space, 'b'.toUInt8]

theorem xargs_runs_lines_two :
    ∃ n, ∀ fuel ≥ n, ∃ s', main (sample (openLine ++ [newline])) fuel
        (start (fun _ => 0) fun _ => .null) = .ok ((), s') ∧
      s'.commands = [(some ['c'.toUInt8], [['c'.toUInt8], ['a'.toUInt8], ['b'.toUInt8]])] ∧
      s'.children = 0 :=
  (xargs_runs_lines (sample (openLine ++ [newline])) (openLine ++ [newline])
    (serves_sample (List.nil_append _).symm) (by decide) _ _).mpr
    ⟨Or.inr rfl, by decide, by decide, fun _ _ => rfl⟩

/-- What the children have passed to `exec`, if `main` ends. -/
def outcome (env : Env) (fuel : Nat) : Except Fault (List (Option Str × List Str)) :=
  (main env fuel (start (fun _ => 0) fun _ => .null)).map fun r => r.2.commands

/-- Without the newline, the last field of the last line is left out. -/
theorem xargs_drops_last_field :
    outcome (sample openLine) 10 = .ok [(some ['c'.toUInt8], [['c'.toUInt8], ['a'.toUInt8]])] ∧
      (lines openLine).map (fun l => ((sample openLine).args.head?,
        (sample openLine).args ++ l.splitOn space)) =
      [(some ['c'.toUInt8], [['c'.toUInt8], ['a'.toUInt8], ['b'.toUInt8]])] := by
  decide +kernel

/-- `xargs c` when every `read` fails. -/
def unreadable : Env := { sample [] with read := fun _ => .error }

theorem loop_unreadable (fuel : Nat) (s : State) :
    Meets (loop unreadable fuel) s (fun _ _ => False) fun _ => True := by
  induction fuel generalizing s with
  | zero => exact Meets.throw trivial
  | succ fuel ih =>
    apply Meets.bind
    apply Meets.of_eq (read_error rfl)
    apply (Meets.any _ _).seq
    exact fun _ s' _ => ih s'

theorem read_past {env : Env} {s : State} {c : UInt8} (h : env.read s.reads = .byte c)
    (hp : bufSize ≤ s.p) : read env s = .error (.buf s.p) := by
  rw [read, get_bind, modify_bind, h]
  apply bind_of_error
  rw [storeBuf, if_neg (Nat.not_lt.mpr hp)]
  rfl

theorem loop_past {env : Env} {s : State} {c : UInt8} (hs : c ≠ space) (hn : c ≠ newline)
    {m fuel : Nat} (hread : ∀ i ≤ m, env.read (s.reads + i) = .byte c)
    (hp : s.p + m = bufSize) (hfuel : m < fuel) : loop env fuel s = .error (.buf bufSize) := by
  induction m generalizing s fuel with
  | zero =>
    obtain ⟨fuel, rfl⟩ := Nat.exists_eq_add_of_lt hfuel
    have hpast := read_past (hread 0 le_rfl) (show bufSize ≤ s.p by omega)
    rw [show s.p = bufSize from hp] at hpast
    exact bind_of_error hpast
  | succ m ih =>
    obtain ⟨fuel, rfl⟩ : ∃ k, fuel = k + 1 := ⟨fuel - 1, by omega⟩
    have hbyte := read_byte (hread 0 (by omega)) (show s.p < bufSize by omega)
    have hrp : (s.got c).buf (s.got c).p = c := Function.update_self ..
    have hturn : turn env (s.got c) = .ok ((), { s.got c with p := s.p + 1 }) :=
      turn_other (show s.p < bufSize by omega) (by rwa [hrp]) (by rwa [hrp])
    rw [loop, bind_of_ok hbyte, if_pos rfl, bind_of_ok hturn]
    apply ih
    · intro i hi
      rw [← hread (i + 1) (by omega)]
      change env.read (s.reads + 1 + i) = _
      congr 1
      omega
    · change s.p + 1 + m = bufSize
      omega
    · omega

theorem sample_long (fuel : Nat) (hfuel : 2048 < fuel) (s : State) :
    Meets (main (sample (List.replicate 2049 'a'.toUInt8)) fuel) (start s.buf s.argsbuf)
      (fun _ _ => False) (· = .buf 2048) := by
  apply ((copyArgs_meets (show 1 ≤ argsSize by decide)).mono (fun _ _ h => h) nofun).seq
  rintro _ _ ⟨a, rfl, -⟩
  apply Meets.bind
  apply Meets.modify
  apply Meets.bind
  unfold Meets
  rw [loop_past (c := 'a'.toUInt8) (m := 2048) (by decide) (by decide) ?_ (Nat.zero_add _) hfuel]
  · rfl
  · intro i hi
    have hi' : (List.replicate 2049 'a'.toUInt8)[0 + i]? = some 'a'.toUInt8 := by
      rw [List.getElem?_replicate, if_pos (by omega)]
    change (match (List.replicate 2049 'a'.toUInt8)[0 + i]? with
      | some c => Got.byte c
      | none => .eof) = _
    rw [hi']

theorem error_of_meets {c : XargsM Unit} {s : State} {E : Fault → Prop}
    (h : Meets c s (fun _ _ => False) E) : ∃ e, c s = .error e ∧ E e := by
  unfold Meets at h
  split at h
  · cases h
  next e hc => exact ⟨e, hc, h⟩

end Xv6.Xargs

import Xv6.Xargs.Fields

namespace Xv6.Xargs

open Lib.Command
open Grep (Str newline Holds holds_append terminated unterminated)

section Steps

variable {env : Env} {s s' s'' : State} {fields : List Str} {cur : Str} {c : UInt8}

structure Ready (env : Env) (s : State) (fields : List Str) (cur : Str) : Prop where
  last : s.last_p + cur.length = s.p
  pa : s.pa = env.args.length + fields.length
  current : Holds s.buf s.last_p cur
  initial : ∀ i < env.args.length, s.argsbuf i = .arg i
  stored : Stored s.buf s.argsbuf s.last_p env.args.length fields
  waits : s.children = s.commands.length

theorem Ready.read (h : Ready env s fields cur) (c : UInt8) :
    Ready env (s.got c) fields cur := by
  have hlast := h.last
  exact
    { h with
      current := h.current.update (Or.inr h.last.le)
      stored := h.stored.congr le_rfl (fun _ _ => Function.update_of_ne (by omega) ..)
        fun _ _ => rfl }

theorem Ready.other (h : Ready env s fields cur) :
    Ready env { s with p := s.p + 1 } fields (cur ++ [s.buf s.p]) where
  last := by
    have hlast := h.last
    simp only [List.length_append, List.length_singleton]
    omega
  pa := h.pa
  current := by
    rw [holds_append, h.last]
    exact ⟨h.current, rfl, trivial⟩
  initial := h.initial
  stored := h.stored
  waits := h.waits

theorem Ready.pass (h : Ready env s fields cur) :
    Ready env s.pass (fields ++ [cur]) [] := by
  have hlast := h.last
  have hpa := h.pa
  have hlow : ∀ k < s.p, Function.update s.buf s.p 0 k = s.buf k := fun k hk =>
    Function.update_of_ne (by omega) ..
  refine ⟨rfl, ?_, trivial, fun i hi => ?_, ?_, h.waits⟩
  · change s.pa + 1 = _
    rw [hpa, List.length_append, List.length_singleton, Nat.add_assoc]
  · change Function.update s.argsbuf s.pa _ i = _
    rw [Function.update_of_ne (by omega)]
    exact h.initial i hi
  · rw [stored_append]
    constructor
    · apply h.stored.congr (by change s.last_p ≤ s.p + 1; omega)
      · exact fun k hk => hlow k (by omega)
      · exact fun j hj => Function.update_of_ne (by omega) ..
    · refine ⟨⟨s.last_p, ?_, ?_, ?_⟩, trivial⟩
      · change Function.update s.argsbuf s.pa _ _ = _
        rw [← hpa, Function.update_self]
      · rw [holds_append]
        refine ⟨h.current.update (Or.inr h.last.le), ?_, trivial⟩
        change Function.update s.buf s.p 0 _ = _
        rw [h.last, Function.update_self]
      · change _ < s.p + 1
        omega

theorem Ready.vector (h : Ready env s fields cur) (hpa : s.pa < argsSize)
    (hlast : s.last_p ≤ bufSize) :
    vector env.args s.terminate = some (env.args ++ fields.map cut) := by
  have hslot := h.pa
  have hlow : ∀ i < s.pa, s.terminate.argsbuf i = s.argsbuf i := fun i hi =>
    Function.update_of_ne (by omega) ..
  have hnull : s.terminate.argsbuf (env.args.length + fields.length) = .null := by
    rw [← h.pa]
    exact Function.update_self ..
  have hstored : Stored s.terminate.buf s.terminate.argsbuf s.last_p env.args.length fields :=
    h.stored.congr le_rfl (fun _ _ => rfl) fun j hj => hlow j (by omega)
  have hfields : vectorFrom env.args s.terminate.buf s.terminate.argsbuf
      (argsSize - env.args.length) env.args.length = some (fields.map cut) :=
    vectorFrom_stored hstored hlast hnull (by omega)
  have hargs := vectorFrom_args (k := env.args.length)
    (fun i hi => (hlow i (by omega)).trans (h.initial i hi)) hfields le_rfl
  rw [Nat.sub_add_cancel (by omega), Nat.sub_self, List.drop_zero] at hargs
  exact hargs

def spawned (env : Env) : Nat → List (List Str) → List (Option Str × List Str)
  | _, [] => []
  | k, xs :: vs => (if env.fork k then [(env.args.head?, xs)] else []) ++ spawned env (k + 1) vs

structure Ran (env : Env) (s : State) (vs : List (List Str)) (s' : State) : Prop where
  forks : s'.forks = s.forks + vs.length
  commands : s'.commands = s.commands ++ spawned env s.forks vs

theorem Ran.nil (hforks : s'.forks = s.forks) (hcommands : s'.commands = s.commands) :
    Ran env s [] s' :=
  ⟨hforks, hcommands.trans (List.append_nil _).symm⟩

theorem spawn_commands (s : State) (env : Env) (xs : List Str) :
    (s.spawn env xs).commands = s.commands ++ spawned env s.forks [xs] := by
  rw [spawned, spawned, List.append_nil]
  change (if env.fork s.forks then _ else _) = _
  split <;> simp

theorem Ran.spawn {xs : List Str} (hforks : s.forks + 1 = s'.forks)
    (hcommands : s'.commands = s.commands ++ spawned env s.forks [xs]) {vs : List (List Str)}
    (h : Ran env s' vs s'') : Ran env s (xs :: vs) s'' where
  forks := by
    rw [h.forks, ← hforks, List.length_cons]
    omega
  commands := by
    rw [h.commands, hcommands, ← hforks, List.append_assoc]
    simp only [spawned, List.append_nil]

theorem spawn_waits {xs : List Str} (h : s.children = s.commands.length) :
    (s.spawn env xs).children = (s.spawn env xs).commands.length := by
  change (if env.fork s.forks then _ else _) = (if env.fork s.forks then _ else _ : List _).length
  split
  · rw [List.length_append, List.length_singleton, h]
  · exact h

theorem Ready.spawn (h : Ready env s fields []) (hp : s.last_p = s.p) (xs : List Str) :
    Ready env { s.terminate.spawn env xs with pa := env.args.length } [] [] := by
  have hpa := h.pa
  refine ⟨hp, rfl, trivial, fun i hi => ?_, trivial, spawn_waits h.waits⟩
  change Function.update s.argsbuf s.pa _ i = _
  rw [Function.update_of_ne (by omega)]
  exact h.initial i hi

/-- The bytes that the program sees from its `k`th call of `read` on, until one returns 0. When `read`
fails, that is what `buf` held before. -/
def Seen (read : Nat → Got) (buf : Nat → UInt8) : Nat → Str → Prop
  | k, [] => read k = .eof
  | k, c :: rest => (read k = .byte c ∨ read k = .error ∧ buf k = c) ∧ Seen read buf (k + 1) rest

structure Sync (buf : Nat → UInt8) (s : State) : Prop where
  reads : s.p = s.reads
  fresh : ∀ i, s.p ≤ i → s.buf i = buf i

theorem Sync.next {buf : Nat → UInt8} (h : Sync buf s) (hp : s'.p = s.p + 1)
    (hr : s'.reads = s.reads + 1) (hbuf : ∀ i, s.p < i → s'.buf i = s.buf i) : Sync buf s' := by
  have hreads := h.reads
  refine ⟨by omega, fun i hi => ?_⟩
  rw [hbuf i (by omega)]
  exact h.fresh i (by omega)

theorem Sync.seen {buf : Nat → UInt8} (h : Sync buf s)
    (hc : env.read s.reads = .byte c ∨ env.read s.reads = .error ∧ buf s.reads = c) :
    env.read s.reads = .byte c ∨ env.read s.reads = .error ∧ s.buf s.p = c := by
  rwa [h.fresh s.p le_rfl, h.reads]

/-- The lines that `argsbuf` has room for. The last one is not put there as a whole. -/
structure Slots (env : Env) (text : Str) : Prop where
  whole : ∀ l ∈ terminated text, env.args.length + l.count space + 1 < argsSize
  last : env.args.length + (unterminated text).count space < argsSize

def vectorOf (env : Env) (line : Str) : List Str := env.args ++ (line.splitOn space).map cut

theorem length_fields {line : Str} (h : line.splitOn space = fields ++ [cur]) :
    fields.length = line.count space := by
  have hlen := length_splitOn space line
  rw [h, List.length_append, List.length_singleton] at hlen
  omega

theorem splitOn_empty : ([] : Str).splitOn space = [] ++ [[]] := rfl

theorem Slots.line {line rest : Str} (h : Slots env (line ++ rest)) (hline : newline ∉ line) :
    env.args.length + line.count space < argsSize := by
  obtain ⟨tail, hmem | hlast⟩ := exists_line rest hline
  · have hlt := h.whole _ hmem
    rw [List.count_append] at hlt
    omega
  · have hlt := h.last
    rw [← hlast, List.count_append] at hlt
    omega

theorem loop_meets {line rest : Str} {fuel : Nat} {buf : Nat → UInt8} (h : Ready env s fields cur)
    (hsplit : line.splitOn space = fields ++ [cur]) (hline : newline ∉ line) (hsync : Sync buf s)
    (hseen : Seen env.read buf s.reads rest) (hlen : s.p + rest.length ≤ bufSize)
    (hslots : Slots env (line ++ rest)) (hfuel : rest.length < fuel) :
    Meets (loop env fuel) s
      (fun _ s' => ∃ fields' cur', Ready env s' fields' cur' ∧ s'.p ≤ bufSize ∧
        (unterminated (line ++ rest)).splitOn space = fields' ++ [cur'] ∧
        Ran env s ((terminated (line ++ rest)).map (vectorOf env)) s')
      fun _ => False := by
  induction rest generalizing line fields cur s fuel with
  | nil =>
    obtain ⟨fuel, rfl⟩ := Nat.exists_eq_add_of_lt hfuel
    apply Meets.bind
    apply Meets.of_eq (read_eof hseen)
    apply Meets.pure
    rw [List.append_nil, Grep.unterminated_of_notMem hline, Grep.terminated_of_notMem hline]
    refine ⟨fields, cur, { h with }, by omega, hsplit, Ran.nil rfl rfl⟩
  | cons c rest ih =>
    obtain ⟨hbyte, hrest⟩ := hseen
    rw [List.length_cons] at hlen hfuel
    obtain ⟨fuel, rfl⟩ : ∃ m, fuel = m + 1 := ⟨fuel - 1, by omega⟩
    have hp : s.p < bufSize := by omega
    apply Meets.bind
    apply Meets.of_eq (read_seen (hsync.seen hbyte) hp)
    have hr := h.read c
    have hrp : (s.got c).buf (s.got c).p = c := Function.update_self ..
    have hpa := h.pa
    have hcount := length_fields hsplit
    have happ : line ++ c :: rest = line ++ [c] ++ rest := by simp
    apply Meets.bind
    by_cases hnew : c = newline
    · subst hnew
      have hroom := hslots.whole line (by
        rw [Grep.terminated_append hline]
        exact List.mem_cons_self)
      have hvec := hr.pass.vector (by change s.pa + 1 < argsSize; omega) (by
        change s.p + 1 ≤ bufSize
        omega)
      rw [← hsplit] at hvec
      apply Meets.of_eq (turn_newline (s := s.got newline) hp (by change s.pa + 1 < argsSize; omega) hrp hvec)
      have hready := hr.pass.spawn rfl (vectorOf env line)
      have hnext : Sync buf { (s.got newline).pass.terminate.spawn env (vectorOf env line) with
          pa := env.args.length } := hsync.next rfl rfl fun i hi => by
        change Function.update (Function.update s.buf s.p newline) s.p 0 i = _
        rw [Function.update_of_ne (by omega), Function.update_of_ne (by omega)]
      refine (ih hready splitOn_empty List.not_mem_nil hnext hrest ?_ ?_ (by omega)).post ?_
      · change s.p + 1 + _ ≤ _
        omega
      · refine ⟨fun l hl => hslots.whole l ?_, ?_⟩
        · rw [Grep.terminated_append hline]
          exact List.mem_cons_of_mem _ hl
        · have hlast := hslots.last
          rwa [Grep.unterminated_append hline] at hlast
      · rintro _ s' ⟨fields', cur', hready', hp', hsplit', hran⟩
        rw [Grep.unterminated_append hline, Grep.terminated_append hline, List.map_cons]
        refine ⟨fields', cur', hready', hp', hsplit', hran.spawn rfl ?_⟩
        exact spawn_commands ..
    · rw [happ] at hslots ⊢
      have hline' : newline ∉ line ++ [c] := by simp [hline, Ne.symm hnew]
      have hroom := hslots.line hline'
      rw [List.count_append] at hroom
      by_cases hspace : c = space
      · subst hspace
        apply Meets.of_eq (turn_space (s := s.got space) hp (by change s.pa < argsSize; omega) hrp)
        have hnext : Sync buf (s.got space).pass := hsync.next rfl rfl fun i hi => by
          change Function.update (Function.update s.buf s.p space) s.p 0 i = _
          rw [Function.update_of_ne (by omega), Function.update_of_ne (by omega)]
        refine (ih hr.pass ?_ hline' hnext hrest ?_ hslots (by omega)).post ?_
        · rw [List.splitOn_append_cons_self, hsplit]
          rfl
        · change s.p + 1 + _ ≤ _
          omega
        · rintro _ s' ⟨fields', cur', hready', hp', hsplit', hran⟩
          exact ⟨fields', cur', hready', hp', hsplit', hran.forks, hran.commands⟩
      · apply Meets.of_eq (turn_other (s := s.got c) hp (by rwa [hrp]) (by rwa [hrp]))
        have hother := hr.other
        rw [hrp] at hother
        have hnext : Sync buf { s.got c with p := s.p + 1 } := hsync.next rfl rfl fun i hi =>
          Function.update_of_ne (by omega) ..
        refine (ih hother (splitOn_append_other hsplit hspace) hline' hnext hrest ?_ hslots
          (by omega)).post ?_
        · change s.p + 1 + _ ≤ _
          omega
        · rintro _ s' ⟨fields', cur', hready', hp', hsplit', hran⟩
          exact ⟨fields', cur', hready', hp', hsplit', hran.forks, hran.commands⟩

end Steps

section Main

variable {env : Env} {s s' s'' : State} {fields : List Str} {cur input : Str}
  {vs ws : List (List Str)} {k : Nat}

theorem copyArgs_meets {n : Nat} (hn : n ≤ argsSize) :
    Meets ((List.range n).forM fun i => storeArg i (.arg i)) s
      (fun _ s' => ∃ a, s' = { s with argsbuf := a } ∧ ∀ i < n, a i = .arg i) fun _ => False := by
  have hloop : Meets ((List.range n).forM fun i => storeArg i (.arg i)) s
      (fun _ s' => ∃ a, s' = { s with argsbuf := a } ∧ ∀ i < (List.range n).length, a i = .arg i)
      fun _ => False := by
    apply Meets.forM fun (done : List Nat) (s' : State) => ∃ a, s' = { s with argsbuf := a } ∧
      ∀ i < done.length, a i = .arg i
    · exact ⟨s.argsbuf, rfl, nofun⟩
    · rintro done x rest _ hx ⟨a, rfl, ha⟩
      have hlen := congrArg List.length hx
      rw [List.length_range, List.length_append, List.length_cons] at hlen
      have hxe := congrArg (·[done.length]?) hx
      simp only [List.getElem?_range (show done.length < n by omega),
        List.getElem?_append_right le_rfl, Nat.sub_self, List.getElem?_cons_zero] at hxe
      obtain rfl := Option.some.inj hxe
      apply Meets.of_eq (storeArg_eq (by omega) _)
      refine ⟨Function.update a done.length (.arg done.length), rfl, fun i hi => ?_⟩
      rw [List.length_append, List.length_singleton] at hi
      by_cases hid : i = done.length
      · rw [hid, Function.update_self]
      · rw [Function.update_of_ne hid]
        exact ha i (by omega)
  simpa only [List.length_range] using hloop

theorem waitAll_meets {fuel : Nat} (h : s.children < fuel) :
    Meets (waitAll fuel) s (fun _ s' => s' = { s with children := 0 }) fun _ => False := by
  induction fuel generalizing s with
  | zero => omega
  | succ fuel ih =>
    apply Meets.bind
    apply Meets.get
    split
    next hzero =>
      apply Meets.pure
      rw [← hzero]
    next hpos =>
      apply Meets.bind
      apply Meets.modify
      exact ih (by dsimp only; omega)

theorem spawned_append :
    spawned env k (vs ++ ws) = spawned env k vs ++ spawned env (k + vs.length) ws := by
  induction vs generalizing k with
  | nil => rfl
  | cons xs vs ih =>
    rw [List.cons_append, spawned, ih, spawned, List.append_assoc, List.length_cons,
      Nat.add_right_comm]
    rfl

theorem length_spawned_le (env : Env) (k : Nat) (vs : List (List Str)) :
    (spawned env k vs).length ≤ vs.length := by
  induction vs generalizing k with
  | nil => exact le_rfl
  | cons xs vs ih =>
    have hle := ih (k + 1)
    rw [spawned, List.length_append, List.length_cons]
    split
    · rw [List.length_singleton]
      omega
    · rw [List.length_nil]
      omega

theorem spawned_of_fork (h : ∀ j < vs.length, env.fork (k + j) = true) :
    spawned env k vs = vs.map fun xs => (env.args.head?, xs) := by
  induction vs generalizing k with
  | nil => rfl
  | cons xs vs ih =>
    rw [List.length_cons] at h
    have hk := h 0 (by omega)
    rw [Nat.add_zero] at hk
    rw [spawned, if_pos hk, ih, List.map_cons]
    · rfl
    · intro j hj
      rw [Nat.add_assoc, Nat.add_comm 1]
      exact h (j + 1) (by omega)

theorem Ran.append (h : Ran env s vs s') (h' : Ran env s' ws s'') : Ran env s (vs ++ ws) s'' where
  forks := by
    rw [h'.forks, h.forks, List.length_append, Nat.add_assoc]
  commands := by
    rw [h'.commands, h.commands, h.forks, spawned_append, List.append_assoc]

def leftover (env : Env) (line : Str) : List (List Str) :=
  if (line.splitOn space).dropLast = [] then []
  else [env.args ++ ((line.splitOn space).dropLast).map cut]

theorem lastLine_meets {line : Str} (h : Ready env s fields cur)
    (hsplit : line.splitOn space = fields ++ [cur]) (hp : s.p ≤ bufSize) (hpa : s.pa < argsSize) :
    Meets (lastLine env) s
      (fun _ s' => s'.children = s'.commands.length ∧ Ran env s (leftover env line) s')
      fun _ => False := by
  have hfields : (line.splitOn space).dropLast = fields := by
    rw [hsplit, List.dropLast_concat]
  have hslot := h.pa
  have hlast := h.last
  apply Meets.bind
  apply Meets.get
  rw [leftover, hfields]
  by_cases hnil : fields = []
  · have hzero : ¬ s.pa ≠ env.args.length := by
      rw [h.pa, hnil]
      simp
    rw [if_neg hzero, if_pos hnil]
    exact Meets.pure ⟨h.waits, Ran.nil rfl rfl⟩
  · have hpos := List.length_pos_of_ne_nil hnil
    rw [if_pos (by omega), if_neg hnil]
    apply Meets.of_eq (endLine_eq hpa (h.vector hpa (by omega)))
    exact ⟨spawn_waits h.waits,
      Ran.spawn (s := s) rfl (spawn_commands s.terminate env _) (Ran.nil rfl rfl)⟩

theorem length_terminated (text : Str) : (terminated text).length = text.count newline := by
  rw [terminated, List.length_dropLast, length_splitOn, Nat.add_sub_cancel]

theorem main_meets {fuel : Nat} {buf : Nat → UInt8} (hseen : Seen env.read buf 0 input)
    (hlen : input.length ≤ bufSize) (hslots : Slots env input) (hfuel : input.length + 1 < fuel)
    (argsbuf : Nat → Pointer) :
    Meets (main env fuel) (start buf argsbuf)
      (fun _ s' => s'.children = 0 ∧ s'.commands = spawned env 0
        ((terminated input).map (vectorOf env) ++ leftover env (unterminated input)))
      fun _ => False := by
  have hlast := hslots.last
  apply (copyArgs_meets (n := env.args.length) (by omega)).seq
  rintro _ _ ⟨a, rfl, ha⟩
  apply Meets.bind
  apply Meets.modify
  have hready : Ready env { start buf a with pa := env.args.length } [] [] :=
    ⟨rfl, rfl, trivial, ha, trivial, rfl⟩
  apply (loop_meets hready splitOn_empty List.not_mem_nil ⟨rfl, fun _ _ => rfl⟩ hseen
    (by change 0 + _ ≤ _; omega) hslots (by omega)).seq
  rintro _ s₁ ⟨fields, cur, hready₁, hp, hsplit, hran⟩
  have hpa : s₁.pa < argsSize := by
    have hslot := hready₁.pa
    have hf := length_fields hsplit
    change fields.length = (unterminated input).count space at hf
    omega
  apply (lastLine_meets hready₁ hsplit hp hpa).seq
  rintro _ s₂ ⟨hwaits, hran₂⟩
  have hall := hran.append hran₂
  have hcommands := hall.commands
  have hshort : s₂.children < fuel := by
    have hle := length_spawned_le env 0
      ((terminated input).map (vectorOf env) ++ leftover env (unterminated input))
    have hleft : (leftover env (unterminated input)).length ≤ 1 := by
      rw [leftover]
      split <;> simp
    have hnew := List.count_le_length (a := newline) (l := input)
    rw [List.length_append, List.length_map, length_terminated] at hle
    rw [hwaits, hcommands]
    change (spawned env 0 _).length < fuel
    exact lt_of_le_of_lt hle (by omega)
  apply (waitAll_meets hshort).post
  rintro _ _ rfl
  exact ⟨rfl, hcommands⟩

end Main

end Xv6.Xargs

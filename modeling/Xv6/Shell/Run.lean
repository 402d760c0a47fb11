import Xv6.Lib.Transition
import Xv6.Param
import Xv6.Shell.Language

namespace Xv6.Shell

variable {ω : Type}

/-- The way to a command from the root of the tree. -/
abbrev Node := List Bool

/-- What a descriptor refers to: a file the shell was started with, one opened for a redirection, or
an end of the pipe made for a command. -/
inductive File (ω : Type) where
  | inherited (n : Nat)
  | opened (at_ : Node) (file : ω) (mode : Nat)
  | pipe (at_ : Node) (write : Bool)

/-- `p->ofile` -/
abbrev Fds (ω : Type) := Nat → Option (File ω)

namespace Fds

def close (t : Fds ω) (fd : Nat) : Fds ω := Function.update t fd none

/-- `fdalloc`: the lowest free descriptor. -/
def alloc (t : Fds ω) (f : File ω) : Option (Nat × Fds ω) :=
  ((List.range NOFILE).find? fun fd => (t fd).isNone).map fun fd => (fd, Function.update t fd (some f))

/-- `dup`, whose result is not looked at. -/
def dup (t : Fds ω) (fd : Nat) : Fds ω :=
  match t fd with
  | none => t
  | some f => ((t.alloc f).map Prod.snd).getD t

/-- `pipe`: the descriptors of its two ends. -/
def pipe (t : Fds ω) (node : Node) : Option (Nat × Nat × Fds ω) := do
  let (p0, t) ← t.alloc (.pipe node false)
  let (p1, t) ← t.alloc (.pipe node true)
  return (p0, p1, t)

end Fds

/-- Which of the calls made for a command succeed; `fork` is called once or twice. -/
structure Env where
  opens : Node → Bool
  pipes : Node → Bool
  forks : Node → Bool → Bool

/-- A process calls `exec` with these descriptors. -/
structure Start (ω : Type) where
  node : Node
  argv : List ω
  fds : Fds ω

/-- The calls of `exec` that `runcmd` leads to, in the process it runs in and in those it forks. The
tables are private to the processes, so that the order in which they run does not matter. What the
parent of a pipeline does after its `fork`s (it closes both ends and waits) starts no program and is
left out. -/
def runcmd (env : Env) : Node → Cmd ω → Fds ω → List (Start ω)
  | _, .exec [], _ => []
  | node, .exec (w :: ws), t => [⟨node, w :: ws, t⟩]
  | node, .redir cmd file mode fd, t =>
    match bif env.opens node then (t.close fd).alloc (.opened node file mode) else none with
    | none => []
    | some (_, t) => runcmd env (false :: node) cmd t
  | node, .list left right, t =>
    bif env.forks node false then
      runcmd env (false :: node) left t ++ runcmd env (true :: node) right t
    else []
  | node, .pipe left right, t =>
    match bif env.pipes node then t.pipe node else none with
    | none => []
    | some (p0, p1, t) =>
      -- `fork1` panics, so that the second command is not run if the first `fork` fails
      bif env.forks node false then
        runcmd env (false :: node) left ((((t.close 1).dup p1).close p0).close p1) ++
          bif env.forks node true then
            runcmd env (true :: node) right ((((t.close 0).dup p0).close p0).close p1)
          else []
      else []
  | node, .back cmd, t => bif env.forks node false then runcmd env (false :: node) cmd t else []

/-- The standard descriptors and no others. -/
def std (x : Fin 3 → File ω) : Fds ω := fun n => if h : n < 3 then some (x ⟨n, h⟩) else none

/-- What a command line means: the programs to start, each with its input, output and error output. -/
def plan : Node → Cmd ω → (Fin 3 → File ω) → List (Start ω)
  | _, .exec [], _ => []
  | node, .exec (w :: ws), x => [⟨node, w :: ws, std x⟩]
  | node, .redir cmd file mode fd, x =>
    plan (false :: node) cmd fun n => if n.val = fd then .opened node file mode else x n
  | node, .list left right, x => plan (false :: node) left x ++ plan (true :: node) right x
  | node, .pipe left right, x =>
    plan (false :: node) left (Function.update x 1 (.pipe node true)) ++
      plan (true :: node) right (Function.update x 0 (.pipe node false))
  | node, .back cmd, x => plan (false :: node) cmd x

/-- Only standard descriptors are redirected. -/
def Cmd.Standard : Cmd ω → Prop
  | .exec _ => True
  | .redir cmd _ _ fd => fd < 3 ∧ cmd.Standard
  | .list left right | .pipe left right => left.Standard ∧ right.Standard
  | .back cmd => cmd.Standard

variable {x : Fin 3 → File ω}

theorem std_eq_some {n : Nat} {f : File ω} : std x n = some f ↔ ∃ h : n < 3, x ⟨n, h⟩ = f := by
  unfold std
  split <;> simp [*]

theorem alloc_close_std {fd : Nat} (hfd : fd < 3) (f : File ω) :
    ((std x).close fd).alloc f = some (fd, std fun n => if n.val = fd then f else x n) := by
  have hfind : (List.range NOFILE).find? (fun n => (((std x).close fd) n).isNone) = some fd := by
    interval_cases fd <;> rfl
  rw [Fds.alloc, hfind, Option.map_some]
  congr 2
  funext n
  by_cases hn : n = fd
  · subst hn
    simp [std, hfd]
  · simp [Fds.close, std, hn]

theorem pipe_std (node : Node) : (std x).pipe node = some (3, 4,
    Function.update (Function.update (std x) 3 (some (.pipe node false))) 4 (some (.pipe node true))) :=
  rfl

theorem left_std (r w : File ω) :
    ((((Fds.close (Function.update (Function.update (std x) 3 (some r)) 4 (some w)) 1).dup 4).close
      3).close 4) = std (Function.update x 1 w) := by
  funext n
  rcases n with _ | _ | _ | _ | _ | n <;> rfl

theorem right_std (r w : File ω) :
    ((((Fds.close (Function.update (Function.update (std x) 3 (some r)) 4 (some w)) 0).dup 3).close
      3).close 4) = std (Function.update x 0 r) := by
  funext n
  rcases n with _ | _ | _ | _ | _ | n <;> rfl

theorem bif_sublist {α : Type} {b : Bool} {xs ys : List α} (h : xs.Sublist ys) :
    (bif b then xs else []).Sublist ys := by
  cases b with
  | false => exact List.nil_sublist ys
  | true => exact h

theorem runcmd_sublist (env : Env) (node : Node) (cmd : Cmd ω) (x : Fin 3 → File ω)
    (h : cmd.Standard) : (runcmd env node cmd (std x)).Sublist (plan node cmd x) := by
  induction cmd generalizing node x with
  | exec argv => cases argv <;> exact .refl _
  | redir cmd file mode fd ih =>
    obtain ⟨hfd, h⟩ := h
    rw [runcmd, plan, alloc_close_std hfd]
    cases env.opens node with
    | false => exact List.nil_sublist _
    | true => exact ih _ _ h
  | list left right ihl ihr =>
    rw [runcmd, plan]
    exact bif_sublist ((ihl _ _ h.1).append (ihr _ _ h.2))
  | pipe left right ihl ihr =>
    rw [runcmd, plan, pipe_std]
    cases env.pipes node with
    | false => exact List.nil_sublist _
    | true =>
      dsimp only [cond_true]
      rw [left_std, right_std]
      exact bif_sublist ((ihl _ _ h.1).append (bif_sublist (ihr _ _ h.2)))
  | back cmd ih =>
    rw [runcmd, plan]
    exact bif_sublist (ih _ _ h)

theorem runcmd_eq_plan {env : Env} (hok : ∀ n b, env.opens n ∧ env.pipes n ∧ env.forks n b)
    (node : Node) (cmd : Cmd ω) (x : Fin 3 → File ω) (h : cmd.Standard) :
    runcmd env node cmd (std x) = plan node cmd x := by
  induction cmd generalizing node x with
  | exec argv => cases argv <;> rfl
  | redir cmd file mode fd ih =>
    rw [runcmd, plan, alloc_close_std h.1, (hok node true).1]
    exact ih _ _ h.2
  | list left right ihl ihr =>
    rw [runcmd, plan, (hok node false).2.2, cond_true, ihl _ _ h.1, ihr _ _ h.2]
  | pipe left right ihl ihr =>
    rw [runcmd, plan, pipe_std, (hok node false).2.1]
    dsimp only [cond_true]
    rw [left_std, right_std, (hok node false).2.2, (hok node true).2.2, cond_true, cond_true,
      ihl _ _ h.1, ihr _ _ h.2]
  | back cmd ih => rw [runcmd, plan, (hok node false).2.2, cond_true, ih _ _ h]

section Parsed

theorem Redirs.standard {ts : List Token} {rs : List (Redirection Text)} (h : Redirs ts rs) :
    ∀ r ∈ rs, r.fd < 3 := by
  induction h with
  | nil => simp
  | @cons k w mode fd ts rs hk _ ih =>
    have hfd : fd < 3 := by cases k <;> cases hk <;> decide
    exact List.forall_mem_cons.mpr ⟨hfd, ih⟩

theorem Words.standard {ts : List Token} {ws : List Text} {rs : List (Redirection Text)}
    (h : Words ts ws rs) : ∀ r ∈ rs, r.fd < 3 := by
  induction h with
  | nil => simp
  | cons hr _ ih => exact List.forall_mem_append.mpr ⟨hr.standard, ih⟩

theorem Cmd.Standard.wrap {cmd : Cmd ω} (h : cmd.Standard) {rs : List (Redirection ω)}
    (hrs : ∀ r ∈ rs, r.fd < 3) : (cmd.wrap rs).Standard := by
  induction rs generalizing cmd with
  | nil => exact h
  | cons r rs ih =>
    obtain ⟨hr, hrs⟩ := List.forall_mem_cons.mp hrs
    exact ih ⟨hr, h⟩ hrs

theorem Cmd.Standard.back {cmd : Cmd ω} (h : cmd.Standard) (k : Nat) :
    (Cmd.back^[k] cmd).Standard := by
  induction k generalizing cmd with
  | zero => exact h
  | succ k ih => exact ih (show (Cmd.back cmd).Standard from h)

theorem Line.standard {ts : List Token} {cmd : Cmd Text} (h : Line ts cmd) : cmd.Standard := by
  refine @Line.rec (fun _ cmd _ => cmd.Standard) (fun _ cmd _ => cmd.Standard)
    (fun _ cmd _ => cmd.Standard) ?_ ?_ ?_ ?_ ?_ ?_ _ _ h
  · intro _ _ k _ ih
    exact ih.back k
  · intro _ _ _ _ k _ _ ih ihr
    exact ⟨ih.back k, ihr⟩
  · intro _ _ _ ih
    exact ih
  · intro _ _ _ _ _ _ ih ihr
    exact ⟨ih, ihr⟩
  · intro _ _ _ _ _ hr ih
    exact ih.wrap hr.standard
  · intro _ _ ws _ _ hr hw _
    have hexec : (Cmd.exec ws).Standard := trivial
    exact hexec.wrap (List.forall_mem_append.mpr ⟨hr.standard, hw.standard⟩)

theorem parsecmd_line {s : Ptr} {fuel : Nat} (h0 : 0 ∉ s) (hf : 4 * s.length + 4 ≤ fuel)
    {cmd : Cmd Span} {buf : List UInt8} (hp : parsecmd fuel s = .ok (cmd, buf)) :
    Line (tokens s) (cmd.read s.length buf) := by
  obtain ⟨m, hm⟩ | ⟨r, t, -, ht⟩ := parsecmd_sound h0 hf
  · rw [hp] at hm
    cases hm
  · obtain ⟨cmd', buf', hp', hread⟩ := parsecmd_complete h0 hf ht
    rw [hp] at hp'
    cases hp'
    rw [hread]
    exact ht

def lucky : Env := ⟨fun _ => true, fun _ => true, fun _ _ => true⟩

end Parsed

/-- The program is started below `node`, and the ends of pipes it has are among those in `x` or are
those of its side of a pipeline. -/
def PipeEnds (node : Node) (x : Fin 3 → File ω) (a : Start ω) : Prop :=
  node <:+ a.node ∧ ∀ fd m w, a.fds fd = some (.pipe m w) →
    std x fd = some (.pipe m w) ∨ ((!w) :: m) <:+ a.node ∧ fd = bif w then 1 else 0

theorem PipeEnds.above {node : Node} {b : Bool} {y : Fin 3 → File ω} {a : Start ω}
    (h : PipeEnds (b :: node) y a) (hy : ∀ fd m w, std y fd = some (.pipe m w) →
      std x fd = some (.pipe m w) ∨ ((!w) :: m) <:+ a.node ∧ fd = bif w then 1 else 0) :
    PipeEnds node x a :=
  ⟨(List.suffix_cons _ _).trans h.1, fun fd m w hp => (h.2 fd m w hp).elim (hy fd m w) .inr⟩

theorem PipeEnds.side {node : Node} {b : Bool} {i : Fin 3} {a : Start ω}
    (h : PipeEnds ((!b) :: node) (Function.update x i (.pipe node b)) a)
    (hi : i.val = bif b then 1 else 0) : PipeEnds node x a := by
  refine h.above fun fd m w hy => ?_
  obtain ⟨hfd, hy⟩ := std_eq_some.mp hy
  by_cases he : (⟨fd, hfd⟩ : Fin 3) = i
  · rw [he, Function.update_self] at hy
    cases hy
    exact .inr ⟨h.1, (congrArg Fin.val he).trans hi⟩
  · rw [Function.update_of_ne he] at hy
    exact .inl (std_eq_some.mpr ⟨hfd, hy⟩)

theorem plan_pipeEnds {node : Node} {cmd : Cmd ω} {a : Start ω} (ha : a ∈ plan node cmd x) :
    PipeEnds node x a := by
  induction cmd generalizing node x with
  | exec argv =>
    cases argv with
    | nil => cases ha
    | cons w ws =>
      obtain rfl := List.mem_singleton.mp ha
      exact ⟨List.suffix_rfl, fun fd m w h => .inl h⟩
  | redir cmd file mode fd ih =>
    refine (ih ha).above fun fd' m w hy => .inl ?_
    obtain ⟨hlt, hy⟩ := std_eq_some.mp hy
    dsimp only at hy
    split at hy
    · cases hy
    · exact std_eq_some.mpr ⟨hlt, hy⟩
  | list left right ihl ihr =>
    obtain ha | ha := List.mem_append.mp ha
    · exact (ihl ha).above fun _ _ _ => .inl
    · exact (ihr ha).above fun _ _ _ => .inl
  | pipe left right ihl ihr =>
    obtain ha | ha := List.mem_append.mp ha
    · exact (ihl ha).side (b := true) rfl
    · exact (ihr ha).side (b := false) rfl
  | back cmd ih => exact (ih ha).above fun _ _ _ => .inl

/-- No program of a line is started with an end of a pipe, except on the left side of a pipeline with
the write end as its output and on the right side with the read end as its input. -/
theorem runcmd_leaks_no_pipe {ts : List Token} {cmd : Cmd Text} (h : Line ts cmd) (env : Env)
    (x : Fin 3 → File Text) (a : Start Text) (ha : a ∈ runcmd env [] cmd (std x)) (fd : Nat)
    (m : Node) (w : Bool) (hp : a.fds fd = some (.pipe m w)) :
    std x fd = some (.pipe m w) ∨ ((!w) :: m) <:+ a.node ∧ fd = bif w then 1 else 0 :=
  (plan_pipeEnds ((runcmd_sublist env [] cmd x h.standard).mem ha)).2 fd m w hp

theorem runcmd_leaks_no_pipe_sample :
    ∃ a ∈ runcmd lucky [] sampleCmd (std fun n => .inherited n),
      a.fds 0 = some (.pipe [false] false) ∧ [true, false] <:+ a.node := by
  have hmem : ⟨[false, true, false], [letter 'c'],
      std (Function.update (fun n => .inherited n) 0 (.pipe [false] false))⟩ ∈
      runcmd lucky [] sampleCmd (std fun n => .inherited n) := by
    rw [runcmd_eq_plan (fun _ _ => ⟨rfl, rfl, rfl⟩) _ _ _ line_sample.standard]
    exact List.mem_cons_of_mem _ List.mem_cons_self
  have hend := runcmd_leaks_no_pipe line_sample lucky _ _ hmem 0 [false] false rfl
  refine ⟨_, hmem, rfl, (hend.resolve_left fun h => ?_).1⟩
  cases h

end Xv6.Shell

import Xv6.Grep.Grep

namespace Xv6.Xargs

open Lib.Command
open Grep (Str newline Holds holds_append terminated unterminated)

def bufSize : Nat := 2048

/-- `char *argsbuf[128]`. -/
def argsSize : Nat := 128

def space : UInt8 := ' '.toUInt8

/-- What is stored in `argsbuf`: 0, `argv[i + 1]`, or the address of byte `k` of `buf`. -/
inductive Pointer where
  | null
  | arg (i : Nat)
  | buf (k : Nat)
  deriving DecidableEq, Repr

/-- What `read(0, p, 1)` returns. -/
inductive Got where
  | byte (c : UInt8)
  | eof
  | error
  deriving DecidableEq, Repr

inductive Fault where
  /-- Byte `i` is not in `buf`. -/
  | buf (i : Nat)
  /-- There is no `argsbuf[i]`. -/
  | argsbuf (i : Nat)
  /-- A string that does not end inside `buf`, or a vector inside `argsbuf`. -/
  | string
  | running
  deriving DecidableEq, Repr

/-- What the program is started with: its arguments after the first, what each `read` gives and
whether each `fork` succeeds. -/
structure Env where
  args : List Str
  read : Nat → Got
  fork : Nat → Bool
  /-- `exec` passes on at most this many. -/
  few : args.length < 32

/-- The variables of `main`, how many times it has called `read` and `fork`, the children it has
not waited for, and what each child has passed to `exec`. -/
structure State where
  buf : Nat → UInt8
  argsbuf : Nat → Pointer
  p : Nat
  last_p : Nat
  pa : Nat
  reads : Nat
  forks : Nat
  children : Nat
  commands : List (Option Str × List Str)

abbrev XargsM := Cmd State Fault

def loadBuf (i : Nat) : XargsM UInt8 := do
  let s ← get
  if i < bufSize then pure (s.buf i) else throw (.buf i)

def storeBuf (i : Nat) (c : UInt8) : XargsM Unit := do
  if i < bufSize then modify fun s => { s with buf := Function.update s.buf i c }
  else throw (.buf i)

def storeArg (i : Nat) (q : Pointer) : XargsM Unit := do
  if i < argsSize then modify fun s => { s with argsbuf := Function.update s.argsbuf i q }
  else throw (.argsbuf i)

def cstring (buf : Nat → UInt8) : Nat → Nat → Option Str
  | 0, _ => none
  | n + 1, k => if buf k = 0 then some [] else (cstring buf n (k + 1)).map (buf k :: ·)

def string (args : List Str) (buf : Nat → UInt8) : Pointer → Option Str
  | .null => none
  | .arg i => args[i]?
  | .buf k => cstring buf (bufSize - k) k

def vectorFrom (args : List Str) (buf : Nat → UInt8) (argsbuf : Nat → Pointer) :
    Nat → Nat → Option (List Str)
  | 0, _ => none
  | n + 1, i =>
    if argsbuf i = .null then some []
    else do
      let x ← string args buf (argsbuf i)
      let xs ← vectorFrom args buf argsbuf n (i + 1)
      pure (x :: xs)

def vector (args : List Str) (s : State) : Option (List Str) :=
  vectorFrom args s.buf s.argsbuf argsSize 0

/-- The child works on a copy of the memory as it is at the `fork`. -/
def run (env : Env) : XargsM Unit := do
  let s ← get
  modify fun s => { s with forks := s.forks + 1 }
  if env.fork s.forks then
    match vector env.args s with
    | some xs =>
      modify fun s =>
        { s with
          children := s.children + 1
          commands := s.commands ++ [(env.args.head?, xs)] }
    | none => throw .string
  else pure ()

/-- `read(0, p, 1) != 0`. -/
def read (env : Env) : XargsM Bool := do
  let s ← get
  modify fun s => { s with reads := s.reads + 1 }
  match env.read s.reads with
  | .byte c =>
    storeBuf s.p c
    pure true
  | .eof => pure false
  | .error => pure true

def endField : XargsM Unit := do
  let s ← get
  storeBuf s.p 0
  storeArg s.pa (.buf s.last_p)
  modify fun s => { s with pa := s.pa + 1, last_p := s.p + 1 }

def endLine (env : Env) : XargsM Unit := do
  let s ← get
  storeArg s.pa .null
  run env

def turn (env : Env) : XargsM Unit := do
  let s ← get
  let c ← loadBuf s.p
  if c = space ∨ c = newline then
    if c = space then endField
    else
      endField
      endLine env
      modify fun s => { s with pa := env.args.length }
  else pure ()
  modify fun s => { s with p := s.p + 1 }

def loop (env : Env) : Nat → XargsM Unit
  | 0 => throw .running
  | fuel + 1 => do
    if ← read env then
      turn env
      loop env fuel
    else pure ()

def waitAll : Nat → XargsM Unit
  | 0 => throw .running
  | fuel + 1 => do
    let s ← get
    if s.children = 0 then pure ()
    else
      modify fun s => { s with children := s.children - 1 }
      waitAll fuel

def lastLine (env : Env) : XargsM Unit := do
  let s ← get
  if s.pa ≠ env.args.length then endLine env else pure ()

def main (env : Env) (fuel : Nat) : XargsM Unit := do
  (List.range env.args.length).forM fun i => storeArg i (.arg i)
  modify fun s => { s with pa := env.args.length }
  loop env fuel
  lastLine env
  waitAll fuel

def start (buf : Nat → UInt8) (argsbuf : Nat → Pointer) : State :=
  ⟨buf, argsbuf, 0, 0, 0, 0, 0, 0, []⟩

section Primitives

variable {env : Env} {s : State} {i : Nat}

theorem loadBuf_eq (h : i < bufSize) : loadBuf i s = .ok (s.buf i, s) := by
  rw [loadBuf, get_bind, if_pos h]
  rfl

theorem storeBuf_eq (h : i < bufSize) (c : UInt8) :
    storeBuf i c s = .ok ((), { s with buf := Function.update s.buf i c }) := by
  rw [storeBuf, if_pos h]
  rfl

theorem storeArg_eq (h : i < argsSize) (q : Pointer) :
    storeArg i q s = .ok ((), { s with argsbuf := Function.update s.argsbuf i q }) := by
  rw [storeArg, if_pos h]
  rfl

def State.spawn (s : State) (env : Env) (xs : List Str) : State :=
  { s with
    forks := s.forks + 1
    children := if env.fork s.forks then s.children + 1 else s.children
    commands := if env.fork s.forks then s.commands ++ [(env.args.head?, xs)] else s.commands }

theorem run_eq {xs : List Str} (h : vector env.args s = some xs) :
    run env s = .ok ((), s.spawn env xs) := by
  rw [run, get_bind, modify_bind, h]
  cases hfork : env.fork s.forks <;> simp only [State.spawn, hfork] <;> rfl

def State.endField (s : State) : State :=
  { s with
    buf := Function.update s.buf s.p 0
    argsbuf := Function.update s.argsbuf s.pa (.buf s.last_p)
    pa := s.pa + 1
    last_p := s.p + 1 }

def State.pass (s : State) : State := { s.endField with p := s.p + 1 }

theorem endField_eq (hp : s.p < bufSize) (hpa : s.pa < argsSize) :
    endField s = .ok ((), s.endField) := by
  rw [endField, get_bind, bind_of_ok (storeBuf_eq hp 0), bind_of_ok (storeArg_eq hpa _)]
  rfl

def State.terminate (s : State) : State :=
  { s with argsbuf := Function.update s.argsbuf s.pa .null }

theorem endLine_eq (hpa : s.pa < argsSize) {xs : List Str}
    (h : vector env.args s.terminate = some xs) :
    endLine env s = .ok ((), s.terminate.spawn env xs) := by
  rw [endLine, get_bind, bind_of_ok (storeArg_eq hpa _)]
  exact run_eq h

def State.got (s : State) (c : UInt8) : State :=
  { s with reads := s.reads + 1, buf := Function.update s.buf s.p c }

theorem read_byte {c : UInt8} (h : env.read s.reads = .byte c) (hp : s.p < bufSize) :
    read env s = .ok (true, s.got c) := by
  rw [read, get_bind, modify_bind, h]
  exact bind_of_ok (storeBuf_eq hp c)

theorem read_eof (h : env.read s.reads = .eof) :
    read env s = .ok (false, { s with reads := s.reads + 1 }) := by
  rw [read, get_bind, modify_bind, h]
  rfl

theorem read_error (h : env.read s.reads = .error) :
    read env s = .ok (true, { s with reads := s.reads + 1 }) := by
  rw [read, get_bind, modify_bind, h]
  rfl

theorem read_seen {c : UInt8}
    (h : env.read s.reads = .byte c ∨ env.read s.reads = .error ∧ s.buf s.p = c)
    (hp : s.p < bufSize) : read env s = .ok (true, s.got c) := by
  rcases h with h | ⟨h, rfl⟩
  · exact read_byte h hp
  · rw [read_error h, State.got, Function.update_eq_self]

theorem turn_other (hp : s.p < bufSize) (hs : s.buf s.p ≠ space) (hn : s.buf s.p ≠ newline) :
    turn env s = .ok ((), { s with p := s.p + 1 }) := by
  rw [turn, get_bind, bind_of_ok (loadBuf_eq hp), if_neg (not_or.mpr ⟨hs, hn⟩)]
  rfl

theorem turn_space (hp : s.p < bufSize) (hpa : s.pa < argsSize) (hs : s.buf s.p = space) :
    turn env s = .ok ((), s.pass) := by
  rw [turn, get_bind, bind_of_ok (loadBuf_eq hp), if_pos (Or.inl hs), if_pos hs,
    bind_of_ok (endField_eq hp hpa)]
  rfl

theorem space_ne_newline : space ≠ newline := by decide

theorem turn_newline (hp : s.p < bufSize) (hpa : s.pa + 1 < argsSize) (hn : s.buf s.p = newline)
    {xs : List Str} (h : vector env.args s.pass.terminate = some xs) :
    turn env s = .ok ((), { s.pass.terminate.spawn env xs with pa := env.args.length }) := by
  have hs : s.buf s.p ≠ space := fun e => space_ne_newline (e.symm.trans hn)
  have hfield := endField_eq hp (Nat.lt_of_succ_lt hpa)
  have hline : endLine env s.endField = .ok ((), s.endField.terminate.spawn env xs) :=
    endLine_eq hpa h
  rw [turn, get_bind, bind_of_ok (loadBuf_eq hp), if_pos (Or.inr hn), if_neg hs,
    bind_of_ok hfield, bind_of_ok hline, modify_bind]
  rfl

end Primitives

end Xv6.Xargs

import Xv6.Shell.Tokens

namespace Xv6.Shell

def MAXARGS : Nat := 10

def O_RDONLY : Nat := 0x000

def O_WRONLY : Nat := 0x001

def O_CREATE : Nat := 0x200

def O_TRUNC : Nat := 0x400

/-- `struct cmd`, with words of any kind. -/
inductive Cmd (ω : Type) where
  | exec (argv : List ω)
  | redir (cmd : Cmd ω) (file : ω) (mode fd : Nat)
  | pipe (left right : Cmd ω)
  | list (left right : Cmd ω)
  | back (cmd : Cmd ω)
  deriving DecidableEq

namespace Cmd

variable {ω ω' : Type}

/-- `cmd->argv[argc] = q`, where `cmd` is the command below the redirections. -/
def addArg : Cmd ω → ω → Cmd ω
  | exec argv, w => exec (argv ++ [w])
  | redir cmd file mode fd, w => redir (cmd.addArg w) file mode fd
  | cmd, _ => cmd

def map (f : ω → ω') : Cmd ω → Cmd ω'
  | exec argv => exec (argv.map f)
  | redir cmd file mode fd => redir (cmd.map f) (f file) mode fd
  | pipe left right => pipe (left.map f) (right.map f)
  | list left right => list (left.map f) (right.map f)
  | back cmd => back (cmd.map f)

end Cmd

/-- The `switch` of `parseredirs`. -/
def redirect (tok : Ret) (cmd : Cmd Span) (file : Span) : Cmd Span :=
  match tok with
  | .sym .lt => .redir cmd file O_RDONLY 0
  | .sym .gt => .redir cmd file (O_WRONLY ||| O_CREATE ||| O_TRUNC) 1
  | .sym .append => .redir cmd file (O_WRONLY ||| O_CREATE) 1
  | _ => cmd

def parseredirs : Nat → Cmd Span → Parser (Cmd Span)
  | 0, _ => throw .fuel
  | n + 1, cmd => do
    if ← peek ['<', '>'] then
      let op ← gettoken
      let file ← gettoken
      if file.1 = .word then
        parseredirs n (redirect op.1 cmd file.2)
      else throw (.panic "missing file for redirection")
    else pure cmd

/-- The loop of `parseexec`. -/
def parseargs : Nat → Nat → Cmd Span → Parser (Cmd Span)
  | 0, _, _ => throw .fuel
  | n + 1, argc, ret => do
    if ← peek ['|', ')', '&', ';'] then pure ret
    else
      let tok ← gettoken
      match tok.1 with
      | .nul => pure ret
      | .sym _ => throw (.panic "syntax")
      | .word =>
        if argc + 1 ≥ MAXARGS then throw (.panic "too many args")
        else
          let ret ← parseredirs n (ret.addArg tok.2)
          parseargs n (argc + 1) ret

/-- The loop of `parseline`. -/
def parsebacks : Nat → Cmd Span → Parser (Cmd Span)
  | 0, _ => throw .fuel
  | n + 1, cmd => do
    if ← peek ['&'] then
      let _ ← gettoken
      parsebacks n (.back cmd)
    else pure cmd

mutual

def parseline : Nat → Parser (Cmd Span)
  | 0 => throw .fuel
  | n + 1 => do
    let cmd ← parsepipe n
    let cmd ← parsebacks n cmd
    if ← peek [';'] then
      let _ ← gettoken
      let right ← parseline n
      pure (.list cmd right)
    else pure cmd

def parsepipe : Nat → Parser (Cmd Span)
  | 0 => throw .fuel
  | n + 1 => do
    let cmd ← parseexec n
    if ← peek ['|'] then
      let _ ← gettoken
      let right ← parsepipe n
      pure (.pipe cmd right)
    else pure cmd

def parseblock : Nat → Parser (Cmd Span)
  | 0 => throw .fuel
  | n + 1 => do
    if ← peek ['('] then
      let _ ← gettoken
      let cmd ← parseline n
      if ← peek [')'] then
        let _ ← gettoken
        parseredirs n cmd
      else throw (.panic "syntax - missing )")
    else throw (.panic "parseblock")

def parseexec : Nat → Parser (Cmd Span)
  | 0 => throw .fuel
  | n + 1 => do
    if ← peek ['('] then parseblock n
    else
      let ret ← parseredirs n (.exec [])
      parseargs n 0 ret

end

/-- The address of a pointer into a line of `n` characters. -/
def addr (n : Nat) (p : Ptr) : Nat := n - p.length

/-- `*p = 0` -/
def poke (n : Nat) (buf : List UInt8) (p : Ptr) : List UInt8 := buf.set (addr n p) 0

def nulterminate (n : Nat) : Cmd Span → List UInt8 → List UInt8
  | .exec argv, buf => argv.foldl (fun buf w => poke n buf w.eq) buf
  | .redir cmd file _ _, buf => poke n (nulterminate n cmd buf) file.eq
  | .pipe left right, buf | .list left right, buf =>
    nulterminate n right (nulterminate n left buf)
  | .back cmd, buf => nulterminate n cmd buf

/-- The command and the line after the call. `fuel` bounds the depth of the calls. -/
def parsecmd (fuel : Nat) (s : List UInt8) : Except Stop (Cmd Span × List UInt8) := do
  let (cmd, rest) ← parseline fuel s
  let (_, rest) ← peek [] rest
  if rest = [] then .ok (cmd, nulterminate s.length cmd (s ++ [0]))
  else .error (.panic "syntax")

/-- The string at `p`. -/
def string (n : Nat) (buf : List UInt8) (p : Ptr) : List UInt8 :=
  (buf.drop (addr n p)).takeWhile (· ≠ 0)

/-- The command as `runcmd` reads it. -/
def Cmd.read (n : Nat) (buf : List UInt8) (cmd : Cmd Span) : Cmd (List UInt8) :=
  cmd.map fun w => string n buf w.q

end Xv6.Shell

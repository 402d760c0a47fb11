import Xv6.Shell.Parse

namespace Xv6.Shell

abbrev Text := List UInt8

structure Redirection (ω : Type) where
  file : ω
  mode : Nat
  fd : Nat

def Sym.opens : Sym → Option (Nat × Nat)
  | lt => some (O_RDONLY, 0)
  | gt => some (O_WRONLY ||| O_CREATE ||| O_TRUNC, 1)
  | append => some (O_WRONLY ||| O_CREATE, 1)
  | _ => none

def Cmd.wrap {ω : Type} (cmd : Cmd ω) (rs : List (Redirection ω)) : Cmd ω :=
  rs.foldl (fun cmd r => .redir cmd r.file r.mode r.fd) cmd

inductive Redirs : List Token → List (Redirection Text) → Prop where
  | nil : Redirs [] []
  | cons {k : Sym} {w : Text} {mode fd : Nat} {ts : List Token} {rs : List (Redirection Text)}
      (hk : k.opens = some (mode, fd)) (h : Redirs ts rs) :
      Redirs (.sym k :: .word w :: ts) (⟨w, mode, fd⟩ :: rs)

inductive Words : List Token → List Text → List (Redirection Text) → Prop where
  | nil : Words [] [] []
  | cons {w : Text} {ts ts' : List Token} {ws : List Text} {rs rs' : List (Redirection Text)}
      (hr : Redirs ts rs) (h : Words ts' ws rs') :
      Words (.word w :: (ts ++ ts')) (w :: ws) (rs ++ rs')

mutual

/-- `line -> pipe '&'* [';' line]` -/
inductive Line : List Token → Cmd Text → Prop where
  | one {ts : List Token} {cmd : Cmd Text} (k : Nat) (h : Pipe ts cmd) :
      Line (ts ++ List.replicate k (.sym .amp)) (Cmd.back^[k] cmd)
  | list {ts ts' : List Token} {cmd right : Cmd Text} (k : Nat) (h : Pipe ts cmd)
      (hr : Line ts' right) :
      Line (ts ++ List.replicate k (.sym .amp) ++ .sym .semi :: ts')
        (.list (Cmd.back^[k] cmd) right)

/-- `pipe -> exec ['|' pipe]` -/
inductive Pipe : List Token → Cmd Text → Prop where
  | one {ts : List Token} {cmd : Cmd Text} (h : Exec ts cmd) : Pipe ts cmd
  | pipe {ts ts' : List Token} {cmd right : Cmd Text} (h : Exec ts cmd) (hr : Pipe ts' right) :
      Pipe (ts ++ .sym .bar :: ts') (.pipe cmd right)

/-- `exec -> '(' line ')' redir* | redir* (word redir*)*`, with at most 9 words -/
inductive Exec : List Token → Cmd Text → Prop where
  | block {ts ts' : List Token} {cmd : Cmd Text} {rs : List (Redirection Text)}
      (h : Line ts cmd) (hr : Redirs ts' rs) :
      Exec (.sym .lparen :: (ts ++ .sym .rparen :: ts')) (cmd.wrap rs)
  | words {ts ts' : List Token} {ws : List Text} {rs rs' : List (Redirection Text)}
      (hr : Redirs ts rs) (h : Words ts' ws rs') (hw : ws.length ≤ 9) :
      Exec (ts ++ ts') (Cmd.wrap (.exec ws) (rs ++ rs'))

end

end Xv6.Shell

import Mathlib

namespace Xv6.Sh

def MAXARGS : Nat := 10

-- fcntl.h
def O_RDONLY : Nat := 0x000
def O_WRONLY : Nat := 0x001
def O_CREATE : Nat := 0x200

def ch (c : Char) : UInt8 := UInt8.ofNat c.toNat

def whitespace : List UInt8 := [ch ' ', ch '\t', ch '\r', ch '\n', 0x0b]
def symbols : List UInt8 := [ch '<', ch '|', ch '>', ch '&', ch ';', ch '(', ch ')']

-- strchr finds no terminating NUL.
def strchr (s : List UInt8) (c : UInt8) : Bool := s.contains c

-- A panic of the shell, a read beyond the terminating NUL, or too little fuel
-- for the recursion.
inductive Err
  | panic (msg : String)
  | fault
  | fuel
deriving DecidableEq

-- struct cmd, with words of some type: pointers into the line while it is
-- parsed.
inductive Cmd (α : Type)
  | exec (argv : List α)
  | redir (cmd : Cmd α) (file : α) (mode fd : Nat)
  | pipe (left right : Cmd α)
  | list (left right : Cmd α)
  | back (cmd : Cmd α)
deriving DecidableEq

-- The argument of redircmd besides the command.
structure Redir (α : Type) where
  file : α
  mode : Nat
  fd : Nat

def redircmd {α : Type} (cmd : Cmd α) (r : Redir α) : Cmd α := .redir cmd r.file r.mode r.fd

-- A word from q up to eq.
structure Ptr where
  q : Nat
  eq : Nat
deriving DecidableEq

section Parse

-- The line without its NUL, which is at es = s.length.
variable (s : List UInt8)

-- *p
def deref (p : Nat) : Except Err UInt8 :=
  match s[p]? with
  | some c => .ok c
  | none => if p = s.length then .ok 0 else .error .fault

-- while(p < es && test(*p)) p++, which ends after es - p steps.
def scan (test : UInt8 → Bool) : Nat → Nat → Except Err Nat
  | 0, p => .ok p
  | k + 1, p =>
    if p < s.length then do
      let c ← deref s p
      if test c then scan test k (p + 1) else .ok p
    else .ok p

def skip (p : Nat) : Except Err Nat := scan s (strchr whitespace) (s.length - p) p

def plain (c : UInt8) : Bool := !strchr whitespace c && !strchr symbols c

structure Token where
  ret : UInt8
  word : Ptr
  next : Nat

-- The switch of gettoken on the character at q: the value and the end of the
-- token.
def lex (q : Nat) (c : UInt8) : Except Err (UInt8 × Nat) :=
  if c = 0 then .ok (0, q)
  else if c = ch '|' ∨ c = ch '(' ∨ c = ch ')' ∨ c = ch ';' ∨ c = ch '&' ∨ c = ch '<' then .ok (c, q + 1)
  else if c = ch '>' then do
    let d ← deref s (q + 1)
    if d = ch '>' then .ok (ch '+', q + 2) else .ok (c, q + 1)
  else do
    let eq ← scan s plain (s.length - q) q
    .ok (ch 'a', eq)

def gettoken (p : Nat) : Except Err Token := do
  let q ← skip s p
  let c ← deref s q
  let t ← lex s q c
  let next ← skip s t.2
  .ok { ret := t.1, word := { q := q, eq := t.2 }, next := next }

def peek (p : Nat) (toks : List UInt8) : Except Err (Bool × Nat) := do
  let p ← skip s p
  let c ← deref s p
  .ok (c ≠ 0 && strchr toks c, p)

-- The switch of parseredirs.
def redirection {α : Type} (tok : UInt8) (file : α) : List (Redir α) :=
  if tok = ch '<' then [⟨file, O_RDONLY, 0⟩]
  else if tok = ch '>' then [⟨file, O_WRONLY ||| O_CREATE, 1⟩]
  else if tok = ch '+' then [⟨file, O_WRONLY ||| O_CREATE, 1⟩]
  else []

-- The redirections that parseredirs puts around its command. They are returned
-- instead of the command, because parseexec goes on filling in the command
-- inside.
def parseredirs : Nat → Nat → Except Err (List (Redir Ptr) × Nat)
  | 0, _ => .error .fuel
  | k + 1, p => do
      let r ← peek s p [ch '<', ch '>']
      if r.1 then do
        let tok ← gettoken s r.2
        let file ← gettoken s tok.next
        if file.ret ≠ ch 'a' then .error (.panic "missing file for redirection")
        else do
          let rest ← parseredirs k file.next
          .ok (redirection tok.ret file.word ++ rest.1, rest.2)
      else .ok ([], r.2)

def parseargs : Nat → Nat → List Ptr → List (Redir Ptr) → Except Err ((List Ptr × List (Redir Ptr)) × Nat)
  | 0, _, _, _ => .error .fuel
  | k + 1, p, argv, redirs => do
      let r ← peek s p [ch '|', ch ')', ch '&', ch ';']
      if r.1 then .ok ((argv, redirs), r.2)
      else do
        let tok ← gettoken s r.2
        if tok.ret = 0 then .ok ((argv, redirs), tok.next)
        else if tok.ret ≠ ch 'a' then .error (.panic "syntax")
        else if MAXARGS ≤ (argv ++ [tok.word]).length then .error (.panic "too many args")
        else do
          let rest ← parseredirs s k tok.next
          parseargs k rest.2 (argv ++ [tok.word]) (redirs ++ rest.1)

def parseback : Nat → Nat → Cmd Ptr → Except Err (Cmd Ptr × Nat)
  | 0, _, _ => .error .fuel
  | k + 1, p, cmd => do
      let r ← peek s p [ch '&']
      if r.1 then do
        let tok ← gettoken s r.2
        parseback k tok.next (.back cmd)
      else .ok (cmd, r.2)

mutual

def parseline : Nat → Nat → Except Err (Cmd Ptr × Nat)
  | 0, _ => .error .fuel
  | k + 1, p => do
      let left ← parsepipe k p
      let left ← parseback s k left.2 left.1
      let r ← peek s left.2 [ch ';']
      if r.1 then do
        let tok ← gettoken s r.2
        let right ← parseline k tok.next
        .ok (.list left.1 right.1, right.2)
      else .ok (left.1, r.2)

def parsepipe : Nat → Nat → Except Err (Cmd Ptr × Nat)
  | 0, _ => .error .fuel
  | k + 1, p => do
      let left ← parseexec k p
      let r ← peek s left.2 [ch '|']
      if r.1 then do
        let tok ← gettoken s r.2
        let right ← parsepipe k tok.next
        .ok (.pipe left.1 right.1, right.2)
      else .ok (left.1, r.2)

def parseexec : Nat → Nat → Except Err (Cmd Ptr × Nat)
  | 0, _ => .error .fuel
  | k + 1, p => do
      let r ← peek s p [ch '(']
      if r.1 then parseblock k r.2
      else do
        let first ← parseredirs s k r.2
        let rest ← parseargs s k first.2 [] first.1
        .ok (rest.1.2.foldl redircmd (.exec rest.1.1), rest.2)

def parseblock : Nat → Nat → Except Err (Cmd Ptr × Nat)
  | 0, _ => .error .fuel
  | k + 1, p => do
      let r ← peek s p [ch '(']
      if r.1 then do
        let tok ← gettoken s r.2
        let cmd ← parseline k tok.next
        let r ← peek s cmd.2 [ch ')']
        if r.1 then do
          let tok ← gettoken s r.2
          let redirs ← parseredirs s k tok.next
          .ok (redirs.1.foldl redircmd cmd.1, redirs.2)
        else .error (.panic "syntax - missing )")
      else .error (.panic "parseblock")

end

end Parse

-- The line with its NUL, after a NUL has been written behind every word.
def nulterminate : Cmd Ptr → List UInt8 → List UInt8
  | .exec argv, buf => argv.foldl (fun buf w => buf.set w.eq 0) buf
  | .redir cmd file _ _, buf => (nulterminate cmd buf).set file.eq 0
  | .pipe left right, buf => nulterminate right (nulterminate left buf)
  | .list left right, buf => nulterminate right (nulterminate left buf)
  | .back cmd, buf => nulterminate cmd buf

-- No call nests deeper than this on a line of that length.
def depth (es : Nat) : Nat := 4 * es + 4

-- A string of C: the characters in front of its NUL.
structure CString where
  chars : List UInt8
  noNul : 0 ∉ chars

-- The command and the line.
def parsecmd (s : CString) : Except Err (Cmd Ptr × List UInt8) := do
  let cmd ← parseline s.chars (depth s.chars.length) 0
  let r ← peek s.chars cmd.2 []
  if r.2 ≠ s.chars.length then .error (.panic "syntax")
  else .ok (cmd.1, nulterminate cmd.1 (s.chars ++ [0]))

end Xv6.Sh

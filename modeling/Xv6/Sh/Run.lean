import Xv6.Sh

namespace Xv6.Sh

def NOFILE : Nat := 16

-- p[0] and p[1], and the two processes of a pipe: the right command reads and
-- the left one writes.
inductive End
  | read
  | write
deriving DecidableEq

-- The descriptor that an end of a pipe takes the place of.
def End.fd : End → Nat
  | .read => 0
  | .write => 1

-- What a descriptor refers to. Pipes have numbers in the order in which they
-- are made.
inductive File (α : Type)
  | initial (n : Nat)
  | opened (file : α) (mode : Nat)
  | pipe (e : End) (i : Nat)
deriving DecidableEq

-- What a process has still to do. A fork for an end of a pipe is marked with it.
inductive Instr (α : Type)
  | run (cmd : Cmd α)
  | exec (argv : List α)
  | program
  | close (fd : Nat)
  | closep (e : End)
  | dup (e : End)
  | openFile (file : α) (mode : Nat)
  | pipe (left right : Cmd α)
  | fork (e : Option End) (child : List (Instr α))
  | wait
  | exit

def plumb {α : Type} (e : End) (cmd : Cmd α) : List (Instr α) :=
  [.close e.fd, .dup e, .closep .read, .closep .write, .run cmd]

def runcmd {α : Type} : Cmd α → List (Instr α)
  | .exec [] => [.exit]
  | .exec (path :: argv) => [.exec (path :: argv), .exit]
  | .redir cmd file mode fd => [.close fd, .openFile file mode, .run cmd]
  | .list left right => [.fork none [.run left], .wait, .run right]
  | .pipe left right =>
    [.pipe left right, .fork (some .write) (plumb .write left), .fork (some .read) (plumb .read right),
      .closep .read, .closep .write, .wait, .wait, .exit]
  | .back cmd => [.fork none [.run cmd], .exit]

-- A process of the shell. The fields after code record what it has done: the
-- sides of pipes that it runs on, the one that it was forked for, whether it
-- has come to runcmd, the pipe that it has made and the files it has opened.
structure Proc (α : Type) where
  ofile : List (Option (File α))
  p : End → Nat
  code : List (Instr α)
  within : List (End × Nat)
  born : Option (End × Nat)
  entered : Bool
  made : Option Nat
  opens : List (α × Nat)

-- The process that made a pipe, and the two commands.
structure Node (α : Type) where
  proc : Nat
  left : Cmd α
  right : Cmd α

def Node.side {α : Type} (node : Node α) : End → Cmd α
  | .read => node.right
  | .write => node.left

-- parent is none for processes that init or nobody waits for.
structure State (α : Type) where
  procs : List (Proc α)
  parent : Nat → Option Nat
  nodes : List (Node α)

section Steps

variable {α : Type}

def fdalloc (ofile : List (Option (File α))) (f : File α) : Option (Nat × List (Option (File α))) :=
  match ofile.findIdx? Option.isNone with
  | some fd => some (fd, ofile.set fd (some f))
  | none => none

def sysClose (ofile : List (Option (File α))) (fd : Nat) : List (Option (File α)) := ofile.set fd none

def sysDup (ofile : List (Option (File α))) (fd : Nat) : List (Option (File α)) :=
  match ofile.getD fd none with
  | none => ofile
  | some f =>
    match fdalloc ofile f with
    | none => ofile
    | some (_, ofile) => ofile

def sysPipe (ofile : List (Option (File α))) (i : Nat) : Option ((End → Nat) × List (Option (File α))) :=
  match fdalloc ofile (.pipe .read i) with
  | none => none
  | some (fd0, ofile) =>
    match fdalloc ofile (.pipe .write i) with
    | none => none
    | some (fd1, ofile) => some (fun e => match e with | .read => fd0 | .write => fd1, ofile)

def State.put (st : State α) (k : Nat) (q : Proc α) : State α := { st with procs := st.procs.set k q }

def Proc.gone (q : Proc α) : Proc α := { q with ofile := List.replicate NOFILE none, code := [] }

-- exit, also of a panic
def State.exit (st : State α) (k : Nat) (q : Proc α) : State α :=
  { st.put k q.gone with parent := fun j => if st.parent j = some k then none else st.parent j }

def Proc.child (q : Proc α) (e : Option End) (code : List (Instr α)) : Proc α :=
  match e, q.made with
  | some e, some i =>
    { q with code := code, within := (e, i) :: q.within, born := some (e, i), entered := false, made := none }
  | _, _ => { q with code := code, born := none, entered := false, made := none }

def State.fork (st : State α) (k : Nat) (q : Proc α) (child : Proc α) : State α :=
  { st.put k q with
    procs := st.procs.set k q ++ [child]
    parent := Function.update st.parent st.procs.length (some k) }

-- A child of k that wait can collect.
def State.zombie (st : State α) (k j : Nat) : Bool :=
  st.parent j = some k && ((st.procs[j]?.map fun q => q.code.isEmpty).getD false)

-- Process k makes its next call. It can fail when ok is false: open, pipe and
-- fork then end the process, and exec returns.
def step (st : State α) (k : Nat) (ok : Bool) : Option (State α) :=
  match st.procs[k]? with
  | none => none
  | some q =>
    match q.code with
    | [] => none
    | .run cmd :: _ => some (st.put k { q with code := runcmd cmd, entered := true })
    | .exec _ :: code => some (st.put k { q with code := if ok then [.program] else code })
    | .program :: _ => some (st.exit k q)
    | .close fd :: code => some (st.put k { q with ofile := sysClose q.ofile fd, code := code })
    | .closep e :: code => some (st.put k { q with ofile := sysClose q.ofile (q.p e), code := code })
    | .dup e :: code => some (st.put k { q with ofile := sysDup q.ofile (q.p e), code := code })
    | .openFile file mode :: code =>
      match ok, fdalloc q.ofile (.opened file mode) with
      | true, some (_, ofile) =>
        some (st.put k { q with ofile := ofile, code := code, opens := q.opens ++ [(file, mode)] })
      | _, _ => some (st.exit k q)
    | .pipe left right :: code =>
      match ok, sysPipe q.ofile st.nodes.length with
      | true, some (p, ofile) =>
        some { st.put k { q with ofile := ofile, p := p, code := code, made := some st.nodes.length } with
               nodes := st.nodes ++ [⟨k, left, right⟩] }
      | _, _ => some (st.exit k q)
    | .fork e child :: code =>
      if ok then some (st.fork k { q with code := code } (q.child e child)) else some (st.exit k q)
    | .wait :: code =>
      match (List.range st.procs.length).find? (st.zombie k) with
      | some j => some { st.put k { q with code := code } with parent := Function.update st.parent j none }
      | none =>
        if (List.range st.procs.length).any fun j => st.parent j = some k then none
        else some (st.put k { q with code := code })
    | .exit :: _ => some (st.exit k q)

-- Steps of these processes, in which every pipe, fork and open succeeds.
inductive Runs : State α → List Nat → State α → Prop
  | nil (st : State α) : Runs st [] st
  | cons {st st' st'' : State α} {k : Nat} {ks : List Nat} (ok : Bool)
      (hok : ok = false → ∃ q argv code, st.procs[k]? = some q ∧ q.code = .exec argv :: code)
      (hstep : step st k ok = some st') (hrest : Runs st' ks st'') : Runs st (k :: ks) st''

def schedule (st : State α) : List Nat → Option (State α)
  | [] => some st
  | k :: ks => (step st k true).bind fun st => schedule st ks

theorem runs_schedule {st st' : State α} {ks : List Nat} (h : schedule st ks = some st') : Runs st ks st' := by
  induction ks generalizing st with
  | nil =>
    cases h
    exact .nil _
  | cons k ks ih =>
    obtain ⟨st₁, hstep, hrest⟩ := Option.bind_eq_some_iff.1 h
    exact .cons true nofun hstep (ih hrest)

end Steps

-- The commands that the parser makes: a redirection is one of descriptor 0, 1
-- or 2.
def Cmd.Std {α : Type} : Cmd α → Prop
  | .exec _ => True
  | .redir cmd _ _ fd => fd < 3 ∧ cmd.Std
  | .pipe left right => left.Std ∧ right.Std
  | .list left right => left.Std ∧ right.Std
  | .back cmd => cmd.Std

structure Tree (α : Type) where
  cmd : Cmd α
  std : cmd.Std

-- The descriptors 0, 1 and 2 are open, the others are not.
def Opens {α : Type} (ofile : List (Option (File α))) : Prop :=
  ∃ a b c, ofile = [some a, some b, some c] ++ List.replicate (NOFILE - 3) none

-- A process that comes to runcmd, with files that it was started with.
def boot {α : Type} (tree : Tree α) : State α where
  procs := [{
    ofile := [some (.initial 0), some (.initial 1), some (.initial 2)] ++ List.replicate (NOFILE - 3) none
    p := fun _ => 0
    code := [.run tree.cmd]
    within := []
    born := none
    entered := false
    made := none
    opens := [] }]
  parent := fun _ => none
  nodes := []

end Xv6.Sh

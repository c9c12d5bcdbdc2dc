import Xv6.Lib.Run
import Xv6.Param

namespace Xv6.Ptable

open Function Lib

inductive State
  | unused
  | embryo
  | sleeping
  | runnable
  | running
  | zombie
deriving DecidableEq, Repr

-- What a process can sleep on: a struct proc, as only wait does, or something
-- else in the kernel.
inductive Chan
  | proc (p : Fin NPROC)
  | other (addr : Nat)
deriving DecidableEq, Repr

-- The fields of struct proc that proc.c decides by. A pid is an int, so it is
-- counted modulo 2^32.
structure Proc where
  state : State
  pid : UInt32
  parent : Option (Fin NPROC)
  chan : Option Chan
  killed : Bool
deriving DecidableEq, Repr

abbrev Table := Fin NPROC → Proc

theorem nproc_pos : 0 < NPROC := by decide

def initproc : Fin NPROC := ⟨0, nproc_pos⟩

def setState (tab : Table) (p : Fin NPROC) (state : State) : Table :=
  update tab p { tab p with state := state }

def setParent (tab : Table) (p : Fin NPROC) (parent : Option (Fin NPROC)) : Table :=
  update tab p { tab p with parent := parent }

def setChan (tab : Table) (p : Fin NPROC) (chan : Option Chan) : Table :=
  update tab p { tab p with chan := chan }

def setKilled (tab : Table) (p : Fin NPROC) : Table :=
  update tab p { tab p with killed := true }

-- The states that wakeup1(chan) leaves, for the entries of any table.
def woken {ι κ : Type} [DecidableEq κ] (state : ι → State) (chan : ι → Option κ) (c : Option κ) : ι → State := fun i =>
  if state i = .sleeping ∧ chan i = c then .runnable else state i

def wakeup1 (tab : Table) (chan : Option Chan) : Table := fun p =>
  if (tab p).state = .sleeping ∧ (tab p).chan = chan then { tab p with state := .runnable } else tab p

-- The first unused slot, and the slot as allocproc takes it.
def findUnused (tab : Table) : Option (Fin NPROC) :=
  (List.finRange NPROC).find? fun p => (tab p).state = .unused

def takeSlot (tab : Table) (np : Fin NPROC) (pid : UInt32) : Table :=
  update tab np { tab np with state := .embryo, pid := pid }

-- The slot that kill finds; it looks at the pid only.
def findPid (tab : Table) (pid : UInt32) : Option (Fin NPROC) :=
  (List.finRange NPROC).find? fun p => (tab p).pid = pid

def killSlot (tab : Table) (p : Fin NPROC) : Table :=
  let tab := setKilled tab p
  if (tab p).state = .sleeping then setState tab p .runnable else tab

def kill (tab : Table) (pid : UInt32) : Table × Int :=
  match findPid tab pid with
  | some p => (killSlot tab p, 0)
  | none => (tab, -1)

-- One round of the loop of exit that passes the children to init.
def reparent1 (cur : Fin NPROC) (tab : Table) (p : Fin NPROC) : Table :=
  if (tab p).parent = some cur then
    let tab := setParent tab p (some initproc)
    if (tab p).state = .zombie then wakeup1 tab (some (.proc initproc)) else tab
  else tab

def reparent (cur : Fin NPROC) (tab : Table) : Table :=
  (List.finRange NPROC).foldl (reparent1 cur) tab

-- What exit does with the lock held.
def exitTable (tab : Table) (cur : Fin NPROC) : Table :=
  let tab := wakeup1 tab ((tab cur).parent.map .proc)
  setState (reparent cur tab) cur .zombie

def findZombie (tab : Table) (cur : Fin NPROC) : Option (Fin NPROC) :=
  (List.finRange NPROC).find? fun p => (tab p).parent = some cur ∧ (tab p).state = .zombie

def havekids (tab : Table) (cur : Fin NPROC) : Bool :=
  (List.finRange NPROC).any fun p => (tab p).parent = some cur

-- The slot of a child that wait has found.
def reap (tab : Table) (p : Fin NPROC) : Table :=
  update tab p { tab p with pid := 0, parent := none, killed := false, state := .unused }

-- The system call that the kernel thread of a process is in the middle of,
-- without the lock.
inductive Pc
  | away
  | kstack (np : Fin NPROC)
  | copyuvm (np : Fin NPROC)
  | filled (np : Fin NPROC)
deriving DecidableEq, Repr

-- Where a process that is switched to continues.
inductive Context
  | forkret
  | yield
  | sleep
  | wait
  | exit
deriving DecidableEq, Repr

-- What a CPU is executing: scheduler without and with ptable.lock, or the
-- kernel thread of a process. `enter` and `leaving` are in front of a swtch,
-- `resumed` and `back` right behind one; the lock is held in these four.
inductive Ctl
  | idle
  | scan (k : Nat)
  | enter (p : Fin NPROC)
  | resumed (p : Fin NPROC)
  | running (p : Fin NPROC)
  | leaving (p : Fin NPROC)
  | back (p : Fin NPROC)
deriving DecidableEq, Repr

structure Cpu where
  proc : Option (Fin NPROC)
  ctl : Ctl
deriving DecidableEq, Repr

-- `hit` tells whether the process in a slot has been killed by its own pid or
-- has faulted since allocproc took the slot, `created` counts the pids given
-- out. `forks` and `waits` list the pids returned by fork and wait, each with
-- the pid of the caller.
structure Sys (ι : Type) where
  table : Table
  nextpid : UInt32
  lock : Option ι
  cpu : ι → Cpu
  pc : Fin NPROC → Pc
  context : Fin NPROC → Context
  hit : Fin NPROC → Bool
  created : Nat
  forks : List (UInt32 × UInt32)
  waits : List (UInt32 × UInt32)

-- What a CPU does next. `go` is the next step of what it is executing, with
-- the result of kalloc or copyuvm; the others start something. The address of
-- sleep and wakeup is not one of a struct proc.
inductive Action
  | go (ok : Bool)
  | yield
  | sleep (addr : Nat)
  | wakeup (addr : Nat)
  | fork
  | exit
  | wait
  | kill (pid : UInt32)
  | fault
deriving DecidableEq, Repr

variable {ι : Type} [DecidableEq ι]

namespace Sys

def goto (s : Sys ι) (c : ι) (ctl : Ctl) : Sys ι :=
  { s with cpu := update s.cpu c { s.cpu c with ctl := ctl } }

def setProc (s : Sys ι) (c : ι) (proc : Option (Fin NPROC)) : Sys ι :=
  { s with cpu := update s.cpu c { s.cpu c with proc := proc } }

def setPc (s : Sys ι) (p : Fin NPROC) (pc : Pc) : Sys ι :=
  { s with pc := update s.pc p pc }

def setContext (s : Sys ι) (p : Fin NPROC) (context : Context) : Sys ι :=
  { s with context := update s.context p context }

-- The process p has changed its state and calls sched.
def sched (s : Sys ι) (c : ι) (p : Fin NPROC) (context : Context) : Sys ι :=
  { (s.goto c (.leaving p)).setContext p context with lock := some c }

def release (s : Sys ι) (c : ι) (p : Fin NPROC) : Sys ι :=
  { s.goto c (.running p) with lock := none }

-- One round of the loop of wait.
def waitRound (s : Sys ι) (c : ι) (p : Fin NPROC) : Sys ι :=
  match findZombie s.table p with
  | some child =>
    { s.release c p with
      table := reap s.table child
      waits := s.waits ++ [((s.table child).pid, (s.table p).pid)] }
  | none =>
    if havekids s.table p = false ∨ (s.table p).killed then s.release c p
    else
      { s.sched c p .wait with
        table := setState (setChan s.table p (some (.proc p))) p .sleeping }

-- The critical section of allocproc. Without a slot fork returns -1.
def allocproc (s : Sys ι) (p : Fin NPROC) : Sys ι :=
  match findUnused s.table with
  | some np =>
    { s.setPc p (.kstack np) with
      table := takeSlot s.table np s.nextpid
      nextpid := s.nextpid + 1
      hit := update s.hit np false
      created := s.created + 1 }
  | none => s

-- fork gives up: the slot is unused again. This is done without the lock.
def abandon (s : Sys ι) (p np : Fin NPROC) : Sys ι :=
  { s.setPc p .away with table := setState s.table np .unused }

-- fork makes the child runnable and returns its pid.
def publish (s : Sys ι) (p np : Fin NPROC) : Sys ι :=
  { s.setPc p .away with
    table := setState s.table np .runnable
    forks := s.forks ++ [((s.table np).pid, (s.table p).pid)] }

def proceed (s : Sys ι) (p : Fin NPROC) (ok : Bool) : Option (Sys ι) :=
  match s.pc p with
  | .away => none
  | .kstack np =>
    if ok then some ((s.setPc p (.copyuvm np)).setContext np .forkret) else some (s.abandon p np)
  | .copyuvm np =>
    if ok then some { s.setPc p (.filled np) with table := setParent s.table np (some p) }
    else some (s.abandon p np)
  | .filled np => if s.lock = none then some (s.publish p np) else none

-- The process that is switched to has the lock of the scheduler. One that has
-- exited would panic.
def resume (s : Sys ι) (c : ι) (p : Fin NPROC) : Option (Sys ι) :=
  match s.context p with
  | .forkret | .yield => some (s.release c p)
  | .sleep => some { s.release c p with table := setChan s.table p none }
  | .wait => some ({ s with table := setChan s.table p none }.waitRound c p)
  | .exit => none

-- The loop of scheduler at slot k.
def scan (s : Sys ι) (c : ι) (k : Nat) : Sys ι :=
  if h : k < NPROC then
    if (s.table ⟨k, h⟩).state = .runnable then
      { (s.setProc c (some ⟨k, h⟩)).goto c (.enter ⟨k, h⟩) with
        table := setState s.table ⟨k, h⟩ .running }
    else s.goto c (.scan (k + 1))
  else { s.goto c .idle with lock := none }

end Sys

open Sys

def start (s : Sys ι) (c : ι) (p : Fin NPROC) : Action → Option (Sys ι)
  | .go ok => s.proceed p ok
  | .fault => if s.pc p = .away then
      some { s with table := setKilled s.table p, hit := update s.hit p true } else none
  | .yield => if s.lock = none then
      some { s.sched c p .yield with table := setState s.table p .runnable } else none
  | .wakeup addr => if s.lock = none then
      some { s with table := wakeup1 s.table (some (.other addr)) } else none
  | .sleep addr => if s.lock = none ∧ s.pc p = .away then
      some { s.sched c p .sleep with
        table := setState (setChan s.table p (some (.other addr))) p .sleeping } else none
  | .fork => if s.lock = none ∧ s.pc p = .away then some (s.allocproc p) else none
  | .exit => if s.lock = none ∧ s.pc p = .away ∧ p ≠ initproc then
      some { s.sched c p .exit with table := exitTable s.table p } else none
  | .wait => if s.lock = none ∧ s.pc p = .away then some (s.waitRound c p) else none
  | .kill pid => if s.lock = none ∧ s.pc p = .away then
      some { s with
        table := (kill s.table pid).1
        hit := match findPid s.table pid with
          | some q => update s.hit q (s.hit q || decide ((s.table q).state ≠ .unused))
          | none => s.hit }
      else none

def step (s : Sys ι) (l : ι × Action) : Option (Sys ι) :=
  match (s.cpu l.1).ctl, l.2 with
  | .idle, .go _ => if s.lock = none then some { s.goto l.1 (.scan 0) with lock := some l.1 } else none
  | .idle, .wakeup addr => if s.lock = none then
      some { s with table := wakeup1 s.table (some (.other addr)) } else none
  | .scan k, .go _ => some (s.scan l.1 k)
  | .enter p, .go _ => some (s.goto l.1 (.resumed p))
  | .resumed p, .go _ => s.resume l.1 p
  | .leaving p, .go _ => some (s.goto l.1 (.back p))
  | .back p, .go _ => some ((s.setProc l.1 none).goto l.1 (.scan (p.val + 1)))
  | .running p, a => start s l.1 p a
  | _, _ => none

def Proc.unused : Proc :=
  { state := .unused, pid := 0, parent := none, chan := none, killed := false }

-- After userinit.
def boot : Sys ι :=
  { table := update (fun _ => Proc.unused) initproc
      { Proc.unused with state := .runnable, pid := 1 }
    nextpid := 2
    lock := none
    cpu := fun _ => { proc := none, ctl := .idle }
    pc := fun _ => .away
    context := fun _ => .forkret
    hit := fun _ => false
    created := 1
    forks := []
    waits := [] }

end Xv6.Ptable

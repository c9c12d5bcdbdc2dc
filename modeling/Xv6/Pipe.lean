import Xv6.Lib.Lock
import Xv6.Lib.Ring
import Xv6.Lib.Run

namespace Xv6

open Function Lib

def PIPESIZE : Nat := 512

instance : NeZero PIPESIZE := ⟨by decide⟩

-- struct pipe without its lock.
structure Pipe where
  data : Fin PIPESIZE → UInt8
  nread : UInt32
  nwrite : UInt32
  readopen : Bool
  writeopen : Bool

namespace Pipe

def full (p : Pipe) : Bool := p.nwrite = p.nread + UInt32.ofNat PIPESIZE

def empty (p : Pipe) : Bool := p.nread = p.nwrite

def store (p : Pipe) (b : UInt8) : Pipe :=
  { p with
    data := update p.data (Fin.ofNat PIPESIZE p.nwrite.toNat) b
    nwrite := p.nwrite + 1 }

def front (p : Pipe) : UInt8 := p.data (Fin.ofNat PIPESIZE p.nread.toNat)

def load (p : Pipe) : Pipe := { p with nread := p.nread + 1 }

def close (p : Pipe) (writable : Bool) : Pipe :=
  if writable then { p with writeopen := false } else { p with readopen := false }

def count (p : Pipe) : Nat := (p.nwrite - p.nread).toNat

def ring (p : Pipe) : List UInt8 := contents p.data p.nread.toNat p.count

-- The addresses &p->nread and &p->nwrite.
inductive Chan
  | nread
  | nwrite
deriving DecidableEq

-- The arguments of a call. The identifier is not in the source: it numbers the
-- calls.
structure Write where
  id : Nat
  addr : Nat → UInt8
  n : Int

structure Read where
  id : Nat
  n : Int

-- Where a process is in pipewrite, piperead or pipeclose; since is the value of
-- i when pipewrite last took the lock, and buf is what piperead has put in its
-- buffer.
inductive Pc
  | idle
  | write (w : Write)
  | fill (w : Write) (i since : Nat)
  | notify (w : Write) (i : Nat)
  | block (w : Write) (i : Nat)
  | blocked (w : Write) (i : Nat)
  | written (w : Write)
  | endWrite (w : Write)
  | read (r : Read)
  | test (r : Read)
  | wait (r : Read)
  | waiting (r : Read)
  | copy (r : Read) (buf : List UInt8)
  | copied (r : Read) (buf : List UInt8)
  | endRead (r : Read) (buf : List UInt8)
  | close (writable : Bool)
  | shut (writable : Bool)
  | announce (writable : Bool)
  | endClose

inductive Return
  | write (w : Write) (value : Int)
  | read (r : Read) (buf : List UInt8) (value : Int)

-- The pipe with its lock, and the processes. A process with `sleeping` is
-- SLEEPING on that channel. `stored` and `delivered` record the bytes that have
-- gone through the pipe, each with its call, and `returns` the finished calls.
structure Sys (ι : Type) where
  pipe : Pipe
  lock : Option ι
  freed : Bool
  pc : ι → Pc
  sleeping : ι → Option Chan
  killed : ι → Bool
  calls : Nat
  stored : List (Nat × UInt8)
  delivered : List (Nat × UInt8)
  returns : List Return

inductive Action
  | go
  | write (addr : Nat → UInt8) (n : Int)
  | read (n : Int)
  | close (writable : Bool)
  | kill

variable {ι : Type} [DecidableEq ι]

namespace Sys

def goto (s : Sys ι) (i : ι) (pc : Pc) : Sys ι := { s with pc := update s.pc i pc }

def acquire (s : Sys ι) (i : ι) (pc : Pc) : Option (Sys ι) :=
  if s.freed then none else (Lib.acquire i s.lock).map fun lock => { s with lock := lock }.goto i pc

def release (s : Sys ι) (i : ι) (pc : Pc) : Option (Sys ι) :=
  (Lib.release i s.lock).map fun lock => { s with lock := lock }.goto i pc

def wakeup (s : Sys ι) (chan : Chan) : Sys ι :=
  { s with sleeping := fun i => if s.sleeping i = some chan then none else s.sleeping i }

-- sleep(chan, &p->lock) up to sched: under ptable.lock the process releases the
-- lock and becomes SLEEPING.
def sleep (s : Sys ι) (i : ι) (chan : Chan) (pc : Pc) : Option (Sys ι) :=
  { s with sleeping := update s.sleeping i (some chan) }.release i pc

def resume (s : Sys ι) (i : ι) (pc : Pc) : Option (Sys ι) :=
  if s.sleeping i = none then s.acquire i pc else none

def finish (s : Sys ι) (i : ι) (ret : Return) : Option (Sys ι) :=
  { s with returns := s.returns ++ [ret] }.release i .idle

end Sys

def go (s : Sys ι) (i : ι) : Option (Sys ι) :=
  match s.pc i with
  | .idle => none
  | .write w => s.acquire i (.fill w 0 0)
  | .fill w k since =>
    if (k : Int) < w.n then
      if s.pipe.full then
        if s.pipe.readopen = false ∨ s.killed i then s.finish i (.write w (-1))
        else some (s.goto i (.notify w k))
      else
        some ({ s with
          pipe := s.pipe.store (w.addr k)
          stored := s.stored ++ [(w.id, w.addr k)] }.goto i (.fill w (k + 1) since))
    else some (s.goto i (.written w))
  | .notify w k => some ((s.wakeup .nread).goto i (.block w k))
  | .block w k => s.sleep i .nwrite (.blocked w k)
  | .blocked w k => s.resume i (.fill w k k)
  | .written w => some ((s.wakeup .nread).goto i (.endWrite w))
  | .endWrite w => s.finish i (.write w w.n)
  | .read r => s.acquire i (.test r)
  | .test r =>
    if s.pipe.empty ∧ s.pipe.writeopen then
      if s.killed i then s.finish i (.read r [] (-1)) else some (s.goto i (.wait r))
    else some (s.goto i (.copy r []))
  | .wait r => s.sleep i .nread (.waiting r)
  | .waiting r => s.resume i (.test r)
  | .copy r buf =>
    if (buf.length : Int) < r.n ∧ s.pipe.empty = false then
      some ({ s with
        pipe := s.pipe.load
        delivered := s.delivered ++ [(r.id, s.pipe.front)] }.goto i
          (.copy r (buf ++ [s.pipe.front])))
    else some (s.goto i (.copied r buf))
  | .copied r buf => some ((s.wakeup .nwrite).goto i (.endRead r buf))
  | .endRead r buf => s.finish i (.read r buf buf.length)
  | .close writable => s.acquire i (.shut writable)
  | .shut writable => some ({ s with pipe := s.pipe.close writable }.goto i (.announce writable))
  | .announce writable => some ((s.wakeup (if writable then .nread else .nwrite)).goto i .endClose)
  | .endClose =>
    { s with freed := s.freed || !s.pipe.readopen && !s.pipe.writeopen }.release i .idle

def step (s : Sys ι) (l : ι × Action) : Option (Sys ι) :=
  match s.pc l.1, l.2 with
  | _, .go => go s l.1
  | _, .kill =>
    some { s with
      killed := update s.killed l.1 true
      sleeping := update s.sleeping l.1 none }
  | .idle, .write addr n =>
    some ({ s with calls := s.calls + 1 }.goto l.1 (.write ⟨s.calls, addr, n⟩))
  | .idle, .read n => some ({ s with calls := s.calls + 1 }.goto l.1 (.read ⟨s.calls, n⟩))
  | .idle, .close writable => some (s.goto l.1 (.close writable))
  | _, _ => none

def alloc (data : Fin PIPESIZE → UInt8) : Sys ι :=
  { pipe := { data := data, nread := 0, nwrite := 0, readopen := true, writeopen := true }
    lock := none
    freed := false
    pc := fun _ => .idle
    sleeping := fun _ => none
    killed := fun _ => false
    calls := 0
    stored := []
    delivered := []
    returns := [] }

end Pipe

end Xv6

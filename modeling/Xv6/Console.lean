import Xv6.Lib.Run

namespace Xv6.Console

open Function Lib

def INPUT_BUF : Nat := 128

-- C(x), the characters with the control key, and the others that the source
-- names.
def ctrl (x : Char) : UInt8 := UInt8.ofNat (x.toNat - '@'.toNat)
def LF : UInt8 := 10
def CR : UInt8 := 13
def DEL : UInt8 := 0x7f

-- struct input
structure Input where
  buf : Fin INPUT_BUF → UInt8
  r : UInt32
  w : UInt32
  e : UInt32

instance : NeZero INPUT_BUF := ⟨by decide⟩

def slot (k : UInt32) : Fin INPUT_BUF := Fin.ofNat INPUT_BUF k.toNat

namespace Input

-- The loop of ^U. It runs at most e - w times.
def killLine : Nat → Input → Input
  | 0, s => s
  | k + 1, s =>
    if s.e ≠ s.w ∧ s.buf (slot (s.e - 1)) ≠ LF then killLine k { s with e := s.e - 1 } else s

-- input.buf[input.e++ % INPUT_BUF] = c
def put (s : Input) (c : UInt8) : Input :=
  { s with buf := update s.buf (slot s.e) c, e := s.e + 1 }

def store (s : Input) (c : UInt8) : Input × Bool :=
  if c = LF ∨ c = ctrl 'D' ∨ (s.put c).e = (s.put c).r + UInt32.ofNat INPUT_BUF then
    ({ s.put c with w := (s.put c).e }, true)
  else (s.put c, false)

-- One character of consoleintr. The flag says whether wakeup is called.
def key (s : Input) (c : UInt8) : Input × Bool :=
  if c = ctrl 'P' then (s, false)
  else if c = ctrl 'U' then (killLine (s.e - s.w).toNat s, false)
  else if c = ctrl 'H' ∨ c = DEL then
    if s.e ≠ s.w then ({ s with e := s.e - 1 }, false) else (s, false)
  else if c ≠ 0 ∧ s.e - s.r < UInt32.ofNat INPUT_BUF then s.store (if c = CR then LF else c)
  else (s, false)

end Input

-- Why consoleread leaves its loop: n bytes, a newline, a ^D that it takes, a
-- ^D that it leaves, or the process is killed.
inductive End
  | full
  | newline
  | eof
  | saved
  | killed
deriving DecidableEq

-- The loop of consoleread while it holds cons.lock, for n of target bytes. It
-- gives the bytes it has read and how it ends, or none if it has to wait.
def Input.read (target : Nat) : Nat → Input → Input × List UInt8 × Option End
  | 0, s => (s, [], some .full)
  | n + 1, s =>
    if s.r = s.w then (s, [], none)
    else
      let c := s.buf (slot s.r)
      let s := { s with r := s.r + 1 }
      if c = ctrl 'D' then
        if n + 1 < target then ({ s with r := s.r - 1 }, [], some .saved) else (s, [], some .eof)
      else if c = LF then (s, [c], some .newline)
      else
        let rest := read target n s
        (rest.1, c :: rest.2.1, rest.2.2)

-- A process outside of consoleread, or asleep in it with the bytes it has
-- read. The number of the call is not in the source.
inductive Pc
  | out
  | reading (id : Nat) (n : Int) (dst : List UInt8) (awake : Bool)
deriving DecidableEq

def Pc.wake : Pc → Pc
  | .out => .out
  | .reading id n dst _ => .reading id n dst true

-- A finished call, with the number of bytes consumed before its end by all calls.
structure Return (ι : Type) where
  reader : ι
  id : Nat
  n : Int
  dst : List UInt8
  why : End
  pos : Nat

-- What consoleread returns: target - n, with n counted down for every byte.
def Return.value {ι : Type} (r : Return ι) : Int := if r.why = .killed then -1 else r.dst.length

-- The processes, and the bytes taken from the ring, each with its call.
structure Readers (ι : Type) where
  pc : ι → Pc
  killed : ι → Bool
  calls : Nat
  consumed : List (Nat × UInt8)
  returns : List (Return ι)

structure Sys (δ ι : Type) where
  input : δ
  readers : Readers ι

variable {ι : Type} [DecidableEq ι]

namespace Readers

def goto (s : Readers ι) (i : ι) (pc : Pc) : Readers ι := { s with pc := update s.pc i pc }

def wakeup (s : Readers ι) : Readers ι := { s with pc := fun i => (s.pc i).wake }

def take (s : Readers ι) (id : Nat) (bytes : List UInt8) : Readers ι :=
  { s with consumed := s.consumed ++ bytes.map (Prod.mk id) }

def finish (s : Readers ι) (i : ι) (id : Nat) (n : Int) (dst : List UInt8) (why : End) : Readers ι :=
  let ret : Return ι := { reader := i, id := id, n := n, dst := dst, why := why, pos := s.consumed.length }
  { s with returns := s.returns ++ [ret] }.goto i .out

-- After the loop has read the bytes got: the call returns, or the process is
-- found killed in the inner loop, or it sleeps.
def leave (s : Readers ι) (i : ι) (id : Nat) (n : Int) (dst got : List UInt8) : Option End → Readers ι
  | some why => (s.take id (got ++ if why = .eof then [ctrl 'D'] else [])).finish i id n (dst ++ got) why
  | none =>
    if s.killed i then (s.take id got).finish i id n (dst ++ got) .killed
    else (s.take id got).goto i (.reading id n (dst ++ got) false)

end Readers

inductive Label (ι : Type)
  | intr (cs : List UInt8)
  | read (i : ι) (n : Int)
  | resume (i : ι)
  | kill (i : ι)
  | wake (i : ι)

section Step

variable {δ : Type} (key : δ → UInt8 → δ × Bool) (read : Nat → Nat → δ → δ × List UInt8 × Option End)

-- The loop of consoleintr. Input and readers are kept apart: wakeup changes
-- the readers only.
def consoleintr : List UInt8 → Sys δ ι → Sys δ ι
  | [], s => s
  | c :: cs, s =>
    let r := key s.input c
    consoleintr cs { input := r.1, readers := if r.2 then s.readers.wakeup else s.readers }

def consoleread (s : Sys δ ι) (i : ι) (id : Nat) (n : Int) (dst : List UInt8) : Sys δ ι :=
  let r := read n.toNat (n.toNat - dst.length) s.input
  { input := r.1, readers := s.readers.leave i id n dst r.2.1 r.2.2 }

def step (s : Sys δ ι) : Label ι → Option (Sys δ ι)
  | .intr cs => some (consoleintr key cs s)
  | .read i n =>
    match s.readers.pc i with
    | .out =>
      some (consoleread read { s with readers := { s.readers with calls := s.readers.calls + 1 } }
        i s.readers.calls n [])
    | _ => none
  | .resume i =>
    match s.readers.pc i with
    | .reading id n dst true => some (consoleread read s i id n dst)
    | _ => none
  | .kill i =>
    some { s with readers := { s.readers with
      killed := update s.readers.killed i true
      pc := update s.readers.pc i (s.readers.pc i).wake } }
  | .wake i => some { s with readers := s.readers.goto i (s.readers.pc i).wake }

end Step

def ringStep : Sys Input ι → Label ι → Option (Sys Input ι) := step Input.key Input.read

end Xv6.Console

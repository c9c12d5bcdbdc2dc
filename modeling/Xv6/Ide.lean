import Xv6.Lib.Chain
import Xv6.Lib.Run
import Xv6.Param

namespace Xv6.Ide

open Function Lib

def SECTOR_SIZE : Nat := 512

-- The fields of struct buf that the drivers read and write, and B_VALID and
-- B_DIRTY of its flags.
structure Buf where
  valid : Bool
  dirty : Bool
  dev : Nat
  blockno : Nat
  data : Block

-- (b->flags & (B_VALID|B_DIRTY)) == B_VALID
def Buf.synced (b : Buf) : Bool := b.valid && !b.dirty

-- memide.c: the disk is an array of blocks. None is a panic.
namespace Memide

def iderw (disksize : Nat) (holdingsleep : Bool) (b : Buf) (memdisk : Nat → Block) :
    Option (Buf × (Nat → Block)) :=
  if !holdingsleep then none
  else if b.synced then none
  else if b.dev ≠ 1 then none
  else if disksize ≤ b.blockno then none
  else if b.dirty then
    some ({ b with dirty := false, valid := true }, update memdisk b.blockno b.data)
  else some ({ b with data := memdisk b.blockno, valid := true }, memdisk)

-- The requests of a list one after the other, each for a locked buffer, with
-- the buffers they leave.
def serve (disksize : Nat) : List Buf → (Nat → Block) → Option (List Buf × (Nat → Block))
  | [], memdisk => some ([], memdisk)
  | b :: bs, memdisk =>
    (iderw disksize true b memdisk).bind fun r =>
      (serve disksize bs r.2).map fun rest => (r.1 :: rest.1, rest.2)

end Memide

-- ide.c

-- The registers of the controller when the command byte is written, with the
-- words that outsl transfers after a write command.
structure Command where
  nsect : Nat
  lba0 : Nat
  lba1 : Nat
  lba2 : Nat
  device : Nat
  write : Option Block

def Command.drive (c : Command) : Nat := c.device >>> 4 &&& 1

def Command.sector (c : Command) : Nat :=
  c.lba0 ||| c.lba1 <<< 8 ||| c.lba2 <<< 16 ||| (c.device &&& 0x0f) <<< 24

-- The controller: no command, one that has been started, or one that has been
-- carried out and whose interrupt is pending, with the words insl would read.
inductive Hw
  | ready
  | busy (c : Command)
  | done (c : Command) (words : Block)

-- A process outside of iderw, or in its loop for the request with a number.
inductive Pc (β : Type)
  | out
  | wait (b : β) (n : Nat) (awake : Bool)
deriving DecidableEq

-- The processes and the buffers, with the driver's variables and the drives.
-- The three lists record the requests as they are appended to the queue, as
-- they are started and as they are completed.
structure Sys (ι β : Type) where
  buf : β → Buf
  lock : β → Option ι
  pc : ι → Pc β
  havedisk1 : Bool
  idequeue : Option β
  qnext : β → Option β
  hw : Hw
  disks : Nat → Nat → Block
  appended : List (β × Buf)
  started : List β
  completed : List (β × Buf)

variable {ι β : Type} [DecidableEq ι] [DecidableEq β]

def sector_per_block : Nat := BSIZE / SECTOR_SIZE

def Buf.command (b : Buf) : Command :=
  let sector := b.blockno * sector_per_block
  { nsect := sector_per_block
    lba0 := sector &&& 0xff
    lba1 := sector >>> 8 &&& 0xff
    lba2 := sector >>> 16 &&& 0xff
    device := 0xe0 ||| (b.dev &&& 1) <<< 4 ||| (sector >>> 24 &&& 0x0f)
    write := if b.dirty then some b.data else none }

-- None is a panic, or idewait on a drive that stays busy.
def idestart (s : Sys ι β) (b : β) : Option (Sys ι β) :=
  if FSSIZE ≤ (s.buf b).blockno then none
  else if 7 < sector_per_block then none
  else match s.hw with
    | .busy _ => none
    | _ => some { s with hw := .busy (s.buf b).command, started := s.started ++ [b] }

def Buf.complete (b : Buf) (words : Block) : Buf :=
  { (if b.dirty then b else { b with data := words }) with valid := true, dirty := false }

def Pc.wakeup (b : β) : Pc β → Pc β
  | .out => .out
  | .wait c n awake => .wait c n (awake || c = b)

-- The interrupt for a command that left words in the data register.
def ideintr (s : Sys ι β) (words : Block) : Option (Sys ι β) :=
  match s.idequeue with
  | none => some { s with hw := .ready }
  | some b =>
    let s' : Sys ι β := { s with
      idequeue := s.qnext b
      buf := update s.buf b ((s.buf b).complete words)
      pc := fun i => (s.pc i).wakeup b
      hw := .ready
      completed := s.completed ++ [(b, (s.buf b).complete words)] }
    match s'.idequeue with
    | none => some s'
    | some b' => idestart s' b'

def test (s : Sys ι β) (i : ι) (b : β) (n : Nat) : Sys ι β :=
  { s with pc := update s.pc i (if (s.buf b).synced then .out else .wait b n false) }

variable [Fintype β]

def enqueue (s : Sys ι β) (b : β) : Option (Sys ι β) :=
  let qnext := update s.qnext b none
  (walk s.idequeue qnext (Fintype.card β + 1) .head).map fun pp =>
    { s with
      idequeue := pp.setHead s.idequeue b
      qnext := pp.setNext qnext b
      appended := s.appended ++ [(b, s.buf b)] }

-- From the call to the first test of the loop, under idelock.
def iderw (s : Sys ι β) (i : ι) (b : β) : Option (Sys ι β) :=
  if s.lock b ≠ some i then none
  else if (s.buf b).synced then none
  else if (s.buf b).dev ≠ 0 ∧ s.havedisk1 = false then none
  else (enqueue s b).bind fun s' =>
    (if s'.idequeue = some b then idestart s' b else some s').map fun s' =>
      test s' i b s.appended.length

-- The drive carries out the command that has been started.
def perform (s : Sys ι β) : Option (Sys ι β) :=
  match s.hw with
  | .busy c =>
    match c.write with
    | some data => some { s with
        hw := .done c data
        disks := update s.disks c.drive (update (s.disks c.drive) c.sector data) }
    | none => some { s with hw := .done c (s.disks c.drive c.sector) }
  | _ => none

inductive Label (ι β : Type)
  | lock (i : ι) (b : β)
  | unlock (i : ι) (b : β)
  | edit (i : ι) (b : β) (new : Buf)
  | iderw (i : ι) (b : β)
  | wake (i : ι)
  | resume (i : ι)
  | perform
  | intr

def step (s : Sys ι β) : Label ι β → Option (Sys ι β)
  | .lock i b =>
    if s.pc i = .out ∧ s.lock b = none then
      some { s with lock := update s.lock b (some i) }
    else none
  | .unlock i b =>
    if s.pc i = .out ∧ s.lock b = some i then
      some { s with lock := update s.lock b none }
    else none
  | .edit i b new =>
    if s.pc i = .out ∧ s.lock b = some i then
      some { s with buf := update s.buf b new }
    else none
  | .iderw i b => if s.pc i = .out then iderw s i b else none
  | .wake i =>
    match s.pc i with
    | .out => none
    | .wait b n _ => some { s with pc := update s.pc i (.wait b n true) }
  | .resume i =>
    match s.pc i with
    | .wait b n true => some (test s i b n)
    | _ => none
  | .perform => perform s
  | .intr =>
    match s.hw with
    | .done _ words => ideintr s words
    | _ => none

def InRange (s : Sys ι β) : Label ι β → Prop
  | .iderw _ b => (s.buf b).dev = 1 ∧ (s.buf b).blockno < FSSIZE
  | _ => True

structure Idle (s : Sys ι β) : Prop where
  havedisk1 : s.havedisk1 = true
  queue : s.idequeue = none
  hw : s.hw = .ready
  out : ∀ i, s.pc i = .out
  appended : s.appended = []
  started : s.started = []
  completed : s.completed = []

end Xv6.Ide

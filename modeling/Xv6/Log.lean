import Xv6.Param
import Xv6.Lib.Writes

namespace Xv6.Log

open Function Lib

-- log.start and log.size, as initlog copies them from the super block.
structure Area where
  start : Nat
  size : Nat

def Area.Region (log : Area) (b : Nat) : Prop := log.start ≤ b ∧ b < log.start + log.size

instance (log : Area) (b : Nat) : Decidable (log.Region b) := inferInstanceAs (Decidable (_ ∧ _))

-- struct logheader. The count n is the length of the list; the array it
-- stands for has LOGSIZE entries.
structure Header where
  block : List UInt32
  length_le : block.length ≤ LOGSIZE

def Header.empty : Header := ⟨[], Nat.zero_le _⟩

-- The block device under the buffer cache. `cache` holds the buffers whose
-- contents are valid, and `writes` the block writes issued so far.
structure Dev where
  disk : Nat → Block
  cache : Nat → Option Block
  writes : List (Nat × Block)

abbrev DevM := StateM Dev

def bread (b : Nat) : DevM Block := do
  let s ← get
  match s.cache b with
  | some data => return data
  | none =>
    set { s with cache := update s.cache b (some (s.disk b)) }
    return s.disk b

def bwrite (b : Nat) (data : Block) : DevM Unit :=
  modify fun s =>
    { disk := update s.disk b data
      cache := update s.cache b (some data)
      writes := s.writes ++ [(b, data)] }

-- Copy committed blocks from log to their home location.
def installTransFrom (log : Area) (tail : Nat) : List UInt32 → DevM Unit
  | [] => return
  | dst :: rest => do
      let lbuf ← bread (log.start + tail + 1)
      let _ ← bread dst.toNat
      bwrite dst.toNat lbuf
      installTransFrom log (tail + 1) rest

def installTrans (log : Area) (lh : Header) : DevM Unit := installTransFrom log 0 lh.block

-- lh->n is an int: a negative count reads no entry.
def headerN (buf : Block) : Int := (buf.getU32 0).toBitVec.toInt

-- No header is read when the count exceeds the array: the loop of read_head
-- would then store past the end of log.lh.
def getHeader (buf : Block) : Option Header :=
  if h : (headerN buf).toNat ≤ LOGSIZE then
    some ⟨buf.getWords 4 (headerN buf).toNat, by simpa [Bytes.getWords] using h⟩
  else none

-- Entries of the block past the new count keep their old bytes.
def putHeader (lh : Header) (buf : Block) : Block :=
  (buf.putU32 0 (UInt32.ofNat lh.block.length)).putWords 4 lh.block

def readHead (log : Area) : DevM (Option Header) := do
  let buf ← bread log.start
  return getHeader buf

def writeHead (log : Area) (lh : Header) : DevM Unit := do
  let buf ← bread log.start
  bwrite log.start (putHeader lh buf)

-- The result tells whether the header could be read.
def recoverFromLog (log : Area) : DevM Bool := do
  match ← readHead log with
  | none => return false
  | some lh =>
    installTrans log lh
    writeHead log Header.empty
    return true

-- Copy modified blocks from cache to log.
def writeLogFrom (log : Area) (tail : Nat) : List UInt32 → DevM Unit
  | [] => return
  | src :: rest => do
      let _ ← bread (log.start + tail + 1)
      let from_ ← bread src.toNat
      bwrite (log.start + tail + 1) from_
      writeLogFrom log (tail + 1) rest

def writeLog (log : Area) (lh : Header) : DevM Unit := writeLogFrom log 0 lh.block

def commit (log : Area) (lh : Header) : DevM Unit := do
  if 0 < lh.block.length then
    writeLog log lh
    writeHead log lh
    installTrans log lh
    writeHead log Header.empty

def issued {α : Type} (m : DevM α) (s : Dev) : List (Nat × Block) :=
  (m.run { s with writes := [] }).2.writes

-- A machine that has just booted has an empty buffer cache.
def boot (disk : Nat → Block) : Dev := { disk := disk, cache := fun _ => none, writes := [] }

-- The disk when the power fails after `count` of the writes reached it.
def crashCommit (log : Area) (lh : Header) (s : Dev) (count : Nat) : Nat → Block :=
  applyWrites ((issued (commit log lh) s).take count) s.disk

def crashRecover (log : Area) (disk : Nat → Block) (count : Nat) : Nat → Block :=
  applyWrites ((issued (recoverFromLog log) (boot disk)).take count) disk

-- Boots whose recovery is cut short, one count of writes each.
def reboots (log : Area) (disk : Nat → Block) : List Nat → Nat → Block
  | [] => disk
  | count :: counts => reboots log (crashRecover log disk count) counts

def recovered (log : Area) (disk : Nat → Block) : Nat → Block :=
  ((recoverFromLog log).run (boot disk)).2.disk

end Xv6.Log

import Xv6.Fs.Layout

namespace Xv6.Fs

open Function Lib

inductive Panic
  | ballocOutOfBlocks
  | freeingFreeBlock
  | iallocNoInodes
  | igetNoInodes
  | ilock
  | ilockNoType
  | iunlock
  | bmapOutOfRange
  | dirlookupNotDir
  | dirlookupRead
  | dirlinkRead
  | dirlink
  | isdiremptyReadi
  | unlinkNlink
  | unlinkWritei
  | createDots
  | createDirlink
  | filedup
  | fileclose
  | fileread
  | filewrite
  | shortFilewrite
  | initExiting
deriving DecidableEq, Repr

-- How a call can fail to return: by a panic, or in acquiresleep on a lock that
-- the caller holds itself.
inductive Stop
  | panic (p : Panic)
  | asleep
deriving DecidableEq, Repr

-- struct inode without its sleep-lock.
structure Inode where
  dev : Nat
  inum : Nat
  ref : Int
  valid : Bool
  copy : Dinode

inductive FdType
  | none
  | pipe
  | inode
deriving DecidableEq, Repr

structure File where
  type : FdType
  ref : Int
  readable : Bool
  writable : Bool
  pipe : Nat
  ip : Fin NINODE
  off : UInt32

-- The ends of a pipe that are open and how often kfree was called on its page;
-- its data are not modelled here.
structure Pipe where
  readopen : Bool
  writeopen : Bool
  kfrees : Nat

structure Proc where
  ofile : Fin NOFILE → Option (Fin NFILE)
  cwd : Option (Fin NINODE)

-- What a call does that has to be inside a transaction, and the transactions.
inductive Event
  | beginOp
  | endOp
  | iput
  | logWrite (b : Nat)
deriving DecidableEq, Repr

-- The state of the file system code. `disk` is the contents of the blocks as
-- bread returns them and `locks` the sleep-locks of the inodes.
structure Kernel where
  disk : Nat → Block
  icache : Fin NINODE → Inode
  locks : Fin NINODE → Bool
  ftable : Fin NFILE → File
  proc : Fin NPROC → Proc
  pipes : List Pipe
  trace : List Event

abbrev FsM := EStateM Stop Kernel

def panic {α : Type} (p : Panic) : FsM α := throw (.panic p)

-- if(c) m;
def doIf (c : Prop) [Decidable c] (m : FsM Unit) : FsM Unit := if c then m else pure ()

def panicIf (c : Prop) [Decidable c] (p : Panic) : FsM Unit := doIf c (panic p)

def emit (e : Event) : FsM Unit := modify fun s => { s with trace := s.trace ++ [e] }

def beginOp : FsM Unit := emit .beginOp

def endOp : FsM Unit := emit .endOp

def bread (b : Nat) : FsM Block := return (← get).disk b

-- The change of a buffer that its log_write records.
def logWrite (b : Nat) (blk : Block) : FsM Unit := do
  modify fun s => { s with disk := update s.disk b blk }
  emit (.logWrite b)

def getInode (ip : Fin NINODE) : FsM Inode := return (← get).icache ip

def setInode (ip : Fin NINODE) (node : Inode) : FsM Unit :=
  modify fun s => { s with icache := update s.icache ip node }

-- ip->field = ... for the fields that are a copy of the disk inode.
def setCopy (ip : Fin NINODE) (d : Dinode) : FsM Unit := do
  setInode ip { (← getInode ip) with copy := d }

def acquiresleep (ip : Fin NINODE) : FsM Unit := do
  doIf ((← get).locks ip) (throw .asleep)
  modify fun s => { s with locks := update s.locks ip true }

def releasesleep (ip : Fin NINODE) : FsM Unit :=
  modify fun s => { s with locks := update s.locks ip false }

end Xv6.Fs

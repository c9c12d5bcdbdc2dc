import Xv6.Fs.Dir

namespace Xv6.Fs

open Lib

variable (sb : Super) (dev : Devsw)

def getFile (f : Fin NFILE) : FsM File := return (← get).ftable f

def setFile (f : Fin NFILE) (file : File) : FsM Unit :=
  modify fun s => { s with ftable := Function.update s.ftable f file }

def filealloc : FsM (Option (Fin NFILE)) := do
  let s ← get
  match (List.finRange NFILE).find? fun f => (s.ftable f).ref = 0 with
  | some f =>
    setFile f { s.ftable f with ref := 1 }
    return some f
  | none => return none

def filedup (f : Fin NFILE) : FsM (Fin NFILE) := do
  let file ← getFile f
  panicIf (file.ref < 1) .filedup
  setFile f { file with ref := file.ref + 1 }
  return f

def Pipe.closeEnd (writable : Bool) (p : Pipe) : Pipe :=
  if writable then { p with writeopen := false } else { p with readopen := false }

-- if(p->readopen == 0 && p->writeopen == 0) kfree((char*)p);
def Pipe.kfreeClosed (p : Pipe) : Pipe :=
  if p.readopen = false ∧ p.writeopen = false then { p with kfrees := p.kfrees + 1 } else p

def pipeclose (pipe : Nat) (writable : Bool) : FsM Unit :=
  modify fun s => { s with
    pipes := s.pipes.modify pipe fun p => (p.closeEnd writable).kfreeClosed }

def fileclose (f : Fin NFILE) : FsM Unit := do
  let file ← getFile f
  panicIf (file.ref < 1) .fileclose
  if file.ref - 1 > 0 then setFile f { file with ref := file.ref - 1 }
  else
    setFile f { file with ref := 0, type := .none }
    match file.type with
    | .pipe => pipeclose file.pipe file.writable
    | .inode =>
      beginOp
      iput sb file.ip
      endOp
    | .none => return ()

-- struct stat without the device.
structure Stat where
  type : UInt16
  ino : Nat
  nlink : UInt16
  size : UInt32

def stati (ip : Fin NINODE) : FsM Stat := do
  let node ← getInode ip
  return { type := node.copy.type, ino := node.inum, nlink := node.copy.nlink, size := node.copy.size }

def filestat (f : Fin NFILE) : FsM (Option Stat) := do
  let file ← getFile f
  if file.type = .inode then
    ilock sb file.ip
    let st ← stati file.ip
    iunlock file.ip
    return some st
  else return none

-- if((r = ...) > 0) f->off += r;
def advance (f : Fin NFILE) (r : Nat) : FsM Unit := do
  if r > 0 then
    let file ← getFile f
    setFile f { file with off := file.off + UInt32.ofNat r }

-- piperead and pipewrite are not modelled here; they leave the file system alone.
def fileread (f : Fin NFILE) (n : UInt32) : FsM (Option (List UInt8)) := do
  let file ← getFile f
  if file.readable = false then return none
  else match file.type with
    | .pipe => return none
    | .inode =>
      ilock sb file.ip
      let r ← readi sb dev file.ip file.off n
      advance f (r.getD []).length
      iunlock file.ip
      return r
    | .none => panic .fileread

def maxChunk : Nat := (MAXOPBLOCKS - 1 - 1 - 2) / 2 * 512

-- The loop of filewrite: one transaction for each chunk. The fuel is the
-- number of bytes.
def filewriteLoop (f : Fin NFILE) : Nat → List UInt8 → FsM Bool
  | 0, src => return src = []
  | fuel + 1, src =>
    if src = [] then return true
    else do
      let n1 := min src.length maxChunk
      beginOp
      let file ← getFile f
      ilock sb file.ip
      let r ← writei sb dev file.ip (src.take n1) (← getFile f).off
      advance f (r.getD 0)
      iunlock file.ip
      endOp
      match r with
      | none => return false
      | some r => if r ≠ n1 then panic .shortFilewrite else filewriteLoop f fuel (src.drop r)

def filewrite (f : Fin NFILE) (src : List UInt8) : FsM (Option Nat) := do
  let file ← getFile f
  if file.writable = false then return none
  else match file.type with
    | .pipe => return none
    | .inode => return if ← filewriteLoop sb dev f src.length src then some src.length else none
    | .none => panic .filewrite

end Xv6.Fs

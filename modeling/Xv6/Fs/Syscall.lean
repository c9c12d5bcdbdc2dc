import Xv6.Fs.File

namespace Xv6.Fs

open Function Lib

variable (sb : Super) (dev : Devsw) (p : Fin NPROC)

-- Arguments are what argint, argstr and argptr give; none is a failed fetch.

def getProc : FsM Proc := return (← get).proc p

def setProc (proc : Proc) : FsM Unit :=
  modify fun s => { s with proc := update s.proc p proc }

def setOfile (fd : Fin NOFILE) (f : Option (Fin NFILE)) : FsM Unit := do
  let proc ← getProc p
  setProc p { proc with ofile := update proc.ofile fd f }

def Proc.file (proc : Proc) : Option Int → Option (Fin NOFILE × Fin NFILE)
  | none => none
  | some fd =>
    if h : 0 ≤ fd ∧ fd < NOFILE then
      (proc.ofile ⟨fd.toNat, by omega⟩).map fun f => (⟨fd.toNat, by omega⟩, f)
    else none

def argfd (fd : Option Int) : FsM (Option (Fin NOFILE × Fin NFILE)) :=
  return (← getProc p).file fd

def fdalloc (f : Fin NFILE) : FsM (Option (Fin NOFILE)) := do
  let proc ← getProc p
  match (List.finRange NOFILE).find? fun fd => proc.ofile fd = none with
  | some fd =>
    setOfile p fd (some f)
    return some fd
  | none => return none

def sysDup (fd : Option Int) : FsM Int := do
  match ← argfd p fd with
  | none => return -1
  | some (_, f) =>
    match ← fdalloc p f with
    | none => return -1
    | some fd =>
      let _ ← filedup f
      return fd.val

def sysRead (fd : Option Int) (n : Option UInt32) : FsM (Option (List UInt8)) := do
  match ← argfd p fd, n with
  | some (_, f), some n => fileread sb dev f n
  | _, _ => return none

def sysWrite (fd : Option Int) (src : Option (List UInt8)) : FsM Int := do
  match ← argfd p fd, src with
  | some (_, f), some src =>
    match ← filewrite sb dev f src with
    | some n => return n
    | none => return -1
  | _, _ => return -1

def sysClose (fd : Option Int) : FsM Int := do
  match ← argfd p fd with
  | none => return -1
  | some (fd, f) =>
    setOfile p fd none
    fileclose sb f
    return 0

def sysFstat (fd : Option Int) (st : Bool) : FsM (Option Stat) := do
  match ← argfd p fd with
  | some (_, f) => if st then filestat sb f else return none
  | none => return none

def setNlink (ip : Fin NINODE) (nlink : UInt16 → UInt16) : FsM Unit := do
  let d := (← getInode ip).copy
  setCopy ip { d with nlink := nlink d.nlink }
  iupdate sb ip

-- The label bad of sys_link.
def linkBad (ip : Fin NINODE) : FsM Int := do
  ilock sb ip
  setNlink sb ip (· - 1)
  iunlockput sb ip
  endOp
  return -1

-- dp->dev != ip->dev || dirlink(dp, name, ip->inum) < 0
def linkEntry (ip dp : Fin NINODE) (name : List UInt8) : FsM Bool := do
  if (← getInode dp).dev ≠ (← getInode ip).dev then return false
  else dirlink sb dev dp name (← getInode ip).inum

def sysLink (old new : Option (List UInt8)) : FsM Int := do
  match old, new with
  | some old, some new =>
    beginOp
    match ← namei sb dev p old with
    | none =>
      endOp
      return -1
    | some ip =>
      ilock sb ip
      if (← getInode ip).copy.type = T_DIR then
        iunlockput sb ip
        endOp
        return -1
      else
        setNlink sb ip (· + 1)
        iunlock ip
        match ← nameiparent sb dev p new with
        | none => linkBad sb ip
        | some (dp, name) =>
          ilock sb dp
          if ← linkEntry sb dev ip dp name then
            iunlockput sb dp
            iput sb ip
            endOp
            return 0
          else
            iunlockput sb dp
            linkBad sb ip
  | _, _ => return -1

def isdiremptyFrom (dp : Fin NINODE) : List Nat → FsM Bool
  | [] => return true
  | off :: offs => do
      let de ← readDirent sb dev dp off .isdiremptyReadi
      if de.inum ≠ 0 then return false else isdiremptyFrom dp offs

def isdirempty (dp : Fin NINODE) : FsM Bool := do
  isdiremptyFrom sb dev dp (direntOffsets 2 (← getInode dp).copy.size.toNat)

-- ip->type == T_DIR && !isdirempty(ip)
def occupied (ip : Fin NINODE) : FsM Bool := do
  if (← getInode ip).copy.type = T_DIR then return !(← isdirempty sb dev ip) else return false

-- The label bad of sys_unlink, up to end_op.
def unlinkBad (dp : Fin NINODE) : FsM Int := do
  iunlockput sb dp
  return -1

def zeroDirent : Dirent := { inum := 0, name := List.replicate DIRSIZ 0 }

def unlinkEntry (dp ip : Fin NINODE) (off : Nat) : FsM Int := do
  writeDirent sb dev dp zeroDirent off .unlinkWritei
  doIf ((← getInode ip).copy.type = T_DIR) (setNlink sb dp (· - 1))
  iunlockput sb dp
  setNlink sb ip (· - 1)
  iunlockput sb ip
  return 0

-- sys_unlink from ilock(dp) to end_op.
def unlinkFrom (dp : Fin NINODE) (name : List UInt8) : FsM Int := do
  ilock sb dp
  if namecmp name dot = 0 ∨ namecmp name dotdot = 0 then unlinkBad sb dp
  else
    match ← dirlookup sb dev dp name with
    | none => unlinkBad sb dp
    | some (ip, off) =>
      ilock sb ip
      panicIf (short (← getInode ip).copy.nlink < 1) .unlinkNlink
      if ← occupied sb dev ip then
        iunlockput sb ip
        unlinkBad sb dp
      else unlinkEntry sb dev dp ip off

def sysUnlink (path : Option (List UInt8)) : FsM Int := do
  match path with
  | none => return -1
  | some path =>
    beginOp
    match ← nameiparent sb dev p path with
    | none =>
      endOp
      return -1
    | some (dp, name) =>
      let r ← unlinkFrom sb dev dp name
      endOp
      return r

-- The entries . and .. of a new directory ip in dp.
def createDots (dp ip : Fin NINODE) : FsM Unit := do
  setNlink sb dp (· + 1)
  let linked ← dirlink sb dev ip dot (← getInode ip).inum
  panicIf (linked = false) .createDots
  let linked ← dirlink sb dev ip dotdot (← getInode dp).inum
  panicIf (linked = false) .createDots

-- The part of create that makes a new inode ip in the locked directory dp.
def createNew (dp : Fin NINODE) (name : List UInt8) (type major minor : UInt16) :
    FsM (Fin NINODE) := do
  let ip ← ialloc sb type
  ilock sb ip
  setCopy ip { (← getInode ip).copy with major := major, minor := minor, nlink := 1 }
  iupdate sb ip
  let inum := (← getInode ip).inum
  doIf (type = T_DIR) (createDots sb dev dp ip)
  let linked ← dirlink sb dev dp name inum
  panicIf (linked = false) .createDirlink
  iunlockput sb dp
  return ip

def create (path : List UInt8) (type major minor : UInt16) : FsM (Option (Fin NINODE)) := do
  match ← nameiparent sb dev p path with
  | none => return none
  | some (dp, name) =>
    ilock sb dp
    match ← dirlookup sb dev dp name with
    | some (ip, _) =>
      iunlockput sb dp
      ilock sb ip
      if type = T_FILE ∧ (← getInode ip).copy.type = T_FILE then return some ip
      else
        iunlockput sb ip
        return none
    | none => return some (← createNew sb dev dp name type major minor)

def openInode (path : List UInt8) (omode : UInt32) : FsM (Option (Fin NINODE)) := do
  if omode &&& UInt32.ofNat O_CREATE ≠ 0 then create sb dev p path T_FILE 0 0
  else
    match ← namei sb dev p path with
    | none => return none
    | some ip =>
      ilock sb ip
      if (← getInode ip).copy.type = T_DIR ∧ omode ≠ UInt32.ofNat O_RDONLY then
        iunlockput sb ip
        return none
      else return some ip

def openBad (ip : Fin NINODE) : FsM Int := do
  iunlockput sb ip
  endOp
  return -1

def openFile (ip : Fin NINODE) (omode : UInt32) : FsM Int := do
  match ← filealloc with
  | none => openBad sb ip
  | some f =>
    match ← fdalloc p f with
    | none =>
      fileclose sb f
      openBad sb ip
    | some fd =>
      iunlock ip
      endOp
      setFile f { (← getFile f) with
        type := .inode, ip := ip, off := 0
        readable := omode &&& UInt32.ofNat O_WRONLY = 0
        writable := omode &&& UInt32.ofNat O_WRONLY ≠ 0 ∨ omode &&& UInt32.ofNat O_RDWR ≠ 0 }
      return fd.val

def sysOpen (path : Option (List UInt8)) (omode : Option UInt32) : FsM Int := do
  match path, omode with
  | some path, some omode =>
    beginOp
    match ← openInode sb dev p path omode with
    | none =>
      endOp
      return -1
    | some ip => openFile sb p ip omode
  | _, _ => return -1

-- sys_mkdir and sys_mknod; the arguments are fetched inside the transaction.
def makeNode (path : Option (List UInt8)) (type : UInt16) (majorMinor : Option (UInt16 × UInt16)) :
    FsM Int := do
  beginOp
  match path, majorMinor with
  | some path, some (major, minor) =>
    match ← create sb dev p path type major minor with
    | none =>
      endOp
      return -1
    | some ip =>
      iunlockput sb ip
      endOp
      return 0
  | _, _ =>
    endOp
    return -1

def sysMkdir (path : Option (List UInt8)) : FsM Int := makeNode sb dev p path T_DIR (some (0, 0))

def sysMknod (path : Option (List UInt8)) (majorMinor : Option (UInt16 × UInt16)) : FsM Int :=
  makeNode sb dev p path T_DEV majorMinor

-- iput(curproc->cwd);
def iputCwd : FsM Unit := do
  match (← getProc p).cwd with
  | some cwd => iput sb cwd
  | none => return ()

def chdirInode (ip : Fin NINODE) : FsM Int := do
  ilock sb ip
  if (← getInode ip).copy.type ≠ T_DIR then
    iunlockput sb ip
    endOp
    return -1
  else
    iunlock ip
    iputCwd sb p
    endOp
    setProc p { (← getProc p) with cwd := some ip }
    return 0

def sysChdir (path : Option (List UInt8)) : FsM Int := do
  beginOp
  match path with
  | none =>
    endOp
    return -1
  | some path =>
    match ← namei sb dev p path with
    | none =>
      endOp
      return -1
    | some ip => chdirInode sb p ip

-- pipe.c; `page` tells whether kalloc has a page.
def openPipe (f0 f1 : Fin NFILE) : FsM Unit := do
  let pipe := (← get).pipes.length
  modify fun s => { s with pipes := s.pipes ++ [{ readopen := true, writeopen := true, kfrees := 0 }] }
  setFile f0 { (← getFile f0) with type := .pipe, readable := true, writable := false, pipe := pipe }
  setFile f1 { (← getFile f1) with type := .pipe, readable := false, writable := true, pipe := pipe }

def pipealloc (page : Bool) : FsM (Option (Fin NFILE × Fin NFILE)) := do
  match ← filealloc with
  | none => return none
  | some f0 =>
    match ← filealloc with
    | none =>
      fileclose sb f0
      return none
    | some f1 =>
      if page then
        openPipe f0 f1
        return some (f0, f1)
      else
        fileclose sb f0
        fileclose sb f1
        return none

def pipeBad (rf wf : Fin NFILE) : FsM (Option (Fin NOFILE × Fin NOFILE)) := do
  fileclose sb rf
  fileclose sb wf
  return none

def sysPipe (fd : Bool) (page : Bool) : FsM (Option (Fin NOFILE × Fin NOFILE)) := do
  if fd = false then return none
  else
    match ← pipealloc sb page with
    | none => return none
    | some (rf, wf) =>
      match ← fdalloc p rf with
      | none => pipeBad sb rf wf
      | some fd0 =>
        match ← fdalloc p wf with
        | none =>
          setOfile p fd0 none
          pipeBad sb rf wf
        | some fd1 => return some (fd0, fd1)

-- proc.c. The child is a process that is not in use.
def forkFile (np : Fin NPROC) (fd : Fin NOFILE) : FsM Unit := do
  match (← getProc p).ofile fd with
  | some f =>
    let f ← filedup f
    setOfile np fd (some f)
  | none => return ()

def forkFiles (np : Fin NPROC) : List (Fin NOFILE) → FsM Unit
  | [] => return ()
  | fd :: fds => do
      forkFile p np fd
      forkFiles np fds

def forkCwd (np : Fin NPROC) : FsM Unit := do
  match (← getProc p).cwd with
  | some cwd =>
    let cwd ← idup cwd
    setProc np { (← getProc np) with cwd := some cwd }
  | none => return ()

def fork (np : Fin NPROC) : FsM Int := do
  if (← getProc np).cwd ≠ none then return -1
  else
    forkFiles p np (List.finRange NOFILE)
    forkCwd p np
    return np.val

def initproc : Fin NPROC := ⟨0, by decide⟩

def exitFile (fd : Fin NOFILE) : FsM Unit := do
  match (← getProc p).ofile fd with
  | some f =>
    fileclose sb f
    setOfile p fd none
  | none => return ()

def exitFiles : List (Fin NOFILE) → FsM Unit
  | [] => return ()
  | fd :: fds => do
      exitFile sb p fd
      exitFiles fds

def exit : FsM Unit := do
  panicIf (p = initproc) .initExiting
  exitFiles sb p (List.finRange NOFILE)
  beginOp
  iputCwd sb p
  endOp
  setProc p { (← getProc p) with cwd := none }

end Xv6.Fs

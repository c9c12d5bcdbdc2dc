import Xv6.Fs.Inode

namespace Xv6.Fs

open Lib

variable (sb : Super) (dev : Devsw)

def direntOffsets (start size : Nat) : List Nat :=
  (List.range ((size + DIRENT - 1) / DIRENT - start)).map fun k => (start + k) * DIRENT

-- readi of one entry; anything but a whole entry is a panic.
def readDirent (dp : Fin NINODE) (off : Nat) (failure : Panic) : FsM Dirent := do
  match ← readi sb dev dp (UInt32.ofNat off) (UInt32.ofNat DIRENT) with
  | some bytes => if bytes.length = DIRENT then return Dirent.ofBytes bytes else panic failure
  | none => panic failure

def dirlookupFrom (dp : Fin NINODE) (name : List UInt8) : List Nat → FsM (Option (Fin NINODE × Nat))
  | [] => return none
  | off :: offs => do
      let de ← readDirent sb dev dp off .dirlookupRead
      if de.inum = 0 then dirlookupFrom dp name offs
      else if namecmp name de.name = 0 then
        return some (← iget (← getInode dp).dev de.inum.toNat, off)
      else dirlookupFrom dp name offs

-- The inode that the entry names, and the offset of the entry.
def dirlookup (dp : Fin NINODE) (name : List UInt8) : FsM (Option (Fin NINODE × Nat)) := do
  let d := (← getInode dp).copy
  panicIf (d.type ≠ T_DIR) .dirlookupNotDir
  dirlookupFrom sb dev dp name (direntOffsets 0 d.size.toNat)

def emptyDirent (dp : Fin NINODE) (fin : Nat) : List Nat → FsM Nat
  | [] => return fin
  | off :: offs => do
      let de ← readDirent sb dev dp off .dirlinkRead
      if de.inum = 0 then return off else emptyDirent dp fin offs

-- writei of one entry; anything but a whole entry is a panic.
def writeDirent (dp : Fin NINODE) (de : Dirent) (off : Nat) (failure : Panic) : FsM Unit := do
  let r ← writei sb dev dp de.bytes (UInt32.ofNat off)
  panicIf (r ≠ some DIRENT) failure

def dirlink (dp : Fin NINODE) (name : List UInt8) (inum : Nat) : FsM Bool := do
  match ← dirlookup sb dev dp name with
  | some (ip, _) =>
    iput sb ip
    return false
  | none =>
    let size := (← getInode dp).copy.size.toNat
    let off ← emptyDirent sb dev dp ((size + DIRENT - 1) / DIRENT * DIRENT) (direntOffsets 0 size)
    writeDirent sb dev dp { inum := UInt16.ofNat inum, name := strncpy DIRSIZ name } off .dirlink
    return true

-- The elements that the loop of namex takes from a path.
def elemsFuel : Nat → List UInt8 → List (List UInt8)
  | 0, _ => []
  | fuel + 1, path =>
    match skipelem path with
    | none => []
    | some (name, rest) => name :: elemsFuel fuel rest

def elems (path : List UInt8) : List (List UInt8) := elemsFuel path.length path

-- The loop of namex. With `parent` it stops one element early and gives that
-- element too.
def namexFrom (parent : Bool) (ip : Fin NINODE) :
    List (List UInt8) → FsM (Option (Fin NINODE × List UInt8))
  | [] => do
      if parent then
        iput sb ip
        return none
      else return some (ip, [])
  | name :: names => do
      ilock sb ip
      if (← getInode ip).copy.type ≠ T_DIR then
        iunlockput sb ip
        return none
      else if parent ∧ names = [] then
        iunlock ip
        return some (ip, name)
      else
        match ← dirlookup sb dev ip name with
        | none =>
          iunlockput sb ip
          return none
        | some (next, _) =>
          iunlockput sb ip
          namexFrom parent next names

-- Where a path starts. A process without a directory has ended; its calls are
-- not modelled.
def namexStart (p : Fin NPROC) (path : List UInt8) : FsM (Fin NINODE) := do
  if path.head? = some slash then iget ROOTDEV ROOTINO
  else
    match ((← get).proc p).cwd with
    | some cwd => idup cwd
    | none => throw .asleep

def namex (p : Fin NPROC) (path : List UInt8) (parent : Bool) :
    FsM (Option (Fin NINODE × List UInt8)) := do
  let ip ← namexStart p path
  namexFrom sb dev parent ip (elems path)

def namei (p : Fin NPROC) (path : List UInt8) : FsM (Option (Fin NINODE)) :=
  return (← namex sb dev p path false).map Prod.fst

def nameiparent (p : Fin NPROC) (path : List UInt8) : FsM (Option (Fin NINODE × List UInt8)) :=
  namex sb dev p path true

end Xv6.Fs

import Xv6.Fs.Kernel

namespace Xv6.Fs

open Lib

variable (sb : Super)

def bzero (b : Nat) : FsM Unit := do
  let _ ← bread b
  logWrite b zeroBlock

-- One bitmap block after the other, from block b on.
def ballocFrom : List Nat → FsM UInt32
  | [] => panic .ballocOutOfBlocks
  | b :: bs => do
      let bp ← bread (sb.bblock b)
      match (List.range (min BPB (sb.size - b))).find? fun bi => !testBit bp bi with
      | some bi =>
        logWrite (sb.bblock b) (setBit bp bi)
        bzero (b + bi)
        return UInt32.ofNat (b + bi)
      | none => ballocFrom bs

def balloc : FsM UInt32 := ballocFrom sb ((List.range ((sb.size + BPB - 1) / BPB)).map (· * BPB))

def bfree (b : UInt32) : FsM Unit := do
  let bp ← bread (sb.bblock b.toNat)
  panicIf (testBit bp (b.toNat % BPB) = false) .freeingFreeBlock
  logWrite (sb.bblock b.toNat) (clearBit bp (b.toNat % BPB))

def iget (dev inum : Nat) : FsM (Fin NINODE) := do
  let s ← get
  match (List.finRange NINODE).find? fun i =>
      0 < (s.icache i).ref ∧ (s.icache i).dev = dev ∧ (s.icache i).inum = inum with
  | some i =>
    setInode i { s.icache i with ref := (s.icache i).ref + 1 }
    return i
  | none =>
    match (List.finRange NINODE).find? fun i => (s.icache i).ref = 0 with
    | some i =>
      setInode i { s.icache i with dev := dev, inum := inum, ref := 1, valid := false }
      return i
    | none => panic .igetNoInodes

def idup (ip : Fin NINODE) : FsM (Fin NINODE) := do
  let node ← getInode ip
  setInode ip { node with ref := node.ref + 1 }
  return ip

def iallocFrom (type : UInt16) : List Nat → FsM (Fin NINODE)
  | [] => panic .iallocNoInodes
  | inum :: inums => do
      let bp ← bread (sb.iblock inum)
      if (getDinode bp (inum % IPB)).type = 0 then
        logWrite (sb.iblock inum) (putDinode bp (inum % IPB) (Dinode.fresh type))
        iget ROOTDEV inum
      else iallocFrom type inums

def ialloc (type : UInt16) : FsM (Fin NINODE) := iallocFrom sb type (List.range' 1 (sb.ninodes - 1))

def iupdate (ip : Fin NINODE) : FsM Unit := do
  let node ← getInode ip
  let bp ← bread (sb.iblock node.inum)
  logWrite (sb.iblock node.inum) (putDinode bp (node.inum % IPB) node.copy)

-- The part of ilock that reads the inode from the disk.
def iload (ip : Fin NINODE) : FsM Unit := do
  let node ← getInode ip
  let bp ← bread (sb.iblock node.inum)
  setInode ip { node with copy := getDinode bp (node.inum % IPB), valid := true }
  panicIf ((getDinode bp (node.inum % IPB)).type = 0) .ilockNoType

def ilock (ip : Fin NINODE) : FsM Unit := do
  panicIf ((← getInode ip).ref < 1) .ilock
  acquiresleep ip
  doIf ((← getInode ip).valid = false) (iload sb ip)

def iunlock (ip : Fin NINODE) : FsM Unit := do
  panicIf ((← get).locks ip = false ∨ (← getInode ip).ref < 1) .iunlock
  releasesleep ip

def Dinode.setAddr (d : Dinode) (i : Fin (NDIRECT + 1)) (b : UInt32) : Dinode :=
  { d with addrs := Function.update d.addrs i b }

def indirect : Fin (NDIRECT + 1) := Fin.last NDIRECT

-- The block number in addrs[i], allocated if it is not there.
def addrAt (ip : Fin NINODE) (i : Fin (NDIRECT + 1)) : FsM UInt32 := do
  let node ← getInode ip
  if node.copy.addrs i = 0 then
    let addr ← balloc sb
    setCopy ip (node.copy.setAddr i addr)
    return addr
  else return node.copy.addrs i

-- The block number in entry j of the indirect block addr, likewise.
def entryAt (addr : UInt32) (j : Nat) : FsM UInt32 := do
  let bp ← bread addr.toNat
  let entry := bp.getU32 (4 * j)
  if entry = 0 then
    let entry ← balloc sb
    logWrite addr.toNat (bp.putU32 (4 * j) entry)
    return entry
  else return entry

def bmap (ip : Fin NINODE) (bn : Nat) : FsM UInt32 := do
  if h : bn < NDIRECT then addrAt sb ip ⟨bn, Nat.lt_succ_of_lt h⟩
  else if bn - NDIRECT < NINDIRECT then
    let addr ← addrAt sb ip indirect
    entryAt sb addr (bn - NDIRECT)
  else panic .bmapOutOfRange

def itruncAddr (ip : Fin NINODE) (i : Fin (NDIRECT + 1)) : FsM Unit := do
  let d := (← getInode ip).copy
  bfree sb (d.addrs i)
  setCopy ip (d.setAddr i 0)

def itruncDirect (ip : Fin NINODE) : List (Fin (NDIRECT + 1)) → FsM Unit
  | [] => return ()
  | i :: is => do
      doIf ((← getInode ip).copy.addrs i ≠ 0) (itruncAddr sb ip i)
      itruncDirect ip is

def itruncEntries (bp : Block) : List Nat → FsM Unit
  | [] => return ()
  | j :: js => do
      doIf (bp.getU32 (4 * j) ≠ 0) (bfree sb (bp.getU32 (4 * j)))
      itruncEntries bp js

def itruncIndirect (ip : Fin NINODE) : FsM Unit := do
  let bp ← bread ((← getInode ip).copy.addrs indirect).toNat
  itruncEntries sb bp (List.range NINDIRECT)
  itruncAddr sb ip indirect

def itrunc (ip : Fin NINODE) : FsM Unit := do
  itruncDirect sb ip ((List.finRange NDIRECT).map Fin.castSucc)
  doIf ((← getInode ip).copy.addrs indirect ≠ 0) (itruncIndirect sb ip)
  setCopy ip { (← getInode ip).copy with size := 0 }
  iupdate sb ip

-- The inode has no links and no other references.
def ifree (ip : Fin NINODE) : FsM Unit := do
  itrunc sb ip
  setCopy ip { (← getInode ip).copy with type := 0 }
  iupdate sb ip
  setInode ip { (← getInode ip) with valid := false }

def iput (ip : Fin NINODE) : FsM Unit := do
  emit .iput
  acquiresleep ip
  let node ← getInode ip
  doIf ((node.valid ∧ node.copy.nlink = 0) ∧ node.ref = 1) (ifree sb ip)
  releasesleep ip
  let node ← getInode ip
  setInode ip { node with ref := node.ref - 1 }

def iunlockput (ip : Fin NINODE) : FsM Unit := do
  iunlock ip
  iput sb ip

-- The device functions: a missing function, or what it returns.
structure Devsw where
  read : Int → Option (UInt32 → Option (List UInt8))
  write : Int → Option (List UInt8 → Option Nat)

-- devsw[major].fn, if there is such a function.
def Devsw.lookup {α : Type} (fn : Int → Option α) (major : UInt16) : Option α :=
  if short major < 0 ∨ short major ≥ NDEV then none else fn (short major)

variable (dev : Devsw)

-- The loop of readi over n bytes from off on. The fuel n is enough, as each
-- iteration reads at least a byte.
def readiLoop (ip : Fin NINODE) : Nat → Nat → Nat → FsM (List UInt8)
  | 0, _, _ => return []
  | fuel + 1, off, n =>
    if n = 0 then return []
    else do
      let addr ← bmap sb ip (off / BSIZE)
      let bp ← bread addr.toNat
      let m := min n (BSIZE - off % BSIZE)
      let rest ← readiLoop ip fuel (off + m) (n - m)
      return bp.slice (off % BSIZE) m ++ rest

-- No result stands for -1.
def readi (ip : Fin NINODE) (off n : UInt32) : FsM (Option (List UInt8)) := do
  let d := (← getInode ip).copy
  if d.type = T_DEV then
    match Devsw.lookup dev.read d.major with
    | some fn => return fn n
    | none => return none
  else if d.size < off ∨ off + n < off then return none
  else
    let n := if d.size < off + n then d.size - off else n
    return some (← readiLoop sb ip n.toNat off.toNat n.toNat)

def writeBlock (ip : Fin NINODE) (off : Nat) (src : List UInt8) : FsM Unit := do
  let addr ← bmap sb ip (off / BSIZE)
  let bp ← bread addr.toNat
  logWrite addr.toNat (bp.put (off % BSIZE) src)

def writeiLoop (ip : Fin NINODE) : Nat → Nat → List UInt8 → FsM Unit
  | 0, _, _ => return ()
  | fuel + 1, off, src =>
    if src = [] then return ()
    else do
      let m := min src.length (BSIZE - off % BSIZE)
      writeBlock sb ip off (src.take m)
      writeiLoop ip fuel (off + m) (src.drop m)

-- ip->size = off; iupdate(ip);
def extend (ip : Fin NINODE) (off : UInt32) : FsM Unit := do
  setCopy ip { (← getInode ip).copy with size := off }
  iupdate sb ip

def writei (ip : Fin NINODE) (src : List UInt8) (off : UInt32) : FsM (Option Nat) := do
  let d := (← getInode ip).copy
  let n := UInt32.ofNat src.length
  if d.type = T_DEV then
    match Devsw.lookup dev.write d.major with
    | some fn => return fn src
    | none => return none
  else if d.size < off ∨ off + n < off then return none
  else if (off + n).toNat > MAXFILE * BSIZE then return none
  else
    writeiLoop sb ip src.length off.toNat src
    doIf (0 < n ∧ (← getInode ip).copy.size < off + n) (extend sb ip (off + n))
    return some n.toNat

end Xv6.Fs

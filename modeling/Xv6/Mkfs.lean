import Xv6.Fs.Inode
import Xv6.Lib.Hoare

namespace Xv6.Mkfs

open Lib Fs

-- mkfs.c
def NINODES : Nat := 200
def nbitmap : Nat := FSSIZE / (BSIZE * 8) + 1
def ninodeblocks : Nat := NINODES / IPB + 1
def nlog : Nat := LOGSIZE
def nmeta : Nat := 2 + nlog + ninodeblocks + nbitmap
def nblocks : Nat := FSSIZE - nmeta

def sb : Super :=
  { size := FSSIZE
    nblocks := nblocks
    ninodes := NINODES
    inodestart := 2 + nlog
    bmapstart := 2 + nlog + ninodeblocks }

-- The words of struct superblock, with the place of the log.
def superblock : List UInt32 :=
  [sb.size, sb.nblocks, sb.ninodes, nlog, 2, sb.inodestart, sb.bmapstart].map UInt32.ofNat

-- The blocks of the image, how many of them have been written, and the two
-- counters.
structure State where
  disk : Nat → Block
  len : Nat
  freeinode : Nat
  freeblock : Nat

inductive Exit
  | failed
  | assertion
deriving DecidableEq, Repr

abbrev MkfsM := EStateM Exit State

def assert (c : Prop) [Decidable c] : MkfsM Unit := if c then pure () else throw .assertion

-- The block at the offset sec * BSIZE, which is a uint.
def sector (sec : Nat) : Nat := sec * BSIZE % 2 ^ 32 / BSIZE

def wsect (sec : Nat) (buf : Block) : MkfsM Unit :=
  modify fun s => { s with
    disk := Function.update s.disk (sector sec) buf
    len := max s.len (sector sec + 1) }

-- read returns less than a block behind the end of the image.
def rsect (sec : Nat) : MkfsM Block := do
  let s ← get
  if sector sec < s.len then return s.disk (sector sec) else throw .failed

def rinode (inum : Nat) : MkfsM Dinode := return getDinode (← rsect (sb.iblock inum)) (inum % IPB)

def winode (inum : Nat) (din : Dinode) : MkfsM Unit := do
  let buf ← rsect (sb.iblock inum)
  wsect (sb.iblock inum) (putDinode buf (inum % IPB) din)

def ialloc (type : UInt16) : MkfsM Nat := do
  let inum := (← get).freeinode
  modify fun s => { s with freeinode := s.freeinode + 1 }
  winode inum { Dinode.fresh type with nlink := 1 }
  return inum

-- buf[i/8] = buf[i/8] | (0x1 << (i%8)) for all i < used.
def bitmap (used : Nat) : Block := (List.range used).foldl setBit zeroBlock

def balloc (used : Nat) : MkfsM Unit := do
  assert (used < BSIZE * 8)
  wsect sb.bmapstart (bitmap used)

def nextBlock : MkfsM UInt32 := do
  let b := (← get).freeblock
  modify fun s => { s with freeblock := s.freeblock + 1 }
  return UInt32.ofNat b

-- if(xint(din.addrs[k]) == 0) din.addrs[k] = xint(freeblock++);
def addAddr (din : Dinode) (k : Fin (NDIRECT + 1)) : MkfsM Dinode := do
  if din.addrs k = 0 then return din.setAddr k (← nextBlock) else return din

-- The entry j of the indirect block, likewise.
def entryOf (din : Dinode) (j : Nat) : MkfsM UInt32 := do
  let indirect ← rsect (din.addrs Fs.indirect).toNat
  if indirect.getU32 (4 * j) = 0 then
    let x ← nextBlock
    wsect (din.addrs Fs.indirect).toNat (indirect.putU32 (4 * j) x)
    return x
  else return indirect.getU32 (4 * j)

-- The block x of iappend, and din.
def blockOf (din : Dinode) (fbn : Nat) : MkfsM (Dinode × UInt32) := do
  if h : fbn < NDIRECT then
    let k : Fin (NDIRECT + 1) := ⟨fbn, Nat.lt_succ_of_lt h⟩
    let din ← addAddr din k
    return (din, din.addrs k)
  else
    let din ← addAddr din Fs.indirect
    return (din, ← entryOf din (fbn - NDIRECT))

-- One round of the loop of iappend, for the n1 bytes src.
def appendBlock (din : Dinode) (off : Nat) (src : List UInt8) : MkfsM Dinode := do
  let fbn := off / BSIZE
  assert (fbn < MAXFILE)
  let (din, x) ← blockOf din fbn
  let buf ← rsect x.toNat
  wsect x.toNat (buf.put (off - fbn * BSIZE) src)
  return din

-- The loop of iappend. The fuel is the number of bytes.
def iappendLoop : Nat → Dinode → Nat → List UInt8 → MkfsM (Dinode × Nat)
  | 0, din, off, _ => return (din, off)
  | fuel + 1, din, off, p =>
    if p = [] then return (din, off)
    else do
      let n1 := min p.length ((off / BSIZE + 1) * BSIZE - off)
      let din ← appendBlock din off (p.take n1)
      iappendLoop fuel din (off + n1) (p.drop n1)

def iappend (inum : Nat) (p : List UInt8) : MkfsM Unit := do
  let din ← rinode inum
  let (din, off) ← iappendLoop p.length din din.size.toNat p
  winode inum { din with size := UInt32.ofNat off }

-- An argument, which is a string, and what the calls of read give for the
-- file of that name.
structure Input where
  name : List UInt8
  noNul : 0 ∉ name
  chunks : List (List UInt8)

-- if(argv[i][0] == '_') ++argv[i];
def skipUnderscore (name : List UInt8) : List UInt8 := if name.head? = some 95 then name.tail else name

def Input.dirent (f : Input) (inum : Nat) : Dirent :=
  { inum := UInt16.ofNat inum, name := strncpy DIRSIZ (skipUnderscore f.name) }

def iappendAll (inum : Nat) : List (List UInt8) → MkfsM Unit
  | [] => return ()
  | buf :: bufs => do
      iappend inum buf
      iappendAll inum bufs

def addFile (rootino : Nat) (f : Input) : MkfsM Unit := do
  assert (slash ∉ f.name)
  let inum ← ialloc T_FILE
  iappend rootino (f.dirent inum).bytes
  iappendAll inum f.chunks

def addFiles (rootino : Nat) : List Input → MkfsM Unit
  | [] => return ()
  | f :: fs => do
      addFile rootino f
      addFiles rootino fs

-- wsect(i, zeroes) for m blocks.
def wzeroes : Nat → Nat → MkfsM Unit
  | _, 0 => return ()
  | i, m + 1 => do
      wsect i zeroBlock
      wzeroes (i + 1) m

-- All blocks of the image; proofs are not to compute them one by one.
@[irreducible] def wzeroesAll : MkfsM Unit := wzeroes 0 FSSIZE

-- off = ((off/BSIZE) + 1) * BSIZE
def roundUp (off : Nat) : Nat := (off / BSIZE + 1) * BSIZE

def makeRoot : MkfsM Nat := do
  let rootino ← ialloc T_DIR
  assert (rootino = ROOTINO)
  iappend rootino (Dirent.bytes { inum := UInt16.ofNat rootino, name := strncpy DIRSIZ dot })
  iappend rootino (Dirent.bytes { inum := UInt16.ofNat rootino, name := strncpy DIRSIZ dotdot })
  return rootino

def fixRoot (rootino : Nat) : MkfsM Unit := do
  let din ← rinode rootino
  winode rootino { din with size := UInt32.ofNat (roundUp din.size.toNat) }

-- main from the open of the image on, with the input files as arguments.
def main (files : List Input) : MkfsM Unit := do
  modify fun s => { s with freeblock := nmeta }
  wzeroesAll
  wsect 1 (zeroBlock.putWords 0 superblock)
  let rootino ← makeRoot
  addFiles rootino files
  fixRoot rootino
  balloc (← get).freeblock

def start : State := { disk := fun _ => zeroBlock, len := 0, freeinode := 1, freeblock := 0 }

end Xv6.Mkfs

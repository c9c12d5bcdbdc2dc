import Xv6.Param

namespace Xv6.Fs

open Lib

-- fs.h
def NDIRECT : Nat := 12
def NINDIRECT : Nat := BSIZE / 4
def MAXFILE : Nat := NDIRECT + NINDIRECT
def DINODE : Nat := 64
def IPB : Nat := BSIZE / DINODE
def BPB : Nat := BSIZE * 8
def DIRSIZ : Nat := 14
def DIRENT : Nat := 16

-- stat.h
def T_DIR : UInt16 := 1
def T_FILE : UInt16 := 2
def T_DEV : UInt16 := 3

-- fcntl.h
def O_RDONLY : Nat := 0
def O_WRONLY : Nat := 1
def O_RDWR : Nat := 2
def O_CREATE : Nat := 512

-- struct superblock, without the place of the log.
structure Super where
  size : Nat
  nblocks : Nat
  ninodes : Nat
  inodestart : Nat
  bmapstart : Nat

namespace Super

def iblock (sb : Super) (inum : Nat) : Nat := inum / IPB + sb.inodestart

def bblock (sb : Super) (b : Nat) : Nat := b / BPB + sb.bmapstart

def nmeta (sb : Super) : Nat := sb.size - sb.nblocks

end Super

@[ext] structure Dinode where
  type : UInt16
  major : UInt16
  minor : UInt16
  nlink : UInt16
  size : UInt32
  addrs : Fin (NDIRECT + 1) → UInt32

-- The value of a short.
def short (w : UInt16) : Int := w.toBitVec.toInt

namespace Dinode

-- memset(dip, 0, sizeof(*dip)), and then the type.
def fresh (type : UInt16) : Dinode :=
  { type := type, major := 0, minor := 0, nlink := 0, size := 0, addrs := fun _ => 0 }

def bytes (d : Dinode) : List UInt8 :=
  Bytes.le16 d.type ++ Bytes.le16 d.major ++ Bytes.le16 d.minor ++ Bytes.le16 d.nlink ++
    Bytes.le32 d.size ++ (List.ofFn d.addrs).flatMap Bytes.le32

end Dinode

def getDinode (blk : Block) (k : Nat) : Dinode :=
  { type := blk.getU16 (DINODE * k)
    major := blk.getU16 (DINODE * k + 2)
    minor := blk.getU16 (DINODE * k + 4)
    nlink := blk.getU16 (DINODE * k + 6)
    size := blk.getU32 (DINODE * k + 8)
    addrs := fun j => blk.getU32 (DINODE * k + 12 + 4 * j.val) }

def putDinode (blk : Block) (k : Nat) (d : Dinode) : Block := blk.put (DINODE * k) d.bytes

def testBit (blk : Block) (i : Nat) : Bool := (blk.get (i / 8) &&& (1 <<< UInt8.ofNat (i % 8))) != 0

def setBit (blk : Block) (i : Nat) : Block :=
  blk.put (i / 8) [blk.get (i / 8) ||| (1 <<< UInt8.ofNat (i % 8))]

def clearBit (blk : Block) (i : Nat) : Block :=
  blk.put (i / 8) [blk.get (i / 8) &&& ~~~(1 <<< UInt8.ofNat (i % 8))]

def zeroBlock : Block := fun _ => 0

-- struct dirent; the name is DIRSIZ bytes long.
structure Dirent where
  inum : UInt16
  name : List UInt8

def Dirent.ofBytes (bytes : List UInt8) : Dirent :=
  { inum := UInt16.ofNat ((bytes.getD 0 0).toNat + 256 * (bytes.getD 1 0).toNat)
    name := bytes.drop 2 }

def Dirent.bytes (de : Dirent) : List UInt8 := Bytes.le16 de.inum ++ de.name

-- string.c. A string is the list of its bytes without the NUL at its end.
def strncmp : Nat → List UInt8 → List UInt8 → Int
  | 0, _, _ => 0
  | n + 1, p, q =>
    let a := p.headD 0
    let b := q.headD 0
    if a ≠ 0 ∧ a = b then strncmp n p.tail q.tail else a.toNat - b.toNat

-- What strncpy stores: the string and then NULs, n bytes in all.
def strncpy (n : Nat) (src : List UInt8) : List UInt8 :=
  let s := (src.takeWhile (· ≠ 0)).take n
  s ++ List.replicate (n - s.length) 0

def namecmp (s t : List UInt8) : Int := strncmp DIRSIZ s t

def slash : UInt8 := 47

def dot : List UInt8 := [46]

def dotdot : List UInt8 := [46, 46]

-- The next path element and what follows it.
def skipelem (path : List UInt8) : Option (List UInt8 × List UInt8) :=
  let path := path.dropWhile (· = slash)
  if path = [] then none
  else some ((path.takeWhile (· ≠ slash)).take DIRSIZ,
    (path.dropWhile (· ≠ slash)).dropWhile (· = slash))

end Xv6.Fs

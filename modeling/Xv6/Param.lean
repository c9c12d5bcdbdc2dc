import Xv6.Lib.Bytes

namespace Xv6

-- param.h
def NPROC : Nat := 64
def NCPU : Nat := 8
def NOFILE : Nat := 16
def NFILE : Nat := 100
def NINODE : Nat := 50
def NDEV : Nat := 10
def ROOTDEV : Nat := 1
def MAXARG : Nat := 32
def MAXOPBLOCKS : Nat := 10
def LOGSIZE : Nat := MAXOPBLOCKS * 3
def NBUF : Nat := MAXOPBLOCKS * 3
def FSSIZE : Nat := 1000

-- fs.h
def ROOTINO : Nat := 1
def BSIZE : Nat := 512

abbrev Block := Lib.Bytes BSIZE

end Xv6

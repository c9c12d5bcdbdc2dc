import Xv6.Fs.Syscall

namespace Xv6.Fs

open Lib

-- elf.h and mmu.h
def ELF_MAGIC : UInt32 := 0x464C457F
def ELF_PROG_LOAD : UInt32 := 1
def ELFHDR : Nat := 52
def PROGHDR : Nat := 32
def PGSIZE : Nat := 4096

structure Elfhdr where
  magic : UInt32
  phoff : UInt32
  phnum : UInt16

structure Proghdr where
  type : UInt32
  off : UInt32
  vaddr : UInt32
  filesz : UInt32
  memsz : UInt32

def word16 (bytes : List UInt8) (off : Nat) : UInt16 :=
  UInt16.ofNat ((bytes.getD off 0).toNat + 256 * (bytes.getD (off + 1) 0).toNat)

def word32 (bytes : List UInt8) (off : Nat) : UInt32 :=
  UInt32.ofNat ((word16 bytes off).toNat + 65536 * (word16 bytes (off + 2)).toNat)

def Elfhdr.ofBytes (bytes : List UInt8) : Elfhdr :=
  { magic := word32 bytes 0, phoff := word32 bytes 28, phnum := word16 bytes 44 }

def Proghdr.ofBytes (bytes : List UInt8) : Proghdr :=
  { type := word32 bytes 0
    off := word32 bytes 4
    vaddr := word32 bytes 8
    filesz := word32 bytes 16
    memsz := word32 bytes 20 }

-- The memory side of exec: what setupkvm and allocuvm (old and new size; 0 is
-- a failure) give, and whether the stack and the arguments fit.
structure Uvm where
  setupkvm : Bool
  allocuvm : UInt32 → UInt32 → UInt32
  stack : UInt32 → Bool

variable (sb : Super) (dev : Devsw) (uvm : Uvm)

def readAll (ip : Fin NINODE) (off : UInt32) (n : Nat) : FsM (Option (List UInt8)) := do
  match ← readi sb dev ip off (UInt32.ofNat n) with
  | some bytes => if bytes.length = n then return some bytes else return none
  | none => return none

def loaduvmFrom (ip : Fin NINODE) (offset sz : UInt32) : List Nat → FsM Bool
  | [] => return true
  | i :: is => do
      match ← readAll sb dev ip (offset + UInt32.ofNat i) (min (sz.toNat - i) PGSIZE) with
      | some _ => loaduvmFrom ip offset sz is
      | none => return false

def loaduvm (ip : Fin NINODE) (offset sz : UInt32) : FsM Bool :=
  loaduvmFrom sb dev ip offset sz
    ((List.range ((sz.toNat + PGSIZE - 1) / PGSIZE)).map (· * PGSIZE))

-- One program header: the new size of the memory, or none for goto bad.
def loadSegment (ip : Fin NINODE) (ph : Proghdr) (sz : UInt32) : FsM (Option UInt32) := do
  if ph.type ≠ ELF_PROG_LOAD then return some sz
  else if ph.memsz < ph.filesz then return none
  else if ph.vaddr + ph.memsz < ph.vaddr then return none
  else if uvm.allocuvm sz (ph.vaddr + ph.memsz) = 0 then return none
  else if ph.vaddr.toNat % PGSIZE ≠ 0 then return none
  else
    let loaded ← loaduvm sb dev ip ph.off ph.filesz
    return if loaded then some (uvm.allocuvm sz (ph.vaddr + ph.memsz)) else none

def loadFrom (ip : Fin NINODE) : Nat → UInt32 → UInt32 → FsM (Option UInt32)
  | 0, _, sz => return some sz
  | phnum + 1, off, sz => do
      match ← readAll sb dev ip off PROGHDR with
      | none => return none
      | some bytes =>
        match ← loadSegment sb dev uvm ip (Proghdr.ofBytes bytes) sz with
        | none => return none
        | some sz => loadFrom ip phnum (off + UInt32.ofNat PROGHDR) sz

-- From the check of the ELF header to the end of the loop.
def load (ip : Fin NINODE) : FsM (Option UInt32) := do
  match ← readAll sb dev ip 0 ELFHDR with
  | none => return none
  | some bytes =>
    let elf := Elfhdr.ofBytes bytes
    if elf.magic ≠ ELF_MAGIC then return none
    else if uvm.setupkvm = false then return none
    else loadFrom sb dev uvm ip elf.phnum.toNat elf.phoff 0

def exec (p : Fin NPROC) (path : List UInt8) : FsM Int := do
  beginOp
  match ← namei sb dev p path with
  | none =>
    endOp
    return -1
  | some ip =>
    ilock sb ip
    let sz ← load sb dev uvm ip
    iunlockput sb ip
    endOp
    match sz with
    | some sz => return if uvm.stack sz then 0 else -1
    | none => return -1

def sysExec (p : Fin NPROC) (path : Option (List UInt8)) : FsM Int := do
  match path with
  | none => return -1
  | some path => exec sb dev uvm p path

end Xv6.Fs

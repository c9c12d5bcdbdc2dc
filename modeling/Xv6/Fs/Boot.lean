import Xv6.Fs.Syscall

namespace Xv6.Fs

open Function Lib

-- An unused slot of the inode cache, an unused file and an unused process.
def Inode.unused : Inode :=
  { dev := 0, inum := 0, ref := 0, valid := false, copy := Dinode.fresh 0 }

def File.unused : File :=
  { type := .none, ref := 0, readable := false, writable := false, pipe := 0, ip := ⟨0, by decide⟩
    off := 0 }

def Proc.unused : Proc := { ofile := fun _ => none, cwd := none }

def rootSlot : Fin NINODE := ⟨0, by decide⟩

-- The kernel after userinit: the first process stands in the root directory,
-- which namei("/") has taken from the cache without reading it.
def boot (disk : Nat → Block) : Kernel :=
  { disk := disk
    icache := update (fun _ => Inode.unused) rootSlot
      { Inode.unused with dev := ROOTDEV, inum := ROOTINO, ref := 1 }
    locks := fun _ => false
    ftable := fun _ => File.unused
    proc := update (fun _ => Proc.unused) initproc { Proc.unused with cwd := some rootSlot }
    pipes := []
    trace := [] }

theorem boot_rootSlot (disk : Nat → Block) : (boot disk).icache rootSlot =
    { Inode.unused with dev := ROOTDEV, inum := ROOTINO, ref := 1 } := by
  simp only [boot, update_self]

theorem boot_slot (disk : Nat → Block) {ip : Fin NINODE} (hip : ip ≠ rootSlot) :
    (boot disk).icache ip = Inode.unused := by
  simp only [boot, update_of_ne hip]

theorem boot_used {disk : Nat → Block} {ip : Fin NINODE} (hpos : 0 < ((boot disk).icache ip).ref) : ip = rootSlot := by
  by_contra hip
  rw [boot_slot disk hip] at hpos
  exact absurd hpos (lt_irrefl 0)

theorem boot_valid (disk : Nat → Block) (ip : Fin NINODE) : ((boot disk).icache ip).valid = false := by
  by_cases hip : ip = rootSlot
  · rw [hip, boot_rootSlot]
    rfl
  · rw [boot_slot disk hip]
    rfl

def noDevices : Devsw := { read := fun _ => none, write := fun _ => none }

-- A disk of twelve blocks: boot block, superblock, two blocks of inodes, the
-- bitmap and seven blocks of data. Only the root directory is there.
def tiny : Super := { size := 12, nblocks := 7, ninodes := 16, inodestart := 2, bmapstart := 4 }

def tinyRoot : Dinode :=
  { Dinode.fresh T_DIR with
    nlink := 1, size := 32, addrs := update (fun _ => 0) 0 5 }

def tinyEntries : List UInt8 :=
  Dirent.bytes { inum := 1, name := strncpy DIRSIZ dot } ++
    Dirent.bytes { inum := 1, name := strncpy DIRSIZ dotdot }

def tinyDisk : Nat → Block
  | 2 => putDinode zeroBlock ROOTINO tinyRoot
  | 4 => zeroBlock.put 0 [0x3f]
  | 5 => zeroBlock.put 0 tinyEntries
  | _ => zeroBlock

end Xv6.Fs

import Xv6.Fs.Exec

namespace Xv6.Vm

open Function

open Fs (PGSIZE ELF_MAGIC ELF_PROG_LOAD ELFHDR PROGHDR Elfhdr Proghdr)

-- memlayout.h and mmu.h
def EXTMEM : Nat := 0x100000
def PHYSTOP : Nat := 0xE000000
def DEVSPACE : Nat := 0xFE000000
def KERNBASE : Nat := 0x80000000
def KERNLINK : Nat := KERNBASE + EXTMEM
abbrev NPDENTRIES : Nat := 1024
abbrev NPTENTRIES : Nat := 1024

-- The addresses are 32 bits wide.
def ADDRESSES : Nat := 2 ^ 32

-- Virtual and physical pages are known by their numbers: PGROUNDUP(sz) is page
-- number pages sz, and PDX and PTX are the indices of a virtual page.
def pages (sz : Nat) : Nat := (sz + PGSIZE - 1) / PGSIZE

def pdx (vpn : Nat) : Fin NPDENTRIES := Fin.ofNat NPDENTRIES (vpn / NPTENTRIES)

def ptx (vpn : Nat) : Fin NPTENTRIES := Fin.ofNat NPTENTRIES vpn

-- The symbols data and end of kernel.ld, as numbers of physical pages. The
-- linker script aligns data to a page; end is rounded up as freerange does.
structure Symbols where
  data : Nat
  last : Nat
  lt_data : EXTMEM / PGSIZE < data
  data_lt : data < last
  last_le : last ≤ PHYSTOP / PGSIZE

-- An entry of a page directory or a page table: the physical page and the flags
-- PTE_P, PTE_W and PTE_U.
structure Pte where
  ppn : Nat
  p : Bool
  w : Bool
  u : Bool
deriving DecidableEq, Repr

def Pte.zero : Pte := { ppn := 0, p := false, w := false, u := false }

-- What memset(v, 1, PGSIZE) leaves: the words are 0x01010101.
def Pte.junk : Pte := { ppn := 0x01010, p := true, w := false, u := false }

inductive Panic
  | kfree
  | remap
  | phystop
  | inituvm
  | loaduvmAligned
  | loaduvmExist
  | clearpteu
  | copyuvmExist
  | copyuvmPresent
  | userinit
deriving DecidableEq, Repr

-- A call that does not return: a panic, or an access through a null pointer that
-- kalloc or walkpgdir has returned.
inductive Stop
  | panic (p : Panic)
  | nullPage
  | nullPte
deriving DecidableEq, Repr

-- A write of the kernel into a user page: the virtual address, the physical page
-- it goes to and the bytes.
structure Store where
  va : Nat
  ppn : Nat
  bytes : List UInt8

-- Physical memory, with the pages seen as page tables and as bytes; what is
-- written to a page in one view alone is not looked at in the other. `calls`
-- counts the calls of kalloc, `refreed` the pages that kfree has put on the free
-- list while they were on it, and `stores` the writes into user pages.
structure Mem where
  freelist : List Nat
  page : Nat → Fin NPTENTRIES → Pte
  data : Nat → Nat → UInt8
  calls : Nat
  refreed : List Nat
  stores : List Store

abbrev VmM := EStateM Stop Mem

def doIf (c : Prop) [Decidable c] (m : VmM Unit) : VmM Unit := if c then m else pure ()

def panicIf (c : Prop) [Decidable c] (p : Panic) : VmM Unit := doIf c (throw (.panic p))

def Mem.setPage (s : Mem) (ppn : Nat) (page : Fin NPTENTRIES → Pte) : Mem :=
  { s with page := update s.page ppn page }

def Mem.setEntry (s : Mem) (ppn : Nat) (i : Fin NPTENTRIES) (e : Pte) : Mem :=
  s.setPage ppn (update (s.page ppn) i e)

def Mem.setData (s : Mem) (ppn : Nat) (bytes : Nat → UInt8) : Mem :=
  { s with data := update s.data ppn bytes }

def overlay (old : Nat → UInt8) (off : Nat) (bytes : List UInt8) : Nat → UInt8 := fun i =>
  if off ≤ i ∧ i < off + bytes.length then bytes.getD (i - off) 0 else old i

def setEntry (ppn : Nat) (i : Fin NPTENTRIES) (e : Pte) : VmM Unit :=
  modify fun s => s.setEntry ppn i e

-- memset(v, 0, PGSIZE)
def clear (ppn : Nat) : VmM Unit := modify fun s => (s.setPage ppn fun _ => Pte.zero).setData ppn fun _ => 0

-- memmove(dst, src, PGSIZE)
def copyPage (dst src : Nat) : VmM Unit := modify fun s => (s.setPage dst (s.page src)).setData dst (s.data src)

def store (va ppn : Nat) (bytes : List UInt8) : VmM Unit :=
  modify fun s => { s.setData ppn (overlay (s.data ppn) (va % PGSIZE) bytes) with
    stores := s.stores ++ [{ va := va, ppn := ppn, bytes := bytes }] }

-- kalloc returns 0 on an empty free list, and at the calls that deny says.
variable (k : Symbols) (deny : Nat → Bool)

def kalloc : VmM (Option Nat) := do
  let s ← get
  match deny s.calls, s.freelist with
  | false, ppn :: rest =>
    set { s with freelist := rest, calls := s.calls + 1 }
    return some ppn
  | _, _ =>
    set { s with calls := s.calls + 1 }
    return none

def kfree (ppn : Nat) : VmM Unit := do
  panicIf (ppn < k.last ∨ PHYSTOP / PGSIZE ≤ ppn) .kfree
  modify fun s => { (s.setPage ppn fun _ => Pte.junk).setData ppn fun _ => 1 with
    freelist := ppn :: s.freelist
    refreed := if ppn ∈ s.freelist then ppn :: s.refreed else s.refreed }

-- What freerange leaves in kinit1 and kinit2, before the first kalloc.
def Mem.boot : Mem :=
  { freelist := (List.range' k.last (PHYSTOP / PGSIZE - k.last)).reverse
    page := fun _ _ => Pte.junk
    data := fun _ _ => 1
    calls := 0
    refreed := []
    stores := [] }

-- The page table and the index in it of the entry for a virtual page.
def walkpgdir (pgdir vpn : Nat) (alloc : Bool) : VmM (Option (Nat × Fin NPTENTRIES)) := do
  let pde := (← get).page pgdir (pdx vpn)
  if pde.p then return some (pde.ppn, ptx vpn)
  else if alloc = false then return none
  else
    match ← kalloc deny with
    | none => return none
    | some pgtab =>
      clear pgtab
      setEntry pgdir (pdx vpn) { ppn := pgtab, p := true, w := true, u := true }
      return some (pgtab, ptx vpn)

-- The rest of the loop of mappages: so many pages from vpn and ppn on.
def mappagesFrom (pgdir : Nat) (w u : Bool) : Nat → Nat → Nat → VmM Bool
  | 0, _, _ => return true
  | count + 1, vpn, ppn => do
      match ← walkpgdir deny pgdir vpn true with
      | none => return false
      | some (pgtab, i) =>
        panicIf (((← get).page pgtab i).p = true) .remap
        setEntry pgtab i { ppn := ppn, p := true, w := w, u := u }
        mappagesFrom pgdir w u count (vpn + 1) (ppn + 1)

def mappages (pgdir va size pa : Nat) (w u : Bool) : VmM Bool :=
  let last := (va + size - 1) % ADDRESSES / PGSIZE
  mappagesFrom deny pgdir w u (last - va / PGSIZE + 1) (va / PGSIZE) (pa / PGSIZE)

def freePage (pgtab : Nat) (i : Fin NPTENTRIES) : VmM Unit := do
  let pte := (← get).page pgtab i
  panicIf (pte.ppn = 0) .kfree
  kfree k pte.ppn
  setEntry pgtab i Pte.zero

-- The rest of the loop of deallocuvm from vpn on, up to the page stop. Each
-- round moves on by one page at least, and one without a page table moves on to
-- the next page table.
def deallocuvmFrom (pgdir stop : Nat) : Nat → Nat → VmM Unit
  | 0, _ => return ()
  | rounds + 1, vpn => do
      if vpn < stop then
        match ← walkpgdir deny pgdir vpn false with
        | none => deallocuvmFrom pgdir stop rounds ((vpn / NPTENTRIES + 1) * NPTENTRIES)
        | some (pgtab, i) =>
          doIf (((← get).page pgtab i).p = true) (freePage k pgtab i)
          deallocuvmFrom pgdir stop rounds (vpn + 1)
      else return ()

def deallocuvm (pgdir oldsz newsz : Nat) : VmM Nat := do
  if oldsz ≤ newsz then return oldsz
  else
    deallocuvmFrom k deny pgdir (pages oldsz) (pages oldsz - pages newsz) (pages newsz)
    return newsz

def allocuvmFrom (pgdir oldsz newsz : Nat) : Nat → Nat → VmM Nat
  | 0, _ => return newsz
  | count + 1, vpn => do
      match ← kalloc deny with
      | none =>
        let _ ← deallocuvm k deny pgdir newsz oldsz
        return 0
      | some mem =>
        clear mem
        if ← mappages deny pgdir (vpn * PGSIZE) PGSIZE (mem * PGSIZE) true true then
          allocuvmFrom pgdir oldsz newsz count (vpn + 1)
        else
          let _ ← deallocuvm k deny pgdir newsz oldsz
          kfree k mem
          return 0

def allocuvm (pgdir oldsz newsz : Nat) : VmM Nat :=
  if KERNBASE ≤ newsz then return 0
  else if newsz < oldsz then return oldsz
  else allocuvmFrom k deny pgdir oldsz newsz (pages newsz - pages oldsz) (pages oldsz)

-- The loop of freevm over the entries of the directory.
def freeTables (pgdir : Nat) : List (Fin NPDENTRIES) → VmM Unit
  | [] => return ()
  | i :: is => do
      let pde := (← get).page pgdir i
      doIf (pde.p = true) (kfree k pde.ppn)
      freeTables pgdir is

@[irreducible] def indices : List (Fin NPDENTRIES) := List.finRange NPDENTRIES

def freevm (pgdir : Nat) : VmM Unit := do
  let _ ← deallocuvm k deny pgdir KERNBASE 0
  freeTables k pgdir indices
  kfree k pgdir

structure Kmap where
  virt : Nat
  physStart : Nat
  physEnd : Nat
  w : Bool

def kmap : List Kmap :=
  [{ virt := KERNBASE, physStart := 0, physEnd := EXTMEM, w := true },
    { virt := KERNLINK, physStart := EXTMEM, physEnd := k.data * PGSIZE, w := false },
    { virt := KERNBASE + k.data * PGSIZE, physStart := k.data * PGSIZE, physEnd := PHYSTOP, w := true },
    { virt := DEVSPACE, physStart := DEVSPACE, physEnd := 0, w := true }]

def mapKernel (pgdir : Nat) : List Kmap → VmM Bool
  | [] => return true
  | e :: es => do
      let size := (e.physEnd + ADDRESSES - e.physStart) % ADDRESSES
      if ← mappages deny pgdir e.virt size e.physStart e.w false then mapKernel pgdir es
      else return false

def setupkvm : VmM (Option Nat) := do
  match ← kalloc deny with
  | none => return none
  | some pgdir =>
    clear pgdir
    panicIf (DEVSPACE < KERNBASE + PHYSTOP) .phystop
    if ← mapKernel deny pgdir (kmap k) then return some pgdir
    else
      freevm k deny pgdir
      return none

-- sz is the size of the initcode, whose bytes are left out. The result of mappages
-- is not looked at.
def inituvm (pgdir sz : Nat) : VmM Unit := do
  panicIf (PGSIZE ≤ sz) .inituvm
  match ← kalloc deny with
  | none => throw .nullPage
  | some mem =>
    clear mem
    let _ ← mappages deny pgdir 0 PGSIZE (mem * PGSIZE) true true
    return ()

def clearpteu (pgdir vpn : Nat) : VmM Unit := do
  match ← walkpgdir deny pgdir vpn false with
  | none => throw (.panic .clearpteu)
  | some (pgtab, i) => setEntry pgtab i { (← get).page pgtab i with u := false }

-- The loop of copyuvm: false is goto bad.
def copyuvmFrom (pgdir d : Nat) : Nat → Nat → VmM Bool
  | 0, _ => return true
  | count + 1, vpn => do
      match ← walkpgdir deny pgdir vpn false with
      | none => throw (.panic .copyuvmExist)
      | some (pgtab, i) =>
        let pte := (← get).page pgtab i
        panicIf (pte.p = false) .copyuvmPresent
        match ← kalloc deny with
        | none => return false
        | some mem =>
          copyPage mem pte.ppn
          if ← mappages deny d (vpn * PGSIZE) PGSIZE (mem * PGSIZE) pte.w pte.u then
            copyuvmFrom pgdir d count (vpn + 1)
          else
            kfree k mem
            return false

def copyuvm (pgdir sz : Nat) : VmM (Option Nat) := do
  match ← setupkvm k deny with
  | none => return none
  | some d =>
    if ← copyuvmFrom k deny pgdir d (pages sz) 0 then return some d
    else
      freevm k deny d
      return none

def uva2ka (pgdir vpn : Nat) : VmM (Option Nat) := do
  match ← walkpgdir deny pgdir vpn false with
  | none => throw .nullPte
  | some (pgtab, i) =>
    let pte := (← get).page pgtab i
    if pte.p = false then return none
    else if pte.u = false then return none
    else return some pte.ppn

-- The loop of copyout, with a bound on its rounds: each copies one byte at least.
def copyoutFrom (pgdir : Nat) : Nat → Nat → List UInt8 → VmM Bool
  | 0, _, _ => return true
  | rounds + 1, va, buf => do
      if buf = [] then return true
      else
        match ← uva2ka deny pgdir (va / PGSIZE) with
        | none => return false
        | some ppn =>
          let n := min (PGSIZE - va % PGSIZE) buf.length
          store va ppn (buf.take n)
          copyoutFrom pgdir rounds ((va / PGSIZE + 1) * PGSIZE % ADDRESSES) (buf.drop n)

def copyout (pgdir va : Nat) (buf : List UInt8) : VmM Bool :=
  copyoutFrom deny pgdir buf.length va buf

-- What readi copies for an offset and a length; none is -1.
abbrev File := UInt32 → Nat → Option (List UInt8)

def readAll (file : File) (off : UInt32) (n : Nat) : Option (List UInt8) :=
  match file off n with
  | some bytes => if bytes.length = n then some bytes else none
  | none => none

-- The loop of loaduvm, for the pages from addr + i on.
def loaduvmFrom (pgdir addr : Nat) (file : File) (offset : UInt32) (sz : Nat) : Nat → Nat → VmM Bool
  | 0, _ => return true
  | count + 1, i => do
      let va := (addr + i) % ADDRESSES
      match ← walkpgdir deny pgdir (va / PGSIZE) false with
      | none => throw (.panic .loaduvmExist)
      | some (pgtab, j) =>
        let pte := (← get).page pgtab j
        let n := min (sz - i) PGSIZE
        match file (offset + UInt32.ofNat i) n with
        | none => return false
        | some bytes =>
          store va pte.ppn (bytes.take n)
          if bytes.length = n then loaduvmFrom pgdir addr file offset sz count (i + PGSIZE)
          else return false

def loaduvm (pgdir addr : Nat) (file : File) (offset : UInt32) (sz : Nat) : VmM Bool := do
  panicIf (addr % PGSIZE ≠ 0) .loaduvmAligned
  loaduvmFrom deny pgdir addr file offset sz (pages sz) 0

-- The loop of exec over the program headers that remain: the size of the image,
-- or none for goto bad.
def loadSegments (pgdir : Nat) (file : File) : Nat → UInt32 → Nat → VmM (Option Nat)
  | 0, _, sz => return some sz
  | phnum + 1, off, sz => do
      match readAll file off PROGHDR with
      | none => return none
      | some bytes =>
        let ph := Proghdr.ofBytes bytes
        if ph.type ≠ ELF_PROG_LOAD then
          loadSegments pgdir file phnum (off + UInt32.ofNat PROGHDR) sz
        else if ph.memsz < ph.filesz then return none
        else if ph.vaddr + ph.memsz < ph.vaddr then return none
        else
          let newsz ← allocuvm k deny pgdir sz (ph.vaddr + ph.memsz).toNat
          if newsz = 0 then return none
          else if ph.vaddr.toNat % PGSIZE ≠ 0 then return none
          else if ← loaduvm deny pgdir ph.vaddr.toNat file ph.off ph.filesz.toNat then
            loadSegments pgdir file phnum (off + UInt32.ofNat PROGHDR) newsz
          else return none

-- 32-bit subtraction.
def sub32 (a b : Nat) : Nat := (a + ADDRESSES - b % ADDRESSES) % ADDRESSES

def word (w : Nat) : List UInt8 :=
  [UInt8.ofNat w, UInt8.ofNat (w / 256), UInt8.ofNat (w / 65536), UInt8.ofNat (w / 16777216)]

-- The loop of exec over the arguments: the stack pointer and the addresses of
-- the strings.
def pushStrings (pgdir : Nat) : List (List UInt8) → Nat → Nat → VmM (Option (Nat × List Nat))
  | [], _, sp => return some (sp, [])
  | arg :: argv, argc, sp => do
      if MAXARG ≤ argc then return none
      else
        let next := sub32 sp (arg.length + 1) / 4 * 4
        if ← copyout deny pgdir next (arg ++ [0]) then
          match ← pushStrings pgdir argv (argc + 1) next with
          | none => return none
          | some (sp, strings) => return some (sp, next :: strings)
        else return none

def pushArgs (pgdir sz : Nat) (argv : List (List UInt8)) : VmM (Option Nat) := do
  match ← pushStrings deny pgdir argv 0 sz with
  | none => return none
  | some (sp, strings) =>
    let argc := argv.length
    let ustack := [0xffffffff, argc, sub32 sp ((argc + 1) * 4)] ++ strings ++ [0]
    let next := sub32 sp ((3 + argc + 1) * 4)
    if ← copyout deny pgdir next (ustack.flatMap word) then return some next else return none

def loadImage (pgdir : Nat) (file : File) (elf : Elfhdr) : VmM (Option Nat) := do
  match ← loadSegments k deny pgdir file elf.phnum.toNat elf.phoff 0 with
  | none => return none
  | some sz =>
    let base := pages sz * PGSIZE
    let newsz ← allocuvm k deny pgdir base ((base + 2 * PGSIZE) % ADDRESSES)
    if newsz = 0 then return none
    else
      clearpteu deny pgdir (newsz / PGSIZE - 2)
      return some newsz

structure Image where
  pgdir : Nat
  sz : Nat
  sp : Nat

-- exec of a file that namei has found, for a process with the page directory
-- oldpgdir: its new image, or none for -1.
def exec (file : File) (argv : List (List UInt8)) (oldpgdir : Nat) : VmM (Option Image) := do
  match readAll file 0 ELFHDR with
  | none => return none
  | some bytes =>
    let elf := Elfhdr.ofBytes bytes
    if elf.magic ≠ ELF_MAGIC then return none
    else
      match ← setupkvm k deny with
      | none => return none
      | some pgdir =>
        match ← loadImage k deny pgdir file elf with
        | none =>
          freevm k deny pgdir
          return none
        | some sz =>
          match ← pushArgs deny pgdir sz argv with
          | none =>
            freevm k deny pgdir
            return none
          | some sp =>
            freevm k deny oldpgdir
            return some { pgdir := pgdir, sz := sz, sp := sp }

end Xv6.Vm

import Xv6.Fs.Call
import Xv6.Vm

namespace Xv6.Syscall

-- The user side of the process that has made the call: its size, the saved
-- stack pointer and its memory. `touched` are the addresses of user memory that
-- the kernel has read or written.
structure User where
  sz : UInt32
  esp : UInt32
  mem : UInt32 → UInt8
  touched : List UInt32

-- `argv` are the stores of sys_exec into its array of that name.
structure World where
  kernel : Fs.Kernel
  user : User
  argv : List (Nat × UInt32)

abbrev SysM := EStateM Fs.Stop World

def lower {α : Type} (m : Fs.FsM α) : SysM α := fun w =>
  match m w.kernel with
  | .ok a s => .ok a { w with kernel := s }
  | .error e s => .error e { w with kernel := s }

def User.touch (u : User) (addr : UInt32) : User := { u with touched := u.touched ++ [addr] }

def load (addr : UInt32) : SysM UInt8 := do
  modify fun w => { w with user := w.user.touch addr }
  return (← get).user.mem addr

def store (addr : UInt32) (b : UInt8) : SysM Unit :=
  modify fun w => { w with user := { w.user.touch addr with mem := Function.update w.user.mem addr b } }

def loadBytes (addr : UInt32) : Nat → SysM (List UInt8)
  | 0 => return []
  | n + 1 => do
      let b ← load addr
      return b :: (← loadBytes (addr + 1) n)

def storeBytes (addr : UInt32) : List UInt8 → SysM Unit
  | [] => return ()
  | b :: bytes => do
      store addr b
      storeBytes (addr + 1) bytes

def int (w : UInt32) : Int := w.toBitVec.toInt

-- syscall.c

def fetchint (addr : UInt32) : SysM (Option UInt32) := do
  let sz := (← get).user.sz
  if sz ≤ addr ∨ sz < addr + 4 then return none
  else return some (Fs.word32 (← loadBytes addr 4) 0)

-- The loop of fetchstr: the address of the NUL.
def fetchstrFrom (ep s : UInt32) : SysM (Option UInt32) :=
  if h : s < ep then do
    if (← load s) = 0 then return some s
    else fetchstrFrom ep (s + 1)
  else return none
termination_by ep.toNat - s.toNat
decreasing_by
  have hs := UInt32.lt_iff_toNat_lt.1 h
  have hep := ep.toNat_lt
  rw [UInt32.toNat_add, show (1 : UInt32).toNat = 1 from rfl, Nat.mod_eq_of_lt (by omega)]
  omega

-- The length of the string. `setpp` is the store to *pp.
def fetchstr (addr : UInt32) (setpp : SysM Unit) : SysM (Option UInt32) := do
  let sz := (← get).user.sz
  if sz ≤ addr then return none
  else
    setpp
    match ← fetchstrFrom sz addr with
    | none => return none
    | some s => return some (s - addr)

def argint (n : UInt32) : SysM (Option UInt32) := do
  fetchint ((← get).user.esp + 4 + 4 * n)

def argptr (n size : UInt32) : SysM (Option UInt32) := do
  match ← argint n with
  | none => return none
  | some i =>
    let sz := (← get).user.sz
    if int size < 0 ∨ sz ≤ i ∨ sz < i + size then return none else return some i

def argstr (n : UInt32) : SysM (Option (UInt32 × UInt32)) := do
  match ← argint n with
  | none => return none
  | some addr =>
    match ← fetchstr addr (pure ()) with
    | none => return none
    | some len => return some (addr, len)

-- sysfile.c. What the rest of the machine decides: the address space of exec,
-- the page for a pipe, the bytes that piperead finds in a pipe and the number of
-- bytes that pipewrite gets into one. The loop of consoleread stops at n bytes.
structure Env where
  sb : Fs.Super
  dev : Fs.Devsw
  uvm : Fs.Uvm
  p : Fin NPROC
  page : Bool
  pipe : Nat → List UInt8
  room : Nat → Nat
  bounded : ∀ major fn n bytes, dev.read major = some fn → fn n = some bytes → bytes.length ≤ n.toNat

variable (e : Env)

def argfd (n : UInt32) : SysM (Option (Fin NOFILE × Fin NFILE)) := do
  match ← argint n with
  | none => return none
  | some fd => lower (Fs.argfd e.p (some (int fd)))

-- A path, as namei reads it up to the NUL.
def argpath (n : UInt32) : SysM (Option (List UInt8)) := do
  match ← argstr n with
  | none => return none
  | some (path, len) => return some ((← loadBytes path (len.toNat + 1)).take len.toNat)

def fileread (f : Fin NFILE) (p n : UInt32) : SysM Int := do
  let file ← lower (Fs.getFile f)
  if file.readable = false then return -1
  else if file.type = .pipe then
    let bytes := (e.pipe file.pipe).take n.toNat
    storeBytes p bytes
    return bytes.length
  else
    match ← lower (Fs.fileread e.sb e.dev f n) with
    | none => return -1
    | some bytes =>
      storeBytes p bytes
      return bytes.length

def filewrite (f : Fin NFILE) (p n : UInt32) : SysM Int := do
  let file ← lower (Fs.getFile f)
  if file.writable = false then return -1
  else if file.type = .pipe then
    let _ ← loadBytes p (min n.toNat (e.room file.pipe))
    return if n.toNat ≤ e.room file.pipe then n.toNat else -1
  else
    match ← lower (Fs.filewrite e.sb e.dev f (← loadBytes p n.toNat)) with
    | none => return -1
    | some r => return r

-- sizeof(struct stat), with the padding after the two shorts.
def STAT : Nat := 20

def word (w : UInt32) : List UInt8 := Vm.word w.toNat

def half (w : UInt16) : List UInt8 := [UInt8.ofNat w.toNat, UInt8.ofNat (w.toNat / 256)]

def filestat (f : Fin NFILE) (st : UInt32) : SysM Int := do
  match ← lower (Fs.filestat e.sb f) with
  | none => return -1
  | some stat =>
    let dev := (← lower (do Fs.getInode (← Fs.getFile f).ip)).dev
    storeBytes (st + 4) (word (UInt32.ofNat dev))
    storeBytes (st + 8) (word (UInt32.ofNat stat.ino))
    storeBytes st (half stat.type)
    storeBytes (st + 12) (half stat.nlink)
    storeBytes (st + 16) (word stat.size)
    return 0

def sysDup : SysM Int := do
  match ← argint 0 with
  | none => return -1
  | some fd => lower (Fs.sysDup e.p (some (int fd)))

def sysClose : SysM Int := do
  match ← argint 0 with
  | none => return -1
  | some fd => lower (Fs.sysClose e.sb e.p (some (int fd)))

-- sys_read and sys_write, which differ in the function they call.
def transfer (body : Fin NFILE → UInt32 → UInt32 → SysM Int) : SysM Int := do
  match ← argfd e 0 with
  | none => return -1
  | some (_, f) =>
    match ← argint 2 with
    | none => return -1
    | some n =>
      match ← argptr 1 n with
      | none => return -1
      | some p => body f p n

def sysRead : SysM Int := transfer e (fileread e)

def sysWrite : SysM Int := transfer e (filewrite e)

def sysFstat : SysM Int := do
  match ← argfd e 0 with
  | none => return -1
  | some (_, f) =>
    match ← argptr 1 (UInt32.ofNat STAT) with
    | none => return -1
    | some st => filestat e f st

def sysPipe : SysM Int := do
  match ← argptr 0 8 with
  | none => return -1
  | some fd =>
    match ← lower (Fs.sysPipe e.sb e.p true e.page) with
    | none => return -1
    | some (fd0, fd1) =>
      storeBytes fd (word (UInt32.ofNat fd0.val))
      storeBytes (fd + 4) (word (UInt32.ofNat fd1.val))
      return 0

def sysLink : SysM Int := do
  match ← argpath 0 with
  | none => lower (Fs.sysLink e.sb e.dev e.p none none)
  | some old =>
    let new ← argpath 1
    lower (Fs.sysLink e.sb e.dev e.p (some old) new)

def sysUnlink : SysM Int := do
  let path ← argpath 0
  lower (Fs.sysUnlink e.sb e.dev e.p path)

def sysOpen : SysM Int := do
  match ← argpath 0 with
  | none => lower (Fs.sysOpen e.sb e.dev e.p none none)
  | some path =>
    let omode ← argint 1
    lower (Fs.sysOpen e.sb e.dev e.p (some path) omode)

def sysMkdir : SysM Int := do
  let path ← argpath 0
  lower (Fs.sysMkdir e.sb e.dev e.p path)

def sysMknod : SysM Int := do
  match ← argpath 0 with
  | none => lower (Fs.sysMknod e.sb e.dev e.p none none)
  | some path =>
    match ← argint 1 with
    | none => lower (Fs.sysMknod e.sb e.dev e.p (some path) none)
    | some major =>
      let minor ← argint 2
      lower (Fs.sysMknod e.sb e.dev e.p (some path) (minor.map fun w => (major.toUInt16, w.toUInt16)))

def sysChdir : SysM Int := do
  let path ← argpath 0
  lower (Fs.sysChdir e.sb e.dev e.p path)

def setArgv (i : Nat) (arg : UInt32) : SysM Unit := modify fun w => { w with argv := w.argv ++ [(i, arg)] }

-- The loop of sys_exec from i on: the strings, or none for -1.
def argvFrom (uargv : UInt32) (i : Nat) : SysM (Option (List (UInt32 × UInt32))) :=
  if MAXARG ≤ i then return none
  else do
    match ← fetchint (uargv + 4 * UInt32.ofNat i) with
    | none => return none
    | some uarg =>
      if uarg = 0 then
        setArgv i 0
        return some []
      else
        match ← fetchstr uarg (setArgv i uarg) with
        | none => return none
        | some len =>
          match ← argvFrom uargv (i + 1) with
          | none => return none
          | some rest => return some ((uarg, len) :: rest)
termination_by MAXARG - i

-- exec copies the strings with their NULs.
def loadStrings : List (UInt32 × UInt32) → SysM Unit
  | [] => return ()
  | (arg, len) :: argv => do
      let _ ← loadBytes arg (len.toNat + 1)
      loadStrings argv

def sysExec : SysM Int := do
  match ← argpath 0 with
  | none => return -1
  | some path =>
    match ← argint 1 with
    | none => return -1
    | some uargv =>
      modify fun w => { w with argv := [] }
      match ← argvFrom uargv 0 with
      | none => return -1
      | some argv =>
        loadStrings argv
        lower (Fs.exec e.sb e.dev e.uvm e.p path)

inductive Call
  | dup
  | read
  | write
  | close
  | fstat
  | link
  | unlink
  | openPath
  | mkdir
  | mknod
  | chdir
  | exec
  | pipe

def Call.run : Call → SysM Int
  | dup => sysDup e
  | read => sysRead e
  | write => sysWrite e
  | close => sysClose e
  | fstat => sysFstat e
  | link => sysLink e
  | unlink => sysUnlink e
  | openPath => sysOpen e
  | mkdir => sysMkdir e
  | mknod => sysMknod e
  | chdir => sysChdir e
  | exec => sysExec e
  | pipe => sysPipe e

end Xv6.Syscall

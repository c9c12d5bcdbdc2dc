import Xv6.Fs.Exec

namespace Xv6.Fs

-- A system call with its arguments. What the memory of the machine decides is
-- an argument too: the page of a pipe, the address space of exec and the slot
-- of a new process.
inductive Call
  | dup (fd : Option Int)
  | read (fd : Option Int) (n : Option UInt32)
  | write (fd : Option Int) (src : Option (List UInt8))
  | close (fd : Option Int)
  | fstat (fd : Option Int) (st : Bool)
  | link (old new : Option (List UInt8))
  | unlink (path : Option (List UInt8))
  | openPath (path : Option (List UInt8)) (omode : Option UInt32)
  | mkdir (path : Option (List UInt8))
  | mknod (path : Option (List UInt8)) (majorMinor : Option (UInt16 × UInt16))
  | chdir (path : Option (List UInt8))
  | exec (uvm : Uvm) (path : Option (List UInt8))
  | pipe (fd page : Bool)
  | fork (np : Fin NPROC)
  | exit

def ignore {α : Type} (m : FsM α) : FsM Unit := do
  let _ ← m
  return ()

def Call.run (sb : Super) (dev : Devsw) (p : Fin NPROC) : Call → FsM Unit
  | dup fd => ignore (sysDup p fd)
  | read fd n => ignore (sysRead sb dev p fd n)
  | write fd src => ignore (sysWrite sb dev p fd src)
  | close fd => ignore (sysClose sb p fd)
  | fstat fd st => ignore (sysFstat sb p fd st)
  | link old new => ignore (sysLink sb dev p old new)
  | unlink path => ignore (sysUnlink sb dev p path)
  | openPath path omode => ignore (sysOpen sb dev p path omode)
  | mkdir path => ignore (sysMkdir sb dev p path)
  | mknod path majorMinor => ignore (sysMknod sb dev p path majorMinor)
  | chdir path => ignore (sysChdir sb dev p path)
  | exec uvm path => ignore (sysExec sb dev uvm p path)
  | pipe fd page => ignore (sysPipe sb p fd page)
  | fork np => ignore (Fs.fork p np)
  | exit => Fs.exit sb p

end Xv6.Fs

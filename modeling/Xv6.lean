import Xv6.Log.Recovery
import Xv6.Log.Space
import Xv6.Log.Group.Theorems
import Xv6.Iput.Race
import Xv6.Fs.Trace.Theorems
import Xv6.Ptable.Kill
import Xv6.Ptable.Pids
import Xv6.Sleep.Consumers
import Xv6.Pipe.Fifo
import Xv6.Pipe.Wakeup
import Xv6.Ide.Refine
import Xv6.Console.Delivery
import Xv6.Mkfs.Readback
import Xv6.Fs.Safety
import Xv6.Fs.Atomic
import Xv6.Fs.Through
import Xv6.Fs.Path
import Xv6.Grep.Chunks
import Xv6.Sh.Words
import Xv6.Sh.Redirect
import Xv6.Sleeplock
import Xv6.Vm.Exact
import Xv6.Vm.Copy
import Xv6.Vm.Mapping
import Xv6.Syscall.Calls
import Xv6.Umalloc.Sbrk
import Xv6.Memmove
import Xv6.Mp
import Xv6.Bio

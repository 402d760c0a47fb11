import Xv6.Log.Crash
import Xv6.Log.Operations
import Xv6.Process.Clean
import Xv6.Cache.FlatStore
import Xv6.Pipe.Wakeup
import Xv6.Pipe.Messages
import Xv6.Mkfs.Agree
import Xv6.Console.Input
import Xv6.Console.Output
import Xv6.Disk.Safety
import Xv6.Sysfile.Counts
import Xv6.Icache.Protocol
import Xv6.Fs.Logged
import Xv6.Sysfile.Shared
import Xv6.Sleep.Sleeplock
import Xv6.Spinlock.Interrupts
import Xv6.Shell.Terminate
import Xv6.Read.Fileread
import Xv6.Bcache.Protocol
import Xv6.Vm.FiniteMap
import Xv6.Vm.Sbrk
import Xv6.Vm.CopyStr
import Xv6.Vm.Fork
import Xv6.Exec.Correct
import Xv6.Grep.Grep
import Xv6.Primes.Traversal
import Xv6.Memmove
import Xv6.Fs.BitmapAllocator
import Xv6.Xargs.Correct
import Xv6.Umalloc.Malloc
import Xv6.Log.Recovery
import Xv6.Log.Admission
import Xv6.Process.Family
import Xv6.Shell.Run

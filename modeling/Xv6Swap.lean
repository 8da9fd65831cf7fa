import Xv6Swap.System.Residency
import Xv6Swap.System.Stores
import Xv6Swap.System.Syscalls
import Xv6Swap.System.Admission
import Xv6Swap.System.Kill
import Xv6Swap.System.Load
import Xv6Swap.System.PipeWake
import Xv6Swap.System.Reap
import Xv6Swap.System.Faults
import Xv6Swap.System.Copies
import Xv6Swap.System.Console
import Xv6Swap.System.Alloc
import Xv6Swap.System.Bcache
import Xv6Swap.System.Cpus
import Xv6Swap.System.Growth
import Xv6Swap.System.LogOps
import Xv6Swap.System.Sleeplock
import Xv6Swap.System.Virtio
import Xv6Swap.User.Break
import Xv6Swap.User.GrepLines
import Xv6Swap.User.Nulterminate
import Xv6Swap.User.Printf

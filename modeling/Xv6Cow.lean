import Xv6Cow.Icache
import Xv6Cow.Crash
import Xv6Cow.Interleave
import Xv6Cow.BufferCache
import Xv6Cow.ProcRuns
import Xv6Cow.PipeSleep
import Xv6Cow.ImageReads
import Xv6Cow.ConsoleRuns
import Xv6Cow.ShellParses
import Xv6Cow.WriteQuota
import Xv6Cow.PathLocks
import Xv6Cow.ExecFailure
import Xv6Cow.MpTable
import Xv6Cow.Grep
import Xv6Cow.SysArgs
import Xv6Cow.OutOfMemory
import Xv6Cow.PageMap
import Xv6Cow.KallocRounds
import Xv6Cow.Ide
import Xv6Cow.Sleeplock
import Xv6Cow.Agreement
import Xv6Cow.Locks

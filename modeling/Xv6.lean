import Xv6.UserLock
import Xv6.LogSpace
import Xv6.RedoLog
import Xv6.SchedulerSafety
import Xv6.LinkCounts
import Xv6.PathSafety
import Xv6.CacheLog
import Xv6.FailedCalls
import Xv6.NoDeadlock
import Xv6.Processes
import Xv6.Sleeplock
import Xv6.SlotReuse
import Xv6.SharedWrites
import Xv6.PipeRead
import Xv6.PathResolve
import Xv6.Console
import Xv6.DirMap
import Xv6.Grep
import Xv6.IntrState
import Xv6.UserLib

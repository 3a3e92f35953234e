import CS352.Verification.Blocks.Calls
import CS352.Verification.BufferCache
import CS352.Verification.Console
import CS352.Verification.Directories.Links
import CS352.Verification.FileLog.Crash
import CS352.Verification.FileLog.Reservation
import CS352.Verification.Grep
import CS352.Verification.Journal.Progress
import CS352.Verification.Journal.WriteAhead
import CS352.Verification.Memory.AddressSpaces
import CS352.Verification.Memory.Copyin
import CS352.Verification.Memory.Fork
import CS352.Verification.Mlfq.Boost
import CS352.Verification.Mlfq.Demotion
import CS352.Verification.Mlfq.Handler
import CS352.Verification.Mlfq.Harts
import CS352.Verification.Mlfq.Logging
import CS352.Verification.Mlfq.NiceCalls
import CS352.Verification.Mlfq.Order
import CS352.Verification.Mlfq.Slots
import CS352.Verification.Mlfq.Starvation
import CS352.Verification.Mlfq.Tree
import CS352.Verification.Pipe
import CS352.Verification.Scheduler.Nice
import CS352.Verification.Scheduler.RoundRobin
import CS352.Verification.Scheduler.SwitchLog
import CS352.Verification.Scheduler.Wakeup
import CS352.Verification.Scheduler.WordCount
import CS352.Verification.Shell.Waiting
import CS352.Verification.Traps.Contexts
import CS352.Verification.Traps.Interrupted
import CS352.Verification.Traps.Threads
import CS352.Verification.Uart
import CS352.Verification.Umalloc.Programs
import CS352.Verification.VirtioDisk.Progress

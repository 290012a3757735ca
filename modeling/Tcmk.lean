import Tcmk.Lib.Rely
import Tcmk.Lib.Run
import Tcmk.Lib.Ring
import Tcmk.Lib.Prog
import Tcmk.Lib.Bytes
import Tcmk.Lib.WriteLog
import Tcmk.Arch
import Tcmk.Pipe.Table
import Tcmk.Pipe.Fifo
import Tcmk.Text
import Tcmk.Fs.Layout
import Tcmk.Fs.Disk
import Tcmk.Fs.Tcmkfs
import Tcmk.Fs.Command
import Tcmk.Fs.Calls
import Tcmk.Lib.Ownership
import Tcmk.Fs.Ownership
import Tcmk.Fs.Tree
import Tcmk.Fs.Allocation
import Tcmk.Fs.Transfers
import Tcmk.Fs.Contents
import Tcmk.Fs.Crash
import Tcmk.Fs.CrashWrite
import Tcmk.Fs.Recovery
import Tcmk.Fs.Persistence
import Tcmk.Fs.Confinement
import Tcmk.Boot.Chain
import Tcmk.Fs.Atomicity
import Tcmk.Fs.Lockstep
import Tcmk.Fs.Interleaving
import Tcmk.Lib.Table
import Tcmk.Memory.Heap
import Tcmk.Sched.Scheduler
import Tcmk.Sched.Machine
import Tcmk.Sched.Selection
import Tcmk.Sched.Fairness
import Tcmk.Fd.Counting
import Tcmk.Sched.Children
import Tcmk.Sched.IoWait
import Tcmk.Sched.Sleep
import Tcmk.Wm.Isolation
import Tcmk.Drivers.Ata
import Tcmk.Drivers.AtaLock
import Tcmk.Drivers.AtaWait
import Tcmk.Sched.Orphans
import Tcmk.Sched.Wakeup
import Tcmk.Process.Lifetime
import Tcmk.Process.Teardown
import Tcmk.Process.ExitStatus
import Tcmk.Fd.Readiness
import Tcmk.Loader.ElfConfinement
import Tcmk.Loader.PeConfinement
import Tcmk.Loader.Thunks
import Tcmk.Wm.Buffers
import Tcmk.Wm.Confidentiality
import Tcmk.Monitor.StateMonitor
import Tcmk.Monitor.LoadBalancer
import Tcmk.Fs.Traces
import Tcmk.Process.Ring3
import Tcmk.Syscall.Frame
import Tcmk.Syscall.Priority
import Tcmk.Syscall.Fallback
import Tcmk.Syscall.WaitStatus
import Tcmk.Wm.Stacking
import Tcmk.Memory.Validator
import Tcmk.Drivers.Calendar
import Tcmk.Shell.Numbers
import Tcmk.Process.Signals
import Tcmk.Process.SignalRuns
import Tcmk.Drivers.Vga
import Tcmk.Drivers.Console
import Tcmk.Wm.Compose

import Aesd.Lib.CInt
import Aesd.Lib.Machine
import Aesd.Lib.Window
import Aesd.Lib.Framing
import Aesd.Lib.Locate
import Aesd.Lib.Kmalloc
import Aesd.Lib.CString
import Aesd.Lib.Scan
import Aesd.Lib.Slist
import Aesd.Lib.Fds
import Aesd.Driver.CircularBuffer
import Aesd.Driver.Find
import Aesd.Driver.CharDevice
import Aesd.Driver.CommandLog
import Aesd.Driver.Refine
import Aesd.Driver.Positions
import Aesd.Driver.LogDevice
import Aesd.Driver.WriteRuns
import Aesd.Driver.Reads
import Aesd.Driver.SeekTo
import Aesd.Driver.EndOfFile
import Aesd.Driver.FilePosition
import Aesd.Driver.FailedWrites
import Aesd.Driver.Cleanup
import Aesd.Driver.Eviction
import Aesd.Driver.Safety
import Aesd.Driver.Module
import Aesd.Driver.Locking
import Aesd.Driver.Alone
import Aesd.Driver.Linearize
import Aesd.Driver.LockReturns
import Aesd.Driver.Isolation
import Aesd.Driver.SlowReader
import Aesd.Server.Startup
import Aesd.Server.Thread
import Aesd.Server.Session
import Aesd.Server.Packets
import Aesd.Server.Grammar
import Aesd.Server.Receive
import Aesd.Server.Writeback
import Aesd.Server.System
import Aesd.Server.Commit
import Aesd.Server.Interleaving
import Aesd.Server.Resources
import Aesd.Server.Progress
import Aesd.Server.Clients
import Aesd.Server.Seek
import Aesd.Server.Serial
import Aesd.Server.Traffic
import Aesd.Server.Exclusion
import Aesd.Server.Liveness
import Aesd.Server.Main
import Aesd.Server.Sweep
import Aesd.Server.Descriptors
import Aesd.Server.Shutdown
import Aesd.Server.Stopping
import Aesd.Server.Exhaustion
import Aesd.Server.Whole
import Aesd.Server.Drain
import Aesd.Examples.Systemcalls
import Aesd.Examples.Threading

import Loos.Translate
import Loos.ForkCopy
import Loos.Teardown
import Loos.HeapRuns
import Loos.Descriptors
import Loos.Killed
import Loos.WaitLoop
import Loos.Exec
import Loos.ExecTree
import Loos.Reclaim
import Loos.SlotLeak
import Loos.ForkFiles
import Loos.BlockReads
import Loos.ReadFaults
import Loos.Resolution
import Loos.FileReads
import Loos.SharedPages
import Loos.StaleBytes
import Loos.Pids
import Loos.RunQueue
import Loos.KstructRuns
import Loos.MlistRuns
import Loos.Timer
import Loos.InodeBounds
import Loos.Isolation
import Loos.UserCopy
import Loos.Vsprintf
import Loos.Chdir
import Loos.DirBounds
import Loos.FreadSteps
import Loos.InodeTable
import Loos.LookupTypes
import Loos.PathParts
import Loos.LeastFd
import Loos.BusyMarks
import Loos.Sendfile
import Loos.ChdirRuns
import Loos.WaitPid
import Loos.WaitStatus
import Loos.ExecStack
import Loos.ElfBounds
import Loos.Walkers
import Loos.Remap
import Loos.HighRanges
import Loos.StrCopy
import Loos.Mmap
import Loos.HeapAlign
import Loos.AhciCommand
import Loos.Uart
import Loos.Itoa
import Loos.SignedWidth
import Loos.Memmove
import Loos.StringOrder
import Loos.Strtok
import Loos.Qsort
import Loos.Map
import Loos.BitmapOne

import Ysos.StackSlots
import Ysos.Family
import Ysos.Semaphore
import Ysos.Death
import Ysos.Resource
import Ysos.Frames
import Ysos.Atomic
import Ysos.Image
import Ysos.Mq
import Ysos.Dinner
import Ysos.Patterns
import Ysos.Stranded
import Ysos.Contexts
import Ysos.ExitCodes
import Ysos.SemCalls
import Ysos.Address
import Ysos.Tree
import Ysos.Directory
import Ysos.File
import Ysos.Partition
import Ysos.Classify
import Ysos.DataClusters
import Ysos.ShortNames
import Ysos.Geometry
import Ysos.Listing
import Ysos.Slashes
import Ysos.FileData
import Ysos.Stops
import Ysos.ReadAll
import Ysos.Faults
import Ysos.KillCalls
import Ysos.RoundRobin
import Ysos.Mount
import Ysos.Stateful
import Ysos.Ata
import Ysos.BlockCount
import Ysos.Accounting
import Ysos.MapElf
import Ysos.HeapRegion
import Ysos.Probe
import Ysos.UserCalls
import Ysos.StackOffset
import Ysos.UserHeap
import Ysos.ShellPath
import Ysos.Stdin
import Ysos.Text
import Ysos.LineEdit
import Ysos.Cat
import Ysos.BootConfig
import Ysos.EntryLayout
import Ysos.Rootfs
import Ysos.Programs
import Ysos.Counter
import Ysos.Isolation

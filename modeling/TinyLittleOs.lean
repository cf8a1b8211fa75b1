import TinyLittleOs.Memory.InitAlloc
import TinyLittleOs.Memory.Heaps
import TinyLittleOs.Memory.HmemRuns
import TinyLittleOs.Memory.BuddyRuns
import TinyLittleOs.Memory.SlabRuns
import TinyLittleOs.Ds.HashtableMap
import TinyLittleOs.Ds.RbTreeOrder
import TinyLittleOs.Fs.Counts
import TinyLittleOs.Scheduler.TaskRuns
import TinyLittleOs.Scheduler.ElfPages
import TinyLittleOs.Devices.Tty
import TinyLittleOs.Scheduler.AddressSpaceRuns
import TinyLittleOs.Ds.IntrusiveList
import TinyLittleOs.Scheduler.Rounds
import TinyLittleOs.Fs.Reading
import TinyLittleOs.Fs.Scans
import TinyLittleOs.Fs.Mounts
import TinyLittleOs.Fs.Preempt
import TinyLittleOs.Scheduler.ElfErrors
import TinyLittleOs.Scheduler.Resuming
import TinyLittleOs.Fs.Contention
import TinyLittleOs.Fs.Dying
import TinyLittleOs.Util.Cstr
import TinyLittleOs.Util.StackTrace
import TinyLittleOs.Util.StrUtil
import TinyLittleOs.Memory.BlockAddresses
import TinyLittleOs.Ds.BitsetBounds
import TinyLittleOs.Scheduler.TaskLives
import TinyLittleOs.Scheduler.ElfLoads
import TinyLittleOs.Kmain
import TinyLittleOs.Scheduler.IsolatedLoads
import TinyLittleOs.Interrupts.Preemption
import TinyLittleOs.Fs.Ownership

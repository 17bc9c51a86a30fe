import Clpkm.RunLevel
import Clpkm.HighPrioWorker
import Clpkm.LowPrioWorker
import Clpkm.SchedGuard
import Clpkm.QueueProgress
import Clpkm.BarrierCheckpoint
import Clpkm.Relaunch
import Clpkm.TimeSlice
import Clpkm.Device.Progress
import Clpkm.Device.LocalMemory
import Clpkm.PrivateCopy
import Clpkm.Layout
import Clpkm.Device.StoreLocal
import Clpkm.Device.LinearId
import Clpkm.Runtime.References
import Clpkm.Runtime.Ownership
import Clpkm.Runtime.KernelLocks
import Clpkm.Inliner.Held
import Clpkm.Inliner.Preserves
import Clpkm.Compiler.Pipes
import Clpkm.Compiler.Cleanup
import Clpkm.Compiler.Cache
import Clpkm.Runtime.PoolOwners
import Clpkm.RenameList
import Clpkm.LiveVarTracker
import Clpkm.Compiler.ProfileText
import Clpkm.NDRange
import Clpkm.System.Settling
import Clpkm.CommandQueue.Progress

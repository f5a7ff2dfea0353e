import Xv6Lab.Trap.Transparency
import Xv6Lab.Log.Shutdown
import Xv6Lab.Log.Area
import Xv6Lab.Bio.Commit
import Xv6Lab.Conc.Admission
import Xv6Lab.Conc.LockOrder
import Xv6Lab.Sched.Window
import Xv6Lab.Sched.Killed
import Xv6Lab.Virtio.Requests
import Xv6Lab.Vm.Fork
import Xv6Lab.Vm.Conservation
import Xv6Lab.Vm.Isolation
import Xv6Lab.Vm.Publish
import Xv6Lab.Fs.Accounts
import Xv6Lab.Fs.Maps
import Xv6Lab.Fs.Reach
import Xv6Lab.Vm.Pages
import Xv6Lab.Print.Agree
import Xv6Lab.Fs.Cwd
import Xv6Lab.Fs.Handles
import Xv6Lab.Sched.Sleeplock
import Xv6Lab.Vm.Fresh
import Xv6Lab.Fs.Opening
import Xv6Lab.Vm.UserAccess
import Xv6Lab.Vm.Waiting
import Xv6Lab.Vm.Loading
import Xv6Lab.Vm.DeepCopy
import Xv6Lab.Vm.FaultCure
import Xv6Lab.Fs.Unlinking
import Xv6Lab.Fs.Reclaim
import Xv6Lab.Fs.Offsets
import Xv6Lab.Fs.UserMemory
import Xv6Lab.Print.Truncation
import Xv6Lab.Console.Delivery
import Xv6Lab.Pipes.Loss
import Xv6Lab.Pipes.Fifo
import Xv6Lab.Console.Write
import Xv6Lab.Vm.Memmove
import Xv6Lab.Print.Decimal
import Xv6Lab.Vm.Dismantling
import Xv6Lab.Bio.Recency
import Xv6Lab.Fs.Bitmap
import Xv6Lab.Vm.UserString
import Xv6Lab.Fs.Crash
import Xv6Lab.Trap.Switch
import Xv6Lab.Trap.Kernelvec
import Xv6Lab.Vm.Launch
import Xv6Lab.Virtio.Service
import Xv6Lab.Sched.Rounds

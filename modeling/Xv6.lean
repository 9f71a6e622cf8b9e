import Xv6.Lib.Alone
import Xv6.Lib.Bytes
import Xv6.Lib.Heaplet
import Xv6.Lib.Links
import Xv6.Lib.Locks
import Xv6.Lib.Loops
import Xv6.Lib.Overlay
import Xv6.Lib.Ownership
import Xv6.Lib.Prog
import Xv6.Lib.System
import Xv6.Lib.Ring
import Xv6.Lib.Sums
import Xv6.Lib.Writes
import Xv6.Param
import Xv6.Bio.Cache
import Xv6.Bio.View
import Xv6.Bio.Buffers
import Xv6.Bio.Chain
import Xv6.Bio.Lru
import Xv6.Disk.Virtio
import Xv6.Disk.Requests
import Xv6.Disk.Tracking
import Xv6.Log.Header
import Xv6.Log.Code
import Xv6.Log.Admission
import Xv6.Log.Effect
import Xv6.Log.Alone
import Xv6.Log.Crash
import Xv6.Log.Shared
import Xv6.Log.Pins
import Xv6.Log.Reserve
import Xv6.Fs.Layout
import Xv6.Fs.Inode
import Xv6.Fs.View
import Xv6.Fs.Owner
import Xv6.Fs.Map
import Xv6.Fs.Trunc
import Xv6.Fs.Entry
import Xv6.Fs.Calls
import Xv6.Fs.Reclaim
import Xv6.Fs.Boot
import Xv6.Fs.Content
import Xv6.Fs.Logged
import Xv6.Fs.Fault
import Xv6.Fs.Dry
import Xv6.Lib.Script
import Xv6.Fs.Dirent
import Xv6.Fs.World
import Xv6.Fs.Path
import Xv6.Fs.Node
import Xv6.Fs.Lookup
import Xv6.Fs.Holding
import Xv6.Fs.Walk
import Xv6.Fs.Create
import Xv6.Fs.Linking
import Xv6.Fs.Undo
import Xv6.Fs.Image
import Xv6.Fs.DirMap
import Xv6.Sched.Table
import Xv6.Sched.Scheduler
import Xv6.Sched.Switch
import Xv6.Sched.Exclusive
import Xv6.Sched.Monitor
import Xv6.Sched.Waiting
import Xv6.Sched.Wakeup
import Xv6.Sched.History
import Xv6.Sched.Sleeplock
import Xv6.Sched.Kill
import Xv6.Sched.Priority
import Xv6.Sched.Killed
import Xv6.Sched.Renice
import Xv6.Sched.OneCpu
import Xv6.Sched.RoundRobin
import Xv6.Sched.Interrupts
import Xv6.Life.Code
import Xv6.Life.Moves
import Xv6.Life.Base
import Xv6.Life.Kill
import Xv6.Life.Family
import Xv6.Life.Records
import Xv6.Life.Table
import Xv6.Life.Wait
import Xv6.Ipc.Pipe
import Xv6.Ipc.Fifo
import Xv6.Ipc.Loops
import Xv6.Ipc.Sleepers
import Xv6.Ipc.Interruptible
import Xv6.Ipc.Lines
import Xv6.Vm.Pte
import Xv6.Vm.Kernel
import Xv6.Vm.Code
import Xv6.Vm.Process
import Xv6.Vm.Space
import Xv6.Vm.Walk
import Xv6.Vm.Map
import Xv6.Vm.Grow
import Xv6.Vm.Free
import Xv6.Vm.Pages
import Xv6.Vm.User
import Xv6.Vm.Memory
import Xv6.Vm.Lazy
import Xv6.Vm.Observe
import Xv6.Vm.Strings
import Xv6.Vm.Table
import Xv6.Vm.Transparent
import Xv6.Vm.Transparent
import Xv6.Vm.Resize
import Xv6.Vm.Copy
import Xv6.Vm.Args
import Xv6.Vm.Load
import Xv6.Vm.Exec
import Xv6.Vm.Fork
import Xv6.Vm.Pinfo
import Xv6.User.Memmove
import Xv6.User.Printint
import Xv6.User.Match
import Xv6.User.Grep
import Xv6.User.Heap

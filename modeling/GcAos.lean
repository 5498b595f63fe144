import GcAos.Ipc.Pipe
import GcAos.Mm.KmallocRun
import GcAos.Mm.VmmRun
import GcAos.Fs.Vfs
import GcAos.Fs.VfsEdit
import GcAos.Fs.VfsRun
import GcAos.Fs.Ext4Own
import GcAos.Fs.Ext4Acct
import GcAos.Sched.RunQueue
import GcAos.Sched.RoundRobin
import GcAos.Ipc.PipeClose
import GcAos.Fs.VfsFile
import GcAos.Fs.VfsOpen
import GcAos.Net.TcpIp
import GcAos.Net.TcpStates
import GcAos.Net.TcpStream
import GcAos.Net.TcpFrame
import GcAos.Lib.Loop
import GcAos.Loader.Elf
import GcAos.Loader.ElfReads
import GcAos.Loader.ElfWrites
import GcAos.Fs.Ext4Dir
import GcAos.Fs.Ext4Frame
import GcAos.Fs.Ext4MountSafe
import GcAos.Proc.Kill
import GcAos.Proc.ProcessRun
import GcAos.Proc.Create
import GcAos.Proc.Family
import GcAos.Lib.ListHead
import GcAos.Lib.WordMap
import GcAos.Sched.Preempt
import GcAos.Sched.PreemptArrays
import GcAos.Sched.PreemptCount
import GcAos.Net.Dns
import GcAos.Mm.VmmUser
import GcAos.Mm.VmmIsolation
import GcAos.Loader.ElfImage
import GcAos.Loader.ElfReloc
import GcAos.Syscall.UserHeap
import GcAos.Syscall.FdTable
import GcAos.Net.TcpTable
import GcAos.Net.TcpSendBuf
import GcAos.Mm.PmmRun
import GcAos.Mm.PmmHeap
import GcAos.Proc.Images
import GcAos.Mm.SlabFit
import GcAos.Sched.SignalRun
import GcAos.Sched.FairTree
import GcAos.Drivers.Refs
import GcAos.Gui.SurfaceRun
import GcAos.Gui.WindowRun
import GcAos.Events.EventPool
import GcAos.Libc.MallocRun
import GcAos.Drivers.VirtioRx
import GcAos.Drivers.VirtioTx
import GcAos.Gui.ManagerRun
import GcAos.Proc.ModernRun
import GcAos.Sync.SelfDeadlock
import GcAos.Mm.Krealloc
import GcAos.Mm.KmallocStale
import GcAos.Mm.KmallocOrder
import GcAos.Core.ModuleRun
import GcAos.Drivers.DriverLife
import GcAos.Drivers.DeviceLists
import GcAos.Mm.VmmRange
import GcAos.Mm.VmmInit
import GcAos.Mm.VmmUserRange
import GcAos.Mm.PmmEarly
import GcAos.Fs.Ext4AllocLaws
import GcAos.Fs.Ext4Truncate
import GcAos.Fs.RamfsData
import GcAos.Mm.Buddy
import GcAos.Fs.Ext4Append
import GcAos.Fs.Ext4Unwind
import GcAos.Fs.Ext4Create
import GcAos.Fs.Ext4Mkdir
import GcAos.Syscall.UserPtr
import GcAos.Net.AddressCache
import GcAos.Fs.RamfsBounds
import GcAos.Net.Checksum
import GcAos.Net.RxBounds
import GcAos.Fs.VfsPath
import GcAos.Fs.VfsOpenNamed
import GcAos.Fs.RamfsBoot
import GcAos.Fs.VfsRename
import GcAos.Proc.KillRun
import GcAos.Sched.RbErasure
import GcAos.Sched.Aging
import GcAos.Sched.TimeSlice
import GcAos.Sched.PreemptChoice
import GcAos.Net.DnsAnswer
import GcAos.Boot.DeviceTree
import GcAos.Fmt.Agreement
import GcAos.Gui.BlendWindow
import GcAos.Gui.WindowGeometry
import GcAos.Gui.WindowFocus
import GcAos.Gui.WindowStack
import GcAos.Events.HandlerOrder
import GcAos.Fs.Ext4Inodes
import GcAos.Gui.TerminalRedraw
import GcAos.Sync.SpinlockArm
import GcAos.Apps.KeyRing
import GcAos.Arch.Libgcc
import GcAos.Media.Png
import GcAos.Gui.Screen

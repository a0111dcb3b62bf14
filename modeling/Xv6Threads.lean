import Xv6Threads.Params
import Xv6Threads.Lib.CrashWrites
import Xv6Threads.Lib.Transition
import Xv6Threads.Lib.Flood
import Xv6Threads.Lib.PeerLists
import Xv6Threads.Log.Basic
import Xv6Threads.Log.Crash
import Xv6Threads.Kernel.State
import Xv6Threads.Kernel.Vm
import Xv6Threads.Kernel.Files
import Xv6Threads.Kernel.Proc
import Xv6Threads.Kernel.Sysfile
import Xv6Threads.Kernel.Syscall
import Xv6Threads.Kernel.SpawnSpec
import Xv6Threads.Kernel.LeaveSpec
import Xv6Threads.Kernel.Effects
import Xv6Threads.Analysis.Identity
import Xv6Threads.Analysis.Memory
import Xv6Threads.Analysis.Sizes
import Xv6Threads.Analysis.Sharing
import Xv6Threads.Analysis.Strangers
import Xv6Threads.Analysis.Tables
import Xv6Threads.Analysis.Directories
import Xv6Threads.Analysis.References
import Xv6Threads.Analysis.Lineage
import Xv6Threads.Analysis.Wakeups
import Xv6Threads.Analysis.Joining
import Xv6Threads.Analysis.Reaping
import Xv6Threads.Analysis.Parents
import Xv6Threads.Analysis.Killing
import Xv6Threads.Analysis.Leaks
import Xv6Threads.Analysis.Records
import Xv6Threads.Analysis.Leftovers
import Xv6Threads.Log.Ops
import Xv6Threads.Log.Reserve
import Xv6Threads.Bio.Cache
import Xv6Threads.Bio.Coherence
import Xv6Threads.Analysis.HalfOpen
import Xv6Threads.Lib.RingBuffer
import Xv6Threads.Pipe.Steps
import Xv6Threads.Pipe.Fifo
import Xv6Threads.Pipe.Wakeups
import Xv6Threads.Sched.Ownership
import Xv6Threads.Sched.Running
import Xv6Threads.Fs.Disk
import Xv6Threads.Lib.Command
import Xv6Threads.Fs.Inode
import Xv6Threads.Fs.Directory
import Xv6Threads.Fs.Owners
import Xv6Threads.Fs.Bmap
import Xv6Threads.Fs.Itrunc
import Xv6Threads.Fs.Content
import Xv6Threads.Fs.Files
import Xv6Threads.Fs.Entries
import Xv6Threads.Fs.Calls
import Xv6Threads.Fs.Exact
import Xv6Threads.Mkfs.Build
import Xv6Threads.Mkfs.Append
import Xv6Threads.Mkfs.Image
import Xv6Threads.Mkfs.WellFormed
import Xv6Threads.Fs.Names
import Xv6Threads.Mkfs.Unpack
import Xv6Threads.Sleeplock.Steps
import Xv6Threads.Lib.Words
import Xv6Threads.Sleeplock.Exclusion
import Xv6Threads.Vm.Paging
import Xv6Threads.Vm.Entries
import Xv6Threads.Vm.Tables
import Xv6Threads.Vm.Mapping
import Xv6Threads.Vm.Skipping
import Xv6Threads.Vm.Freeing
import Xv6Threads.Vm.Building
import Xv6Threads.Vm.Copying
import Xv6Threads.Vm.Growth
import Xv6Threads.Vm.Levels
import Xv6Threads.Vm.Copyout
import Xv6Threads.Vm.Loading
import Xv6Threads.Vm.Runs
import Xv6Threads.Vm.Threads
import Xv6Threads.Analysis.Pipes
import Xv6Threads.Analysis.Stacks
import Xv6Threads.Fs.Traced
import Xv6Threads.Fs.Chunks
import Xv6Threads.Fs.Room
import Xv6Threads.Fs.Arrays
import Xv6Threads.Lib.SlotMap
import Xv6Threads.Fs.Bindings
import Xv6Threads.Fs.Walk
import Xv6Threads.Console.Input
import Xv6Threads.Console.LineEdit
import Xv6Threads.Ide.Driver
import Xv6Threads.Ide.Queue
import Xv6Threads.Kernel.Args
import Xv6Threads.Boot.MpTable
import Xv6Threads.User.Grep
import Xv6Threads.User.Shell

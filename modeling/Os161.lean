import Os161.Vm.Ram
import Os161.Thread.Prealloc
import Os161.Thread.Runqueue
import Os161.Thread.Fork
import Os161.Thread.Children
import Os161.Synch.Semaphore
import Os161.Synch.Cv
import Os161.Vm.AddrSpace
import Os161.Vm.Regions
import Os161.Vm.Faults
import Os161.Userprog.Isolation
import Os161.Userprog.UserPtr
import Os161.Userprog.RangeCheck
import Os161.Userprog.LoadedImage
import Os161.Userprog.InitialStack
import Os161.Userprog.Atomic
import Os161.Userprog.ArgvBack
import Os161.Proc.ListLock
import Os161.Proc.Reaping
import Os161.Proc.Lifetime
import Os161.Proc.Waiters
import Os161.Fs.Disk
import Os161.Fs.Contents
import Os161.Fs.Forget
import Os161.Fs.Discard
import Os161.Fs.Eof
import Os161.Fs.WriteSize
import Os161.Fs.Mount
import Os161.Fs.Sync
import Os161.Fs.Reachable
import Os161.Fs.Sector
import Os161.Fs.SlotTypes
import Os161.Fs.Loading
import Os161.Fs.Residual
import Os161.Dev.ConsoleInput
import Os161.Dev.ConsoleOutput
import Os161.Dev.LhdIo
import Os161.Dev.Pseudorand
import Os161.Asst1.Stoplight
import Os161.Asst1.Catlock
import Os161.Lib.KernelHeap
import Os161.Lib.KmallocSize
import Os161.Lib.Kgets
import Os161.Lib.Strtok
import Os161.Libc.UserHeap
import Os161.Libc.MallocSize
import Os161.Libc.Freeable
import Os161.Libc.Memmove

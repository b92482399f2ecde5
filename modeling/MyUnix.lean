import MyUnix.Lib.Bytes
import MyUnix.Lib.RadixWalk
import MyUnix.Lib.StablePq
import MyUnix.Arch.Interrupt
import MyUnix.Arch.SyscallEntry
import MyUnix.Mm.PmmRun
import MyUnix.Mm.PmmCount
import MyUnix.Mm.PmmBoot
import MyUnix.Mm.HeapFree
import MyUnix.Mm.Slab
import MyUnix.Mm.HeapSizes
import MyUnix.Mm.HeapFrames
import MyUnix.Mm.SpacePages
import MyUnix.Mm.AllocUser
import MyUnix.Mm.UserRanges
import MyUnix.Mm.Destroy
import MyUnix.Mm.Spaces
import MyUnix.Mm.TableCount
import MyUnix.Mm.FrameCost
import MyUnix.Mm.Clone
import MyUnix.Mm.HeapTables
import MyUnix.Mm.KernelHalf
import MyUnix.Mm.FrameRuns
import MyUnix.Proc.Brk
import MyUnix.Proc.Mmap
import MyUnix.Proc.BrkFrame
import MyUnix.Mm.Vmm
import MyUnix.Mm.DirectMap
import MyUnix.Mm.PhysWindow
import MyUnix.Proc.RunQueues
import MyUnix.Proc.WaitQueues
import MyUnix.Proc.FdRefs
import MyUnix.Proc.UserConfined
import MyUnix.Proc.FdTable
import MyUnix.Proc.RunqOrder
import MyUnix.Proc.Signal
import MyUnix.Proc.KillWake
import MyUnix.Proc.ProcTable
import MyUnix.Proc.ProcTree
import MyUnix.Proc.ElfConfined
import MyUnix.Proc.ElfEntry
import MyUnix.Proc.Cwd
import MyUnix.Proc.WaitWake
import MyUnix.Proc.WaitScan
import MyUnix.Proc.PidAlloc
import MyUnix.Proc.SwitchStack
import MyUnix.Proc.Getrandom
import MyUnix.Ipc.PipeStream
import MyUnix.Ipc.PipeSleep
import MyUnix.Ipc.PipeQueue
import MyUnix.Fs.Mounts
import MyUnix.Fs.Vfs
import MyUnix.Fs.VfsRefs
import MyUnix.Fs.VfsOpen
import MyUnix.Fs.InitrdTree
import MyUnix.Fs.LookupParent
import MyUnix.Fs.InitrdReaddir
import MyUnix.Fs.Cpio
import MyUnix.Fs.TmpfsFile
import MyUnix.Fs.TmpfsTree
import MyUnix.Fs.OpenUnlink
import MyUnix.Proc.FileViews
import MyUnix.Proc.Fork
import MyUnix.Proc.ExitStatus
import MyUnix.Proc.SysPipe
import MyUnix.Proc.Fcntl
import MyUnix.Proc.ExecArgs
import MyUnix.Proc.ElfBytes
import MyUnix.Proc.ElfStack
import MyUnix.Proc.ElfPhdr
import MyUnix.Fs.Getdents
import MyUnix.Proc.RandState
import MyUnix.Fs.InitrdBounds
import MyUnix.Fs.InitrdRead
import MyUnix.Fs.TmpfsBounds
import MyUnix.Mm.HeapBestFit
import MyUnix.Lib.ForLoop
import MyUnix.Console.Vga
import MyUnix.Console.FormatText
import MyUnix.Kernel.ListHead
import MyUnix.Kernel.CString
import MyUnix.Proc.ElfConfined
import MyUnix.Proc.ElfCopy
import MyUnix.Kernel.CMem
import MyUnix.Lib.Digits
import MyUnix.Mm.HeapBytes
import MyUnix.Mm.HeapObjects
import MyUnix.Arch.Irq
import MyUnix.Lib.SpinLock
import MyUnix.Mm.PmmLocked
import MyUnix.Mm.Multiboot
import MyUnix.Proc.DescRefine
import MyUnix.Arch.Segments
import MyUnix.Proc.SendSignals
import MyUnix.Proc.TimeSlice
import MyUnix.Mm.BootMemory

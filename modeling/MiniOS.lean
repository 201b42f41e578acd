import MiniOS.Ring
import MiniOS.ListHead
import MiniOS.Word
import MiniOS.Blocks
import MiniOS.Zone
import MiniOS.ZoneSound
import MiniOS.ByteMem
import MiniOS.Chain
import MiniOS.Layout
import MiniOS.Slab
import MiniOS.SlabAccount
import MiniOS.PtrTree
import MiniOS.Vma
import MiniOS.VmaRanges
import MiniOS.Paging
import MiniOS.PagingSound
import MiniOS.Radix
import MiniOS.PageTable
import MiniOS.PageTableSound
import MiniOS.Sched
import MiniOS.SchedSound
import MiniOS.Pipe
import MiniOS.PipeSound
import MiniOS.Dcache
import MiniOS.DcacheSound
import MiniOS.Namei
import MiniOS.NameiSound
import MiniOS.Files
import MiniOS.FilesSound
import MiniOS.Malloc
import MiniOS.MallocSound
import MiniOS.ZoneComplete
import MiniOS.Pidmap
import MiniOS.Process
import MiniOS.ProcessSound
import MiniOS.ProcTable
import MiniOS.ProcTableSound
import MiniOS.WaitSound
import MiniOS.PidReuse
import MiniOS.PidmapSound
import MiniOS.Runs
import MiniOS.Tty
import MiniOS.TtySound
import MiniOS.Keyboard
import MiniOS.KeyboardSound
import MiniOS.PipeEnds
import MiniOS.PipeEndsSound
import MiniOS.UserIo
import MiniOS.UserIoSound
import MiniOS.KernelFault
import MiniOS.UserBrk
import MiniOS.UserBrkSound
import MiniOS.MallocSbrk
import MiniOS.MallocSbrkSound
import MiniOS.RoundRobin
import MiniOS.MountTable
import MiniOS.MountTableSound
import MiniOS.BufferCache
import MiniOS.BufferCacheSound
import MiniOS.VmaTree
import MiniOS.Teardown
import MiniOS.TeardownSound
import MiniOS.HeapBrk
import MiniOS.HeapBrkSound
import MiniOS.Bootmm
import MiniOS.BootmmSound
import MiniOS.ZoneInit
import MiniOS.ZoneInitSound
import MiniOS.PipeCapacity
import MiniOS.SysClose
import MiniOS.UserMem
import MiniOS.PipeCall
import MiniOS.SegmentArea
import MiniOS.ForkEntries
import MiniOS.UserRun
import MiniOS.UserFault
import MiniOS.TaskSpaces
import MiniOS.TaskSpacesSound
import MiniOS.UserFrames
import MiniOS.ForkCopy
import MiniOS.Elf
import MiniOS.ElfSound
import MiniOS.Execve
import MiniOS.ArgStack
import MiniOS.RamfsRead
import MiniOS.MallocLayout
import MiniOS.FdCalls
import MiniOS.PathBuffer
import MiniOS.ExitEnds
import MiniOS.PidArgs
import MiniOS.UserKill
import MiniOS.NodeCreate
import MiniOS.NodeCreateSound
import MiniOS.BootRequests
import MiniOS.BootMap
import MiniOS.BootMapSound
import MiniOS.MmioWindows
import MiniOS.VmaSearch
import MiniOS.MkdirLast
import MiniOS.Multiboot
import MiniOS.MinixRead
import MiniOS.TrapFrame
import MiniOS.Multitask
import MiniOS.MemMove
import MiniOS.Console
import MiniOS.Readline
import MiniOS.ShellTokens

import Hurlex.List
import Hurlex.Types
import Hurlex.String
import Hurlex.StringCompare
import Hurlex.Lib.LinkRing
import Hurlex.Lib.Segment
import Hurlex.Lib.Runs
import Hurlex.Lib.MaximalRuns
import Hurlex.Lib.BuddyIndex
import Hurlex.Lib.Machine
import Hurlex.Lib.Trap
import Hurlex.Lib.TwoLevel
import Hurlex.Lib.Cyclic
import Hurlex.Lib.Ring
import Hurlex.Lib.Terminal
import Hurlex.Lib.Interrupt
import Hurlex.Lib.Pic
import Hurlex.Lib.Ata
import Hurlex.Lib.CountedLock
import Hurlex.Lib.LinkPath
import Hurlex.Lib.RedBlack
import Hurlex.Lib.RedBlackRepair
import Hurlex.ListEdit
import Hurlex.ListRun
import Hurlex.Rbtree.Rbtree
import Hurlex.Rbtree.RbtreeRep
import Hurlex.Rbtree.RbtreeOps
import Hurlex.Rbtree.RbtreeInsert
import Hurlex.Rbtree.RbtreeEraseColor
import Hurlex.Rbtree.RbtreeErase
import Hurlex.Rbtree.RbtreeWalk
import Hurlex.Rbtree.RbtreeSearch
import Hurlex.Rbtree.RbtreeRun
import Hurlex.Mm.Slob
import Hurlex.Mm.SlobBlocks
import Hurlex.Mm.SlobRun
import Hurlex.Mm.SlobLaws
import Hurlex.Mm.Pmm
import Hurlex.Mm.PmmInit
import Hurlex.Mm.BootSize
import Hurlex.Mm.RamInfo
import Hurlex.Mm.FirstFit
import Hurlex.Mm.FirstFitRuns
import Hurlex.Mm.FirstFitHistory
import Hurlex.Mm.FirstFitReserved
import Hurlex.Mm.FirstFitStates
import Hurlex.Mm.Buddy
import Hurlex.Mm.BuddyLists
import Hurlex.Mm.BuddyCanon
import Hurlex.Mm.BuddyCounts
import Hurlex.Mm.BuddyRep
import Hurlex.Mm.BuddyPool
import Hurlex.Mm.BuddyServe
import Hurlex.Mm.BuddyStuck
import Hurlex.Mm.BuddyStray
import Hurlex.Mm.BuddyInit
import Hurlex.Mm.BuddyDecompose
import Hurlex.Mm.BuddySelfTest
import Hurlex.Mm.BuddyHistory
import Hurlex.Mm.BuddyStates
import Hurlex.Mm.BuddyRefusal
import Hurlex.Mm.Vmm
import Hurlex.Mm.VmmHistory
import Hurlex.Mm.VmmBoot
import Hurlex.Mm.VmmWindow
import Hurlex.Mm.VmmIsolation
import Hurlex.Mm.VmmRun
import Hurlex.Mm.VmmNoMemory
import Hurlex.Mm.Gdt
import Hurlex.Task.SwitchTo
import Hurlex.Task.Pid
import Hurlex.Task.Task
import Hurlex.Task.Sched
import Hurlex.Task.Interleave
import Hurlex.Task.RoundRobin
import Hurlex.Task.PidHistory
import Hurlex.Task.FindTask
import Hurlex.Task.Progress
import Hurlex.Task.TaskLimit
import Hurlex.Task.Kthread
import Hurlex.Task.Fork
import Hurlex.Task.ProcName
import Hurlex.Driver.Kboard
import Hurlex.Driver.KboardQueue
import Hurlex.Driver.KboardControls
import Hurlex.Driver.KboardRead
import Hurlex.Driver.Console
import Hurlex.Driver.ConsoleWindow
import Hurlex.Driver.ConsoleScreen
import Hurlex.Driver.Ide
import Hurlex.Driver.IdeBus
import Hurlex.Driver.IdeDisk
import Hurlex.Kernel.Printk
import Hurlex.Kernel.PrintkNumber
import Hurlex.Kernel.PrintkFormat
import Hurlex.Kernel.PrintkRender
import Hurlex.Kernel.PrintkTasks
import Hurlex.Kernel.PrintkScan
import Hurlex.Kernel.StackTrace
import Hurlex.Kernel.Spinlock
import Hurlex.Kernel.Intr
import Hurlex.Kernel.IntrFrame
import Hurlex.Kernel.Syscall
import Hurlex.Driver.Pic
import Hurlex.Driver.Registry
import Hurlex.Fs.Sfs
import Hurlex.Fs.SfsInit
import Hurlex.Fs.Mbr
import Hurlex.Driver.IdeInit

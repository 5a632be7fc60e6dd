import Ucore.Lib.CircularList
import Ucore.Lib.Run
import Ucore.Libs.List
import Ucore.Kern.Mm.DefaultPmm.FirstFit
import Ucore.Kern.Fs.Sfs.FileIo
import Ucore.Kern.Fs.Sfs.SfsInode.Lemmas.Truncfile
import Ucore.Kern.Process.ProcRuns
import Ucore.Kern.Fs.FileSys
import Ucore.Kern.Fs.Sfs.InodeCache.CacheRuns
import Ucore.Kern.Fs.VfsSys
import Ucore.Kern.Process.ProcFiles
import Ucore.Tools.Mksfs.Walk
import Ucore.Kern.Trap.TrapRuns
import Ucore.Kern.Mm.Kmalloc.KmallocRuns
import Ucore.Kern.Trap.UserFault
import Ucore.Kern.Process.LoadIcode.Stale
import Ucore.Kern.Mm.Vmm.MmStruct
import Ucore.Kern.Schedule.Sched.Stride
import Ucore.Kern.Schedule.SchedGarbage
import Ucore.Lab3.Swap.Transparent
import Ucore.Kern.Mm.AllocPages
import Ucore.Kern.Schedule.SchedStride
import Ucore.Kern.Mm.DefaultPmm.Coalesce
import Ucore.Kern.Schedule.TimerRuns
import Ucore.Lib.BuddyTree
import Ucore.Lab2.Buddy.Runs
import Ucore.Kern.Fs.Devs.StdinRuns
import Ucore.Kern.Sync.SemInvariant
import Ucore.Kern.Sync.PhiRuns
import Ucore.Kern.Fs.Sfs.SfsLock.Deadlock
import Ucore.Lab2.Slub.Runs
import Ucore.Lab2.BestFit
import Ucore.Kern.Mm.Vmm.MmMap
import Ucore.Kern.Mm.Vmm.UserMemCheck
import Ucore.Kern.Mm.Vmm.CopyString
import Ucore.Lab3.Swap.SwapOut
import Ucore.Kern.Trap.FaultService
import Ucore.Kern.Process.DoExecve.Impl
import Ucore.Kern.Process.DoExecve.AllOrNothing
import Ucore.Kern.Process.LoadIcode.Arguments
import Ucore.Lab3.Swap.Clock
import Ucore.Lab3.Swap.Lru
import Ucore.Lab2.Buddy.AllocResult
import Ucore.Lab2.Slub.FreePages
import Ucore.Libs.SkewHeap.Runs
import Ucore.Kern.Fs.Sfs.BlockMaps
import Ucore.Kern.Fs.Sfs.Truncate
import Ucore.Kern.Fs.Sysfile.Read
import Ucore.Kern.Fs.Sysfile.Getdirentry
import Ucore.Kern.Fs.Sfs.SfsNamefile.Namefile
import Ucore.Lab2.Buddy.IndexArithmetic
import Ucore.Kern.Driver.ConsoleRuns
import Ucore.Kern.Fs.Kmem
import Ucore.Kern.Fs.Sfs.Bitmap.Create
import Ucore.Kern.Fs.Sfs.Bitmap.BitmapRuns
import Ucore.Lib.Numeral
import Ucore.Libs.Printfmt.Impl
import Ucore.Libs.Printfmt.Format
import Ucore.Libs.Printfmt.Lemmas
import Ucore.Libs.Printfmt.FormattedOutput
import Ucore.Libs.NumberText
import Ucore.Libs.String
import Ucore.User.Gettoken
import Ucore.User.GettokenRuns
import Ucore.Lib.CString
import Ucore.Kern.Fs.Vfs.Path
import Ucore.Kern.Fs.Vfs.DevicePrefix
import Ucore.Kern.Fs.Sfs.SfsFs.Sync
import Ucore.Kern.Fs.Sfs.SfsFs.SyncRuns
import Ucore.Kern.Fs.Sfs.SfsFs.Mount
import Ucore.Kern.Fs.Sfs.SfsFs.AllocRuns
import Ucore.Kern.Fs.Sfs.SfsFs.MountRuns
import Ucore.Tools.Mksfs.Image
import Ucore.Kern.Fs.Sfs.SfsFs.SyncMount
import Ucore.Lab6.RoundRobin
import Ucore.Kern.Fs.Vfs.VfsDev
import Ucore.Kern.Fs.Sysfile.Write

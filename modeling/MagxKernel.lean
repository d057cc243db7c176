import MagxKernel.PageAlloc.Buddy
import MagxKernel.SysvSem.Undo
import MagxKernel.RadixTree.Tags
import MagxKernel.Idr.Operations
import MagxKernel.TimerWheel.Refine
import MagxKernel.ByteFifo.Queue
import MagxKernel.RwSem.Holders
import MagxKernel.RtMutex.Semaphore
import MagxKernel.SysvIpc.Identifiers
import MagxKernel.SwapMap.Bounds
import MagxKernel.FileLocks.Deadlock
import MagxKernel.FileLocks.Request
import MagxKernel.Resources.Tree
import MagxKernel.RtMutex.Handover
import MagxKernel.RbTree.Insert
import MagxKernel.SysvMsg.Balance
import MagxKernel.Pid.Alloc
import MagxKernel.Printk.Vprintk
import MagxKernel.Bitmap.Print
import MagxKernel.IpFragment.Defrag
import MagxKernel.Jbd.Ring
import MagxKernel.Jffs2.Dirents
import MagxKernel.Jffs2.Dynrubin
import MagxKernel.Vmalloc.FirstFit
import MagxKernel.Pramfs.Truncate
import MagxKernel.Pramfs.History
import MagxKernel.NandEcc.Correct
import MagxKernel.Vsprintf.Sizes
import MagxKernel.Pramfs.Inodes
import MagxKernel.Evb.Classes
import MagxKernel.Evb.Wakeup
import MagxKernel.Xfrm.Replay
import MagxKernel.PowerIc.Events
import MagxKernel.Workqueue.Flush
import MagxKernel.Div64.Division

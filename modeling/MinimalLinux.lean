import MinimalLinux.Mm.MemblockFree
import MinimalLinux.Mm.MemblockScan
import MinimalLinux.Mm.SlobRun
import MinimalLinux.X86.E820Sanitize
import MinimalLinux.Lib.IntervalTree
import MinimalLinux.Lib.Timerqueue
import MinimalLinux.Lib.Plist
import MinimalLinux.Lib.IdaRun
import MinimalLinux.Kernel.TimerWheel
import MinimalLinux.Lib.ParselistList
import MinimalLinux.Lib.Kfifo
import MinimalLinux.Mm.UnmappedArea
import MinimalLinux.Mm.Vmalloc
import MinimalLinux.Fs.Pipe
import MinimalLinux.Mm.PageFrag
import MinimalLinux.Kernel.Syslog
import MinimalLinux.Kconfig.ConfString
import MinimalLinux.Kconfig.ExprTransform
import MinimalLinux.Kconfig.ExprDups
import MinimalLinux.Lib.VsprintfNumber
import MinimalLinux.Lib.Cmdline
import MinimalLinux.Fs.File
import MinimalLinux.Fs.SeqFile
import MinimalLinux.Kernel.IrqMatrixRun
import MinimalLinux.Drivers.RtcLib
import MinimalLinux.Mm.PcpFree
import MinimalLinux.Kernel.ResourceTree
import MinimalLinux.Kconfig.TransCompare
import MinimalLinux.Kernel.NextTimer
import MinimalLinux.Kernel.Jiffies
import MinimalLinux.Lib.Parser
import MinimalLinux.Lib.ReciprocalDiv

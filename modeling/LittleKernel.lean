import LittleKernel.Arm64.PartialUnmap
import LittleKernel.Avb
import LittleKernel.AvbRead
import LittleKernel.BcacheFaults
import LittleKernel.Bio.ByteRange
import LittleKernel.Bio.Subdevice
import LittleKernel.Bootargs
import LittleKernel.Bootimage
import LittleKernel.CmdBoot
import LittleKernel.Cmpctmalloc.Live
import LittleKernel.Console.Loop
import LittleKernel.DeviceTree
import LittleKernel.Elf
import LittleKernel.FastbootPayload
import LittleKernel.Fdt
import LittleKernel.Fs.Ext2.Exact
import LittleKernel.Fs.Fat32.ReadFile
import LittleKernel.Fs.Lookup
import LittleKernel.Fs.Memfs
import LittleKernel.Fs.Spifs.Content
import LittleKernel.Gfx
import LittleKernel.Gpt.Guid
import LittleKernel.Gpt.PitEntry
import LittleKernel.Gpt.PitUpdate
import LittleKernel.Gpt.Reboot
import LittleKernel.Gpt.SparseFlash
import LittleKernel.Iovec
import LittleKernel.Kernel.AllocSpot
import LittleKernel.Kernel.Event
import LittleKernel.Kernel.Mutex
import LittleKernel.Kernel.Novm.Ownership
import LittleKernel.Kernel.Pmm.Contiguous
import LittleKernel.Kernel.Port.Wakeups
import LittleKernel.Kernel.Scheduler
import LittleKernel.Kernel.Semaphore
import LittleKernel.Kernel.Teardown
import LittleKernel.Kernel.Timer.Cancel
import LittleKernel.Kernel.Timer.Queue
import LittleKernel.Klog.Reading
import LittleKernel.Lkboot.Dcc
import LittleKernel.Lkboot.Framing
import LittleKernel.Miniheap.Wrapper
import LittleKernel.Minip.Chksum
import LittleKernel.Minip.NetTimer
import LittleKernel.Minip.Window
import LittleKernel.Mmc
import LittleKernel.MmcPartition
import LittleKernel.Printf.Vsnprintf
import LittleKernel.Ptable.Layout
import LittleKernel.Strtoul
import LittleKernel.SysparamScan
import LittleKernel.Tftp

import MandelbrotOS.Runs
import MandelbrotOS.ByteMemory
import MandelbrotOS.Forests
import MandelbrotOS.Splice
import MandelbrotOS.Pmm
import MandelbrotOS.PmmProofs
import MandelbrotOS.Scheduler
import MandelbrotOS.SchedulerRotation
import MandelbrotOS.SchedulerProofs
import MandelbrotOS.ArgStack
import MandelbrotOS.Vmm
import MandelbrotOS.PageTables
import MandelbrotOS.PmmSupply
import MandelbrotOS.PageMapRefinement
import MandelbrotOS.KernelHalf
import MandelbrotOS.Kheap
import MandelbrotOS.PageLoops
import MandelbrotOS.Vectors
import MandelbrotOS.Vfs
import MandelbrotOS.Credentials
import MandelbrotOS.Descriptors
import MandelbrotOS.OpenModes
import MandelbrotOS.Handles
import MandelbrotOS.HandleBooks
import MandelbrotOS.DescriptorSlots
import MandelbrotOS.Balance
import MandelbrotOS.RefCounts
import MandelbrotOS.Pipes
import MandelbrotOS.Mounts
import MandelbrotOS.Tmpfs
import MandelbrotOS.TmpfsTree
import MandelbrotOS.Mmap
import MandelbrotOS.RangeMapping
import MandelbrotOS.MunmapProofs
import MandelbrotOS.Elf
import MandelbrotOS.LastWrites
import MandelbrotOS.PageEntries
import MandelbrotOS.ElfImage
import MandelbrotOS.UserRequests
import MandelbrotOS.ForkPagemap
import MandelbrotOS.BlockDevice
import MandelbrotOS.Walks
import MandelbrotOS.Blocks
import MandelbrotOS.Fat
import MandelbrotOS.FatLookup
import MandelbrotOS.FatChains
import MandelbrotOS.FatDelete
import MandelbrotOS.FatFiles
import MandelbrotOS.ReadBack
import MandelbrotOS.DescriptorBounds
import MandelbrotOS.DrainedPipes
import MandelbrotOS.GrowableArrays
import MandelbrotOS.TmpfsArray
import MandelbrotOS.ProcessTree
import MandelbrotOS.PmmSections
import MandelbrotOS.FatAlloc
import MandelbrotOS.MmapQuota
import MandelbrotOS.PagemapFrames
import MandelbrotOS.FatArray
import MandelbrotOS.FatPaths
import MandelbrotOS.FatCreate
import MandelbrotOS.FatNames
import MandelbrotOS.FatSlots
import MandelbrotOS.FatLongNames
import MandelbrotOS.FatCreateProofs
import MandelbrotOS.FatTable
import MandelbrotOS.FatTransfers
import MandelbrotOS.FatShortNames
import MandelbrotOS.MmapFailures
import MandelbrotOS.FatTermination
import MandelbrotOS.FatTruncate
import MandelbrotOS.FatHoles
import MandelbrotOS.FatEntries
import MandelbrotOS.FileReads
import MandelbrotOS.Programs
import MandelbrotOS.Framebuffer
import MandelbrotOS.ForkPermissions
import MandelbrotOS.PagemapLife
import MandelbrotOS.Calendar
import MandelbrotOS.WallClock
import MandelbrotOS.Console
import MandelbrotOS.Pci
import MandelbrotOS.PmmInit
import MandelbrotOS.RoundRobin
import MandelbrotOS.Events
import MandelbrotOS.WaitPid
import MandelbrotOS.VmmMemcpy
import MandelbrotOS.VmmMemcpyFaults
import MandelbrotOS.Spans
import MandelbrotOS.Memmove
import MandelbrotOS.Tty
import MandelbrotOS.AcpiMadt
import MandelbrotOS.IoApic
import MandelbrotOS.BaseRegisters
import MandelbrotOS.Ahci
import MandelbrotOS.NextThread
import MandelbrotOS.Environ
import MandelbrotOS.Printf

import OsMaterial.Machine
import OsMaterial.Semaphore
import OsMaterial.Lock
import OsMaterial.Condition
import OsMaterial.Console
import OsMaterial.Ide
import OsMaterial.LibStrings
import OsMaterial.BootOptions
import OsMaterial.KernelCommandLine
import OsMaterial.DiskImage
import OsMaterial.PartitionScan
import OsMaterial.Arithmetic
import OsMaterial.Scheduler
import OsMaterial.Links
import OsMaterial.KernelList
import OsMaterial.ListFamily
import OsMaterial.ListSort
import OsMaterial.ListUnique
import OsMaterial.ArraySort
import OsMaterial.Hash
import OsMaterial.AllList
import OsMaterial.Malloc
import OsMaterial.Realloc
import OsMaterial.BitmapArray
import OsMaterial.Store
import OsMaterial.Palloc
import OsMaterial.Serial
import OsMaterial.Process
import OsMaterial.Ustar
import OsMaterial.FreshFiles
import OsMaterial.DenyWrite
import OsMaterial.DirFailures
import OsMaterial.MapFailures
import OsMaterial.Readdir
import OsMaterial.PagedirMap
import OsMaterial.PagingInit
import OsMaterial.PrintfLayout
import OsMaterial.Fsutil
import OsMaterial.InodeIo
import OsMaterial.LshRuns
import OsMaterial.Stripwhite
import OsMaterial.AnswerSheet
import OsMaterial.StringFunctions
import OsMaterial.UstarChecks
import OsMaterial.Timer
import OsMaterial.Rtc
import OsMaterial.HashIterator
import OsMaterial.PrintfSinks
import OsMaterial.ScratchDisk

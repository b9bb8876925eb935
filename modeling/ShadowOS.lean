import ShadowOS.Base.Bytes
import ShadowOS.Base.Copy
import ShadowOS.Base.Radix
import ShadowOS.Base.Layout
import ShadowOS.Base.Intervals
import ShadowOS.Base.Chain
import ShadowOS.Base.Linked
import ShadowOS.Base.Forest
import ShadowOS.Base.Run
import ShadowOS.Base.Calendar
import ShadowOS.Lib.CString
import ShadowOS.Lib.Fields
import ShadowOS.Lib.Memory
import ShadowOS.Lib.MemoryTheorems
import ShadowOS.Lib.Tokens
import ShadowOS.Lib.StrtokTheorems
import ShadowOS.Lib.StrtolTheorems
import ShadowOS.Lib.Config
import ShadowOS.Lib.Printk
import ShadowOS.Dev.Time
import ShadowOS.Dev.TimeTheorems
import ShadowOS.Dev.Rtc
import ShadowOS.Dev.Keyboard
import ShadowOS.Mm.State
import ShadowOS.Mm.Pmm
import ShadowOS.Mm.Vmm
import ShadowOS.Mm.Vma
import ShadowOS.Mm.Runs
import ShadowOS.Mm.PmmSpec
import ShadowOS.Mm.Exhaustion
import ShadowOS.Mm.Init
import ShadowOS.Mm.Liballoc
import ShadowOS.Mm.LiballocSpec
import ShadowOS.Mm.Lemmas.Pmm
import ShadowOS.Mm.Lemmas.PageTable
import ShadowOS.Mm.Lemmas.Vmm
import ShadowOS.Mm.Lemmas.PmmInit
import ShadowOS.Mm.Lemmas.Cache
import ShadowOS.Mm.Lemmas.Held
import ShadowOS.Mm.Lemmas.Loaded
import ShadowOS.Mm.Lemmas.Spaces
import ShadowOS.Mm.Lemmas.Tables
import ShadowOS.Mm.Lemmas.Vma
import ShadowOS.Mm.Lemmas.Unloaded
import ShadowOS.Mm.Lemmas.Regions
import ShadowOS.Mm.Lemmas.VmaRun
import ShadowOS.Mm.Lemmas.Links
import ShadowOS.Mm.Lemmas.Undo
import ShadowOS.Mm.Lemmas.Blocks
import ShadowOS.Mm.Lemmas.Heap
import ShadowOS.Mm.Lemmas.Kmalloc
import ShadowOS.Mm.Lemmas.Kfree
import ShadowOS.Mm.Lemmas.Client
import ShadowOS.Mm.Lemmas.Oversize
import ShadowOS.Mm.Theorems
import ShadowOS.Mm.PmmTheorems
import ShadowOS.Mm.VmaTheorems
import ShadowOS.Mm.ExhaustionTheorems
import ShadowOS.Mm.InitTheorems
import ShadowOS.Mm.LiballocTheorems
import ShadowOS.Proc.Elf
import ShadowOS.Proc.Scheduler
import ShadowOS.Proc.Spec
import ShadowOS.Proc.ElfReads
import ShadowOS.Proc.Lemmas.Elf
import ShadowOS.Proc.Lemmas.Descriptors
import ShadowOS.Proc.Lemmas.Allocator
import ShadowOS.Proc.Lemmas.Scheduler
import ShadowOS.Proc.Lemmas.Switch
import ShadowOS.Proc.Lemmas.Spawn
import ShadowOS.Proc.Theorems
import ShadowOS.Proc.ElfTheorems
import ShadowOS.Proc.SchedulerTheorems
import ShadowOS.Proc.SpawnTheorems
import ShadowOS.Proc.SwitchTheorems
import ShadowOS.Proc.TableTheorems
import ShadowOS.Proc.TickTheorems
import ShadowOS.Fs.Vnode
import ShadowOS.Fs.Ramfs
import ShadowOS.Fs.Devfs
import ShadowOS.Fs.Vfs
import ShadowOS.Fs.Init
import ShadowOS.Fs.Delete
import ShadowOS.Fs.Ustar
import ShadowOS.Fs.Spec
import ShadowOS.Fs.Lemmas.Ramfs
import ShadowOS.Fs.Lemmas.Path
import ShadowOS.Fs.Lemmas.FullPath
import ShadowOS.Fs.Lemmas.Create
import ShadowOS.Fs.Lemmas.Calls
import ShadowOS.Fs.Lemmas.Lookup
import ShadowOS.Fs.Lemmas.Mounts
import ShadowOS.Fs.Lemmas.Ustar
import ShadowOS.Fs.Lemmas.Unpack
import ShadowOS.Fs.Lemmas.Grow
import ShadowOS.Fs.Lemmas.Boot
import ShadowOS.Fs.Theorems
import ShadowOS.Fs.RamfsTheorems
import ShadowOS.Fs.UstarTheorems
import ShadowOS.Fs.UnpackTheorems
import ShadowOS.Fs.DeleteTheorems
import ShadowOS.Sys.Syscall
import ShadowOS.Sys.Spec
import ShadowOS.Sys.Lemmas.Invariant
import ShadowOS.Sys.Lemmas.Calls
import ShadowOS.Sys.Lemmas.Status
import ShadowOS.Sys.Lemmas.Open
import ShadowOS.Sys.Lemmas.Identity
import ShadowOS.Sys.Theorems
import ShadowOS.Sys.ProcessTheorems
import ShadowOS.Sys.TreeTheorems

import Onix.Lib.Run
import Onix.Lib.Outcome
import Onix.Lib.Prog
import Onix.Lib.Commute
import Onix.Lib.Trace
import Onix.Lib.Code
import Onix.Lib.First
import Onix.Lib.Cow
import Onix.Lib.Chain
import Onix.Lib.Bytes
import Onix.Lib.Cache
import Onix.Spec.Mutex
import Onix.Sanity.MutexInv
import Onix.Proofs.Mutex
import Onix.Spec.Handoff
import Onix.Proofs.Handoff
import Onix.Spec.Task
import Onix.Sanity.TaskTree
import Onix.Sanity.TaskInv
import Onix.Sanity.TaskHistory
import Onix.Proofs.Task
import Onix.Spec.Sched
import Onix.Sanity.SchedInv
import Onix.Proofs.Sched
import Onix.Proofs.Slices
import Onix.Proofs.Search
import Onix.Proofs.Wakeup
import Onix.Spec.Arena
import Onix.Sanity.ArenaInv
import Onix.Sanity.ArenaOps
import Onix.Proofs.Arena
import Onix.Sanity.Contents
import Onix.Sanity.FileTable
import Onix.Proofs.Contents
import Onix.Proofs.Split
import Onix.Proofs.Names
import Onix.Proofs.Truncate
import Onix.Spec.Bitmap
import Onix.Sanity.BitmapScan
import Onix.Proofs.Bitmap
import Onix.Spec.Fs
import Onix.Spec.Bmap
import Onix.Spec.Path
import Onix.Spec.Inode
import Onix.Spec.Namei
import Onix.Spec.Truncate
import Onix.Spec.File
import Onix.Spec.Image
import Onix.Sanity.FsFrame
import Onix.Sanity.DescFields
import Onix.Sanity.NameiCases
import Onix.Sanity.FileOps
import Onix.Sanity.Chunks
import Onix.Proofs.Permission
import Onix.Proofs.Atomic
import Onix.Proofs.OpenMode
import Onix.Proofs.Sticky
import Onix.Proofs.Offsets
import Onix.Proofs.Descriptors
import Onix.Sanity.AbspathSpec
import Onix.Proofs.Chdir
import Onix.Sanity.BmapSpec
import Onix.Proofs.NoSpace
import Onix.Sanity.Lookup
import Onix.Sanity.NameMatch
import Onix.Sanity.AddEntry
import Onix.Sanity.CellsSpec
import Onix.Sanity.InodeSpec
import Onix.Sanity.TreeSpec
import Onix.Sanity.TruncateSpec
import Onix.Proofs.Chroot
import Onix.Proofs.Cells
import Onix.Sanity.BallocSpec
import Onix.Proofs.Zones
import Onix.Proofs.Memory
import Onix.Proofs.Pages
import Onix.Proofs.Brk
import Onix.Spec.Tlb
import Onix.Sanity.TlbInv
import Onix.Proofs.Tlb
import Onix.Spec.CopyOut
import Onix.Proofs.CopyOut
import Onix.Sanity.IallocSpec
import Onix.Proofs.Inodes
import Onix.Spec.Buffer
import Onix.Sanity.BufferLinks
import Onix.Sanity.BufferInv
import Onix.Proofs.Buffer
import Onix.Spec.Waiting
import Onix.Proofs.Waiting
import Onix.Spec.Iget
import Onix.Sanity.IgetInv
import Onix.Proofs.Iget
import Onix.Spec.Reckon
import Onix.Proofs.Reckon
import Onix.Spec.Memory
import Onix.Sanity.MemorySpec
import Onix.Sanity.MemoryInv
import Onix.Sanity.MemoryShare
import Onix.Sanity.MemoryOps
import Onix.Sanity.MemoryTask
import Onix.Sanity.MemoryFork
import Onix.Sanity.MemoryUser
import Onix.Spec.Device
import Onix.Sanity.DeviceInv
import Onix.Proofs.Device
import Onix.Proofs.Elevator
import Onix.Spec.Exit
import Onix.Sanity.ExitInv
import Onix.Proofs.Exit
import Onix.Spec.Writeback
import Onix.Sanity.WritebackInv
import Onix.Proofs.Writeback
import Onix.Spec.Console
import Onix.Spec.Terminal
import Onix.Sanity.ConsoleInv
import Onix.Proofs.Console
import Onix.Sanity.TerminalRun
import Onix.Proofs.Terminal
import Onix.Spec.Keymap
import Onix.Proofs.Caps
import Onix.Spec.Fifo
import Onix.Sanity.FifoSpec
import Onix.Lib.Lossy
import Onix.Spec.Keyboard
import Onix.Sanity.KeyboardInv
import Onix.Proofs.Keyboard
import Onix.Lib.Linked
import Onix.Spec.List
import Onix.Sanity.ListSpec
import Onix.Proofs.List
import Onix.Proofs.Kmalloc
import Onix.Spec.Ards
import Onix.Proofs.Ards
import Onix.Lib.Turns
import Onix.Spec.Named
import Onix.Sanity.NamedTurn
import Onix.Proofs.Named
import Onix.Proofs.InsertSort
import Onix.Spec.Memcmp
import Onix.Proofs.Memcmp
import Onix.Spec.Clock
import Onix.Proofs.Clock
import Onix.Lib.Calendar
import Onix.Spec.Time
import Onix.Proofs.Time
import Onix.Spec.Osh
import Onix.Sanity.ReadlineTurn
import Onix.Proofs.Readline
import Onix.Sanity.CmdParse
import Onix.Proofs.Osh
import Onix.Lib.Triple
import Onix.Spec.Refs
import Onix.Sanity.Owes
import Onix.Sanity.Repaid
import Onix.Proofs.Balance
import Onix.Spec.Procs
import Onix.Sanity.ProcRefs
import Onix.Proofs.Procs
import Onix.Lib.Refine
import Onix.Spec.Syscall
import Onix.Spec.Files
import Onix.Sanity.Forest
import Onix.Sanity.ForestGrow
import Onix.Sanity.ForestPrune
import Onix.Sanity.ForestSeats
import Onix.Sanity.ForestDir
import Onix.Sanity.ForestCalls
import Onix.Sanity.ForestRun
import Onix.Sanity.ForestFiles
import Onix.Proofs.Forest
import Onix.Proofs.Files
import Onix.Lib.X86
import Onix.Spec.Context
import Onix.Sanity.Frames
import Onix.Sanity.Entry
import Onix.Proofs.Context
import Onix.Proofs.Interrupt
import Onix.Spec.Printf
import Onix.Proofs.Number
import Onix.Proofs.Printf
import Onix.Spec.Rtc
import Onix.Proofs.Rtc
import Onix.Spec.Gate
import Onix.Proofs.Gate
import Onix.Lib.Ata
import Onix.Spec.Ide
import Onix.Sanity.IdeInv
import Onix.Proofs.Ide

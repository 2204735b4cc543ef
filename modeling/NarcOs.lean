import NarcOs.Lib.Bits
import NarcOs.Lib.Buffer
import NarcOs.Lib.Chain
import NarcOs.Lib.CString
import NarcOs.Lib.Memory
import NarcOs.Lib.MultisetSum
import NarcOs.Mm.Pmm
import NarcOs.Mm.PmmLaws
import NarcOs.Mm.PmmRuns
import NarcOs.Mm.Vmm
import NarcOs.Mm.Tree
import NarcOs.Mm.Frames
import NarcOs.Mm.Radix
import NarcOs.Mm.Grow
import NarcOs.Mm.RadixSpace
import NarcOs.Mm.RadixCopy
import NarcOs.Mm.Layout
import NarcOs.Mm.X86
import NarcOs.Mm.Machines
import NarcOs.Mm.PageMap
import NarcOs.Mm.Refinement
import NarcOs.Mm.Clone
import NarcOs.Mm.PageTree
import NarcOs.Mm.Space
import NarcOs.Fs.Vnode
import NarcOs.Fs.Vfs
import NarcOs.Fs.Handles
import NarcOs.Fs.Init
import NarcOs.Lib.Word64
import NarcOs.Fs.Archive
import NarcOs.Lib.Namespace
import NarcOs.Fs.Lifetime
import NarcOs.Fs.Seek
import NarcOs.Fs.Links
import NarcOs.Fs.Path
import NarcOs.Fs.Tree
import NarcOs.Fs.Change
import NarcOs.Fs.Session
import NarcOs.Fs.InitLaws
import NarcOs.Fs.Uses
import NarcOs.Fs.FailedOpen
import NarcOs.Fs.FailedNames
import NarcOs.Fs.Resolve
import NarcOs.Fs.Entries
import NarcOs.Fs.Listing
import NarcOs.Fs.Storage
import NarcOs.Fs.Contents
import NarcOs.Fs.Arrays
import NarcOs.Fs.ArchiveLaws
import NarcOs.Fs.ArchiveRuns
import NarcOs.Fs.Backing
import NarcOs.Fs.Keys
import NarcOs.Fs.Names
import NarcOs.Kernel.MapCalls
import NarcOs.Kernel.Arch
import NarcOs.Kernel.User
import NarcOs.Kernel.UserLaws
import NarcOs.Kernel.Task
import NarcOs.Kernel.Table
import NarcOs.Kernel.UserView
import NarcOs.Kernel.ReadDir
import NarcOs.Kernel.TaskLaws
import NarcOs.Kernel.Scheduler
import NarcOs.Kernel.Parents
import NarcOs.Pablo.Text
import NarcOs.Pablo.Service
import NarcOs.Pablo.ConfigFile
import NarcOs.Pablo.Lines
import NarcOs.Pablo.Settings
import NarcOs.Pablo.Loading
import NarcOs.Pablo.Supervisor
import NarcOs.Pablo.Discipline
import NarcOs.Lib.Spread
import NarcOs.Pablo.Propagation
import NarcOs.Kernel.Stack
import NarcOs.Kernel.Fork
import NarcOs.Kernel.Image
import NarcOs.Kernel.Checked
import NarcOs.Kernel.ExecCall
import NarcOs.Kernel.UserCopy
import NarcOs.Lib.Ring
import NarcOs.Fs.Spares
import NarcOs.Kernel.Streams
import NarcOs.Kernel.StreamLaws
import NarcOs.Kernel.ReadWrite
import NarcOs.Lib.Numeral
import NarcOs.Libc.Stdio
import NarcOs.Libc.FormatLaws
import NarcOs.Libc.Printf
import NarcOs.Lib.InsertionSort
import NarcOs.Pablo.LoadServices
import NarcOs.Kernel.ConsoleReads
import NarcOs.Kernel.PipeRuns
import NarcOs.Lib.Terminal
import NarcOs.Lib.Raster
import NarcOs.Kernel.Font8x16
import NarcOs.Kernel.Console
import NarcOs.Kernel.ConsoleLaws
import NarcOs.Kernel.Echo
import NarcOs.Lib.Spans
import NarcOs.Mm.Heap
import NarcOs.Mm.HeapLaws
import NarcOs.Mm.HeapWindow
import NarcOs.Mm.HeapRanges
import NarcOs.Mm.HeapRuns
import NarcOs.Libc.Fwrite
import NarcOs.Pablo.WholeFile
import NarcOs.Kernel.Pids
import NarcOs.Lib.Rotation
import NarcOs.Kernel.RoundRobin
import NarcOs.Lib.Blocks
import NarcOs.Kernel.Descriptors
import NarcOs.Kernel.Dispatch
import NarcOs.Kernel.Calls
import NarcOs.Kernel.EntryStubs
import NarcOs.Kernel.Preemption
import NarcOs.Lib.RefCount
import NarcOs.Kernel.References
import NarcOs.Kernel.RefCalls
import NarcOs.Kernel.RefRuns
import NarcOs.Lib.Tiling
import NarcOs.Lib.Buffers
import NarcOs.Libc.Allocator
import NarcOs.Libc.Headers
import NarcOs.Libc.Blocks
import NarcOs.Libc.Split
import NarcOs.Libc.Arenas
import NarcOs.Libc.Allocate
import NarcOs.Libc.Malloc
import NarcOs.Libc.Release
import NarcOs.Libc.Resize
import NarcOs.Libc.HeapRuns
import NarcOs.Kernel.Reports
import NarcOs.Kernel.Handlers

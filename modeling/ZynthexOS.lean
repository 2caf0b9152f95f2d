import ZynthexOS.HeapDisjointness
import ZynthexOS.HeapShape
import ZynthexOS.HeapFrame
import ZynthexOS.HeapRejection
import ZynthexOS.FrameAccounting
import ZynthexOS.PageTranslation
import ZynthexOS.Dispatching
import ZynthexOS.TaskStart
import ZynthexOS.Mounting
import ZynthexOS.TableBounds
import ZynthexOS.FdRefinement
import ZynthexOS.OutOfMemory
import ZynthexOS.TreeShape
import ZynthexOS.BufferOwnership
import ZynthexOS.ShellPaths
import ZynthexOS.RamfsFile
import ZynthexOS.DemandPaging
import ZynthexOS.BootOrder
import ZynthexOS.Lib.Fifo
import ZynthexOS.Lib.Stores
import ZynthexOS.Drivers.Pic
import ZynthexOS.Drivers.Keyboard
import ZynthexOS.Drivers.Mouse
import ZynthexOS.Core.Log
import ZynthexOS.Core.Console
import ZynthexOS.Core.Irq
import ZynthexOS.Video.Vga
import ZynthexOS.Video.Font8x8
import ZynthexOS.Video.Framebuffer
import ZynthexOS.Shell.Execute
import ZynthexOS.KeyboardQueue
import ZynthexOS.ScreenMirror
import ZynthexOS.LineEditing
import ZynthexOS.KernelLog
import ZynthexOS.InterruptAccounting
import ZynthexOS.MouseStream
import ZynthexOS.MouseDecoding
import ZynthexOS.DrawingBounds
import ZynthexOS.Filling
import ZynthexOS.DoubleBuffering
import ZynthexOS.ShellBuffers
import ZynthexOS.UsableMemory
import ZynthexOS.FrameOwnership
import ZynthexOS.ReadyRing
import ZynthexOS.PathGrammar
import ZynthexOS.Chunking
import ZynthexOS.RamfsBounds
import ZynthexOS.HeapChecker
import ZynthexOS.HeapExhaustion
import ZynthexOS.SplitCoalesce
import ZynthexOS.HeapCanaries
import ZynthexOS.Creating
import ZynthexOS.RoundRobin
import ZynthexOS.StoppedTasks
import ZynthexOS.Calculator
import ZynthexOS.ArgumentSplitting
import ZynthexOS.TerminalScrolling
import ZynthexOS.Video.TextCursor
import ZynthexOS.PointerTrace
import ZynthexOS.Shell.Seed
import ZynthexOS.Seeding
import ZynthexOS.RoundTrip
import ZynthexOS.Lib.Checked
import ZynthexOS.Lib.Slope
import ZynthexOS.Video.Line
import ZynthexOS.LineDrawing
import ZynthexOS.Gradients
import ZynthexOS.Blitting
import ZynthexOS.ProgressRing
import ZynthexOS.MouseQueue
import ZynthexOS.Text.Format
import ZynthexOS.NumberText
import ZynthexOS.Shell.Allocate
import ZynthexOS.AddressText
import ZynthexOS.Mm.MemoryMap
import ZynthexOS.MemoryMapWalks
import ZynthexOS.BitmapRefinement
import ZynthexOS.Boot.ContextSwitch
import ZynthexOS.ContextSwitching
import ZynthexOS.Lib.Counters
import ZynthexOS.Video.Cursor
import ZynthexOS.Core.Time
import ZynthexOS.CursorTicks
import ZynthexOS.Uptime
import ZynthexOS.Lib.Interrupts
import ZynthexOS.Boot.IsrStubs
import ZynthexOS.InterruptEntry
import ZynthexOS.Lib.Descriptors
import ZynthexOS.Core.Gates
import ZynthexOS.Arch.Gdt
import ZynthexOS.DescriptorTables
import ZynthexOS.Lib.Polling
import ZynthexOS.Core.KernelMain
import ZynthexOS.TypedLines
import ZynthexOS.Sys.Syscall
import ZynthexOS.SystemCalls
import ZynthexOS.FlatHeap
import ZynthexOS.HeapPayloads
import ZynthexOS.Lib.Simulations
import ZynthexOS.Fs.Volume
import ZynthexOS.StoredFiles
import ZynthexOS.Lib.Controllers
import ZynthexOS.InterruptDelivery
import ZynthexOS.ShellSessions
import ZynthexOS.PointerPath

import Dwunw.Arch
import Dwunw.CacheClients
import Dwunw.CacheHistory
import Dwunw.CacheInv
import Dwunw.CacheKeys
import Dwunw.CacheSpec
import Dwunw.CallerRow
import Dwunw.CaptureSim
import Dwunw.CaptureSpec
import Dwunw.Cfi.ApplyRow
import Dwunw.Cfi.Augmentation
import Dwunw.Cfi.Boundaries
import Dwunw.Cfi.CfaRegister
import Dwunw.Cfi.Conformity
import Dwunw.Cfi.Cut
import Dwunw.Cfi.DebugFrame
import Dwunw.Cfi.EhFrame
import Dwunw.Cfi.Eval
import Dwunw.Cfi.EvalSpec
import Dwunw.Cfi.Footprint
import Dwunw.Cfi.FrameInfo
import Dwunw.Cfi.Instructions
import Dwunw.Cfi.Instrumented
import Dwunw.Cfi.Layout
import Dwunw.Cfi.Leb
import Dwunw.Cfi.Links
import Dwunw.Cfi.NarrowTarget
import Dwunw.Cfi.Ownership
import Dwunw.Cfi.Parse
import Dwunw.Cfi.Placement
import Dwunw.Cfi.Pointers
import Dwunw.Cfi.Ranges
import Dwunw.Cfi.Read
import Dwunw.Cfi.ReadSpec
import Dwunw.Cfi.Registers
import Dwunw.Cfi.RowStep
import Dwunw.Cfi.RowTable
import Dwunw.Cfi.SignedOps
import Dwunw.Cfi.Slices
import Dwunw.Cfi.Tables
import Dwunw.Cfi.TwoPlaces
import Dwunw.Cfi.Versions
import Dwunw.Cfi.Walk
import Dwunw.DwarfIndex
import Dwunw.EarlyStop
import Dwunw.Elf.Contents
import Dwunw.Elf.Headers
import Dwunw.Elf.Image
import Dwunw.Elf.Loader
import Dwunw.Elf.Lookup
import Dwunw.FrameBuffer
import Dwunw.Iteration
import Dwunw.Lib.BoundedMap
import Dwunw.Lib.Bytes
import Dwunw.Lib.CallFrame
import Dwunw.Lib.Elf
import Dwunw.Lib.FrameInfo
import Dwunw.Lib.Grouping
import Dwunw.Lib.Leb128
import Dwunw.Lib.Ledger
import Dwunw.Lib.Logged
import Dwunw.Lib.Loop
import Dwunw.Lib.Monitor
import Dwunw.Lib.Qsort
import Dwunw.Lib.Runs
import Dwunw.Lib.StackWalk
import Dwunw.Lib.Stamps
import Dwunw.Lib.Sweep
import Dwunw.Lib.Traced
import Dwunw.Lib.Unfold
import Dwunw.Lib.Words
import Dwunw.Memleak.Accounting
import Dwunw.Memleak.EventRuns
import Dwunw.Memleak.Events
import Dwunw.Memleak.Interleave
import Dwunw.Memleak.Maps
import Dwunw.Memleak.Orderly
import Dwunw.Memleak.Outstanding
import Dwunw.Memleak.Probes
import Dwunw.Memleak.Report
import Dwunw.Memleak.Snapshots
import Dwunw.ModuleCache
import Dwunw.ModuleFile
import Dwunw.Recovery
import Dwunw.Resources
import Dwunw.Session
import Dwunw.StackReader
import Dwunw.Status
import Dwunw.Transparency
import Dwunw.Unwind
import Dwunw.WholeStack

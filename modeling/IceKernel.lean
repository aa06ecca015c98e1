import IceKernel.Lib.Run
import IceKernel.Lib.WindowScan
import IceKernel.Lib.Word64
import IceKernel.Lib.ByteMemory
import IceKernel.Lib.LinkedList
import IceKernel.Lib.RadixTree
import IceKernel.Utils.Math
import IceKernel.Utils.Bitmap
import IceKernel.Libc.Memory
import IceKernel.Memory.Physical
import IceKernel.Memory.PhysicalInit
import IceKernel.Memory.PhysicalRuns
import IceKernel.Memory.PhysicalCursor
import IceKernel.Memory.PhysicalBounds
import IceKernel.Memory.PhysicalSource
import IceKernel.Memory.Slab
import IceKernel.Memory.SlabInvariant
import IceKernel.Memory.SlabOps
import IceKernel.Memory.SlabRuns
import IceKernel.Memory.SlabRealloc
import IceKernel.Memory.PagingEntry
import IceKernel.Memory.Paging
import IceKernel.Memory.PagingTree
import IceKernel.Memory.PagingHardware
import IceKernel.Memory.PagingOps
import IceKernel.Memory.PagingRefines
import IceKernel.Memory.PagingLarge
import IceKernel.Memory.PagingUnmap
import IceKernel.Memory.PagingWalk
import IceKernel.Memory.PagingHeap
import IceKernel.Memory.PagingRights
import IceKernel.Memory.PagingInit
import IceKernel.Memory.Boot
import IceKernel.Memory.PagingSpaces
import IceKernel.Lib.Arena
import IceKernel.Memory.Memmap
import IceKernel.Memory.MemmapRanges
import IceKernel.Memory.MemmapCoherent
import IceKernel.Memory.MemmapFork
import IceKernel.Memory.MemmapCopy
import IceKernel.Lib.BlockCount
import IceKernel.Memory.PhysicalAccounting
import IceKernel.Arch.Idt
import IceKernel.Arch.Interrupts
import IceKernel.Memory.MemmapDestroy
import IceKernel.Memory.PagingIdempotent
import IceKernel.Memory.PagingRange
import IceKernel.Memory.SlabSizes
import IceKernel.Memory.PagingSetFlags
import IceKernel.Lib.Teardown
import IceKernel.Memory.PagingDestroy
import IceKernel.Lib.Slots
import IceKernel.Libcxx.Vector
import IceKernel.Lib.Shares
import IceKernel.Libcxx.SharedPtr
import IceKernel.Libcxx.SharedPtrCounts
import IceKernel.Libcxx.SharedPtrRuns
import IceKernel.Arch.InterruptStub
import IceKernel.Lib.Acyclic
import IceKernel.Libcxx.SharedPtrGraph
import IceKernel.Libcxx.SharedPtrCascade
import IceKernel.Libcxx.SharedPtrAssign
import IceKernel.Libcxx.VectorRange
import IceKernel.Libcxx.VectorCalls
import IceKernel.Libcxx.VectorCopies
import IceKernel.Libcxx.VectorRemoval
import IceKernel.Libc.Memmove
import IceKernel.Lib.LexSign
import IceKernel.Libc.Strings
import IceKernel.Libc.StringReaders
import IceKernel.Libc.StringSearch
import IceKernel.Lib.Mirror
import IceKernel.Libc.StringWriters
import IceKernel.Lib.Digits
import IceKernel.Libc.Stdlib
import IceKernel.Drivers.Terminal
import IceKernel.Memory.SlabLayout
import IceKernel.Arch.Gdt
import IceKernel.Arch.Pic
import IceKernel.Drivers.TerminalPrintf
import IceKernel.Lib.Congruential
import IceKernel.Libc.Rand
import IceKernel.Lib.Custody
import IceKernel.Libcxx.UniquePtr
import IceKernel.Sys.Logger
import IceKernel.Sys.Start

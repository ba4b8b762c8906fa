import Refcode.Lib.Transition
import Refcode.Lib.Loop
import Refcode.Lib.Word
import Refcode.Lib.Memory
import Refcode.Lib.Alignment
import Refcode.Lib.Store
import Refcode.Lib.Ledger
import Refcode.Lib.Bisect
import Refcode.Lib.SignOrder
import Refcode.Lib.InsertionSort
import Refcode.Lib.Tally
import Refcode.Lib.Pool
import Refcode.Lib.Mutex
import Refcode.Lib.BitScan
import Refcode.Lib.StableSort
import Refcode.Lib.Transcript
import Refcode.Lib.Inversions
import Refcode.Lib.CString
import Refcode.Lib.Neighbours
import Refcode.Lib.Serial
import Refcode.Lib.Budget
import Refcode.Alloc.Callbacks
import Refcode.Alloc.Layout
import Refcode.Alloc.Contract
import Refcode.Alloc.Spec
import Refcode.Alloc.Heap
import Refcode.Alloc.Arena
import Refcode.Alloc.Refinement
import Refcode.Alloc.Ledger
import Refcode.Alloc.Mixed
import Refcode.Alloc.Ranges
import Refcode.Alloc.Rejection
import Refcode.Alloc.Rounding
import Refcode.Lists.Element
import Refcode.Lists.Search
import Refcode.Lists.SortedSearch
import Refcode.Lists.Sort
import Refcode.Lists.Records
import Refcode.Lists.SortThenSearch
import Refcode.Lists.StableSort
import Refcode.Lists.AnyComparator
import Refcode.Lists.BinarySearch
import Refcode.Lists.Probes
import Refcode.Lists.Adaptive
import Refcode.Lists.InvertedSigns
import Refcode.Lists.CompareInt
import Refcode.Lists.SortInts
import Refcode.Lists.CompareStrings
import Refcode.Semaphore.Pthread
import Refcode.Semaphore.Conservation
import Refcode.Semaphore.Wakeup
import Refcode.Semaphore.Lifetime
import Refcode.Semaphore.ProducerConsumer
import Refcode.Semaphore.Progress
import Refcode.Semaphore.Program
import Refcode.Semaphore.Shutdown
import Refcode.Spinlock.BackEnds
import Refcode.Spinlock.Lock
import Refcode.Spinlock.CriticalSection
import Refcode.BitCount.Build
import Refcode.BitCount.Tzcnt
import Refcode.BitCount.TzcntFromLzcnt
import Refcode.BitCount.Lzcnt
import Refcode.BitCount.Dispatch
import Refcode.BitCount.Software
import Refcode.BitCount.FeatureTest
import Refcode.BitCount.EntryPoints
import Refcode.BitCount.SelfTest

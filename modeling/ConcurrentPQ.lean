import ConcurrentPQ.Lib.Pointer
import ConcurrentPQ.Lib.Transition
import ConcurrentPQ.Lib.Segment
import ConcurrentPQ.Lib.KeySet
import ConcurrentPQ.Lib.BitReverse
import ConcurrentPQ.Lib.Locks
import ConcurrentPQ.Lib.Eventually
import ConcurrentPQ.Linden.Program
import ConcurrentPQ.Linden.Shape
import ConcurrentPQ.Linden.Effects
import ConcurrentPQ.Linden.Threads
import ConcurrentPQ.Linden.Insert
import ConcurrentPQ.Linden.Delete
import ConcurrentPQ.Linden.Invariant
import ConcurrentPQ.Linden.Simulation
import ConcurrentPQ.Linden.Prefix
import ConcurrentPQ.Linden.Reclaim
import ConcurrentPQ.Linden.Levels
import ConcurrentPQ.Linden.Destroy
import ConcurrentPQ.Lib.Tower
import ConcurrentPQ.Linden.Machine
import ConcurrentPQ.Linden.Tidy
import ConcurrentPQ.Linden.Locate
import ConcurrentPQ.Linden.SeqInsert
import ConcurrentPQ.Linden.SeqDelete
import ConcurrentPQ.Linden.Gc
import ConcurrentPQ.Linden.GcLawful
import ConcurrentPQ.Linden.Session
import ConcurrentPQ.Linden.Solo
import ConcurrentPQ.Linden.Admission
import ConcurrentPQ.Linden.Chunks
import ConcurrentPQ.Linden.ChunkLists
import ConcurrentPQ.Lib.Circle
import ConcurrentPQ.Lib.Epoch
import ConcurrentPQ.Linden.Allocator
import ConcurrentPQ.Linden.Stock
import ConcurrentPQ.Linden.SharedLists
import ConcurrentPQ.Linden.AllocatorCalls
import ConcurrentPQ.Linden.AllocatorLawful
import ConcurrentPQ.Linden.Grace
import ConcurrentPQ.Linden.Recycle
import ConcurrentPQ.Lib.Announce
import ConcurrentPQ.Linden.ChunkClients
import ConcurrentPQ.Linden.Collector
import ConcurrentPQ.Linden.CollectorClock
import ConcurrentPQ.Linden.Custody
import ConcurrentPQ.Linden.CustodyStep
import ConcurrentPQ.Linden.CollectorRun
import ConcurrentPQ.Linden.Retired
import ConcurrentPQ.Heap.Counter
import ConcurrentPQ.Heap.Program
import ConcurrentPQ.Heap.Contents
import ConcurrentPQ.Heap.Sequential
import ConcurrentPQ.Heap.Interchange
import ConcurrentPQ.Heap.Threads
import ConcurrentPQ.Heap.Invariant
import ConcurrentPQ.Heap.Conservation
import ConcurrentPQ.Heap.Deadlock
import ConcurrentPQ.Heap.Single
import ConcurrentPQ.Spray.Program
import ConcurrentPQ.Spray.Shape
import ConcurrentPQ.Spray.Threads
import ConcurrentPQ.Spray.Step
import ConcurrentPQ.Spray.Invariant
import ConcurrentPQ.Spray.Simulation
import ConcurrentPQ.Spray.Sequential
import ConcurrentPQ.Spray.SeqInsert
import ConcurrentPQ.Spray.SeqAdd
import ConcurrentPQ.Spray.SeqDelete
import ConcurrentPQ.Spray.Queue
import ConcurrentPQ.Spray.Draws
import ConcurrentPQ.Spray.Usage
import ConcurrentPQ.Lib.Schrage
import ConcurrentPQ.Lib.Lcg
import ConcurrentPQ.Linden.Level
import ConcurrentPQ.Spray.Random
import ConcurrentPQ.Lib.ByteRing
import ConcurrentPQ.Spray.Ssalloc
import ConcurrentPQ.Spray.Arena
import ConcurrentPQ.Spray.Level
import ConcurrentPQ.Spray.Climb
import ConcurrentPQ.Spray.Sorted
import ConcurrentPQ.Spray.Marking
import ConcurrentPQ.Spray.Trail
import ConcurrentPQ.Spray.Naive
import ConcurrentPQ.Spray.Pointers
import ConcurrentPQ.Bench.Barrier

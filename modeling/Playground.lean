import Playground.AccountTransfer
import Playground.Accounting
import Playground.AtomicMax
import Playground.AtomicMaxOrders
import Playground.BinarySearchOnAnswer
import Playground.BinarySearchRange
import Playground.BinarySearchSound
import Playground.BitManipulation
import Playground.BoundedBuffer
import Playground.BoundedBufferCalls
import Playground.BoundedBufferSound
import Playground.CommandEditor
import Playground.CommandEditorSound
import Playground.Composite
import Playground.ConstexprLoops
import Playground.ContainerSound
import Playground.CustomAllocator
import Playground.CustomAllocatorSound
import Playground.CycleSound
import Playground.DFSTopoSortSound
import Playground.Decorator
import Playground.Dekker
import Playground.Descriptors
import Playground.Dijkstra
import Playground.DijkstraPath
import Playground.DijkstraRange
import Playground.DijkstraSound
import Playground.DoublyLinkedList
import Playground.DoublyLinkedListCells
import Playground.DoublyLinkedListIterator
import Playground.DoublyLinkedListSound
import Playground.EpollServer
import Playground.EpollServerEcho
import Playground.EpollServerSound
import Playground.ErrorHandling
import Playground.FirstComeFirstServed
import Playground.Flyweight
import Playground.FnvHash
import Playground.HashMap
import Playground.HashMapLoad
import Playground.HashMapSound
import Playground.HistogramSound
import Playground.KahnSound
import Playground.KmpStringMatching
import Playground.KmpStringMatchingSound
import Playground.Knapsack
import Playground.KnapsackSound
import Playground.Lib.Align
import Playground.Lib.Ascii
import Playground.Lib.Backtrack
import Playground.Lib.Binary32
import Playground.Lib.Bisect
import Playground.Lib.Bits
import Playground.Lib.Border
import Playground.Lib.CInt
import Playground.Lib.Chain
import Playground.Lib.CommonSubsequence
import Playground.Lib.Counted
import Playground.Lib.Cutting
import Playground.Lib.DList
import Playground.Lib.DListCells
import Playground.Lib.Digraph
import Playground.Lib.DistinctSuffix
import Playground.Lib.Fallible
import Playground.Lib.Fill
import Playground.Lib.Handles
import Playground.Lib.ImplicitTree
import Playground.Lib.Inversions
import Playground.Lib.Loop
import Playground.Lib.Machine
import Playground.Lib.Monitor
import Playground.Lib.MonotoneStack
import Playground.Lib.OddFold
import Playground.Lib.Orbit
import Playground.Lib.OrdMap
import Playground.Lib.Packing
import Playground.Lib.RankedForest
import Playground.Lib.Ring
import Playground.Lib.Smoothing
import Playground.Lib.Sorting
import Playground.Lib.Streams
import Playground.Lib.Transition
import Playground.Lib.Vec
import Playground.Lib.Walk
import Playground.Lib.WeakMemory
import Playground.Lib.Workload
import Playground.LockFreeOrders
import Playground.LockFreeOrdersSound
import Playground.LockFreeQueue
import Playground.LockFreeQueueSound
import Playground.LockFreeSize
import Playground.LongestCommonSubsequence
import Playground.LongestCommonSubsequenceSound
import Playground.LongestSubstringSound
import Playground.LruCache
import Playground.LruCacheSound
import Playground.LruInclusion
import Playground.LruRecency
import Playground.Makespan
import Playground.MarketDataAverage
import Playground.MarketDataHandler
import Playground.MarketDataSound
import Playground.MatchingEngine
import Playground.MatchingMirror
import Playground.MatchingSound
import Playground.MatchingSplit
import Playground.MatchingSweep
import Playground.Mediator
import Playground.MediatorSound
import Playground.Memento
import Playground.MementoRuns
import Playground.MemoryModel
import Playground.MemoryPool
import Playground.MemoryPoolSound
import Playground.MemoryPoolThrow
import Playground.MergeSort
import Playground.MergeSortSound
import Playground.MessagePassing
import Playground.ModernObserver
import Playground.ModernObserverSound
import Playground.MonotonicStack
import Playground.MutexCondvar
import Playground.MutexCondvarSound
import Playground.NQueens
import Playground.NQueensBoards
import Playground.NQueensSound
import Playground.NextGreaterSound
import Playground.OrderBook
import Playground.OrderBookFrame
import Playground.OrderBookSound
import Playground.OrderLedger
import Playground.PhysicalFrames
import Playground.PoolAllocator
import Playground.PoolAllocatorSound
import Playground.PriceTime
import Playground.PriorityLegal
import Playground.PriorityScheduling
import Playground.ProducerConsumer
import Playground.ProducerConsumerEnds
import Playground.ProducerConsumerSound
import Playground.Proxy
import Playground.RedundantConnection
import Playground.ReentrantEmit
import Playground.ReentrantEmitSound
import Playground.RingBuffer
import Playground.RingBufferSound
import Playground.RoundRobin
import Playground.RoundRobinInt
import Playground.RoundRobinSound
import Playground.RoundRobinWait
import Playground.RuleOfFive
import Playground.RuleOfFiveSound
import Playground.RuntimeDecorator
import Playground.Scheduler
import Playground.SegmentTree
import Playground.SegmentTreeSound
import Playground.Serialization
import Playground.SignalHandling
import Playground.SimdVectorization
import Playground.SlidingWindow
import Playground.SortColorsSound
import Playground.SpinLock
import Playground.SpinLockOrders
import Playground.SplitArraySound
import Playground.StateMachine
import Playground.Strategy
import Playground.StrategySound
import Playground.ThreadPool
import Playground.ThreadPoolSound
import Playground.ThreadSafeQueue
import Playground.ThreadSafeQueueFifo
import Playground.ThreadSafeQueueShutdown
import Playground.ThreadSafeQueueSound
import Playground.Tickets
import Playground.TlbRetention
import Playground.TopOfBookSound
import Playground.TopologicalSort
import Playground.Trie
import Playground.TrieSound
import Playground.TwoPointers
import Playground.UnionFind
import Playground.UnionFindRanks
import Playground.UnionFindSound
import Playground.VirtualMemory
import Playground.VirtualMemorySound
import Playground.Visitor
import Playground.WindowMaximumSound
import Playground.WindowSumSound
import Playground.WordSets

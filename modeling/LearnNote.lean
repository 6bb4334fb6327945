import LearnNote.Algorithm.BackTrack
import LearnNote.Algorithm.Bipartite
import LearnNote.Algorithm.BreadthFirst
import LearnNote.Algorithm.CanPartition
import LearnNote.Algorithm.Change
import LearnNote.Algorithm.CommonSubsequence
import LearnNote.Algorithm.CommonSubstring
import LearnNote.Algorithm.CompressedPartition
import LearnNote.Algorithm.CourseOrder
import LearnNote.Algorithm.CourseSchedule
import LearnNote.Algorithm.DepthFirst
import LearnNote.Algorithm.Dijkstra
import LearnNote.Algorithm.DuplicatedNumber
import LearnNote.Algorithm.GasStations
import LearnNote.Algorithm.IntervalSchedule
import LearnNote.Algorithm.LinkedList
import LearnNote.Algorithm.ListCursors
import LearnNote.Algorithm.ListMerge
import LearnNote.Algorithm.LongestPalindrome
import LearnNote.Algorithm.MeetingRooms
import LearnNote.Algorithm.MergeLists
import LearnNote.Algorithm.MinWindow
import LearnNote.Algorithm.Prim
import LearnNote.Algorithm.QuickSort
import LearnNote.Algorithm.RemoveDulpicates
import LearnNote.Algorithm.ReverseString
import LearnNote.Algorithm.SolverCalls
import LearnNote.Algorithm.StackedQueue
import LearnNote.Algorithm.TwoSum
import LearnNote.Bank.LockedBank
import LearnNote.Bank.NestedBank
import LearnNote.Bank.SleepingBank
import LearnNote.Bank.SleepingRefinement
import LearnNote.Bank.WaitingBank
import LearnNote.Concurrency.ParallelSum
import LearnNote.Concurrency.SharedSum
import LearnNote.Concurrency.ThreadPool
import LearnNote.Dbcp.Accounting
import LearnNote.Dbcp.Closing
import LearnNote.Dbcp.ConnectionPool
import LearnNote.Dbcp.Eviction
import LearnNote.Dbcp.FirstSession
import LearnNote.Dbcp.Handout
import LearnNote.Dbcp.Moves
import LearnNote.Dbcp.Scanning
import LearnNote.Dbcp.Sessions
import LearnNote.Dbcp.Waiters
import LearnNote.Lib.Arrangements
import LearnNote.Lib.CheckedInt
import LearnNote.Lib.Circuits
import LearnNote.Lib.Custody
import LearnNote.Lib.CycleFinding
import LearnNote.Lib.Extents
import LearnNote.Lib.Finishing
import LearnNote.Lib.Flags
import LearnNote.Lib.History
import LearnNote.Lib.Knapsack
import LearnNote.Lib.LeastSolution
import LearnNote.Lib.Ledger
import LearnNote.Lib.Linked
import LearnNote.Lib.LockTable
import LearnNote.Lib.Loops
import LearnNote.Lib.Orbits
import LearnNote.Lib.OrdMap
import LearnNote.Lib.Packing
import LearnNote.Lib.Pipe
import LearnNote.Lib.PriorityQueue
import LearnNote.Lib.Rearrangement
import LearnNote.Lib.Runs
import LearnNote.Lib.Segments
import LearnNote.Lib.SharedCell
import LearnNote.Lib.ShortestWalk
import LearnNote.Lib.SlidingWindow
import LearnNote.Lib.Slots
import LearnNote.Lib.SortedChoices
import LearnNote.Lib.Sweep
import LearnNote.Lib.Table
import LearnNote.Lib.Tally
import LearnNote.Lib.Transition
import LearnNote.Lib.Unsigned
import LearnNote.Lib.Waiting
import LearnNote.Lib.WorkCrew
import LearnNote.Lib.WorkQueue
import LearnNote.Memory.CentralCache
import LearnNote.Memory.Coalescing
import LearnNote.Memory.Common
import LearnNote.Memory.CounterRuns
import LearnNote.Memory.HashBucket
import LearnNote.Memory.LeveledMemoryPool
import LearnNote.Memory.MemoryPool
import LearnNote.Memory.PageCache
import LearnNote.Memory.PageInvariant
import LearnNote.Memory.PageRuns
import LearnNote.Memory.PoolFailure
import LearnNote.Memory.PoolFrame
import LearnNote.Memory.PoolInvariant
import LearnNote.Memory.PoolPlaces
import LearnNote.Memory.PoolProgress
import LearnNote.Memory.PoolRuns
import LearnNote.Memory.PoolSteps
import LearnNote.Memory.Shelf
import LearnNote.Memory.SlotCarving
import LearnNote.Memory.SlotFrame
import LearnNote.Memory.SlotInvariant
import LearnNote.Memory.SlotRuns
import LearnNote.Memory.Surgery
import LearnNote.Memory.ThreadCache
import LearnNote.Misc.BoundedRand
import LearnNote.Misc.ReverseLinkedTable
import LearnNote.Misc.SafeSharedPtr
import LearnNote.Misc.SharedPtr
import LearnNote.Muduo.Buffer
import LearnNote.Muduo.BufferQueue
import LearnNote.Muduo.Channel
import LearnNote.Muduo.ConnectionLoop
import LearnNote.Muduo.ConnectionMap
import LearnNote.Muduo.Disconnect
import LearnNote.Muduo.Dispatch
import LearnNote.Muduo.EPollPoller
import LearnNote.Muduo.EchoServer
import LearnNote.Muduo.EventLoop
import LearnNote.Muduo.EventLoopThread
import LearnNote.Muduo.EventLoopThreadPool
import LearnNote.Muduo.FileStream
import LearnNote.Muduo.FileTransfer
import LearnNote.Muduo.KernelSet
import LearnNote.Muduo.LoopMoves
import LearnNote.Muduo.NoInterest
import LearnNote.Muduo.OutputFlow
import LearnNote.Muduo.OutputGrowth
import LearnNote.Muduo.OutputStream
import LearnNote.Muduo.PollArray
import LearnNote.Muduo.PollerChannels
import LearnNote.Muduo.SendCalls
import LearnNote.Muduo.StateOrder
import LearnNote.Muduo.TcpConnection
import LearnNote.Muduo.TcpServer
import LearnNote.Server.Connection
import LearnNote.Server.Echo
import LearnNote.Server.SendLoop
import LearnNote.Server.ThreadPool
import LearnNote.Timing.Cancellation
import LearnNote.Timing.Destruction
import LearnNote.Timing.Firing
import LearnNote.Timing.Moves
import LearnNote.Timing.Nodes
import LearnNote.Timing.Repetition
import LearnNote.Timing.Timer

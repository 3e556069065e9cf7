import KataCpp.Core.Bytes
import KataCpp.Core.MachineInt
import KataCpp.Core.TransitionSystem
import KataCpp.Core.Iteration
import KataCpp.Core.GraphSearch
import KataCpp.Core.Mutex
import KataCpp.Core.CircularArray
import KataCpp.Core.TextInput
import KataCpp.Core.Ranking
import KataCpp.Container.BoundedList
import KataCpp.Container.RingBuffer
import KataCpp.Container.Queue
import KataCpp.Container.NetworkMessage
import KataCpp.Container.BlockingQueue
import KataCpp.Container.TimeRangeQueue
import KataCpp.Container.MemoryCache
import KataCpp.Container.MemoryCacheCsv
import KataCpp.Concurrency.ThreadPool
import KataCpp.Concurrency.Logger
import KataCpp.Concurrency.LoggerMutex
import KataCpp.Concurrency.LoggerDelivery
import KataCpp.RateLimit.ElapsedTokens
import KataCpp.RateLimit.TokenBucket
import KataCpp.RateLimit.LeakyBucket
import KataCpp.Concurrency.LoggerBlocking
import KataCpp.Text.WordBank
import KataCpp.Text.WordRank
import KataCpp.Network.EchoServer
import KataCpp.Network.TinyRio
import KataCpp.Network.RioDelivery
import KataCpp.Util.Base64
import KataCpp.Util.Base64RoundTrip
import KataCpp.Util.Base64Canonical
import KataCpp.Algorithm.TwoPointers
import KataCpp.Algorithm.Graph
import KataCpp.Algorithm.BreadthFirst
import KataCpp.Util.Base64Bounds
import KataCpp.Core.SubstringSearch
import KataCpp.Util.ReplaceValue
import KataCpp.Core.DecimalText
import KataCpp.Util.StringUtil
import KataCpp.Util.StringUtilDownward
import KataCpp.Util.TrimPrefixSuffix
import KataCpp.Text.Tokenizer
import KataCpp.Algorithm.Knapsack
import KataCpp.Text.TokenRuns
import KataCpp.Algorithm.KnapsackOrder
import KataCpp.Algorithm.MergeSort
import KataCpp.Core.Segment
import KataCpp.Algorithm.QuickSort
import KataCpp.Core.OrderStatistic
import KataCpp.Algorithm.MedianOfSorted
import KataCpp.Algorithm.QuickSelect
import KataCpp.Algorithm.QuickSelectRanges
import KataCpp.Algorithm.QuickSelectMedian
import KataCpp.Algorithm.CoinChange
import KataCpp.Text.LongestSubstring
import KataCpp.Text.Palindrome
import KataCpp.Core.LinkedList
import KataCpp.Algorithm.LinkedListReversal
import KataCpp.Algorithm.LinkedListPalindrome
import KataCpp.Algorithm.AddTwoNumbers
import KataCpp.Algorithm.MinDepth
import KataCpp.Core.PointerTree
import KataCpp.Container.OrderedTree
import KataCpp.Core.TreeLevels
import KataCpp.Container.PrintTree
import KataCpp.Core.IndexLoop
import KataCpp.Core.Enumeration
import KataCpp.Algorithm.Permute
import KataCpp.Algorithm.Subsets
import KataCpp.Algorithm.TwoSum
import KataCpp.Algorithm.Primes
import KataCpp.Algorithm.PrimeSieve
import KataCpp.Core.Repetition
import KataCpp.Text.SpellFix
import KataCpp.Text.SpellRules
import KataCpp.Algorithm.MedianOverflow
import KataCpp.RateLimit.TokenBucketOverflow
import KataCpp.Network.RioLineLength
import KataCpp.Text.WordSort
import KataCpp.Util.HexString
import KataCpp.Container.Command
import KataCpp.Util.Observer
import KataCpp.Util.TinyTimer
import KataCpp.Algorithm.Tema
import KataCpp.Core.ComparatorOrder
import KataCpp.Util.TinyConfig
import KataCpp.Algorithm.InsertSort
import KataCpp.Algorithm.BinarySearch
import KataCpp.Algorithm.Fibonacci
import KataCpp.Algorithm.MinMax
import KataCpp.Algorithm.TwoPointersLag
import KataCpp.Core.HeapNumbering
import KataCpp.Algorithm.TreePaths
import KataCpp.Core.Trimming
import KataCpp.Util.Trim
import KataCpp.Algorithm.PrimeSieveBounds
import KataCpp.Core.CircularList
import KataCpp.Core.LoopingCalls
import KataCpp.Network.ComplaintQueue
import KataCpp.Network.ComplaintRing
import KataCpp.Network.ComplaintCalls
import KataCpp.Network.ComplaintServer
import KataCpp.Network.ComplaintRounds
import KataCpp.Network.ComplaintLoop
import KataCpp.Core.DescriptorSet
import KataCpp.Network.EchoLoop
import KataCpp.Container.FieldsAlloc
import KataCpp.Core.PathResolution
import KataCpp.Network.HttpWorker
import KataCpp.Network.HttpConnections
import KataCpp.Util.Base64Block
import KataCpp.Core.ThreadSum
import KataCpp.Core.TimedWaiting
import KataCpp.Container.WaitingThreads
import KataCpp.Network.RioUnbuffered
import KataCpp.Concurrency.LockfreeQueue
import KataCpp.Network.ForkServer

import MyNotes.Cs144.ReassemblerVersions
import MyNotes.Cs144.ConnectionSafety
import MyNotes.Cmu15445.Trie
import MyNotes.Cmu15445.LruKEviction
import MyNotes.Cmu15445.ModifyExecutors
import MyNotes.Cmu15445.OptimizeNLJAsHashJoin
import MyNotes.Cmu15445.PageGuardOwnership
import MyNotes.Cmu15445.BufferPoolAccounting
import MyNotes.Cmu15445.BufferPoolTransparency
import MyNotes.Cmu15445.DiskExtendibleHashTableMap
import MyNotes.Xv6.CowIsolation
import MyNotes.Xv6.Alarm
import MyNotes.Xv6.Barrier
import MyNotes.Xv6.HashPut
import MyNotes.Xv6.PerCpuKalloc
import MyNotes.Xv6.BlockTruncate
import MyNotes.Network.HttpParsing
import MyNotes.Cmu15445.BPlusTreeLookups
import MyNotes.Network.Log
import MyNotes.Network.SqlConnectionPoolProgress
import MyNotes.Network.ThreadpoolProgress
import MyNotes.Network.ChatServ
import MyNotes.Cs144.DequeByteStream
import MyNotes.Cmu15445.BufferPoolFailures
import MyNotes.Cmu15445.DiskExtendibleHashTableIntegrity
import MyNotes.Algorithms.UnionFind
import MyNotes.Algorithms.MaxHeap
import MyNotes.Algorithms.LRUKCache
import MyNotes.Algorithms.LRUCacheWithTTL
import MyNotes.Algorithms.Trie
import MyNotes.Memory.SharedPtr
import MyNotes.Memory.ControlBlock
import MyNotes.Algorithms.SkiplistRuns
import MyNotes.Cmu15445.LruKIterators
import MyNotes.Cmu15445.SnapshotIsolation
import MyNotes.Cmu15445.PrimaryKeyInsert
import MyNotes.Cmu15445.ExecutorRestart
import MyNotes.Xv6.BcacheExhaustion
import MyNotes.Xv6.StealingKalloc
import MyNotes.Xv6.Symlink
import MyNotes.Xv6.E1000Receive
import MyNotes.Xv6.PgAccess
import MyNotes.Xv6.Xargs
import MyNotes.Xv6.Find
import MyNotes.Network.ParseLine
import MyNotes.Network.HttpWrite
import MyNotes.Network.BlockQueueTimedPop
import MyNotes.Network.LogBuffer
import MyNotes.Algorithms.ThreadPoolSizing
import MyNotes.Cs144.NetworkInterfaceRequests
import MyNotes.Cs144.SwitchNetworkInterface
import MyNotes.Cs144.RouterNetwork
import MyNotes.Cs144.Wrap32Words
import MyNotes.Cs144.TcpReceiverRuns
import MyNotes.Cs144.TcpSenderTiming
import MyNotes.Cs144.ViewByteStream
import MyNotes.DataStructures.AVLDestroy
import MyNotes.DataStructures.BSTreeSuccessor
import MyNotes.DataStructures.DeleteNode
import MyNotes.Algorithms.KmpIndex0
import MyNotes.Algorithms.MorrisTraversal
import MyNotes.Algorithms.QuickSort
import MyNotes.Algorithms.Floyd
import MyNotes.Algorithms.Dijkstra
import MyNotes.Algorithms.Prim
import MyNotes.Algorithms.CritialPath
import MyNotes.Cmu15445.ComparatorOrder
import MyNotes.Cmu15445.BucketPageArray
import MyNotes.Algorithms.MajorityElement
import MyNotes.Algorithms.BuildTree
import MyNotes.Algorithms.IpToInt
import MyNotes.Algorithms.Lager
import MyNotes.Algorithms.MaximizeProfit
import MyNotes.Algorithms.ZeroEvenOdd
import MyNotes.Algorithms.Portal

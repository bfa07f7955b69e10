import JasonDb.TxBTree.Reopen
import JasonDb.TxBTree.Snapshot
import JasonDb.TxBTree.Iterator
import JasonDb.BTree.Iterator
import JasonDb.Transaction.Failure
import JasonDb.Transaction.ExactlyOnce
import JasonDb.Wal.Recovery
import JasonDb.Pager.Flush
import JasonDb.Pager.WritePage
import JasonDb.Session.Counter
import JasonDb.Session.Conform
import JasonDb.Session.ReadOnly
import JasonDb.Codec.Halts
import JasonDb.Codec.Pages
import JasonDb.Session.Nodes
import JasonDb.LruCache.Capacity
import JasonDb.Pager.Conserve
import JasonDb.Codec.ReadHeader
import JasonDb.Wal.WritePages
import JasonDb.Query.Print
import JasonDb.Aggregation.Sort
import JasonDb.Aggregation.GroupBy
import JasonDb.IndexKey.Prefix
import JasonDb.QueryBuilder.Count
import JasonDb.Transaction.CollectBatch
import JasonDb.QueryBuilder.Project
import JasonDb.Transaction.Replay
import JasonDb.TxCollection.FailedInsert
import JasonDb.Database.IndexBuild
import JasonDb.Wal.Burst
import JasonDb.Database.Retry
import JasonDb.BTree.Transaction
import JasonDb.DocumentStore.Run
import JasonDb.Watch
import JasonDb.Database.Collect
import JasonDb.TextIndex.Search

import SwissArmyKnife.RedisDb.Coding
import SwissArmyKnife.RedisDb.Crc32c
import SwissArmyKnife.RedisDb.Env
import SwissArmyKnife.RedisDb.LogWriter
import SwissArmyKnife.RedisDb.LogReader
import SwissArmyKnife.RedisDb.LogLayout
import SwissArmyKnife.RedisDb.LogReplay
import SwissArmyKnife.RedisDb.LogFaults
import SwissArmyKnife.Lib.Mvcc
import SwissArmyKnife.Lib.Merge
import SwissArmyKnife.Lib.Search
import SwissArmyKnife.Lib.Decimal
import SwissArmyKnife.RedisDb.DbFormat
import SwissArmyKnife.RedisDb.Version
import SwissArmyKnife.RedisDb.VersionBuilder
import SwissArmyKnife.RedisDb.Compaction
import SwissArmyKnife.RedisDb.CompactionWork
import SwissArmyKnife.RedisDb.VersionReads
import SwissArmyKnife.RedisDb.VersionInstall
import SwissArmyKnife.RedisDb.CompactionInputs
import SwissArmyKnife.RedisDb.CompactionMerge
import SwissArmyKnife.RedisDb.CompactionReads
import SwissArmyKnife.RedisDb.CompactionInstall
import SwissArmyKnife.Lib.Transition
import SwissArmyKnife.Lib.Cursor
import SwissArmyKnife.RedisDb.DbIter
import SwissArmyKnife.RedisDb.DbIterVisible
import SwissArmyKnife.Lib.Replies
import SwissArmyKnife.Lib.SortedMap
import SwissArmyKnife.RedisDb.Comparator
import SwissArmyKnife.RedisDb.MetaValue
import SwissArmyKnife.Lib.Lists
import SwissArmyKnife.RedisDb.RedisSet
import SwissArmyKnife.RedisDb.RedisSetRuns
import SwissArmyKnife.RedisDb.RedisHash
import SwissArmyKnife.RedisDb.RedisHashRuns
import SwissArmyKnife.RedisDb.ListsMetaValue
import SwissArmyKnife.RedisDb.RedisList
import SwissArmyKnife.RedisDb.RedisListRuns
import SwissArmyKnife.RedisDb.RedisZset
import SwissArmyKnife.RedisDb.RedisZsetMaps
import SwissArmyKnife.RedisDb.RedisZsetUpdates
import SwissArmyKnife.RedisDb.RedisZsetReads
import SwissArmyKnife.RedisDb.RedisZsetRuns
import SwissArmyKnife.RedisDb.Manifest
import SwissArmyKnife.RedisDb.ManifestReplay
import SwissArmyKnife.RedisDb.TableFiles
import SwissArmyKnife.Lib.Holders
import SwissArmyKnife.RedisDb.LockMgr
import SwissArmyKnife.RedisDb.SnapshotLock
import SwissArmyKnife.Lib.Footprint
import SwissArmyKnife.RedisDb.RedisKeys
import SwissArmyKnife.Lib.Visits
import SwissArmyKnife.RedisDb.RedisDB
import SwissArmyKnife.RedisDb.RedisDBRuns
import SwissArmyKnife.Lib.Interleaving
import SwissArmyKnife.RedisDb.RedisHashClients
import SwissArmyKnife.RedisDb.RedisStringClients
import SwissArmyKnife.Lib.PointInTime
import SwissArmyKnife.RedisDb.RedisReads
import SwissArmyKnife.RedisDb.Transaction
import SwissArmyKnife.Lib.Reorder
import SwissArmyKnife.RedisProxy.RedisReply
import SwissArmyKnife.RedisProxy.Slots
import SwissArmyKnife.RedisProxy.Proxy
import SwissArmyKnife.RedisProxy.Connection
import SwissArmyKnife.RedisProxy.ProxyRuns
import SwissArmyKnife.RedisProxy.ProxyOrder
import SwissArmyKnife.RedisProxy.ProxyDrops
import SwissArmyKnife.Lib.Chunks
import SwissArmyKnife.WebSocket.WebContext
import SwissArmyKnife.WebSocket.WebServer
import SwissArmyKnife.Rpc.RpcChannel
import SwissArmyKnife.RedLock.RedLock
import SwissArmyKnife.RedLock.Exclusion
import SwissArmyKnife.Lib.KeyedSet
import SwissArmyKnife.Lib.Latest
import SwissArmyKnife.Memcached.Item
import SwissArmyKnife.Memcached.Store
import SwissArmyKnife.Memcached.StoreRuns
import SwissArmyKnife.Lib.Lines
import SwissArmyKnife.Memcached.Connect
import SwissArmyKnife.Memcached.ConnectRuns
import SwissArmyKnife.Lib.Bytes
import SwissArmyKnife.Postgresql.PGconn
import SwissArmyKnife.Postgresql.PqExec
import SwissArmyKnife.Postgresql.PqExecRuns
import SwissArmyKnife.Postgresql.FrameRuns
import SwissArmyKnife.Postgresql.Rows
import SwissArmyKnife.Http.HttpServer
import SwissArmyKnife.Http.HttpServerRuns
import SwissArmyKnife.Lib.Calls
import SwissArmyKnife.RedisDb.Iterator
import SwissArmyKnife.RedisDb.MergingIterator
import SwissArmyKnife.RedisDb.TwoLevelIterator
import SwissArmyKnife.RedisDb.VersionGet
import SwissArmyKnife.RedisDb.BuilderSaves
import SwissArmyKnife.RedisDb.InputClosure
import SwissArmyKnife.Lib.Readers
import SwissArmyKnife.RedisDb.EditCoding
import SwissArmyKnife.RedisDb.EditRoundTrip
import SwissArmyKnife.RedisDb.Block
import SwissArmyKnife.RedisDb.BlockBuilder
import SwissArmyKnife.RedisDb.BlockRoundTrip
import SwissArmyKnife.RedisDb.BlockSafe
import SwissArmyKnife.RedisDb.TableBuilder
import SwissArmyKnife.RedisDb.TableFaults
import SwissArmyKnife.RedisDb.SkipList
import SwissArmyKnife.RedisDb.MemTable
import SwissArmyKnife.RedisDb.FileRanges
import SwissArmyKnife.RedisDb.RedisStringUpdates
import SwissArmyKnife.RedisDb.Codecs
import SwissArmyKnife.RedisDb.WriteBatch
import SwissArmyKnife.RedisDb.EnvSchedule
import SwissArmyKnife.RedisDb.EnvScheduleRuns
import SwissArmyKnife.RedisDb.ManualCompaction
import SwissArmyKnife.RedisDb.LRUCache
import SwissArmyKnife.RedisDb.ApproximateSizes
import SwissArmyKnife.RedisDb.RedisStringCalls
import SwissArmyKnife.RedisDb.KeyScans
import SwissArmyKnife.RedisDb.DeadStrings
import SwissArmyKnife.RedisDb.DeadKeys
import SwissArmyKnife.RedisDb.DeadZsets
import SwissArmyKnife.RedisDb.DeadLists
import SwissArmyKnife.RedisDb.DeadStores
import SwissArmyKnife.RedisDb.StringRanges
import SwissArmyKnife.RedisDb.StringReads
import SwissArmyKnife.RedisDb.StringBits
import SwissArmyKnife.WebSocket.FrameBuild
import SwissArmyKnife.WebSocket.FrameStream
import SwissArmyKnife.RedisDb.GlobLanguage
import SwissArmyKnife.RedisDb.StringScans
import SwissArmyKnife.Memcached.RequestLines
import SwissArmyKnife.RedisDb.KeyScanRuns
import SwissArmyKnife.Lib.Regions
import SwissArmyKnife.Area.Arena
import SwissArmyKnife.Lib.Loops
import SwissArmyKnife.Http.ParseLoops
import SwissArmyKnife.Http.RequestChunks
import SwissArmyKnife.Http.HttpResponse
import SwissArmyKnife.Http.HeaderEnds
import SwissArmyKnife.Http.ParseReturns
import SwissArmyKnife.Http.ResponseBodies
import SwissArmyKnife.Socks4a.NegotiationRuns
import SwissArmyKnife.MapReduce.MergeRuns
import SwissArmyKnife.Mahjong.Hand
import SwissArmyKnife.RedisDb.VarintStreams
import SwissArmyKnife.Mahjong.HuBrand
import SwissArmyKnife.RedisDb.KeyComparators
import SwissArmyKnife.RedisDb.FileName
import SwissArmyKnife.RedisDb.BufferedFile
import SwissArmyKnife.MapReduce.MasterSort
import SwissArmyKnife.RedisDb.WriterGroups
import SwissArmyKnife.RedisDb.WriterRuns
import SwissArmyKnife.RedisDb.RecoveryRuns
import SwissArmyKnife.RedisDb.GetRuns
import SwissArmyKnife.RedisDb.InternalGets
import SwissArmyKnife.RedisDb.FlushRuns
import SwissArmyKnife.IdleConnection.TimeWheel

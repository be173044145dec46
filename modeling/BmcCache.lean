import BmcCache.AddDelta
import BmcCache.AddIov
import BmcCache.Answers
import BmcCache.AppendPrepend
import BmcCache.ArrayMap
import BmcCache.AsciiAuth
import BmcCache.Assoc
import BmcCache.BinaryCommands
import BmcCache.BinaryFraming
import BmcCache.BipBuffer
import BmcCache.BumpBuffers
import BmcCache.ByteBuffer
import BmcCache.CasUpdates
import BmcCache.Chain
import BmcCache.ChainTable
import BmcCache.Coherence
import BmcCache.Commands
import BmcCache.Common
import BmcCache.ConnReads
import BmcCache.Connection
import BmcCache.CrawlOnce
import BmcCache.CrawlerLocks
import BmcCache.Cursor
import BmcCache.Delimited
import BmcCache.DeltaBeyond
import BmcCache.Demand
import BmcCache.DoublyLinked
import BmcCache.DriveMachine
import BmcCache.Drops
import BmcCache.EntryInvariant
import BmcCache.Expiration
import BmcCache.FailedAppend
import BmcCache.Flush
import BmcCache.GetChain
import BmcCache.GetReply
import BmcCache.HashKeys
import BmcCache.Hashers
import BmcCache.HitAccounting
import BmcCache.Ingress
import BmcCache.Interleaving
import BmcCache.InvalidateCache
import BmcCache.IpChecksum
import BmcCache.ItemChunks
import BmcCache.ItemStore
import BmcCache.Items
import BmcCache.Itoa
import BmcCache.LinkedItems
import BmcCache.LinkedPath
import BmcCache.ListPartition
import BmcCache.LockTrace
import BmcCache.LruLists
import BmcCache.LruRuns
import BmcCache.Memcached
import BmcCache.MetaCommands
import BmcCache.MetaGet
import BmcCache.MetaTokens
import BmcCache.Mutations
import BmcCache.NumberParsing
import BmcCache.OnesComplement
import BmcCache.ParserAgreement
import BmcCache.PassTransparent
import BmcCache.Poisoning
import BmcCache.PreparePacket
import BmcCache.PullTail
import BmcCache.Recency
import BmcCache.RefCounts
import BmcCache.ReplyFrame
import BmcCache.RestartMeta
import BmcCache.RoundTrip
import BmcCache.RxFilter
import BmcCache.SavedKeys
import BmcCache.Segments
import BmcCache.Sequential
import BmcCache.ServerSocket
import BmcCache.SlabLimits
import BmcCache.SlabPages
import BmcCache.SlabSizes
import BmcCache.StaleErrno
import BmcCache.StepUntil
import BmcCache.StorageFraming
import BmcCache.StorageSemantics
import BmcCache.StoreEvents
import BmcCache.TailChain
import BmcCache.TextCommands
import BmcCache.TextParser
import BmcCache.TokenRounds
import BmcCache.Trace
import BmcCache.TraceDemo
import BmcCache.UdpReply
import BmcCache.UpdateCache
import BmcCache.UriEncode
import BmcCache.WriteReply
import BmcCache.Xdp

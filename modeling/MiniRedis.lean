import MiniRedis.HashObject
import MiniRedis.ClientIsolation
import MiniRedis.Snapshot
import MiniRedis.ReplyStream
import MiniRedis.DictProgress
import MiniRedis.FieldCounts
import MiniRedis.PartialLoad
import MiniRedis.HSetPairs
import MiniRedis.Disconnect
import MiniRedis.ParserGrammar
import MiniRedis.SetRefinement
import MiniRedis.RdbLengths
import MiniRedis.ListEdits
import MiniRedis.Writability
import MiniRedis.Noninterference
import MiniRedis.ServedClients
import MiniRedis.Durability
import MiniRedis.RdbGrammar
import MiniRedis.ListRuns
import MiniRedis.Maintenance
import MiniRedis.KeySpace
import MiniRedis.SetRuns
import MiniRedis.HashEncoding
import MiniRedis.HashQueries
import MiniRedis.Restarts

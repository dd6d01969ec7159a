import InfluxDB.Tsm.MergeOrders
import InfluxDB.Tsm.CompactionData
import InfluxDB.Tsm.DirectIndex
import InfluxDB.Tsm.ReaderReopen
import InfluxDB.Tsm.SeriesRead
import InfluxDB.Tsm.CacheTypes
import InfluxDB.Tsm.PlannerLedger
import InfluxDB.Reads.GroupBy
import InfluxDB.Storage.Snapshots
import InfluxDB.Models.ParserRange
import InfluxDB.Tsi.Compactions
import InfluxDB.Tsi.LogSessions
import InfluxDB.Tsi.CacheRuns
import InfluxDB.Tsi.IndexFileRead
import InfluxDB.Tsm.PointValues
import InfluxDB.Wal.ClosedSegments
import InfluxDB.Wal.Framing
import InfluxDB.Wal.SyncAnswers
import InfluxDB.Authz.Permissions
import InfluxDB.Tsm.PredicateRuns
import InfluxDB.Tsm.BatchDelete
import InfluxDB.Tsm.KeyWalk
import InfluxDB.Control.Memory
import InfluxDB.Control.Lifecycle
import InfluxDB.Tasks.Executor
import InfluxDB.Tasks.Scheduler
import InfluxDB.Tsm.TimeRangeIterator

import Accumulation.Lib.Run
import Accumulation.Lib.BinarySearch
import Accumulation.Go.Int
import Accumulation.Go.File
import Accumulation.Go.Path
import Accumulation.Go.Disk
import Accumulation.Go.Walk
import Accumulation.Go.Tour
import Accumulation.Go.Spell
import Accumulation.Model.Session
import Accumulation.Model.Bandwidth
import Accumulation.Store.Record
import Accumulation.Store.FileStore
import Accumulation.Store.RecordLog
import Accumulation.Store.Fifo
import Accumulation.Store.Window
import Accumulation.Store.Leading
import Accumulation.Store.AnyContent
import Accumulation.Store.Cut
import Accumulation.Store.Engine
import Accumulation.Report.RingBuff
import Accumulation.Report.Job
import Accumulation.Report.Tiers
import Accumulation.Report.JobRuns
import Accumulation.Report.JobStop
import Accumulation.Report.Restart
import Accumulation.Report.Task
import Accumulation.Report.Manager
import Accumulation.Report.ManagerRuns
import Accumulation.Report.OneEngine
import Accumulation.Report.Isolation
import Accumulation.Report.Interfaces
import Accumulation.Logfile.Move
import Accumulation.Logfile.MoveRuns
import Accumulation.Logfile.MoveFaithful
import Accumulation.Logfile.MoveRemoves
import Accumulation.Logfile.Destination
import Accumulation.Logfile.Archive
import Accumulation.Logfile.ArchivePack
import Accumulation.Logfile.RemoveSources
import Accumulation.Logfile.Remove
import Accumulation.Logfile.ArchiveCalls
import Accumulation.Logfile.ArchiveRuns
import Accumulation.Logfile.ArchiveRemoves
import Accumulation.Logfile.Upload
import Accumulation.Logfile.Pipeline
import Accumulation.Orm.Tx
import Accumulation.Lib.WhereClause
import Accumulation.Orm.Filter
import Accumulation.Orm.Tag
import Accumulation.Orm.Routing
import Accumulation.Lib.OnesComplement
import Accumulation.Xdp.Frame
import Accumulation.Xdp.LoadBalancer
import Accumulation.Xdp.Checksum
import Accumulation.Xdp.Replies
import Accumulation.Xdp.HeaderChecksum
import Accumulation.Xdp.Options
import Accumulation.Go.Ip
import Accumulation.Go.HostPort
import Accumulation.Nnet.ClientIP
import Accumulation.Xdp.ControlPlane
import Accumulation.Lib.Decimal
import Accumulation.Lib.Json
import Accumulation.Lib.JsonRoundTrip
import Accumulation.Kimi.Dto
import Accumulation.Kimi.ContextMessages
import Accumulation.Kimi.Chunk
import Accumulation.Kimi.CollectText
import Accumulation.Kimi.CollectCalls
import Accumulation.Kimi.EventStream
import Accumulation.Kimi.UploadBody
import Accumulation.Lib.Refinement
import Accumulation.Report.RingQueue
import Accumulation.Store.Evict
import Accumulation.Uprobe.LostTime
import Accumulation.Collector.Stats
import Accumulation.Report.Traffic
import Accumulation.Report.FailedStart
import Accumulation.Store.Unread
import Accumulation.Store.EncodeErrors
import Accumulation.Go.Blocks
import Accumulation.Go.Zip
import Accumulation.Store.TruncateErrors
import Accumulation.Kimi.StreamRuns
import Accumulation.Proxy.ReverseProxy
import Accumulation.Lib.Chains
import Accumulation.Libbpf.HashMap
import Accumulation.Lib.Wrapping
import Accumulation.Libbpf.XskRing
import Accumulation.Xdp.Bounds
import Accumulation.Logfile.UploadLog
import Accumulation.Tracing.SpanContext
import Accumulation.Tracing.StartSpan
import Accumulation.Tracing.TargetData
import Accumulation.Libbpf.PerfBuffer
import Accumulation.Go.MIMEHeader
import Accumulation.Kimi.Client

import NavekFiber.Machine.Bytes
import NavekFiber.Machine.Fifo
import NavekFiber.Machine.HashTable
import NavekFiber.Machine.Memory
import NavekFiber.Machine.Progress
import NavekFiber.Machine.Regex
import NavekFiber.Machine.Run
import NavekFiber.Machine.Simulation
import NavekFiber.Machine.UnorderedMap
import NavekFiber.Machine.WorkQueue
import NavekFiber.Main.Bus
import NavekFiber.Main.BusMessages
import NavekFiber.Main.BusService
import NavekFiber.Main.Channels
import NavekFiber.Main.Config
import NavekFiber.Main.ConfigFile
import NavekFiber.Main.ConfigKeys
import NavekFiber.Main.ConfigLookup
import NavekFiber.Main.ConfigQuotes
import NavekFiber.Main.ConfigRegex
import NavekFiber.Main.ConfigSections
import NavekFiber.Main.ConfigSpaces
import NavekFiber.Main.Endpoints
import NavekFiber.Main.KernelRun
import NavekFiber.Main.Listeners
import NavekFiber.Main.ModuleLoading
import NavekFiber.Main.PathOverlap
import NavekFiber.Main.PathString
import NavekFiber.Main.RequestImpl
import NavekFiber.Main.RequestTasks
import NavekFiber.Main.RouteOrder
import NavekFiber.Main.RouteTable
import NavekFiber.Main.RouterImpl
import NavekFiber.Main.Signals
import NavekFiber.Main.Startup
import NavekFiber.Main.WildcardUris
import NavekFiber.Mq.Interfaces
import NavekFiber.Mq.QueueOptions
import NavekFiber.Mq.SyncQueue
import NavekFiber.Mq.SyncQueueClients
import NavekFiber.Mq.SyncQueueConsistency
import NavekFiber.Mq.SyncQueueForwardUid
import NavekFiber.Mq.SyncQueueForwards
import NavekFiber.Mq.SyncQueueOrder
import NavekFiber.Mq.SyncQueuePost
import NavekFiber.Mq.SyncQueueReplies
import NavekFiber.Mq.SyncQueueTasks
import NavekFiber.Mq.SyncSapi
import NavekFiber.Mq.SyncSapiDrain
import NavekFiber.Mq.SyncSapiMessages
import NavekFiber.Mq.SyncSapiTasks
import NavekFiber.Mq.SyncSapiThread
import NavekFiber.Mq.SyncSapiWakeup
import NavekFiber.Mq.SyncSapiWorkers
import NavekFiber.Mt.ThreadJobs
import NavekFiber.Mt.ThreadPool
import NavekFiber.Mt.ThreadPoolCores
import NavekFiber.Mt.ThreadPoolGrowth
import NavekFiber.Mt.ThreadPoolJoin
import NavekFiber.Mt.ThreadPoolLimits
import NavekFiber.Mt.ThreadPoolOrder
import NavekFiber.Mt.ThreadPoolRegistry
import NavekFiber.Mt.ThreadPoolResize
import NavekFiber.Mt.ThreadPoolService
import NavekFiber.Mt.ThreadPoolTasks
import NavekFiber.Net.AddListener
import NavekFiber.Net.HttpCodes
import NavekFiber.Net.HttpEmptyLines
import NavekFiber.Net.HttpHeadEnd
import NavekFiber.Net.HttpHeaderValues
import NavekFiber.Net.HttpImpl
import NavekFiber.Net.HttpLineEnds
import NavekFiber.Net.HttpLineSearch
import NavekFiber.Net.HttpLines
import NavekFiber.Net.HttpParse
import NavekFiber.Net.HttpQuery
import NavekFiber.Net.HttpReads
import NavekFiber.Net.HttpReceive
import NavekFiber.Net.HttpReply
import NavekFiber.Net.HttpRequest
import NavekFiber.Net.HttpStatus
import NavekFiber.Net.HttpUnixLines
import NavekFiber.Net.MessageIds
import NavekFiber.Net.ReadBuffer
import NavekFiber.Net.Receive
import NavekFiber.Net.ReceiveRuns
import NavekFiber.Net.Server
import NavekFiber.Net.ServerAccepts
import NavekFiber.Utils.FindCharLoop
import NavekFiber.Utils.FindLoop
import NavekFiber.Utils.FindMatch
import NavekFiber.Utils.FindMatchReads
import NavekFiber.Utils.HeaderNames
import NavekFiber.Utils.MatchLoop
import NavekFiber.Utils.Numbers
import NavekFiber.Utils.Options
import NavekFiber.Utils.RangeLists
import NavekFiber.Utils.SizeUnits
import NavekFiber.Utils.TimePeriod
import NavekFiber.Utils.Transform
import NavekFiber.Utils.ZcExplode
import NavekFiber.Utils.ZcTrim

import DistributedSystems.MapReduce.Sequential
import DistributedSystems.MapReduce.OutputFiles
import DistributedSystems.MapReduce.MissingReports
import DistributedSystems.MapReduce.WorkerExit
import DistributedSystems.MapReduce.MapOutputs
import DistributedSystems.MapReduce.CompletionReports
import DistributedSystems.MapReduce.ReduceOutput
import DistributedSystems.HttpServer.Extensions
import DistributedSystems.HttpServer.Store
import DistributedSystems.Http.ConnectionLimit
import DistributedSystems.Http.RoundTrip
import DistributedSystems.Proxy.Fidelity
import DistributedSystems.MapReduce.Applications
import DistributedSystems.MapReduce.Recovery
import DistributedSystems.MapReduce.Shutdown
import DistributedSystems.HttpServer.Service
import DistributedSystems.Porcupine.KvModel
import DistributedSystems.Proxy.Transparency
import DistributedSystems.Labrpc.Restart
import DistributedSystems.Porcupine.CheckEvents

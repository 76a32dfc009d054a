import TaskEngine.App.Main
import TaskEngine.Bench.Main
import TaskEngine.Engine.Collect
import TaskEngine.Engine.DataRaces
import TaskEngine.Engine.FailedSubmit
import TaskEngine.Engine.Observers
import TaskEngine.Engine.Sequential
import TaskEngine.Engine.Windows
import TaskEngine.Metrics.Limits
import TaskEngine.Pool.Backpressure
import TaskEngine.Pool.Construction
import TaskEngine.Pool.FailedDrain
import TaskEngine.Pool.FairCalls
import TaskEngine.Pool.Futures
import TaskEngine.Pool.Lifetime
import TaskEngine.Pool.Server
import TaskEngine.Pool.WorkerFaults
import TaskEngine.Queue.Linearizable

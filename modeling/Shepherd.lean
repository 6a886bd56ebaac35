import Shepherd.Backend.CgroupRemoval
import Shepherd.Backend.JobRuns
import Shepherd.Backend.Quarantine
import Shepherd.Backend.SamplingRuns
import Shepherd.Backend.SignalHits
import Shepherd.Backend.WaitRuns
import Shepherd.Background.TaskExit
import Shepherd.Blocking.RunRuns
import Shepherd.Domain.Backoff
import Shepherd.Domain.Encoding
import Shepherd.Domain.Grammar
import Shepherd.Kept.GateSafety
import Shepherd.Kept.OwnershipRuns
import Shepherd.Kept.Terminate
import Shepherd.Kept.WatchSafety
import Shepherd.Observation.Rates
import Shepherd.Output.PipesRuns
import Shepherd.Proc.Accounting
import Shepherd.Proc.Stat
import Shepherd.RegistryRuns
import Shepherd.Service.Adoption
import Shepherd.Service.Endings
import Shepherd.Service.Retries
import Shepherd.Supervisor.Agreement
import Shepherd.Supervisor.BlockRuns
import Shepherd.Supervisor.CaptureRuns
import Shepherd.Supervisor.MonitorRuns
import Shepherd.Supervisor.OsPids
import Shepherd.Supervisor.OwnerRuns
import Shepherd.Supervisor.Scoped

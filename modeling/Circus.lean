import Circus.Lts
import Circus.StartTransaction
import Circus.Cascade
import Circus.Runner.RowRefinement
import Circus.Runner.Exclusion
import Circus.Runner.Registry
import Circus.Runner.OneAtATime
import Circus.Runner.DependencyOrder
import Circus.Runner.Quiescence
import Circus.Runner.Retries
import Circus.Runner.PromotionComplete
import Circus.Runner.HeadOfLine
import Circus.Runner.Unsupported
import Circus.Runner.OperatorRestart
import Circus.Runner.GcRoots
import Circus.Evaluator.Results
import Circus.Evaluator.Claiming
import Circus.Evaluator.GivingUp
import Circus.Evaluator.Trust
import Circus.Evaluator.Cancelled
import Circus.Evaluator.ChangeRequests
import Circus.Evaluator.RepoConfig
import Circus.Evaluator.Checkout
import Circus.Evaluator.PathFilter
import Circus.Evaluator.Interval
import Circus.Evaluator.TimeLimit
import Circus.Evaluator.OneShot
import Circus.Evaluator.Expand
import Circus.Evaluator.Dependencies
import Circus.Evaluator.InputsCache
import Circus.NixEval.Evaluate
import Circus.NixEval.SourceRef
import Circus.Rpc.Sessions
import Circus.Rpc.Intact
import Circus.Rpc.Accepted
import Circus.Rpc.CanonicalHash
import Circus.Cache.Purge
import Circus.Cache.Gc
import Circus.Cache.Served
import Circus.Cache.Signing
import Circus.Agent.Session
import Circus.Agent.LogFile
import Circus.Agent.LogLimits
import Circus.Releases
import Circus.Repositories
import Circus.Remote
import Circus.Migrations
import Circus.Server.ApiKeys
import Circus.Server.Accounts
import Circus.Notifications
import Circus.Notifications.Attempts
import Circus.Notifications.CommitStatus
import Circus.Evaluator.Globs
import Circus.Rpc.Pool
import Circus.Server.NixStrings

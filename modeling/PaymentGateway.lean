import PaymentGateway.Lib.Transition
import PaymentGateway.Lib.Schedule
import PaymentGateway.Lib.Hierarchy
import PaymentGateway.Lib.Forest
import PaymentGateway.Lib.LaggingCounter
import PaymentGateway.Lib.Linearization
import PaymentGateway.Lib.Json
import PaymentGateway.Lib.JsonNumber
import PaymentGateway.Lib.Snapshot
import PaymentGateway.Tree.Shape
import PaymentGateway.Tree.Index
import PaymentGateway.Tree.Destructor
import PaymentGateway.Sequential.PaymentTree
import PaymentGateway.Sequential.Counters
import PaymentGateway.Sequential.Specification
import PaymentGateway.Sequential.Algebra
import PaymentGateway.Sequential.Growth
import PaymentGateway.Sequential.Recovery
import PaymentGateway.Atomic.Machine
import PaymentGateway.Atomic.Steps
import PaymentGateway.Atomic.Accounting
import PaymentGateway.Atomic.Custody
import PaymentGateway.Atomic.LockUnlock
import PaymentGateway.Atomic.DistinctUsers
import PaymentGateway.Atomic.DuplicateUsers
import PaymentGateway.Atomic.Competition
import PaymentGateway.Atomic.Calls
import PaymentGateway.Atomic.Sentinel
import PaymentGateway.Atomic.Recorded
import PaymentGateway.Atomic.Blocking
import PaymentGateway.Atomic.Ownership
import PaymentGateway.Atomic.UpgradeFailure
import PaymentGateway.Atomic.UpgradeExclusion
import PaymentGateway.Atomic.Overlap
import PaymentGateway.Atomic.Simulator
import PaymentGateway.Atomic.Linearizable
import PaymentGateway.Atomic.Walks
import PaymentGateway.Atomic.Solo
import PaymentGateway.Atomic.Names
import PaymentGateway.Atomic.Quiescence
import PaymentGateway.Atomic.ToJson
import PaymentGateway.Atomic.Splicing
import PaymentGateway.Atomic.Reading
import PaymentGateway.Atomic.Progress
import PaymentGateway.Atomic.Footprint
import PaymentGateway.Atomic.Completion
import PaymentGateway.Atomic.Overflow
import PaymentGateway.Atomic.Transactions
import PaymentGateway.Atomic.Targets
import PaymentGateway.Atomic.Conflicts
import PaymentGateway.Atomic.Serialization
import PaymentGateway.Atomic.Worker
import PaymentGateway.Atomic.Retries
import PaymentGateway.Server.Gateways
import PaymentGateway.Server.Verification
import PaymentGateway.Server.Requests
import PaymentGateway.Server.Monitoring

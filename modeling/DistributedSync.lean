import DistributedSync.Raft.Entitlement
import DistributedSync.Raft.MatchIndex
import DistributedSync.Raft.Voting
import DistributedSync.Raft.Fencing
import DistributedSync.Library.Replication.Invariants
import DistributedSync.System.Acknowledgement
import DistributedSync.System.MutualExclusion
import DistributedSync.Raft.Delivery
import DistributedSync.Raft.CommitRule
import DistributedSync.Raft.ElectionTasks
import DistributedSync.Raft.Retransmission
import DistributedSync.Raft.LogRepair
import DistributedSync.Services.Topics
import DistributedSync.System.Restart
import DistributedSync.System.Persistence
import DistributedSync.Services.Expiry
import DistributedSync.Services.Deadlock
import DistributedSync.System.Capacity
import DistributedSync.Bonus.Audit
import DistributedSync.Bonus.Pbft
import DistributedSync.Bonus.LoadBalancer
import DistributedSync.App.Authorization
import DistributedSync.Bonus.AuditFailures
import DistributedSync.System.LruCache
import DistributedSync.System.InvalidateEndpoint
import DistributedSync.Services.HashRing
import DistributedSync.Services.CycleReport
import DistributedSync.Services.DetectionRound
import DistributedSync.Services.Recovery
import DistributedSync.Services.LockOrder
import DistributedSync.Services.LockTraces
import DistributedSync.Services.Refusal
import DistributedSync.System.Poison
import DistributedSync.System.ReadBack
import DistributedSync.Bonus.Encryption
import DistributedSync.Raft.Tenure
import DistributedSync.Raft.LogOrder
import DistributedSync.Raft.Campaign
import DistributedSync.Raft.Electability
import DistributedSync.Raft.Progress
import DistributedSync.System.Replicas
import DistributedSync.System.SingleNode
import DistributedSync.System.CacheValues
import DistributedSync.System.CacheStates
import DistributedSync.Services.NodeFailure
import DistributedSync.Raft.Http
import DistributedSync.Bonus.LoadRuns
import DistributedSync.Bonus.GeoRouter
import DistributedSync.Raft.Reported
import DistributedSync.Raft.TotalOrder
import DistributedSync.Library.Broadcast
import DistributedSync.System.Publications

import MitDistributed.KVRaft.Clerk
import MitDistributed.KVRaft.Duplicates
import MitDistributed.KVRaft.Linearizable
import MitDistributed.KVRaft.Replay
import MitDistributed.KVRaft.WaitChs
import MitDistributed.Labrpc.Delivery
import MitDistributed.Labrpc.Progress
import MitDistributed.Labrpc.Statistics
import MitDistributed.MapReduce.Output
import MitDistributed.MapReduce.Reports
import MitDistributed.Raft.Acknowledged
import MitDistributed.Raft.ApplyStream
import MitDistributed.Raft.Backtracking
import MitDistributed.Raft.CommitScan
import MitDistributed.Raft.Compaction
import MitDistributed.Raft.FollowerCommit
import MitDistributed.Raft.InstallMatching
import MitDistributed.Raft.Progress
import MitDistributed.Raft.Recovery
import MitDistributed.Raft.StartCalls
import MitDistributed.Raft.Traffic
import MitDistributed.Raft.Uncompacted
import MitDistributed.Raft.WaitCycle
import MitDistributed.ShardCtrler.ExactlyOnce
import MitDistributed.ShardCtrler.Transfers
import MitDistributed.ShardCtrler.Versions
import MitDistributed.ShardKV.FetchConfig
import MitDistributed.ShardKV.Panics
import MitDistributed.ShardKV.Peers
import MitDistributed.ShardKV.Restore

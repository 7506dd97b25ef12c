import DistSys.Schemes.Balance
import DistSys.Schemes.Machine
import DistSys.Schemes.Topology
import DistSys.Schemes.Linear
import DistSys.Schemes.Points
import DistSys.Schemes.GoMap
import DistSys.Schemes.GoString
import DistSys.Schemes.Strconv
import DistSys.Schemes.Utf8
import DistSys.Schemes.Json
import DistSys.Schemes.JsonStream
import DistSys.Schemes.JsonText
import DistSys.Schemes.Grouping
import DistSys.Schemes.Files
import DistSys.Schemes.Search
import DistSys.LabRpc.Calls
import DistSys.LabRpc.Network
import DistSys.LabRpc.Requests
import DistSys.LabRpc.Progress
import DistSys.LabRpc.Statistics
import DistSys.ShardCfg.Config
import DistSys.ShardCfg.Rebalance
import DistSys.ShardCfg.Membership
import DistSys.ShardCfg.Runs
import DistSys.ShardCfg.Answers
import DistSys.ShardCfg.Order
import DistSys.ShardCfg.Text
import DistSys.Mr.Coordinator
import DistSys.Mr.Bookkeeping
import DistSys.Mr.History
import DistSys.Mr.Progress
import DistSys.Mr.Worker
import DistSys.Mr.Sequential
import DistSys.Mr.Calls
import DistSys.Mr.Records
import DistSys.Mr.Job
import DistSys.Mr.Outputs
import DistSys.Mr.Intermediate
import DistSys.Mr.Reports
import DistSys.Mr.Alone
import DistSys.Mr.Safety
import DistSys.Mr.EndToEnd
import DistSys.Mr.Apps
import DistSys.Tester.Persister
import DistSys.Tester.Restart
import DistSys.Tester.Durable
import DistSys.Tester.Acknowledged
import DistSys.Tester.Group
import DistSys.Tester.Partition
import DistSys.Tester.Groups
import DistSys.Tester.Clients
import DistSys.Tester.Clnts
import DistSys.Tester.Annotation
import DistSys.Tester.Checks
import DistSys.Tester.Faults
import DistSys.Kv.Model
import DistSys.Kv.Documented
import DistSys.Kv.Entry
import DistSys.Kv.PutTest
import DistSys.Kv.Rounds
import DistSys.Kv.Appends
import DistSys.Kv.AppendTest
import DistSys.Kv.Recorder
import DistSys.Kv.Oracle
import DistSys.Kv.AtLeastOnce
import DistSys.Raft.Checker
import DistSys.Raft.Snapshots
import DistSys.Raft.Agreement
import DistSys.LabGob.Types
import DistSys.LabGob.Decode

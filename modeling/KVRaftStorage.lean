import KVRaftStorage.Raft.Boundary
import KVRaftStorage.Raft.Checked
import KVRaftStorage.Raft.Bookkeeping
import KVRaftStorage.Raft.CommitRule
import KVRaftStorage.Raft.Durability
import KVRaftStorage.Raft.Exits
import KVRaftStorage.Raft.Elections
import KVRaftStorage.Raft.Logs
import KVRaftStorage.Raft.PersisterFiles
import KVRaftStorage.Raft.Repair
import KVRaftStorage.Raft.Safety
import KVRaftStorage.Raft.ReadIndex
import KVRaftStorage.Raft.Recovery
import KVRaftStorage.Raft.Submissions
import KVRaftStorage.Service.Writes
import KVRaftStorage.Raft.Speakers
import KVRaftStorage.Raft.IndexOrder
import KVRaftStorage.KvServer.Expiry
import KVRaftStorage.KvServer.ReadBarrier
import KVRaftStorage.KvServer.Replicas
import KVRaftStorage.KvServer.Startup
import KVRaftStorage.KvServer.Transfer
import KVRaftStorage.Rpc.Channel
import KVRaftStorage.Rpc.Framing
import KVRaftStorage.Storage.BlockIterators
import KVRaftStorage.Storage.CachedEngine
import KVRaftStorage.Storage.LruReference
import KVRaftStorage.Storage.LsmCrashPoints
import KVRaftStorage.Storage.LsmTornLog
import KVRaftStorage.Fiber.IOManager
import KVRaftStorage.Fiber.FdTable
import KVRaftStorage.Fiber.IoEvents
import KVRaftStorage.Fiber.TimerRuns

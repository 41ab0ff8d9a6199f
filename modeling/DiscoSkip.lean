import DiscoSkip.Accounting
import DiscoSkip.Chunk
import DiscoSkip.PutAlone
import DiscoSkip.PutWritten
import DiscoSkip.ReadOrder
import DiscoSkip.SingleServer
import DiscoSkip.SkipVector.Repair
import DiscoSkip.SkipVector.Verify
import DiscoSkip.BulkRead
import DiscoSkip.Unique
import DiscoSkip.SkipVector.Layer
import DiscoSkip.VectorUmfra
import DiscoSkip.Fusee
import DiscoSkip.Fusee.Agreement
import DiscoSkip.Fusee.Slots
import DiscoSkip.SwarmKv.Memory
import DiscoSkip.SwarmKv.TspLaws
import DiscoSkip.SwarmKv.Insert
import DiscoSkip.SwarmKv.LruCache
import DiscoSkip.SwarmKv.OopsClient
import DiscoSkip.SwarmKv.Confirm
import DiscoSkip.SwarmKv.Notified
import DiscoSkip.SwarmKv.Pending
import DiscoSkip.SwarmKv.Seen
import DiscoSkip.SwarmKv.Seen.Data
import DiscoSkip.SwarmKv.Seen.Ops
import DiscoSkip.SwarmKv.Seen.Run
import DiscoSkip.SwarmKv.ReadTime
import DiscoSkip.SwarmKv.Servers
import DiscoSkip.SwarmKv.Slots
import DiscoSkip.SwarmKv.UnreliableMaxReg.Steps
import DiscoSkip.SwarmKv.RelaxedMaxReg.Steps
import DiscoSkip.SwarmKv.OopsDataFuture.Steps
import DiscoSkip.SwarmKv.OopsClient.Steps
import DiscoSkip.Conn.PollerManager
import DiscoSkip.Conn.Rendezvous
import DiscoSkip.Conn.Workers
import DiscoSkip.Lock.SvLock
import DiscoSkip.SkipMap.SortedChunk
import DiscoSkip.SkipMap.Range
import DiscoSkip.SkipMap.Search
import DiscoSkip.SwarmKv.Timestamps
import DiscoSkip.SwarmKv.Addressing
import DiscoSkip.MultivectorCfra
import DiscoSkip.MultivectorCfra.Split
import DiscoSkip.Lib.Memory
import DiscoSkip.Memory.PoolAllocator
import DiscoSkip.Memory.Pools
import DiscoSkip.MultivectorAsr
import DiscoSkip.MultivectorAsr.StealHalf
import DiscoSkip.ClientMemory
import DiscoSkip.AlwaysSteady
import DiscoSkip.Loops
import DiscoSkip.WaitFree

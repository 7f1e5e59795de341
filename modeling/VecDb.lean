import VecDb.Auth.Jwt
import VecDb.Bulk.Segment
import VecDb.Bulk.Truncated
import VecDb.Catalog.Arrays
import VecDb.Crypto.Descriptor
import VecDb.Distance.Kernels
import VecDb.Facade.InStep
import VecDb.Facade.ScanLocks
import VecDb.Hybrid.Bm25
import VecDb.Index.Histories
import VecDb.Index.Spann
import VecDb.Mvcc.Conflict
import VecDb.Mvcc.IdMap
import VecDb.Mvcc.Retention
import VecDb.Pager.Cache
import VecDb.Pager.Crash
import VecDb.Pager.Walk
import VecDb.Quant.Pq
import VecDb.Query.Hybrid
import VecDb.Query.PlanCache
import VecDb.Server.PgWire.Pipeline
import VecDb.Server.PgWire.Split
import VecDb.Server.Vecpb.Marshal
import VecDb.Server.Writer
import VecDb.Storage.Snapshot
import VecDb.VectorSql.Logic
import VecDb.Wal.Checkpoint
import VecDb.Wal.Open

import RngService.Lib.Bytes
import RngService.Lib.Program
import RngService.Lib.Interleave
import RngService.Lib.Focus
import RngService.Lib.Simulation
import RngService.Lib.Mutex
import RngService.Lib.Keyed
import RngService.Lib.HashLog
import RngService.Lib.Residue
import RngService.Lib.FisherYates
import RngService.Lib.Rejection
import RngService.Lib.TokenBucket
import RngService.Lib.Loop
import RngService.Lib.ContFrac
import RngService.Lib.Fill
import RngService.Lib.Strip
import RngService.Go.Base
import RngService.Go.Sha256
import RngService.Go.Strings
import RngService.Csprng.Drbg
import RngService.Csprng.Reference
import RngService.Csprng.Seeding
import RngService.Csprng.Counters
import RngService.Audit.Log
import RngService.Audit.Commitment
import RngService.Audit.Store
import RngService.Audit.Restart
import RngService.Audit.Tampering
import RngService.Audit.Postgres
import RngService.Scaling.Range
import RngService.Scaling.Shuffle
import RngService.Scaling.Uniform
import RngService.Vertex.Server
import RngService.Vertex.Uniform
import RngService.Vertex.Civet
import RngService.Vertex.Request
import RngService.Vertex.Json
import RngService.Gateway.World
import RngService.Entropy.Pool
import RngService.Cmd.Dump
import RngService.Gateway.Middleware
import RngService.Gateway.Rest
import RngService.Gateway.Ledger
import RngService.Gateway.Walk
import RngService.Gateway.Trail
import RngService.Gateway.Locking
import RngService.Gateway.Generator
import RngService.Gateway.Token
import RngService.Gateway.RateLimiter
import RngService.Gateway.Limited
import RngService.Gateway.Postgres
import RngService.Gateway.Values
import RngService.Gateway.Words
import RngService.Gateway.Batch
import RngService.Gateway.Integrity
import RngService.Gateway.Recovery
import RngService.Gateway.Faults
import RngService.Gateway.Views
import RngService.Gateway.Reseed
import RngService.Gateway.Overdue
import RngService.Gateway.Timestamps
import RngService.Health.SelfTest
import RngService.Health.Convergence
import RngService.Health.Binary
import RngService.Config.Load
import RngService.Config.ApiKeys
import RngService.Cmd.Serve
import RngService.Cmd.Monitors

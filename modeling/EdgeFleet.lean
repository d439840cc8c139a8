import EdgeFleet.KeyMap.Basic
import EdgeFleet.KeyMap.Lemmas
import EdgeFleet.KeyMap.Counts
import EdgeFleet.Text.Hex
import EdgeFleet.Text.Decimal
import EdgeFleet.Json.Decode
import EdgeFleet.Time.Rfc3339
import EdgeFleet.Time.Clock
import EdgeFleet.Text.Base64
import EdgeFleet.Digest.Sha256
import EdgeFleet.Topic
import EdgeFleet.Heartbeat
import EdgeFleet.Fleet.State
import EdgeFleet.Snapshot.Chunk
import EdgeFleet.Codec
import EdgeFleet.Correlation
import EdgeFleet.Store.Memory
import EdgeFleet.Store.Directory
import EdgeFleet.Controller
import EdgeFleet.Api.Router
import EdgeFleet.Agent.Session
import EdgeFleet.Agent.Identity
import EdgeFleet.Agent.Interfaces
import EdgeFleet.Agent.HostSample
import EdgeFleet.Testbed.Broker
import EdgeFleet.Testbed.Rehearsal
import EdgeFleet.Agent.Settings
import EdgeFleet.Controller.Settings
import EdgeFleet.Proofs.Workloads.Selection
import EdgeFleet.Proofs.Workloads.Local
import EdgeFleet.Proofs.Workloads.Convergence
import EdgeFleet.Proofs.Workloads.Pushes
import EdgeFleet.Proofs.Json.Scan
import EdgeFleet.Proofs.Json.RoundTrip
import EdgeFleet.Proofs.Json.Records
import EdgeFleet.Proofs.Time.Rfc3339
import EdgeFleet.Proofs.Fleet.Forms
import EdgeFleet.Proofs.Compression.Bits
import EdgeFleet.Proofs.Compression.Lz77
import EdgeFleet.Proofs.Text.Octets
import EdgeFleet.Proofs.Compression.Deflate
import EdgeFleet.Proofs.Compression.Zstd
import EdgeFleet.Proofs.Compression.Codec
import EdgeFleet.Proofs.Snapshot.Chunks
import EdgeFleet.Proofs.Snapshot.Restore
import EdgeFleet.Proofs.Snapshot.Batch
import EdgeFleet.Proofs.Snapshot.History
import EdgeFleet.Proofs.Snapshot.CrashSafety
import EdgeFleet.Proofs.Snapshot.Cycle
import EdgeFleet.Proofs.Snapshot.Tenure
import EdgeFleet.Proofs.Files.Tree
import EdgeFleet.Proofs.Store.Directory
import EdgeFleet.Proofs.Fleet.Lifecycle
import EdgeFleet.Proofs.Fleet.Runs
import EdgeFleet.Proofs.Fleet.Agreement
import EdgeFleet.Proofs.Fleet.Restart
import EdgeFleet.Proofs.Agent.Inbound
import EdgeFleet.Proofs.Agent.Session
import EdgeFleet.Proofs.Fleet.Handshake
import EdgeFleet.Proofs.Fleet.Offers
import EdgeFleet.Proofs.Workloads.Keys
import EdgeFleet.Proofs.Fleet.Batches
import EdgeFleet.Proofs.Correlation.Tasks
import EdgeFleet.Proofs.Correlation.Fates
import EdgeFleet.Proofs.Correlation.Rest
import EdgeFleet.Proofs.Correlation.Schedule
import EdgeFleet.Proofs.Correlation.Contract
import EdgeFleet.Proofs.Fleet.Redelivery
import EdgeFleet.Proofs.Snapshot.Life
import EdgeFleet.Proofs.Fleet.Interleaving
import EdgeFleet.Proofs.Snapshot.Resumption
import EdgeFleet.Proofs.Fleet.Formats
import EdgeFleet.Proofs.Snapshot.Handover
import EdgeFleet.Proofs.Agent.Restarts
import EdgeFleet.Proofs.Snapshot.Newest
import EdgeFleet.Proofs.Dispatch.Crew
import EdgeFleet.Proofs.Api.Guard
import EdgeFleet.Proofs.Store.Refinement
import EdgeFleet.Proofs.Agent.Inbox
import EdgeFleet.Proofs.Fleet.Reception
import EdgeFleet.Proofs.Snapshot.Retries
import EdgeFleet.Proofs.Agent.Registration
import EdgeFleet.Proofs.Fleet.Sweeps
import EdgeFleet.Proofs.Fleet.Rollouts
import EdgeFleet.Proofs.Correlation.Sweeper
import EdgeFleet.Proofs.Snapshot.Attempts
import EdgeFleet.Proofs.Snapshot.Loop
import EdgeFleet.Proofs.Snapshot.Pace
import EdgeFleet.Proofs.Toml.Quoted
import EdgeFleet.Proofs.Toml.RoundTrip
import EdgeFleet.Proofs.Toml.Range
import EdgeFleet.Proofs.Agent.Settings

import YapStack.Account.Binding
import YapStack.Account.Leaks
import YapStack.Audio.Drift
import YapStack.Audio.Extraction
import YapStack.Chat.Attribution
import YapStack.Chat.Exchange
import YapStack.Chat.Guard
import YapStack.Chat.Kept
import YapStack.Chat.Owned
import YapStack.Chat.Replay
import YapStack.Chat.Rounds
import YapStack.Chat.Sent
import YapStack.Chat.Steps
import YapStack.Chat.Stored
import YapStack.Chat.Verbatim
import YapStack.Citations.Crossing
import YapStack.Citations.Split
import YapStack.Credentials.RosterFloor
import YapStack.Credentials.Sealed
import YapStack.Credentials.Store
import YapStack.Credentials.Tokens
import YapStack.Crypto.Aead
import YapStack.Crypto.AudioBlob
import YapStack.Crypto.AudioSegments
import YapStack.Crypto.AudioStream
import YapStack.Crypto.AudioTampering
import YapStack.Cutover.CrashSafety
import YapStack.Cutover.Database
import YapStack.Cutover.PlacesSteps
import YapStack.Cutover.Recovery
import YapStack.Cutover.Restores
import YapStack.Cutover.Writes
import YapStack.Drain.Cycle
import YapStack.Drain.OwedMaintenance
import YapStack.Filing.Library
import YapStack.Filing.Runs
import YapStack.Filing.Trees
import YapStack.Folders.Forest
import YapStack.Folders.Merged
import YapStack.Folders.Walks
import YapStack.Foundation.Binary32
import YapStack.Foundation.Bytes
import YapStack.Foundation.Cascade
import YapStack.Foundation.Circular
import YapStack.Foundation.Climbs
import YapStack.Foundation.Codec
import YapStack.Foundation.Faulty
import YapStack.Foundation.Firsts
import YapStack.Foundation.JsStrings
import YapStack.Foundation.Lanes
import YapStack.Foundation.Rows
import YapStack.Foundation.Runs
import YapStack.Foundation.Scanning
import YapStack.Foundation.Scripts
import YapStack.Foundation.Spans
import YapStack.Foundation.Statements
import YapStack.Foundation.Texts
import YapStack.Live.Backfill
import YapStack.Live.BackfillSplit
import YapStack.Live.BackfillWalk
import YapStack.Live.BufferRuns
import YapStack.Live.BufferSteps
import YapStack.Live.Buffers
import YapStack.Live.Dispatch
import YapStack.Live.Loop
import YapStack.Live.MicOwnership
import YapStack.Live.Privacy
import YapStack.Live.PrivacyEnd
import YapStack.Live.PrivacyOwnership
import YapStack.Live.PrivacySteps
import YapStack.Live.PrivacySwap
import YapStack.Live.PrivacyTick
import YapStack.Live.RingBuffer
import YapStack.Live.RingStream
import YapStack.Live.SessionLoop
import YapStack.Live.Source
import YapStack.Live.Tiling
import YapStack.Live.TilingSteps
import YapStack.Migrations.Conversion
import YapStack.Migrations.CrashSafe
import YapStack.Migrations.Launches
import YapStack.Migrations.Reruns
import YapStack.Migrations.Runner
import YapStack.Migrations.Safety
import YapStack.Migrations.Schema
import YapStack.Models.Installed
import YapStack.Parakeet.Grouping
import YapStack.Recording.CrashRecovery
import YapStack.Recording.PartIndex
import YapStack.Recording.PeerColumns
import YapStack.Recording.PeerSweep
import YapStack.Recording.Peers
import YapStack.Relay.AudioRefcount
import YapStack.Relay.Capability
import YapStack.Relay.CapabilityFloor
import YapStack.Relay.Cursor
import YapStack.Relay.Dense
import YapStack.Relay.DenseSteps
import YapStack.Relay.DeviceRemoval
import YapStack.Relay.Devices
import YapStack.Relay.Floor
import YapStack.Relay.FloorSteps
import YapStack.Relay.Gc
import YapStack.Relay.GcSafety
import YapStack.Relay.MeteredStorage
import YapStack.Relay.Metering
import YapStack.Relay.Pages
import YapStack.Relay.Refresh
import YapStack.Relay.RefreshFamilies
import YapStack.Relay.RefreshRevocation
import YapStack.Relay.RefreshSteps
import YapStack.Relay.Sequence
import YapStack.Relay.Tenant
import YapStack.Relay.TenantSteps
import YapStack.Scheduler.Invariant
import YapStack.Scheduler.Picks
import YapStack.Scheduler.Queues
import YapStack.Scheduler.Steps
import YapStack.Sessions.Actions
import YapStack.Sessions.AwaitSteps
import YapStack.Sessions.Finalised
import YapStack.Sessions.Known
import YapStack.Sessions.Lifecycle
import YapStack.Sessions.LifecycleSteps
import YapStack.Sync.CaptureRuns
import YapStack.Sync.Cascade
import YapStack.Sync.CascadeGc
import YapStack.Sync.Change
import YapStack.Sync.ChangeCursor
import YapStack.Sync.Convergence
import YapStack.Sync.Crr
import YapStack.Sync.Crypto
import YapStack.Sync.Dedup
import YapStack.Sync.Delivery
import YapStack.Sync.Device
import YapStack.Sync.DeviceSteps
import YapStack.Sync.FetchRegistry
import YapStack.Sync.FetchRuns
import YapStack.Sync.FleetRuns
import YapStack.Sync.Gate
import YapStack.Sync.Outbox
import YapStack.Sync.Partition
import YapStack.Sync.Pull
import YapStack.Sync.Quarantine
import YapStack.Sync.ReplayPass
import YapStack.Sync.Session
import YapStack.Sync.Sound
import YapStack.Sync.TagMerge
import YapStack.Sync.Transport
import YapStack.Sync.Uniqueness
import YapStack.Sync.Watermark
import YapStack.Sync.World
import YapStack.Tools.Execute
import YapStack.Tools.Faults
import YapStack.Tools.Ranking
import YapStack.Tools.Replacing
import YapStack.Tools.Restored
import YapStack.Tools.Scoped
import YapStack.Tools.Undone
import YapStack.Transcription.Client
import YapStack.Transcription.Routing
import YapStack.Transcription.Waiters
import YapStack.Turnstile.Turns
import YapStack.Upload.Outstanding
import YapStack.Upload.Queue
import YapStack.Volume.Duck
import YapStack.Volume.Restored
import YapStack.Volume.Undone

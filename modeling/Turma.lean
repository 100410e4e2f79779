import Turma.Leader.Handover
import Turma.Ledger.HonestHost
import Turma.Ledger.Partition
import Turma.LedgerStore.Rekey
import Turma.LiveStore.Agree
import Turma.PgPool.Lending
import Turma.OutcomeLedger.PgStore
import Turma.PermissionLedger.Purge
import Turma.PermissionLedger.Agree
import Turma.ArchiveMirror.Late
import Turma.Forward.Bounded
import Turma.Tenancy.Scope
import Turma.Tail.Pump
import Turma.Archive.Quota
import Turma.Archive.Reconcile
import Turma.Archive.RawLayer
import Turma.Archive.Scope
import Turma.Registry.Refused
import Turma.NameToken.Permanent
import Turma.FleetSync.Resync
import Turma.Ledger.MergeOrder
import Turma.QwenGuard.FailsClosed
import Turma.QwenGuard.Glob
import Turma.DshTranscript.Chain
import Turma.TenantMigration.Grows
import Turma.Heartbeat.Budget
import Turma.Heartbeat.Delivery
import Turma.Handoff.KillOnce
import Turma.IndexMirror.Converge
import Turma.Ledger.Eviction
import Turma.Ledger.Aliases
import Turma.LedgerStore.Sendable
import Turma.Resp.Framing
import Turma.PgWire.Bind
import Turma.LiveStore.Durable
import Turma.Tenancy.Coerced
import Turma.Forward.Endpoint
import Turma.Forward.Replay
import Turma.IndexMirror.Hydrate
import Turma.Tty.Scrollback
import Turma.PermissionLedger.Evicted
import Turma.OutcomeLedger.HostPass
import Turma.EpicPlan.Validate
import Turma.Tar.Reads
import Turma.Tty.Chunks
import Turma.OrgStores.Trim
import Turma.SiteKeys.Boundary
import Turma.Devices.Bounded
import Turma.TicketQueue.Order
import Turma.DailyBrief.Store
import Turma.DailyBrief.Schedule
import Turma.Meetings.Budget
import Turma.Usage.Served
import Turma.EpicRun.Builders
import Turma.EpicRun.Panel
import Turma.BlobStore.Listing
import Turma.Guard.Commands

import GoAtlas.Wal.Format
import GoAtlas.Scheduler.OneShot
import GoAtlas.Limiter.NatsLimit
import GoAtlas.ProbFilter.CuckooMembers
import GoAtlas.FieldMask.Exact
import GoAtlas.FieldMask.Managed
import GoAtlas.Dlock.Exclusion
import GoAtlas.RedisFilter.Delete
import GoAtlas.Clientip.Spoofing
import GoAtlas.Leadelect.Exclusion
import GoAtlas.Cache.ReadThrough
import GoAtlas.Keyset.SlicePager
import GoAtlas.Selfjwt.Fencing
import GoAtlas.Hmacsign.Acceptance
import GoAtlas.Money.HalfUp
import GoAtlas.Money.Exchange
import GoAtlas.Filter.Confinement
import GoAtlas.Filter.Comparison
import GoAtlas.Filter.DecimalBounds
import GoAtlas.Filter.Sql.Inline
import GoAtlas.Filter.Quoting
import GoAtlas.Natskey
import GoAtlas.Saga.Recoverable
import GoAtlas.Scheduler.Trigger
import GoAtlas.Scheduler.Dispatch
import GoAtlas.Keys.Compose
import GoAtlas.FieldMask.Algebra
import GoAtlas.Ipacl.Policy
import GoAtlas.Spooling.Budget
import GoAtlas.Civil.Date
import GoAtlas.Depgraph.Build
import GoAtlas.Lru.Expirable
import GoAtlas.Retryqueue.Storages
import GoAtlas.Seccomp.Filter
import GoAtlas.Etag.Tag
import GoAtlas.Auth.Denylist
import GoAtlas.Cache.ReadBack
import GoAtlas.Batch.Collect
import GoAtlas.Audit.Page
import GoAtlas.Maps.RoundTrip
import GoAtlas.Fieldtracker.Complete
import GoAtlas.Iso7064.Mod11
import GoAtlas.Strings.ScreamingSnake
import GoAtlas.Bits.Counts
import GoAtlas.Filter.RegexGrammar
import GoAtlas.Saga.Completion
import GoAtlas.Scheduler.Stopped

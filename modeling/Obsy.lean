import Obsy.Bytes.Framing
import Obsy.Journal.Positions
import Obsy.Machine.Interleave
import Obsy.Catalog.Exclusion
import Obsy.Catalog.History
import Obsy.Queue.Delivery
import Obsy.Queue.Records
import Obsy.Collect.Stream
import Obsy.Part.BloomSection
import Obsy.Part.ChunkedFlush
import Obsy.Part.Budget
import Obsy.Part.Tightness
import Obsy.Part.CacheReplay
import Obsy.Metrics.Totals
import Obsy.Metrics.Exponential
import Obsy.Metrics.Admission
import Obsy.Metrics.Shapes
import Obsy.Trace.Scan
import Obsy.Trace.Cap
import Obsy.Trace.Otlp
import Obsy.Retention.Decision
import Obsy.Query.Pinning
import Obsy.Visibility.Queries
import Obsy.Compaction.Tiers
import Obsy.Catalog.Forward
import Obsy.Metrics.Caps
import Obsy.Metrics.Quantile
import Obsy.Metrics.Catalogs
import Obsy.Deletes.Durable
import Obsy.Policies.Retry
import Obsy.Query.Histogram
import Obsy.Logql.Decimals
import Obsy.Query.Params
import Obsy.Query.Traces
import Obsy.Query.Expiry
import Obsy.Query.Offers
import Obsy.Trace.Payload
import Obsy.Retention.Failure
import Obsy.Journal.Retirement
import Obsy.Admission.Gates
import Obsy.Catalog.Grace

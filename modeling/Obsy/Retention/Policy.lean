import Obsy.Metrics.Part
import Obsy.Part.Format
import Obsy.Trace.Part

/-!
# Retention policies

How long each tenant's logs, traces and metrics are kept, and which parts hold nothing that is kept
still.  A tenant without a policy keeps everything.

* `PolicyMap.signalRetention`, `Cutoffs.cutoffNs`, `Cutoffs.isExpired`: what is kept.
* `Cutoffs.logPartFullyExpired`, `tracePartFullyExpired`, `metricPartFullyExpired`: the decision, from
  the summary of a part alone.
-/

namespace Obsy

namespace Retention

open Part (Nanos PartMeta)
open Trace (TracePartMeta)
open Metrics (SeriesPartMeta)

/-- How long one tenant's data is kept: for a number of nanoseconds, or for good. -/
inductive TenantRetention where
  | finite (period : ℕ)
  | infinite
deriving DecidableEq

/-- The kind of data a retention applies to. -/
inductive Signal where
  | logs
  | traces
  | metrics
deriving DecidableEq

/-- Per-signal overrides of a tenant's retention. -/
structure SignalRetentions where
  logs : Option TenantRetention
  traces : Option TenantRetention
  metrics : Option TenantRetention

def SignalRetentions.get (retentions : SignalRetentions) : Signal → Option TenantRetention
  | .logs => retentions.logs
  | .traces => retentions.traces
  | .metrics => retentions.metrics

/-- What the control plane pushed for one tenant. -/
structure PolicyEntry where
  retention : TenantRetention
  signalRetentions : SignalRetentions

def PolicyEntry.retentionFor (entry : PolicyEntry) (signal : Signal) : TenantRetention :=
  (entry.signalRetentions.get signal).getD entry.retention

/-- Every policy the instance knows, by tenant. -/
structure PolicyMap where
  entries : Logql.Assoc PolicyEntry

namespace PolicyMap

variable (policies : PolicyMap)

def signalRetention (tenant : String) (signal : Signal) : Option TenantRetention :=
  (policies.entries.lookup tenant).map fun entry => entry.retentionFor signal

def contains (tenant : String) : Bool := (policies.entries.lookup tenant).isSome

end PolicyMap

/-- The policies and one instant. -/
structure Cutoffs where
  policies : PolicyMap
  nowNs : Nanos

namespace Cutoffs

variable (cutoffs : Cutoffs)

/-- The oldest timestamp still retained; none for an unknown tenant or an infinite one. -/
def cutoffNs (tenant : String) (signal : Signal) : Option Nanos :=
  match cutoffs.policies.signalRetention tenant signal with
  | none => none
  | some .infinite => none
  | some (.finite period) =>
    some (Metrics.Nanos.saturating (cutoffs.nowNs.1 - min (period : ℤ) (2 ^ 63 - 1)))

def isExpired (tenant : String) (signal : Signal) (timestampNs : Nanos) : Bool :=
  (cutoffs.cutoffNs tenant signal).any fun cutoffNs => timestampNs < cutoffNs

/-- Whether every tenant in the part has expired. -/
def logPartFullyExpired (info : PartMeta) : Bool :=
  !info.tenants.isEmpty &&
    info.tenants.all fun segment => cutoffs.isExpired segment.tenant .logs segment.maxTsNs

/-- Trace segments have no timestamps of their own: the bound is that of the row groups they own,
or else that of the part. -/
def traceSegmentMax (info : TracePartMeta) (segment : Trace.TraceTenantSegment) : Nanos :=
  let bounds :=
    if segment.rowGroupStart ≤ segment.rowGroupEnd ∧
        segment.rowGroupEnd ≤ info.rowGroupMaxTs.length then
      (info.rowGroupMaxTs.drop segment.rowGroupStart).take
        (segment.rowGroupEnd - segment.rowGroupStart)
    else []
  bounds.max?.getD info.maxTsNs

def tracePartFullyExpired (info : TracePartMeta) : Bool :=
  !info.tenants.isEmpty &&
    info.tenants.all fun segment =>
      cutoffs.isExpired segment.tenant .traces (traceSegmentMax info segment)

/-- Metric segments are judged by the newest sample of the part. -/
def metricPartFullyExpired (info : SeriesPartMeta) : Bool :=
  !info.tenants.isEmpty &&
    info.tenants.all fun segment => cutoffs.isExpired segment.tenant .metrics info.maxTsNs

variable {cutoffs}

/-- What is older than something expired has expired. -/
theorem isExpired_of_le {tenant : String} {signal : Signal} {older newer : Nanos}
    (h : cutoffs.isExpired tenant signal newer = true) (hle : older ≤ newer) :
    cutoffs.isExpired tenant signal older = true := by
  rw [isExpired, Option.any_eq_true] at h ⊢
  obtain ⟨cutoff, hcutoff, hlt⟩ := h
  exact ⟨cutoff, hcutoff, decide_eq_true (hle.trans_lt (of_decide_eq_true hlt))⟩

/-- Nothing of an unknown tenant expires. -/
theorem isExpired_unknown {tenant : String} (h : cutoffs.policies.contains tenant = false)
    (signal : Signal) (timestampNs : Nanos) :
    cutoffs.isExpired tenant signal timestampNs = false := by
  have hnone : cutoffs.policies.entries.lookup tenant = none := by
    simpa [PolicyMap.contains] using h
  simp [isExpired, cutoffNs, PolicyMap.signalRetention, hnone]

end Cutoffs

end Retention

end Obsy

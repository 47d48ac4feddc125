import ContextLedger.ServiceReads

/-!
The reading endpoints for sources, facts and provenance. A service reads for the
organization without looking at privacy scopes; the endpoint then withholds what is
above the caller's ceiling and says how much it withheld. A list of changes, a
lineage and a provenance are shown whole or not at all.
-/
namespace ContextLedger.RestReads

open Values Authorization Schema Facts Reference TemporalEngine Decisions ServiceReads

/-- The ceiling follows the role the caller had when the request was resolved. -/
def visible (ctx : TenantContext) : List PrivacyScope :=
  visiblePrivacyScopes ctx.role [ctx.maxPrivacyScope]

def allVisible (scopes : List PrivacyScope) (versions : List VersionSnapshot) : Bool :=
  versions.all fun v => scopes.contains v.privacyScope

structure EntityFacts where
  facts : List ResolvedFact
  withheldByPrivacyScope : ℕ

structure EntityTimeline where
  entries : List TimelineEntry
  withheldByPrivacyScope : ℕ

structure VersionProvenance where
  version : VersionSnapshot
  source : FactSource
  evidence : List LinkedRow

structure ProvenanceOut where
  version : VersionSnapshot
  source : FactSource
  evidence : List LinkedRow
  withheldEvidence : ℕ

def listSources (db : Database) (ctx : TenantContext) : Result (List FactSource) := do
  let _ ← requirePermission db ctx .readFacts
  return (db.sources.filter fun s => s.organizationId == ctx.organizationId).insertionSort
    fun a b => a.name ≤ b.name

def findSource (db : Database) (ctx : TenantContext) (sourceId : Uuid) : Result FactSource := do
  let _ ← requirePermission db ctx .readFacts
  match getSource db ctx.organizationId sourceId with
  | none => notFound "source not found"
  | some source => .ok source

/-- The service behind `versionProvenance`. -/
def provenance (db : Database) (ctx : TenantContext) (versionId : Uuid) :
    Result VersionProvenance := do
  let _ ← requirePermission db ctx .readFacts
  match getVersion db ctx.organizationId versionId with
  | none => notFound "fact version not found"
  | some version =>
    match getSource db ctx.organizationId version.sourceId with
    | none => notFound "source not found"
    | some source =>
      .ok ⟨toSnapshot version, source, evidenceForVersion db ctx.organizationId versionId⟩

def entityFacts (rt : Runtime) (db : Database) (ctx : TenantContext)
    (entityType externalId : String) (validAt knownAt : Option Datetime) (clock : Instant) :
    Result EntityFacts := do
  let facts ← factsAt rt db ctx entityType externalId validAt knownAt clock
  let shown := facts.filter fun f => (visible ctx).contains f.version.privacyScope
  return ⟨shown, facts.length - shown.length⟩

def timeline (rt : Runtime) (db : Database) (ctx : TenantContext)
    (entityType externalId : String) (knownAt : Option Datetime) : Result EntityTimeline := do
  let entries ← entityTimeline rt db ctx entityType externalId knownAt
  let shown := entries.filter fun e => (visible ctx).contains e.version.privacyScope
  return ⟨shown, entries.length - shown.length⟩

/-- The versions a change is made of. -/
def FactChange.versions (c : FactChange) : List VersionSnapshot :=
  c.change.before.toList ++ c.change.after.toList ++ c.change.transitions

def entityChanges (rt : Runtime) (db : Database) (ctx : TenantContext)
    (entityType externalId : String) (start finish : Datetime) (knownAt : Option Datetime) :
    Result (List FactChange) := do
  let changes ← changesBetween rt db ctx entityType externalId start finish knownAt
  return changes.filter fun c => allVisible (visible ctx) (FactChange.versions c)

def factHistory (db : Database) (ctx : TenantContext) (factId : Uuid)
    (knownAt : Option Datetime) : Result (List VersionSnapshot) := do
  let history ← history db ctx factId knownAt
  return history.filter fun v => (visible ctx).contains v.privacyScope

def Lineage.versions (l : Lineage) : List VersionSnapshot :=
  l.version :: (l.ancestors ++ l.descendants)

/-- A version that may not be shown is answered like one that does not exist. -/
def versionLineage (db : Database) (ctx : TenantContext) (versionId : Uuid) : Result Lineage := do
  let lineage ← lineage db ctx versionId
  if allVisible (visible ctx) (Lineage.versions lineage) then return lineage
  else notFound "fact version not found"

def versionProvenance (db : Database) (ctx : TenantContext) (versionId : Uuid) :
    Result ProvenanceOut := do
  let provenance ← provenance db ctx versionId
  if (visible ctx).contains provenance.version.privacyScope then
    let shown := provenance.evidence.filter fun row =>
      (visible ctx).contains row.2.1.privacyScope
    return ⟨provenance.version, provenance.source, shown,
      provenance.evidence.length - shown.length⟩
  else notFound "fact version not found"

inductive ReadCall where
  | listSources
  | getSource (sourceId : Uuid)
  | entityFacts (entityType externalId : String) (validAt knownAt : Option Datetime)
  | entityTimeline (entityType externalId : String) (knownAt : Option Datetime)
  | entityChanges (entityType externalId : String) (start finish : Datetime)
      (knownAt : Option Datetime)
  | factHistory (factId : Uuid) (knownAt : Option Datetime)
  | versionLineage (versionId : Uuid)
  | versionProvenance (versionId : Uuid)

inductive Response where
  | sources (sources : List FactSource)
  | facts (facts : EntityFacts)
  | timeline (timeline : EntityTimeline)
  | changes (changes : List FactChange)
  | history (versions : List VersionSnapshot)
  | lineage (lineage : Lineage)
  | provenance (provenance : ProvenanceOut)

variable (rt : Runtime) (db : Database) (ctx : TenantContext) (clock : Instant)

def respond : ReadCall → Result Response
  | .listSources => (listSources db ctx).map .sources
  | .getSource sourceId => (findSource db ctx sourceId).map fun source => .sources [source]
  | .entityFacts entityType externalId validAt knownAt =>
    (entityFacts rt db ctx entityType externalId validAt knownAt clock).map .facts
  | .entityTimeline entityType externalId knownAt =>
    (timeline rt db ctx entityType externalId knownAt).map .timeline
  | .entityChanges entityType externalId start finish knownAt =>
    (entityChanges rt db ctx entityType externalId start finish knownAt).map .changes
  | .factHistory factId knownAt => (factHistory db ctx factId knownAt).map .history
  | .versionLineage versionId => (versionLineage db ctx versionId).map .lineage
  | .versionProvenance versionId => (versionProvenance db ctx versionId).map .provenance

/-- The versions a response shows. -/
def Response.versions : Response → List VersionSnapshot
  | .sources _ => []
  | .facts r => r.facts.map ResolvedFact.version
  | .timeline r => r.entries.map TimelineEntry.version
  | .changes r => r.flatMap FactChange.versions
  | .history r => r
  | .lineage r => Lineage.versions r
  | .provenance r => [r.version]

/-- The evidence a response shows. -/
def Response.evidence : Response → List LinkedRow
  | .provenance r => r.evidence
  | _ => []

end ContextLedger.RestReads

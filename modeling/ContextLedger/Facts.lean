import ContextLedger.Contradictions
import Mathlib.Data.List.MinMax

/-!
Recording a fact version. The steps of the write path are separate functions:
validating the request, finding or creating the entity and the fact, planning
from the latest version under the lock of the fact row, taking the transaction
time, and writing. A serial call runs them one after the other; concurrent
callers interleave them.
-/
namespace ContextLedger.Facts

open Values Validation Authorization FactRules Schema Contradictions JsonText

/-- "Source S says entity E's property P has value V from `validFrom`". -/
structure RecordFactVersion where
  entityType : String
  externalId : String
  property : String
  value : Json
  sourceId : Uuid
  validFrom : Datetime
  validUntil : Option Datetime
  observedAt : Option Datetime
  authority : Option ℤ
  confidence : DecimalInput
  privacyScope : PrivacyScope
  evidenceIds : List Uuid

/-- A request that passed validation. -/
structure Draft where
  entityType : Identifier
  externalId : ExternalId
  property : Identifier
  value : FactValue
  sourceId : Uuid
  window : ValidityWindow
  validFrom : Datetime
  observedAt : Instant
  authority : Option ℤ
  confidence : Confidence
  privacyScope : PrivacyScope
  evidenceIds : List Uuid

def draft (rt : Runtime) (command : RecordFactVersion) : Result Draft := do
  let entityType ← normalizeIdentifier command.entityType "entity_type"
  let externalId ← normalizeExternalId rt command.externalId
  let property ← normalizeIdentifier command.property "property"
  let value ← validateFactValue command.value
  let window ← ValidityWindow.ofRequest command.validFrom command.validUntil
  let observedAt ← requireAware (command.observedAt.getD command.validFrom) "observed_at"
  let confidence ← normalizeConfidence command.confidence
  return { entityType, externalId, property, value, sourceId := command.sourceId, window,
           validFrom := command.validFrom, observedAt, authority := command.authority, confidence,
           privacyScope := command.privacyScope, evidenceIds := command.evidenceIds }

def notAMember : String := "not a member of this organization"

/-- The role of the caller, read from the membership stored now. -/
def requirePermission (db : Database) (ctx : TenantContext) (permission : Permission) :
    Result MembershipRole :=
  let user := db.users.find? fun u => u.id == ctx.userId
  let membership := db.memberships.find? fun m =>
    m.organizationId == ctx.organizationId && m.userId == ctx.userId
  match user, membership with
  | some user, some membership =>
    if !user.isActive then permissionDenied notAMember
    else if !hasPermission membership.role permission then
      permissionDenied ("role " ++ membership.role.text ++ " lacks permission " ++ permission.text)
    else if ctx.scopes.any fun scopes => !scopes.contains permission then
      permissionDenied ("token scope does not include " ++ permission.text)
    else .ok membership.role
  | _, _ => permissionDenied notAMember

def getSource (db : Database) (org id : Uuid) : Option FactSource :=
  db.sources.find? fun s => s.organizationId == org && s.id == id

def findEntity (db : Database) (org : Uuid) (entityType externalId : String) : Option Entity :=
  db.entities.find? fun e =>
    e.organizationId == org && e.entityType == entityType && e.externalId == externalId

def findFact (db : Database) (org entityId : Uuid) (property : String) : Option Fact :=
  db.facts.find? fun f => f.organizationId == org && f.entityId == entityId && f.property == property

def getFact (db : Database) (org id : Uuid) : Option Fact :=
  db.facts.find? fun f => f.organizationId == org && f.id == id

def getVersion (db : Database) (org id : Uuid) : Option FactVersion :=
  db.versions.find? fun v => v.organizationId == org && v.id == id

/-- The rows of one fact, in the order they were inserted. -/
def versionsOf (db : Database) (org factId : Uuid) : List FactVersion :=
  db.versions.filter fun v => v.organizationId == org && v.factId == factId

def latestVersion (db : Database) (org factId : Uuid) : Option FactVersion :=
  (versionsOf db org factId).argmax FactVersion.version

/-- Where a version will be written: its source, authority, entity and fact. The
entity and the fact are created by this write when no row with their key exists. -/
structure Place where
  source : FactSource
  authority : Authority
  entity : Entity
  newEntity : Bool
  fact : Fact
  newFact : Bool

/-- The constraints that the rows created for a place have to pass. -/
def Place.checks (place : Place) (db : Database) : List Check :=
  (if place.newEntity then entityChecks db.entities place.entity else []) ++
    if place.newFact then factChecks db.facts place.fact else []

/-- Get or create: a row is inserted only when its key is not taken. -/
def findPlace (db : Database) (org : Uuid) (d : Draft) (source : FactSource)
    (authority : Authority) (entityId factId : Uuid) : Place :=
  let found := findEntity db org d.entityType.1 d.externalId.1
  let entity := found.getD ⟨entityId, org, d.entityType.1, d.externalId.1⟩
  let foundFact := findFact db org entity.id d.property.1
  { source, authority, entity
    newEntity := found.isNone
    fact := foundFact.getD ⟨factId, org, entity.id, d.property.1⟩
    newFact := foundFact.isNone }

def locate (db : Database) (ctx : TenantContext) (d : Draft) (entityId factId : Uuid) :
    Result Place := do
  let _ ← requirePermission db ctx .writeFacts
  match getSource db ctx.organizationId d.sourceId with
  | none => notFound "source not found"
  | some source =>
    let authority ← validateAuthority (d.authority.getD source.defaultAuthority)
    let place := findPlace db ctx.organizationId d source authority entityId factId
    match firstBroken (place.checks db) with
    | some name => .error (.integrity name)
    | none => .ok place

/-- Planning reads the latest version while the fact row is locked. -/
def planVersion (latest : Option FactVersion) (d : Draft) : Result VersionPlan :=
  match latest with
  | none => planNewVersion none d.window
  | some v => do
    let window ← ValidityWindow.create v.validFrom v.validUntil
    planNewVersion (some ⟨v.version, window⟩) d.window

/-- The clock, but strictly after the latest version's transaction time. -/
def nextTransactionTime (latest : Option FactVersion) (clock : Instant) : Instant :=
  match latest with
  | none => clock
  | some v => if clock ≤ v.recordedAt then v.recordedAt + 1 else clock

/-- A version with a fixed end learns that end when it is recorded. -/
def newVersion (ctx : TenantContext) (d : Draft) (place : Place) (latest : Option FactVersion)
    (plan : VersionPlan) (recordedAt : Instant) (id : Uuid) (value : Jsonb.Value) : FactVersion where
  id := id
  organizationId := ctx.organizationId
  factId := place.fact.id
  version := plan.version
  value := value
  sourceId := place.source.id
  validFrom := d.window.validFrom
  validUntil := d.window.validUntil
  observedAt := d.observedAt
  recordedAt := recordedAt
  validUntilRecordedAt := d.window.validUntil.map fun _ => recordedAt
  supersedesId := latest.map FactVersion.id
  authority := place.authority.1
  confidence := d.confidence.1
  privacyScope := d.privacyScope

/-- The previous version as it was claimed, before this write closes it. -/
def ruleView (v : FactVersion) : VersionFacts :=
  ⟨v.id, v.sourceId, Jsonb.load v.value, ⟨v.validFrom, some 0⟩, v.validUntil, v.observedAt,
    v.authority, v.confidence⟩

/-- The contradiction between the previous version and the new one, if any. -/
def detectValueConflict (ctx : TenantContext) (entityId : Uuid) (previous : FactVersion) (d : Draft)
    (new : FactVersion) : Option Contradiction :=
  let left := ruleView previous
  let right : VersionFacts := { ruleView new with value := d.value.1, validFrom := d.validFrom }
  (valueConflict left right).map fun reason =>
    { organizationId := ctx.organizationId, entityId, leftVersionId := previous.id,
      rightVersionId := new.id, explanation := reason, preferredVersionId := preferred left right,
      privacyScope := widerScope previous.privacyScope new.privacyScope }

/-- `list(dict.fromkeys(ids))`: the first occurrence of each id. -/
def distinctIds (ids : List Uuid) : List Uuid :=
  (ids.foldl (fun seen id => if seen.contains id then seen else id :: seen) []).reverse

/-- The links that linking evidence to a version adds; `now` is the begin time of
the transaction. -/
def linkEvidence (db : Database) (ctx : TenantContext) (now : Instant) (versionId : Uuid)
    (evidenceIds : List Uuid) (relation : EvidenceRelation) : Result (List FactVersionEvidence) :=
  let ids := distinctIds evidenceIds
  let known (id : Uuid) := db.evidence.any fun e => e.organizationId == ctx.organizationId && e.id == id
  let existing (id : Uuid) := db.links.find? fun l =>
    l.organizationId == ctx.organizationId && l.factVersionId == versionId && l.evidenceId == id
  let missing := ids.filter fun id => !known id
  if ids = [] then .ok []
  else if (getVersion db ctx.organizationId versionId).isNone then
    notFound "fact version not found"
  else if missing ≠ [] then
    notFound ("evidence not found: " ++ String.intercalate ", " (missing.map uuidText))
  else
    match ids.findSome? fun id => (existing id).filter fun l => l.relation != relation with
    | some l =>
      conflict ("evidence " ++ uuidText l.evidenceId ++ " is already linked as " ++ l.relation.text)
    | none =>
      .ok ((ids.filter fun id => (existing id).isNone).map fun id =>
        ⟨ctx.organizationId, versionId, id, relation, now, some ctx.userId⟩)

/-- The rows one call writes: the entity and fact it creates, the end it sets,
the new version, a contradiction and the links to evidence. -/
structure VersionWrite where
  entity : Option Entity
  fact : Option Fact
  closing : Option (Uuid × Instant)
  version : FactVersion
  contradiction : Option Contradiction
  links : List FactVersionEvidence

namespace VersionWrite

/-- The database in which the new version is inserted. -/
def withPlace (write : VersionWrite) (db : Database) : Database :=
  let db := write.entity.elim db db.addEntity
  write.fact.elim db db.addFact

def withClose (write : VersionWrite) (db : Database) : Database :=
  write.closing.elim db fun c =>
    db.closeVersion write.version.organizationId c.1 c.2 write.version.recordedAt

def apply (write : VersionWrite) (db : Database) : Database :=
  let db := (write.withClose (write.withPlace db)).addVersion write.version
  { db with
    contradictions := db.contradictions ++ write.contradiction.toList
    links := db.links ++ write.links }

/-- The constraint that refuses the write, if any. -/
def rejectedBy (write : VersionWrite) (db : Database) : Option String :=
  let placed := write.withPlace db
  let closed := write.withClose placed
  firstBroken
    (write.closing.elim [] (fun c =>
        placed.closeChecks write.version.organizationId c.1 c.2 write.version.recordedAt) ++
      versionRowChecks write.version ++
      versionTableChecks closed.versions write.version ++
      versionReferenceChecks closed write.version)

end VersionWrite

/-- The write phase, after the transaction time is taken. `now` is the begin time
of the transaction, from which the links take their time. -/
def writeVersion (db : Database) (ctx : TenantContext) (d : Draft) (place : Place)
    (latest : Option FactVersion) (plan : VersionPlan) (recordedAt now : Instant) (id : Uuid) :
    Result VersionWrite :=
  match Jsonb.store d.value.1 with
  | none => .error .unstorableText
  | some value =>
    let version := newVersion ctx d place latest plan recordedAt id value
    let write : VersionWrite :=
      { entity := if place.newEntity then some place.entity else none
        fact := if place.newFact then some place.fact else none
        closing := latest.bind fun v => plan.closePreviousAt.map fun finish => (v.id, finish)
        version := version
        contradiction := latest.bind fun v => detectValueConflict ctx place.entity.id v d version
        links := [] }
    match write.rejectedBy db with
    | some name => .error (.integrity name)
    | none =>
      (linkEvidence (write.apply db) ctx now id d.evidenceIds .supports).map fun links =>
        { write with links }

/-- The identifiers one call may draw. -/
structure FreshIds where
  entity : Uuid
  fact : Uuid
  version : Uuid

/-- A call that runs alone, at one reading of the database clock. -/
def recordVersion (rt : Runtime) (ctx : TenantContext) (command : RecordFactVersion)
    (clock : Instant) (ids : FreshIds) (db : Database) : Result (FactVersion × Database) := do
  let d ← draft rt command
  let place ← locate db ctx d ids.entity ids.fact
  let latest := latestVersion db ctx.organizationId place.fact.id
  let plan ← planVersion latest d
  let recordedAt := nextTransactionTime latest clock
  let write ← writeVersion db ctx d place latest plan recordedAt clock ids.version
  return (write.version, write.apply db)

/-- One organization with an engineer and a source, before any fact is recorded. -/
def exampleDatabase : Database where
  users := [⟨2, true⟩]
  memberships := [⟨1, 2, .engineer⟩]
  sources := [⟨3, 1, "crm", .systemOfRecord, none, 50, 0⟩]
  entities := []
  facts := []
  versions := []
  revocations := []
  impacts := []
  evidence := []
  links := []
  contradictions := []
  snapshots := []
  snapshotFacts := []
  decisions := []
  decisionFacts := []

def exampleRuntime : Runtime := ⟨fun _ => true, id⟩

/-- A hash without collisions that gives these digests. -/
def digesting (digests : List (String × String)) : Equiv.Perm String :=
  digests.foldr (fun d rest => (Equiv.swap d.1 d.2).trans rest) (Equiv.refl String)

def exampleContext : TenantContext := ⟨1, 2, .engineer, none, none, none⟩

/-- The customer is active, or not, from `validFrom` on. -/
def exampleCommand (value : Bool) (validFrom : Instant) : RecordFactVersion where
  entityType := "customer"
  externalId := "c-1"
  property := "active"
  value := .bool value
  sourceId := 3
  validFrom := ⟨validFrom, some 0⟩
  validUntil := none
  observedAt := none
  authority := none
  confidence := .finite false 1
  privacyScope := .internal
  evidenceIds := []

end ContextLedger.Facts

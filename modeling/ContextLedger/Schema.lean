import ContextLedger.Authorization
import ContextLedger.FactRules
import ContextLedger.Jsonb

/-!
The tables of the database, each a list of rows in the order they were
inserted, and the constraints of the version tables. A constraint is checked
when a row is written, and the first one that a row breaks is reported by name.
-/
namespace ContextLedger.Schema

open Values Authorization Validation FactRules

structure User where
  id : Uuid
  isActive : Bool

structure OrganizationMembership where
  organizationId : Uuid
  userId : Uuid
  role : MembershipRole

structure FactSource where
  id : Uuid
  organizationId : Uuid
  name : String
  sourceType : SourceType
  uri : Option String
  defaultAuthority : ℤ
  createdAt : Instant

structure Entity where
  id : Uuid
  organizationId : Uuid
  entityType : String
  externalId : String

structure Fact where
  id : Uuid
  organizationId : Uuid
  entityId : Uuid
  property : String

/-- One value of a fact, with valid time and transaction time. -/
structure FactVersion where
  id : Uuid
  organizationId : Uuid
  factId : Uuid
  version : ℕ
  value : Jsonb.Value
  sourceId : Uuid
  validFrom : Instant
  validUntil : Option Instant
  observedAt : Instant
  recordedAt : Instant
  validUntilRecordedAt : Option Instant
  supersedesId : Option Uuid
  authority : ℤ
  confidence : ℤ
  privacyScope : PrivacyScope

structure FactRevocation where
  id : Uuid
  organizationId : Uuid
  factVersionId : Uuid
  reason : String
  revokedByUserId : Uuid
  agentClientId : Option Uuid
  revokedAt : Instant

/-- One decision whose frozen context contained the revoked version. -/
structure RevocationImpact where
  organizationId : Uuid
  revocationId : Uuid
  decisionId : Uuid
  snapshotId : Uuid
  factVersionId : Uuid
  reliedOn : Bool

inductive EvidenceRelation where
  | supports
  | contradicts
  deriving DecidableEq

def EvidenceRelation.text : EvidenceRelation → String
  | .supports => "SUPPORTS"
  | .contradicts => "CONTRADICTS"

inductive EvidenceType where
  | documentExcerpt
  | apiResponse
  | databaseRecord
  | humanStatement
  | agentOutput
  deriving DecidableEq

def EvidenceType.text : EvidenceType → String
  | .documentExcerpt => "DOCUMENT_EXCERPT"
  | .apiResponse => "API_RESPONSE"
  | .databaseRecord => "DATABASE_RECORD"
  | .humanStatement => "HUMAN_STATEMENT"
  | .agentOutput => "AGENT_OUTPUT"

structure Evidence where
  id : Uuid
  organizationId : Uuid
  sourceId : Uuid
  evidenceType : EvidenceType
  excerpt : String
  contentSha256 : String
  uri : Option String
  metadata : Jsonb.Value
  privacyScope : PrivacyScope
  capturedAt : Instant
  recordedAt : Instant

structure FactVersionEvidence where
  organizationId : Uuid
  factVersionId : Uuid
  evidenceId : Uuid
  relation : EvidenceRelation
  linkedAt : Instant
  linkedByUserId : Option Uuid

/-- A pair of versions of one fact that cannot both be right. -/
structure Contradiction where
  organizationId : Uuid
  entityId : Uuid
  leftVersionId : Uuid
  rightVersionId : Uuid
  explanation : String
  preferredVersionId : Uuid
  privacyScope : PrivacyScope

structure ContextSnapshot where
  id : Uuid
  organizationId : Uuid
  capturedByUserId : Uuid
  query : String
  validAt : Instant
  knownAt : Instant
  embeddingModel : String
  vectorSearch : String
  privacyScopes : List String
  parameters : Jsonb.Value

/-- Why a version ranked where it did, with scores as exact rationals. -/
structure Ranking where
  score : ℚ
  rrfScore : ℚ
  trust : ℚ
  vectorRank : Option ℕ
  vectorDistance : Option ℚ
  textRank : Option ℕ
  textScore : Option ℚ
  deriving DecidableEq

structure ContextSnapshotFact where
  organizationId : Uuid
  snapshotId : Uuid
  factVersionId : Uuid
  position : ℕ
  ranking : Ranking

structure Decision where
  id : Uuid
  organizationId : Uuid
  snapshotId : Uuid
  decidedByUserId : Uuid
  agent : Option String
  action : String
  outcome : Jsonb.Value
  rationale : Option String
  decidedAt : Instant
  receiptSha256 : String

structure DecisionFact where
  organizationId : Uuid
  decisionId : Uuid
  snapshotId : Uuid
  factVersionId : Uuid

structure Database where
  users : List User
  memberships : List OrganizationMembership
  sources : List FactSource
  entities : List Entity
  facts : List Fact
  versions : List FactVersion
  revocations : List FactRevocation
  impacts : List RevocationImpact
  evidence : List Evidence
  links : List FactVersionEvidence
  contradictions : List Contradiction
  snapshots : List ContextSnapshot
  snapshotFacts : List ContextSnapshotFact
  decisions : List Decision
  decisionFacts : List DecisionFact

/-- A constraint with the condition under which a row breaks it. -/
abbrev Check := String × Bool

/-- The name of the first broken constraint. -/
def firstBroken (checks : List Check) : Option String := (checks.find? fun c => c.2).map Prod.fst

theorem firstBroken_eq_none {checks : List Check} :
    firstBroken checks = none ↔ ∀ c ∈ checks, c.2 = false := by
  simp [firstBroken]

def entityChecks (entities : List Entity) (row : Entity) : List Check :=
  [("pk_entities", entities.any fun e => e.id == row.id),
   ("uq_entities_organization_id_entity_type_external_id", entities.any fun e =>
      e.organizationId == row.organizationId && e.entityType == row.entityType &&
        e.externalId == row.externalId),
   ("uq_entities_organization_id_id", entities.any fun e =>
      e.organizationId == row.organizationId && e.id == row.id),
   ("ck_entities_entity_type_format", !matchesIdentifier true row.entityType.toList),
   ("ck_entities_external_id_length",
      !(decide (1 ≤ row.externalId.length) && decide (row.externalId.length ≤ 256)))]

def factChecks (facts : List Fact) (row : Fact) : List Check :=
  [("pk_facts", facts.any fun f => f.id == row.id),
   ("uq_facts_organization_id_entity_id_property", facts.any fun f =>
      f.organizationId == row.organizationId && f.entityId == row.entityId &&
        f.property == row.property),
   ("uq_facts_organization_id_id", facts.any fun f =>
      f.organizationId == row.organizationId && f.id == row.id),
   ("ck_facts_property_format", !matchesIdentifier true row.property.toList)]

/-- Two half-open ranges share an instant; a missing upper bound is open-ended. -/
def rangesOverlap (a b : FactVersion) : Bool :=
  (b.validUntil.all fun u => decide (a.validFrom < u)) &&
    a.validUntil.all fun u => decide (b.validFrom < u)

/-- The CHECK constraints of a version row. -/
def versionRowChecks (row : FactVersion) : List Check :=
  [("ck_fact_versions_version_positive", !decide (1 ≤ row.version)),
   ("ck_fact_versions_lineage_consistent",
      decide (row.version = 1) != row.supersedesId.isNone),
   ("ck_fact_versions_valid_range_ordered",
      !row.validUntil.all fun u => decide (row.validFrom < u)),
   ("ck_fact_versions_valid_until_recorded_together",
      row.validUntil.isNone != row.validUntilRecordedAt.isNone),
   ("ck_fact_versions_authority_range",
      !(decide (0 ≤ row.authority) && decide (row.authority ≤ 100))),
   ("ck_fact_versions_confidence_range",
      !(decide (0 ≤ row.confidence) && decide (row.confidence ≤ 1000))),
   ("ck_fact_versions_value_not_null", row.value.isNull)]

/-- The UNIQUE and EXCLUDE constraints of a version row against the other rows. -/
def versionTableChecks (others : List FactVersion) (row : FactVersion) : List Check :=
  [("pk_fact_versions", others.any fun v => v.id == row.id),
   ("uq_fact_versions_fact_id_version", others.any fun v =>
      v.factId == row.factId && v.version == row.version),
   ("uq_fact_versions_fact_id_id", others.any fun v => v.factId == row.factId && v.id == row.id),
   ("uq_fact_versions_supersedes_id", others.any fun v =>
      row.supersedesId.isSome && v.supersedesId == row.supersedesId),
   ("ex_fact_versions_no_overlapping_validity", others.any fun v =>
      v.factId == row.factId && rangesOverlap v row)]

/-- The composite foreign keys of a version row. -/
def versionReferenceChecks (db : Database) (row : FactVersion) : List Check :=
  [("fk_fact_versions_organization_id_facts", !db.facts.any fun f =>
      f.organizationId == row.organizationId && f.id == row.factId),
   ("fk_fact_versions_organization_id_fact_sources", !db.sources.any fun s =>
      s.organizationId == row.organizationId && s.id == row.sourceId),
   ("fk_fact_versions_fact_id_fact_versions", row.supersedesId.any fun previous =>
      !db.versions.any fun v => v.factId == row.factId && v.id == previous)]

/-- The columns no update may change. -/
def sameClaim (new old : FactVersion) : Bool :=
  new.id == old.id && new.organizationId == old.organizationId && new.factId == old.factId &&
    new.version == old.version && Jsonb.sameValue new.value old.value && new.sourceId == old.sourceId &&
    new.validFrom == old.validFrom && new.observedAt == old.observedAt &&
    new.recordedAt == old.recordedAt && new.supersedesId == old.supersedesId &&
    new.authority == old.authority && new.confidence == old.confidence &&
    new.privacyScope == old.privacyScope

/-- `fact_versions_enforce_append_only`, before an update; `some` is the exception. -/
def enforceAppendOnly (old new : FactVersion) : Option String :=
  if !sameClaim new old then some "fact_versions is append-only: record a new version instead"
  else if old.validUntil.isSome && !(new.validUntil == old.validUntil &&
      new.validUntilRecordedAt == old.validUntilRecordedAt) then
    some "fact_versions: valid_until can only be set once"
  else none

/-- The trigger: only the end of an open version may change. -/
def appendOnlyChecks (old new : FactVersion) : List Check :=
  [("fact_versions_enforce_append_only", (enforceAppendOnly old new).isSome)]

/-- Setting the end of one row; the statement writes no other column. -/
def FactVersion.close (v : FactVersion) (validUntil recordedAt : Instant) : FactVersion :=
  { v with validUntil := some validUntil, validUntilRecordedAt := some recordedAt }

theorem sameClaim_iff {new old : FactVersion} : sameClaim new old = true ↔
    new.id = old.id ∧ new.organizationId = old.organizationId ∧ new.factId = old.factId ∧
      new.version = old.version ∧ Jsonb.sameValue new.value old.value = true ∧
      new.sourceId = old.sourceId ∧ new.validFrom = old.validFrom ∧
      new.observedAt = old.observedAt ∧ new.recordedAt = old.recordedAt ∧
      new.supersedesId = old.supersedesId ∧ new.authority = old.authority ∧
      new.confidence = old.confidence ∧ new.privacyScope = old.privacyScope := by
  simp only [sameClaim, Bool.and_eq_true, beq_iff_eq, and_assoc]

/-- Closing an open version is an update the trigger lets pass. -/
theorem enforceAppendOnly_close {v : FactVersion} (hopen : v.validUntil = none)
    (validUntil recordedAt : Instant) :
    enforceAppendOnly v (v.close validUntil recordedAt) = none := by
  have hclaim : sameClaim (v.close validUntil recordedAt) v = true :=
    sameClaim_iff.mpr ⟨rfl, rfl, rfl, rfl, Jsonb.sameValue_refl _, rfl, rfl, rfl, rfl, rfl, rfl, rfl, rfl⟩
  rw [enforceAppendOnly, hclaim, hopen]
  rfl

namespace Database

def addEntity (db : Database) (row : Entity) : Database :=
  { db with entities := db.entities ++ [row] }

def addFact (db : Database) (row : Fact) : Database := { db with facts := db.facts ++ [row] }

def addVersion (db : Database) (row : FactVersion) : Database :=
  { db with versions := db.versions ++ [row] }

def addRevocation (db : Database) (row : FactRevocation) : Database :=
  { db with revocations := db.revocations ++ [row] }

/-- `UPDATE fact_versions ... WHERE organization_id = org AND id = id AND valid_until IS NULL`. -/
def closeVersion (db : Database) (org id : Uuid) (validUntil recordedAt : Instant) : Database :=
  { db with versions := db.versions.map fun v =>
      if v.organizationId = org ∧ v.id = id ∧ v.validUntil = none then
        v.close validUntil recordedAt
      else v }

/-- The checks of that update, over every row it changes. -/
def closeChecks (db : Database) (org id : Uuid) (validUntil recordedAt : Instant) : List Check :=
  (db.versions.filter fun v =>
      v.organizationId == org && v.id == id && v.validUntil.isNone).flatMap fun old =>
    let new := old.close validUntil recordedAt
    appendOnlyChecks old new ++ versionRowChecks new ++
      versionTableChecks (db.versions.filter fun v => v.id != old.id) new

end Database

end ContextLedger.Schema

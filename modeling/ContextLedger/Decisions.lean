import ContextLedger.Retrieval

/-!
Context snapshots, decisions and receipts. A snapshot keeps the ranked result of
one retrieval with its instants pinned; a decision is sealed by the hash of a
canonical document over the decision, the snapshot and its facts; a receipt is
rebuilt from the rows, shown as known at the snapshot's knowledge time, and
hashed again. The session that recorded a decision still holds the outcome in
memory, any other one loads it.
-/
namespace ContextLedger.Decisions

open Numerals JsonText Values Validation Authorization Schema Facts Reference Retrieval

def receiptSchema : String := "contextledger.receipt.v1"

def maxRationaleChars : ℕ := 4000

def maxReliedOn : ℕ := 50

/-- Separators "," and ":", and no escapes outside ASCII. -/
def canonical : Style := ⟨false, false⟩

def canonicalJson (value : Json) : String := dumpsSorted canonical value

def valueSha256 (rt : Runtime) (value : Json) : String := rt.sha256 (canonicalJson value)

def normalizeAction (action : String) : Result Identifier := normalizeIdentifier action "action"

def normalizeRationale : Option String → Result (Option String)
  | none => .ok none
  | some rationale =>
    let cleaned := strip rationale
    if cleaned = "" then .ok none
    else if maxRationaleChars < cleaned.length then
      validationFailed ("rationale must be at most " ++ natText maxRationaleChars ++ " characters")
    else .ok (some cleaned)

def normalizeAgent : Option String → Result (Option String)
  | none => .ok none
  | some agent => (normalizeName agent "agent").map some

/-- An object in memory holds a key once. -/
abbrev Outcome := { v : Json // UniqueKeys v }

def validateOutcome (outcome : Outcome) : Result FactValue := validateFactValue outcome.1

/-- Relied-on facts are distinct and come from the decision's snapshot. -/
def validateReliedOn (reliedOn snapshotFacts : List Uuid) : Result (List Uuid) :=
  if ¬ reliedOn.Nodup then validationFailed "relied_on contains duplicate fact versions"
  else if maxReliedOn < reliedOn.length then
    validationFailed ("relied_on accepts at most " ++ natText maxReliedOn ++ " fact versions")
  else if reliedOn.any fun id => !snapshotFacts.contains id then
    validationFailed "relied_on may only cite fact versions from the decision's context snapshot"
  else .ok (reliedOn.insertionSort fun a b => a.toNat ≤ b.toNat)

/-- Everything the receipt hash covers; facts with their position and value hash. The
services fill it with timestamps of the database, which are in UTC. -/
structure ReceiptContent (τ : Type := Instant) where
  organizationId : Uuid
  decisionId : Uuid
  snapshotId : Uuid
  decidedAt : τ
  decidedByUserId : Uuid
  agent : Option String
  action : String
  outcome : Json
  rationale : Option String
  query : String
  validAt : τ
  knownAt : τ
  embeddingModel : String
  vectorSearch : String
  privacyScopes : List String
  facts : List (Uuid × ℤ × String)
  reliedOn : List Uuid

def textOrNull : Option String → Json
  | none => .null
  | some s => .str s

def factEntry (reliedOn : List Uuid) (fact : Uuid × ℤ × String) : Json :=
  .obj [("fact_version_id", .str (uuidText fact.1)), ("position", .int fact.2.1),
    ("value_sha256", .str fact.2.2), ("relied_on", .bool (reliedOn.contains fact.1))]

def decisionEntry (content : ReceiptContent) : List (String × Json) :=
  [("id", .str (uuidText content.decisionId)),
   ("decided_at", .str (isoformat content.decidedAt)),
   ("decided_by_user_id", .str (uuidText content.decidedByUserId)),
   ("agent", textOrNull content.agent),
   ("action", .str content.action),
   ("outcome", content.outcome),
   ("rationale", textOrNull content.rationale)]

def contextEntry (content : ReceiptContent) : List (String × Json) :=
  [("snapshot_id", .str (uuidText content.snapshotId)),
   ("query", .str content.query),
   ("valid_at", .str (isoformat content.validAt)),
   ("known_at", .str (isoformat content.knownAt)),
   ("embedding_model", .str content.embeddingModel),
   ("vector_search", .str content.vectorSearch),
   ("privacy_scopes", .arr ((content.privacyScopes.insertionSort (· ≤ ·)).map .str))]

def receiptDocument (content : ReceiptContent) : Json :=
  .obj [("schema", .str receiptSchema),
    ("organization_id", .str (uuidText content.organizationId)),
    ("decision", .obj (decisionEntry content)),
    ("context", .obj (contextEntry content)),
    ("facts", .arr ((content.facts.insertionSort fun a b => a.2.1 ≤ b.2.1).map
      (factEntry content.reliedOn)))]

/-- Midnight of 0001-01-01 and the last microsecond of 9999-12-31, in UTC. -/
def minInstant : Instant := -719162 * day

def maxInstant : Instant := 2932897 * day - 1

/-- The check and the conversion of `utc_iso`, whose text is then `isoformat`. -/
def toUtc (instant : Datetime) : Result Instant :=
  match instant.utcoffset with
  | none => validationFailed "timestamps in receipts must be timezone-aware"
  | some offset =>
    let utc := instant.wall - offset
    if minInstant ≤ utc ∧ utc ≤ maxInstant then .ok utc else .error .overflowError

def ReceiptContent.withTimes {τ σ : Type} (content : ReceiptContent τ)
    (decidedAt validAt knownAt : σ) : ReceiptContent σ where
  organizationId := content.organizationId
  decisionId := content.decisionId
  snapshotId := content.snapshotId
  decidedAt := decidedAt
  decidedByUserId := content.decidedByUserId
  agent := content.agent
  action := content.action
  outcome := content.outcome
  rationale := content.rationale
  query := content.query
  validAt := validAt
  knownAt := knownAt
  embeddingModel := content.embeddingModel
  vectorSearch := content.vectorSearch
  privacyScopes := content.privacyScopes
  facts := content.facts
  reliedOn := content.reliedOn

/-- The document of a content whose timestamps have any offset. -/
def zonedDocument (content : ReceiptContent Datetime) : Result Json := do
  let decidedAt ← toUtc content.decidedAt
  let validAt ← toUtc content.validAt
  let knownAt ← toUtc content.knownAt
  return receiptDocument (content.withTimes decidedAt validAt knownAt)

def receiptHash (rt : Runtime) (content : ReceiptContent) : String :=
  rt.sha256 (canonicalJson (receiptDocument content))

structure SnapshotFactRow where
  snapshotFact : ContextSnapshotFact
  version : FactVersion
  property : String
  entityType : String
  externalId : String
  sourceName : String

def getSnapshot (db : Database) (org id : Uuid) : Option ContextSnapshot :=
  db.snapshots.find? fun s => s.organizationId == org && s.id == id

def getDecision (db : Database) (org id : Uuid) : Option Decision :=
  db.decisions.find? fun d => d.organizationId == org && d.id == id

/-- One version with its fact, entity and source. -/
def versionRows (db : Database) (s : ContextSnapshotFact) (v : FactVersion) :
    List SnapshotFactRow :=
  (joinedTo db v).flatMap fun row =>
    (db.sources.filter fun source =>
      source.organizationId == v.organizationId && source.id == v.sourceId).map fun source =>
        ⟨s, v, row.1.property, row.2.entityType, row.2.externalId, source.name⟩

def snapshotRows (db : Database) (org snapshotId : Uuid) : List SnapshotFactRow :=
  ((db.snapshotFacts.filter fun s => s.organizationId == org && s.snapshotId == snapshotId).flatMap
    fun s => (db.versions.filter fun v =>
      v.organizationId == s.organizationId && v.id == s.factVersionId).flatMap (versionRows db s)
    ).insertionSort fun a b => a.snapshotFact.position ≤ b.snapshotFact.position

def reliedOn (db : Database) (org decisionId : Uuid) : List Uuid :=
  (db.decisionFacts.filter fun r => r.organizationId == org && r.decisionId == decisionId).map
    DecisionFact.factVersionId

/-- A dictionary filled in order: a repeated key keeps its place and takes the new value. -/
def dictOf {κ ν : Type} [DecidableEq κ] (entries : List (κ × ν)) : List (κ × ν) :=
  entries.foldl (fun dict e =>
    if dict.any fun old => old.1 = e.1 then dict.map fun old => if old.1 = e.1 then e else old
    else dict ++ [e]) []

/-- What the hash covers of the given rows; the outcome is the one the session holds. -/
def contentOf (rt : Runtime) (decision : Decision) (outcome : Json) (snapshot : ContextSnapshot)
    (rows : List SnapshotFactRow) (relied : List Uuid) : ReceiptContent where
  organizationId := decision.organizationId
  decisionId := decision.id
  snapshotId := snapshot.id
  decidedAt := decision.decidedAt
  decidedByUserId := decision.decidedByUserId
  agent := decision.agent
  action := decision.action
  outcome := outcome
  rationale := decision.rationale
  query := snapshot.query
  validAt := snapshot.validAt
  knownAt := snapshot.knownAt
  embeddingModel := snapshot.embeddingModel
  vectorSearch := snapshot.vectorSearch
  privacyScopes := snapshot.privacyScopes
  facts := dictOf (rows.map fun row =>
    (row.version.id, (row.snapshotFact.position : ℤ),
      valueSha256 rt (Jsonb.load row.version.value)))
  reliedOn := relied

structure ReceiptEvidence where
  evidenceId : Uuid
  relation : EvidenceRelation
  contentSha256 : String
  uri : Option String
  sourceName : String
  linkedAt : Instant

/-- One fact of a receipt; a redacted one keeps only its identity. -/
structure ReceiptFact where
  factVersionId : Uuid
  position : ℕ
  reliedOn : Bool
  redacted : Bool
  privacyScope : PrivacyScope
  entityType : Option String
  externalId : Option String
  property : Option String
  sourceName : Option String
  version : Option VersionSnapshot
  ranking : Option Ranking
  evidence : List ReceiptEvidence
  revokedAt : Option Instant

structure ReceiptContext where
  snapshotId : Uuid
  query : String
  validAt : Instant
  knownAt : Instant
  embeddingModel : String
  vectorSearch : String
  privacyScopes : List String
  parameters : Json
  capturedByUserId : Uuid

structure DecisionReceipt where
  decisionId : Uuid
  organizationId : Uuid
  action : String
  outcome : Json
  rationale : Option String
  agent : Option String
  decidedByUserId : Uuid
  decidedAt : Instant
  context : ReceiptContext
  facts : List ReceiptFact
  receiptSha256 : String
  integrityVerified : Bool

abbrev LinkedRow := FactVersionEvidence × Evidence × FactSource

/-- `ORDER BY linked_at, captured_at, evidence id`. -/
def LinkedLe (a b : LinkedRow) : Prop :=
  a.1.linkedAt < b.1.linkedAt ∨ (a.1.linkedAt = b.1.linkedAt ∧
    (a.2.1.capturedAt < b.2.1.capturedAt ∨ (a.2.1.capturedAt = b.2.1.capturedAt ∧
      a.2.1.id.toNat ≤ b.2.1.id.toNat)))

instance : DecidableRel LinkedLe := fun _ _ => inferInstanceAs (Decidable (_ ∨ (_ ∧ (_ ∨ (_ ∧ _)))))

/-- One link with its evidence and the source of that. -/
def linkRows (db : Database) (l : FactVersionEvidence) : List LinkedRow :=
  (db.evidence.filter fun e => e.organizationId == l.organizationId && e.id == l.evidenceId).flatMap
    fun e => (db.sources.filter fun s =>
      s.organizationId == e.organizationId && s.id == e.sourceId).map fun s => (l, e, s)

def evidenceForVersion (db : Database) (org versionId : Uuid) : List LinkedRow :=
  ((db.links.filter fun l =>
    l.organizationId == org && l.factVersionId == versionId).flatMap (linkRows db)).insertionSort
      LinkedLe

/-- Evidence linked by the knowledge time that the reader may see. -/
def receiptEvidence (db : Database) (org versionId : Uuid) (knownAt : Instant)
    (visible : List PrivacyScope) : List ReceiptEvidence :=
  ((evidenceForVersion db org versionId).filter fun row =>
    decide (row.1.linkedAt ≤ knownAt) && visible.contains row.2.1.privacyScope).map fun row =>
      ⟨row.2.1.id, row.1.relation, row.2.1.contentSha256, row.2.1.uri, row.2.2.name, row.1.linkedAt⟩

def revokedAtOf (db : Database) (org versionId : Uuid) : Option Instant :=
  (db.revocations.find? fun r => r.organizationId == org && r.factVersionId == versionId).map
    FactRevocation.revokedAt

def receiptFact (db : Database) (org : Uuid) (snapshot : ContextSnapshot) (relied : List Uuid)
    (visible : List PrivacyScope) (row : SnapshotFactRow) : ReceiptFact :=
  if visible.contains row.version.privacyScope then
    { factVersionId := row.version.id
      position := row.snapshotFact.position
      reliedOn := relied.contains row.version.id
      redacted := false
      privacyScope := row.version.privacyScope
      entityType := some row.entityType
      externalId := some row.externalId
      property := some row.property
      sourceName := some row.sourceName
      version := some (asKnown (some snapshot.knownAt) (toSnapshot row.version))
      ranking := some row.snapshotFact.ranking
      evidence := receiptEvidence db org row.version.id snapshot.knownAt visible
      revokedAt := revokedAtOf db org row.version.id }
  else
    { factVersionId := row.version.id
      position := row.snapshotFact.position
      reliedOn := relied.contains row.version.id
      redacted := true
      privacyScope := row.version.privacyScope
      entityType := none
      externalId := none
      property := none
      sourceName := none
      version := none
      ranking := none
      evidence := []
      revokedAt := none }

/-- Outcomes a session still holds in memory, by decision; a fresh one holds none. -/
abbrev Session := List (Uuid × Json)

def outcomeIn (session : Session) (decision : Decision) : Json :=
  (session.lookup decision.id).getD (Jsonb.load decision.outcome)

def receipt (rt : Runtime) (session : Session) (ctx : TenantContext) (decisionId : Uuid)
    (db : Database) : Result DecisionReceipt := do
  let role ← requirePermission db ctx .readDecisions
  let visible := visiblePrivacyScopes role [ctx.maxPrivacyScope]
  match getDecision db ctx.organizationId decisionId with
  | none => notFound "decision not found"
  | some decision =>
    match getSnapshot db ctx.organizationId decision.snapshotId with
    | none => notFound "context snapshot not found"
    | some snapshot =>
      let rows := snapshotRows db ctx.organizationId snapshot.id
      let relied := reliedOn db ctx.organizationId decision.id
      let outcome := outcomeIn session decision
      let recomputed := receiptHash rt (contentOf rt decision outcome snapshot rows relied)
      return { decisionId := decision.id
               organizationId := decision.organizationId
               action := decision.action
               outcome
               rationale := decision.rationale
               agent := decision.agent
               decidedByUserId := decision.decidedByUserId
               decidedAt := decision.decidedAt
               context :=
                 { snapshotId := snapshot.id
                   query := snapshot.query
                   validAt := snapshot.validAt
                   knownAt := snapshot.knownAt
                   embeddingModel := snapshot.embeddingModel
                   vectorSearch := snapshot.vectorSearch
                   privacyScopes := snapshot.privacyScopes
                   parameters := Jsonb.load snapshot.parameters
                   capturedByUserId := snapshot.capturedByUserId }
               facts := rows.map
                 (receiptFact db ctx.organizationId snapshot relied visible)
               receiptSha256 := decision.receiptSha256
               integrityVerified := recomputed == decision.receiptSha256 }

structure RecordDecision where
  snapshotId : Uuid
  action : String
  outcome : Outcome
  reliedOn : List Uuid
  rationale : Option String
  agent : Option String

/-- The rows a decision adds, sealed over the outcome in memory. -/
def sealedDecision (rt : Runtime) (ctx : TenantContext) (snapshot : ContextSnapshot)
    (rows : List SnapshotFactRow) (relied : List Uuid) (agent : Option String)
    (action : Identifier) (outcome : Json) (stored : Jsonb.Value) (rationale : Option String)
    (clock : Instant) (id : Uuid) : Decision :=
  let decision : Decision :=
    { id, organizationId := ctx.organizationId, snapshotId := snapshot.id
      decidedByUserId := ctx.userId, agent, action := action.1, outcome := stored, rationale
      decidedAt := clock, receiptSha256 := String.ofList (List.replicate 64 '0') }
  { decision with
    receiptSha256 := receiptHash rt (contentOf rt decision outcome snapshot rows relied) }

def Database.addDecision (db : Database) (decision : Decision) (relied : List Uuid) : Database :=
  { db with
    decisions := db.decisions ++ [decision]
    decisionFacts := db.decisionFacts ++ relied.map fun versionId =>
      ⟨decision.organizationId, decision.id, decision.snapshotId, versionId⟩ }

/-- The outcome of the whole call: a failure before the commit leaves no rows, and
after the commit the receipt is read in the session that still holds the outcome. -/
def recordDecision (rt : Runtime) (ctx : TenantContext) (command : RecordDecision)
    (clock : Instant) (id : Uuid) (db : Database) : Result (Database × Result DecisionReceipt) := do
  let action ← normalizeAction command.action
  let outcome ← validateOutcome command.outcome
  let rationale ← normalizeRationale command.rationale
  let agent ← normalizeAgent command.agent
  let _ ← requirePermission db ctx .recordDecisions
  match getSnapshot db ctx.organizationId command.snapshotId with
  | none => notFound "context snapshot not found"
  | some snapshot =>
    let rows := snapshotRows db ctx.organizationId snapshot.id
    let relied ← validateReliedOn command.reliedOn (rows.map fun row => row.version.id)
    match Jsonb.store outcome.1 with
    | none => .error .unstorableText
    | some stored =>
      if (rationale.any Jsonb.hasNul || agent.any Jsonb.hasNul) then .error .unstorableText
      else if db.decisions.any fun d => d.id == id then .error (.integrity "pk_decisions")
      else
        let decision := sealedDecision rt ctx snapshot rows relied agent action outcome.1 stored
          rationale clock id
        let committed := Database.addDecision db decision relied
        return (committed, receipt rt [(id, outcome.1)] ctx id committed)

/-- What the snapshot keeps of the request. -/
def parameters (request : RetrievalQuery) : Json :=
  .obj [("limit", .int request.limit),
    ("entity_type", textOrNull request.entityType),
    ("external_ids", .arr ((request.externalIds.insertionSort (· ≤ ·)).map .str)),
    ("properties", .arr ((request.properties.insertionSort (· ≤ ·)).map .str)),
    ("source_ids", .arr (((request.sourceIds.map uuidText).insertionSort (· ≤ ·)).map .str)),
    ("min_authority", request.minAuthority.elim .null .int),
    ("min_confidence", textOrNull (request.minConfidence.map DecimalArgument.text)),
    ("max_privacy_scope", textOrNull (request.maxPrivacyScope.map PrivacyScope.text)),
    ("trust_weight", .float request.trustWeight)]

structure CapturedContext where
  snapshotId : Uuid
  validAt : Instant
  knownAt : Instant
  retrieval : RetrievalResult

def snapshotFactRows (ctx : TenantContext) (snapshotId : Uuid) (results : List RetrievedFact) :
    List ContextSnapshotFact :=
  (results.zipIdx 1).map fun entry =>
    ⟨ctx.organizationId, snapshotId, entry.1.version.id, entry.2, entry.1.ranking.ranking⟩

/-- The constraints of the rows of a new snapshot. -/
def snapshotChecks (db : Database) (id : Uuid) (facts : List ContextSnapshotFact) : List Check :=
  [("pk_context_snapshots", db.snapshots.any fun s => s.id == id),
   ("pk_context_snapshot_facts",
      !decide (facts.map ContextSnapshotFact.factVersionId).Nodup),
   ("fk_context_snapshot_facts_organization_id_fact_versions", facts.any fun f =>
      !db.versions.any fun v => v.organizationId == f.organizationId && v.id == f.factVersionId)]

/-- Retrieve and freeze a context. `databaseNow` pins the knowledge time unless the
request does; `clock` is the service's own clock. -/
def captureContext (rt : Runtime) (ctx : TenantContext) (request : RetrievalQuery)
    (databaseNow clock : Instant) (index : SearchIndex) (id : Uuid) (db : Database) :
    Result (CapturedContext × Database) := do
  let _ ← requirePermission db ctx .recordDecisions
  let knownValue := request.knownAt.getD ⟨databaseNow, some 0⟩
  let knownAt ← requireAware knownValue "known_at"
  let validValue := request.validAt.getD knownValue
  let validAt ← requireAware validValue "valid_at"
  let pinned := { request with validAt := some validValue, knownAt := some knownValue }
  let retrieval ← search rt db ctx pinned clock index
  let _ ← requirePermission db ctx .recordDecisions
  match Jsonb.store (parameters pinned) with
  | none => .error .unstorableText
  | some stored =>
    let facts := snapshotFactRows ctx id retrieval.results
    match firstBroken (snapshotChecks db id facts) with
    | some name => .error (.integrity name)
    | none =>
      let snapshot : ContextSnapshot :=
        { id, organizationId := ctx.organizationId, capturedByUserId := ctx.userId
          query := retrieval.query, validAt, knownAt
          embeddingModel := retrieval.embeddingModel
          vectorSearch := vectorSearchText retrieval.vectorUsed
          privacyScopes := retrieval.privacyScopes.map PrivacyScope.text
          parameters := stored }
      let committed := { db with
        snapshots := db.snapshots ++ [snapshot]
        snapshotFacts := db.snapshotFacts ++ facts }
      return (⟨id, validAt, knownAt, retrieval⟩, committed)

/-- Link one piece of evidence to a version; whether a link was added. -/
def attach (ctx : TenantContext) (versionId evidenceId : Uuid) (relation : EvidenceRelation)
    (clock : Instant) (db : Database) : Result (Bool × Database) := do
  let _ ← requirePermission db ctx .writeFacts
  let links ← linkEvidence db ctx clock versionId [evidenceId] relation
  return (decide (0 < links.length), { db with links := db.links ++ links })

end ContextLedger.Decisions

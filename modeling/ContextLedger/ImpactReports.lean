import ContextLedger.Decisions
import ContextLedger.Revocations

/-!
Impact reports, and the calls around them cut at their statements. A report joins
the decisions whose frozen context held the revoked version with the impact rows
that the revocation stored; it is read in three statements. Capturing a context,
recording a decision and revoking are cut where other transactions can commit in
between, and the pieces put together again are the calls that run alone.
-/
namespace ContextLedger.ImpactReports

open Values Validation Authorization Schema Facts Reference Retrieval Decisions Revocations

def maxList : ℤ := 100

structure ImpactedDecision where
  decisionId : Uuid
  snapshotId : Uuid
  action : String
  agent : Option String
  decidedAt : Instant
  reliedOn : Bool
  recordedAtRevocation : Bool
  decidedAfterRevocation : Bool

structure RevocationReport where
  revocationId : Uuid
  factId : Uuid
  entityType : String
  externalId : String
  property : String
  version : VersionSnapshot
  reason : String
  revokedByUserId : Uuid
  revokedAt : Instant
  decisions : List ImpactedDecision
  decisionsReliedOn : ℕ
  decisionsWithVersionInContext : ℕ

abbrev Details := FactVersion × Fact × Entity

/-- The revoked version with its fact and entity, of which there must be one. -/
def detailsOf (db : Database) (org : Uuid) (revocation : FactRevocation) : Result Details :=
  match (db.versions.filter fun v =>
      v.organizationId == org && v.id == revocation.factVersionId).flatMap fun v =>
        (joinedTo db v).map fun row => (v, row.1, row.2) with
  | [row] => .ok row
  | _ => .error .notOneRow

def storedImpacts (db : Database) (org : Uuid) (revocation : FactRevocation) : List Uuid :=
  (db.impacts.filter fun row =>
    row.organizationId == org && row.revocationId == revocation.id).map RevocationImpact.decisionId

def impactedDecision (stored : List Uuid) (entry : Decision × Bool) : ImpactedDecision where
  decisionId := entry.1.id
  snapshotId := entry.1.snapshotId
  action := entry.1.action
  agent := entry.1.agent
  decidedAt := entry.1.decidedAt
  reliedOn := entry.2
  recordedAtRevocation := stored.contains entry.1.id
  decidedAfterRevocation := !stored.contains entry.1.id

def assemble (revocation : FactRevocation) (details : Details) (stored : List Uuid)
    (entries : List (Decision × Bool)) : RevocationReport :=
  let decisions := entries.map (impactedDecision stored)
  { revocationId := revocation.id
    factId := details.2.1.id
    entityType := details.2.2.entityType
    externalId := details.2.2.externalId
    property := details.2.1.property
    version := toSnapshot details.1
    reason := revocation.reason
    revokedByUserId := revocation.revokedByUserId
    revokedAt := revocation.revokedAt
    decisions
    decisionsReliedOn := decisions.countP ImpactedDecision.reliedOn
    decisionsWithVersionInContext := decisions.length }

/-- A report that is read while nothing else commits. -/
def reportOf (db : Database) (org : Uuid) (revocation : FactRevocation) :
    Result RevocationReport := do
  let details ← detailsOf db org revocation
  return assemble revocation details (storedImpacts db org revocation)
    (decisionsWith db org details.1.id)

/-- What a reader may ask for. -/
inductive Question where
  | impactOfFact (factId : Uuid)
  | impactOfVersion (versionId : Uuid)
  | listRevocations (limit : ℤ)

def Question.check : Question → Result Question
  | .listRevocations limit =>
    if 1 ≤ limit ∧ limit ≤ maxList then .ok (.listRevocations limit)
    else validationFailed "limit must be between 1 and 100"
  | question => .ok question

def readable (db : Database) (ctx : TenantContext) : Result (List PrivacyScope) := do
  let role ← requirePermission db ctx .readFacts
  let _ ← requirePermission db ctx .readDecisions
  return visiblePrivacyScopes role [ctx.maxPrivacyScope]

/-- Revocations of versions the reader may see, by a condition on the version. -/
def visibleRevocations (db : Database) (org : Uuid) (visible : List PrivacyScope)
    (asked : FactVersion → Bool) : List FactRevocation :=
  db.revocations.flatMap fun r =>
    (db.versions.filter fun v => v.organizationId == r.organizationId && v.id == r.factVersionId &&
      r.organizationId == org && visible.contains v.privacyScope && asked v).map fun _ => r

/-- `ORDER BY revoked_at DESC, id`. -/
def NewestFirst (a b : FactRevocation) : Prop :=
  b.revokedAt < a.revokedAt ∨ (b.revokedAt = a.revokedAt ∧ a.id.toNat ≤ b.id.toNat)

instance : DecidableRel NewestFirst := fun _ _ => inferInstanceAs (Decidable (_ ∨ (_ ∧ _)))

def findRevocations (db : Database) (ctx : TenantContext) (visible : List PrivacyScope) :
    Question → Result (List FactRevocation)
  | .impactOfFact factId =>
    match getFact db ctx.organizationId factId with
    | none => notFound "fact not found"
    | some _ => .ok ((visibleRevocations db ctx.organizationId visible fun v =>
        v.factId == factId).insertionSort fun a b => a.revokedAt ≤ b.revokedAt)
  | .impactOfVersion versionId =>
    match visibleRevocations db ctx.organizationId visible fun v => v.id == versionId with
    | [] => notFound "revocation not found"
    | revocation :: _ => .ok [revocation]
  | .listRevocations limit => .ok (((visibleRevocations db ctx.organizationId visible fun _ =>
      true).insertionSort NewestFirst).take limit.toNat)

/-- The impact rows of a revocation, over the decisions committed when it reads them. -/
def impactRows (db : Database) (revocation : FactRevocation) : List RevocationImpact :=
  (decisionsWith db revocation.organizationId revocation.factVersionId).map fun entry =>
    ⟨revocation.organizationId, revocation.id, entry.1.id, entry.1.snapshotId,
      revocation.factVersionId, entry.2⟩

/-- The revocation of a version that was chosen; its key must be new. -/
def insertRevocation (db : Database) (ctx : TenantContext) (request : RevokeRequest)
    (role : MembershipRole) (now : Instant) (id : Uuid) : Result FactRevocation := do
  let v ← chooseRevoked db ctx request role
  if db.revocations.any fun r => r.id == id then .error (.integrity "pk_fact_revocations")
  else return ⟨id, ctx.organizationId, v.id, request.reason, ctx.userId, ctx.agentClientId, now⟩

theorem writeRevocation_eq (db : Database) (ctx : TenantContext) (request : RevokeRequest)
    (role : MembershipRole) (now : Instant) (id : Uuid)
    (hfresh : ∀ r ∈ db.revocations, r.id ≠ id) :
    writeRevocation db ctx request role now id =
      (insertRevocation db ctx request role now id).map fun revocation =>
        ⟨revocation, impactRows db revocation⟩ := by
  have hnew : (db.revocations.any fun r => r.id == id) = false := by
    rw [List.any_eq_false]
    intro r hr
    simpa using hfresh r hr
  unfold writeRevocation insertRevocation
  cases chooseRevoked db ctx request role with
  | error failure => rfl
  | ok v =>
    simp only [bind, Except.bind, hnew]
    rfl

/-- The rows of a new snapshot. -/
structure SnapshotWrite where
  snapshot : ContextSnapshot
  facts : List ContextSnapshotFact

def SnapshotWrite.apply (write : SnapshotWrite) (db : Database) : Database :=
  { db with
    snapshots := db.snapshots ++ [write.snapshot]
    snapshotFacts := db.snapshotFacts ++ write.facts }

/-- The request with its instants pinned by the database clock. -/
def pin (db : Database) (ctx : TenantContext) (request : RetrievalQuery) (databaseNow : Instant) :
    Result (RetrievalQuery × Instant × Instant) := do
  let _ ← requirePermission db ctx .recordDecisions
  let knownValue := request.knownAt.getD ⟨databaseNow, some 0⟩
  let knownAt ← requireAware knownValue "known_at"
  let validValue := request.validAt.getD knownValue
  let validAt ← requireAware validValue "valid_at"
  return ({ request with validAt := some validValue, knownAt := some knownValue }, validAt, knownAt)

/-- The rows that freeze a retrieval. -/
def freeze (db : Database) (ctx : TenantContext) (pinned : RetrievalQuery)
    (validAt knownAt : Instant) (retrieval : RetrievalResult) (id : Uuid) :
    Result SnapshotWrite := do
  let _ ← requirePermission db ctx .recordDecisions
  match Jsonb.store (parameters pinned) with
  | none => .error .unstorableText
  | some stored =>
    let facts := snapshotFactRows ctx id retrieval.results
    match firstBroken (snapshotChecks db id facts) with
    | some name => .error (.integrity name)
    | none =>
      let snapshot : ContextSnapshot :=
        { id, organizationId := ctx.organizationId, capturedByUserId := ctx.userId
          query := retrieval.query, validAt, knownAt
          embeddingModel := retrieval.embeddingModel
          vectorSearch := vectorSearchText retrieval.vectorUsed
          privacyScopes := retrieval.privacyScopes.map PrivacyScope.text
          parameters := stored }
      return ⟨snapshot, facts⟩

theorem captureContext_eq (rt : Runtime) (ctx : TenantContext) (request : RetrievalQuery)
    (databaseNow clock : Instant) (index : SearchIndex) (id : Uuid) (db : Database) :
    captureContext rt ctx request databaseNow clock index id db = do
      let pinned ← pin db ctx request databaseNow
      let retrieval ← search rt db ctx pinned.1 clock index
      let write ← freeze db ctx pinned.1 pinned.2.1 pinned.2.2 retrieval id
      return (⟨id, pinned.2.1, pinned.2.2, retrieval⟩, write.apply db) := by
  unfold captureContext pin freeze
  cases requirePermission db ctx .recordDecisions with
  | error failure => rfl
  | ok role =>
    cases hknown : requireAware (request.knownAt.getD ⟨databaseNow, some 0⟩) "known_at" with
    | error failure => simp only [bind, Except.bind, hknown]
    | ok knownAt =>
      cases hvalid : requireAware (request.validAt.getD
          (request.knownAt.getD ⟨databaseNow, some 0⟩)) "valid_at" with
      | error failure => simp only [bind, Except.bind, hknown, hvalid]
      | ok validAt =>
        simp only [bind, Except.bind, hknown, hvalid, pure, Except.pure]
        cases search rt db ctx _ clock index with
        | error failure => rfl
        | ok retrieval =>
          simp only
          cases Jsonb.store _ with
          | none => rfl
          | some stored =>
            simp only
            cases firstBroken _ with
            | some name => rfl
            | none => rfl

/-- The rows of a new decision. -/
structure DecisionWrite where
  decision : Decision
  relied : List Uuid

def DecisionWrite.apply (write : DecisionWrite) (db : Database) : Database :=
  Database.addDecision db write.decision write.relied

/-- A decision's command once its texts are checked. -/
structure DecisionDraft where
  snapshotId : Uuid
  reliedOn : List Uuid
  action : Identifier
  outcome : FactValue
  rationale : Option String
  agent : Option String

def draftDecision (command : RecordDecision) : Result DecisionDraft := do
  let action ← normalizeAction command.action
  let outcome ← validateOutcome command.outcome
  let rationale ← normalizeRationale command.rationale
  let agent ← normalizeAgent command.agent
  return ⟨command.snapshotId, command.reliedOn, action, outcome, rationale, agent⟩

def loadSnapshot (db : Database) (ctx : TenantContext) (d : DecisionDraft) :
    Result ContextSnapshot :=
  match getSnapshot db ctx.organizationId d.snapshotId with
  | none => notFound "context snapshot not found"
  | some snapshot => .ok snapshot

/-- The facts of the snapshot, and which of them the decision relies on. -/
def loadRows (db : Database) (ctx : TenantContext) (d : DecisionDraft)
    (snapshot : ContextSnapshot) : Result (List SnapshotFactRow × List Uuid) := do
  let rows := snapshotRows db ctx.organizationId snapshot.id
  let relied ← validateReliedOn d.reliedOn (rows.map fun row => row.version.id)
  return (rows, relied)

def writeDecision (rt : Runtime) (db : Database) (ctx : TenantContext) (d : DecisionDraft)
    (snapshot : ContextSnapshot) (rows : List SnapshotFactRow) (relied : List Uuid)
    (decidedAt : Instant) (id : Uuid) : Result DecisionWrite :=
  match Jsonb.store d.outcome.1 with
  | none => .error .unstorableText
  | some stored =>
    if (d.rationale.any Jsonb.hasNul || d.agent.any Jsonb.hasNul) then .error .unstorableText
    else if db.decisions.any fun row => row.id == id then .error (.integrity "pk_decisions")
    else .ok ⟨sealedDecision rt ctx snapshot rows relied d.agent d.action d.outcome.1 stored
      d.rationale decidedAt id, relied⟩

theorem recordDecision_eq (rt : Runtime) (ctx : TenantContext) (command : RecordDecision)
    (clock : Instant) (id : Uuid) (db : Database) :
    recordDecision rt ctx command clock id db = do
      let d ← draftDecision command
      let _ ← requirePermission db ctx .recordDecisions
      let snapshot ← loadSnapshot db ctx d
      let loaded ← loadRows db ctx d snapshot
      let write ← writeDecision rt db ctx d snapshot loaded.1 loaded.2 clock id
      return (write.apply db, receipt rt [(id, d.outcome.1)] ctx id (write.apply db)) := by
  unfold recordDecision draftDecision
  cases normalizeAction command.action with
  | error failure => rfl
  | ok action =>
    cases validateOutcome command.outcome with
    | error failure => rfl
    | ok outcome =>
      cases normalizeRationale command.rationale with
      | error failure => rfl
      | ok rationale =>
        cases normalizeAgent command.agent with
        | error failure => rfl
        | ok agent =>
          cases requirePermission db ctx .recordDecisions with
          | error failure => simp only [bind, Except.bind, pure, Except.pure]
          | ok role =>
            simp only [bind, Except.bind, pure, Except.pure, loadSnapshot, loadRows, writeDecision]
            cases getSnapshot db ctx.organizationId command.snapshotId with
            | none => rfl
            | some snapshot =>
              simp only
              cases validateReliedOn command.reliedOn
                  ((snapshotRows db ctx.organizationId snapshot.id).map fun row =>
                    row.version.id) with
              | error failure => rfl
              | ok relied =>
                cases Jsonb.store outcome.1 with
                | none => rfl
                | some stored =>
                  simp only
                  split
                  · rfl
                  · split
                    · rfl
                    · rfl

end ContextLedger.ImpactReports

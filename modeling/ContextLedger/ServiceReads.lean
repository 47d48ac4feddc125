import ContextLedger.Decisions

/-!
The reading methods of the temporal and decision services: the history of a fact,
what changed for an entity, the lineage of a version, the timeline of an entity and
the decisions that relied on a version. Each checks the permission against the
current membership and sees the rows of the caller's organization. None of them
looks at privacy scopes.
-/
namespace ContextLedger.ServiceReads

open Values Validation Authorization Schema Facts Reference TemporalEngine Decisions

/-- `ORDER BY version`. -/
def listVersions (db : Database) (org factId : Uuid) : List FactVersion :=
  (versionsOf db org factId).insertionSort fun a b => a.version ≤ b.version

def history (db : Database) (ctx : TenantContext) (factId : Uuid) (knownAt : Option Datetime) :
    Result (List VersionSnapshot) := do
  let _ ← requirePermission db ctx .readFacts
  match getFact db ctx.organizationId factId with
  | none => notFound "fact not found"
  | some _ =>
    let known ← requireAwareOption knownAt "known_at"
    return historyAsKnown ((listVersions db ctx.organizationId factId).map toSnapshot) known

def requireEntity (rt : Runtime) (db : Database) (org : Uuid) (entityType externalId : String) :
    Result Entity := do
  let entityType ← normalizeIdentifier entityType "entity_type"
  let externalId ← normalizeExternalId rt externalId
  match findEntity db org entityType.1 externalId.1 with
  | none => notFound "entity not found"
  | some entity => .ok entity

/-- `ORDER BY property, version`. -/
def EntityRowLe (a b : FactVersion × String) : Prop :=
  a.2 < b.2 ∨ (a.2 = b.2 ∧ a.1.version ≤ b.1.version)

instance : DecidableRel EntityRowLe := fun _ _ => inferInstanceAs (Decidable (_ ∨ (_ ∧ _)))

def entityVersions (db : Database) (org entityId : Uuid) (knownAt : Option Instant) :
    List (FactVersion × String) :=
  ((entityRows db org entityId).filter fun row =>
    knownAt.all fun k => decide (row.1.recordedAt ≤ k)).insertionSort EntityRowLe

structure FactChange where
  factId : Uuid
  property : String
  change : Change

/-- The change of one of the facts in the rows, if there is one. -/
def factChange (rows : List (FactVersion × String)) (start finish : Instant)
    (known : Option Instant) (factId : Uuid) : Result (Option FactChange) := do
  let own := rows.filter fun row => row.1.factId == factId
  let change ← changeBetween (own.map fun row => toSnapshot row.1) start finish known
  return change.map fun change => ⟨factId, (own.getLast?.map Prod.snd).getD "", change⟩

def changesBetween (rt : Runtime) (db : Database) (ctx : TenantContext)
    (entityType externalId : String) (start finish : Datetime) (knownAt : Option Datetime) :
    Result (List FactChange) := do
  let start ← requireAware start "start"
  let finish ← requireAware finish "end"
  if finish ≤ start then validationFailed "end must be later than start"
  let known ← requireAwareOption knownAt "known_at"
  let _ ← requirePermission db ctx .readFacts
  let entity ← requireEntity rt db ctx.organizationId entityType externalId
  let rows := entityVersions db ctx.organizationId entity.id known
  let changes ← (rows.map fun row => row.1.factId).eraseDups.mapM
    (factChange rows start finish known)
  return (changes.filterMap id).insertionSort fun a b => a.property ≤ b.property

/-- A version with those of its fact before and after it, oldest first. -/
structure Lineage where
  version : VersionSnapshot
  ancestors : List VersionSnapshot
  descendants : List VersionSnapshot

def Lineage.supersededBy (lineage : Lineage) : Option VersionSnapshot := lineage.descendants.head?

def lineage (db : Database) (ctx : TenantContext) (versionId : Uuid) : Result Lineage := do
  let _ ← requirePermission db ctx .readFacts
  match getVersion db ctx.organizationId versionId with
  | none => notFound "fact version not found"
  | some target =>
    let chain := (listVersions db ctx.organizationId target.factId).map toSnapshot
    match chain.find? fun v => v.id == versionId with
    | none => .error .notOneRow
    | some current => return {
        version := current
        ancestors := chain.filter fun v => decide (v.version < current.version)
        descendants := chain.filter fun v => decide (current.version < v.version) }

structure TimelineEntry where
  property : String
  version : VersionSnapshot

def TimelineLe (a b : TimelineEntry) : Prop :=
  a.version.validFrom < b.version.validFrom ∨ (a.version.validFrom = b.version.validFrom ∧
    (a.property < b.property ∨ (a.property = b.property ∧ a.version.version ≤ b.version.version)))

instance : DecidableRel TimelineLe := fun _ _ =>
  inferInstanceAs (Decidable (_ ∨ (_ ∧ (_ ∨ (_ ∧ _)))))

def entityTimeline (rt : Runtime) (db : Database) (ctx : TenantContext)
    (entityType externalId : String) (knownAt : Option Datetime) :
    Result (List TimelineEntry) := do
  let known ← requireAwareOption knownAt "known_at"
  let _ ← requirePermission db ctx .readFacts
  let entity ← requireEntity rt db ctx.organizationId entityType externalId
  let entries : List TimelineEntry :=
    (entityVersions db ctx.organizationId entity.id known).map fun row =>
      ⟨row.2, asKnown known (toSnapshot row.1)⟩
  return entries.insertionSort TimelineLe

/-- `ORDER BY decided_at, id`. -/
def DecisionLe (a b : Decision) : Prop :=
  a.decidedAt < b.decidedAt ∨ (a.decidedAt = b.decidedAt ∧ a.id.toNat ≤ b.id.toNat)

instance : DecidableRel DecisionLe := fun _ _ => inferInstanceAs (Decidable (_ ∨ (_ ∧ _)))

/-- Ids of the decisions that relied on a version, oldest first. -/
def decisionsRelyingOn (db : Database) (ctx : TenantContext) (versionId : Uuid) :
    Result (List Uuid) := do
  let _ ← requirePermission db ctx .readDecisions
  let rows := (db.decisions.filter fun d => d.organizationId == ctx.organizationId).flatMap
    fun d => (db.decisionFacts.filter fun f => f.organizationId == d.organizationId &&
      f.decisionId == d.id && f.factVersionId == versionId).map fun _ => d
  return (rows.insertionSort DecisionLe).map Decision.id

/-- What a receipt that is given out is made of. -/
theorem receipt_eq_ok {rt : Runtime} {session : Session} {ctx : TenantContext} {decisionId : Uuid}
    {db : Database}
    {r : DecisionReceipt} (h : receipt rt session ctx decisionId db = .ok r) :
    ∃ role decision snapshot, requirePermission db ctx .readDecisions = .ok role ∧
      getDecision db ctx.organizationId decisionId = some decision ∧
      getSnapshot db ctx.organizationId decision.snapshotId = some snapshot ∧
      r.facts = (snapshotRows db ctx.organizationId snapshot.id).map
        (receiptFact db ctx.organizationId snapshot (reliedOn db ctx.organizationId decision.id)
          (visiblePrivacyScopes role [ctx.maxPrivacyScope])) := by
  unfold receipt at h
  obtain ⟨role, hrole, h⟩ := bind_eq_ok.mp h
  cases hdecision : getDecision db ctx.organizationId decisionId with
  | none => simp [hdecision, notFound] at h
  | some decision =>
    cases hsnapshot : getSnapshot db ctx.organizationId decision.snapshotId with
    | none => simp [hdecision, hsnapshot, notFound] at h
    | some snapshot =>
      simp only [hdecision, hsnapshot] at h
      obtain rfl := Except.ok.inj h
      exact ⟨role, decision, snapshot, hrole, rfl, hsnapshot, rfl⟩

/-- A decision of the organization whose snapshot is there has a receipt. -/
theorem receipt_of_found (rt : Runtime) (session : Session) {ctx : TenantContext}
    {decisionId : Uuid} {db : Database} {role : MembershipRole} {decision : Decision}
    {snapshot : ContextSnapshot} (hrole : requirePermission db ctx .readDecisions = .ok role)
    (hdecision : getDecision db ctx.organizationId decisionId = some decision)
    (hsnapshot : getSnapshot db ctx.organizationId decision.snapshotId = some snapshot) :
    ∃ r, receipt rt session ctx decisionId db = .ok r ∧
      r.facts = (snapshotRows db ctx.organizationId snapshot.id).map
        (receiptFact db ctx.organizationId snapshot (reliedOn db ctx.organizationId decision.id)
          (visiblePrivacyScopes role [ctx.maxPrivacyScope])) := by
  unfold receipt
  rw [hrole]
  simp only [bind, Except.bind, hdecision, hsnapshot]
  exact ⟨_, rfl, rfl⟩

end ContextLedger.ServiceReads

import ContextLedger.GraphWorld
import ContextLedger.ServiceReads
import ContextLedger.Tenancy

/-!
The reading tools an agent has over MCP. The server acts for one user with a
ceiling of its own: `tenant` gives the context of the user, without the ceiling,
and each tool applies the ceiling, or does not, to what its service returns. The
lineage of a decision is read from the provenance graph, one record for each set
of values before the collected evidence. The documents of the tools are kept as
the records they are made from.
-/
namespace ContextLedger.McpTools

open JsonText Values Validation Authorization Schema Facts Reference TemporalEngine Decisions
open ServiceReads MergeStore Projection Provenance GraphWorld
open Tenancy (resolve)

structure EvidenceRecord where
  id : Uuid
  relation : Option String
  sourceId : Option Uuid

/-- The columns a record is grouped by; what a node does not have is null. -/
structure LineageColumns where
  versionId : Uuid
  privacyScope : Option String
  property : Option String
  entityType : Option String
  externalId : Option String
  sourceId : Uuid
  sourceName : Option String
  deriving DecidableEq

structure LineageRecord where
  columns : LineageColumns
  evidence : List EvidenceRecord

def propsOf (g : Graph) (k : NodeKey) : Props Field Value := (lookup g.nodes k).getD bare

/-- The nodes of the given label that a node points to. -/
def targets (g : Graph) (type : RelationshipType) (label : Label) (org : Uuid) (k : NodeKey) :
    List NodeKey :=
  ((related g type).filter fun e => e.1 == k && isNode g label org e.2).map Prod.snd

/-- `(d)-[:RELIED_ON]->(v)`, `(v)-[:ASSERTED_BY]->(s)`, `(v)-[:VERSION_OF]->(f)-[:OF_ENTITY]->(e)` -/
def lineageMatches (g : Graph) (org decisionId : Uuid) :
    List (NodeKey × NodeKey × NodeKey × NodeKey) :=
  let d := nodeKey .decision decisionId
  if isNode g .decision org d then
    (targets g .reliedOn .factVersion org d).flatMap fun v =>
      (targets g .assertedBy .source org v).flatMap fun s =>
        (targets g .versionOf .fact org v).flatMap fun f =>
          (targets g .ofEntity .entity org f).map fun e => (v, s, f, e)
  else []

/-- Every id in the graph is the text of an identifier. -/
def columnsOf (g : Graph) : NodeKey × NodeKey × NodeKey × NodeKey → Option LineageColumns
  | (v, s, f, e) => do
    let versionId ← uuidOf v.2
    let sourceId ← uuidOf s.2
    return { versionId
             privacyScope := textOf (propsOf g v .privacyScope)
             property := textOf (propsOf g f .property)
             entityType := textOf (propsOf g e .entityType)
             externalId := textOf (propsOf g e .externalId)
             sourceId
             sourceName := textOf (propsOf g s .name) }

/-- `(x:Evidence {org: $org})-[l:EVIDENCE_FOR]->(v)`, with the first source of `x`. -/
def evidenceRecords (g : Graph) (org : Uuid) (v : NodeKey) : List EvidenceRecord :=
  g.relationships.filterMap fun l =>
    if l.key.1 = .evidenceFor ∧ l.key.2.2 = v ∧ isNode g .evidence org l.key.2.1 = true then
      (uuidOf l.key.2.1.2).map fun id =>
        ⟨id, textOf (l.props .relation),
          ((related g .fromSource).find? fun r => r.1 == l.key.2.1).bind fun r => uuidOf r.2.2⟩
    else none

/-- `GraphReader.decision_lineage`, in the order of the version ids. -/
def lineageRecords (g : Graph) (org decisionId : Uuid) : List LineageRecord :=
  let found := lineageMatches g org decisionId
  let groups := (found.filterMap (columnsOf g)).dedup
  let recordOf (columns : LineageColumns) : LineageRecord :=
    ⟨columns, (found.filter fun row => columnsOf g row == some columns).flatMap
      fun row => evidenceRecords g org row.1⟩
  (groups.map recordOf).insertionSort fun a b => uuidLe a.columns.versionId b.columns.versionId

structure LineageStep where
  factVersionId : Uuid
  privacyScope : String
  redacted : Bool
  entityType : Option String
  externalId : Option String
  property : Option String
  sourceId : Option Uuid
  sourceName : Option String
  evidence : List EvidenceRecord

structure DecisionLineage where
  decisionId : Uuid
  reliedOn : List LineageStep
  pendingEvents : ℕ

/-- `str(record["privacy_scope"])` -/
def LineageRecord.scope (record : LineageRecord) : String :=
  record.columns.privacyScope.getD "None"

def lineageStep (visible : List String) (record : LineageRecord) : LineageStep :=
  if visible.contains record.scope then
    { factVersionId := record.columns.versionId
      privacyScope := record.scope
      redacted := false
      entityType := record.columns.entityType
      externalId := record.columns.externalId
      property := record.columns.property
      sourceId := some record.columns.sourceId
      sourceName := record.columns.sourceName
      evidence := record.evidence.insertionSort fun a b => uuidLe a.id b.id }
  else
    { factVersionId := record.columns.versionId
      privacyScope := record.scope
      redacted := true
      entityType := none
      externalId := none
      property := none
      sourceId := none
      sourceName := none
      evidence := [] }

/-- What a call finds; a server may have no graph. -/
structure Stores where
  db : Database
  outbox : List OutboxEvent
  graph : Option Graph
  clock : Instant

def decisionLineage (s : Stores) (g : Graph) (ctx : TenantContext) (decisionId : Uuid) :
    Result DecisionLineage := do
  let role ← requirePermission s.db ctx .readDecisions
  let visible := (visiblePrivacyScopes role [ctx.maxPrivacyScope]).map PrivacyScope.text
  if «exists» g .decision ctx.organizationId decisionId then
    return { decisionId
             reliedOn := (lineageRecords g ctx.organizationId decisionId).map (lineageStep visible)
             pendingEvents := pending s.outbox ctx.organizationId }
  else notFound "Decision not found in the provenance graph"

structure McpIdentity where
  organizationId : Uuid
  userId : Uuid
  agentName : String
  maxPrivacyScope : PrivacyScope

def tenant (db : Database) (identity : McpIdentity) : Result TenantContext :=
  resolve db identity.organizationId identity.userId

def visible (identity : McpIdentity) (ctx : TenantContext) : List PrivacyScope :=
  visiblePrivacyScopes ctx.role [some identity.maxPrivacyScope, ctx.maxPrivacyScope]

inductive ToolCall where
  | getEntityFacts (entityType externalId : String) (validAt knownAt : Option Datetime)
  | getFactHistory (entityType externalId : String) (knownAt : Option Datetime)
  | getDecisionReceipt (decisionId : Uuid)
  | getDecisionLineage (decisionId : Uuid)

inductive Document where
  | entityFacts (entityType externalId : String) (facts : List ResolvedFact) (withheld : ℕ)
  | history (entries : List TimelineEntry)
  | receipt (receipt : DecisionReceipt)
  | lineage (lineage : DecisionLineage)

variable (rt : Runtime) (identity : McpIdentity) (s : Stores)

def getEntityFacts (entityType externalId : String) (validAt knownAt : Option Datetime) :
    Result Document := do
  let ctx ← tenant s.db identity
  let facts ← factsAt rt s.db ctx entityType externalId validAt knownAt s.clock
  let shown := facts.filter fun f => (visible identity ctx).contains f.version.privacyScope
  return .entityFacts entityType externalId shown (facts.length - shown.length)

def getFactHistory (entityType externalId : String) (knownAt : Option Datetime) :
    Result Document := do
  let ctx ← tenant s.db identity
  let timeline ← entityTimeline rt s.db ctx entityType externalId knownAt
  return .history (timeline.filter fun e =>
    (visible identity ctx).contains e.version.privacyScope)

/-- The receipt redacts by role; here the agent's own ceiling is applied. -/
def applyCeiling (visible : List PrivacyScope) (fact : ReceiptFact) : ReceiptFact :=
  if !fact.redacted && !visible.contains fact.privacyScope then
    { fact with
      redacted := true
      version := none
      entityType := none
      externalId := none
      property := none
      sourceName := none
      ranking := none
      evidence := [] }
  else fact

def getDecisionReceipt (decisionId : Uuid) : Result Document := do
  let ctx ← tenant s.db identity
  let r ← receipt rt [] ctx decisionId s.db
  return .receipt { r with facts := r.facts.map (applyCeiling (visible identity ctx)) }

def getDecisionLineage (g : Graph) (decisionId : Uuid) : Result Document := do
  let ctx ← tenant s.db identity
  let lineage ← decisionLineage s g ctx decisionId
  return .lineage lineage

def errorName : DomainError → String
  | .validationFailed _ => "ValidationFailedError"
  | .notFound _ => "NotFoundError"
  | .conflict _ => "ConflictError"
  | .permissionDenied _ => "PermissionDeniedError"
  | .invariantViolation _ => "InvariantViolationError"

def errorMessage : DomainError → String
  | .validationFailed message => message
  | .notFound message => message
  | .conflict message => message
  | .permissionDenied message => message
  | .invariantViolation message => message

/-- The text of the `ToolError` an agent gets. -/
def toolErrors {α : Type} : Result α → Except String α
  | .ok a => .ok a
  | .error (.domain error) => .error (errorName error ++ ": " ++ errorMessage error)
  | .error _ => .error "internal error; see the ContextLedger server logs"

def runTool : ToolCall → Except String Document
  | .getEntityFacts entityType externalId validAt knownAt =>
    toolErrors (getEntityFacts rt identity s entityType externalId validAt knownAt)
  | .getFactHistory entityType externalId knownAt =>
    toolErrors (getFactHistory rt identity s entityType externalId knownAt)
  | .getDecisionReceipt decisionId => toolErrors (getDecisionReceipt rt identity s decisionId)
  | .getDecisionLineage decisionId =>
    match s.graph with
    | none => .error "the provenance graph (Neo4j) is not configured for this server"
    | some g => toolErrors (getDecisionLineage identity s g decisionId)

end ContextLedger.McpTools

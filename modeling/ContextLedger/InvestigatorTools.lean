import ContextLedger.ServiceReads
import ContextLedger.RetrievalCache

/-!
The read-only tools of the investigator. They are built for one caller, and every
call goes to a service: the receipt of a decision, the lineage of a version, the
decisions that relied on it, and a search that may be answered from the shared
cache. The payload of a tool keeps the versions it renders as versions, so that a
reader of the model sees which values leave the system; `Payload.json` is what the
model of the agent is given.
-/
namespace ContextLedger.InvestigatorTools

open Numerals JsonText Values Validation Authorization Schema Facts Reference Retrieval MemoryStore
open RetrievalCache Decisions ServiceReads

def notAccessible : String := "not found or not accessible"

def maxValueChars : ℕ := 300

/-- A value whose text is long is cut to the start of its text. -/
def valueJson (value : Json) : Json :=
  let text := dumps defaultStyle value
  if text.length ≤ maxValueChars then value
  else .str (String.ofList (text.toList.take maxValueChars) ++ "...")

def instantOrNull (t : Option Instant) : Json := t.elim .null fun t => .str (isoformat t)

def versionJson (v : VersionSnapshot) : List (String × Json) :=
  [("fact_version_id", .str (uuidText v.id)),
   ("version", .int v.version),
   ("value", valueJson v.value),
   ("valid_from", .str (isoformat v.validFrom)),
   ("valid_until", instantOrNull v.validUntil),
   ("recorded_at", .str (isoformat v.recordedAt))]

/-- One fact of a payload: a version with what is said about it, or its identity alone. -/
inductive Shown where
  | version (v : VersionSnapshot) (more : List (String × Json))
  | redacted (id : Uuid)

namespace Shown

def json : Shown → Json
  | .version v more => .obj (versionJson v ++ more)
  | .redacted id => .obj [("fact_version_id", .str (uuidText id)), ("redacted", .bool true)]

def rendered : Shown → List VersionSnapshot
  | .version v _ => [v]
  | .redacted _ => []

end Shown

inductive Part where
  | plain (value : Json)
  | fact (shown : Shown)
  | facts (shown : List Shown)

namespace Part

def json : Part → Json
  | .plain value => value
  | .fact shown => shown.json
  | .facts shown => .arr (shown.map Shown.json)

def rendered : Part → List VersionSnapshot
  | .plain _ => []
  | .fact shown => shown.rendered
  | .facts shown => shown.flatMap Shown.rendered

end Part

abbrev Payload := List (String × Part)

def Payload.json (payload : Payload) : Json := .obj (payload.map fun p => (p.1, p.2.json))

/-- The versions whose values are in a payload. -/
def Payload.rendered (payload : Payload) : List VersionSnapshot :=
  payload.flatMap fun p => p.2.rendered

/-- What a tool hands over, and the ids it showed. -/
structure Answer where
  payload : Payload
  observed : List Uuid

structure SearchArgs where
  query : String
  validAt : Option Datetime
  limit : ℤ
  query_length : 1 ≤ query.length ∧ query.length ≤ 300
  limit_bounds : 1 ≤ limit ∧ limit ≤ 10

/-- A call with arguments that passed its schema. -/
inductive ToolCall where
  | getDecisionReceipt (decisionId : Uuid)
  | getFactLineage (factVersionId : Uuid)
  | findDecisionsRelyingOn (factVersionId : Uuid)
  | searchFacts (args : SearchArgs)

def ToolCall.name : ToolCall → String
  | .getDecisionReceipt _ => "get_decision_receipt"
  | .getFactLineage _ => "get_fact_lineage"
  | .findDecisionsRelyingOn _ => "find_decisions_relying_on"
  | .searchFacts _ => "search_facts"

/-- The double next to 0.3. -/
def defaultTrustWeight : FloatText.Binary64 :=
  ⟨false, 5404319552844595, -54, by norm_num, by norm_num, by norm_num, Or.inr (by norm_num)⟩

def SearchArgs.request (args : SearchArgs) : RetrievalQuery where
  query := args.query
  limit := args.limit
  validAt := args.validAt
  knownAt := none
  entityType := none
  externalIds := []
  properties := []
  sourceIds := []
  minAuthority := none
  minConfidence := none
  maxPrivacyScope := none
  trustWeight := .finite defaultTrustWeight

/-- The services behind the tools. -/
structure ServiceBackend where
  rt : Runtime
  index : SearchIndex
  cache : Option Cache

/-- What a call finds: the database, the shared store and the clocks, and whether
the store answers the two questions of a search. -/
structure Moment where
  db : Database
  store : Store
  now : ℚ
  clock : Instant
  generationAnswered : Bool
  lookupAnswered : Bool

variable (b : ServiceBackend) (ctx : TenantContext)

/-- What a search finds in the cache; no generation, no use of the cache. -/
def lookup (m : Moment) (cache : Cache) (role : MembershipRole) (n : ℕ) (p : Prepared) :
    Option RetrievalResult :=
  if m.lookupAnswered then
    cache.get m.store m.now (key b.rt ctx.organizationId n
      (visiblePrivacyScopes role [p.request.maxPrivacyScope, ctx.maxPrivacyScope])
      b.index.modelId p)
  else none

/-- A search alone, with the cache when there is one. What it files afterwards is a
matter of the stores that later calls find. -/
def search (m : Moment) (request : RetrievalQuery) : Result RetrievalResult := do
  let p ← prepare b.rt request m.clock
  let role ← requirePermission m.db ctx .readFacts
  match b.cache, m.generationAnswered with
  | some cache, true =>
    let n ← generation m.store m.now ctx.organizationId
    match lookup b ctx m cache role n p with
    | some result => return { result with cache := .hit }
    | none => compute m.db ctx p b.index .miss
  | _, _ => compute m.db ctx p b.index .off

def receiptShown (fact : ReceiptFact) : Shown :=
  match fact.redacted, fact.version with
  | false, some v => .version v
      [("relied_on", .bool fact.reliedOn),
       ("revoked_at", instantOrNull fact.revokedAt),
       ("entity", .str (fact.entityType.getD "None" ++ ":" ++ fact.externalId.getD "None")),
       ("property", textOrNull fact.property),
       ("source", textOrNull fact.sourceName)]
  | _, _ => .redacted fact.factVersionId

def getDecisionReceipt (m : Moment) (decisionId : Uuid) : Result Answer := do
  let receipt ← receipt b.rt [] ctx decisionId m.db
  return {
    payload :=
      [("decision_id", .plain (.str (uuidText receipt.decisionId))),
       ("action", .plain (.str receipt.action)),
       ("outcome", .plain (valueJson receipt.outcome)),
       ("rationale", .plain (textOrNull receipt.rationale)),
       ("agent", .plain (textOrNull receipt.agent)),
       ("decided_at", .plain (.str (isoformat receipt.decidedAt))),
       ("context_known_at", .plain (.str (isoformat receipt.context.knownAt))),
       ("context_valid_at", .plain (.str (isoformat receipt.context.validAt))),
       ("integrity_verified", .plain (.bool receipt.integrityVerified)),
       ("facts", .facts (receipt.facts.map receiptShown))]
    observed := receipt.decisionId :: receipt.facts.map ReceiptFact.factVersionId }

def lineagePayload (l : Lineage) : Payload :=
  [("version", .fact (.version l.version [])),
   ("superseded", .plain (.bool l.supersededBy.isSome)),
   ("later_versions", .facts (l.descendants.map fun v => .version v [])),
   ("earlier_versions", .facts (l.ancestors.map fun v => .version v []))]

def getFactLineage (m : Moment) (versionId : Uuid) : Result Answer := do
  let l ← lineage m.db ctx versionId
  return {
    payload := lineagePayload l
    observed := (l.version :: l.ancestors ++ l.descendants).map VersionSnapshot.id }

def findDecisionsRelyingOn (m : Moment) (versionId : Uuid) : Result Answer := do
  let ids ← decisionsRelyingOn m.db ctx versionId
  return {
    payload :=
      [("fact_version_id", .plain (.str (uuidText versionId))),
       ("decision_ids", .plain (.arr (ids.map fun id => .str (uuidText id))))]
    observed := ids }

def retrievedShown (item : RetrievedFact) : Shown :=
  .version item.version
    [("entity", .str (item.entityType ++ ":" ++ item.externalId)),
     ("property", .str item.property),
     ("source", .str item.sourceName)]

/-- The instant asked about keeps the offset it came with. -/
def searchAnswer (args : SearchArgs) (result : RetrievalResult) : Answer where
  payload :=
    [("valid_at", .plain (.str (args.validAt.elim (isoformat result.validAt) Datetime.isoformat))),
     ("facts", .facts (result.results.map retrievedShown))]
  observed := result.results.map fun item => item.version.id

def searchFacts (m : Moment) (args : SearchArgs) : Result Answer :=
  (search b ctx m args.request).map (searchAnswer args)

def runTool (m : Moment) : ToolCall → Result Answer
  | .getDecisionReceipt decisionId => getDecisionReceipt b ctx m decisionId
  | .getFactLineage versionId => getFactLineage ctx m versionId
  | .findDecisionsRelyingOn versionId => findDecisionsRelyingOn ctx m versionId
  | .searchFacts args => searchFacts b ctx m args

structure ToolRecord where
  tool : String
  ok : Bool
  error : Option String

/-- `observed` is a set: only membership counts. -/
structure ToolLedger where
  observed : List String
  records : List ToolRecord

inductive Reply where
  | answer (payload : Payload)
  | error (message : String)

namespace Reply

/-- The text the model of the agent reads. -/
def text : Reply → String
  | .answer payload => dumps defaultStyle payload.json
  | .error message => dumps defaultStyle (.obj [("error", .str message)])

def rendered : Reply → List VersionSnapshot
  | .answer payload => payload.rendered
  | .error _ => []

end Reply

def toolMessage : DomainError → String
  | .notFound _ => notAccessible
  | .permissionDenied _ => notAccessible
  | .validationFailed message => message
  | .conflict message => message
  | .invariantViolation message => message

/-- A domain error is told to the model, any other exception is not caught here. -/
def guarded (m : Moment) (call : ToolCall) (ledger : ToolLedger) : Result (Reply × ToolLedger) :=
  match runTool b ctx m call with
  | .ok answer => .ok (.answer answer.payload,
      { observed := ledger.observed ++ answer.observed.map uuidText
        records := ledger.records ++ [⟨call.name, true, none⟩] })
  | .error (.domain error) => .ok (.error (toolMessage error),
      { ledger with
        records := ledger.records ++ [⟨call.name, false, some (toolMessage error)⟩] })
  | .error failure => .error failure

/-- The replies to a sequence of calls, each with the moment it was given in. A call
that fails hands nothing over. -/
def replies : ToolLedger → List (Moment × ToolCall) → List (Moment × Reply)
  | _, [] => []
  | ledger, (m, call) :: rest =>
    match guarded b ctx m call ledger with
    | .ok (reply, ledger) => (m, reply) :: replies ledger rest
    | .error _ => replies ledger rest

end ContextLedger.InvestigatorTools

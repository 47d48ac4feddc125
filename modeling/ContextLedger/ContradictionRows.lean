import ContextLedger.Concurrent
import ContextLedger.Grounding
import ContextLedger.PythonText

/-!
The rows of contradictions: what closing one changes, what a reader is shown, and what
becomes of the findings of a model that reviewed the facts of an entity. A finding counts
when it names two supplied labels of two different facts.
-/
namespace ContextLedger.ContradictionRows

open Numerals JsonText Values Authorization Schema Facts Contradictions Reference TemporalEngine
open Grounding (subscript factLabel Raised)

inductive ContradictionStatus where
  | «open»
  | resolved
  | dismissed
  deriving DecidableEq

def ContradictionStatus.text : ContradictionStatus → String
  | .open => "open"
  | .resolved => "resolved"
  | .dismissed => "dismissed"

inductive ContradictionKind where
  | valueConflict
  | semantic
  deriving DecidableEq

structure ContradictionRow where
  id : Uuid
  organizationId : Uuid
  entityId : Uuid
  leftVersionId : Uuid
  rightVersionId : Uuid
  kind : ContradictionKind
  detector : String
  explanation : String
  preferredVersionId : Option Uuid
  privacyScope : PrivacyScope
  status : ContradictionStatus
  resolutionNote : Option String
  resolvedByUserId : Option Uuid
  resolvedAt : Option Instant
  detectedAt : Instant
  deriving DecidableEq

def ruleObservedValueConflict : String := "observed-value-conflict-v1"

/-- The row of a contradiction that recording found; `now` is the begin time of the
transaction. -/
def valueConflictRow (c : Contradiction) (id : Uuid) (now : Instant) : ContradictionRow where
  id := id
  organizationId := c.organizationId
  entityId := c.entityId
  leftVersionId := c.leftVersionId
  rightVersionId := c.rightVersionId
  kind := .valueConflict
  detector := ruleObservedValueConflict
  explanation := c.explanation
  preferredVersionId := some c.preferredVersionId
  privacyScope := c.privacyScope
  status := .open
  resolutionNote := none
  resolvedByUserId := none
  resolvedAt := none
  detectedAt := now

/-- `uq_contradictions_version_pair` -/
def ContradictionRow.pair (row : ContradictionRow) : Uuid × Uuid × Uuid :=
  (row.organizationId, row.leftVersionId, row.rightVersionId)

def maxNoteChars : ℕ := 2000

/-- A request to close a contradiction, with a note that its endpoint has measured. -/
structure Resolution where
  ctx : TenantContext
  contradictionId : Uuid
  status : ContradictionStatus
  note : Option String
  measured : ∀ text ∈ note, text.length ≤ maxNoteChars

def Resolution.close (request : Resolution) (row : ContradictionRow) (now : Instant) :
    ContradictionRow :=
  { row with
    status := request.status
    resolutionNote := request.note
    resolvedByUserId := some request.ctx.userId
    resolvedAt := some now }

def visibleTo (role : MembershipRole) (ctx : TenantContext) : List PrivacyScope :=
  visiblePrivacyScopes role [ctx.maxPrivacyScope]

/-- `_row` -/
def selectRow (rows : List ContradictionRow) (org id : Uuid) (visible : List PrivacyScope) :
    Option ContradictionRow :=
  rows.find? fun row =>
    row.organizationId == org && row.id == id && visible.contains row.privacyScope

structure ContradictionSide where
  factId : Uuid
  property : String
  sourceId : Uuid
  sourceName : String
  version : VersionSnapshot

structure ContradictionView where
  id : Uuid
  entityType : String
  externalId : String
  kind : ContradictionKind
  detector : String
  explanation : String
  status : ContradictionStatus
  preferredVersionId : Option Uuid
  privacyScope : PrivacyScope
  left : ContradictionSide
  right : ContradictionSide
  detectedAt : Instant
  resolvedAt : Option Instant
  resolvedByUserId : Option Uuid
  resolutionNote : Option String

/-- The one row of the join; every id is a primary key. -/
def side (db : Database) (org versionId : Uuid) : Option (ContradictionSide × Entity) := do
  let version ← getVersion db org versionId
  let fact ← getFact db org version.factId
  let entity ← db.entities.find? fun e => e.organizationId == org && e.id == fact.entityId
  let source ← getSource db org version.sourceId
  return (⟨fact.id, fact.property, source.id, source.name, toSnapshot version⟩, entity)

def ContradictionRow.shown (row : ContradictionRow) (entity : Entity)
    (left right : ContradictionSide) : ContradictionView where
  id := row.id
  entityType := entity.entityType
  externalId := entity.externalId
  kind := row.kind
  detector := row.detector
  explanation := row.explanation
  status := row.status
  preferredVersionId := row.preferredVersionId
  privacyScope := row.privacyScope
  left := left
  right := right
  detectedAt := row.detectedAt
  resolvedAt := row.resolvedAt
  resolvedByUserId := row.resolvedByUserId
  resolutionNote := row.resolutionNote

/-- The two sides are read one after the other, from `first` and from `second`. -/
def view (first second : Database) (row : ContradictionRow) : Option ContradictionView := do
  let (left, entity) ← side first row.organizationId row.leftVersionId
  let (right, _) ← side second row.organizationId row.rightVersionId
  return row.shown entity left right

def maxReviewFacts : ℕ := 50

def maxValueChars : ℕ := 300

def reviewPrompt : String := "contradiction-review-v1"

/-- The facts that a review supplies. -/
def reviewed (visible : List PrivacyScope) (facts : List ResolvedFact) : List ResolvedFact :=
  (facts.filter fun f => visible.contains f.version.privacyScope).take maxReviewFacts

/-- One line of the prompt: the value as JSON, cut off when it is long. -/
def renderLine (fact : ResolvedFact) (i : ℕ) : String :=
  let value := dumps ⟨true, true⟩ fact.version.value
  let shown := if maxValueChars < value.length then
    String.ofList (value.toList.take maxValueChars) ++ "..." else value
  "[" ++ factLabel i ++ "] " ++ fact.property ++ " = " ++ shown

def renderFacts (facts : List ResolvedFact) : String :=
  String.intercalate "\n" ((facts.zipIdx 1).map fun e => renderLine e.1 e.2)

structure Finding where
  left : String
  right : String
  explanation : String
  deriving DecidableEq

def parseFinding (rt : Runtime) (item : Json) : Except Raised Finding := do
  let left ← subscript item "left"
  let right ← subscript item "right"
  let explanation ← subscript item "explanation"
  return ⟨PythonText.str rt left, PythonText.str rt right, PythonText.str rt explanation⟩

/-- Everything that reading the answer of the model can raise is caught. -/
def parseFindings (rt : Runtime) (text : String) : Option (List Finding) := do
  let data ← (PythonText.loads text).toOption
  let findings ← (subscript data "findings").toOption
  let items ← PythonText.iterate findings
  (items.mapM (parseFinding rt)).toOption

/-- `labelled.get(label)` -/
def byLabel (facts : List ResolvedFact) (label : String) : Option ResolvedFact :=
  ((facts.zipIdx 1).find? fun e => factLabel e.2 == label).map Prod.fst

/-- Two facts that a finding says contradict each other. -/
structure Accepted where
  left : ResolvedFact
  right : ResolvedFact
  explanation : String

def accept (facts : List ResolvedFact) (finding : Finding) : Option Accepted :=
  match byLabel facts finding.left, byLabel facts finding.right with
  | some left, some right =>
    if left.factId = right.factId then none else some ⟨left, right, finding.explanation⟩
  | _, _ => none

def accepted (facts : List ResolvedFact) (findings : List Finding) : List Accepted :=
  findings.filterMap (accept facts)

def rejected (facts : List ResolvedFact) (findings : List Finding) : ℕ :=
  findings.countP fun finding => (accept facts finding).isNone

/-- `sorted((left, right), key=lambda f: str(f.version.id))` -/
def Accepted.ordered (a : Accepted) : ResolvedFact × ResolvedFact :=
  if uuidText a.right.version.id < uuidText a.left.version.id then (a.right, a.left)
  else (a.left, a.right)

def Accepted.pair (a : Accepted) (org : Uuid) : Uuid × Uuid × Uuid :=
  (org, a.ordered.1.version.id, a.ordered.2.version.id)

def maxExplanationChars : ℕ := 2000

/-- The row that an accepted finding adds. -/
def semanticRow (ctx : TenantContext) (a : Accepted) (id : Uuid) (now : Instant) :
    ContradictionRow where
  id := id
  organizationId := ctx.organizationId
  entityId := a.ordered.1.entityId
  leftVersionId := a.ordered.1.version.id
  rightVersionId := a.ordered.2.version.id
  kind := .semantic
  detector := "llm:" ++ reviewPrompt
  explanation := String.ofList (a.explanation.toList.take maxExplanationChars)
  preferredVersionId := none
  privacyScope := widerScope a.ordered.1.version.privacyScope a.ordered.2.version.privacyScope
  status := .open
  resolutionNote := none
  resolvedByUserId := none
  resolvedAt := none
  detectedAt := now

structure ReviewResult where
  entityType : String
  externalId : String
  factsReviewed : ℕ
  created : List ContradictionView
  alreadyKnown : ℕ
  rejectedFindings : ℕ
  promptVersion : String
  model : Option String

end ContextLedger.ContradictionRows

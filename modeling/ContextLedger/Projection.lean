import ContextLedger.Decisions
import ContextLedger.MergeStore

/-!
How rows of the database become nodes and relationships of the provenance graph.
Each of the ten projected tables has a statement, written as the clauses it runs
for every row in turn: a node is merged by label and id, a relationship by its
type and its two ends. A clause for the far end of a relationship assigns the
organization when it creates the node and nothing otherwise. The text of an
identifier in the graph stands for the identifier.
-/
namespace ContextLedger.Projection

open Values Schema MergeStore

inductive Label where
  | entity
  | fact
  | factVersion
  | source
  | evidence
  | snapshot
  | decision
  deriving DecidableEq

inductive RelationshipType where
  | ofEntity
  | versionOf
  | assertedBy
  | supersedes
  | fromSource
  | evidenceFor
  | included
  | basedOn
  | reliedOn
  deriving DecidableEq

/-- The properties of the graph and the parameters of the statements. -/
inductive Field where
  | id | org | entityType | externalId | property | name | sourceType | defaultAuthority
  | version | valueSha256 | validFrom | validUntil | recordedAt | validUntilRecordedAt
  | authority | confidence | privacyScope | evidenceType | contentSha256 | uri | capturedAt
  | relation | linkedAt | validAt | knownAt | capturedByUserId | position | action | agent
  | decidedAt | decidedByUserId | receiptSha256
  | entityId | factId | sourceId | supersedesId | factVersionId | evidenceId | snapshotId
  | decisionId
  deriving DecidableEq

inductive Value where
  | uuid (id : Uuid)
  | text (s : String)
  | integer (n : ℤ)
  | float (x : FloatText.Binary64)
  | datetime (t : Instant)
  deriving DecidableEq

inductive Table where
  | entities
  | facts
  | factSources
  | factVersions
  | evidence
  | factVersionEvidence
  | contextSnapshots
  | contextSnapshotFacts
  | decisions
  | decisionFacts
  deriving DecidableEq

inductive Row where
  | entity (row : Entity)
  | fact (row : Fact)
  | factSource (row : FactSource)
  | factVersion (row : FactVersion)
  | evidence (row : Evidence)
  | factVersionEvidence (row : FactVersionEvidence)
  | contextSnapshot (row : ContextSnapshot)
  | contextSnapshotFact (row : ContextSnapshotFact)
  | decision (row : Decision)
  | decisionFact (row : DecisionFact)

def Row.table : Row → Table
  | .entity _ => .entities
  | .fact _ => .facts
  | .factSource _ => .factSources
  | .factVersion _ => .factVersions
  | .evidence _ => .evidence
  | .factVersionEvidence _ => .factVersionEvidence
  | .contextSnapshot _ => .contextSnapshots
  | .contextSnapshotFact _ => .contextSnapshotFacts
  | .decision _ => .decisions
  | .decisionFact _ => .decisionFacts

/-- The primary key, its columns in the order of the outbox. -/
def Row.key : Row → List Uuid
  | .entity row => [row.id]
  | .fact row => [row.id]
  | .factSource row => [row.id]
  | .factVersion row => [row.id]
  | .evidence row => [row.id]
  | .factVersionEvidence row => [row.factVersionId, row.evidenceId]
  | .contextSnapshot row => [row.id]
  | .contextSnapshotFact row => [row.snapshotId, row.factVersionId]
  | .decision row => [row.id]
  | .decisionFact row => [row.decisionId, row.factVersionId]

def Row.org : Row → Uuid
  | .entity row => row.organizationId
  | .fact row => row.organizationId
  | .factSource row => row.organizationId
  | .factVersion row => row.organizationId
  | .evidence row => row.organizationId
  | .factVersionEvidence row => row.organizationId
  | .contextSnapshot row => row.organizationId
  | .contextSnapshotFact row => row.organizationId
  | .decision row => row.organizationId
  | .decisionFact row => row.organizationId

/-- The parameters of one row; a parameter that is not there reads as null. -/
abbrev GraphRow := List (Field × Option Value)

def GraphRow.get (r : GraphRow) (field : Field) : Option Value := (r.lookup field).join

def GraphRow.pick (r : GraphRow) (fields : List Field) : List (Field × Option Value) :=
  fields.map fun field => (field, r.get field)

/-- `float` of a decimal with three places. -/
def floatOf (thousandths : ℤ) : Option Value :=
  (FloatText.nearest (decide (thousandths < 0)) ((thousandths.natAbs : ℚ) / 1000)).map .float

def toGraphRow (rt : Runtime) : Row → GraphRow
  | .entity row =>
    [(.id, some (.uuid row.id)), (.org, some (.uuid row.organizationId)),
     (.entityType, some (.text row.entityType)), (.externalId, some (.text row.externalId))]
  | .fact row =>
    [(.id, some (.uuid row.id)), (.org, some (.uuid row.organizationId)),
     (.entityId, some (.uuid row.entityId)), (.property, some (.text row.property))]
  | .factSource row =>
    [(.id, some (.uuid row.id)), (.org, some (.uuid row.organizationId)),
     (.name, some (.text row.name)), (.sourceType, some (.text row.sourceType.text)),
     (.defaultAuthority, some (.integer row.defaultAuthority))]
  | .factVersion row =>
    [(.id, some (.uuid row.id)), (.org, some (.uuid row.organizationId)),
     (.factId, some (.uuid row.factId)), (.sourceId, some (.uuid row.sourceId)),
     (.supersedesId, row.supersedesId.map .uuid), (.version, some (.integer row.version)),
     (.valueSha256, some (.text (Decisions.valueSha256 rt (Jsonb.load row.value)))),
     (.validFrom, some (.datetime row.validFrom)), (.validUntil, row.validUntil.map .datetime),
     (.recordedAt, some (.datetime row.recordedAt)),
     (.validUntilRecordedAt, row.validUntilRecordedAt.map .datetime),
     (.authority, some (.integer row.authority)), (.confidence, floatOf row.confidence),
     (.privacyScope, some (.text row.privacyScope.text))]
  | .evidence row =>
    [(.id, some (.uuid row.id)), (.org, some (.uuid row.organizationId)),
     (.sourceId, some (.uuid row.sourceId)), (.evidenceType, some (.text row.evidenceType.text)),
     (.contentSha256, some (.text row.contentSha256)), (.uri, row.uri.map .text),
     (.privacyScope, some (.text row.privacyScope.text)),
     (.capturedAt, some (.datetime row.capturedAt))]
  | .factVersionEvidence row =>
    [(.org, some (.uuid row.organizationId)), (.factVersionId, some (.uuid row.factVersionId)),
     (.evidenceId, some (.uuid row.evidenceId)), (.relation, some (.text row.relation.text)),
     (.linkedAt, some (.datetime row.linkedAt))]
  | .contextSnapshot row =>
    [(.id, some (.uuid row.id)), (.org, some (.uuid row.organizationId)),
     (.validAt, some (.datetime row.validAt)), (.knownAt, some (.datetime row.knownAt)),
     (.capturedByUserId, some (.uuid row.capturedByUserId))]
  | .contextSnapshotFact row =>
    [(.org, some (.uuid row.organizationId)), (.snapshotId, some (.uuid row.snapshotId)),
     (.factVersionId, some (.uuid row.factVersionId)), (.position, some (.integer row.position))]
  | .decision row =>
    [(.id, some (.uuid row.id)), (.org, some (.uuid row.organizationId)),
     (.snapshotId, some (.uuid row.snapshotId)), (.action, some (.text row.action)),
     (.agent, row.agent.map .text), (.decidedAt, some (.datetime row.decidedAt)),
     (.decidedByUserId, some (.uuid row.decidedByUserId)),
     (.receiptSha256, some (.text row.receiptSha256))]
  | .decisionFact row =>
    [(.org, some (.uuid row.organizationId)), (.decisionId, some (.uuid row.decisionId)),
     (.factVersionId, some (.uuid row.factVersionId))]

/-- A node is found by its label and its id. -/
abbrev NodeKey := Label × Option Value

abbrev RelationshipKey := RelationshipType × NodeKey × NodeKey

/-- Merging a node or a relationship, with what is assigned on creation and always. -/
inductive Clause where
  | node (m : Merge NodeKey Field Value)
  | relationship (m : Merge RelationshipKey Field Value)

structure Graph where
  nodes : List (Entry NodeKey Field Value)
  relationships : List (Entry RelationshipKey Field Value)

def Graph.empty : Graph := ⟨[], []⟩

def Graph.execute (g : Graph) : Clause → Graph
  | .node m => { g with nodes := merge g.nodes m }
  | .relationship m => { g with relationships := merge g.relationships m }

/-- `MERGE (x:Label {id: r.id}) SET x.field = r.field, ...` -/
def own (label : Label) (fields : List Field) (r : GraphRow) : List Clause :=
  [.node ⟨(label, r.get .id), [], r.pick fields⟩]

/-- `MERGE (x:Label {id: r.idField}) ON CREATE SET x.org = r.org` -/
def farEnd (label : Label) (idField : Field) (r : GraphRow) : List Clause :=
  [.node ⟨(label, r.get idField), r.pick [.org], []⟩]

/-- `MERGE (x)-[l:TYPE]->(y) SET l.field = r.field, ...` -/
def link (type : RelationshipType) (source target : Label × Field) (fields : List Field)
    (r : GraphRow) : List Clause :=
  [.relationship
    ⟨(type, (source.1, r.get source.2), (target.1, r.get target.2)), [], r.pick fields⟩]

/-- `FOREACH (x IN CASE WHEN r.field IS NULL THEN [] ELSE [r.field] END | ...)` -/
def foreachGiven (field : Field) (body : List (GraphRow → List Clause)) (r : GraphRow) :
    List Clause :=
  if (r.get field).isNone then [] else body.flatMap fun clause => clause r

/-- The statement of each table: its clauses, each run for all rows before the next. -/
def cypher : Table → List (GraphRow → List Clause)
  | .entities => [own .entity [.org, .entityType, .externalId]]
  | .facts =>
    [own .fact [.org, .property],
     farEnd .entity .entityId,
     link .ofEntity (.fact, .id) (.entity, .entityId) []]
  | .factSources => [own .source [.org, .name, .sourceType, .defaultAuthority]]
  | .factVersions =>
    [own .factVersion [.org, .version, .valueSha256, .validFrom, .validUntil, .recordedAt,
       .validUntilRecordedAt, .authority, .confidence, .privacyScope],
     farEnd .fact .factId,
     link .versionOf (.factVersion, .id) (.fact, .factId) [],
     farEnd .source .sourceId,
     link .assertedBy (.factVersion, .id) (.source, .sourceId) [],
     foreachGiven .supersedesId
       [farEnd .factVersion .supersedesId,
        link .supersedes (.factVersion, .id) (.factVersion, .supersedesId) []]]
  | .evidence =>
    [own .evidence [.org, .evidenceType, .contentSha256, .uri, .privacyScope, .capturedAt],
     farEnd .source .sourceId,
     link .fromSource (.evidence, .id) (.source, .sourceId) []]
  | .factVersionEvidence =>
    [farEnd .evidence .evidenceId,
     farEnd .factVersion .factVersionId,
     link .evidenceFor (.evidence, .evidenceId) (.factVersion, .factVersionId)
       [.relation, .linkedAt]]
  | .contextSnapshots => [own .snapshot [.org, .validAt, .knownAt, .capturedByUserId]]
  | .contextSnapshotFacts =>
    [farEnd .snapshot .snapshotId,
     farEnd .factVersion .factVersionId,
     link .included (.snapshot, .snapshotId) (.factVersion, .factVersionId) [.position]]
  | .decisions =>
    [own .decision [.org, .action, .agent, .decidedAt, .decidedByUserId, .receiptSha256],
     farEnd .snapshot .snapshotId,
     link .basedOn (.decision, .id) (.snapshot, .snapshotId) []]
  | .decisionFacts =>
    [farEnd .decision .decisionId,
     farEnd .factVersion .factVersionId,
     link .reliedOn (.decision, .decisionId) (.factVersion, .factVersionId) []]

/-- Nodes before relationships. -/
def tableOrder : List Table :=
  [.entities, .factSources, .facts, .evidence, .factVersions, .factVersionEvidence,
   .contextSnapshots, .contextSnapshotFacts, .decisions, .decisionFacts]

/-- The rows of each table that one transaction of the graph writes. -/
abbrev Batch := Table → List GraphRow

/-- The loaded rows, grouped by table. -/
def batchOf (rt : Runtime) (rows : List Row) : Batch :=
  fun table => (rows.filter fun r => r.table = table).map (toGraphRow rt)

def runStatement (statement : List (GraphRow → List Clause)) (rows : List GraphRow) (g : Graph) :
    Graph :=
  statement.foldl (fun g clause => rows.foldl (fun g r => (clause r).foldl Graph.execute g) g) g

/-- `GraphWriter.apply` -/
def apply (rowsByTable : Batch) (g : Graph) : Graph :=
  tableOrder.foldl (fun g table => runStatement (cypher table) (rowsByTable table) g) g

def applyAll (batches : List Batch) (g : Graph) : Graph :=
  batches.foldl (fun g batch => apply batch g) g

/-- A node that only its id and its organization are known of. -/
def Placeholder (n : Entry NodeKey Field Value) : Prop :=
  ∀ field, field ≠ .org → n.props field = none

/-- The same nodes and the same relationships, in any order. -/
def Graph.Same (g g' : Graph) : Prop :=
  g.nodes.Perm g'.nodes ∧ g.relationships.Perm g'.relationships

/-- No node and no relationship is there twice. -/
def Graph.Unique (g : Graph) : Prop :=
  (g.nodes.map Entry.key).Nodup ∧ (g.relationships.map Entry.key).Nodup

end ContextLedger.Projection

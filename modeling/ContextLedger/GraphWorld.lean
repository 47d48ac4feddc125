import ContextLedger.Concurrent
import ContextLedger.DecisionWorld
import ContextLedger.Outbox
import ContextLedger.ProjectionOrder
import ContextLedger.Provenance

/-!
Writers, graph projectors and readers of the graph side by side. A trigger puts an
event into the outbox for each row of a projected table that a transaction
inserts or updates, and the events become visible with the rows. A projector
claims events, loads the current rows they refer to table by table, writes them
to the graph in one transaction, and deletes the events when it commits; it may
crash before or after any of these. A reader counts the pending events and then
puts its questions to the graph one after the other.
-/
namespace ContextLedger.GraphWorld

open Values Authorization Schema Facts Projection ProjectionOrder Provenance

/-- The rows of the ten projected tables. -/
def rowsOf (db : Database) : List Row :=
  db.entities.map .entity ++ db.facts.map .fact ++ db.sources.map .factSource ++
    db.versions.map .factVersion ++ db.evidence.map .evidence ++
    db.links.map .factVersionEvidence ++ db.snapshots.map .contextSnapshot ++
    db.snapshotFacts.map .contextSnapshotFact ++ db.decisions.map .decision ++
    db.decisionFacts.map .decisionFact

def primaryKeys (db : Database) : Bool :=
  decide ((rowsOf db).map fun r => (r.table, r.key)).Nodup

def foreignKeys (db : Database) : Bool :=
  (db.facts.all fun f => db.entities.any fun e =>
    e.organizationId == f.organizationId && e.id == f.entityId) &&
  (db.versions.all fun v =>
    (db.facts.any fun f => f.organizationId == v.organizationId && f.id == v.factId) &&
    (db.sources.any fun s => s.organizationId == v.organizationId && s.id == v.sourceId) &&
    v.supersedesId.all fun previous => db.versions.any fun u =>
      u.factId == v.factId && u.id == previous) &&
  (db.evidence.all fun x => db.sources.any fun s =>
    s.organizationId == x.organizationId && s.id == x.sourceId) &&
  (db.links.all fun l =>
    (db.versions.any fun v => v.organizationId == l.organizationId && v.id == l.factVersionId) &&
    db.evidence.any fun x => x.organizationId == l.organizationId && x.id == l.evidenceId) &&
  (db.snapshotFacts.all fun i =>
    (db.snapshots.any fun n => n.organizationId == i.organizationId && n.id == i.snapshotId) &&
    db.versions.any fun v => v.organizationId == i.organizationId && v.id == i.factVersionId) &&
  (db.decisions.all fun d => db.snapshots.any fun n =>
    n.organizationId == d.organizationId && n.id == d.snapshotId) &&
  db.decisionFacts.all fun f =>
    (db.decisions.any fun d => d.organizationId == f.organizationId && d.id == f.decisionId &&
      d.snapshotId == f.snapshotId) &&
    db.snapshotFacts.any fun i =>
      i.snapshotId == f.snapshotId && i.factVersionId == f.factVersionId

/-- The database lets a transaction commit only with its keys in order. -/
def intact (db : Database) : Bool := primaryKeys db && foreignKeys db

/-- Rows that `create_source`, `capture_evidence` and `attach` insert. -/
structure ProvenanceWrite where
  sources : List FactSource
  evidence : List Evidence
  links : List FactVersionEvidence

def ProvenanceWrite.apply (write : ProvenanceWrite) (db : Database) : Database :=
  { db with
    sources := db.sources ++ write.sources
    evidence := db.evidence ++ write.evidence
    links := db.links ++ write.links }

def ProvenanceWrite.rows (write : ProvenanceWrite) : List Row :=
  write.sources.map .factSource ++ write.evidence.map .evidence ++
    write.links.map .factVersionEvidence

/-- The version that the write closes, as it is after the update. -/
def closedRows (write : VersionWrite) (db : Database) : List Row :=
  write.closing.elim [] fun c =>
    (db.versions.filter fun v => v.organizationId = write.version.organizationId ∧ v.id = c.1 ∧
      v.validUntil = none).map fun v => .factVersion (v.close c.2 write.version.recordedAt)

/-- The rows that fire the trigger, as they are after the statement. -/
def versionRows (write : VersionWrite) (db : Database) : List Row :=
  write.entity.toList.map .entity ++ write.fact.toList.map .fact ++ closedRows write db ++
    [.factVersion write.version] ++ write.links.map .factVersionEvidence

def snapshotRows (write : ImpactReports.SnapshotWrite) : List Row :=
  .contextSnapshot write.snapshot :: write.facts.map .contextSnapshotFact

def decisionRows (write : ImpactReports.DecisionWrite) : List Row :=
  .decision write.decision :: write.relied.map fun versionId => .decisionFact
    ⟨write.decision.organizationId, write.decision.id, write.decision.snapshotId, versionId⟩

structure OutboxEvent where
  id : ℕ
  organizationId : Uuid
  table : Table
  rowKey : List Uuid
  deriving DecidableEq

/-- `contextledger_graph_outbox` -/
def trigger (row : Row) (id : ℕ) : OutboxEvent := ⟨id, row.org, row.table, row.key⟩

inductive Projector where
  | idle
  | loading (events : List OutboxEvent) (todo : List Table) (rows : List Row)
  | written (events : List OutboxEvent)

/-- The events whose rows the projector has locked. -/
def Projector.held : Projector → List OutboxEvent
  | .idle => []
  | .loading events _ _ => events
  | .written events => events

/-- Committed rows are kept from the moment the events are counted. -/
inductive ReadPhase where
  | begun
  | permitted
  | counted (pending : ℕ) (seen : Database)
  | found (pending : ℕ) (seen : Database)
  | traversed (pending : ℕ) (seen : Database) (decisions : List AffectedDecision)
  | answered (seen : Database) (report : ImpactReport)
  | failed (failure : Failure)

/-- One call of `impact_of_fact_version`. -/
structure ReadCall where
  ctx : TenantContext
  versionId : Uuid
  phase : ReadPhase

structure World where
  db : Database
  recorders : List Concurrent.Txn
  drawn : List Uuid
  deciders : List DecisionWorld.Txn
  clock : Instant
  outbox : List OutboxEvent
  issued : List ℕ
  projectors : List Projector
  graph : Graph
  reads : List ReadCall

/-- `ids` are the numbers that the outbox gave to the rows of the transaction. -/
inductive Action where
  | record (action : Concurrent.Action) (ids : List ℕ)
  | decide (action : DecisionWorld.Action) (ids : List ℕ)
  | register (write : ProvenanceWrite) (ids : List ℕ)
  | startProjector
  | claim (i batchSize : ℕ) (organizationId : Option Uuid)
  | load (i : ℕ)
  | write (i : ℕ)
  | finish (i : ℕ)
  | crash (i : ℕ)
  | beginRead (ctx : TenantContext) (versionId : Uuid)
  | read (i : ℕ)

structure Event where
  clock : Instant
  action : Action

def World.recording (w : World) : Concurrent.World := ⟨w.db, w.recorders, w.drawn, [], w.clock⟩

def World.deciding (w : World) : DecisionWorld.World := ⟨w.db, w.deciders, w.clock⟩

/-- The rows that a step of `record_version` commits. -/
def recordedRows (w : World) : Concurrent.Action → List Row
  | .commit i =>
    match w.recorders[i]? with
    | some (.record _ _ _ (.written write)) => versionRows write w.db
    | _ => []
  | _ => []

/-- The rows that a step of `capture` or `record_decision` commits. -/
def decidedRows (w : World) : DecisionWorld.Action → List Row
  | .commit i =>
    match w.deciders[i]? with
    | some (.capture _ (.written write)) => snapshotRows write
    | some (.decision _ _ (.written write)) => decisionRows write
    | _ => []
  | _ => []

/-- The rows and their events become visible together. -/
def World.publish (w : World) (db : Database) (rows : List Row) (ids : List ℕ) : Option World :=
  if intact db ∧ ids.length = rows.length ∧ ids.Nodup ∧ ∀ id ∈ ids, id ∉ w.issued then
    some { w with
      db := db
      outbox := w.outbox ++ List.zipWith trigger rows ids
      issued := ids ++ w.issued }
  else none

/-- The claims that other projectors hold. -/
def World.lockedByOthers (w : World) (i : ℕ) : List OutboxEvent :=
  (w.projectors.eraseIdx i).flatMap Projector.held

def eligible (organizationId : Option Uuid) (e : OutboxEvent) : Bool :=
  organizationId.all fun org => e.organizationId == org

/-- The current rows of one table that the events refer to. -/
def loadTable (db : Database) (events : List OutboxEvent) (table : Table) : List Row :=
  let keys := (events.filter fun e => e.table = table).map OutboxEvent.rowKey
  (rowsOf db).filter fun r => r.table = table ∧ r.key ∈ keys

def World.setProjector (w : World) (i : ℕ) (p : Projector) : World :=
  { w with projectors := w.projectors.set i p }

/-- One transaction of the graph writes all loaded rows. -/
def World.writeGraph (rt : Runtime) (w : World) (i : ℕ) (events : List OutboxEvent)
    (rows : List Row) : World :=
  { w with
    graph := apply (batchOf rt rows) w.graph
    projectors := w.projectors.set i (.written events) }

@[simp] theorem World.writeGraph_db (rt : Runtime) (w : World) (i : ℕ) (events : List OutboxEvent)
    (rows : List Row) : (w.writeGraph rt i events rows).db = w.db := by
  simp only [World.writeGraph]

/-- The claimed events are deleted and the claim ends. -/
def World.commitClaim (w : World) (i : ℕ) (events : List OutboxEvent) : World :=
  { w with
    outbox := Outbox.delete OutboxEvent.id w.outbox events
    projectors := w.projectors.set i .idle }

/-- The tables of the events, in the order in which the events first name them. -/
def tablesOf (events : List OutboxEvent) : List Table :=
  (events.map OutboxEvent.table).reverse.dedup.reverse

theorem table_mem_tablesOf {events : List OutboxEvent} {e : OutboxEvent} (he : e ∈ events) :
    e.table ∈ tablesOf events := by
  rw [tablesOf, List.mem_reverse, List.mem_dedup, List.mem_reverse]
  exact List.mem_map_of_mem he

theorem nodup_tablesOf (events : List OutboxEvent) : (tablesOf events).Nodup :=
  List.nodup_reverse.mpr (List.nodup_dedup _)

def stepProjector (rt : Runtime) (w : World) (i : ℕ) (p : Projector) : Action → Option World
  | .claim _ batchSize organizationId =>
    match p with
    | .idle =>
      let events := Outbox.claim OutboxEvent.id w.outbox (w.lockedByOthers i)
        (eligible organizationId) batchSize
      if events = [] then none
      else some (w.setProjector i (.loading events (tablesOf events) []))
    | _ => none
  | .load _ =>
    match p with
    | .loading events (table :: todo) rows =>
      some (w.setProjector i (.loading events todo (rows ++ loadTable w.db events table)))
    | _ => none
  | .write _ =>
    match p with
    | .loading events [] rows => some (w.writeGraph rt i events rows)
    | _ => none
  | .finish _ =>
    match p with
    | .written events => some (w.commitClaim i events)
    | _ => none
  | .crash _ => some (w.setProjector i .idle)
  | _ => none

def pending (outbox : List OutboxEvent) (org : Uuid) : ℕ :=
  (outbox.filter fun e => e.organizationId == org).length

def stepRead (w : World) (call : ReadCall) : Option ReadPhase :=
  let org := call.ctx.organizationId
  match call.phase with
  | .begun =>
    match requirePermission w.db call.ctx .readDecisions with
    | .ok _ => some .permitted
    | .error failure => some (.failed failure)
  | .permitted => some (.counted (pending w.outbox org) w.db)
  | .counted n seen =>
    if «exists» w.graph .factVersion org call.versionId then some (.found n seen)
    else some (.failed (.domain (.notFound "FactVersion not found in the provenance graph")))
  | .found n seen =>
    some (.traversed n seen (groupImpact (impactOfVersion w.graph org call.versionId)).2)
  | .traversed n seen decisions =>
    some (.answered seen ⟨call.versionId, [call.versionId], decisions,
      supersededBy w.graph org call.versionId, n⟩)
  | _ => none

/-- The projector that an action is about. -/
def Action.projector : Action → Option ℕ
  | .claim i _ _ => some i
  | .load i => some i
  | .write i => some i
  | .finish i => some i
  | .crash i => some i
  | _ => none

def step (rt : Runtime) (w : World) (e : Event) : Option World :=
  match e.action with
  | .record action ids =>
    (Concurrent.step rt w.recording ⟨e.clock, action⟩).bind fun r =>
      World.publish { w with recorders := r.txns, drawn := r.drawn, clock := e.clock } r.db
        (recordedRows w action) ids
  | .decide action ids =>
    (DecisionWorld.step rt w.deciding ⟨e.clock, action⟩).bind fun d =>
      World.publish { w with deciders := d.txns, clock := e.clock } d.db
        (decidedRows w action) ids
  | .register write ids => w.publish (write.apply w.db) write.rows ids
  | .startProjector => some { w with projectors := w.projectors ++ [.idle] }
  | .beginRead ctx versionId => some { w with reads := w.reads ++ [⟨ctx, versionId, .begun⟩] }
  | .read i =>
    match w.reads[i]? with
    | none => none
    | some call => (stepRead w call).map fun phase =>
        { w with reads := w.reads.set i { call with phase } }
  | action =>
    match action.projector.bind fun i => (w.projectors[i]?).map fun p => (i, p) with
    | none => none
    | some (i, p) => stepProjector rt w i p action

/-- Nothing has been written, and nobody is at work. -/
structure Start (w : World) : Prop where
  rows : rowsOf w.db = []
  recorders : w.recorders = []
  deciders : w.deciders = []
  outbox : w.outbox = []
  projectors : w.projectors = []
  graph : w.graph = Graph.empty
  reads : w.reads = []

def system (rt : Runtime) : Transition.System World Event := ⟨Start, step rt⟩

/-- One organization with an engineer, before anything is written. -/
def exampleStart : World where
  db := { exampleDatabase with sources := [] }
  recorders := []
  drawn := []
  deciders := []
  clock := 0
  outbox := []
  issued := []
  projectors := []
  graph := Graph.empty
  reads := []

theorem exampleStart_start : Start exampleStart := ⟨rfl, rfl, rfl, rfl, rfl, rfl, rfl⟩

/-- One recorder alone; the outbox numbers the rows of its commit. -/
def exampleRecording (i : ℕ) (value : Bool) (clock : Instant) (ids : FreshIds)
    (numbers : List ℕ) : List Event :=
  (Concurrent.exampleRecord i (exampleCommand value clock) clock ids).map fun e =>
    ⟨e.clock, .record e.action (match e.action with | .commit _ => numbers | _ => [])⟩

/-- A capture or a decision alone. -/
def exampleDeciding (events : List DecisionWorld.Event) (numbers : List ℕ) : List Event :=
  events.map fun e =>
    ⟨e.clock, .decide e.action (match e.action with | .commit _ => numbers | _ => [])⟩

end ContextLedger.GraphWorld

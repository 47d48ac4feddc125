import ContextLedger.ImpactReports
import ContextLedger.Transition

/-!
Captures, decisions, revocations and report readers side by side. Each statement
reads the rows committed so far and those of its own transaction, and a commit
makes all rows of a transaction visible at once. A revocation holds the lock of
its fact from the lock step on, and a row key that an open transaction has
inserted blocks others. Steps are taken at readings of the database clock.
-/
namespace ContextLedger.DecisionWorld

open Values Authorization Schema Facts Retrieval Decisions Revocations ImpactReports

/-- A report, with the organization it was read in and the rows visible to the
statement that listed its decisions. -/
structure Reading where
  org : Uuid
  db : Database
  report : RevocationReport

inductive CapturePhase where
  | begun (request : RetrievalQuery)
  | pinned (request : RetrievalQuery) (validAt knownAt : Instant)
  | retrieved (request : RetrievalQuery) (validAt knownAt : Instant) (retrieval : RetrievalResult)
  | written (write : SnapshotWrite)
  | committed

inductive DecisionPhase where
  | begun
  | permitted
  | loaded (snapshot : ContextSnapshot)
  | read (snapshot : ContextSnapshot) (rows : List SnapshotFactRow) (relied : List Uuid)
  | stamped (snapshot : ContextSnapshot) (rows : List SnapshotFactRow) (relied : List Uuid)
      (decidedAt : Instant)
  | written (write : DecisionWrite)
  | committed

/-- How far the three statements of a report have come. -/
inductive Progress where
  | asked
  | described (details : Details)
  | compared (details : Details) (stored : List Uuid)

/-- `seen` are the decisions that had committed when the impacts were read. -/
inductive RevokePhase where
  | begun
  | authorized (role : MembershipRole)
  | locked (role : MembershipRole)
  | inserted (revocation : FactRevocation)
  | reporting (write : RevokeWrite) (seen : List Decision) (progress : Progress)
  | reported (write : RevokeWrite) (seen : List Decision) (reading : Reading)
  | committed (write : RevokeWrite) (seen : List Decision) (reading : Reading)

inductive ReaderPhase where
  | begun
  | allowed (visible : List PrivacyScope)
  | reporting (current : FactRevocation) (progress : Progress) (pending : List FactRevocation)
  | finished

inductive Txn where
  | capture (ctx : TenantContext) (phase : CapturePhase)
  | decision (ctx : TenantContext) (d : DecisionDraft) (phase : DecisionPhase)
  | revoke (ctx : TenantContext) (now : Instant) (request : RevokeRequest) (phase : RevokePhase)
  | reader (ctx : TenantContext) (question : Question) (phase : ReaderPhase)
      (readings : List Reading)
  | rolledBack (failure : Option Failure)

/-- The reports that the call has read so far. -/
def Txn.readings : Txn → List Reading
  | .revoke _ _ _ (.reported _ _ reading) => [reading]
  | .revoke _ _ _ (.committed _ _ reading) => [reading]
  | .reader _ _ _ readings => readings
  | _ => []

/-- The keys that an open transaction has inserted. -/
inductive RowKey where
  | snapshot (id : Uuid)
  | decision (id : Uuid)
  | revocation (id : Uuid)
  deriving DecidableEq

def Txn.holds : Txn → Option RowKey
  | .capture _ (.written write) => some (.snapshot write.snapshot.id)
  | .decision _ _ (.written write) => some (.decision write.decision.id)
  | .revoke _ _ _ (.inserted revocation) => some (.revocation revocation.id)
  | .revoke _ _ _ (.reporting write _ _) => some (.revocation write.revocation.id)
  | .revoke _ _ _ (.reported write _ _) => some (.revocation write.revocation.id)
  | _ => none

/-- The fact whose row the transaction has locked. -/
def Txn.lockedFact : Txn → Option Uuid
  | .revoke _ _ request (.locked _) => some request.factId
  | .revoke _ _ request (.inserted _) => some request.factId
  | .revoke _ _ request (.reporting _ _ _) => some request.factId
  | .revoke _ _ request (.reported _ _ _) => some request.factId
  | _ => none

inductive Move where
  | permit
  | search (serviceClock : Instant) (index : SearchIndex)
  | load
  | rows
  | stamp
  | lock
  | insert (id : Uuid)
  | impacts
  | find
  | describe
  | compare
  | list
  | abort

/-- A step that raises rolls the transaction back. -/
def orRollBack {α : Type} (result : Result α) (next : α → Txn) : Txn :=
  match result with
  | .ok a => next a
  | .error failure => .rolledBack (some failure)

/-- The next of the revocations that a reader has found. -/
def reportNext : List FactRevocation → ReaderPhase
  | [] => .finished
  | current :: pending => .reporting current .asked pending

def stepCapture (rt : Runtime) (db : Database) (clock : Instant) (ctx : TenantContext) :
    CapturePhase → Move → Option Txn
  | .begun request, .permit =>
    some (orRollBack (pin db ctx request clock) fun pinned =>
      .capture ctx (.pinned pinned.1 pinned.2.1 pinned.2.2))
  | .pinned request validAt knownAt, .search serviceClock index =>
    some (orRollBack (search rt db ctx request serviceClock index) fun retrieval =>
      .capture ctx (.retrieved request validAt knownAt retrieval))
  | .retrieved request validAt knownAt retrieval, .insert id =>
    some (orRollBack (freeze db ctx request validAt knownAt retrieval id) fun write =>
      .capture ctx (.written write))
  | .committed, _ => none
  | _, .abort => some (.rolledBack none)
  | _, _ => none

def stepDecision (rt : Runtime) (db : Database) (clock : Instant) (ctx : TenantContext)
    (d : DecisionDraft) : DecisionPhase → Move → Option Txn
  | .begun, .permit =>
    some (orRollBack (requirePermission db ctx .recordDecisions) fun _ =>
      .decision ctx d .permitted)
  | .permitted, .load =>
    some (orRollBack (loadSnapshot db ctx d) fun snapshot => .decision ctx d (.loaded snapshot))
  | .loaded snapshot, .rows =>
    some (orRollBack (loadRows db ctx d snapshot) fun loaded =>
      .decision ctx d (.read snapshot loaded.1 loaded.2))
  | .read snapshot rows relied, .stamp =>
    some (.decision ctx d (.stamped snapshot rows relied clock))
  | .stamped snapshot rows relied decidedAt, .insert id =>
    some (orRollBack (writeDecision rt db ctx d snapshot rows relied decidedAt id) fun write =>
      .decision ctx d (.written write))
  | .committed, _ => none
  | _, .abort => some (.rolledBack none)
  | _, _ => none

def stepRevoke (db : Database) (ctx : TenantContext) (now : Instant) (request : RevokeRequest) :
    RevokePhase → Move → Option Txn
  | .begun, .permit =>
    some (orRollBack (authorizeRevoke db ctx request) fun role =>
      .revoke ctx now request (.authorized role))
  | .authorized role, .lock => some (.revoke ctx now request (.locked role))
  | .locked role, .insert id =>
    some (orRollBack (insertRevocation db ctx request role now id) fun revocation =>
      .revoke ctx now request (.inserted revocation))
  | .inserted revocation, .impacts =>
    some (.revoke ctx now request
      (.reporting ⟨revocation, impactRows db revocation⟩ db.decisions .asked))
  | .reporting write seen .asked, .describe =>
    some (orRollBack (detailsOf (write.apply db) ctx.organizationId write.revocation)
      fun details => .revoke ctx now request (.reporting write seen (.described details)))
  | .reporting write seen (.described details), .compare =>
    some (.revoke ctx now request (.reporting write seen
      (.compared details (storedImpacts (write.apply db) ctx.organizationId write.revocation))))
  | .reporting write seen (.compared details stored), .list =>
    let view := write.apply db
    some (.revoke ctx now request (.reported write seen ⟨ctx.organizationId, view,
      assemble write.revocation details stored
        (decisionsWith view ctx.organizationId details.1.id)⟩))
  | .committed _ _ _, _ => none
  | _, .abort => some (.rolledBack none)
  | _, _ => none

def stepReader (db : Database) (ctx : TenantContext) (question : Question)
    (readings : List Reading) : ReaderPhase → Move → Option Txn
  | .begun, .permit =>
    some (orRollBack (readable db ctx) fun visible =>
      .reader ctx question (.allowed visible) readings)
  | .allowed visible, .find =>
    some (orRollBack (findRevocations db ctx visible question) fun found =>
      .reader ctx question (reportNext found) readings)
  | .reporting current .asked pending, .describe =>
    some (orRollBack (detailsOf db ctx.organizationId current) fun details =>
      .reader ctx question (.reporting current (.described details) pending) readings)
  | .reporting current (.described details) pending, .compare =>
    some (.reader ctx question (.reporting current
      (.compared details (storedImpacts db ctx.organizationId current)) pending) readings)
  | .reporting current (.compared details stored) pending, .list =>
    some (.reader ctx question (reportNext pending) (readings ++ [⟨ctx.organizationId, db,
      assemble current details stored (decisionsWith db ctx.organizationId details.1.id)⟩]))
  | .finished, _ => none
  | _, .abort => some (.rolledBack none)
  | _, _ => none

def stepTxn (rt : Runtime) (db : Database) (clock : Instant) : Txn → Move → Option Txn
  | .capture ctx phase, m => stepCapture rt db clock ctx phase m
  | .decision ctx d phase, m => stepDecision rt db clock ctx d phase m
  | .revoke ctx now request phase, m => stepRevoke db ctx now request phase m
  | .reader ctx question phase readings, m => stepReader db ctx question readings phase m
  | .rolledBack _, _ => none

/-- What a commit makes visible. -/
def Txn.commit (db : Database) : Txn → Option (Txn × Database)
  | .capture ctx (.written write) => some (.capture ctx .committed, write.apply db)
  | .decision ctx d (.written write) => some (.decision ctx d .committed, write.apply db)
  | .revoke ctx now request (.reported write seen reading) =>
    some (.revoke ctx now request (.committed write seen reading), write.apply db)
  | _ => none

structure World where
  db : Database
  txns : List Txn
  clock : Instant

inductive Action where
  | beginCapture (ctx : TenantContext) (request : RetrievalQuery)
  | beginDecision (ctx : TenantContext) (command : RecordDecision)
  | beginRevoke (ctx : TenantContext) (factId : Uuid) (versionId : Option Uuid) (reason : String)
  | beginRead (ctx : TenantContext) (question : Question)
  | move (i : ℕ) (m : Move)
  | commit (i : ℕ)

structure Event where
  clock : Instant
  action : Action

def World.others (w : World) (i : ℕ) : List Txn := w.txns.eraseIdx i

/-- The key that a step inserts. -/
def insertedKey : Txn → Move → Option RowKey
  | .capture _ _, .insert id => some (.snapshot id)
  | .decision _ _ _, .insert id => some (.decision id)
  | .revoke _ _ _ _, .insert id => some (.revocation id)
  | _, _ => none

/-- Whether the step can go on now: no other open transaction holds the lock or
has inserted the key. -/
def World.ready (w : World) (i : ℕ) (t : Txn) (m : Move) : Bool :=
  ((insertedKey t m).all fun key => (w.others i).all fun other => other.holds != some key) &&
    match t, m with
    | .revoke _ _ request (.authorized _), .lock =>
      (w.others i).all fun other => other.lockedFact != some request.factId
    | _, _ => true

def begun (clock : Instant) : Action → Option Txn
  | .beginCapture ctx request => some (.capture ctx (.begun request))
  | .beginDecision ctx command =>
    some (orRollBack (draftDecision command) fun d => .decision ctx d .begun)
  | .beginRevoke ctx factId versionId reason =>
    some (orRollBack (revokeRequest factId versionId reason) fun request =>
      .revoke ctx clock request .begun)
  | .beginRead ctx question =>
    some (orRollBack question.check fun question => .reader ctx question .begun [])
  | _ => none

def step (rt : Runtime) (w : World) (e : Event) : Option World :=
  match e.action with
  | .move i m =>
    match w.txns[i]? with
    | none => none
    | some t =>
      if w.ready i t m then
        (stepTxn rt w.db e.clock t m).map fun t' =>
          { w with txns := w.txns.set i t', clock := e.clock }
      else none
  | .commit i =>
    match w.txns[i]? with
    | none => none
    | some t => (t.commit w.db).map fun done =>
        { db := done.2, txns := w.txns.set i done.1, clock := e.clock }
  | action => (begun e.clock action).map fun t =>
      { w with txns := w.txns ++ [t], clock := e.clock }

/-- Versions with their facts and entities, under the keys of their tables. -/
structure Keyed (db : Database) : Prop where
  entities : (db.entities.map Entity.id).Nodup
  facts : (db.facts.map Fact.id).Nodup
  versions : (db.versions.map FactVersion.id).Nodup
  entityOf : ∀ f ∈ db.facts, ∃ e ∈ db.entities,
    e.organizationId = f.organizationId ∧ e.id = f.entityId
  factOf : ∀ v ∈ db.versions, ∃ f ∈ db.facts,
    f.organizationId = v.organizationId ∧ f.id = v.factId

/-- Versions have been recorded; no context, decision or revocation has. -/
structure Start (w : World) : Prop where
  keyed : Keyed w.db
  snapshots : w.db.snapshots = []
  snapshotFacts : w.db.snapshotFacts = []
  decisions : w.db.decisions = []
  decisionFacts : w.db.decisionFacts = []
  revocations : w.db.revocations = []
  impacts : w.db.impacts = []
  txns : w.txns = []

def system (rt : Runtime) : Transition.System World Event := ⟨Start, step rt⟩

end ContextLedger.DecisionWorld

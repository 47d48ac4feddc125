import ContextLedger.Replay
import ContextLedger.Transition

/-!
Concurrent writers and readers. A transaction runs at READ COMMITTED: each step
reads the committed rows and its own, and its rows become visible when it
commits. Begin, get or create, lock, plan, clock reading, write and commit are
separate steps, each taken at some reading of the database clock, which need not
move forward. A lock on the fact row is held from the lock step to the end of
the transaction; a row key that an open transaction has inserted blocks others.
-/
namespace ContextLedger.Concurrent

open Values Authorization FactRules Schema Facts Reference TemporalEngine Revocations

inductive RecordPhase where
  | begun
  | located (place : Place)
  | locked (place : Place)
  | planned (place : Place) (latest : Option FactVersion) (plan : VersionPlan)
  | stamped (place : Place) (latest : Option FactVersion) (plan : VersionPlan)
      (recordedAt : Instant)
  | written (write : VersionWrite)

inductive RevokePhase where
  | begun
  | authorized (role : MembershipRole)
  | locked (role : MembershipRole)
  | written (write : RevokeWrite)

/-- A transaction; `now` is its begin time. It ends committed or rolled back. -/
inductive Txn where
  | record (ctx : TenantContext) (now : Instant) (d : Draft) (phase : RecordPhase)
  | revoke (ctx : TenantContext) (now : Instant) (request : RevokeRequest) (phase : RevokePhase)
  | committed
  | rolledBack (failure : Option Failure)

def RecordPhase.place : RecordPhase → Option Place
  | .located place => some place
  | .locked place => some place
  | .planned place _ _ => some place
  | .stamped place _ _ _ => some place
  | _ => none

/-- The fact whose row the transaction has locked. -/
def Txn.lockedFact : Txn → Option Uuid
  | .record _ _ _ (.locked place) => some place.fact.id
  | .record _ _ _ (.planned place _ _) => some place.fact.id
  | .record _ _ _ (.stamped place _ _ _) => some place.fact.id
  | .record _ _ _ (.written write) => some write.version.factId
  | .revoke _ _ request (.locked _) => some request.factId
  | .revoke _ _ request (.written _) => some request.factId
  | _ => none

/-- Whether the transaction has inserted a row with the key of this entity or fact. -/
def Txn.insertsKeyOf (t : Txn) (org : Uuid) (d : Draft) : Bool :=
  match t with
  | .record ctx _ d' phase =>
    ctx.organizationId == org && d'.entityType.1 == d.entityType.1 &&
      d'.externalId.1 == d.externalId.1 &&
      match phase with
      | .begun => false
      | .written write =>
        write.entity.isSome || (write.fact.isSome && d'.property.1 == d.property.1)
      | phase => phase.place.any fun place =>
        place.newEntity || (place.newFact && d'.property.1 == d.property.1)
  | _ => false

/-- The steps of an open transaction, with the identifiers they draw. -/
inductive Move where
  | locate (entityId factId : Uuid)
  | lock
  | plan
  | stamp
  | write (id : Uuid)
  | abort

def Move.ids : Move → List Uuid
  | .locate entityId factId => [entityId, factId]
  | .write id => [id]
  | _ => []

/-- A step that raises rolls the transaction back. -/
def orRollBack {α : Type} (result : Result α) (next : α → Txn) : Txn :=
  match result with
  | .ok a => next a
  | .error failure => .rolledBack (some failure)

def stepTxn (db : Database) (clock : Instant) : Txn → Move → Option Txn
  | .record ctx now d .begun, .locate entityId factId =>
    some (orRollBack (locate db ctx d entityId factId) fun place =>
      .record ctx now d (.located place))
  | .record ctx now d (.located place), .lock => some (.record ctx now d (.locked place))
  | .record ctx now d (.locked place), .plan =>
    let latest := latestVersion db ctx.organizationId place.fact.id
    some (orRollBack (planVersion latest d) fun plan =>
      .record ctx now d (.planned place latest plan))
  | .record ctx now d (.planned place latest plan), .stamp =>
    some (.record ctx now d (.stamped place latest plan (nextTransactionTime latest clock)))
  | .record ctx now d (.stamped place latest plan recordedAt), .write id =>
    some (orRollBack (writeVersion db ctx d place latest plan recordedAt now id) fun write =>
      .record ctx now d (.written write))
  | .revoke ctx now request .begun, .locate _ _ =>
    some (orRollBack (authorizeRevoke db ctx request) fun role =>
      .revoke ctx now request (.authorized role))
  | .revoke ctx now request (.authorized role), .lock =>
    some (.revoke ctx now request (.locked role))
  | .revoke ctx now request (.locked role), .write id =>
    some (orRollBack (writeRevocation db ctx request role now id) fun write =>
      .revoke ctx now request (.written write))
  | .record _ _ _ _, .abort => some (.rolledBack none)
  | .revoke _ _ _ _, .abort => some (.rolledBack none)
  | _, _ => none

/-- A question that was answered: what the engine showed for one fact. -/
structure Answer where
  org : Uuid
  entityId : Uuid
  factId : Uuid
  validAt : Instant
  knownAt : Instant
  shown : List VersionSnapshot

/-- Committed rows, transactions in the order they began, every identifier drawn
or named so far, the questions answered so far, and the last reading of the clock. -/
structure World where
  db : Database
  txns : List Txn
  drawn : List Uuid
  answers : List Answer
  clock : Instant

inductive Action where
  | beginRecord (ctx : TenantContext) (command : RecordFactVersion)
  | beginRevoke (ctx : TenantContext) (factId : Uuid) (versionId : Option Uuid) (reason : String)
  | move (i : ℕ) (m : Move)
  | commit (i : ℕ)
  | read (org entityId factId : Uuid) (validAt knownAt : Instant)

structure Event where
  clock : Instant
  action : Action

/-- The other transactions. -/
def World.others (w : World) (i : ℕ) : List Txn := w.txns.eraseIdx i

/-- The row lock of the fact this transaction works on is free. -/
def World.lockFree (w : World) (i : ℕ) (factId : Uuid) : Bool :=
  (w.others i).all fun t => t.lockedFact != some factId

/-- Whether the step can go on now: new identifiers are new, a lock is not held by
another transaction, and no other open transaction has inserted the same key. -/
def World.ready (w : World) (i : ℕ) (t : Txn) (m : Move) : Bool :=
  decide m.ids.Nodup && (m.ids.all fun id => !w.drawn.contains id) &&
    match t, m with
    | .record _ _ _ (.located place), .lock => w.lockFree i place.fact.id
    | .revoke _ _ request (.authorized _), .lock => w.lockFree i request.factId
    | .record ctx _ d .begun, .locate _ _ =>
      (w.others i).all fun other => !other.insertsKeyOf ctx.organizationId d
    | _, _ => true

/-- What a commit makes visible. -/
def Txn.commit (t : Txn) (db : Database) : Option Database :=
  match t with
  | .record _ _ _ (.written write) => some (write.apply db)
  | .revoke _ _ _ (.written write) => some (write.apply db)
  | _ => none

def step (rt : Runtime) (w : World) (e : Event) : Option World :=
  match e.action with
  | .beginRecord ctx command =>
    let t := orRollBack (draft rt command) fun d => .record ctx e.clock d .begun
    some { w with txns := w.txns ++ [t], clock := e.clock }
  | .beginRevoke ctx factId versionId reason =>
    let t := orRollBack (revokeRequest factId versionId reason) fun request =>
      .revoke ctx e.clock request .begun
    some { w with txns := w.txns ++ [t], drawn := versionId.toList ++ w.drawn, clock := e.clock }
  | .move i m =>
    match w.txns[i]? with
    | none => none
    | some t =>
      if w.ready i t m then
        (stepTxn w.db e.clock t m).map fun t' =>
          { w with txns := w.txns.set i t', drawn := m.ids ++ w.drawn, clock := e.clock }
      else none
  | .commit i =>
    match w.txns[i]? with
    | none => none
    | some t =>
      (t.commit w.db).map fun db =>
        { w with db, txns := w.txns.set i .committed, clock := e.clock }
  | .read org entityId factId validAt knownAt =>
    if knownAt ≤ e.clock then
      let shown := answerFor w.db org entityId factId validAt (some knownAt)
      some { w with answers := w.answers ++ [⟨org, entityId, factId, validAt, knownAt, shown⟩]
                    clock := e.clock }
    else none

/-- No entity or fact has been recorded and no transaction has begun. -/
structure Start (w : World) : Prop where
  db : Replay.Initial w.db
  entities : w.db.entities = []
  txns : w.txns = []
  answers : w.answers = []

def system (rt : Runtime) : Transition.System World Event := ⟨Start, step rt⟩

/-- What a step can do: begin a transaction, move or commit one, or answer a question. -/
inductive Stepped (rt : Runtime) (w : World) (e : Event) : World → Prop
  | recording (ctx : TenantContext) (command : RecordFactVersion)
      (haction : e.action = .beginRecord ctx command) :
      Stepped rt w e { w with
        txns := w.txns ++ [orRollBack (draft rt command) fun d => .record ctx e.clock d .begun]
        clock := e.clock }
  | revoking (ctx : TenantContext) (factId : Uuid) (versionId : Option Uuid) (reason : String)
      (haction : e.action = .beginRevoke ctx factId versionId reason) :
      Stepped rt w e { w with
        txns := w.txns ++ [orRollBack (revokeRequest factId versionId reason) fun request =>
          .revoke ctx e.clock request .begun]
        drawn := versionId.toList ++ w.drawn
        clock := e.clock }
  | moved (i : ℕ) (m : Move) (t t' : Txn) (haction : e.action = .move i m)
      (ht : w.txns[i]? = some t) (hready : w.ready i t m = true)
      (hstep : stepTxn w.db e.clock t m = some t') :
      Stepped rt w e { w with
        txns := w.txns.set i t'
        drawn := m.ids ++ w.drawn
        clock := e.clock }
  | committed (i : ℕ) (t : Txn) (db : Database) (haction : e.action = .commit i)
      (ht : w.txns[i]? = some t) (hcommit : t.commit w.db = some db) :
      Stepped rt w e { w with db := db, txns := w.txns.set i .committed, clock := e.clock }
  | answered (org entityId factId : Uuid) (validAt knownAt : Instant)
      (haction : e.action = .read org entityId factId validAt knownAt) (hle : knownAt ≤ e.clock) :
      Stepped rt w e { w with
        answers := w.answers ++ [⟨org, entityId, factId, validAt, knownAt,
          answerFor w.db org entityId factId validAt (some knownAt)⟩]
        clock := e.clock }

theorem step_cases {rt : Runtime} {w w' : World} {e : Event} (h : step rt w e = some w') :
    Stepped rt w e w' := by
  unfold step at h
  cases haction : e.action with
  | beginRecord ctx command =>
    simp only [haction] at h
    obtain rfl := Option.some.inj h
    exact .recording ctx command haction
  | beginRevoke ctx factId versionId reason =>
    simp only [haction] at h
    obtain rfl := Option.some.inj h
    exact .revoking ctx factId versionId reason haction
  | move i m =>
    simp only [haction] at h
    cases ht : w.txns[i]? with
    | none =>
      rw [ht] at h
      exact absurd h (by simp)
    | some t =>
      simp only [ht] at h
      by_cases hready : w.ready i t m = true
      · rw [if_pos hready] at h
        obtain ⟨t', hstep, rfl⟩ := Option.map_eq_some_iff.mp h
        exact .moved i m t t' haction ht hready hstep
      · rw [if_neg hready] at h
        exact absurd h (by simp)
  | commit i =>
    simp only [haction] at h
    cases ht : w.txns[i]? with
    | none =>
      rw [ht] at h
      exact absurd h (by simp)
    | some t =>
      simp only [ht] at h
      obtain ⟨db, hcommit, rfl⟩ := Option.map_eq_some_iff.mp h
      exact .committed i t db haction ht hcommit
  | read org entityId factId validAt knownAt =>
    simp only [haction] at h
    by_cases hle : knownAt ≤ e.clock
    · rw [if_pos hle] at h
      obtain rfl := Option.some.inj h
      exact .answered org entityId factId validAt knownAt haction hle
    · rw [if_neg hle] at h
      exact absurd h (by simp)

def exampleWorld : World := ⟨exampleDatabase, [], [], [], 0⟩

/-- One writer alone, a tick of the clock between its steps. -/
def exampleRecord (i : ℕ) (command : RecordFactVersion) (clock : Instant) (ids : FreshIds) :
    List Event :=
  [⟨clock, .beginRecord exampleContext command⟩,
   ⟨clock + 1, .move i (.locate ids.entity ids.fact)⟩,
   ⟨clock + 2, .move i .lock⟩,
   ⟨clock + 3, .move i .plan⟩,
   ⟨clock + 4, .move i .stamp⟩,
   ⟨clock + 5, .move i (.write ids.version)⟩,
   ⟨clock + 6, .commit i⟩]

/-- Two writers of one fact, the second after the clock stepped back. -/
def exampleEvents : List Event :=
  exampleRecord 0 (exampleCommand true 0) 10 ⟨10, 11, 12⟩ ++
    exampleRecord 1 (exampleCommand false 5) 3 ⟨20, 21, 22⟩

theorem exampleEvents_runs :
    ((system exampleRuntime).run exampleWorld exampleEvents).isSome = true := by
  decide +kernel

def exampleFinal : World :=
  ((system exampleRuntime).run exampleWorld exampleEvents).get exampleEvents_runs

theorem exampleFinal_reachable : (system exampleRuntime).Reachable exampleFinal :=
  ⟨exampleWorld, exampleEvents, ⟨⟨rfl, rfl, rfl⟩, rfl, rfl, rfl⟩, (Option.some_get _).symm⟩

end ContextLedger.Concurrent

import ContextLedger.ContradictionRows
import ContextLedger.Processes

/-!
Recorders that find contradictions, people who close them and reviews by a model, side by
side. The row of a contradiction that recording found becomes visible with its version. A
call that closes one holds the lock of its row from the select to the end of its
transaction. A review reads the facts in one transaction and stores what the model found in
another; each of its selects and inserts is a step of its own.
-/
namespace ContextLedger.ContradictionWorld

open Values Authorization Schema Facts TemporalEngine ContradictionRows
open Concurrent (Event Txn)

inductive ClosePhase where
  | begun
  | permitted (visible : List PrivacyScope)
  | locked (row : ContradictionRow)
  | written (row : ContradictionRow)
  | halfSeen (row : ContradictionRow) (left : ContradictionSide) (entity : Entity)
  | seen (row : ContradictionRow) (shown : ContradictionView)
  | committed (row : ContradictionRow) (shown : ContradictionView)
  | failed (failure : Failure)
  | aborted

/-- A call of `resolve`; it returns what it has seen of the row. -/
structure Closer where
  request : Resolution
  phase : ClosePhase

/-- What a review fails with: an error of its own, or one of the model. -/
inductive ReviewFailure where
  | failure (failure : Failure)
  | generation (cause : String)

/-- The transaction that stores the findings: what is left to do, and what it has done. -/
structure Storing where
  visible : List PrivacyScope
  facts : List ResolvedFact
  model : String
  findings : List Finding
  now : Instant
  todo : List Accepted
  rows : List ContradictionRow
  created : List ContradictionView
  known : ℕ

/-- `missed` found no row for the pair of its first finding. -/
inductive ReviewPhase where
  | begun
  | reading (role : MembershipRole)
  | allowed (role : MembershipRole)
  | supplied (visible : List PrivacyScope) (facts : List ResolvedFact)
  | answered (visible : List PrivacyScope) (facts : List ResolvedFact) (model : String)
      (findings : List Finding)
  | storing (work : Storing)
  | missed (work : Storing) (found : Accepted)
  | done (work : Storing) (result : ReviewResult)
  | nothing (result : ReviewResult)
  | failed (failure : ReviewFailure)
  | aborted

/-- A call of `review_entity`. -/
structure Review where
  ctx : TenantContext
  entityType : String
  externalId : String
  phase : ReviewPhase

/-- What came back from the model: its text with the name of the model, or the name of the error. -/
inductive Reply where
  | message (content model : String)
  | error (cause : String)

inductive CloseMove where
  | permit
  | lock
  | write (now : Instant)
  | seeLeft
  | seeRight
  | abort

inductive ReviewMove where
  | read
  | allow
  | supply (clock : Instant)
  | answer (reply : Reply)
  | begin (now : Instant)
  | select
  | insert (id : Uuid)
  | abort

structure World where
  base : Concurrent.World
  rows : List ContradictionRow
  closers : List Closer
  reviews : List Review

/-- `rowId` is drawn for the row of a contradiction that a commit makes visible. `others` is
what other transactions change: users and memberships. -/
inductive Action where
  | base (e : Event) (rowId : Uuid)
  | others (users : List User) (memberships : List OrganizationMembership)
  | beginClose (request : Resolution)
  | moveClose (i : ℕ) (m : CloseMove)
  | commitClose (i : ℕ)
  | beginReview (ctx : TenantContext) (entityType externalId : String)
  | moveReview (i : ℕ) (m : ReviewMove)
  | commitReview (i : ℕ)

/-- The row whose lock the call holds. -/
def Closer.locks (closer : Closer) : Option Uuid :=
  match closer.phase with
  | .locked row => some row.id
  | .written row => some row.id
  | .halfSeen row _ _ => some row.id
  | .seen row _ => some row.id
  | _ => none

/-- The rows that an open transaction has inserted. -/
def Review.inserted (review : Review) : List ContradictionRow :=
  match review.phase with
  | .storing work => work.rows
  | .missed work _ => work.rows
  | _ => []

def World.uncommitted (w : World) : List ContradictionRow := w.reviews.flatMap Review.inserted

def beginClose (request : Resolution) : Closer :=
  if request.status = .open then
    ⟨request, .failed (.domain (.validationFailed "status must be resolved or dismissed"))⟩
  else ⟨request, .begun⟩

def alreadyClosed (status : ContradictionStatus) : Failure :=
  .domain (.conflict ("contradiction is already " ++ status.text))

def stepClose (db : Database) (rows : List ContradictionRow) (closer : Closer) :
    CloseMove → Option ClosePhase
  | .permit =>
    match closer.phase with
    | .begun =>
      match requirePermission db closer.request.ctx .writeFacts with
      | .ok role => some (.permitted (visibleTo role closer.request.ctx))
      | .error failure => some (.failed failure)
    | _ => none
  | .lock =>
    match closer.phase with
    | .permitted visible =>
      match selectRow rows closer.request.ctx.organizationId closer.request.contradictionId
          visible with
      | some row => some (.locked row)
      | none => some (.failed (.domain (.notFound "contradiction not found")))
    | _ => none
  | .write now =>
    match closer.phase with
    | .locked row =>
      if row.status ≠ .open then some (.failed (alreadyClosed row.status))
      else if closer.request.note.any Jsonb.hasNul then some (.failed .unstorableText)
      else some (.written (closer.request.close row now))
    | _ => none
  | .seeLeft =>
    match closer.phase with
    | .written row =>
      match side db row.organizationId row.leftVersionId with
      | some (left, entity) => some (.halfSeen row left entity)
      | none => some (.failed .notOneRow)
    | _ => none
  | .seeRight =>
    match closer.phase with
    | .halfSeen row left entity =>
      match side db row.organizationId row.rightVersionId with
      | some (right, _) => some (.seen row (row.shown entity left right))
      | none => some (.failed .notOneRow)
    | _ => none
  | .abort =>
    match closer.phase with
    | .committed _ _ => none
    | .failed _ => none
    | .aborted => none
    | _ => some .aborted

/-- The lock of the row is waited for. -/
def World.lockFree (w : World) (i : ℕ) (closer : Closer) : CloseMove → Bool
  | .lock => (w.closers.eraseIdx i).all fun other =>
      other.locks != some closer.request.contradictionId
  | _ => true

def ReviewPhase.isOpen : ReviewPhase → Bool
  | .done _ _ => false
  | .nothing _ => false
  | .failed _ => false
  | .aborted => false
  | _ => true

/-- A review of fewer than two facts asks nothing. -/
def supply (review : Review) (visible : List PrivacyScope) (facts : List ResolvedFact) :
    ReviewPhase :=
  if facts.length < 2 then
    .nothing ⟨review.entityType, review.externalId, facts.length, [], 0, 0, reviewPrompt, none⟩
  else .supplied visible facts

def answer (rt : Runtime) (visible : List PrivacyScope) (facts : List ResolvedFact) :
    Reply → ReviewPhase
  | .error cause => .failed (.generation cause)
  | .message content model =>
    match parseFindings rt content with
    | some findings => .answered visible facts model findings
    | none => .failed (.generation "MalformedGenerationError")

def stepReview (rt : Runtime) (db : Database) (rows : List ContradictionRow) (review : Review) :
    ReviewMove → Option ReviewPhase
  | .read =>
    match review.phase with
    | .begun =>
      match requirePermission db review.ctx .readFacts with
      | .ok role => some (.reading role)
      | .error failure => some (.failed (.failure failure))
    | _ => none
  | .allow =>
    match review.phase with
    | .reading role =>
      match requirePermission db review.ctx .writeFacts with
      | .ok _ => some (.allowed role)
      | .error failure => some (.failed (.failure failure))
    | _ => none
  | .supply clock =>
    match review.phase with
    | .allowed role =>
      let visible := visibleTo role review.ctx
      match factsAt rt db review.ctx review.entityType review.externalId none none clock with
      | .ok facts => some (supply review visible (reviewed visible facts))
      | .error failure => some (.failed (.failure failure))
    | _ => none
  | .answer reply =>
    match review.phase with
    | .supplied visible facts => some (answer rt visible facts reply)
    | _ => none
  | .begin now =>
    match review.phase with
    | .answered visible facts model findings =>
      match requirePermission db review.ctx .writeFacts with
      | .ok _ =>
        some (.storing ⟨visible, facts, model, findings, now, accepted facts findings, [], [], 0⟩)
      | .error failure => some (.failed (.failure failure))
    | _ => none
  | .select =>
    match review.phase with
    | .storing work =>
      match work.todo with
      | [] => none
      | found :: todo =>
        if (rows ++ work.rows).any fun row =>
            row.pair == found.pair review.ctx.organizationId then
          some (.storing { work with todo, known := work.known + 1 })
        else some (.missed { work with todo } found)
    | _ => none
  | .insert id =>
    match review.phase with
    | .missed work found =>
      let row := semanticRow review.ctx found id work.now
      if rows.any fun other => other.pair == row.pair then
        some (.failed (.failure (.integrity "uq_contradictions_version_pair")))
      else if Jsonb.hasNul row.explanation then some (.failed (.failure .unstorableText))
      else
        match view db db row with
        | some shown => some (.storing { work with
            rows := work.rows ++ [row], created := work.created ++ [shown] })
        | none => some (.failed (.failure .notOneRow))
    | _ => none
  | .abort => if review.phase.isOpen then some .aborted else none

/-- An identifier of a row is new, and an insert waits for an open transaction that has
inserted the same pair. -/
def World.insertReady (w : World) (i : ℕ) (review : Review) : ReviewMove → Bool
  | .insert id =>
    ((w.rows ++ w.uncommitted).all fun row => row.id != id) &&
      match review.phase with
      | .missed _ found => (w.reviews.eraseIdx i).all fun other => other.inserted.all fun row =>
          row.pair != found.pair review.ctx.organizationId
      | _ => true
  | _ => true

/-- The row that a commit of a recorder makes visible. -/
def newRows (base : Concurrent.World) (e : Event) (rowId : Uuid) : List ContradictionRow :=
  match e.action with
  | .commit k =>
    match base.txns[k]? with
    | some (.record _ now _ (.written write)) =>
      write.contradiction.toList.map fun c => valueConflictRow c rowId now
    | _ => []
  | _ => []

/-- What a review that stored everything returns. -/
def Storing.result (work : Storing) (review : Review) : ReviewResult where
  entityType := review.entityType
  externalId := review.externalId
  factsReviewed := work.facts.length
  created := work.created
  alreadyKnown := work.known
  rejectedFindings := rejected work.facts work.findings
  promptVersion := reviewPrompt
  model := some work.model

def step (rt : Runtime) (w : World) : Action → Option World
  | .base e rowId =>
    if (w.rows ++ w.uncommitted).all fun row => row.id != rowId then
      (Concurrent.step rt w.base e).map fun base =>
        { w with base, rows := w.rows ++ newRows w.base e rowId }
    else none
  | .others users memberships =>
    some { w with base := { w.base with db := { w.base.db with users, memberships } } }
  | .beginClose request => some { w with closers := w.closers ++ [beginClose request] }
  | .moveClose i m =>
    match w.closers[i]? with
    | none => none
    | some closer =>
      if w.lockFree i closer m then
        (stepClose w.base.db w.rows closer m).map fun phase =>
          { w with closers := w.closers.set i { closer with phase } }
      else none
  | .commitClose i =>
    match w.closers[i]? with
    | some ⟨request, .seen row shown⟩ =>
      some { w with
        rows := w.rows.map fun old => if old.id = row.id then row else old
        closers := w.closers.set i ⟨request, .committed row shown⟩ }
    | _ => none
  | .beginReview ctx entityType externalId =>
    some { w with reviews := w.reviews ++ [⟨ctx, entityType, externalId, .begun⟩] }
  | .moveReview i m =>
    match w.reviews[i]? with
    | none => none
    | some review =>
      if w.insertReady i review m then
        (stepReview rt w.base.db w.rows review m).map fun phase =>
          { w with reviews := w.reviews.set i { review with phase } }
      else none
  | .commitReview i =>
    match w.reviews[i]? with
    | none => none
    | some review =>
      match review.phase with
      | .storing work =>
        if work.todo = [] then
          some { w with
            rows := w.rows ++ work.rows
            reviews := w.reviews.set i { review with phase := .done work (work.result review) } }
        else none
      | _ => none

/-- Nothing has been recorded, closed or reviewed. -/
structure Start (w : World) : Prop where
  base : Concurrent.Start w.base
  contradictions : w.base.db.contradictions = []
  rows : w.rows = []
  closers : w.closers = []
  reviews : w.reviews = []

def system (rt : Runtime) : Transition.System World Action := ⟨Start, step rt⟩

end ContextLedger.ContradictionWorld

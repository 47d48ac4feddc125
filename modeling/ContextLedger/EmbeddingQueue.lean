import ContextLedger.DecisionWorld
import ContextLedger.Processes

/-!
Background workers that turn fact versions into embeddings. An iteration selects
the versions without a job and inserts jobs for them, leases a batch, loads the
texts of the batch, looks for vectors of the same text in each organization, sends
the other texts to the provider in chunks, and stores the vectors while it marks
its jobs, or gives the jobs back when the provider fails. Each of these is a
transaction or a call of its own; between them other workers move, versions are
recorded, time passes, and a worker may crash, which loses what it has in memory.
-/
namespace ContextLedger.EmbeddingQueue

open JsonText Values Schema Facts Retrieval Decisions Transition
open DecisionWorld (Keyed)

def factTextTemplate : String := "fact-text-v1"

def maxErrorChars : ℕ := 500

inductive EmbeddingJobStatus where
  | pending
  | running
  | succeeded
  | failed
  deriving DecidableEq

structure EmbeddingJob where
  id : Uuid
  organizationId : Uuid
  factVersionId : Uuid
  model : String
  status : EmbeddingJobStatus
  attempts : ℕ
  availableAt : Instant
  lockedAt : Option Instant
  leaseToken : Option Uuid
  lastError : Option String
  createdAt : Instant

structure FactEmbedding (V : Type) where
  organizationId : Uuid
  factVersionId : Uuid
  model : String
  embedding : V
  textTemplate : String
  contentSha256 : String

structure ClaimedJob where
  jobId : Uuid
  organizationId : Uuid
  factVersionId : Uuid
  leaseToken : Uuid
  attempts : ℕ

structure FactDocumentSource where
  organizationId : Uuid
  factVersionId : Uuid
  entityType : String
  externalId : String
  property : String
  value : Json

/-- `prop.replace("_", " ").replace(".", " / ")` -/
def readableProperty (prop : String) : String :=
  String.ofList (prop.toList.flatMap fun c =>
    if c = '_' then [' '] else if c = '.' then [' ', '/', ' '] else [c])

/-- Separators ", " and ": ", and no escapes outside ASCII. -/
def readable : Style := ⟨true, false⟩

def renderFactDocument (entityType externalId prop : String) (value : Json) : String :=
  entityType ++ " " ++ externalId ++ "\n" ++ readableProperty prop ++ ": " ++
    dumpsSorted readable value

def documentHash (rt : Runtime) (text : String) : String := rt.sha256 text

def FactDocumentSource.text (s : FactDocumentSource) : String :=
  renderFactDocument s.entityType s.externalId s.property s.value

/-- In microseconds. -/
def retryDelay (attempts : ℕ) (baseSeconds capSeconds : ℚ) : ℤ :=
  if attempts < 1 then 0
  else FloatText.roundHalfEven (min capSeconds (baseSeconds * 2 ^ (attempts - 1)) * 1000000)

/-- The vector a model has for a text, and what the column of 32-bit floats keeps of
a vector; a vector read from the column is kept as it is. -/
structure Vectors (V : Type) where
  vectorOf : String → String → V
  stored : V → V
  stored_stored : ∀ v, stored (stored v) = stored v

/-- A worker with its provider's model and batch size. -/
structure EmbeddingWorker where
  model : String
  maxBatchSize : ℕ
  batchSize : ℕ
  maxAttempts : ℕ
  lease : ℤ
  retryBase : ℚ
  retryCap : ℚ
  organizationId : Option Uuid
  maxBatchSize_pos : 0 < maxBatchSize

/-- A claimed job with the text of its version. -/
abbrev Item := ClaimedJob × String

abbrev Cache (V : Type) := List ((Uuid × String) × V)

/-- What a worker has in hand. `rest` are the texts still to send, by their hash, and
`fresh` the vectors that came back. An exception ends the iteration. -/
inductive Phase (V : Type) where
  | idle
  | found (rows : List (Uuid × Uuid))
  | enqueued
  | claimed (jobs : List ClaimedJob)
  | looking (items : List Item) (orgs : List Uuid) (cache : Cache V)
  | embedding (items : List Item) (cache : Cache V) (rest : List (String × String))
      (fresh : List (String × V))
  | failing (jobs : List ClaimedJob) (error : String)
  | raised (failure : Failure)

def Phase.jobs {V : Type} : Phase V → List ClaimedJob
  | .claimed jobs => jobs
  | .looking items _ _ => items.map Prod.fst
  | .embedding items _ _ _ => items.map Prod.fst
  | .failing jobs _ => jobs
  | _ => []

structure Worker (V : Type) where
  config : EmbeddingWorker
  phase : Phase V

/-- `issued` are the lease tokens drawn so far; none is drawn twice. -/
structure World (V : Type) where
  db : Database
  jobs : List EmbeddingJob
  embeddings : List (FactEmbedding V)
  workers : List (Worker V)
  issued : List Uuid
  now : Instant

/-- The next statement, call or end of a worker; `now` is the begin of its transaction. -/
inductive Move where
  | select
  | insert (now : Instant) (ids : List Uuid)
  | claim (now : Instant) (skipped tokens : List Uuid)
  | load
  | lookup (org : Uuid)
  | send
  | refuse (error : String)
  | finish
  | recordFailure (now : Instant)
  | crash

inductive Action where
  | hire (config : EmbeddingWorker)
  | move (i : ℕ) (move : Move)
  | record (write : VersionWrite)
  | tick (now : Instant)

section Store

variable {V : Type}

def hasJob (jobs : List EmbeddingJob) (versionId : Uuid) (model : String) : Bool :=
  jobs.any fun j => j.factVersionId == versionId && j.model == model

def hasEmbedding (embeddings : List (FactEmbedding V)) (versionId : Uuid) (model : String) : Bool :=
  embeddings.any fun e => e.factVersionId == versionId && e.model == model

/-- The candidates of `enqueue_missing`: the oldest versions without job and embedding. -/
def candidates (w : World V) (c : EmbeddingWorker) : List (Uuid × Uuid) :=
  (((w.db.versions.filter fun v => !hasJob w.jobs v.id c.model &&
    !hasEmbedding w.embeddings v.id c.model &&
    c.organizationId.all fun org => v.organizationId == org).insertionSort
      fun a b => a.recordedAt ≤ b.recordedAt).take (c.batchSize * 4)).map
        fun v => (v.organizationId, v.id)

/-- One row of the insert, `ON CONFLICT (fact_version_id, model) DO NOTHING`. -/
def insertJob (model : String) (now : Instant) (jobs : List EmbeddingJob)
    (row : (Uuid × Uuid) × Uuid) : List EmbeddingJob :=
  if hasJob jobs row.1.2 model then jobs
  else jobs ++ [{ id := row.2, organizationId := row.1.1, factVersionId := row.1.2, model,
                  status := .pending, attempts := 0, availableAt := now, lockedAt := none,
                  leaseToken := none, lastError := none, createdAt := now }]

/-- Due, or leased to a worker that is taken for dead. -/
def due (c : EmbeddingWorker) (now : Instant) (j : EmbeddingJob) : Bool :=
  j.model == c.model && decide (j.availableAt ≤ now) &&
    (j.status == .pending ||
      (j.status == .running && j.lockedAt.any fun t => decide (t < now - c.lease))) &&
    c.organizationId.all fun org => j.organizationId == org

/-- `ORDER BY available_at, created_at`. -/
def JobLe (a b : EmbeddingJob) : Prop :=
  a.availableAt < b.availableAt ∨ (a.availableAt = b.availableAt ∧ a.createdAt ≤ b.createdAt)

instance : DecidableRel JobLe := fun _ _ => inferInstanceAs (Decidable (_ ∨ (_ ∧ _)))

/-- `FOR UPDATE SKIP LOCKED`: `skipped` are the jobs that others have locked. -/
def picked (w : World V) (c : EmbeddingWorker) (now : Instant) (skipped : List Uuid) :
    List EmbeddingJob :=
  ((w.jobs.filter fun j => due c now j && !skipped.contains j.id).insertionSort JobLe).take
    c.batchSize

def EmbeddingJob.lease (j : EmbeddingJob) (now : Instant) (token : Uuid) : EmbeddingJob :=
  { j with
    status := .running
    leaseToken := some token
    lockedAt := some now
    attempts := j.attempts + 1 }

def claimJobs (jobs : List EmbeddingJob) (now : Instant) (leases : List (Uuid × Uuid)) :
    List EmbeddingJob :=
  jobs.map fun j => (leases.lookup j.id).elim j (j.lease now)

def claimedOf (now : Instant) (entry : EmbeddingJob × Uuid) : ClaimedJob :=
  let leased := entry.1.lease now entry.2
  ⟨leased.id, leased.organizationId, leased.factVersionId, entry.2, leased.attempts⟩

def documents (db : Database) (jobs : List ClaimedJob) : List FactDocumentSource :=
  (db.versions.filter fun v => (jobs.map ClaimedJob.factVersionId).contains v.id).flatMap fun v =>
    (joinedTo db v).map fun row =>
      ⟨v.organizationId, v.id, row.2.entityType, row.2.externalId, row.1.property,
        Jsonb.load v.value⟩

/-- `sources[job.fact_version_id]`, of several documents the last. -/
def sourceOf (docs : List FactDocumentSource) (job : ClaimedJob) : Option FactDocumentSource :=
  docs.reverse.find? fun d => d.factVersionId == job.factVersionId

/-- Existing vectors for the hashes in one organization. -/
def cachedVectors (embeddings : List (FactEmbedding V)) (model : String) (org : Uuid)
    (hashes : List String) : Cache V :=
  hashes.dedup.filterMap fun digest =>
    (embeddings.find? fun e => e.organizationId == org && e.model == model &&
      e.contentSha256 == digest).map fun e => ((org, digest), e.embedding)

def saveEmbedding (vectors : Vectors V) (model : String) (embeddings : List (FactEmbedding V))
    (job : ClaimedJob) (vector : V) (digest : String) : List (FactEmbedding V) :=
  if hasEmbedding embeddings job.factVersionId model then embeddings
  else embeddings ++ [⟨job.organizationId, job.factVersionId, model, vectors.stored vector,
    factTextTemplate, digest⟩]

/-- `UPDATE … WHERE id = … AND lease_token = …` -/
def updateLeased (jobs : List EmbeddingJob) (job : ClaimedJob) (f : EmbeddingJob → EmbeddingJob) :
    List EmbeddingJob :=
  jobs.map fun j => if j.id = job.jobId ∧ j.leaseToken = some job.leaseToken then f j else j

def EmbeddingJob.succeed (j : EmbeddingJob) : EmbeddingJob :=
  { j with status := .succeeded, leaseToken := none, lockedAt := none, lastError := none }

def complete (jobs : List EmbeddingJob) (job : ClaimedJob) : List EmbeddingJob :=
  updateLeased jobs job EmbeddingJob.succeed

/-- Back to PENDING after the delay, or FAILED for good. -/
def EmbeddingJob.giveBack (error : String) (retryAt : Option Instant) (j : EmbeddingJob) :
    EmbeddingJob :=
  { j with
    status := if retryAt.isNone then .failed else .pending
    availableAt := retryAt.getD j.availableAt
    leaseToken := none
    lockedAt := none
    lastError := some (String.ofList (error.toList.take maxErrorChars)) }

def fail (c : EmbeddingWorker) (error : String) (now : Instant) (jobs : List EmbeddingJob)
    (job : ClaimedJob) : List EmbeddingJob :=
  let retryAt : Option Instant :=
    if c.maxAttempts ≤ job.attempts then none
    else some (now + retryDelay job.attempts c.retryBase c.retryCap)
  updateLeased jobs job (EmbeddingJob.giveBack error retryAt)

end Store

section Steps

variable {V : Type} (rt : Runtime) (vectors : Vectors V)

/-- The texts that no cached vector covers, each distinct one once. -/
def toEmbed (items : List Item) (cache : Cache V) : List (String × String) :=
  dictOf ((items.filter fun item => (cache.lookup (item.1.organizationId,
    documentHash rt item.2)).isNone).map fun item => (documentHash rt item.2, item.2))

/-- The vector of one job: the cached one, or `fresh[digest]`. -/
def vectorFor (cache : Cache V) (fresh : List (String × V)) (item : Item) : Option V :=
  match cache.lookup (item.1.organizationId, documentHash rt item.2) with
  | some vector => some vector
  | none => fresh.lookup (documentHash rt item.2)

/-- What a move leaves: the phase of the worker, the two tables and the tokens. -/
structure Moved (V : Type) where
  phase : Phase V
  jobs : List EmbeddingJob
  embeddings : List (FactEmbedding V)
  issued : List Uuid

def Moved.only (w : World V) (phase : Phase V) : Moved V := ⟨phase, w.jobs, w.embeddings, w.issued⟩

def insertMove (w : World V) (c : EmbeddingWorker) (rows : List (Uuid × Uuid)) (now : Instant)
    (ids : List Uuid) : Option (Moved V) :=
  if ids.length = rows.length ∧ ids.Nodup ∧ ids.all (fun id => w.jobs.all fun j => j.id != id) then
    some { Moved.only w .enqueued with
      jobs := (rows.zip ids).foldl (insertJob c.model now) w.jobs }
  else none

def claimMove (w : World V) (c : EmbeddingWorker) (now : Instant) (skipped tokens : List Uuid) :
    Option (Moved V) :=
  let jobs := picked w c now skipped
  if tokens.length = jobs.length ∧ tokens.Nodup ∧ tokens.all (fun t => !w.issued.contains t) then
    if jobs = [] then some (Moved.only w .idle)
    else some { Moved.only w (.claimed ((jobs.zip tokens).map (claimedOf now))) with
      jobs := claimJobs w.jobs now ((jobs.map EmbeddingJob.id).zip tokens)
      issued := w.issued ++ tokens }
  else none

def loadPhase (w : World V) (jobs : List ClaimedJob) : Phase V :=
  let docs := documents w.db jobs
  match jobs.mapM fun job => (sourceOf docs job).map fun s => (job, s.text) with
  | none => .raised .keyError
  | some items => .looking items ((jobs.map ClaimedJob.organizationId).dedup) []

/-- After the last organization the texts to send are known. -/
def lookupPhase (w : World V) (c : EmbeddingWorker) (items : List Item) (orgs : List Uuid)
    (cache : Cache V) (org : Uuid) : Phase V :=
  let hashes := (items.filter fun item => item.1.organizationId == org).map
    fun item => documentHash rt item.2
  let cache := cache ++ cachedVectors w.embeddings c.model org hashes
  match orgs.erase org with
  | [] => .embedding items cache (toEmbed rt items cache) []
  | orgs => .looking items orgs cache

/-- One call of the provider: the vectors come back in the order of the texts. -/
def sendPhase (c : EmbeddingWorker) (items : List Item) (cache : Cache V)
    (rest : List (String × String)) (fresh : List (String × V)) : Phase V :=
  let chunk := rest.take c.maxBatchSize
  let batch := (chunk.map Prod.snd).map (vectors.vectorOf c.model)
  .embedding items cache (rest.drop c.maxBatchSize)
    (dictOf (fresh ++ (chunk.map Prod.fst).zip batch))

/-- Saving and completing one job of the last transaction. -/
def writeJob (c : EmbeddingWorker) (tables : List EmbeddingJob × List (FactEmbedding V))
    (entry : Item × V) : List EmbeddingJob × List (FactEmbedding V) :=
  (complete tables.1 entry.1.1,
    saveEmbedding vectors c.model tables.2 entry.1.1 entry.2 (documentHash rt entry.1.2))

def finishMove (w : World V) (c : EmbeddingWorker) (items : List Item) (cache : Cache V)
    (fresh : List (String × V)) : Moved V :=
  match items.mapM fun item => (vectorFor rt cache fresh item).map fun v => (item, v) with
  | none => Moved.only w (.raised .keyError)
  | some entries =>
    let tables := entries.foldl (writeJob rt vectors c) (w.jobs, w.embeddings)
    ⟨.idle, tables.1, tables.2, w.issued⟩

def moveWorker (w : World V) (worker : Worker V) : Move → Option (Moved V)
  | .select =>
    match worker.phase with
    | .idle => some (Moved.only w (.found (candidates w worker.config)))
    | _ => none
  | .insert now ids =>
    match worker.phase with
    | .found rows => insertMove w worker.config rows now ids
    | _ => none
  | .claim now skipped tokens =>
    match worker.phase with
    | .enqueued => claimMove w worker.config now skipped tokens
    | _ => none
  | .load =>
    match worker.phase with
    | .claimed jobs => some (Moved.only w (loadPhase w jobs))
    | _ => none
  | .lookup org =>
    match worker.phase with
    | .looking items orgs cache =>
      if org ∈ orgs then
        some (Moved.only w (lookupPhase rt w worker.config items orgs cache org))
      else none
    | _ => none
  | .send =>
    match worker.phase with
    | .embedding items cache (text :: rest) fresh =>
      some (Moved.only w (sendPhase vectors worker.config items cache (text :: rest) fresh))
    | _ => none
  | .refuse error =>
    match worker.phase with
    | .embedding items _ (_ :: _) _ => some (Moved.only w (.failing (items.map Prod.fst) error))
    | _ => none
  | .finish =>
    match worker.phase with
    | .embedding items cache [] fresh =>
      some (finishMove rt vectors w worker.config items cache fresh)
    | _ => none
  | .recordFailure now =>
    match worker.phase with
    | .failing jobs error => some { Moved.only w .idle with
        jobs := jobs.foldl (fail worker.config error now) w.jobs }
    | _ => none
  | .crash => some (Moved.only w .idle)

/-- The begin of a transaction is not in the future. -/
def Move.begun (now : Instant) : Move → Bool
  | .insert t _ => decide (t ≤ now)
  | .claim t _ _ => decide (t ≤ now)
  | .recordFailure t => decide (t ≤ now)
  | _ => true

/-- The constraints on the entity, the fact and the version of a write. -/
def accepted (db : Database) (write : VersionWrite) : Bool :=
  (write.entity.all fun e => (firstBroken (entityChecks db.entities e)).isNone) &&
    (write.fact.all fun f => (firstBroken (factChecks db.facts f)).isNone &&
      (write.withPlace db).entities.any fun e =>
        e.organizationId == f.organizationId && e.id == f.entityId) &&
    (write.rejectedBy db).isNone

def World.withMove (w : World V) (i : ℕ) (worker : Worker V) (moved : Moved V) : World V :=
  { w with
    jobs := moved.jobs
    embeddings := moved.embeddings
    issued := moved.issued
    workers := w.workers.set i { worker with phase := moved.phase } }

def step (w : World V) : Action → Option (World V)
  | .hire config => some { w with workers := w.workers ++ [⟨config, .idle⟩] }
  | .move i move =>
    match w.workers[i]? with
    | some worker =>
      if move.begun w.now then (moveWorker rt vectors w worker move).map (w.withMove i worker)
      else none
    | none => none
  | .record write => if accepted w.db write then some { w with db := write.apply w.db } else none
  | .tick now => if w.now ≤ now then some { w with now } else none

/-- The queue before the first worker, over a database that keeps its constraints. -/
structure Start (w : World V) : Prop where
  keyed : Keyed w.db
  jobs : w.jobs = []
  embeddings : w.embeddings = []
  workers : w.workers = []

def system : System (World V) Action := ⟨Start, step rt vectors⟩

end Steps

/-- The customer is active. -/
def exampleWrite : VersionWrite where
  entity := some ⟨10, 1, "customer", "c-1"⟩
  fact := some ⟨11, 1, 10, "active"⟩
  closing := none
  version :=
    { id := 12, organizationId := 1, factId := 11, version := 1, value := .bool true, sourceId := 3
      validFrom := 0, validUntil := none, observedAt := 0, recordedAt := 5
      validUntilRecordedAt := none, supersedesId := none, authority := 50, confidence := 1000
      privacyScope := .internal }
  contradiction := none
  links := []

def exampleDigests : List (String × String) :=
  [("customer c-1\nactive: true",
    "4e4fcfd01f22ef151f6595c1d24e35f0332c6aea7125a2dbef5cc6c24c4c2a56")]

def hashingRuntime : Runtime := ⟨fun _ => true, digesting exampleDigests⟩

/-- The hashing provider on the text of the example: the signed positions, before the
division by the norm. -/
def exampleVectors : Vectors (List (ℕ × ℤ)) where
  vectorOf := fun _ text =>
    if text = "customer c-1\nactive: true" then
      [(17, 1), (248, -1), (510, -1), (515, 1), (627, 1), (1021, 1), (1051, -1), (1114, -1),
        (1123, 1)]
    else [(0, 1)]
  stored := id
  stored_stored := fun _ => rfl

def exampleWorker : EmbeddingWorker where
  model := "deterministic:hash-v1"
  maxBatchSize := 512
  batchSize := 64
  maxAttempts := 5
  lease := 300 * 1000000
  retryBase := 10
  retryCap := 900
  organizationId := none
  maxBatchSize_pos := by decide

def exampleStart : World (List (ℕ × ℤ)) := ⟨exampleDatabase, [], [], [], [], 5⟩

theorem exampleStart_start : Start exampleStart where
  keyed := ⟨List.nodup_nil, List.nodup_nil, List.nodup_nil, by simp [exampleStart, exampleDatabase],
    by simp [exampleStart, exampleDatabase]⟩
  jobs := rfl
  embeddings := rfl
  workers := rfl

end ContextLedger.EmbeddingQueue

import ContextLedger.Replay
import ContextLedger.Decisions
import ContextLedger.Transition

/-!
Serial calls of the services on one database: recording a version, attaching
evidence, revoking, capturing a context and recording a decision. A call that
fails leaves the rows as they were. What each accepted call does to the rows is
said once, and the references between rows hold in every state reached.
-/
namespace ContextLedger.Ledger

open Values Authorization Schema Facts VersionTable Recording Reference Revocations Knowledge
open Retrieval Decisions

inductive Request where
  | record (ctx : TenantContext) (command : RecordFactVersion) (ids : FreshIds)
  | attach (ctx : TenantContext) (versionId evidenceId : Uuid) (relation : EvidenceRelation)
  | revoke (ctx : TenantContext) (factId : Uuid) (versionId : Option Uuid) (reason : String)
      (id : Uuid)
  | capture (ctx : TenantContext) (query : RetrievalQuery) (serviceClock : Instant)
      (index : SearchIndex) (id : Uuid)
  | decision (ctx : TenantContext) (command : RecordDecision) (id : Uuid)

/-- A request that runs alone, at one reading of the database clock. -/
structure Call where
  clock : Instant
  request : Request

def execute (rt : Runtime) (db : Database) (call : Call) : Result Database :=
  match call.request with
  | .record ctx command ids => (recordVersion rt ctx command call.clock ids db).map Prod.snd
  | .attach ctx versionId evidenceId relation =>
    (attach ctx versionId evidenceId relation call.clock db).map Prod.snd
  | .revoke ctx factId versionId reason id =>
    (revoke ctx factId versionId reason call.clock id db).map Prod.snd
  | .capture ctx query serviceClock index id =>
    (captureContext rt ctx query call.clock serviceClock index id db).map Prod.snd
  | .decision ctx command id => (recordDecision rt ctx command call.clock id db).map Prod.fst

def perform (rt : Runtime) (db : Database) (call : Call) : Database :=
  match execute rt db call with
  | .ok db' => db'
  | .error _ => db

def performAll (rt : Runtime) (db : Database) (calls : List Call) : Database :=
  calls.foldl (perform rt) db

/-- What an accepted call does to the rows. -/
inductive Effect (db : Database) (clock : Instant) : Database → Prop
  | recorded (write : VersionWrite) (happ : Appends db write) (hplaced : Placed db write)
      (hclock : clock ≤ write.version.recordedAt)
      (hlinks : ∀ l ∈ write.links, l.factVersionId = write.version.id ∧ l.linkedAt = clock) :
      Effect db clock (write.apply db)
  | linked (links : List FactVersionEvidence) (hlinks : ∀ l ∈ links, l.linkedAt = clock) :
      Effect db clock { db with links := db.links ++ links }
  | revoked (write : RevokeWrite) : Effect db clock (write.apply db)
  | captured (snapshot : ContextSnapshot) (facts : List ContextSnapshotFact)
      (hfresh : ∀ s ∈ db.snapshots, s.id ≠ snapshot.id)
      (hfacts : ∀ f ∈ facts, f.snapshotId = snapshot.id ∧
        ∃ v ∈ db.versions, v.organizationId = f.organizationId ∧ v.id = f.factVersionId) :
      Effect db clock { db with
        snapshots := db.snapshots ++ [snapshot]
        snapshotFacts := db.snapshotFacts ++ facts }
  | decided (decision : Decision) (relied : List Uuid)
      (hfresh : ∀ d ∈ db.decisions, d.id ≠ decision.id) :
      Effect db clock (Database.addDecision db decision relied)

/-- The parts of an accepted decision, with the hash over the outcome in memory. -/
theorem recordDecision_eq_ok {rt : Runtime} {ctx : TenantContext} {command : RecordDecision}
    {clock : Instant} {id : Uuid} {db db' : Database} {answer : Result DecisionReceipt}
    (h : recordDecision rt ctx command clock id db = .ok (db', answer)) :
    ∃ snapshot relied agent action stored rationale,
      getSnapshot db ctx.organizationId command.snapshotId = some snapshot ∧
      Jsonb.store command.outcome.1 = some stored ∧ (∀ d ∈ db.decisions, d.id ≠ id) ∧
      db' = Database.addDecision db (sealedDecision rt ctx snapshot
        (snapshotRows db ctx.organizationId snapshot.id) relied agent action command.outcome.1
        stored rationale clock id) relied ∧
      answer = receipt rt [(id, command.outcome.1)] ctx id db' := by
  unfold recordDecision at h
  obtain ⟨action, -, h⟩ := bind_eq_ok.mp h
  obtain ⟨outcome, houtcome, h⟩ := bind_eq_ok.mp h
  obtain ⟨rationale, -, h⟩ := bind_eq_ok.mp h
  obtain ⟨agent, -, h⟩ := bind_eq_ok.mp h
  obtain ⟨role, -, h⟩ := bind_eq_ok.mp h
  have hvalue : outcome.1 = command.outcome.1 := Validation.validateFactValue_val houtcome
  rw [hvalue] at h
  split at h
  · exact absurd h (by simp [notFound])
  · rename_i snapshot hsnapshot
    obtain ⟨relied, -, h⟩ := bind_eq_ok.mp h
    split at h
    · exact absurd h (by simp)
    · rename_i stored hstored
      split at h
      · exact absurd h (by simp)
      · split at h
        · exact absurd h (by simp)
        · rename_i hfresh
          obtain ⟨rfl, rfl⟩ := Prod.mk.inj (Except.ok.inj h)
          refine ⟨snapshot, relied, agent, action, stored, rationale, hsnapshot, hstored, ?_, rfl,
            rfl⟩
          intro d hd hid
          exact hfresh (List.any_eq_true.mpr ⟨d, hd, by simp [hid]⟩)

theorem captureContext_effect {rt : Runtime} {ctx : TenantContext} {query : RetrievalQuery}
    {databaseNow clock : Instant} {index : SearchIndex} {id : Uuid} {db db' : Database}
    {captured : CapturedContext}
    (h : captureContext rt ctx query databaseNow clock index id db = .ok (captured, db'))
    (stamp : Instant) : Effect db stamp db' := by
  unfold captureContext at h
  obtain ⟨role, -, h⟩ := bind_eq_ok.mp h
  obtain ⟨knownAt, -, h⟩ := bind_eq_ok.mp h
  obtain ⟨validAt, -, h⟩ := bind_eq_ok.mp h
  obtain ⟨retrieval, -, h⟩ := bind_eq_ok.mp h
  obtain ⟨role', -, h⟩ := bind_eq_ok.mp h
  split at h
  · exact absurd h (by simp)
  · simp only at h
    split at h
    · exact absurd h (by simp)
    · rename_i hchecks
      obtain ⟨-, rfl⟩ := Prod.mk.inj (Except.ok.inj h)
      have hpass := firstBroken_eq_none.mp hchecks
      simp only [snapshotChecks, List.mem_cons, List.not_mem_nil, or_false, forall_eq_or_imp,
        forall_eq, List.any_eq_false] at hpass
      obtain ⟨hfresh, -, hversions⟩ := hpass
      refine Effect.captured _ _ ?_ ?_
      · intro s hs
        simpa using hfresh s hs
      · intro f hf
        refine ⟨?_, ?_⟩
        · obtain ⟨entry, -, rfl⟩ := List.mem_map.mp hf
          rfl
        · have hexists := hversions f hf
          simp only [Bool.not_eq_true, Bool.not_eq_false', List.any_eq_true, Bool.and_eq_true,
            beq_iff_eq] at hexists
          obtain ⟨v, hv, horg, hid⟩ := hexists
          exact ⟨v, hv, horg, hid⟩

theorem revoke_effect {ctx : TenantContext} {factId : Uuid} {versionId : Option Uuid}
    {reason : String} {clock : Instant} {id : Uuid} {db db' : Database}
    {revoked : FactRevocation}
    (h : revoke ctx factId versionId reason clock id db = .ok (revoked, db')) (stamp : Instant) :
    Effect db stamp db' := by
  unfold revoke at h
  obtain ⟨request, -, h⟩ := bind_eq_ok.mp h
  obtain ⟨role, -, h⟩ := bind_eq_ok.mp h
  obtain ⟨write, -, h⟩ := bind_eq_ok.mp h
  obtain ⟨-, rfl⟩ := Prod.mk.inj (Except.ok.inj h)
  exact Effect.revoked write

theorem recordDecision_effect {rt : Runtime} {ctx : TenantContext} {command : RecordDecision}
    {clock : Instant} {id : Uuid} {db db' : Database} {answer : Result DecisionReceipt}
    (h : recordDecision rt ctx command clock id db = .ok (db', answer)) (stamp : Instant) :
    Effect db stamp db' := by
  obtain ⟨snapshot, relied, agent, action, stored, rationale, -, -, hfresh, rfl, -⟩ :=
    recordDecision_eq_ok h
  exact Effect.decided _ relied hfresh

theorem attach_effect {ctx : TenantContext} {versionId evidenceId : Uuid}
    {relation : EvidenceRelation} {clock : Instant} {db db' : Database} {added : Bool}
    (h : attach ctx versionId evidenceId relation clock db = .ok (added, db')) :
    Effect db clock db' := by
  unfold attach at h
  obtain ⟨role, -, h⟩ := bind_eq_ok.mp h
  obtain ⟨links, hlinks, h⟩ := bind_eq_ok.mp h
  obtain ⟨-, rfl⟩ := Prod.mk.inj (Except.ok.inj h)
  exact Effect.linked links fun l hl => (linkEvidence_mem hlinks hl).2.2

theorem recordVersion_effect {rt : Runtime} {ctx : TenantContext} {command : RecordFactVersion}
    {clock : Instant} {ids : FreshIds} {db db' : Database} {v : FactVersion} (hsound : Sound db)
    (h : recordVersion rt ctx command clock ids db = .ok (v, db')) : Effect db clock db' := by
  obtain ⟨write, happ, -, rfl, hclock, -, hplaced, hlinks⟩ := recordVersion_eq_ok hsound h
  exact Effect.recorded write happ hplaced hclock hlinks

theorem execute_effect {rt : Runtime} {db db' : Database} {call : Call} (hsound : Sound db)
    (h : execute rt db call = .ok db') : Effect db call.clock db' := by
  unfold execute at h
  split at h
  · obtain ⟨⟨v, db''⟩, hrecord, rfl⟩ := map_eq_ok.mp h
    exact recordVersion_effect hsound hrecord
  · obtain ⟨⟨added, db''⟩, hattach, rfl⟩ := map_eq_ok.mp h
    exact attach_effect hattach
  · obtain ⟨⟨r, db''⟩, hrevoke, rfl⟩ := map_eq_ok.mp h
    exact revoke_effect hrevoke _
  · obtain ⟨⟨captured, db''⟩, hcapture, rfl⟩ := map_eq_ok.mp h
    exact captureContext_effect hcapture _
  · obtain ⟨⟨db'', answer⟩, hdecide, rfl⟩ := map_eq_ok.mp h
    exact recordDecision_effect hdecide _

/-- The references between rows that the services rely on. -/
structure Intact (db : Database) : Prop where
  sound : Sound db
  entityOf : ∀ f ∈ db.facts, ∃ e ∈ db.entities,
    e.organizationId = f.organizationId ∧ e.id = f.entityId
  versionOf : ∀ s ∈ db.snapshotFacts, ∃ v ∈ db.versions,
    v.organizationId = s.organizationId ∧ v.id = s.factVersionId
  decisionOf : ∀ r ∈ db.decisionFacts, ∃ d ∈ db.decisions, d.id = r.decisionId

/-- The rules of the version tables are about facts and versions only. -/
theorem sound_of_rows {db db' : Database} (h : Sound db) (hfacts : db'.facts = db.facts)
    (hversions : db'.versions = db.versions) : Sound db' := by
  refine ⟨?_, ?_, ?_, ?_, ?_⟩
  · rw [hfacts]
    exact h.factIds
  · rw [hversions]
    exact h.versionIds
  · rw [hversions, hfacts]
    exact h.factOf
  · rw [hversions]
    exact h.rowsChecked
  · intro org factId
    have hsame : versionsOf db' org factId = versionsOf db org factId := by
      rw [versionsOf, hversions]
      rfl
    rw [hsame]
    exact h.histories org factId

theorem touched_mem_apply {write : VersionWrite} {db : Database} {v : FactVersion}
    (hv : v ∈ db.versions) : touched write v ∈ (write.apply db).versions := by
  rw [apply_versions]
  exact List.mem_append_left _ (List.mem_map_of_mem hv)

@[simp] theorem apply_snapshotFacts (write : VersionWrite) (db : Database) :
    (write.apply db).snapshotFacts = db.snapshotFacts := by
  show (write.withClose (write.withPlace db)).snapshotFacts = db.snapshotFacts
  unfold VersionWrite.withClose VersionWrite.withPlace
  cases write.entity <;> cases write.fact <;> cases write.closing <;> rfl

@[simp] theorem apply_snapshots (write : VersionWrite) (db : Database) :
    (write.apply db).snapshots = db.snapshots := by
  show (write.withClose (write.withPlace db)).snapshots = db.snapshots
  unfold VersionWrite.withClose VersionWrite.withPlace
  cases write.entity <;> cases write.fact <;> cases write.closing <;> rfl

@[simp] theorem apply_decisions (write : VersionWrite) (db : Database) :
    (write.apply db).decisions = db.decisions := by
  show (write.withClose (write.withPlace db)).decisions = db.decisions
  unfold VersionWrite.withClose VersionWrite.withPlace
  cases write.entity <;> cases write.fact <;> cases write.closing <;> rfl

@[simp] theorem apply_decisionFacts (write : VersionWrite) (db : Database) :
    (write.apply db).decisionFacts = db.decisionFacts := by
  show (write.withClose (write.withPlace db)).decisionFacts = db.decisionFacts
  unfold VersionWrite.withClose VersionWrite.withPlace
  cases write.entity <;> cases write.fact <;> cases write.closing <;> rfl

theorem Intact.effect {db db' : Database} {clock : Instant} (h : Intact db)
    (he : Effect db clock db') : Intact db' := by
  cases he with
  | recorded write happ hplaced hclock hlinks =>
    refine ⟨h.sound.apply happ, ?_, ?_, ?_⟩
    · intro f hf
      rw [apply_facts, List.mem_append] at hf
      rw [apply_entities]
      rcases hf with hf | hf
      · obtain ⟨e, he, hkeys⟩ := h.entityOf f hf
        exact ⟨e, List.mem_append_left _ he, hkeys⟩
      · exact hplaced.factEntity f (Option.mem_toList.mp hf)
    · intro s hs
      rw [apply_snapshotFacts] at hs
      obtain ⟨v, hv, horg, hid⟩ := h.versionOf s hs
      exact ⟨touched write v, touched_mem_apply hv, by simpa using horg, by simpa using hid⟩
    · rw [apply_decisionFacts, apply_decisions]
      exact h.decisionOf
  | linked links hlinks =>
    exact ⟨sound_of_rows h.sound rfl rfl, h.entityOf, h.versionOf, h.decisionOf⟩
  | revoked write => exact ⟨Sound.revoke h.sound write, h.entityOf, h.versionOf, h.decisionOf⟩
  | captured snapshot facts hfresh hfacts =>
    refine ⟨sound_of_rows h.sound rfl rfl, h.entityOf, ?_, h.decisionOf⟩
    intro s hs
    rcases List.mem_append.mp hs with hs | hs
    · exact h.versionOf s hs
    · exact (hfacts s hs).2
  | decided decision relied hfresh =>
    refine ⟨sound_of_rows h.sound rfl rfl, h.entityOf, h.versionOf, ?_⟩
    intro r hr
    rcases List.mem_append.mp hr with hr | hr
    · obtain ⟨d, hd, hid⟩ := h.decisionOf r hr
      exact ⟨d, List.mem_append_left _ hd, hid⟩
    · obtain ⟨versionId, -, rfl⟩ := List.mem_map.mp hr
      exact ⟨decision, List.mem_append_right _ (by simp), rfl⟩

theorem Intact.perform {rt : Runtime} {db : Database} (h : Intact db) (call : Call) :
    Intact (perform rt db call) := by
  unfold Ledger.perform
  split
  · rename_i db' hexecute
    exact h.effect (execute_effect h.sound hexecute)
  · exact h

/-- Users, memberships, sources and evidence, and nothing recorded yet. -/
structure Blank (db : Database) : Prop where
  initial : Replay.Initial db
  snapshotFacts : db.snapshotFacts = []
  decisionFacts : db.decisionFacts = []

theorem Blank.intact {db : Database} (h : Blank db) : Intact db :=
  ⟨h.initial.sound, by simp [h.initial.facts], by simp [h.snapshotFacts], by simp [h.decisionFacts]⟩

def ledger (rt : Runtime) : Transition.System Database Call :=
  ⟨Blank, fun db call => some (perform rt db call)⟩

theorem reachable_intact {rt : Runtime} {db : Database} (h : (ledger rt).Reachable db) :
    Intact db := by
  refine (ledger rt).reachable_invariant Intact (fun _ hblank => hblank.intact) ?_ h
  intro db call db' hdb hstep
  obtain rfl := Option.some.inj hstep
  exact hdb.perform call

theorem reachable_performAll {rt : Runtime} {db : Database} (h : (ledger rt).Reachable db)
    (calls : List Call) : (ledger rt).Reachable (performAll rt db calls) := by
  induction calls generalizing db with
  | nil => exact h
  | cons call calls ih =>
    have hrun : (ledger rt).run db [call] = some (perform rt db call) := rfl
    exact ih (Transition.System.Reachable.extend (ledger rt) h hrun)

/-- A text score for every version and no embeddings. -/
def exampleIndex : SearchIndex :=
  ⟨"hash-v1", fun _ => none, fun _ _ => some 1, fun _ _ _ => none⟩

/-- One version recorded at 10, and a context captured at 30. -/
def exampleCalls (knownAt : Option Instant) : List Call :=
  [⟨10, .record exampleContext (exampleCommand true 0) ⟨10, 11, 12⟩⟩,
   ⟨30, .capture exampleContext (exampleQuery knownAt) 30 exampleIndex 40⟩]

theorem exampleDatabase_blank : Blank exampleDatabase := ⟨⟨rfl, rfl, rfl⟩, rfl, rfl⟩

def exampleLedger (rt : Runtime) (knownAt : Option Instant) : Database :=
  performAll rt exampleDatabase (exampleCalls knownAt)

theorem exampleLedger_reachable (rt : Runtime) (knownAt : Option Instant) :
    (ledger rt).Reachable (exampleLedger rt knownAt) :=
  reachable_performAll ⟨exampleDatabase, [], exampleDatabase_blank, rfl⟩ _

/-- A decision on that context that relies on its one fact. -/
def exampleDecision (outcome : Outcome) : RecordDecision where
  snapshotId := 40
  action := "raise_limit"
  outcome := outcome
  reliedOn := [12]
  rationale := none
  agent := none

end ContextLedger.Ledger

import ContextLedger.Ledger
import ContextLedger.TenantRestriction

/-!
Organizations do not see or touch each other. Every reading method answers from the
rows of its own organization, so two databases that agree on these give the same
answer or the same error, for identifiers of anybody. Every accepted write adds or
closes rows of its own organization and leaves the part of any other as it was.
-/
namespace ContextLedger.TenantNoninterference

open Values Validation Authorization Schema Facts Reference TemporalEngine Decisions
open EvidenceCapture Revocations ImpactReports ServiceReads TenantRestriction
open Recording (findFact_mem locate_eq_ok linkEvidence_mem)
open Ledger (recordDecision_eq_ok)

/-- The questions of the reading methods. -/
inductive Read where
  | factsAt (entityType externalId : String) (validAt knownAt : Option Datetime)
  | history (factId : Uuid) (knownAt : Option Datetime)
  | changesBetween (entityType externalId : String) (start finish : Datetime)
      (knownAt : Option Datetime)
  | lineage (versionId : Uuid)
  | entityTimeline (entityType externalId : String) (knownAt : Option Datetime)
  | receipt (session : Session) (decisionId : Uuid)
  | decisionsRelyingOn (versionId : Uuid)
  | impact (question : Question)

inductive Answer where
  | facts (facts : List ResolvedFact)
  | versions (versions : List VersionSnapshot)
  | changes (changes : List FactChange)
  | lineage (lineage : Lineage)
  | timeline (entries : List TimelineEntry)
  | receipt (receipt : DecisionReceipt)
  | decisions (ids : List Uuid)
  | reports (reports : List RevocationReport)

/-- `impact_of_fact`, `impact_of_version` and `list_revocations`, alone. -/
def impact (db : Database) (ctx : TenantContext) (question : Question) :
    Result (List RevocationReport) := do
  let question ← question.check
  let visible ← readable db ctx
  let revocations ← findRevocations db ctx visible question
  revocations.mapM (reportOf db ctx.organizationId)

def answer (rt : Runtime) (clock : Instant) (ctx : TenantContext) (db : Database) :
    Read → Result Answer
  | .factsAt entityType externalId validAt knownAt =>
    (factsAt rt db ctx entityType externalId validAt knownAt clock).map .facts
  | .history factId knownAt => (history db ctx factId knownAt).map .versions
  | .changesBetween entityType externalId start finish knownAt =>
    (changesBetween rt db ctx entityType externalId start finish knownAt).map .changes
  | .lineage versionId => (lineage db ctx versionId).map .lineage
  | .entityTimeline entityType externalId knownAt =>
    (entityTimeline rt db ctx entityType externalId knownAt).map .timeline
  | .receipt session decisionId => (receipt rt session ctx decisionId db).map .receipt
  | .decisionsRelyingOn versionId => (decisionsRelyingOn db ctx versionId).map .decisions
  | .impact question => (impact db ctx question).map .reports

section Reads

variable (rt : Runtime) (ctx : TenantContext) (db : Database)

theorem factsAt_restrict (entityType externalId : String) (validAt knownAt : Option Datetime)
    (clock : Instant) :
    factsAt rt (restrict ctx.organizationId db) ctx entityType externalId validAt knownAt clock =
      factsAt rt db ctx entityType externalId validAt knownAt clock := by
  unfold factsAt
  simp only [requirePermission_restrict, findEntity_restrict, factsValidAt_restrict]

theorem listVersions_restrict (factId : Uuid) :
    listVersions (restrict ctx.organizationId db) ctx.organizationId factId =
      listVersions db ctx.organizationId factId := by
  unfold listVersions
  rw [versionsOf_restrict]

theorem history_restrict (factId : Uuid) (knownAt : Option Datetime) :
    history (restrict ctx.organizationId db) ctx factId knownAt =
      history db ctx factId knownAt := by
  unfold history
  simp only [requirePermission_restrict, getFact_restrict, listVersions_restrict]

theorem requireEntity_restrict (entityType externalId : String) :
    requireEntity rt (restrict ctx.organizationId db) ctx.organizationId entityType externalId =
      requireEntity rt db ctx.organizationId entityType externalId := by
  unfold requireEntity
  simp only [findEntity_restrict]

theorem changesBetween_restrict (entityType externalId : String) (start finish : Datetime)
    (knownAt : Option Datetime) :
    changesBetween rt (restrict ctx.organizationId db) ctx entityType externalId start finish
        knownAt = changesBetween rt db ctx entityType externalId start finish knownAt := by
  unfold changesBetween
  simp only [requirePermission_restrict, requireEntity_restrict, entityVersions_restrict]

theorem lineage_restrict (versionId : Uuid) :
    lineage (restrict ctx.organizationId db) ctx versionId = lineage db ctx versionId := by
  unfold lineage
  simp only [requirePermission_restrict, getVersion_restrict, listVersions_restrict]

theorem entityTimeline_restrict (entityType externalId : String) (knownAt : Option Datetime) :
    entityTimeline rt (restrict ctx.organizationId db) ctx entityType externalId knownAt =
      entityTimeline rt db ctx entityType externalId knownAt := by
  unfold entityTimeline
  simp only [requirePermission_restrict, requireEntity_restrict, entityVersions_restrict]

theorem receiptFact_restrict (snapshot : ContextSnapshot) (relied : List Uuid)
    (visible : List PrivacyScope) (row : SnapshotFactRow) :
    receiptFact (restrict ctx.organizationId db) ctx.organizationId snapshot relied visible row =
      receiptFact db ctx.organizationId snapshot relied visible row := by
  unfold receiptFact receiptEvidence
  simp only [evidenceForVersion_restrict, revokedAtOf_restrict]

theorem receipt_restrict (session : Session) (decisionId : Uuid) :
    receipt rt session ctx decisionId (restrict ctx.organizationId db) =
      receipt rt session ctx decisionId db := by
  have hfacts (snapshot : ContextSnapshot) (relied : List Uuid) (visible : List PrivacyScope) :
      receiptFact (restrict ctx.organizationId db) ctx.organizationId snapshot relied visible =
        receiptFact db ctx.organizationId snapshot relied visible :=
    funext fun row => receiptFact_restrict ctx db snapshot relied visible row
  unfold receipt
  simp only [requirePermission_restrict, getDecision_restrict, getSnapshot_restrict,
    snapshotRows_restrict, reliedOn_restrict, hfacts]

theorem decisionsRelyingOn_restrict (versionId : Uuid) :
    decisionsRelyingOn (restrict ctx.organizationId db) ctx versionId =
      decisionsRelyingOn db ctx versionId := by
  have hdecisions : ((restrict ctx.organizationId db).decisions.filter fun d =>
      d.organizationId == ctx.organizationId) =
        db.decisions.filter fun d => d.organizationId == ctx.organizationId :=
    filter_filter_of_imp _ fun _ h => h
  have hrows : (((restrict ctx.organizationId db).decisions.filter fun d =>
      d.organizationId == ctx.organizationId).flatMap fun d =>
        ((restrict ctx.organizationId db).decisionFacts.filter fun f =>
          f.organizationId == d.organizationId && f.decisionId == d.id &&
            f.factVersionId == versionId).map fun _ => d) =
      (db.decisions.filter fun d => d.organizationId == ctx.organizationId).flatMap fun d =>
        (db.decisionFacts.filter fun f => f.organizationId == d.organizationId &&
          f.decisionId == d.id && f.factVersionId == versionId).map fun _ => d := by
    rw [hdecisions]
    refine List.flatMap_congr fun d hd => congrArg (List.map _)
      (filter_filter_of_imp _ fun f h => ?_)
    simp only [Bool.and_eq_true] at h
    rw [← beq_iff_eq.mp (List.mem_filter.mp hd).2]
    exact h.1.1
  unfold decisionsRelyingOn
  simp only [requirePermission_restrict, hrows]

theorem reportOf_restrict (revocation : FactRevocation) :
    reportOf (restrict ctx.organizationId db) ctx.organizationId revocation =
      reportOf db ctx.organizationId revocation := by
  unfold reportOf
  simp only [detailsOf_restrict, storedImpacts_restrict, decisionsWith_restrict]

theorem impact_restrict (question : Question) :
    impact (restrict ctx.organizationId db) ctx question = impact db ctx question := by
  have hreadable : readable (restrict ctx.organizationId db) ctx = readable db ctx := by
    unfold readable
    simp only [requirePermission_restrict]
  have hfind (visible : List PrivacyScope) (question : Question) :
      findRevocations (restrict ctx.organizationId db) ctx visible question =
        findRevocations db ctx visible question := by
    cases question <;>
      simp only [findRevocations, getFact_restrict, visibleRevocations_restrict]
  have hreport : reportOf (restrict ctx.organizationId db) ctx.organizationId =
      reportOf db ctx.organizationId := funext (reportOf_restrict ctx db)
  unfold impact
  simp only [hreadable, hfind, hreport]

/-- A read answers from the rows of its organization alone. -/
theorem answer_restrict (clock : Instant) (read : Read) :
    answer rt clock ctx (restrict ctx.organizationId db) read = answer rt clock ctx db read := by
  cases read with
  | factsAt entityType externalId validAt knownAt =>
    rw [answer, factsAt_restrict, ← answer]
  | history factId knownAt => rw [answer, history_restrict, ← answer]
  | changesBetween entityType externalId start finish knownAt =>
    rw [answer, changesBetween_restrict, ← answer]
  | lineage versionId => rw [answer, lineage_restrict, ← answer]
  | entityTimeline entityType externalId knownAt =>
    rw [answer, entityTimeline_restrict, ← answer]
  | receipt session decisionId => rw [answer, receipt_restrict, ← answer]
  | decisionsRelyingOn versionId => rw [answer, decisionsRelyingOn_restrict, ← answer]
  | impact question => rw [answer, impact_restrict, ← answer]

end Reads

/-- The writes of the services; the identifiers are the ones the call draws. -/
inductive Write where
  | recordVersion (command : RecordFactVersion) (ids : FreshIds)
  | captureEvidence (command : CaptureEvidence) (id : Uuid)
  | attach (versionId evidenceId : Uuid) (relation : EvidenceRelation)
  | recordDecision (command : RecordDecision) (id : Uuid)
  | revoke (factId : Uuid) (versionId : Option Uuid) (reason : String) (id : Uuid)

/-- The database after a write that is accepted. -/
def perform (rt : Runtime) (clock : Instant) (ctx : TenantContext) (db : Database) :
    Write → Result Database
  | .recordVersion command ids => (recordVersion rt ctx command clock ids db).map Prod.snd
  | .captureEvidence command id => (captureEvidence rt ctx command clock id db).map Prod.snd
  | .attach versionId evidenceId relation =>
    (attach ctx versionId evidenceId relation clock db).map Prod.snd
  | .recordDecision command id => (recordDecision rt ctx command clock id db).map Prod.fst
  | .revoke factId versionId reason id =>
    (revoke ctx factId versionId reason clock id db).map Prod.snd

section Writes

variable {rt : Runtime} {clock : Instant} {ctx : TenantContext} {db db' : Database} {other : Uuid}

/-- Every row of a write belongs to one organization. -/
structure OwnRows (org : Uuid) (write : VersionWrite) : Prop where
  entity : ∀ e, write.entity = some e → e.organizationId = org
  fact : ∀ f, write.fact = some f → f.organizationId = org
  version : write.version.organizationId = org
  contradiction : ∀ c, write.contradiction = some c → c.organizationId = org
  links : ∀ l ∈ write.links, l.organizationId = org

theorem OwnRows.restrict_apply {org : Uuid} {write : VersionWrite} (h : OwnRows org write)
    (hother : org ≠ other) : restrict other (write.apply db) = restrict other db := by
  have hplace : restrict other (write.withPlace db) = restrict other db := by
    unfold VersionWrite.withPlace
    cases hentity : write.entity with
    | none =>
      cases hfact : write.fact with
      | none => rfl
      | some f => exact restrict_addFact (by rw [h.fact f hfact]; exact hother)
    | some e =>
      have hadded : restrict other (db.addEntity e) = restrict other db :=
        restrict_addEntity (by rw [h.entity e hentity]; exact hother)
      cases hfact : write.fact with
      | none => exact hadded
      | some f =>
        exact (restrict_addFact (by rw [h.fact f hfact]; exact hother)).trans hadded
  have hclose : restrict other (write.withClose (write.withPlace db)) = restrict other db := by
    unfold VersionWrite.withClose
    cases write.closing with
    | none => exact hplace
    | some c => exact (restrict_closeVersion _ (by rw [h.version]; exact hother)).trans hplace
  have hversion : restrict other ((write.withClose (write.withPlace db)).addVersion write.version) =
      restrict other db :=
    (restrict_addVersion (by rw [h.version]; exact hother)).trans hclose
  refine (restrict_addRemarks _ ?_ ?_).trans hversion
  · intro c hc
    rw [h.contradiction c (Option.mem_toList.mp hc)]
    exact hother
  · intro l hl
    rw [h.links l hl]
    exact hother

theorem findPlace_own (db : Database) (org : Uuid) (d : Draft) (source : FactSource)
    (authority : Authority) (entityId factId : Uuid) :
    ((findPlace db org d source authority entityId factId).newEntity = true →
      (findPlace db org d source authority entityId factId).entity.organizationId = org) ∧
    (findPlace db org d source authority entityId factId).fact.organizationId = org := by
  constructor
  · intro hnew
    simp only [findPlace, Option.isNone_iff_eq_none] at hnew ⊢
    rw [hnew]
    rfl
  · simp only [findPlace]
    cases hfact : findFact db org _ _ with
    | none => rfl
    | some f => exact (findFact_mem hfact).2.1

theorem recordVersion_own {command : RecordFactVersion} {ids : FreshIds} {v : FactVersion}
    (h : recordVersion rt ctx command clock ids db = .ok (v, db')) :
    ∃ write, OwnRows ctx.organizationId write ∧ db' = write.apply db := by
  unfold recordVersion at h
  obtain ⟨d, -, h⟩ := bind_eq_ok.mp h
  obtain ⟨place, hlocate, h⟩ := bind_eq_ok.mp h
  obtain ⟨plan, -, h⟩ := bind_eq_ok.mp h
  obtain ⟨write, hwrite, h⟩ := bind_eq_ok.mp h
  obtain ⟨-, rfl⟩ := Prod.mk.inj (Except.ok.inj h)
  obtain ⟨source, authority, -, rfl, -⟩ := locate_eq_ok hlocate
  obtain ⟨hentity, hfact⟩ := findPlace_own db ctx.organizationId d source authority ids.entity
    ids.fact
  refine ⟨write, ?_, rfl⟩
  unfold writeVersion at hwrite
  cases hvalue : Jsonb.store d.value.1 with
  | none =>
    rw [hvalue] at hwrite
    exact absurd hwrite (by simp)
  | some value =>
    simp only [hvalue] at hwrite
    split at hwrite
    · exact absurd hwrite (by simp)
    · obtain ⟨links, hlinks, rfl⟩ := map_eq_ok.mp hwrite
      refine ⟨?_, ?_, rfl, ?_, fun l hl => (linkEvidence_mem hlinks hl).1⟩
      · intro e he
        obtain ⟨hnew, he⟩ := Option.ite_none_right_eq_some.mp he
        rw [← Option.some.inj he]
        exact hentity hnew
      · intro f hf
        obtain ⟨-, hf⟩ := Option.ite_none_right_eq_some.mp hf
        rw [← Option.some.inj hf]
        exact hfact
      · intro c hc
        obtain ⟨previous, -, hc⟩ := Option.bind_eq_some_iff.mp hc
        obtain ⟨reason, -, rfl⟩ := Option.map_eq_some_iff.mp hc
        rfl

theorem captureEvidence_restrict {command : CaptureEvidence} {id : Uuid}
    {captured : CapturedEvidence} (hother : ctx.organizationId ≠ other)
    (h : captureEvidence rt ctx command clock id db = .ok (captured, db')) :
    restrict other db' = restrict other db := by
  unfold captureEvidence at h
  obtain ⟨normalized, -, h⟩ := bind_eq_ok.mp h
  obtain ⟨metadata, -, h⟩ := bind_eq_ok.mp h
  obtain ⟨uri, -, h⟩ := bind_eq_ok.mp h
  obtain ⟨capturedAt, -, h⟩ := bind_eq_ok.mp h
  obtain ⟨role, -, h⟩ := bind_eq_ok.mp h
  cases hsource : getSource db ctx.organizationId command.sourceId with
  | none =>
    rw [hsource] at h
    exact absurd h (by simp [notFound])
  | some source =>
    simp only [hsource] at h
    split at h
    · exact absurd h (by simp)
    · split_ifs at h with hnul
      unfold capture at h
      split at h
      · obtain ⟨-, rfl⟩ := Prod.mk.inj (Except.ok.inj h)
        rfl
      · split at h
        · exact absurd h (by simp)
        · obtain ⟨-, rfl⟩ := Prod.mk.inj (Except.ok.inj h)
          exact restrict_addEvidence hother

theorem attach_restrict {versionId evidenceId : Uuid} {relation : EvidenceRelation} {added : Bool}
    (hother : ctx.organizationId ≠ other)
    (h : attach ctx versionId evidenceId relation clock db = .ok (added, db')) :
    restrict other db' = restrict other db := by
  unfold attach at h
  obtain ⟨role, -, h⟩ := bind_eq_ok.mp h
  obtain ⟨links, hlinks, h⟩ := bind_eq_ok.mp h
  obtain ⟨-, rfl⟩ := Prod.mk.inj (Except.ok.inj h)
  refine restrict_addLinks db fun l hl => ?_
  rw [(linkEvidence_mem hlinks hl).1]
  exact hother

theorem revoke_restrict {factId : Uuid} {versionId : Option Uuid} {reason : String} {id : Uuid}
    {revoked : FactRevocation} (hother : ctx.organizationId ≠ other)
    (h : revoke ctx factId versionId reason clock id db = .ok (revoked, db')) :
    restrict other db' = restrict other db := by
  unfold revoke at h
  obtain ⟨request, -, h⟩ := bind_eq_ok.mp h
  obtain ⟨role, -, h⟩ := bind_eq_ok.mp h
  obtain ⟨write, hwrite, h⟩ := bind_eq_ok.mp h
  obtain ⟨-, rfl⟩ := Prod.mk.inj (Except.ok.inj h)
  obtain ⟨v, -, hwrite⟩ := bind_eq_ok.mp hwrite
  obtain rfl := Except.ok.inj hwrite
  refine restrict_addRevocation hother fun i hi => ?_
  obtain ⟨entry, -, rfl⟩ := List.mem_map.mp hi
  exact hother

/-- A write that is accepted leaves the part of every other organization as it was. -/
theorem perform_restrict {write : Write} (hother : ctx.organizationId ≠ other)
    (h : perform rt clock ctx db write = .ok db') : restrict other db' = restrict other db := by
  cases write with
  | recordVersion command ids =>
    rw [perform, map_eq_ok] at h
    obtain ⟨⟨v, db''⟩, hrecord, rfl⟩ := h
    obtain ⟨write, hown, rfl⟩ := recordVersion_own hrecord
    exact hown.restrict_apply hother
  | captureEvidence command id =>
    rw [perform, map_eq_ok] at h
    obtain ⟨⟨captured, db''⟩, hcapture, rfl⟩ := h
    exact captureEvidence_restrict hother hcapture
  | attach versionId evidenceId relation =>
    rw [perform, map_eq_ok] at h
    obtain ⟨⟨added, db''⟩, hattach, rfl⟩ := h
    exact attach_restrict hother hattach
  | recordDecision command id =>
    rw [perform, map_eq_ok] at h
    obtain ⟨⟨db'', receipt⟩, hdecide, rfl⟩ := h
    obtain ⟨snapshot, relied, agent, action, stored, rationale, -, -, -, rfl, -⟩ :=
      recordDecision_eq_ok hdecide
    exact restrict_addDecision hother
  | revoke factId versionId reason id =>
    rw [perform, map_eq_ok] at h
    obtain ⟨⟨revoked, db''⟩, hrevoke, rfl⟩ := h
    exact revoke_restrict hother hrevoke

end Writes

/-- A read of an organization gives the same on databases that agree on that
organization, and a write of it does not change the part of any other. -/
theorem tenant_noninterference (rt : Runtime) (clock : Instant) (ctx : TenantContext) :
    (∀ db db' : Database, restrict ctx.organizationId db = restrict ctx.organizationId db' →
        ∀ read, answer rt clock ctx db read = answer rt clock ctx db' read) ∧
      ∀ (db db' : Database) (write : Write), perform rt clock ctx db write = .ok db' →
        ∀ other, other ≠ ctx.organizationId → restrict other db' = restrict other db := by
  constructor
  · intro db db' hagree read
    rw [← answer_restrict rt ctx db, ← answer_restrict rt ctx db', hagree]
  · intro db db' write h other hother
    exact perform_restrict hother.symm h

/-- One version of organization 1, and revocations of others. -/
def exampleNeighbours (revocations : List FactRevocation) : Database :=
  { exampleDatabase with
    entities := [⟨10, 1, "customer", "42"⟩]
    facts := [⟨11, 1, 10, "status"⟩]
    versions := [⟨12, 1, 11, 1, .bool true, 3, 0, none, 0, 5, none, none, 50, 900, .public⟩]
    revocations }

/-- Organization 9 has revoked a version that has the same identifier. -/
def exampleForeign : List FactRevocation := [⟨70, 9, 12, "wrong", 8, none, 6⟩]

theorem tenant_noninterference_example :
    (∀ read, answer exampleRuntime 20 exampleContext (exampleNeighbours []) read =
        answer exampleRuntime 20 exampleContext (exampleNeighbours exampleForeign) read) ∧
      ∃ db', perform exampleRuntime 20 exampleContext (exampleNeighbours exampleForeign)
          (.revoke 11 none "wrong" 50) = .ok db' ∧ db'.revocations.length = 2 ∧
        restrict 9 db' = restrict 9 (exampleNeighbours exampleForeign) := by
  obtain ⟨hreads, hwrites⟩ := tenant_noninterference exampleRuntime 20 exampleContext
  refine ⟨hreads _ _ rfl, ?_⟩
  have haccepted : ((perform exampleRuntime 20 exampleContext (exampleNeighbours exampleForeign)
      (.revoke 11 none "wrong" 50)).toOption.any fun db' => db'.revocations.length == 2) = true := by
    decide +kernel
  obtain ⟨db', hdb', hlength⟩ := (Option.any_eq_true _ _).mp haccepted
  cases hperform : perform exampleRuntime 20 exampleContext (exampleNeighbours exampleForeign)
      (.revoke 11 none "wrong" 50) with
  | error failure =>
    rw [hperform] at hdb'
    exact absurd hdb' (by simp [Except.toOption])
  | ok written =>
    rw [hperform] at hdb'
    obtain rfl := Option.some.inj hdb'
    exact ⟨written, rfl, beq_iff_eq.mp hlength, hwrites _ _ _ hperform 9 (by decide)⟩

end ContextLedger.TenantNoninterference

import ContextLedger.ImpactExactness

/-!
Whether an impact report agrees with the times in it. A decision is stored with a
revocation when it had committed before the impacts were read; its time is the
clock reading inside its transaction, and the time of the revocation is the begin
time of another. The two orders agree in every run in which the clock does not step
back, no decision commits under a revocation that began before its clock reading and
has yet to read its impacts, and no decision with a clock reading before a revocation
began is still open when that revocation reads its impacts.
-/
namespace ContextLedger.ImpactTimes

open Values Authorization Schema Facts Retrieval Decisions Revocations ImpactReports
open DecisionWorld ImpactTables ImpactExactness Processes

/-- A decision that has read its clock and not yet committed. -/
structure Taking where
  org : Uuid
  snapshotId : Uuid
  decidedAt : Instant

/-- A revocation that has begun and not yet read its impacts. -/
structure Pending where
  org : Uuid
  factId : Uuid
  now : Instant

def taking : Txn → Option Taking
  | .decision ctx _ (.stamped snapshot _ _ decidedAt) =>
    some ⟨ctx.organizationId, snapshot.id, decidedAt⟩
  | .decision _ _ (.written write) =>
    some ⟨write.decision.organizationId, write.decision.snapshotId, write.decision.decidedAt⟩
  | _ => none

def pending : Txn → Option Pending
  | .revoke ctx now request .begun => some ⟨ctx.organizationId, request.factId, now⟩
  | .revoke ctx now request (.authorized _) => some ⟨ctx.organizationId, request.factId, now⟩
  | .revoke ctx now request (.locked _) => some ⟨ctx.organizationId, request.factId, now⟩
  | .revoke ctx now request (.inserted _) => some ⟨ctx.organizationId, request.factId, now⟩
  | _ => none

/-- The revocation that reads its impacts next. -/
def inserted : Txn → Option FactRevocation
  | .revoke _ _ _ (.inserted r) => some r
  | _ => none

/-- The rows of an open revocation that has read its impacts. -/
def impacting : Txn → Option RevokeWrite
  | .revoke _ _ _ (.reporting write _ _) => some write
  | .revoke _ _ _ (.reported write _ _) => some write
  | _ => none

def holdsVersion (db : Database) (snapshotId versionId : Uuid) : Bool :=
  db.snapshotFacts.any fun s => s.snapshotId == snapshotId && s.factVersionId == versionId

def holdsFact (db : Database) (snapshotId factId : Uuid) : Bool :=
  db.versions.any fun v => v.factId == factId && holdsVersion db snapshotId v.id

/-- No decision commits under a revocation of one of its facts that began before the
decision's clock reading and has yet to read its impacts. -/
def commitsInOrder (w : World) (i : ℕ) : Bool :=
  ((w.txns[i]?).bind taking).all fun t => w.txns.all fun u => (pending u).all fun p =>
    !(p.org == t.org && holdsFact w.db t.snapshotId p.factId) || decide (t.decidedAt ≤ p.now)

/-- No decision on the version with a clock reading before the revocation began is open. -/
def readsInOrder (w : World) (i : ℕ) : Bool :=
  ((w.txns[i]?).bind inserted).all fun r => w.txns.all fun u => (taking u).all fun t =>
    !(t.org == r.organizationId && holdsVersion w.db t.snapshotId r.factVersionId) ||
      decide (r.revokedAt ≤ t.decidedAt)

def orderly (w : World) (e : Event) : Bool :=
  decide (w.clock ≤ e.clock) &&
    match e.action with
    | .commit i => commitsInOrder w i
    | .move i .impacts => readsInOrder w i
    | _ => true

/-- The classification of every decision agrees with its time. -/
def InTime (report : RevocationReport) : Prop :=
  ∀ e ∈ report.decisions,
    (e.decidedAfterRevocation = true → report.revokedAt ≤ e.decidedAt) ∧
    (e.recordedAtRevocation = true → e.decidedAt ≤ report.revokedAt)

/-- The impacts of a revocation split the decisions on its version by time, and the
decisions still open go to the later side. -/
structure Ordered (w : World) (r : FactRevocation) (impacts : List RevocationImpact) : Prop where
  clock : r.revokedAt ≤ w.clock
  stored : ∀ entry ∈ decisionsWith w.db r.organizationId r.factVersionId,
    storedIn impacts r entry.1.id → entry.1.decidedAt ≤ r.revokedAt
  later : ∀ entry ∈ decisionsWith w.db r.organizationId r.factVersionId,
    ¬ storedIn impacts r entry.1.id → r.revokedAt ≤ entry.1.decidedAt
  taken : ∀ u ∈ w.txns, ∀ t, taking u = some t → t.org = r.organizationId →
    holdsVersion w.db t.snapshotId r.factVersionId = true → r.revokedAt ≤ t.decidedAt

structure Timely (w : World) : Prop where
  coherent : Coherent w
  decided : ∀ d ∈ w.db.decisions, d.decidedAt ≤ w.clock
  takings : ∀ u ∈ w.txns, ∀ t, taking u = some t → t.decidedAt ≤ w.clock ∧
    ∃ x ∈ w.db.snapshots, x.id = t.snapshotId
  pendings : ∀ u ∈ w.txns, ∀ p, pending u = some p → p.now ≤ w.clock ∧
    ∀ d ∈ w.db.decisions, d.organizationId = p.org → holdsFact w.db d.snapshotId p.factId = true →
      d.decidedAt ≤ p.now
  chosen : ∀ u ∈ w.txns, ∀ r, inserted u = some r → ∃ p, pending u = some p ∧
    p.org = r.organizationId ∧ p.now = r.revokedAt ∧
    ∃ v ∈ w.db.versions, v.id = r.factVersionId ∧ v.factId = p.factId
  opened : ∀ u ∈ w.txns, ∀ write, impacting u = some write →
    Ordered w write.revocation write.impacts
  filed : ∀ r ∈ w.db.revocations, Ordered w r w.db.impacts
  readings : ∀ u ∈ w.txns, ∀ reading ∈ u.readings, InTime reading.report

/-- What a step of one transaction does to the times it holds. -/
inductive Moved (rt : Runtime) (db : Database) (clock : Instant) (t t' : Txn) (m : Move) : Prop
  | quiet (htaking : ∀ x, taking t' = some x → taking t = some x)
      (hpending : ∀ p, pending t' = some p → pending t = some p) (hinserted : inserted t' = none)
      (himpacting : ∀ write, impacting t' = some write → impacting t = some write)
      (hreadings : ∀ reading ∈ t'.readings, reading ∈ t.readings)
  | stamped (ctx : TenantContext) (d : DecisionDraft) (snapshot : ContextSnapshot)
      (rows : List SnapshotFactRow) (relied : List Uuid)
      (ht : t = .decision ctx d (.read snapshot rows relied))
      (ht' : t' = .decision ctx d (.stamped snapshot rows relied clock))
  | inserted (ctx : TenantContext) (now : Instant) (request : RevokeRequest)
      (role : MembershipRole) (id : Uuid) (r : FactRevocation)
      (ht : t = .revoke ctx now request (.locked role))
      (ht' : t' = .revoke ctx now request (.inserted r))
      (hr : insertRevocation db ctx request role now id = .ok r)
  | impacted (ctx : TenantContext) (now : Instant) (request : RevokeRequest) (r : FactRevocation)
      (hm : m = .impacts) (ht : t = .revoke ctx now request (.inserted r))
      (ht' : t' = .revoke ctx now request (.reporting ⟨r, impactRows db r⟩ db.decisions .asked))
  | listed (ctx : TenantContext) (now : Instant) (request : RevokeRequest) (write : RevokeWrite)
      (seen : List Decision) (details : Details) (stored : List Uuid)
      (ht : t = .revoke ctx now request (.reporting write seen (.compared details stored)))
      (ht' : t' = .revoke ctx now request (.reported write seen ⟨ctx.organizationId,
        write.apply db, assemble write.revocation details stored
          (decisionsWith (write.apply db) ctx.organizationId details.1.id)⟩))
  | read (ctx : TenantContext) (question : Question) (current : FactRevocation)
      (details : Details) (stored : List Uuid) (rest : List FactRevocation)
      (readings : List Reading)
      (ht : t = .reader ctx question (.reporting current (.compared details stored) rest) readings)
      (ht' : t' = .reader ctx question (reportNext rest) (readings ++ [⟨ctx.organizationId, db,
        assemble current details stored (decisionsWith db ctx.organizationId details.1.id)⟩]))

section

variable {rt : Runtime} {db : Database} {clock : Instant} {t t' : Txn} {m : Move}

/-- A transaction that ends holds nothing. -/
theorem moved_rolledBack (failure : Option Failure) : Moved rt db clock t (.rolledBack failure) m :=
  Moved.quiet (fun _ h => absurd h (by simp [taking])) (fun _ h => absurd h (by simp [pending])) rfl
    (fun _ h => absurd h (by simp [impacting])) (fun _ h => absurd h (by simp [Txn.readings]))

theorem moved_orRollBack {α : Type} {result : Result α} {next : α → Txn}
    (h : ∀ a, result = .ok a → Moved rt db clock t (next a) m) :
    Moved rt db clock t (orRollBack result next) m := by
  cases result with
  | error failure => exact moved_rolledBack (some failure)
  | ok a => exact h a rfl

theorem moved_stepCapture {ctx : TenantContext} {phase : CapturePhase}
    (hstep : stepCapture rt db clock ctx phase m = some t') :
    Moved rt db clock (.capture ctx phase) t' m := by
  have hquiet : ∀ next, Moved rt db clock (.capture ctx phase) (.capture ctx next) m := by
    intro next
    refine Moved.quiet ?_ ?_ ?_ ?_ ?_ <;> simp [taking, pending, inserted, impacting, Txn.readings]
  unfold stepCapture at hstep
  split at hstep
  · obtain rfl := Option.some.inj hstep
    exact moved_orRollBack fun _ _ => hquiet _
  · rename_i request validAt knownAt serviceClock index
    obtain rfl := Option.some.inj hstep
    generalize search rt db ctx request serviceClock index = result
    exact moved_orRollBack fun _ _ => hquiet _
  · obtain rfl := Option.some.inj hstep
    exact moved_orRollBack fun _ _ => hquiet _
  · exact absurd hstep (by simp)
  · obtain rfl := Option.some.inj hstep
    exact moved_rolledBack none
  · exact absurd hstep (by simp)

theorem moved_stepDecision {ctx : TenantContext} {d : DecisionDraft} {phase : DecisionPhase}
    (hstep : stepDecision rt db clock ctx d phase m = some t') :
    Moved rt db clock (.decision ctx d phase) t' m := by
  have hquiet : ∀ {next}, taking (.decision ctx d next) = none →
      Moved rt db clock (.decision ctx d phase) (.decision ctx d next) m := by
    intro next hnone
    refine Moved.quiet ?_ ?_ ?_ ?_ ?_
    · rw [hnone]
      simp
    all_goals simp [pending, inserted, impacting, Txn.readings]
  unfold stepDecision at hstep
  split at hstep
  · obtain rfl := Option.some.inj hstep
    exact moved_orRollBack fun _ _ => hquiet rfl
  · obtain rfl := Option.some.inj hstep
    exact moved_orRollBack fun _ _ => hquiet rfl
  · obtain rfl := Option.some.inj hstep
    exact moved_orRollBack fun _ _ => hquiet rfl
  · obtain rfl := Option.some.inj hstep
    exact Moved.stamped ctx d _ _ _ rfl rfl
  · obtain rfl := Option.some.inj hstep
    refine moved_orRollBack fun write hwrite => ?_
    obtain ⟨-, -, horg, hsnapshot, hat⟩ := writeDecision_eq_ok hwrite
    refine Moved.quiet ?_ ?_ ?_ ?_ ?_
    · simp only [taking, horg, hsnapshot, hat]
      exact fun _ h => h
    all_goals simp [pending, inserted, impacting, Txn.readings]
  · exact absurd hstep (by simp)
  · obtain rfl := Option.some.inj hstep
    exact moved_rolledBack none
  · exact absurd hstep (by simp)

theorem moved_stepRevoke {ctx : TenantContext} {now : Instant} {request : RevokeRequest}
    {phase : RevokePhase} (hstep : stepRevoke db ctx now request phase m = some t') :
    Moved rt db clock (.revoke ctx now request phase) t' m := by
  unfold stepRevoke at hstep
  split at hstep
  · obtain rfl := Option.some.inj hstep
    refine moved_orRollBack fun role _ => ?_
    refine Moved.quiet ?_ ?_ ?_ ?_ ?_ <;> simp [taking, pending, inserted, impacting, Txn.readings]
  · obtain rfl := Option.some.inj hstep
    refine Moved.quiet ?_ ?_ ?_ ?_ ?_ <;> simp [taking, pending, inserted, impacting, Txn.readings]
  · obtain rfl := Option.some.inj hstep
    exact moved_orRollBack fun r hr => Moved.inserted ctx now request _ _ r rfl rfl hr
  · obtain rfl := Option.some.inj hstep
    exact Moved.impacted ctx now request _ rfl rfl rfl
  · obtain rfl := Option.some.inj hstep
    refine moved_orRollBack fun details _ => ?_
    refine Moved.quiet ?_ ?_ ?_ ?_ ?_ <;> simp [taking, pending, inserted, impacting, Txn.readings]
  · obtain rfl := Option.some.inj hstep
    refine Moved.quiet ?_ ?_ ?_ ?_ ?_ <;> simp [taking, pending, inserted, impacting, Txn.readings]
  · obtain rfl := Option.some.inj hstep
    exact Moved.listed ctx now request _ _ _ _ rfl rfl
  · exact absurd hstep (by simp)
  · obtain rfl := Option.some.inj hstep
    exact moved_rolledBack none
  · exact absurd hstep (by simp)

theorem moved_stepReader {ctx : TenantContext} {question : Question} {phase : ReaderPhase}
    {readings : List Reading} (hstep : stepReader db ctx question readings phase m = some t') :
    Moved rt db clock (.reader ctx question phase readings) t' m := by
  have hquiet : ∀ next, Moved rt db clock (.reader ctx question phase readings)
      (.reader ctx question next readings) m := by
    intro next
    refine Moved.quiet ?_ ?_ ?_ ?_ ?_ <;> simp [taking, pending, inserted, impacting, Txn.readings]
  unfold stepReader at hstep
  split at hstep
  · obtain rfl := Option.some.inj hstep
    exact moved_orRollBack fun _ _ => hquiet _
  · obtain rfl := Option.some.inj hstep
    exact moved_orRollBack fun _ _ => hquiet _
  · obtain rfl := Option.some.inj hstep
    exact moved_orRollBack fun _ _ => hquiet _
  · obtain rfl := Option.some.inj hstep
    exact hquiet _
  · obtain rfl := Option.some.inj hstep
    exact Moved.read ctx question _ _ _ _ readings rfl rfl
  · exact absurd hstep (by simp)
  · obtain rfl := Option.some.inj hstep
    exact moved_rolledBack none
  · exact absurd hstep (by simp)

theorem stepTxn_moved (hstep : stepTxn rt db clock t m = some t') : Moved rt db clock t t' m := by
  cases t with
  | capture ctx phase => exact moved_stepCapture hstep
  | decision ctx d phase => exact moved_stepDecision hstep
  | revoke ctx now request phase => exact moved_stepRevoke hstep
  | reader ctx question phase readings => exact moved_stepReader hstep
  | rolledBack failure => exact absurd hstep (by simp [stepTxn])

end

theorem holdsVersion_iff {db : Database} {d : Decision} {versionId : Uuid} :
    holdsVersion db d.snapshotId versionId = true ↔ InContext db d versionId := by
  unfold holdsVersion InContext
  simp only [List.any_eq_true, Bool.and_eq_true, beq_iff_eq]

theorem holdsFact_of_version {db : Database} {snapshotId : Uuid} {v : FactVersion}
    (hv : v ∈ db.versions) (h : holdsVersion db snapshotId v.id = true) :
    holdsFact db snapshotId v.factId = true := by
  unfold holdsFact
  rw [List.any_eq_true]
  exact ⟨v, hv, by simp [h]⟩

theorem inTime_assemble {db : Database} {r : FactRevocation} {details : Details}
    {stored : List Uuid} {impacts : List RevocationImpact}
    (hdetails : details.1.id = r.factVersionId)
    (hstored : ∀ id, id ∈ stored ↔ storedIn impacts r id)
    (hbefore : ∀ entry ∈ decisionsWith db r.organizationId r.factVersionId,
      storedIn impacts r entry.1.id → entry.1.decidedAt ≤ r.revokedAt)
    (hafter : ∀ entry ∈ decisionsWith db r.organizationId r.factVersionId,
      ¬ storedIn impacts r entry.1.id → r.revokedAt ≤ entry.1.decidedAt) :
    InTime (assemble r details stored (decisionsWith db r.organizationId details.1.id)) := by
  intro e he
  obtain ⟨entry, hentry, rfl⟩ := List.mem_map.mp he
  rw [hdetails] at hentry
  constructor
  · intro hmark
    have hnot : (!stored.contains entry.1.id) = true := hmark
    refine hafter entry hentry ?_
    rw [← hstored]
    simpa using hnot
  · intro hmark
    have hyes : stored.contains entry.1.id = true := hmark
    refine hbefore entry hentry ?_
    rw [← hstored]
    simpa using hyes

section

variable {w : World} {i : ℕ} {t t' : Txn} {clock : Instant}

/-- Time goes on, and decisions read their clocks no earlier than now. -/
theorem Ordered.move (hclock : w.clock ≤ clock) {r : FactRevocation}
    {impacts : List RevocationImpact} (h : Ordered w r impacts) {txns : List Txn}
    (htakings : ∀ u ∈ txns, ∀ x, taking u = some x →
      (∃ u' ∈ w.txns, taking u' = some x) ∨ w.clock ≤ x.decidedAt) :
    Ordered { w with txns := txns, clock := clock } r impacts := by
  refine ⟨Int.le_trans h.clock hclock, h.stored, h.later, ?_⟩
  intro u hu x hx horg hholds
  rcases htakings u hu x hx with ⟨u', hu', hx'⟩ | hlate
  · exact h.taken u' hu' x hx' horg hholds
  · exact Int.le_trans h.clock hlate

/-- A step that changes what one transaction holds, and nothing committed. -/
theorem Timely.move (h : Timely w) (hclock : w.clock ≤ clock) {txns : List Txn}
    (hcoherent : Coherent { w with txns := txns, clock := clock })
    (htakings : ∀ u ∈ txns, ∀ x, taking u = some x → (∃ u' ∈ w.txns, taking u' = some x) ∨
      (x.decidedAt = clock ∧ ∃ y ∈ w.db.snapshots, y.id = x.snapshotId))
    (hpendings : ∀ u ∈ txns, ∀ p, pending u = some p → (∃ u' ∈ w.txns, pending u' = some p) ∨
      p.now = clock)
    (hchosen : ∀ u ∈ txns, ∀ r, inserted u = some r → u ∈ w.txns ∨ ∃ p, pending u = some p ∧
      p.org = r.organizationId ∧ p.now = r.revokedAt ∧
      ∃ v ∈ w.db.versions, v.id = r.factVersionId ∧ v.factId = p.factId)
    (hopened : ∀ u ∈ txns, ∀ write, impacting u = some write →
      (∃ u' ∈ w.txns, impacting u' = some write) ∨
        Ordered { w with txns := txns, clock := clock } write.revocation write.impacts)
    (hreadings : ∀ u ∈ txns, ∀ reading ∈ u.readings, (∃ u' ∈ w.txns, reading ∈ u'.readings) ∨
      InTime reading.report) :
    Timely { w with txns := txns, clock := clock } := by
  have htaken : ∀ u ∈ txns, ∀ x, taking u = some x →
      (∃ u' ∈ w.txns, taking u' = some x) ∨ w.clock ≤ x.decidedAt := by
    intro u hu x hx
    rcases htakings u hu x hx with hold | ⟨hat, -⟩
    · exact Or.inl hold
    · exact Or.inr (hat ▸ hclock)
  refine ⟨hcoherent, fun d hd => Int.le_trans (h.decided d hd) hclock, ?_, ?_, ?_, ?_, ?_, ?_⟩
  · intro u hu x hx
    rcases htakings u hu x hx with ⟨u', hu', hx'⟩ | ⟨hat, hsnapshot⟩
    · obtain ⟨hle, hsnapshot⟩ := h.takings u' hu' x hx'
      exact ⟨Int.le_trans hle hclock, hsnapshot⟩
    · exact ⟨hat ▸ Int.le_refl _, hsnapshot⟩
  · intro u hu p hp
    rcases hpendings u hu p hp with ⟨u', hu', hp'⟩ | hnow
    · obtain ⟨hle, hdecided⟩ := h.pendings u' hu' p hp'
      exact ⟨Int.le_trans hle hclock, hdecided⟩
    · refine ⟨hnow ▸ Int.le_refl _, ?_⟩
      intro d hd _ _
      rw [hnow]
      exact Int.le_trans (h.decided d hd) hclock
  · intro u hu r hr
    rcases hchosen u hu r hr with hold | hnew
    · exact h.chosen u hold r hr
    · exact hnew
  · intro u hu write hwrite
    rcases hopened u hu write hwrite with ⟨u', hu', hwrite'⟩ | hnew
    · exact (h.opened u' hu' write hwrite').move hclock htaken
    · exact hnew
  · intro r hr
    exact (h.filed r hr).move hclock htaken
  · intro u hu reading hreading
    rcases hreadings u hu reading hreading with ⟨u', hu', hold⟩ | hnew
    · exact h.readings u' hu' reading hold
    · exact hnew

/-- The same for a step of one transaction, by what that transaction holds. -/
theorem Timely.set (h : Timely w) (hclock : w.clock ≤ clock) (ht : w.txns[i]? = some t)
    (hcoherent : Coherent { w with txns := w.txns.set i t', clock := clock })
    (htaking : ∀ x, taking t' = some x → taking t = some x ∨
      (x.decidedAt = clock ∧ ∃ y ∈ w.db.snapshots, y.id = x.snapshotId))
    (hpending : ∀ p, pending t' = some p → pending t = some p)
    (hchosen : ∀ r, inserted t' = some r → ∃ p, pending t' = some p ∧
      p.org = r.organizationId ∧ p.now = r.revokedAt ∧
      ∃ v ∈ w.db.versions, v.id = r.factVersionId ∧ v.factId = p.factId)
    (hopened : ∀ write, impacting t' = some write → impacting t = some write ∨
      Ordered { w with txns := w.txns.set i t', clock := clock } write.revocation write.impacts)
    (hreadings : ∀ reading ∈ t'.readings, reading ∈ t.readings ∨ InTime reading.report) :
    Timely { w with txns := w.txns.set i t', clock := clock } := by
  have hmem := List.mem_of_getElem? ht
  refine h.move hclock hcoherent ?_ ?_ ?_ ?_ ?_
  · intro u hu x hx
    rcases mem_set_cases hu with rfl | ⟨j, -, hj⟩
    · exact (htaking x hx).imp_left fun hold => ⟨t, hmem, hold⟩
    · exact Or.inl ⟨u, List.mem_of_getElem? hj, hx⟩
  · intro u hu p hp
    rcases mem_set_cases hu with rfl | ⟨j, -, hj⟩
    · exact Or.inl ⟨t, hmem, hpending p hp⟩
    · exact Or.inl ⟨u, List.mem_of_getElem? hj, hp⟩
  · intro u hu r hr
    rcases mem_set_cases hu with rfl | ⟨j, -, hj⟩
    · exact Or.inr (hchosen r hr)
    · exact Or.inl (List.mem_of_getElem? hj)
  · intro u hu write hwrite
    rcases mem_set_cases hu with rfl | ⟨j, -, hj⟩
    · exact (hopened write hwrite).imp_left fun hold => ⟨t, hmem, hold⟩
    · exact Or.inl ⟨u, List.mem_of_getElem? hj, hwrite⟩
  · intro u hu reading hreading
    rcases mem_set_cases hu with rfl | ⟨j, -, hj⟩
    · exact (hreadings reading hreading).imp_left fun hold => ⟨t, hmem, hold⟩
    · exact Or.inl ⟨u, List.mem_of_getElem? hj, hreading⟩

/-- The impacts are read in time: decisions that had committed are not later than the
revocation, and those still open are not earlier. -/
theorem ordered_impactRows (h : Timely w) (hclock : w.clock ≤ clock) {ctx : TenantContext}
    {now : Instant} {request : RevokeRequest} {r : FactRevocation}
    (ht : w.txns[i]? = some (.revoke ctx now request (.inserted r)))
    (hreads : readsInOrder w i = true) :
    Ordered { w with
      txns := w.txns.set i (.revoke ctx now request
        (.reporting ⟨r, impactRows w.db r⟩ w.db.decisions .asked))
      clock := clock } r (impactRows w.db r) := by
  have hmem := List.mem_of_getElem? ht
  obtain ⟨p, hp, horg, hnow, v, hv, hvid, hfact⟩ := h.chosen _ hmem r rfl
  obtain ⟨hple, hdecided⟩ := h.pendings _ hmem p hp
  refine ⟨?_, ?_, ?_, ?_⟩
  · rw [← hnow]
    exact Int.le_trans hple hclock
  · intro entry hentry _
    obtain ⟨hd, hdorg, -, hcontext⟩ := (mem_decisionsWith_iff h.coherent.tables).mp hentry
    rw [← hnow]
    refine hdecided entry.1 hd (hdorg.trans horg.symm) ?_
    rw [← hfact]
    refine holdsFact_of_version hv ?_
    rw [hvid]
    exact holdsVersion_iff.mpr hcontext
  · intro entry hentry hnot
    exact absurd ⟨_, mem_impactRows.mpr ⟨entry, hentry, rfl⟩, rfl, rfl⟩ hnot
  · intro u hu x hx hxorg hholds
    rcases mem_set_cases hu with rfl | ⟨j, -, hj⟩
    · exact absurd hx (by simp [taking])
    · unfold readsInOrder at hreads
      rw [ht] at hreads
      have hall := List.all_eq_true.mp hreads u (List.mem_of_getElem? hj)
      rw [hx] at hall
      simpa [hxorg, hholds] using hall

theorem timely_move {rt : Runtime} (h : Timely w) (hclock : w.clock ≤ clock) {m : Move}
    (ht : w.txns[i]? = some t) (hready : w.ready i t m = true)
    (hstep : stepTxn rt w.db clock t m = some t')
    (hreads : m = .impacts → readsInOrder w i = true) :
    Timely { w with txns := w.txns.set i t', clock := clock } := by
  have hcoherent : Coherent { w with txns := w.txns.set i t', clock := clock } :=
    coherent_move h.coherent ht hready hstep
  have hmem := List.mem_of_getElem? ht
  have hgood := h.coherent.good t hmem
  cases stepTxn_moved hstep with
  | quiet htaking hpending hinserted himpacting hreadings =>
    refine h.set hclock ht hcoherent (fun x hx => Or.inl (htaking x hx)) hpending ?_
      (fun write hwrite => Or.inl (himpacting write hwrite))
      (fun reading hreading => Or.inl (hreadings reading hreading))
    intro r hr
    exact absurd (hinserted.symm.trans hr) (by simp)
  | stamped ctx d snapshot rows relied htt htt' =>
    subst htt htt'
    refine h.set hclock ht hcoherent ?_ ?_ ?_ ?_ ?_
    · intro x hx
      obtain rfl := Option.some.inj hx
      exact Or.inr ⟨rfl, snapshot, hgood.1, rfl⟩
    all_goals simp [pending, inserted, impacting, Txn.readings]
  | inserted ctx now request role id r htt htt' hr =>
    subst htt htt'
    obtain ⟨-, -, horg, hnow, v, hv, hvid, hfact⟩ := insertRevocation_eq_ok hr
    refine h.set hclock ht hcoherent ?_ ?_ ?_ ?_ ?_
    · simp [taking]
    · simp [pending]
    · intro r' hr'
      obtain rfl := Option.some.inj hr'
      exact ⟨_, rfl, horg.symm, hnow.symm, v, hv, hvid, hfact⟩
    · simp [impacting]
    · simp [Txn.readings]
  | impacted ctx now request r hm htt htt' =>
    subst htt htt'
    refine h.set hclock ht hcoherent ?_ ?_ ?_ ?_ ?_
    · simp [taking]
    · simp [pending]
    · simp [inserted]
    · intro write hwrite
      obtain rfl := Option.some.inj hwrite
      exact Or.inr (ordered_impactRows h hclock ht (hreads hm))
    · simp [Txn.readings]
  | listed ctx now request write seen details stored htt htt' =>
    subst htt htt'
    obtain ⟨horg, -, hdetails, hstored⟩ := hgood
    have hordered := h.opened _ hmem write rfl
    refine h.set hclock ht hcoherent ?_ ?_ ?_ ?_ ?_
    · simp [taking]
    · simp [pending]
    · simp [inserted]
    · intro write' hwrite'
      exact Or.inl hwrite'
    · intro reading hreading
      rw [List.mem_singleton.mp hreading, ← horg]
      exact Or.inr (inTime_assemble hdetails hstored hordered.stored hordered.later)
  | read ctx question current details stored rest readings htt htt' =>
    subst htt htt'
    obtain ⟨hfound, ⟨hdetails, hstored⟩, -⟩ := hgood
    obtain ⟨hcurrent, horg⟩ := hfound current List.mem_cons_self
    have hordered := h.filed current hcurrent
    refine h.set hclock ht hcoherent ?_ ?_ ?_ ?_ ?_
    · simp [taking]
    · simp [pending]
    · simp [inserted]
    · simp [impacting]
    · intro reading hreading
      rcases List.mem_append.mp hreading with hreading | hreading
      · exact Or.inl hreading
      · rw [List.mem_singleton.mp hreading, ← horg]
        exact Or.inr (inTime_assemble hdetails hstored hordered.stored hordered.later)

theorem impacting_rows {db : Database} {u : Txn} {write : RevokeWrite} (h : Good db u)
    (hwrite : impacting u = some write) :
    ∀ row ∈ write.impacts, row ∈ impactRows db write.revocation := by
  cases u with
  | revoke ctx now request phase =>
    cases phase with
    | reporting write' seen progress =>
      obtain rfl := Option.some.inj hwrite
      exact h.2.1.rows
    | reported write' seen reading =>
      obtain rfl := Option.some.inj hwrite
      exact h.1.rows
    | _ => exact absurd hwrite (by simp [impacting])
  | _ => exact absurd hwrite (by simp [impacting])

/-- A committed transaction holds nothing but its reports. -/
theorem commit_holds {db db' : Database} (h : t.commit db = some (t', db')) :
    taking t' = none ∧ pending t' = none ∧ inserted t' = none ∧ impacting t' = none ∧
      t'.readings = t.readings := by
  unfold Txn.commit at h
  split at h
  · obtain ⟨rfl, -⟩ := Prod.mk.inj (Option.some.inj h)
    exact ⟨rfl, rfl, rfl, rfl, rfl⟩
  · obtain ⟨rfl, -⟩ := Prod.mk.inj (Option.some.inj h)
    exact ⟨rfl, rfl, rfl, rfl, rfl⟩
  · obtain ⟨rfl, -⟩ := Prod.mk.inj (Option.some.inj h)
    exact ⟨rfl, rfl, rfl, rfl, rfl⟩
  · exact absurd h (by simp)

/-- What a commit has to show: the decisions it adds fit the open revocations, the
contexts of other decisions stay, and every revocation keeps its order. -/
theorem Timely.commit (h : Timely w) (hclock : w.clock ≤ clock) (ht : w.txns[i]? = some t)
    {db' : Database} (hcommit : t.commit w.db = some (t', db'))
    (hcoherent : Coherent { db := db', txns := w.txns.set i t', clock := clock })
    (hversions : db'.versions = w.db.versions) (hsnapshots : w.db.snapshots ⊆ db'.snapshots)
    (hdecided : ∀ d ∈ db'.decisions, d ∈ w.db.decisions ∨ taking t =
      some ⟨d.organizationId, d.snapshotId, d.decidedAt⟩)
    (hheld : ∀ d ∈ db'.decisions, ∀ factId, holdsFact db' d.snapshotId factId = true →
      holdsFact w.db d.snapshotId factId = true)
    (hcommits : commitsInOrder w i = true)
    (hopened : ∀ u ∈ w.txns.set i t', ∀ write, impacting u = some write →
      Ordered { db := db', txns := w.txns.set i t', clock := clock } write.revocation
        write.impacts)
    (hfiled : ∀ r ∈ db'.revocations,
      Ordered { db := db', txns := w.txns.set i t', clock := clock } r db'.impacts) :
    Timely { db := db', txns := w.txns.set i t', clock := clock } := by
  obtain ⟨htaking, hpending, hinserted, -, hreadings⟩ := commit_holds hcommit
  have hmem := List.mem_of_getElem? ht
  refine ⟨hcoherent, ?_, ?_, ?_, ?_, hopened, hfiled, ?_⟩
  · intro d hd
    rcases hdecided d hd with hold | hnew
    · exact Int.le_trans (h.decided d hold) hclock
    · exact Int.le_trans (h.takings t hmem _ hnew).1 hclock
  · intro u hu x hx
    rcases mem_set_cases hu with rfl | ⟨j, -, hj⟩
    · exact absurd (htaking.symm.trans hx) (by simp)
    · obtain ⟨hle, y, hy, hid⟩ := h.takings u (List.mem_of_getElem? hj) x hx
      exact ⟨Int.le_trans hle hclock, y, hsnapshots hy, hid⟩
  · intro u hu p hp
    rcases mem_set_cases hu with rfl | ⟨j, -, hj⟩
    · exact absurd (hpending.symm.trans hp) (by simp)
    · have hu' := List.mem_of_getElem? hj
      obtain ⟨hle, hold⟩ := h.pendings u hu' p hp
      refine ⟨Int.le_trans hle hclock, ?_⟩
      intro d hd horg hholds
      rcases hdecided d hd with hmem' | hnew
      · exact hold d hmem' horg (hheld d hd _ hholds)
      · unfold commitsInOrder at hcommits
        rw [ht, Option.bind_some, hnew] at hcommits
        have hall := List.all_eq_true.mp hcommits u hu'
        rw [hp] at hall
        simpa [horg, hheld d hd _ hholds] using hall
  · intro u hu r hr
    rcases mem_set_cases hu with rfl | ⟨j, -, hj⟩
    · exact absurd (hinserted.symm.trans hr) (by simp)
    · show ∃ p, _ ∧ _ ∧ _ ∧ ∃ v ∈ db'.versions, _
      rw [hversions]
      exact h.chosen u (List.mem_of_getElem? hj) r hr
  · intro u hu reading hreading
    rcases mem_set_cases hu with rfl | ⟨j, -, hj⟩
    · exact h.readings t hmem reading (hreadings ▸ hreading)
    · exact h.readings u (List.mem_of_getElem? hj) reading hreading

theorem holdsVersion_capture {write : SnapshotWrite}
    (hfresh : FreshSnapshot w.db write) {x : ContextSnapshot} (hx : x ∈ w.db.snapshots)
    (versionId : Uuid) : holdsVersion (write.apply w.db) x.id versionId =
      holdsVersion w.db x.id versionId := by
  have hnew : (write.facts.any fun s => s.snapshotId == x.id && s.factVersionId == versionId) =
      false := by
    rw [List.any_eq_false]
    intro s hs
    simp [(hfresh.facts s hs).2, (hfresh.fresh x hx).symm]
  show (w.db.snapshotFacts ++ write.facts).any _ = _
  rw [List.any_append, hnew, Bool.or_false]
  rfl

theorem timely_capture (h : Timely w) (hclock : w.clock ≤ clock) {ctx : TenantContext}
    {write : SnapshotWrite} (ht : w.txns[i]? = some (.capture ctx (.written write)))
    (hcommits : commitsInOrder w i = true) :
    Timely { db := write.apply w.db, txns := w.txns.set i (.capture ctx .committed)
             clock := clock } := by
  have hmem := List.mem_of_getElem? ht
  have hfresh : FreshSnapshot w.db write := h.coherent.good _ hmem
  have htables := h.coherent.tables
  have hordered : ∀ {r impacts}, Ordered w r impacts → Ordered
      { db := write.apply w.db, txns := w.txns.set i (.capture ctx .committed), clock := clock }
      r impacts := by
    intro r impacts hr
    refine ⟨Int.le_trans hr.clock hclock, ?_, ?_, ?_⟩
    · intro entry hentry
      exact hr.stored entry ((decisionsWith_capture htables hfresh _ _ entry).mp hentry)
    · intro entry hentry
      exact hr.later entry ((decisionsWith_capture htables hfresh _ _ entry).mp hentry)
    · intro u hu x hx horg hholds
      rcases mem_set_cases hu with rfl | ⟨j, -, hj⟩
      · exact absurd hx (by simp [taking])
      · have hu' := List.mem_of_getElem? hj
        obtain ⟨-, y, hy, hid⟩ := h.takings u hu' x hx
        refine hr.taken u hu' x hx horg ?_
        rw [← hid] at hholds ⊢
        rw [← holdsVersion_capture hfresh hy]
        exact hholds
  refine h.commit hclock ht rfl (coherent_commit h.coherent ht rfl) rfl
    (List.subset_append_left _ _) (fun d hd => Or.inl hd) ?_ hcommits ?_ ?_
  · intro d hd factId hholds
    obtain ⟨y, hy, -, hid⟩ := htables.contextOf d hd
    unfold holdsFact at hholds ⊢
    rw [List.any_eq_true] at hholds ⊢
    obtain ⟨v, hv, hholds⟩ := hholds
    rw [← hid, holdsVersion_capture hfresh hy, hid] at hholds
    exact ⟨v, hv, hholds⟩
  · intro u hu write' hwrite'
    rcases mem_set_cases hu with rfl | ⟨j, -, hj⟩
    · exact absurd hwrite' (by simp [impacting])
    · exact hordered (h.opened u (List.mem_of_getElem? hj) write' hwrite')
  · intro r hr
    exact hordered (h.filed r hr)

theorem timely_decide (h : Timely w) (hclock : w.clock ≤ clock) {ctx : TenantContext}
    {d : DecisionDraft} {write : DecisionWrite}
    (ht : w.txns[i]? = some (.decision ctx d (.written write)))
    (hcommits : commitsInOrder w i = true) :
    Timely { db := write.apply w.db, txns := w.txns.set i (.decision ctx d .committed)
             clock := clock } := by
  have hmem := List.mem_of_getElem? ht
  have hfresh : FreshDecision w.db write := h.coherent.good _ hmem
  have hcoherent : Coherent { db := write.apply w.db
                              txns := w.txns.set i (.decision ctx d .committed)
                              clock := clock } := coherent_commit h.coherent ht rfl
  have hnew : ∀ x ∈ (write.apply w.db).decisions, x ∈ w.db.decisions ∨ x = write.decision := by
    intro x hx
    rcases List.mem_append.mp hx with hx | hx
    · exact Or.inl hx
    · exact Or.inr (List.mem_singleton.mp hx)
  have hordered : ∀ {r impacts}, Ordered w r impacts →
      (∀ id, storedIn impacts r id → ∃ x ∈ w.db.decisions, x.id = id) → Ordered
      { db := write.apply w.db, txns := w.txns.set i (.decision ctx d .committed), clock := clock }
      r impacts := by
    intro r impacts hr hknown
    refine ⟨Int.le_trans hr.clock hclock, ?_, ?_, ?_⟩
    · intro entry hentry hstored
      rcases hnew entry.1 (mem_decisionsWith.mp hentry).1 with hold | heq
      · exact hr.stored entry ((decisionsWith_decide hfresh hold).mp hentry) hstored
      · obtain ⟨x, hx, hid⟩ := hknown entry.1.id hstored
        exact absurd (hid.trans (congrArg Decision.id heq)) (hfresh.fresh x hx)
    · intro entry hentry hnot
      rcases hnew entry.1 (mem_decisionsWith.mp hentry).1 with hold | heq
      · exact hr.later entry ((decisionsWith_decide hfresh hold).mp hentry) hnot
      · obtain ⟨-, horg, -, hcontext⟩ := (mem_decisionsWith_iff hcoherent.tables).mp hentry
        rw [heq] at horg hcontext ⊢
        exact hr.taken _ hmem _ rfl horg (holdsVersion_iff.mpr hcontext)
    · intro u hu x hx horg hholds
      rcases mem_set_cases hu with rfl | ⟨j, -, hj⟩
      · exact absurd hx (by simp [taking])
      · exact hr.taken u (List.mem_of_getElem? hj) x hx horg hholds
  have hrow : ∀ {r row}, row ∈ impactRows w.db r → ∃ x ∈ w.db.decisions, x.id = row.decisionId := by
    intro r row hrow
    obtain ⟨entry, hentry, rfl⟩ := mem_impactRows.mp hrow
    exact ⟨entry.1, (mem_decisionsWith.mp hentry).1, rfl⟩
  refine h.commit hclock ht rfl hcoherent rfl (List.Subset.refl _) ?_ (fun _ _ _ hholds => hholds)
    hcommits ?_ ?_
  · intro x hx
    rcases hnew x hx with hold | rfl
    · exact Or.inl hold
    · exact Or.inr rfl
  · intro u hu write' hwrite'
    rcases mem_set_cases hu with rfl | ⟨j, -, hj⟩
    · exact absurd hwrite' (by simp [impacting])
    · have hu' := List.mem_of_getElem? hj
      refine hordered (h.opened u hu' write' hwrite') ?_
      rintro id ⟨row, hmemRow, -, rfl⟩
      exact hrow (impacting_rows (h.coherent.good u hu') hwrite' row hmemRow)
  · intro r hr
    refine hordered (h.filed r hr) ?_
    rintro id ⟨row, hmemRow, -, rfl⟩
    obtain ⟨r', -, himpact⟩ := h.coherent.tables.impactOf row hmemRow
    exact hrow himpact

theorem timely_revoke (h : Timely w) (hclock : w.clock ≤ clock) {ctx : TenantContext}
    {now : Instant} {request : RevokeRequest} {write : RevokeWrite} {seen : List Decision}
    {reading : Reading}
    (ht : w.txns[i]? = some (.revoke ctx now request (.reported write seen reading)))
    (hcommits : commitsInOrder w i = true) :
    Timely { db := write.apply w.db
             txns := w.txns.set i (.revoke ctx now request (.committed write seen reading))
             clock := clock } := by
  have hmem := List.mem_of_getElem? ht
  obtain ⟨himpacting, -⟩ := h.coherent.good _ hmem
  have hgrows := grows_revoke himpacting.toFreshRevocation himpacting.rows
  have hordered : ∀ {r impacts impacts'}, Ordered w r impacts →
      (∀ id, storedIn impacts' r id ↔ storedIn impacts r id) → Ordered
      { db := write.apply w.db
        txns := w.txns.set i (.revoke ctx now request (.committed write seen reading))
        clock := clock } r impacts' := by
    intro r impacts impacts' hr hsame
    refine ⟨Int.le_trans hr.clock hclock, ?_, ?_, ?_⟩
    · intro entry hentry hstored
      exact hr.stored entry hentry ((hsame _).mp hstored)
    · intro entry hentry hnot
      exact hr.later entry hentry (mt (hsame _).mpr hnot)
    · intro u hu x hx horg hholds
      rcases mem_set_cases hu with rfl | ⟨j, -, hj⟩
      · exact absurd hx (by simp [taking])
      · exact hr.taken u (List.mem_of_getElem? hj) x hx horg hholds
  refine h.commit hclock ht rfl (coherent_commit h.coherent ht rfl) rfl (List.Subset.refl _)
    (fun d hd => Or.inl hd) (fun _ _ _ hholds => hholds) hcommits ?_ ?_
  · intro u hu write' hwrite'
    rcases mem_set_cases hu with rfl | ⟨j, -, hj⟩
    · exact absurd hwrite' (by simp [impacting])
    · exact hordered (h.opened u (List.mem_of_getElem? hj) write' hwrite') fun _ => Iff.rfl
  · intro r hr
    rcases List.mem_append.mp hr with hr | hr
    · exact hordered (h.filed r hr) (storedIn_grow hgrows hr)
    · rw [List.mem_singleton.mp hr]
      exact hordered (h.opened _ hmem write rfl)
        (storedIn_apply h.coherent.tables himpacting.fresh)

theorem timely_commit (h : Timely w) (hclock : w.clock ≤ clock) (ht : w.txns[i]? = some t)
    {db' : Database} (hcommit : t.commit w.db = some (t', db'))
    (hcommits : commitsInOrder w i = true) :
    Timely { db := db', txns := w.txns.set i t', clock := clock } := by
  unfold Txn.commit at hcommit
  split at hcommit
  · obtain ⟨rfl, rfl⟩ := Prod.mk.inj (Option.some.inj hcommit)
    exact timely_capture h hclock ht hcommits
  · obtain ⟨rfl, rfl⟩ := Prod.mk.inj (Option.some.inj hcommit)
    exact timely_decide h hclock ht hcommits
  · obtain ⟨rfl, rfl⟩ := Prod.mk.inj (Option.some.inj hcommit)
    exact timely_revoke h hclock ht hcommits
  · exact absurd hcommit (by simp)

/-- A new transaction holds at most its begin time. -/
theorem begun_holds {action : Action} (h : begun clock action = some t) :
    taking t = none ∧ (∀ p, pending t = some p → p.now = clock) ∧ inserted t = none ∧
      impacting t = none ∧ t.readings = [] := by
  unfold begun at h
  split at h
  · obtain rfl := Option.some.inj h
    exact ⟨rfl, by simp [pending], rfl, rfl, rfl⟩
  · obtain rfl := Option.some.inj h
    cases draftDecision _ <;> exact ⟨rfl, by simp [orRollBack, pending], rfl, rfl, rfl⟩
  · obtain rfl := Option.some.inj h
    cases revokeRequest _ _ _ with
    | error failure => exact ⟨rfl, by simp [orRollBack, pending], rfl, rfl, rfl⟩
    | ok request =>
      refine ⟨rfl, ?_, rfl, rfl, rfl⟩
      intro p hp
      obtain rfl := Option.some.inj hp
      rfl
  · obtain rfl := Option.some.inj h
    cases Question.check _ <;> exact ⟨rfl, by simp [orRollBack, pending], rfl, rfl, rfl⟩
  · exact absurd h (by simp)

theorem timely_begin (h : Timely w) (hclock : w.clock ≤ clock) {action : Action}
    (ht : begun clock action = some t) :
    Timely { w with txns := w.txns ++ [t], clock := clock } := by
  obtain ⟨hgood, hnone⟩ := good_begun ht
  obtain ⟨htaking, hpending, hinserted, himpacting, hreadings⟩ := begun_holds ht
  have hcases : ∀ {u}, u ∈ w.txns ++ [t] → u ∈ w.txns ∨ u = t := by
    intro u hu
    exact (List.mem_append.mp hu).imp_right List.mem_singleton.mp
  refine h.move hclock (coherent_begin h.coherent hgood hnone) ?_ ?_ ?_ ?_ ?_
  · intro u hu x hx
    rcases hcases hu with hu | rfl
    · exact Or.inl ⟨u, hu, hx⟩
    · exact absurd (htaking.symm.trans hx) (by simp)
  · intro u hu p hp
    rcases hcases hu with hu | rfl
    · exact Or.inl ⟨u, hu, hp⟩
    · exact Or.inr (hpending p hp)
  · intro u hu r hr
    rcases hcases hu with hu | rfl
    · exact Or.inl hu
    · exact absurd (hinserted.symm.trans hr) (by simp)
  · intro u hu write hwrite
    rcases hcases hu with hu | rfl
    · exact Or.inl ⟨u, hu, hwrite⟩
    · exact absurd (himpacting.symm.trans hwrite) (by simp)
  · intro u hu reading hreading
    rcases hcases hu with hu | rfl
    · exact Or.inl ⟨u, hu, hreading⟩
    · rw [hreadings] at hreading
      exact absurd hreading (by simp)

end

theorem timely_step {rt : Runtime} {w w' : World} {e : Event} (h : Timely w)
    (horderly : orderly w e = true) (hstep : step rt w e = some w') : Timely w' := by
  unfold orderly at horderly
  rw [Bool.and_eq_true, decide_eq_true_eq] at horderly
  obtain ⟨hclock, horder⟩ := horderly
  cases step_cases hstep with
  | begun t ht => exact timely_begin h hclock ht
  | moved i m t t' haction ht hready hmove =>
    refine timely_move h hclock ht hready hmove ?_
    rintro rfl
    rw [haction] at horder
    exact horder
  | committed i t t' db' haction ht hcommit =>
    rw [haction] at horder
    exact timely_commit h hclock ht hcommit horder

theorem start_timely {w : World} (h : Start w) : Timely w := by
  refine ⟨start_coherent h, ?_, ?_, ?_, ?_, ?_, ?_, ?_⟩
  · simp [h.decisions]
  · simp [h.txns]
  · simp [h.txns]
  · simp [h.txns]
  · simp [h.txns]
  · simp [h.revocations]
  · simp [h.txns]

/-- In a run of orderly steps every report agrees with the times in it. -/
theorem reports_in_time (rt : Runtime) (start w : World) (hstart : Start start)
    (events : List Event) (hrun : (system rt).run start events = some w)
    (horderly : (system rt).RunMeets (fun w e => orderly w e = true) start events) :
    ∀ t ∈ w.txns, ∀ reading ∈ t.readings, InTime reading.report :=
  ((system rt).run_preserves_of_meets _ Timely (fun _ _ _ h ho hs => timely_step h ho hs) hrun
    horderly (start_timely hstart)).readings

/-- The first decision that a transaction was shown, with the times of its report. -/
def shownTimes (w : World) (i : ℕ) : Option (ImpactedDecision × Instant) :=
  ((w.txns[i]?).bind fun t => t.readings.head?).bind fun reading =>
    reading.report.decisions.head?.map fun e => (e, reading.report.revokedAt)

theorem not_inTime_of_shown {w : World} {i : ℕ} {e : ImpactedDecision} {revokedAt : Instant}
    (h : shownTimes w i = some (e, revokedAt))
    (hout : (e.decidedAfterRevocation = true ∧ e.decidedAt < revokedAt) ∨
      (e.recordedAtRevocation = true ∧ revokedAt < e.decidedAt)) :
    ∃ t ∈ w.txns, ∃ reading ∈ t.readings, ¬ InTime reading.report := by
  obtain ⟨reading, hreading, h⟩ := Option.bind_eq_some_iff.mp h
  obtain ⟨t, ht, hhead⟩ := Option.bind_eq_some_iff.mp hreading
  obtain ⟨e', he', h⟩ := Option.map_eq_some_iff.mp h
  obtain ⟨rfl, rfl⟩ := Prod.mk.inj h
  refine ⟨t, List.mem_of_getElem? ht, reading, List.mem_of_head? hhead, ?_⟩
  intro hintime
  obtain ⟨hafter, hbefore⟩ := hintime e' (List.mem_of_head? he')
  rcases hout with ⟨hmark, hlt⟩ | ⟨hmark, hlt⟩
  · exact absurd (hafter hmark) (Int.not_le.mpr hlt)
  · exact absurd (hbefore hmark) (Int.not_le.mpr hlt)

theorem exampleEvents_orderly : decide (((system exampleRuntime).run exampleStart
    exampleEvents).isSome = true ∧ (system exampleRuntime).RunMeets
      (fun w e => orderly w e = true) exampleStart exampleEvents) = true := by
  decide +kernel

theorem reports_in_time_example : ∃ w,
    (system exampleRuntime).run exampleStart exampleEvents = some w ∧
    ∀ t ∈ w.txns, ∀ reading ∈ t.readings, InTime reading.report := by
  obtain ⟨hsome, horderly⟩ := of_decide_eq_true exampleEvents_orderly
  obtain ⟨w, hw⟩ := Option.isSome_iff_exists.mp hsome
  exact ⟨w, hw, reports_in_time exampleRuntime exampleStart w exampleStart_start exampleEvents hw
    horderly⟩

/-- The decision reads its clock, the revocation runs from begin to commit, and only
then the decision commits. -/
def openDecision : List Event :=
  exampleCapture 0 30 40 ++ exampleDecide 1 32 ++ exampleRevoke 2 33 ++ exampleImpacts 2 34 60 ++
    exampleRevoked 2 35 ++ exampleDecided 1 36 50 ++ exampleRead 3 37

/-- The revocation begins, the decision runs from begin to commit, and only then the
revocation reads its impacts. -/
def openRevocation : List Event :=
  exampleCapture 0 30 40 ++ exampleRevoke 1 32 ++ exampleDecide 2 33 ++ exampleDecided 2 34 50 ++
    exampleImpacts 1 35 60 ++ exampleRevoked 1 36 ++ exampleRead 3 37

theorem openDecision_shown : ((system exampleRuntime).run exampleStart openDecision).any
    (fun w => (shownTimes w 3).any fun shown =>
      shown.1.decidedAfterRevocation && decide (shown.1.decidedAt < shown.2)) = true := by
  decide +kernel

theorem openRevocation_shown : ((system exampleRuntime).run exampleStart openRevocation).any
    (fun w => (shownTimes w 3).any fun shown =>
      shown.1.recordedAtRevocation && decide (shown.2 < shown.1.decidedAt)) = true := by
  decide +kernel

/-- Both halves fail: a decision marked as made after a revocation that began later than
it, and one stored with a revocation that began before it. -/
theorem reports_out_of_time :
    (∃ w, (system exampleRuntime).run exampleStart openDecision = some w ∧
      ∃ t ∈ w.txns, ∃ reading ∈ t.readings, ¬ InTime reading.report) ∧
    ∃ w, (system exampleRuntime).run exampleStart openRevocation = some w ∧
      ∃ t ∈ w.txns, ∃ reading ∈ t.readings, ¬ InTime reading.report := by
  constructor
  · obtain ⟨w, hw, hshown⟩ := (Option.any_eq_true _ _).mp openDecision_shown
    obtain ⟨⟨e, revokedAt⟩, he, hout⟩ := (Option.any_eq_true _ _).mp hshown
    rw [Bool.and_eq_true, decide_eq_true_eq] at hout
    exact ⟨w, hw, not_inTime_of_shown he (Or.inl hout)⟩
  · obtain ⟨w, hw, hshown⟩ := (Option.any_eq_true _ _).mp openRevocation_shown
    obtain ⟨⟨e, revokedAt⟩, he, hout⟩ := (Option.any_eq_true _ _).mp hshown
    rw [Bool.and_eq_true, decide_eq_true_eq] at hout
    exact ⟨w, hw, not_inTime_of_shown he (Or.inr hout)⟩

end ContextLedger.ImpactTimes

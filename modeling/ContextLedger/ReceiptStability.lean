import ContextLedger.Receipts
import Mathlib.Data.Prod.Lex

/-!
A receipt does not drift while later writes are stamped after its knowledge
time. A version closed later looks open as known before, evidence linked later
is left out, and revocations change nothing but their marks. A context pinned to
a knowledge time in the future has no such protection: a write before that time
shows through.
-/
namespace ContextLedger.ReceiptStability

open JsonText Values Authorization Schema Facts VersionTable Recording Reference Revocations
open Knowledge Retrieval Decisions Ledger ReceiptRows Receipts

section Sorting

variable {α : Type*} {r : α → α → Prop} [DecidableRel r]

/-- Inserting into a sorted list and dropping the rest commute. -/
theorem filter_orderedInsert [IsTrans α r] (keep : α → Bool) (a : α) {l : List α}
    (hl : l.Pairwise r) : (l.orderedInsert r a).filter keep =
      if keep a then (l.filter keep).orderedInsert r a else l.filter keep := by
  induction l with
  | nil => cases h : keep a <;> simp [h]
  | cons b l ih =>
    have hb := (List.pairwise_cons.mp hl).1
    have ih := ih (List.pairwise_cons.mp hl).2
    by_cases hab : r a b
    · rw [List.orderedInsert_cons_of_le _ _ hab]
      cases ha : keep a with
      | false => simp [ha]
      | true =>
        have hall : ∀ c ∈ (b :: l).filter keep, r a c := by
          intro c hc
          rcases List.mem_cons.mp (List.mem_of_mem_filter hc) with rfl | hc
          · exact hab
          · exact IsTrans.trans a b c hab (hb c hc)
        rw [List.filter_cons_of_pos ha, if_pos rfl]
        cases hkept : (b :: l).filter keep with
        | nil => rfl
        | cons c rest =>
          rw [List.orderedInsert_cons_of_le _ _ (hall c (by simp [hkept]))]
    · rw [List.orderedInsert_of_not_le _ _ hab]
      cases hkeep : keep b with
      | false => simp [hkeep, ih]
      | true =>
        rw [List.filter_cons_of_pos hkeep, ih, List.filter_cons_of_pos hkeep]
        split
        · rw [List.orderedInsert_of_not_le _ _ hab]
        · rfl

theorem filter_insertionSort [Std.Total r] [IsTrans α r] (keep : α → Bool) (l : List α) :
    (l.insertionSort r).filter keep = (l.filter keep).insertionSort r := by
  induction l with
  | nil => rfl
  | cons a l ih =>
    rw [List.insertionSort_cons, filter_orderedInsert keep a (List.pairwise_insertionSort r l), ih]
    cases h : keep a with
    | false => simp [h]
    | true => simp [h]

end Sorting

def linkedKey (row : LinkedRow) : ℤ ×ₗ ℤ ×ₗ ℕ :=
  toLex (row.1.linkedAt, toLex (row.2.1.capturedAt, row.2.1.id.toNat))

theorem linkedLe_iff (a b : LinkedRow) : LinkedLe a b ↔ linkedKey a ≤ linkedKey b := by
  simp only [LinkedLe, linkedKey, Prod.Lex.toLex_le_toLex]

instance : Std.Total LinkedLe :=
  ⟨fun a b => by simpa only [linkedLe_iff] using le_total (linkedKey a) (linkedKey b)⟩

instance : IsTrans LinkedRow LinkedLe :=
  ⟨fun a b c hab hbc => (linkedLe_iff a c).mpr
    (((linkedLe_iff a b).mp hab).trans ((linkedLe_iff b c).mp hbc))⟩

/-- Linked evidence in order: what comes from other links plays no part. -/
theorem receiptEvidence_append {db : Database} (new : List FactVersionEvidence) (org id : Uuid)
    (k : Instant) (visible : List PrivacyScope)
    (hnew : ∀ l ∈ new, l.factVersionId = id → k < l.linkedAt) :
    receiptEvidence { db with links := db.links ++ new } org id k visible =
      receiptEvidence db org id k visible := by
  have hnone : (((new.filter fun l => l.organizationId == org && l.factVersionId == id).flatMap
      (linkRows db)).filter fun row =>
        decide (row.1.linkedAt ≤ k) && visible.contains row.2.1.privacyScope) = [] := by
    rw [List.filter_eq_nil_iff]
    intro row hrow hkept
    obtain ⟨l, hl, hrow⟩ := List.mem_flatMap.mp hrow
    obtain ⟨hmem, hkey⟩ := List.mem_filter.mp hl
    obtain ⟨e, -, hrow⟩ := List.mem_flatMap.mp hrow
    obtain ⟨s, -, rfl⟩ := List.mem_map.mp hrow
    simp only [Bool.and_eq_true, beq_iff_eq, decide_eq_true_eq] at hkey hkept
    exact absurd hkept.1 (not_le.mpr (hnew l hmem hkey.2))
  have hrows : linkRows { db with links := db.links ++ new } = linkRows db := rfl
  unfold receiptEvidence evidenceForVersion
  simp only [hrows, filter_insertionSort, List.filter_append, List.flatMap_append, hnone,
    List.append_nil]

theorem apply_links (write : VersionWrite) (db : Database) :
    (write.apply db).links = db.links ++ write.links := by
  show (write.withClose (write.withPlace db)).links ++ write.links = db.links ++ write.links
  congr 1
  unfold VersionWrite.withClose VersionWrite.withPlace
  cases write.entity <;> cases write.fact <;> cases write.closing <;> rfl

theorem apply_evidence (write : VersionWrite) (db : Database) :
    (write.apply db).evidence = db.evidence := by
  show (write.withClose (write.withPlace db)).evidence = db.evidence
  unfold VersionWrite.withClose VersionWrite.withPlace
  cases write.entity <;> cases write.fact <;> cases write.closing <;> rfl

/-- Evidence depends on the links, the evidence and the sources only. -/
theorem receiptEvidence_congr (db : Database) {db' : Database} (hlinks : db'.links = db.links)
    (hevidence : db'.evidence = db.evidence) (hsources : db'.sources = db.sources) (org id : Uuid)
    (k : Instant) (visible : List PrivacyScope) :
    receiptEvidence db' org id k visible = receiptEvidence db org id k visible := by
  have hrows : linkRows db' = linkRows db := by
    funext l
    unfold linkRows
    rw [hevidence, hsources]
  unfold receiptEvidence evidenceForVersion
  rw [hlinks, hrows]

theorem receiptEvidence_effect {db db' : Database} {stamp k : Instant}
    (he : Effect db stamp db') (hk : k < stamp) {v : FactVersion} (hv : v ∈ db.versions)
    (org : Uuid) (visible : List PrivacyScope) :
    receiptEvidence db' org v.id k visible = receiptEvidence db org v.id k visible := by
  cases he with
  | recorded write happ hplaced hclock hlinks =>
    rw [receiptEvidence_congr { db with links := db.links ++ write.links }
      (apply_links write db) (apply_evidence write db) (apply_sources write db)]
    apply receiptEvidence_append
    intro l hl hid
    exact absurd ((hlinks l hl).1.symm.trans hid).symm (happ.fresh v hv)
  | linked links hlinks =>
    apply receiptEvidence_append
    intro l hl _
    rw [hlinks l hl]
    exact hk
  | revoked write => rfl
  | captured snapshot facts hfresh hfacts => rfl
  | decided decision relied hfresh => rfl

/-- A fact of a receipt without its revocation mark. -/
def unmark (fact : ReceiptFact) : ReceiptFact := { fact with revokedAt := none }

/-- What a reader could know of a version at `k`, and what was linked to it then, is kept. -/
structure KeptAt (db db' : Database) (advance : FactVersion → FactVersion) (k : Instant)
    (v : FactVersion) : Prop where
  asKnown : asKnown (some k) (toSnapshot (advance v)) = asKnown (some k) (toSnapshot v)
  evidence : ∀ org visible,
    receiptEvidence db' org v.id k visible = receiptEvidence db org v.id k visible

theorem keptAt_of_effect {db db' : Database} {stamp k : Instant} (he : Effect db stamp db')
    {advance : FactVersion → FactVersion} (hadvance : Advances db stamp advance) (hk : k < stamp)
    {v : FactVersion} (hv : v ∈ db.versions) : KeptAt db db' advance k v :=
  ⟨hadvance.asKnown v hv k hk, fun org visible => receiptEvidence_effect he hk hv org visible⟩

/-- A write leaves the versions of other facts as they are. -/
theorem touched_of_factId_ne {db : Database} (h : Sound db) {write : VersionWrite}
    (happ : Appends db write) {v : FactVersion} (hv : v ∈ db.versions)
    (hne : v.factId ≠ write.version.factId) : touched write v = v := by
  refine touched_of_id_ne fun c hc hid => hne ?_
  cases hlatest : latestVersion db write.version.organizationId write.version.factId with
  | none => exact absurd (hc.symm.trans (happ.begins hlatest).closing) (by simp)
  | some last =>
    obtain ⟨hmem, -, hfact⟩ := mem_versionsOf.mp (List.argmax_mem hlatest)
    rcases (happ.continues last hlatest).closing with ⟨-, hclosing⟩ | ⟨u, -, -, hnone⟩
    · have hc : c = (last.id, write.version.validFrom) := Option.some.inj (hc.symm.trans hclosing)
      rw [hc] at hid
      rw [List.inj_on_of_nodup_map h.versionIds hv hmem hid, hfact]
    · exact absurd (hc.symm.trans hnone) (by simp)

theorem keptAt_of_factId_ne {db : Database} (h : Sound db) {write : VersionWrite}
    (happ : Appends db write) (hlinks : ∀ l ∈ write.links, l.factVersionId = write.version.id)
    {v : FactVersion} (hv : v ∈ db.versions) (hne : v.factId ≠ write.version.factId)
    (k : Instant) : KeptAt db (write.apply db) (touched write) k v := by
  refine ⟨by rw [touched_of_factId_ne h happ hv hne], fun org visible => ?_⟩
  rw [receiptEvidence_congr { db with links := db.links ++ write.links }
    (apply_links write db) (apply_evidence write db) (apply_sources write db)]
  refine receiptEvidence_append _ org v.id k visible fun l hl hid => ?_
  exact absurd ((hlinks l hl).symm.trans hid).symm (happ.fresh v hv)

theorem receiptFact_kept {db db' : Database} {stamp : Instant} {advance : FactVersion → FactVersion}
    (hadvance : Advances db stamp advance) (org : Uuid) {snapshot : ContextSnapshot}
    (relied : List Uuid) (visible : List PrivacyScope) {row : SnapshotFactRow}
    (hv : row.version ∈ db.versions) (hkept : KeptAt db db' advance snapshot.knownAt row.version) :
    unmark (receiptFact db' org snapshot relied visible (withVersion advance row)) =
      unmark (receiptFact db org snapshot relied visible row) := by
  have hid := hadvance.id _ hv
  have hscope := hadvance.privacyScope _ hv
  unfold receiptFact
  simp only [withVersion, hid, hscope, hkept.asKnown, hkept.evidence]
  split
  · rfl
  · rfl

/-- The facts a receipt shows, revocation marks apart. -/
def shownFacts (db : Database) (org : Uuid) (snapshot : ContextSnapshot) (relied : List Uuid)
    (visible : List PrivacyScope) : List ReceiptFact :=
  (snapshotRows db org snapshot.id).map fun row =>
    unmark (receiptFact db org snapshot relied visible row)

/-- What is recorded for a fact of the snapshot, and what is attached to a version in it, is
stamped after its knowledge time. -/
def StampsAfter (rt : Runtime) (org : Uuid) (snapshot : ContextSnapshot) (db : Database)
    (call : Call) : Prop :=
  match call.request with
  | .record ctx command ids => ∀ v db', recordVersion rt ctx command call.clock ids db = .ok (v, db') →
      (∃ row ∈ snapshotRows db org snapshot.id, row.version.factId = v.factId) →
        snapshot.knownAt < call.clock
  | .attach ctx versionId evidenceId relation => ∀ added db',
      attach ctx versionId evidenceId relation call.clock db = .ok (added, db') →
      (∃ row ∈ snapshotRows db org snapshot.id, row.version.id = versionId) →
        snapshot.knownAt < call.clock
  | _ => True

section Later

variable {rt : Runtime} {db : Database} {org : Uuid} {snapshot : ContextSnapshot}

theorem shownFacts_kept {db' : Database} {stamp : Instant} {advance : FactVersion → FactVersion}
    (hadvance : Advances db stamp advance)
    (hrows : snapshotRows db' org snapshot.id =
      (snapshotRows db org snapshot.id).map (withVersion advance))
    (hkept : ∀ row ∈ snapshotRows db org snapshot.id,
      KeptAt db db' advance snapshot.knownAt row.version)
    (relied : List Uuid) (visible : List PrivacyScope) :
    shownFacts db' org snapshot relied visible = shownFacts db org snapshot relied visible := by
  unfold shownFacts
  rw [hrows, List.map_map]
  refine List.map_congr_left fun row hrow => ?_
  exact receiptFact_kept hadvance org relied visible (snapshotRows_version_mem hrow)
    (hkept row hrow)

/-- A call that stamps its rows after the knowledge time, or stamps none. -/
theorem shownFacts_effect {db' : Database} {stamp : Instant} (h : Intact db)
    (he : Effect db stamp db') (hs : getSnapshot db org snapshot.id = some snapshot)
    (hk : snapshot.knownAt < stamp) (relied : List Uuid) (visible : List PrivacyScope) :
    shownFacts db' org snapshot relied visible = shownFacts db org snapshot relied visible := by
  obtain ⟨advance, hadvance, hrows⟩ := snapshotRows_effect h he hs
  exact shownFacts_kept hadvance hrows
    (fun row hrow => keptAt_of_effect he hadvance hk (snapshotRows_version_mem hrow)) relied visible

theorem shownFacts_recorded {ctx : TenantContext} {command : RecordFactVersion} {clock : Instant}
    {ids : FreshIds} {v : FactVersion} {db' : Database} (h : Intact db)
    (hrecord : recordVersion rt ctx command clock ids db = .ok (v, db'))
    (hk : (∃ row ∈ snapshotRows db org snapshot.id, row.version.factId = v.factId) →
      snapshot.knownAt < clock) (relied : List Uuid) (visible : List PrivacyScope) :
    shownFacts db' org snapshot relied visible = shownFacts db org snapshot relied visible := by
  obtain ⟨write, happ, rfl, rfl, hclock, -, hplaced, hlinks⟩ := recordVersion_eq_ok h.sound hrecord
  have hadvance := advances_touched h.sound hclock
  refine shownFacts_kept hadvance (snapshotRows_apply h happ hplaced org snapshot.id)
    (fun row hrow => ?_) relied visible
  have hv := snapshotRows_version_mem hrow
  by_cases hfact : row.version.factId = write.version.factId
  · exact keptAt_of_effect (.recorded write happ hplaced hclock hlinks) hadvance
      (hk ⟨row, hrow, hfact⟩) hv
  · exact keptAt_of_factId_ne h.sound happ (fun l hl => (hlinks l hl).1) hv hfact _

theorem shownFacts_attached {ctx : TenantContext} {versionId evidenceId : Uuid}
    {relation : EvidenceRelation} {clock : Instant} {added : Bool} {db' : Database}
    (hattach : attach ctx versionId evidenceId relation clock db = .ok (added, db'))
    (hk : (∃ row ∈ snapshotRows db org snapshot.id, row.version.id = versionId) →
      snapshot.knownAt < clock) (relied : List Uuid) (visible : List PrivacyScope) :
    shownFacts db' org snapshot relied visible = shownFacts db org snapshot relied visible := by
  unfold attach at hattach
  obtain ⟨role, -, hattach⟩ := bind_eq_ok.mp hattach
  obtain ⟨links, hlinks, hattach⟩ := bind_eq_ok.mp hattach
  obtain ⟨-, rfl⟩ := Prod.mk.inj (Except.ok.inj hattach)
  have hrows : snapshotRows { db with links := db.links ++ links } org snapshot.id =
      (snapshotRows db org snapshot.id).map (withVersion fun v => v) := (List.map_id _).symm
  refine shownFacts_kept (advances_self db clock) hrows (fun row hrow => ?_) relied visible
  refine ⟨rfl, fun org visible => receiptEvidence_append links org _ _ visible fun l hl hid => ?_⟩
  obtain ⟨-, hversion, hnow⟩ := linkEvidence_mem hlinks hl
  rw [hnow]
  exact hk ⟨row, hrow, hid.symm.trans hversion⟩

theorem shownFacts_execute {call : Call} {db' : Database} (h : Intact db)
    (hexecute : execute rt db call = .ok db')
    (hs : getSnapshot db org snapshot.id = some snapshot)
    (hafter : StampsAfter rt org snapshot db call) (relied : List Uuid)
    (visible : List PrivacyScope) :
    shownFacts db' org snapshot relied visible = shownFacts db org snapshot relied visible := by
  have hlater : snapshot.knownAt < snapshot.knownAt + 1 := Int.lt_add_one_of_le le_rfl
  obtain ⟨clock, request⟩ := call
  unfold execute at hexecute
  unfold StampsAfter at hafter
  cases request with
  | record ctx command ids =>
    obtain ⟨⟨v, db''⟩, hrecord, rfl⟩ := map_eq_ok.mp hexecute
    have hk := hafter v db'' hrecord
    exact shownFacts_recorded h hrecord hk relied visible
  | attach ctx versionId evidenceId relation =>
    obtain ⟨⟨added, db''⟩, hattach, rfl⟩ := map_eq_ok.mp hexecute
    exact shownFacts_attached hattach (hafter added db'' hattach) relied visible
  | revoke ctx factId versionId reason id =>
    obtain ⟨⟨r, db''⟩, hrevoke, rfl⟩ := map_eq_ok.mp hexecute
    exact shownFacts_effect h (revoke_effect hrevoke _) hs hlater relied visible
  | capture ctx query serviceClock index id =>
    obtain ⟨⟨captured, db''⟩, hcapture, rfl⟩ := map_eq_ok.mp hexecute
    exact shownFacts_effect h (captureContext_effect hcapture _) hs hlater relied visible
  | decision ctx command id =>
    obtain ⟨⟨db'', answer⟩, hdecide, rfl⟩ := map_eq_ok.mp hexecute
    exact shownFacts_effect h (recordDecision_effect hdecide _) hs hlater relied visible

theorem shownFacts_performAll (h : Intact db)
    (hs : getSnapshot db org snapshot.id = some snapshot) (relied : List Uuid)
    (visible : List PrivacyScope) (calls : List Call)
    (hcalls : (ledger rt).RunMeets (StampsAfter rt org snapshot) db calls) :
    shownFacts (performAll rt db calls) org snapshot relied visible =
      shownFacts db org snapshot relied visible := by
  induction calls generalizing db with
  | nil => rfl
  | cons call calls ih =>
    have hrest := hcalls.2 (perform rt db call) rfl
    show shownFacts (performAll rt (perform rt db call) calls) org snapshot relied visible = _
    cases hexecute : execute rt db call with
    | error e =>
      have hsame : perform rt db call = db := by rw [perform, hexecute]
      rw [hsame] at hrest ⊢
      exact ih h hs hrest
    | ok db' =>
      have hnext : perform rt db call = db' := by rw [perform, hexecute]
      have he := execute_effect h.sound hexecute
      rw [hnext] at hrest ⊢
      rw [ih (h.effect he) (getSnapshot_effect he hs) hrest]
      exact shownFacts_execute h hexecute hs hcalls.1 relied visible

end Later

/-- While what is later written about the facts of the snapshot is stamped after its knowledge
time, a reader with the same visible scopes is shown the same facts. -/
theorem receipt_stable (rt : Runtime) (db : Database) (hdb : (ledger rt).Reachable db)
    (ctx : TenantContext) (command : RecordDecision) (clock : Instant) (id : Uuid) (db' : Database)
    (first : DecisionReceipt)
    (h : recordDecision rt ctx command clock id db = .ok (db', .ok first))
    (snapshot : ContextSnapshot)
    (hsnapshot : getSnapshot db ctx.organizationId command.snapshotId = some snapshot)
    (later : List Call)
    (hlater : (ledger rt).RunMeets (StampsAfter rt ctx.organizationId snapshot) db' later)
    (session : Session) (reader : TenantContext)
    (horg : reader.organizationId = ctx.organizationId) (recorder role : MembershipRole)
    (hrecorder : requirePermission db' ctx .readDecisions = .ok recorder)
    (hrole : requirePermission (performAll rt db' later) reader .readDecisions = .ok role)
    (hvisible : visiblePrivacyScopes role [reader.maxPrivacyScope] =
      visiblePrivacyScopes recorder [ctx.maxPrivacyScope]) :
    ∃ r, receipt rt session reader id (performAll rt db' later) = .ok r ∧
      r.facts.map unmark = first.facts.map unmark := by
  obtain ⟨decision, found, entries, relied, stored, hsealed, hintact, rfl, hdecisionOrg, hfound,
    -, -, hanswer, -⟩ := sealed_of_recordDecision (reachable_intact hdb) h
  obtain rfl := Option.some.inj (hfound.symm.trans hsnapshot)
  obtain ⟨r₀, hr₀, -, hfacts₀⟩ := hsealed.receipt_eq_ok rt [(decision.id, command.outcome.1)]
    hdecisionOrg.symm hrecorder
  obtain rfl := Except.ok.inj (hanswer.trans hr₀)
  obtain ⟨r, hr, -, hfacts⟩ := (hsealed.performAll rt hintact later).receipt_eq_ok rt session
    (horg.trans hdecisionOrg.symm) hrole
  refine ⟨r, hr, ?_⟩
  have hfrozen : getSnapshot db' decision.organizationId found.id = some found := by
    rw [hsealed.snapshot_id]
    exact hsealed.frozen
  rw [← hdecisionOrg] at hlater
  have hshown := shownFacts_performAll hintact hfrozen relied
    (visiblePrivacyScopes recorder [ctx.maxPrivacyScope]) later hlater
  rw [hfacts, hfacts₀, hvisible, List.map_map, List.map_map]
  exact hshown

/-- A second version and a revocation after the decision. -/
def exampleLater : List Call :=
  [⟨60, .record exampleContext (exampleCommand false 5) ⟨20, 21, 22⟩⟩,
   ⟨70, .revoke exampleContext 11 (some 12) "imported twice" 71⟩]

/-- The decision on a context pinned to the given knowledge time. -/
def decisionKnowing (knownAt : Option Instant) : Result (Database × Result DecisionReceipt) :=
  recordDecision digestingRuntime exampleContext
    (exampleDecision (exampleOutcome (.float (.finite oneHalf)) trivial)) 50 60
    (exampleLedger digestingRuntime knownAt)

/-- The ends a receipt shows, and which facts are marked as revoked. -/
def endsAndMarks (r : DecisionReceipt) : List (Option (Option Instant) × Option Instant) :=
  r.facts.map fun f => (f.version.map VersionSnapshot.validUntil, f.revokedAt)

/-- What the receipt shows when the decision is recorded, and after the later calls. -/
def exampleReads (knownAt : Option Instant) (first r : DecisionReceipt) : Prop :=
  ∃ db', decisionKnowing knownAt = .ok (db', .ok first) ∧
    receipt digestingRuntime [] exampleContext 60 (performAll digestingRuntime db' exampleLater) =
      .ok r ∧
    requirePermission db' exampleContext .readDecisions = .ok .engineer ∧
    requirePermission (performAll digestingRuntime db' exampleLater) exampleContext
      .readDecisions = .ok .engineer

def readsAs (knownAt : Option Instant)
    (before after : List (Option (Option Instant) × Option Instant)) : Bool :=
  (decisionKnowing knownAt).toOption.any fun recorded =>
    let later := performAll digestingRuntime recorded.1 exampleLater
    decide (recorded.2.toOption.map endsAndMarks = some before) &&
      decide ((receipt digestingRuntime [] exampleContext 60 later).toOption.map endsAndMarks =
        some after) &&
      decide ((requirePermission recorded.1 exampleContext .readDecisions).toOption =
        some .engineer) &&
      decide ((requirePermission later exampleContext .readDecisions).toOption = some .engineer)

theorem exampleReads_of_readsAs (knownAt : Option Instant)
    (before after : List (Option (Option Instant) × Option Instant))
    (h : readsAs knownAt before after = true) :
    ∃ first r, exampleReads knownAt first r ∧ endsAndMarks first = before ∧
      endsAndMarks r = after := by
  obtain ⟨⟨db', answer⟩, hrecorded, hreads⟩ := (Option.any_eq_true _ _).mp h
  simp only [Bool.and_eq_true, decide_eq_true_eq] at hreads
  obtain ⟨⟨⟨hbefore, hafter⟩, hrecorder⟩, hrole⟩ := hreads
  obtain ⟨first, hfirst, hbeforeEq⟩ := Option.map_eq_some_iff.mp hbefore
  obtain ⟨r, hr, hafterEq⟩ := Option.map_eq_some_iff.mp hafter
  obtain rfl := eq_ok_of_toOption hfirst
  exact ⟨first, r, ⟨db', eq_ok_of_toOption hrecorded, eq_ok_of_toOption hr,
    eq_ok_of_toOption hrecorder, eq_ok_of_toOption hrole⟩, hbeforeEq, hafterEq⟩

/-- The version is closed and then revoked; only the mark shows. -/
theorem receipt_stable_example :
    ∃ first r, exampleReads none first r ∧ endsAndMarks first = [(some none, none)] ∧
      endsAndMarks r = [(some none, some 70)] ∧ r.facts.map unmark = first.facts.map unmark := by
  obtain ⟨first, r, hreads, hbefore, hafter⟩ := exampleReads_of_readsAs none [(some none, none)]
    [(some none, some 70)] (by decide +kernel)
  obtain ⟨db', hrecorded, hr, hrecorder, hrole⟩ := hreads
  have hknown : ((getSnapshot (exampleLedger digestingRuntime none) 1 40).map
      ContextSnapshot.knownAt) = some 30 := by decide +kernel
  obtain ⟨snapshot, hsnapshot, hthirty⟩ := Option.map_eq_some_iff.mp hknown
  have hlater : (ledger digestingRuntime).RunMeets
      (StampsAfter digestingRuntime exampleContext.organizationId snapshot) db' exampleLater := by
    refine Transition.System.runMeets_of_forall _ fun call hcall db => ?_
    simp only [exampleLater, List.mem_cons, List.not_mem_nil, or_false] at hcall
    rcases hcall with rfl | rfl
    · exact fun v db' _ _ => hthirty ▸ (by decide)
    · trivial
  obtain ⟨r', hr', hsame⟩ := receipt_stable digestingRuntime (exampleLedger digestingRuntime none)
    (exampleLedger_reachable _ _) exampleContext _ 50 60 db' first hrecorded snapshot hsnapshot
    exampleLater hlater [] exampleContext rfl .engineer .engineer hrecorder hrole rfl
  obtain rfl := Except.ok.inj (hr'.symm.trans hr)
  exact ⟨first, r', ⟨db', hrecorded, hr, hrecorder, hrole⟩, hbefore, hafter, hsame⟩

/-- A record, an attachment or a revocation in the organization. -/
def WritesIn (org : Uuid) (call : Call) : Prop :=
  match call.request with
  | .record ctx _ _ => ctx.organizationId = org
  | .attach ctx _ _ _ => ctx.organizationId = org
  | .revoke ctx _ _ _ _ => ctx.organizationId = org
  | _ => False

instance (org : Uuid) : DecidablePred (WritesIn org)
  | ⟨_, .record ctx _ _⟩ => inferInstanceAs (Decidable (ctx.organizationId = org))
  | ⟨_, .attach ctx _ _ _⟩ => inferInstanceAs (Decidable (ctx.organizationId = org))
  | ⟨_, .revoke ctx _ _ _ _⟩ => inferInstanceAs (Decidable (ctx.organizationId = org))
  | ⟨_, .capture ..⟩ => isFalse id
  | ⟨_, .decision ..⟩ => isFalse id

/-- A context pinned to a knowledge time of 1000 shows an end recorded at 60. -/
theorem receipt_drifts :
    ¬ ∀ (rt : Runtime) (db : Database) (ctx : TenantContext) (command : RecordDecision)
      (clock : Instant) (id : Uuid) (db' : Database) (first r : DecisionReceipt)
      (later : List Call) (reader : TenantContext) (recorder role : MembershipRole),
      (ledger rt).Reachable db →
      recordDecision rt ctx command clock id db = .ok (db', .ok first) →
      (∀ call ∈ later, WritesIn ctx.organizationId call) →
      (clock :: later.map Call.clock).Pairwise (· < ·) →
      reader.organizationId = ctx.organizationId →
      requirePermission db' ctx .readDecisions = .ok recorder →
      requirePermission (performAll rt db' later) reader .readDecisions = .ok role →
      visiblePrivacyScopes role [reader.maxPrivacyScope] =
        visiblePrivacyScopes recorder [ctx.maxPrivacyScope] →
      receipt rt [] reader id (performAll rt db' later) = .ok r →
      r.facts.map unmark = first.facts.map unmark := by
  intro h
  obtain ⟨first, r, hreads, hbefore, hafter⟩ := exampleReads_of_readsAs (some 1000)
    [(some none, none)] [(some (some 5), some 70)] (by decide +kernel)
  obtain ⟨db', hrecorded, hr, hrecorder, hrole⟩ := hreads
  have hsame := h digestingRuntime (exampleLedger digestingRuntime (some 1000)) exampleContext _ 50 60
    db' first r exampleLater exampleContext .engineer .engineer (exampleLedger_reachable _ _)
    hrecorded (by decide +kernel) (by decide +kernel) rfl hrecorder hrole rfl hr
  have hends : ∀ receipt : DecisionReceipt, (receipt.facts.map unmark).map (fun f =>
      f.version.map VersionSnapshot.validUntil) = (endsAndMarks receipt).map Prod.fst := by
    intro receipt
    simp [endsAndMarks, unmark, Function.comp_def]
  have hfirst := hends first
  rw [← hsame, hends r, hbefore, hafter] at hfirst
  exact absurd hfirst (by decide)

end ContextLedger.ReceiptStability

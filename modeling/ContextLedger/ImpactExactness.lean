import ContextLedger.ImpactTables
import ContextLedger.Processes
import ContextLedger.ReceiptRows

/-!
Impact reports under every interleaving. Each open transaction knows something of
the committed rows that no other commit takes away: the key it has inserted is
new, the snapshot a decision read is there, the impacts a revocation read are
still those of the decisions it saw. A report is put together from such rows.
-/
namespace ContextLedger.ImpactExactness

open Values Authorization Schema Facts Retrieval Decisions Revocations ImpactReports
open DecisionWorld ImpactTables Processes

/-- A revocation with its impacts, over the decisions it saw. -/
structure Impacting (db : Database) (write : RevokeWrite) (seen : List Decision) : Prop
    extends FreshRevocation db write.revocation where
  rows : ∀ row ∈ write.impacts, row ∈ impactRows db write.revocation
  known : ∀ d ∈ seen, d ∈ db.decisions
  covered : ∀ entry ∈ decisionsWith db write.revocation.organizationId
    write.revocation.factVersionId, entry.1 ∈ seen →
      storedIn write.impacts write.revocation entry.1.id

/-- The same once the revocation has committed. -/
structure Filed (db : Database) (write : RevokeWrite) (seen : List Decision) : Prop where
  revocation : write.revocation ∈ db.revocations
  known : ∀ d ∈ seen, d ∈ db.decisions
  covered : ∀ entry ∈ decisionsWith db write.revocation.organizationId
    write.revocation.factVersionId, entry.1 ∈ seen →
      storedIn db.impacts write.revocation entry.1.id

/-- What the statements of a report have found. -/
def Told (r : FactRevocation) (impacts : List RevocationImpact) : Progress → Prop
  | .asked => True
  | .described details => details.1.id = r.factVersionId
  | .compared details stored =>
    details.1.id = r.factVersionId ∧ ∀ id, id ∈ stored ↔ storedIn impacts r id

def Good (db : Database) : Txn → Prop
  | .capture _ (.written write) => FreshSnapshot db write
  | .decision ctx _ (.loaded snapshot) =>
    snapshot ∈ db.snapshots ∧ snapshot.organizationId = ctx.organizationId
  | .decision ctx _ (.read snapshot _ _) =>
    snapshot ∈ db.snapshots ∧ snapshot.organizationId = ctx.organizationId
  | .decision ctx _ (.stamped snapshot _ _ _) =>
    snapshot ∈ db.snapshots ∧ snapshot.organizationId = ctx.organizationId
  | .decision _ _ (.written write) => FreshDecision db write
  | .revoke ctx _ _ (.inserted r) =>
    r.organizationId = ctx.organizationId ∧ FreshRevocation db r
  | .revoke ctx _ _ (.reporting write seen progress) =>
    write.revocation.organizationId = ctx.organizationId ∧ Impacting db write seen ∧
      Told write.revocation write.impacts progress
  | .revoke _ _ _ (.reported write seen reading) => Impacting db write seen ∧ Exact reading
  | .revoke _ _ _ (.committed write seen reading) => Filed db write seen ∧ Exact reading
  | .reader ctx _ (.reporting current progress pending) readings =>
    (∀ r ∈ current :: pending, r ∈ db.revocations ∧ r.organizationId = ctx.organizationId) ∧
      Told current db.impacts progress ∧ ∀ reading ∈ readings, Exact reading
  | .reader _ _ _ readings => ∀ reading ∈ readings, Exact reading
  | _ => True

section

variable {db db' : Database} {key : RowKey}

theorem freshRevocation_grow (hgrows : Grows key db db') {r : FactRevocation}
    (h : FreshRevocation db r) (hkey : key ≠ .revocation r.id) : FreshRevocation db' r := by
  refine ⟨?_, ?_⟩
  · intro x hx hid
    rcases hgrows.newRevocation x hx with hx | hx
    · exact h.fresh x hx hid
    · exact hkey (hx.trans (congrArg RowKey.revocation hid))
  · rw [hgrows.versions]
    exact h.version

theorem Impacting.grow (hgrows : Grows key db db') {write : RevokeWrite} {seen : List Decision}
    (h : Impacting db write seen) (hkey : key ≠ .revocation write.revocation.id) :
    Impacting db' write seen := by
  refine ⟨freshRevocation_grow hgrows h.toFreshRevocation hkey, ?_, ?_, ?_⟩
  · intro row hrow
    exact hgrows.impactRows (h.rows row hrow)
  · intro d hd
    exact hgrows.decisions (h.known d hd)
  · intro entry hentry hseen
    exact h.covered entry (hgrows.oldEntries _ _ entry hentry (h.known _ hseen)) hseen

theorem Filed.grow (hgrows : Grows key db db') {write : RevokeWrite} {seen : List Decision}
    (h : Filed db write seen) : Filed db' write seen := by
  refine ⟨hgrows.revocations h.revocation, fun d hd => hgrows.decisions (h.known d hd), ?_⟩
  intro entry hentry hseen
  obtain ⟨row, hrow, hkeys⟩ :=
    h.covered entry (hgrows.oldEntries _ _ entry hentry (h.known _ hseen)) hseen
  exact ⟨row, hgrows.impacts hrow, hkeys⟩

/-- The impacts of a committed revocation stay what they are. -/
theorem storedIn_grow (hgrows : Grows key db db') {r : FactRevocation} (hr : r ∈ db.revocations)
    (id : Uuid) : storedIn db'.impacts r id ↔ storedIn db.impacts r id := by
  constructor
  · rintro ⟨row, hrow, hrevocation, hid⟩
    rcases hgrows.newImpact row hrow with hrow | rfl
    · exact ⟨row, hrow, hrevocation, hid⟩
    · exact absurd hrevocation.symm (hgrows.free r hr)
  · rintro ⟨row, hrow, hkeys⟩
    exact ⟨row, hgrows.impacts hrow, hkeys⟩

theorem Told.grow (hgrows : Grows key db db') {r : FactRevocation} (hr : r ∈ db.revocations)
    {progress : Progress} (h : Told r db.impacts progress) : Told r db'.impacts progress := by
  cases progress with
  | asked => trivial
  | described details => exact h
  | compared details stored =>
    refine ⟨h.1, ?_⟩
    intro id
    rw [storedIn_grow hgrows hr]
    exact h.2 id

/-- Another transaction's commit leaves what an open one knows. -/
theorem Good.grow (hgrows : Grows key db db') {t : Txn} (h : Good db t)
    (hkey : t.holds ≠ some key) : Good db' t := by
  have hne : ∀ {k : RowKey}, t.holds = some k → key ≠ k := fun hk hkk => hkey (hkk ▸ hk)
  cases t with
  | capture ctx phase =>
    cases phase with
    | written write =>
      refine ⟨?_, h.facts, h.once⟩
      intro x hx hid
      rcases hgrows.newSnapshot x hx with hx | hx
      · exact h.fresh x hx hid
      · exact hne rfl (hx.trans (congrArg RowKey.snapshot hid))
    | _ => trivial
  | decision ctx d phase =>
    cases phase with
    | loaded snapshot => exact ⟨hgrows.snapshots h.1, h.2⟩
    | read snapshot rows relied => exact ⟨hgrows.snapshots h.1, h.2⟩
    | stamped snapshot rows relied decidedAt => exact ⟨hgrows.snapshots h.1, h.2⟩
    | written write =>
      obtain ⟨hfresh, x, hx, hkeys⟩ := h
      refine ⟨?_, x, hgrows.snapshots hx, hkeys⟩
      intro d hd hid
      rcases hgrows.newDecision d hd with hd | hd
      · exact hfresh d hd hid
      · exact hne rfl (hd.trans (congrArg RowKey.decision hid))
    | _ => trivial
  | revoke ctx now request phase =>
    cases phase with
    | inserted r => exact ⟨h.1, freshRevocation_grow hgrows h.2 (hne rfl)⟩
    | reporting write seen progress => exact ⟨h.1, h.2.1.grow hgrows (hne rfl), h.2.2⟩
    | reported write seen reading => exact ⟨h.1.grow hgrows (hne rfl), h.2⟩
    | committed write seen reading => exact ⟨h.1.grow hgrows, h.2⟩
    | _ => trivial
  | reader ctx question phase readings =>
    cases phase with
    | reporting current progress pending =>
      obtain ⟨hfound, htold, hreadings⟩ := h
      refine ⟨?_, htold.grow hgrows (hfound current List.mem_cons_self).1, hreadings⟩
      intro r hr
      exact ⟨hgrows.revocations (hfound r hr).1, (hfound r hr).2⟩
    | begun => exact h
    | allowed visible => exact h
    | finished => exact h
  | rolledBack failure => trivial

theorem freeze_eq_ok {ctx : TenantContext} {pinned : RetrievalQuery} {validAt knownAt : Instant}
    {retrieval : RetrievalResult} {id : Uuid} {write : SnapshotWrite}
    (h : freeze db ctx pinned validAt knownAt retrieval id = .ok write) :
    FreshSnapshot db write ∧ write.snapshot.id = id := by
  unfold freeze at h
  obtain ⟨role, -, h⟩ := bind_eq_ok.mp h
  split at h
  · exact absurd h (by simp)
  · simp only at h
    split at h
    · exact absurd h (by simp)
    · rename_i hchecks
      obtain rfl := Except.ok.inj h
      have hpass := firstBroken_eq_none.mp hchecks
      have hnew := hpass _ (List.mem_cons_self ..)
      have honce := hpass _ (List.mem_cons_of_mem _ (List.mem_cons_self ..))
      simp only [List.any_eq_false, beq_iff_eq] at hnew
      simp only [Bool.not_eq_false', decide_eq_true_eq] at honce
      refine ⟨⟨hnew, ?_, honce⟩, rfl⟩
      intro s hs
      obtain ⟨entry, -, rfl⟩ := List.mem_map.mp hs
      exact ⟨rfl, rfl⟩

theorem loadSnapshot_eq_ok {ctx : TenantContext} {d : DecisionDraft} {snapshot : ContextSnapshot}
    (h : loadSnapshot db ctx d = .ok snapshot) :
    snapshot ∈ db.snapshots ∧ snapshot.organizationId = ctx.organizationId := by
  unfold loadSnapshot at h
  split at h
  · exact absurd h (by simp [notFound])
  · rename_i hfound
    obtain rfl := Except.ok.inj h
    obtain ⟨hmem, horg, -⟩ := ReceiptRows.getSnapshot_mem hfound
    exact ⟨hmem, horg⟩

theorem writeDecision_eq_ok {rt : Runtime} {ctx : TenantContext} {d : DecisionDraft}
    {snapshot : ContextSnapshot} {rows : List SnapshotFactRow} {relied : List Uuid}
    {decidedAt : Instant} {id : Uuid} {write : DecisionWrite}
    (h : writeDecision rt db ctx d snapshot rows relied decidedAt id = .ok write) :
    (∀ row ∈ db.decisions, row.id ≠ id) ∧ write.decision.id = id ∧
      write.decision.organizationId = ctx.organizationId ∧
      write.decision.snapshotId = snapshot.id ∧ write.decision.decidedAt = decidedAt := by
  unfold writeDecision at h
  split at h
  · exact absurd h (by simp)
  · split at h
    · exact absurd h (by simp)
    · split at h
      · exact absurd h (by simp)
      · rename_i hnew
        obtain rfl := Except.ok.inj h
        simp only [Bool.not_eq_true, List.any_eq_false, beq_iff_eq] at hnew
        exact ⟨hnew, rfl, rfl, rfl, rfl⟩

theorem insertRevocation_eq_ok {ctx : TenantContext} {request : RevokeRequest}
    {role : MembershipRole} {now : Instant} {id : Uuid} {r : FactRevocation}
    (h : insertRevocation db ctx request role now id = .ok r) :
    FreshRevocation db r ∧ r.id = id ∧ r.organizationId = ctx.organizationId ∧
      r.revokedAt = now ∧
      ∃ v ∈ db.versions, v.id = r.factVersionId ∧ v.factId = request.factId := by
  unfold insertRevocation at h
  obtain ⟨v, hv, h⟩ := bind_eq_ok.mp h
  split at h
  · exact absurd h (by simp)
  · rename_i hnew
    obtain rfl := Except.ok.inj h
    obtain ⟨hmem, horg, hfact⟩ := VersionTable.mem_versionsOf.mp (chooseRevoked_eq_ok hv).1
    simp only [Bool.not_eq_true, List.any_eq_false, beq_iff_eq] at hnew
    exact ⟨⟨hnew, v, hmem, horg, rfl⟩, rfl, rfl, rfl, v, hmem, rfl, hfact⟩

theorem detailsOf_eq_ok {org : Uuid} {r : FactRevocation} {details : Details}
    (h : detailsOf db org r = .ok details) : details.1.id = r.factVersionId := by
  unfold detailsOf at h
  split at h
  · rename_i row hrows
    obtain rfl := Except.ok.inj h
    have hmem : row ∈ [row] := List.mem_singleton.mpr rfl
    rw [← hrows] at hmem
    obtain ⟨v, hv, hrow⟩ := List.mem_flatMap.mp hmem
    obtain ⟨joined, -, rfl⟩ := List.mem_map.mp hrow
    have hkey := (List.mem_filter.mp hv).2
    simp only [Bool.and_eq_true, beq_iff_eq] at hkey
    exact hkey.2
  · exact absurd h (by simp)

theorem mem_visibleRevocations {org : Uuid} {visible : List PrivacyScope}
    {asked : FactVersion → Bool} {r : FactRevocation}
    (h : r ∈ visibleRevocations db org visible asked) :
    r ∈ db.revocations ∧ r.organizationId = org := by
  obtain ⟨r', hr', h⟩ := List.mem_flatMap.mp h
  obtain ⟨v, hv, rfl⟩ := List.mem_map.mp h
  have hkey := (List.mem_filter.mp hv).2
  simp only [Bool.and_eq_true, beq_iff_eq] at hkey
  exact ⟨hr', hkey.1.1.2⟩

theorem findRevocations_eq_ok {ctx : TenantContext} {visible : List PrivacyScope}
    {question : Question} {found : List FactRevocation}
    (h : findRevocations db ctx visible question = .ok found) :
    ∀ r ∈ found, r ∈ db.revocations ∧ r.organizationId = ctx.organizationId := by
  intro r hr
  cases question with
  | impactOfFact factId =>
    unfold findRevocations at h
    simp only at h
    split at h
    · exact absurd h (by simp [notFound])
    · obtain rfl := Except.ok.inj h
      exact mem_visibleRevocations ((List.mem_insertionSort _).mp hr)
  | impactOfVersion versionId =>
    unfold findRevocations at h
    simp only at h
    split at h
    · exact absurd h (by simp [notFound])
    · rename_i first rest hfirst
      obtain rfl := Except.ok.inj h
      rw [List.mem_singleton.mp hr]
      exact mem_visibleRevocations (hfirst ▸ List.mem_cons_self ..)
  | listRevocations limit =>
    obtain rfl := Except.ok.inj h
    exact mem_visibleRevocations ((List.mem_insertionSort _).mp (List.mem_of_mem_take hr))

theorem good_orRollBack {α : Type} {result : Result α} {next : α → Txn}
    (h : ∀ a, result = .ok a → Good db (next a)) : Good db (orRollBack result next) := by
  cases result with
  | error failure => trivial
  | ok a => exact h a rfl

theorem good_stepCapture {rt : Runtime} {clock : Instant} {ctx : TenantContext}
    {phase : CapturePhase} {m : Move} {t' : Txn}
    (hstep : stepCapture rt db clock ctx phase m = some t') : Good db t' := by
  unfold stepCapture at hstep
  split at hstep
  · obtain rfl := Option.some.inj hstep
    apply good_orRollBack
    intro _ _
    trivial
  · rename_i request validAt knownAt serviceClock index
    obtain rfl := Option.some.inj hstep
    generalize search rt db ctx request serviceClock index = result
    apply good_orRollBack
    intro _ _
    trivial
  · obtain rfl := Option.some.inj hstep
    exact good_orRollBack fun write hwrite => (freeze_eq_ok hwrite).1
  · exact absurd hstep (by simp)
  · obtain rfl := Option.some.inj hstep
    trivial
  · exact absurd hstep (by simp)

theorem good_stepDecision {rt : Runtime} {clock : Instant} {ctx : TenantContext}
    {d : DecisionDraft} {phase : DecisionPhase} {m : Move} {t' : Txn}
    (h : Good db (.decision ctx d phase))
    (hstep : stepDecision rt db clock ctx d phase m = some t') : Good db t' := by
  unfold stepDecision at hstep
  split at hstep
  · obtain rfl := Option.some.inj hstep
    apply good_orRollBack
    intro _ _
    trivial
  · obtain rfl := Option.some.inj hstep
    exact good_orRollBack fun snapshot hload => loadSnapshot_eq_ok hload
  · obtain rfl := Option.some.inj hstep
    exact good_orRollBack fun _ _ => h
  · obtain rfl := Option.some.inj hstep
    exact h
  · obtain rfl := Option.some.inj hstep
    refine good_orRollBack fun write hwrite => ?_
    obtain ⟨hnew, hid, horg, hsnapshot, -⟩ := writeDecision_eq_ok hwrite
    refine ⟨fun row hrow => hid ▸ hnew row hrow, _, h.1, ?_, hsnapshot.symm⟩
    rw [h.2, horg]
  · exact absurd hstep (by simp)
  · obtain rfl := Option.some.inj hstep
    trivial
  · exact absurd hstep (by simp)

/-- A revocation's own view holds the impacts it wrote and no others. -/
theorem storedIn_apply (htables : Tables db) {write : RevokeWrite}
    (hfresh : ∀ x ∈ db.revocations, x.id ≠ write.revocation.id) (id : Uuid) :
    storedIn (write.apply db).impacts write.revocation id ↔
      storedIn write.impacts write.revocation id := by
  constructor
  · rintro ⟨row, hrow, hrevocation, hid⟩
    rcases List.mem_append.mp hrow with hrow | hrow
    · obtain ⟨r, hr, himpact⟩ := htables.impactOf row hrow
      obtain ⟨entry, -, rfl⟩ := mem_impactRows.mp himpact
      exact absurd hrevocation (hfresh r hr)
    · exact ⟨row, hrow, hrevocation, hid⟩
  · rintro ⟨row, hrow, hkeys⟩
    exact ⟨row, List.mem_append_right _ hrow, hkeys⟩

/-- The impacts read are those of every decision committed by then. -/
theorem impacting_impactRows {r : FactRevocation} (h : FreshRevocation db r) :
    Impacting db ⟨r, impactRows db r⟩ db.decisions := by
  refine ⟨h, fun row hrow => hrow, fun d hd => hd, ?_⟩
  intro entry hentry _
  exact ⟨_, mem_impactRows.mpr ⟨entry, hentry, rfl⟩, rfl, rfl⟩

theorem mem_apply_revocations (write : RevokeWrite) (db : Database) :
    write.revocation ∈ (write.apply db).revocations :=
  List.mem_append_right _ (List.mem_singleton.mpr rfl)

theorem good_stepRevoke (htables : Tables db) {ctx : TenantContext} {now : Instant}
    {request : RevokeRequest} {phase : RevokePhase} {m : Move} {t' : Txn}
    (h : Good db (.revoke ctx now request phase))
    (hstep : stepRevoke db ctx now request phase m = some t') : Good db t' := by
  unfold stepRevoke at hstep
  split at hstep
  · obtain rfl := Option.some.inj hstep
    apply good_orRollBack
    intro _ _
    trivial
  · obtain rfl := Option.some.inj hstep
    trivial
  · obtain rfl := Option.some.inj hstep
    refine good_orRollBack fun r hr => ?_
    obtain ⟨hfresh, -, horg, -⟩ := insertRevocation_eq_ok hr
    exact ⟨horg, hfresh⟩
  · obtain rfl := Option.some.inj hstep
    exact ⟨h.1, impacting_impactRows h.2, trivial⟩
  · obtain rfl := Option.some.inj hstep
    exact good_orRollBack fun details hdetails => ⟨h.1, h.2.1, detailsOf_eq_ok hdetails⟩
  · rename_i write seen details
    obtain rfl := Option.some.inj hstep
    obtain ⟨horg, himpacting, hdetails⟩ := h
    refine ⟨horg, himpacting, hdetails, ?_⟩
    intro id
    have hview := tables_revoke htables himpacting.toFreshRevocation himpacting.rows
    rw [← horg, mem_storedImpacts hview (mem_apply_revocations write db),
      storedIn_apply htables himpacting.fresh]
  · rename_i write seen details stored
    obtain rfl := Option.some.inj hstep
    obtain ⟨horg, himpacting, hdetails, hstored⟩ := h
    refine ⟨himpacting, ?_⟩
    have hview := tables_revoke htables himpacting.toFreshRevocation himpacting.rows
    rw [← horg]
    refine exact_assemble hview (mem_apply_revocations write db) hdetails ?_
    intro id
    rw [storedIn_apply htables himpacting.fresh]
    exact hstored id
  · exact absurd hstep (by simp)
  · obtain rfl := Option.some.inj hstep
    trivial
  · exact absurd hstep (by simp)

theorem good_reportNext {ctx : TenantContext} {question : Question} {found : List FactRevocation}
    {readings : List Reading}
    (hfound : ∀ r ∈ found, r ∈ db.revocations ∧ r.organizationId = ctx.organizationId)
    (hreadings : ∀ reading ∈ readings, Exact reading) :
    Good db (.reader ctx question (reportNext found) readings) := by
  cases found with
  | nil => exact hreadings
  | cons current pending => exact ⟨hfound, trivial, hreadings⟩

theorem good_stepReader (htables : Tables db) {ctx : TenantContext} {question : Question}
    {readings : List Reading} {phase : ReaderPhase} {m : Move} {t' : Txn}
    (h : Good db (.reader ctx question phase readings))
    (hstep : stepReader db ctx question readings phase m = some t') : Good db t' := by
  unfold stepReader at hstep
  split at hstep
  · obtain rfl := Option.some.inj hstep
    exact good_orRollBack fun _ _ => h
  · obtain rfl := Option.some.inj hstep
    exact good_orRollBack fun found hfound => good_reportNext (findRevocations_eq_ok hfound) h
  · obtain rfl := Option.some.inj hstep
    exact good_orRollBack fun details hdetails => ⟨h.1, detailsOf_eq_ok hdetails, h.2.2⟩
  · rename_i current details pending
    obtain rfl := Option.some.inj hstep
    obtain ⟨hfound, hdetails, hreadings⟩ := h
    obtain ⟨hmem, horg⟩ := hfound current List.mem_cons_self
    refine ⟨hfound, ⟨hdetails, ?_⟩, hreadings⟩
    intro id
    rw [← horg, mem_storedImpacts htables hmem]
  · rename_i current details stored pending
    obtain rfl := Option.some.inj hstep
    obtain ⟨hfound, ⟨hdetails, hstored⟩, hreadings⟩ := h
    obtain ⟨hmem, horg⟩ := hfound current List.mem_cons_self
    refine good_reportNext (fun r hr => hfound r (List.mem_cons_of_mem _ hr)) ?_
    intro reading hreading
    rcases List.mem_append.mp hreading with hreading | hreading
    · exact hreadings reading hreading
    · rw [List.mem_singleton.mp hreading, ← horg]
      exact exact_assemble htables hmem hdetails hstored
  · exact absurd hstep (by simp)
  · obtain rfl := Option.some.inj hstep
    trivial
  · exact absurd hstep (by simp)

theorem good_stepTxn (htables : Tables db) {rt : Runtime} {clock : Instant} {t t' : Txn} {m : Move}
    (h : Good db t) (hstep : stepTxn rt db clock t m = some t') : Good db t' := by
  cases t with
  | capture ctx phase => exact good_stepCapture hstep
  | decision ctx d phase => exact good_stepDecision h hstep
  | revoke ctx now request phase => exact good_stepRevoke htables h hstep
  | reader ctx question phase readings => exact good_stepReader htables h hstep
  | rolledBack failure => exact absurd hstep (by simp [stepTxn])

theorem holds_orRollBack {α : Type} {result : Result α} {next : α → Txn}
    (h : (orRollBack result next).holds = some key) :
    ∃ a, result = .ok a ∧ (next a).holds = some key := by
  cases result with
  | error failure => exact absurd h (by simp [orRollBack, Txn.holds])
  | ok a => exact ⟨a, rfl, h⟩

/-- A step holds no key but those held before and the one it inserts. -/
theorem holds_stepTxn {rt : Runtime} {clock : Instant} {t t' : Txn} {m : Move}
    (hstep : stepTxn rt db clock t m = some t') (hkey : t'.holds = some key) :
    t.holds = some key ∨ insertedKey t m = some key := by
  cases t with
  | capture ctx phase =>
    simp only [stepTxn] at hstep
    unfold stepCapture at hstep
    split at hstep
    · obtain rfl := Option.some.inj hstep
      obtain ⟨_, -, h⟩ := holds_orRollBack hkey
      exact absurd h (by simp [Txn.holds])
    · rename_i request validAt knownAt serviceClock index
      obtain rfl := Option.some.inj hstep
      generalize search rt db ctx request serviceClock index = result at hkey
      obtain ⟨_, -, h⟩ := holds_orRollBack hkey
      exact absurd h (by simp [Txn.holds])
    · obtain rfl := Option.some.inj hstep
      obtain ⟨write, hwrite, h⟩ := holds_orRollBack hkey
      rw [← (freeze_eq_ok hwrite).2]
      exact Or.inr h
    · exact absurd hstep (by simp)
    · obtain rfl := Option.some.inj hstep
      exact absurd hkey (by simp [Txn.holds])
    · exact absurd hstep (by simp)
  | decision ctx d phase =>
    simp only [stepTxn] at hstep
    unfold stepDecision at hstep
    split at hstep
    · obtain rfl := Option.some.inj hstep
      obtain ⟨_, -, h⟩ := holds_orRollBack hkey
      exact absurd h (by simp [Txn.holds])
    · obtain rfl := Option.some.inj hstep
      obtain ⟨_, -, h⟩ := holds_orRollBack hkey
      exact absurd h (by simp [Txn.holds])
    · obtain rfl := Option.some.inj hstep
      obtain ⟨_, -, h⟩ := holds_orRollBack hkey
      exact absurd h (by simp [Txn.holds])
    · obtain rfl := Option.some.inj hstep
      exact absurd hkey (by simp [Txn.holds])
    · obtain rfl := Option.some.inj hstep
      obtain ⟨write, hwrite, h⟩ := holds_orRollBack hkey
      rw [← (writeDecision_eq_ok hwrite).2.1]
      exact Or.inr h
    · exact absurd hstep (by simp)
    · obtain rfl := Option.some.inj hstep
      exact absurd hkey (by simp [Txn.holds])
    · exact absurd hstep (by simp)
  | revoke ctx now request phase =>
    simp only [stepTxn] at hstep
    unfold stepRevoke at hstep
    split at hstep
    · obtain rfl := Option.some.inj hstep
      obtain ⟨_, -, h⟩ := holds_orRollBack hkey
      exact absurd h (by simp [Txn.holds])
    · obtain rfl := Option.some.inj hstep
      exact absurd hkey (by simp [Txn.holds])
    · obtain rfl := Option.some.inj hstep
      obtain ⟨r, hr, h⟩ := holds_orRollBack hkey
      rw [← (insertRevocation_eq_ok hr).2.1]
      exact Or.inr h
    · obtain rfl := Option.some.inj hstep
      exact Or.inl hkey
    · obtain rfl := Option.some.inj hstep
      obtain ⟨_, -, h⟩ := holds_orRollBack hkey
      exact Or.inl h
    · obtain rfl := Option.some.inj hstep
      exact Or.inl hkey
    · obtain rfl := Option.some.inj hstep
      exact Or.inl hkey
    · exact absurd hstep (by simp)
    · obtain rfl := Option.some.inj hstep
      exact absurd hkey (by simp [Txn.holds])
    · exact absurd hstep (by simp)
  | reader ctx question phase readings =>
    simp only [stepTxn] at hstep
    unfold stepReader at hstep
    split at hstep
    · obtain rfl := Option.some.inj hstep
      obtain ⟨_, -, h⟩ := holds_orRollBack hkey
      exact absurd h (by simp [Txn.holds])
    · obtain rfl := Option.some.inj hstep
      obtain ⟨_, -, h⟩ := holds_orRollBack hkey
      exact absurd h (by simp [Txn.holds])
    · obtain rfl := Option.some.inj hstep
      obtain ⟨_, -, h⟩ := holds_orRollBack hkey
      exact absurd h (by simp [Txn.holds])
    · obtain rfl := Option.some.inj hstep
      exact absurd hkey (by simp [Txn.holds])
    · obtain rfl := Option.some.inj hstep
      exact absurd hkey (by simp [Txn.holds])
    · exact absurd hstep (by simp)
    · obtain rfl := Option.some.inj hstep
      exact absurd hkey (by simp [Txn.holds])
    · exact absurd hstep (by simp)
  | rolledBack failure => exact absurd hstep (by simp [stepTxn])

/-- What a commit does, and what the committed transaction knows afterwards. -/
theorem commit_cases (htables : Tables db) {t t' : Txn} (h : Good db t)
    (hcommit : t.commit db = some (t', db')) :
    ∃ key, t.holds = some key ∧ Grows key db db' ∧ Tables db' ∧ Good db' t' ∧ t'.holds = none := by
  unfold Txn.commit at hcommit
  split at hcommit
  · rename_i ctx write
    obtain ⟨rfl, rfl⟩ := Prod.mk.inj (Option.some.inj hcommit)
    exact ⟨_, rfl, grows_capture htables h, tables_capture htables h, trivial, rfl⟩
  · rename_i ctx d write
    obtain ⟨rfl, rfl⟩ := Prod.mk.inj (Option.some.inj hcommit)
    exact ⟨_, rfl, grows_decide h, tables_decide htables h, trivial, rfl⟩
  · rename_i ctx now request write seen reading
    obtain ⟨rfl, rfl⟩ := Prod.mk.inj (Option.some.inj hcommit)
    obtain ⟨himpacting, hexact⟩ := h
    have hfresh := himpacting.toFreshRevocation
    refine ⟨_, rfl, grows_revoke hfresh himpacting.rows,
      tables_revoke htables hfresh himpacting.rows, ⟨?_, hexact⟩, rfl⟩
    refine ⟨mem_apply_revocations write db, himpacting.known, ?_⟩
    intro entry hentry hseen
    rw [storedIn_apply htables hfresh.fresh]
    exact himpacting.covered entry hentry hseen
  · exact absurd hcommit (by simp)

end

/-- Holding different keys. -/
def KeysApart (t u : Txn) : Prop := ∀ key, t.holds = some key → u.holds ≠ some key

theorem KeysApart.symm (t u : Txn) (h : KeysApart t u) : KeysApart u t :=
  fun key hu ht => h key ht hu

/-- A committed revocation, with what it wrote and saw. -/
def revoked (t : Txn) (write : RevokeWrite) (seen : List Decision) : Prop :=
  ∃ ctx now request reading, t = .revoke ctx now request (.committed write seen reading)

structure Coherent (w : World) : Prop where
  tables : Tables w.db
  good : ∀ t ∈ w.txns, Good w.db t
  apart : Apart KeysApart w.txns
  origin : ∀ r ∈ w.db.revocations, ∃ t ∈ w.txns, ∃ write seen, revoked t write seen ∧
    write.revocation = r

theorem start_coherent {w : World} (h : Start w) : Coherent w := by
  refine ⟨⟨h.keyed, ?_, ?_, ?_, ?_, ?_, ?_, ?_, ?_, ?_⟩, ?_, ?_, ?_⟩
  · simp [h.snapshots]
  · simp [h.snapshotFacts]
  · simp [h.decisions]
  · simp [h.revocations]
  · simp [h.snapshotFacts]
  · simp [h.decisions]
  · simp [h.decisionFacts]
  · simp [h.revocations]
  · simp [h.impacts]
  · simp [h.txns]
  · rw [h.txns]
    exact apart_nil _
  · simp [h.revocations]

theorem revoked_ne_of_stepTxn {rt : Runtime} {db : Database} {clock : Instant} {t t' u : Txn}
    {m : Move} {write : RevokeWrite} {seen : List Decision} (hu : revoked u write seen)
    (hstep : stepTxn rt db clock t m = some t') : u ≠ t := by
  rintro rfl
  obtain ⟨ctx, now, request, reading, rfl⟩ := hu
  exact absurd hstep (by simp [stepTxn, stepRevoke])

theorem revoked_ne_of_commit {db db' : Database} {t t' u : Txn} {write : RevokeWrite}
    {seen : List Decision} (hu : revoked u write seen) (hcommit : t.commit db = some (t', db')) :
    u ≠ t := by
  rintro rfl
  obtain ⟨ctx, now, request, reading, rfl⟩ := hu
  exact absurd hcommit (by simp [Txn.commit])

/-- The transaction that inserted a new revocation is the one that commits it. -/
theorem revoked_of_commit {db db' : Database} {t t' : Txn} (hgood : Good db t) {r : FactRevocation}
    (hcommit : t.commit db = some (t', db')) (hkey : t.holds = some (.revocation r.id))
    (hr : r ∈ db'.revocations) :
    ∃ write seen, revoked t' write seen ∧ write.revocation = r := by
  unfold Txn.commit at hcommit
  split at hcommit
  · exact absurd hkey (by simp [Txn.holds])
  · exact absurd hkey (by simp [Txn.holds])
  · rename_i ctx now request write seen reading
    obtain ⟨rfl, rfl⟩ := Prod.mk.inj (Option.some.inj hcommit)
    refine ⟨write, seen, ⟨ctx, now, request, reading, rfl⟩, ?_⟩
    rcases List.mem_append.mp hr with hr | hr
    · exact absurd (RowKey.revocation.inj (Option.some.inj hkey)).symm (hgood.1.fresh r hr)
    · exact (List.mem_singleton.mp hr).symm
  · exact absurd hcommit (by simp)

theorem coherent_move {rt : Runtime} {w : World} (h : Coherent w) {i : ℕ} {t t' : Txn} {m : Move}
    {clock : Instant} (ht : w.txns[i]? = some t) (hready : w.ready i t m = true)
    (hstep : stepTxn rt w.db clock t m = some t') :
    Coherent { w with txns := w.txns.set i t', clock := clock } := by
  refine ⟨h.tables, ?_, ?_, ?_⟩
  · intro u hu
    rcases mem_set_cases hu with rfl | ⟨j, -, hj⟩
    · exact good_stepTxn h.tables (h.good t (List.mem_of_getElem? ht)) hstep
    · exact h.good u (List.mem_of_getElem? hj)
  · refine h.apart.set KeysApart.symm ?_
    intro j u hu hij key hkey hother
    rcases holds_stepTxn hstep hkey with hheld | hinserted
    · exact h.apart i j t u ht hu hij key hheld hother
    · unfold World.ready at hready
      rw [Bool.and_eq_true, hinserted, Option.all_some] at hready
      have hfree := List.all_eq_true.mp hready.1 u (mem_eraseIdx_of_ne hu hij)
      exact bne_iff_ne.mp hfree hother
  · intro r hr
    obtain ⟨u, hu, write, seen, hrevoked, hwrite⟩ := h.origin r hr
    exact ⟨u, mem_set_of_ne ht hu (revoked_ne_of_stepTxn hrevoked hstep), write, seen, hrevoked,
      hwrite⟩

theorem coherent_commit {w : World} (h : Coherent w) {i : ℕ} {t t' : Txn} {db' : Database}
    {clock : Instant} (ht : w.txns[i]? = some t) (hcommit : t.commit w.db = some (t', db')) :
    Coherent { db := db', txns := w.txns.set i t', clock := clock } := by
  obtain ⟨key, hkey, hgrows, htables, hgood, hnone⟩ :=
    commit_cases h.tables (h.good t (List.mem_of_getElem? ht)) hcommit
  refine ⟨htables, ?_, ?_, ?_⟩
  · intro u hu
    rcases mem_set_cases hu with rfl | ⟨j, hij, hj⟩
    · exact hgood
    · exact (h.good u (List.mem_of_getElem? hj)).grow hgrows (h.apart i j t u ht hj hij key hkey)
  · refine h.apart.set KeysApart.symm ?_
    intro j u _ _ k hk
    exact absurd (hnone.symm.trans hk) (by simp)
  · intro r hr
    rcases hgrows.newRevocation r hr with hold | hnew
    · obtain ⟨u, hu, write, seen, hrevoked, hwrite⟩ := h.origin r hold
      exact ⟨u, mem_set_of_ne ht hu (revoked_ne_of_commit hrevoked hcommit), write, seen, hrevoked,
        hwrite⟩
    · obtain ⟨write, seen, hrevoked, hwrite⟩ := revoked_of_commit
        (h.good t (List.mem_of_getElem? ht)) hcommit (hkey.trans (congrArg some hnew)) hr
      exact ⟨t', List.mem_set (List.getElem?_eq_some_iff.mp ht).1 t', write, seen, hrevoked, hwrite⟩

theorem good_begun {db : Database} {clock : Instant} {action : Action} {t : Txn}
    (h : begun clock action = some t) : Good db t ∧ t.holds = none := by
  unfold begun at h
  split at h
  · obtain rfl := Option.some.inj h
    exact ⟨trivial, rfl⟩
  · obtain rfl := Option.some.inj h
    cases draftDecision _ <;> exact ⟨trivial, rfl⟩
  · obtain rfl := Option.some.inj h
    cases revokeRequest _ _ _ <;> exact ⟨trivial, rfl⟩
  · obtain rfl := Option.some.inj h
    cases Question.check _
    · exact ⟨trivial, rfl⟩
    · refine ⟨?_, rfl⟩
      intro reading hreading
      exact absurd hreading (by simp)
  · exact absurd h (by simp)

theorem coherent_begin {w : World} (h : Coherent w) {clock : Instant} {t : Txn}
    (hgood : Good w.db t) (hnone : t.holds = none) :
    Coherent { w with txns := w.txns ++ [t], clock := clock } := by
  refine ⟨h.tables, ?_, ?_, ?_⟩
  · intro u hu
    rcases List.mem_append.mp hu with hu | hu
    · exact h.good u hu
    · rw [List.mem_singleton.mp hu]
      exact hgood
  · refine h.apart.append KeysApart.symm ?_
    intro u _ key hkey
    exact absurd (hnone.symm.trans hkey) (by simp)
  · intro r hr
    obtain ⟨u, hu, hrest⟩ := h.origin r hr
    exact ⟨u, List.mem_append_left _ hu, hrest⟩

/-- The kinds of steps. -/
inductive Stepped (rt : Runtime) (w : World) (e : Event) : World → Prop
  | begun (t : Txn) (h : begun e.clock e.action = some t) :
      Stepped rt w e { w with txns := w.txns ++ [t], clock := e.clock }
  | moved (i : ℕ) (m : Move) (t t' : Txn) (haction : e.action = .move i m)
      (ht : w.txns[i]? = some t) (hready : w.ready i t m = true)
      (hstep : stepTxn rt w.db e.clock t m = some t') :
      Stepped rt w e { w with txns := w.txns.set i t', clock := e.clock }
  | committed (i : ℕ) (t t' : Txn) (db' : Database) (haction : e.action = .commit i)
      (ht : w.txns[i]? = some t) (hcommit : t.commit w.db = some (t', db')) :
      Stepped rt w e { db := db', txns := w.txns.set i t', clock := e.clock }

theorem step_cases {rt : Runtime} {w w' : World} {e : Event} (h : step rt w e = some w') :
    Stepped rt w e w' := by
  unfold step at h
  split at h
  · rename_i i m haction
    split at h
    · exact absurd h (by simp)
    · rename_i t ht
      split at h
      · rename_i hready
        obtain ⟨t', hstep, rfl⟩ := Option.map_eq_some_iff.mp h
        exact Stepped.moved i m t t' haction ht hready hstep
      · exact absurd h (by simp)
  · rename_i i haction
    split at h
    · exact absurd h (by simp)
    · rename_i t ht
      obtain ⟨⟨t', db'⟩, hcommit, rfl⟩ := Option.map_eq_some_iff.mp h
      exact Stepped.committed i t t' db' haction ht hcommit
  · obtain ⟨t, ht, rfl⟩ := Option.map_eq_some_iff.mp h
    exact Stepped.begun t ht

theorem coherent_step {rt : Runtime} {w w' : World} {e : Event} (h : Coherent w)
    (hstep : step rt w e = some w') : Coherent w' := by
  cases step_cases hstep with
  | begun t ht =>
    obtain ⟨hgood, hnone⟩ := good_begun ht
    exact coherent_begin h hgood hnone
  | moved i m t t' haction ht hready hmove => exact coherent_move h ht hready hmove
  | committed i t t' db' haction ht hcommit => exact coherent_commit h ht hcommit

theorem reachable_coherent {rt : Runtime} {w : World} (h : (system rt).Reachable w) :
    Coherent w :=
  (system rt).reachable_invariant Coherent (fun _ => start_coherent)
    (fun _ _ _ => coherent_step) h

theorem exact_of_good {db : Database} {t : Txn} (h : Good db t) {reading : Reading}
    (hreading : reading ∈ t.readings) : Exact reading := by
  cases t with
  | revoke ctx now request phase =>
    cases phase with
    | reported write seen own =>
      rw [List.mem_singleton.mp hreading]
      exact h.2
    | committed write seen own =>
      rw [List.mem_singleton.mp hreading]
      exact h.2
    | _ => exact absurd hreading (by simp [Txn.readings])
  | reader ctx question phase readings =>
    cases phase with
    | reporting current progress pending => exact h.2.2 reading hreading
    | begun => exact h reading hreading
    | allowed visible => exact h reading hreading
    | finished => exact h reading hreading
  | _ => exact absurd hreading (by simp [Txn.readings])

/-- A row found by a key of its own is found once. -/
theorem filter_key_eq {α : Type} {l : List α} (org id : α → Uuid) (hnodup : (l.map id).Nodup)
    {a : α} (ha : a ∈ l) : (l.filter fun b => org b == org a && id b == id a) = [a] := by
  apply TemporalEngine.filter_eq_singleton hnodup.of_map ha
  intro b hb
  simp only [Bool.and_eq_true, beq_iff_eq]
  constructor
  · rintro ⟨-, hid⟩
    exact List.inj_on_of_nodup_map hnodup hb ha hid
  · rintro rfl
    exact ⟨rfl, rfl⟩

/-- The report of a committed revocation can be read, and it is exact. -/
theorem reportOf_eq_ok {db : Database} (h : Tables db) {r : FactRevocation}
    (hr : r ∈ db.revocations) : ∃ report, reportOf db r.organizationId r = .ok report ∧
      Exact ⟨r.organizationId, db, report⟩ := by
  obtain ⟨v, hv, hvorg, hvid⟩ := h.versionOf r hr
  obtain ⟨f, hf, hforg, hfid⟩ := h.keyed.factOf v hv
  obtain ⟨e, he, heorg, heid⟩ := h.keyed.entityOf f hf
  have hdetails : detailsOf db r.organizationId r = .ok (v, f, e) := by
    unfold detailsOf joinedTo
    rw [← hvorg, ← hvid, filter_key_eq FactVersion.organizationId FactVersion.id h.keyed.versions hv,
      List.flatMap_singleton, ← hforg, ← hfid,
      filter_key_eq Fact.organizationId Fact.id h.keyed.facts hf, List.flatMap_singleton, ← heorg,
      ← heid, filter_key_eq Entity.organizationId Entity.id h.keyed.entities he]
    rfl
  refine ⟨_, by rw [reportOf, hdetails]; rfl, ?_⟩
  exact exact_assemble h hr hvid (mem_storedImpacts h hr)

/-- Every report that any call reads is exact for the rows it read; the report of a
committed revocation can be read in every state; and every decision that had committed
when a revocation read its impacts has an impact row if its context held the version. -/
theorem reports_exact (rt : Runtime) (w : World) (hw : (system rt).Reachable w) :
    (∀ t ∈ w.txns, ∀ reading ∈ t.readings, Exact reading) ∧
    ∀ r ∈ w.db.revocations,
      (∃ report, reportOf w.db r.organizationId r = .ok report ∧
        Exact ⟨r.organizationId, w.db, report⟩) ∧
      ∃ t ∈ w.txns, ∃ write seen, revoked t write seen ∧ write.revocation = r ∧
        ∀ d ∈ seen, d.organizationId = r.organizationId → InContext w.db d r.factVersionId →
          ∃ row ∈ w.db.impacts, row.revocationId = r.id ∧ row.decisionId = d.id := by
  have hcoherent := reachable_coherent hw
  refine ⟨?_, ?_⟩
  · intro t ht reading hreading
    exact exact_of_good (hcoherent.good t ht) hreading
  · intro r hr
    refine ⟨reportOf_eq_ok hcoherent.tables hr, ?_⟩
    obtain ⟨t, ht, write, seen, hrevoked, rfl⟩ := hcoherent.origin r hr
    refine ⟨t, ht, write, seen, hrevoked, rfl, ?_⟩
    obtain ⟨ctx, now, request, reading, rfl⟩ := hrevoked
    obtain ⟨hfiled, -⟩ := hcoherent.good _ ht
    intro d hd horg hcontext
    exact hfiled.covered (d, reliesOn w.db d write.revocation.factVersionId)
      ((mem_decisionsWith_iff hcoherent.tables).mpr ⟨hfiled.known d hd, horg, rfl, hcontext⟩) hd

/-- One version, recorded before anything else happens. -/
def exampleStart : World :=
  ⟨Ledger.performAll exampleRuntime exampleDatabase
    [⟨10, .record exampleContext (exampleCommand true 0) ⟨10, 11, 12⟩⟩], [], 20⟩

theorem exampleStart_start : Start exampleStart := by
  have hempty : exampleStart.db.snapshots.isEmpty ∧ exampleStart.db.snapshotFacts.isEmpty ∧
      exampleStart.db.decisions.isEmpty ∧ exampleStart.db.decisionFacts.isEmpty ∧
      exampleStart.db.revocations.isEmpty ∧ exampleStart.db.impacts.isEmpty := by
    decide +kernel
  simp only [List.isEmpty_iff] at hempty
  obtain ⟨hsnapshots, hsnapshotFacts, hdecisions, hdecisionFacts, hrevocations, himpacts⟩ := hempty
  refine ⟨⟨?_, ?_, ?_, ?_, ?_⟩, hsnapshots, hsnapshotFacts, hdecisions, hdecisionFacts,
    hrevocations, himpacts, rfl⟩
  all_goals decide +kernel

/-- A context captured by the transaction at `i`, from the given clock reading on. -/
def exampleCapture (i : ℕ) (clock : Instant) (id : Uuid) : List Event :=
  [⟨clock, .beginCapture exampleContext (exampleQuery none)⟩, ⟨clock, .move i .permit⟩,
   ⟨clock, .move i (.search clock Ledger.exampleIndex)⟩, ⟨clock + 1, .move i (.insert id)⟩,
   ⟨clock + 1, .commit i⟩]

/-- A decision on that context up to its clock reading, and the rest of it. -/
def exampleDecide (i : ℕ) (clock : Instant) : List Event :=
  [⟨clock, .beginDecision exampleContext (Ledger.exampleDecision ⟨.bool true, trivial⟩)⟩,
   ⟨clock, .move i .permit⟩, ⟨clock, .move i .load⟩, ⟨clock, .move i .rows⟩,
   ⟨clock, .move i .stamp⟩]

def exampleDecided (i : ℕ) (clock : Instant) (id : Uuid) : List Event :=
  [⟨clock, .move i (.insert id)⟩, ⟨clock, .commit i⟩]

/-- A revocation of the version up to its lock, to its impacts, and the rest of it. -/
def exampleRevoke (i : ℕ) (clock : Instant) : List Event :=
  [⟨clock, .beginRevoke exampleContext 11 none "entered by mistake"⟩, ⟨clock, .move i .permit⟩,
   ⟨clock, .move i .lock⟩]

def exampleImpacts (i : ℕ) (clock : Instant) (id : Uuid) : List Event :=
  [⟨clock, .move i (.insert id)⟩, ⟨clock, .move i .impacts⟩]

def exampleRevoked (i : ℕ) (clock : Instant) : List Event :=
  [⟨clock, .move i .describe⟩, ⟨clock, .move i .compare⟩, ⟨clock, .move i .list⟩,
   ⟨clock, .commit i⟩]

def exampleRead (i : ℕ) (clock : Instant) : List Event :=
  [⟨clock, .beginRead exampleContext (.impactOfVersion 12)⟩, ⟨clock, .move i .permit⟩,
   ⟨clock, .move i .find⟩, ⟨clock, .move i .describe⟩, ⟨clock, .move i .compare⟩,
   ⟨clock, .move i .list⟩]

/-- A decision before the revocation reads its impacts and one after. -/
def exampleEvents : List Event :=
  exampleCapture 0 30 40 ++ exampleDecide 1 32 ++ exampleDecided 1 33 50 ++ exampleRevoke 2 34 ++
    exampleImpacts 2 35 60 ++ exampleDecide 3 36 ++ exampleDecided 3 37 51 ++
    exampleRevoked 2 38 ++ exampleRead 4 39

/-- What a reader of the run learns: each decision with its flags. -/
def listedBy (w : World) (i : ℕ) : List (List (Uuid × Bool × Bool × Bool)) :=
  ((w.txns[i]?).elim [] Txn.readings).map fun reading => reading.report.decisions.map fun e =>
    (e.decisionId, e.reliedOn, e.recordedAtRevocation, e.decidedAfterRevocation)

theorem exampleEvents_listed : ((system exampleRuntime).run exampleStart exampleEvents).any
    (fun w => decide (listedBy w 4 = [[(50, true, true, false), (51, true, false, true)]])) =
      true := by
  decide +kernel

theorem reports_exact_example : ∃ w, (system exampleRuntime).Reachable w ∧
    listedBy w 4 = [[(50, true, true, false), (51, true, false, true)]] ∧
    ∀ t ∈ w.txns, ∀ reading ∈ t.readings, Exact reading := by
  obtain ⟨w, hrun, hlisted⟩ := (Option.any_eq_true _ _).mp exampleEvents_listed
  have hw : (system exampleRuntime).Reachable w :=
    ⟨exampleStart, exampleEvents, exampleStart_start, hrun⟩
  exact ⟨w, hw, of_decide_eq_true hlisted, (reports_exact exampleRuntime w hw).1⟩

end ContextLedger.ImpactExactness

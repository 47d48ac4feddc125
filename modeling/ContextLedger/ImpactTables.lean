import ContextLedger.DecisionWorld

/-!
The rows behind an impact report. A decision is listed when its snapshot holds the
revoked version; a snapshot's rows and a decision's relied-on rows come with it and
never later, so neither the list nor the flags of the decisions already in it change
when other transactions commit.
-/
namespace ContextLedger.ImpactTables

open Values Schema Facts Retrieval Decisions Revocations ImpactReports DecisionWorld

/-- The decision's snapshot holds the version. -/
def InContext (db : Database) (d : Decision) (versionId : Uuid) : Prop :=
  ∃ s ∈ db.snapshotFacts, s.snapshotId = d.snapshotId ∧ s.factVersionId = versionId

/-- Keys and references of the rows of contexts, decisions and revocations. -/
structure Tables (db : Database) : Prop where
  keyed : Keyed db
  snapshots : (db.snapshots.map ContextSnapshot.id).Nodup
  snapshotFacts : (db.snapshotFacts.map fun s => (s.snapshotId, s.factVersionId)).Nodup
  decisions : (db.decisions.map Decision.id).Nodup
  revocations : (db.revocations.map FactRevocation.id).Nodup
  snapshotOf : ∀ s ∈ db.snapshotFacts, ∃ x ∈ db.snapshots,
    x.organizationId = s.organizationId ∧ x.id = s.snapshotId
  contextOf : ∀ d ∈ db.decisions, ∃ x ∈ db.snapshots,
    x.organizationId = d.organizationId ∧ x.id = d.snapshotId
  decisionOf : ∀ f ∈ db.decisionFacts, ∃ d ∈ db.decisions,
    d.organizationId = f.organizationId ∧ d.id = f.decisionId
  versionOf : ∀ r ∈ db.revocations, ∃ v ∈ db.versions,
    v.organizationId = r.organizationId ∧ v.id = r.factVersionId
  impactOf : ∀ row ∈ db.impacts, ∃ r ∈ db.revocations, row ∈ impactRows db r

def reliesOn (db : Database) (d : Decision) (versionId : Uuid) : Bool :=
  db.decisionFacts.any fun f => f.organizationId == d.organizationId &&
    f.decisionId == d.id && f.factVersionId == versionId

theorem mem_decisionsWith {db : Database} {org versionId : Uuid} {entry : Decision × Bool} :
    entry ∈ decisionsWith db org versionId ↔ entry.1 ∈ db.decisions ∧
      entry.1.organizationId = org ∧ entry.2 = reliesOn db entry.1 versionId ∧
      ∃ s ∈ db.snapshotFacts, s.organizationId = entry.1.organizationId ∧
        s.snapshotId = entry.1.snapshotId ∧ s.factVersionId = versionId := by
  obtain ⟨d, flag⟩ := entry
  unfold decisionsWith
  simp only [List.mem_insertionSort, List.mem_flatMap, List.mem_map, List.mem_filter,
    Bool.and_eq_true, beq_iff_eq, Prod.mk.injEq]
  constructor
  · rintro ⟨_, hd, s, ⟨hs, ⟨⟨horg, hsnapshot⟩, hown⟩, hversion⟩, rfl, hflag⟩
    exact ⟨hd, hown, hflag.symm, s, hs, horg, hsnapshot, hversion⟩
  · rintro ⟨hd, hown, hflag, s, hs, horg, hsnapshot, hversion⟩
    exact ⟨d, hd, s, ⟨hs, ⟨⟨horg, hsnapshot⟩, hown⟩, hversion⟩, rfl, hflag.symm⟩

theorem eq_of_snapshot_id {db : Database} (h : Tables db) {x y : ContextSnapshot}
    (hx : x ∈ db.snapshots) (hy : y ∈ db.snapshots) (hid : x.id = y.id) : x = y :=
  List.inj_on_of_nodup_map h.snapshots hx hy hid

/-- A row of the decision's snapshot is a row of its organization. -/
theorem mem_decisionsWith_iff {db : Database} (h : Tables db) {org versionId : Uuid}
    {entry : Decision × Bool} :
    entry ∈ decisionsWith db org versionId ↔ entry.1 ∈ db.decisions ∧
      entry.1.organizationId = org ∧ entry.2 = reliesOn db entry.1 versionId ∧
      InContext db entry.1 versionId := by
  rw [mem_decisionsWith]
  constructor
  · rintro ⟨hd, horg, hflag, s, hs, -, hsnapshot, hversion⟩
    exact ⟨hd, horg, hflag, s, hs, hsnapshot, hversion⟩
  · rintro ⟨hd, horg, hflag, s, hs, hsnapshot, hversion⟩
    obtain ⟨x, hx, hxorg, hxid⟩ := h.snapshotOf s hs
    obtain ⟨y, hy, hyorg, hyid⟩ := h.contextOf entry.1 hd
    have hxy : x = y := eq_of_snapshot_id h hx hy (hxid.trans (hsnapshot.trans hyid.symm))
    refine ⟨hd, horg, hflag, s, hs, ?_, hsnapshot, hversion⟩
    rw [← hxorg, hxy, hyorg]

theorem reliesOn_iff {db : Database} (h : Tables db) {d : Decision} (hd : d ∈ db.decisions)
    (versionId : Uuid) : reliesOn db d versionId = true ↔
      ∃ f ∈ db.decisionFacts, f.decisionId = d.id ∧ f.factVersionId = versionId := by
  unfold reliesOn
  simp only [List.any_eq_true, Bool.and_eq_true, beq_iff_eq]
  constructor
  · rintro ⟨f, hf, ⟨-, hid⟩, hversion⟩
    exact ⟨f, hf, hid, hversion⟩
  · rintro ⟨f, hf, hid, hversion⟩
    obtain ⟨d', hd', horg, hid'⟩ := h.decisionOf f hf
    have heq : d' = d := List.inj_on_of_nodup_map h.decisions hd' hd (hid'.trans hid)
    exact ⟨f, hf, ⟨by rw [← horg, heq], hid⟩, hversion⟩

/-- A join that finds at most one partner for each row keeps the rows apart. -/
theorem flatMap_map_sublist {α β : Type} (f : α → List β) (g : β → α) (l : List α)
    (h : ∀ a ∈ l, f a = [] ∨ ∃ b, f a = [b] ∧ g b = a) : ((l.flatMap f).map g).Sublist l := by
  induction l with
  | nil => exact List.Sublist.slnil
  | cons a l ih =>
    have hrest := ih fun b hb => h b (List.mem_cons_of_mem a hb)
    rw [List.flatMap_cons, List.map_append]
    rcases h a List.mem_cons_self with hnone | ⟨b, hone, hgb⟩
    · rw [hnone]
      exact List.Sublist.cons a hrest
    · rw [hone, List.map_singleton, hgb]
      exact hrest.cons_cons a

theorem nodup_decisionsWith {db : Database} (h : Tables db) (org versionId : Uuid) :
    ((decisionsWith db org versionId).map fun entry => entry.1.id).Nodup := by
  unfold decisionsWith
  refine (((List.perm_insertionSort _ _).map _).nodup_iff).mpr ?_
  rw [show (fun entry : Decision × Bool => entry.1.id) = Decision.id ∘ Prod.fst from rfl,
    ← List.map_map]
  refine List.Nodup.sublist (List.Sublist.map Decision.id (flatMap_map_sublist _ Prod.fst _ ?_))
    h.decisions
  intro d _
  have hone : (db.snapshotFacts.filter fun s => s.organizationId == d.organizationId &&
      s.snapshotId == d.snapshotId && d.organizationId == org &&
        s.factVersionId == versionId).length ≤ 1 := by
    apply Bitemporal.length_filter_le_one
    refine (List.pairwise_map.mp h.snapshotFacts).imp ?_
    intro s t hne hs ht
    simp only [Bool.and_eq_true, beq_iff_eq] at hs ht
    exact hne (Prod.ext (hs.1.1.2.trans ht.1.1.2.symm) (hs.2.trans ht.2.symm))
  rcases Nat.le_one_iff_eq_zero_or_eq_one.mp hone with hzero | hsingle
  · left
    rw [List.length_eq_zero_iff.mp hzero]
    rfl
  · right
    obtain ⟨s, hs⟩ := List.length_eq_one_iff.mp hsingle
    rw [hs]
    exact ⟨_, rfl, rfl⟩

/-- What the report of a revocation has to say of the rows it was read from. -/
structure Exact (reading : Reading) : Prop where
  revoked : ∃ r ∈ reading.db.revocations, r.organizationId = reading.org ∧
    r.id = reading.report.revocationId ∧ r.factVersionId = reading.report.version.id ∧
    r.revokedAt = reading.report.revokedAt
  once : (reading.report.decisions.map ImpactedDecision.decisionId).Nodup
  listed : ∀ id, id ∈ reading.report.decisions.map ImpactedDecision.decisionId ↔
    ∃ d ∈ reading.db.decisions, d.id = id ∧ d.organizationId = reading.org ∧
      InContext reading.db d reading.report.version.id
  reliedOn : ∀ e ∈ reading.report.decisions, e.reliedOn = true ↔
    ∃ f ∈ reading.db.decisionFacts, f.decisionId = e.decisionId ∧
      f.factVersionId = reading.report.version.id
  recorded : ∀ e ∈ reading.report.decisions, e.recordedAtRevocation = true ↔
    ∃ row ∈ reading.db.impacts, row.revocationId = reading.report.revocationId ∧
      row.decisionId = e.decisionId
  after : ∀ e ∈ reading.report.decisions,
    e.decidedAfterRevocation = true ↔ e.recordedAtRevocation = false
  stored : ∀ row ∈ reading.db.impacts, row.revocationId = reading.report.revocationId →
    ∃ e ∈ reading.report.decisions, e.decisionId = row.decisionId ∧ e.reliedOn = row.reliedOn

/-- The impact rows of a revocation, by decision. -/
def storedIn (impacts : List RevocationImpact) (r : FactRevocation) (id : Uuid) : Prop :=
  ∃ row ∈ impacts, row.revocationId = r.id ∧ row.decisionId = id

theorem mem_impactRows {db : Database} {r : FactRevocation} {row : RevocationImpact} :
    row ∈ impactRows db r ↔ ∃ entry ∈ decisionsWith db r.organizationId r.factVersionId,
      row = ⟨r.organizationId, r.id, entry.1.id, entry.1.snapshotId, r.factVersionId, entry.2⟩ := by
  unfold impactRows
  rw [List.mem_map]
  exact ⟨fun ⟨entry, hentry, heq⟩ => ⟨entry, hentry, heq.symm⟩,
    fun ⟨entry, hentry, heq⟩ => ⟨entry, hentry, heq.symm⟩⟩

/-- The impact rows with the key of a committed revocation are rows of it. -/
theorem Tables.impact {db : Database} (h : Tables db) {r : FactRevocation}
    (hr : r ∈ db.revocations) {row : RevocationImpact} (hrow : row ∈ db.impacts)
    (hid : row.revocationId = r.id) : row ∈ impactRows db r := by
  obtain ⟨r', hr', himpact⟩ := h.impactOf row hrow
  obtain ⟨entry, -, rfl⟩ := mem_impactRows.mp himpact
  have heq : r' = r := List.inj_on_of_nodup_map h.revocations hr' hr hid
  exact heq ▸ himpact

theorem mem_storedImpacts {db : Database} (h : Tables db) {r : FactRevocation}
    (hr : r ∈ db.revocations) (id : Uuid) :
    id ∈ storedImpacts db r.organizationId r ↔ storedIn db.impacts r id := by
  unfold storedImpacts storedIn
  simp only [List.mem_map, List.mem_filter, Bool.and_eq_true, beq_iff_eq]
  constructor
  · rintro ⟨row, ⟨hrow, -, hid⟩, rfl⟩
    exact ⟨row, hrow, hid, rfl⟩
  · rintro ⟨row, hrow, hid, rfl⟩
    obtain ⟨entry, -, heq⟩ := mem_impactRows.mp (h.impact hr hrow hid)
    exact ⟨row, ⟨hrow, by rw [heq], hid⟩, rfl⟩

/-- A report put together from the rows of one state is exact for them. -/
theorem exact_assemble {db : Database} (h : Tables db) {r : FactRevocation}
    (hr : r ∈ db.revocations) {details : Details} (hdetails : details.1.id = r.factVersionId)
    {stored : List Uuid} (hstored : ∀ id, id ∈ stored ↔ storedIn db.impacts r id) :
    Exact ⟨r.organizationId, db, assemble r details stored
      (decisionsWith db r.organizationId details.1.id)⟩ := by
  rw [hdetails]
  have hmem : ∀ {e}, e ∈ (decisionsWith db r.organizationId r.factVersionId).map
      (impactedDecision stored) → ∃ entry ∈ decisionsWith db r.organizationId r.factVersionId,
        e = impactedDecision stored entry := by
    intro e he
    obtain ⟨entry, hentry, rfl⟩ := List.mem_map.mp he
    exact ⟨entry, hentry, rfl⟩
  refine ⟨⟨r, hr, rfl, rfl, hdetails.symm, rfl⟩, ?_, ?_, ?_, ?_, ?_, ?_⟩
  · show (((decisionsWith db r.organizationId r.factVersionId).map (impactedDecision stored)).map
      ImpactedDecision.decisionId).Nodup
    rw [List.map_map]
    exact nodup_decisionsWith h r.organizationId r.factVersionId
  · intro id
    show id ∈ ((decisionsWith db r.organizationId r.factVersionId).map
      (impactedDecision stored)).map ImpactedDecision.decisionId ↔ ∃ d ∈ db.decisions,
        d.id = id ∧ d.organizationId = r.organizationId ∧ InContext db d details.1.id
    rw [List.map_map, List.mem_map, hdetails]
    constructor
    · rintro ⟨entry, hentry, rfl⟩
      obtain ⟨hd, horg, -, hcontext⟩ := (mem_decisionsWith_iff h).mp hentry
      exact ⟨entry.1, hd, rfl, horg, hcontext⟩
    · rintro ⟨d, hd, rfl, horg, hcontext⟩
      exact ⟨(d, reliesOn db d r.factVersionId),
        (mem_decisionsWith_iff h).mpr ⟨hd, horg, rfl, hcontext⟩, rfl⟩
  · intro e he
    obtain ⟨entry, hentry, rfl⟩ := hmem he
    obtain ⟨hd, -, hflag, -⟩ := (mem_decisionsWith_iff h).mp hentry
    show entry.2 = true ↔ ∃ f ∈ db.decisionFacts, f.decisionId = entry.1.id ∧
      f.factVersionId = details.1.id
    rw [hflag, reliesOn_iff h hd, hdetails]
  · intro e he
    obtain ⟨entry, hentry, rfl⟩ := hmem he
    show stored.contains entry.1.id = true ↔ _
    rw [List.contains_iff_mem]
    exact hstored entry.1.id
  · intro e he
    obtain ⟨entry, hentry, rfl⟩ := hmem he
    show (!stored.contains entry.1.id) = true ↔ stored.contains entry.1.id = false
    rw [Bool.not_eq_true']
  · intro row hrow hid
    obtain ⟨entry, hentry, rfl⟩ := mem_impactRows.mp (h.impact hr hrow hid)
    exact ⟨impactedDecision stored entry, List.mem_map_of_mem hentry, rfl, rfl⟩

/-- The key belongs to no committed row. -/
def KeyFree (db : Database) : RowKey → Prop
  | .snapshot id => ∀ x ∈ db.snapshots, x.id ≠ id
  | .decision id => ∀ d ∈ db.decisions, d.id ≠ id
  | .revocation id => ∀ r ∈ db.revocations, r.id ≠ id

/-- What the commit of the transaction that inserted `key` does to the rows. -/
structure Grows (key : RowKey) (db db' : Database) : Prop where
  free : KeyFree db key
  versions : db'.versions = db.versions
  snapshots : db.snapshots ⊆ db'.snapshots
  decisions : db.decisions ⊆ db'.decisions
  revocations : db.revocations ⊆ db'.revocations
  impacts : db.impacts ⊆ db'.impacts
  newSnapshot : ∀ x ∈ db'.snapshots, x ∈ db.snapshots ∨ key = .snapshot x.id
  newDecision : ∀ d ∈ db'.decisions, d ∈ db.decisions ∨ key = .decision d.id
  newRevocation : ∀ r ∈ db'.revocations, r ∈ db.revocations ∨ key = .revocation r.id
  newImpact : ∀ row ∈ db'.impacts, row ∈ db.impacts ∨ key = .revocation row.revocationId
  entries : ∀ org versionId entry, entry ∈ decisionsWith db org versionId →
    entry ∈ decisionsWith db' org versionId
  oldEntries : ∀ org versionId entry, entry ∈ decisionsWith db' org versionId →
    entry.1 ∈ db.decisions → entry ∈ decisionsWith db org versionId

structure FreshSnapshot (db : Database) (write : SnapshotWrite) : Prop where
  fresh : ∀ x ∈ db.snapshots, x.id ≠ write.snapshot.id
  facts : ∀ s ∈ write.facts, s.organizationId = write.snapshot.organizationId ∧
    s.snapshotId = write.snapshot.id
  once : (write.facts.map ContextSnapshotFact.factVersionId).Nodup

structure FreshDecision (db : Database) (write : DecisionWrite) : Prop where
  fresh : ∀ d ∈ db.decisions, d.id ≠ write.decision.id
  context : ∃ x ∈ db.snapshots, x.organizationId = write.decision.organizationId ∧
    x.id = write.decision.snapshotId

structure FreshRevocation (db : Database) (r : FactRevocation) : Prop where
  fresh : ∀ x ∈ db.revocations, x.id ≠ r.id
  version : ∃ v ∈ db.versions, v.organizationId = r.organizationId ∧ v.id = r.factVersionId

section

variable {db : Database}

theorem decisionsWith_capture (h : Tables db) {write : SnapshotWrite}
    (hfresh : FreshSnapshot db write) (org versionId : Uuid) (entry : Decision × Bool) :
    entry ∈ decisionsWith (write.apply db) org versionId ↔
      entry ∈ decisionsWith db org versionId := by
  rw [mem_decisionsWith, mem_decisionsWith]
  constructor
  · rintro ⟨hd, horg, hflag, s, hs, hsorg, hsnapshot, hversion⟩
    refine ⟨hd, horg, hflag, s, ?_, hsorg, hsnapshot, hversion⟩
    rcases List.mem_append.mp hs with hs | hs
    · exact hs
    · obtain ⟨x, hx, -, hxid⟩ := h.contextOf entry.1 hd
      exact absurd (hxid.trans (hsnapshot.symm.trans (hfresh.facts s hs).2)) (hfresh.fresh x hx)
  · rintro ⟨hd, horg, hflag, s, hs, hrest⟩
    exact ⟨hd, horg, hflag, s, List.mem_append_left _ hs, hrest⟩

theorem reliesOn_decide {write : DecisionWrite}
    (hfresh : FreshDecision db write) {d : Decision} (hd : d ∈ db.decisions) (versionId : Uuid) :
    reliesOn (write.apply db) d versionId = reliesOn db d versionId := by
  have hnew : ((write.relied.map fun versionId => (⟨write.decision.organizationId,
      write.decision.id, write.decision.snapshotId, versionId⟩ : DecisionFact)).any fun f =>
        f.organizationId == d.organizationId && f.decisionId == d.id &&
          f.factVersionId == versionId) = false := by
    rw [List.any_eq_false]
    intro f hf
    obtain ⟨_, -, rfl⟩ := List.mem_map.mp hf
    simp [(hfresh.fresh d hd).symm]
  show (db.decisionFacts ++ _).any _ = _
  rw [List.any_append, hnew, Bool.or_false]
  rfl

theorem decisionsWith_decide {write : DecisionWrite}
    (hfresh : FreshDecision db write) {org versionId : Uuid} {entry : Decision × Bool}
    (hold : entry.1 ∈ db.decisions) : entry ∈ decisionsWith (write.apply db) org versionId ↔
      entry ∈ decisionsWith db org versionId := by
  rw [mem_decisionsWith, mem_decisionsWith, reliesOn_decide hfresh hold]
  constructor
  · rintro ⟨-, hrest⟩
    exact ⟨hold, hrest⟩
  · rintro ⟨-, hrest⟩
    exact ⟨List.mem_append_left _ hold, hrest⟩

theorem mem_append_singleton {α β : Type} {l : List α} {a x : α} (key : α → β)
    (h : x ∈ l ++ [a]) : x ∈ l ∨ key a = key x := by
  rcases List.mem_append.mp h with h | h
  · exact Or.inl h
  · exact Or.inr (by rw [List.mem_singleton.mp h])

theorem grows_capture (h : Tables db) {write : SnapshotWrite} (hfresh : FreshSnapshot db write) :
    Grows (.snapshot write.snapshot.id) db (write.apply db) where
  free := hfresh.fresh
  versions := rfl
  snapshots := List.subset_append_left _ _
  decisions := List.Subset.refl _
  revocations := List.Subset.refl _
  impacts := List.Subset.refl _
  newSnapshot := fun _ hx => (mem_append_singleton ContextSnapshot.id hx).imp_right
    (congrArg RowKey.snapshot)
  newDecision := fun _ hd => Or.inl hd
  newRevocation := fun _ hr => Or.inl hr
  newImpact := fun _ hrow => Or.inl hrow
  entries := fun org versionId entry => (decisionsWith_capture h hfresh org versionId entry).mpr
  oldEntries := fun org versionId entry hentry _ =>
    (decisionsWith_capture h hfresh org versionId entry).mp hentry

theorem grows_decide {write : DecisionWrite} (hfresh : FreshDecision db write) :
    Grows (.decision write.decision.id) db (write.apply db) where
  free := hfresh.fresh
  versions := rfl
  snapshots := List.Subset.refl _
  decisions := List.subset_append_left _ _
  revocations := List.Subset.refl _
  impacts := List.Subset.refl _
  newSnapshot := fun _ hx => Or.inl hx
  newDecision := fun _ hd => (mem_append_singleton Decision.id hd).imp_right
    (congrArg RowKey.decision)
  newRevocation := fun _ hr => Or.inl hr
  newImpact := fun _ hrow => Or.inl hrow
  entries := fun _ _ _ hentry =>
    (decisionsWith_decide hfresh (mem_decisionsWith.mp hentry).1).mpr hentry
  oldEntries := fun _ _ _ hentry hold => (decisionsWith_decide hfresh hold).mp hentry

theorem grows_revoke {write : RevokeWrite} (hfresh : FreshRevocation db write.revocation)
    (hrows : ∀ row ∈ write.impacts, row ∈ impactRows db write.revocation) :
    Grows (.revocation write.revocation.id) db (write.apply db) where
  free := hfresh.fresh
  versions := rfl
  snapshots := List.Subset.refl _
  decisions := List.Subset.refl _
  revocations := List.subset_append_left _ _
  impacts := List.subset_append_left _ _
  newSnapshot := fun _ hx => Or.inl hx
  newDecision := fun _ hd => Or.inl hd
  newRevocation := fun _ hr => (mem_append_singleton FactRevocation.id hr).imp_right
    (congrArg RowKey.revocation)
  newImpact := by
    intro row hrow
    rcases List.mem_append.mp hrow with hrow | hrow
    · exact Or.inl hrow
    · obtain ⟨entry, -, rfl⟩ := mem_impactRows.mp (hrows row hrow)
      exact Or.inr rfl
  entries := fun _ _ _ hentry => hentry
  oldEntries := fun _ _ _ hentry _ => hentry

theorem Grows.impactRows {key : RowKey} {db' : Database} (h : Grows key db db')
    {r : FactRevocation} {row : RevocationImpact} (hrow : row ∈ impactRows db r) :
    row ∈ impactRows db' r := by
  obtain ⟨entry, hentry, rfl⟩ := mem_impactRows.mp hrow
  exact mem_impactRows.mpr ⟨entry, h.entries _ _ entry hentry, rfl⟩

theorem nodup_map_append_singleton {α β : Type} {l : List α} {a : α} {key : α → β}
    (h : (l.map key).Nodup) (hnew : ∀ x ∈ l, key x ≠ key a) : ((l ++ [a]).map key).Nodup := by
  rw [List.map_append, List.map_singleton, List.nodup_append]
  refine ⟨h, List.nodup_singleton _, ?_⟩
  intro x hx y hy
  obtain ⟨z, hz, rfl⟩ := List.mem_map.mp hx
  rw [List.mem_singleton.mp hy]
  exact hnew z hz

theorem tables_capture (h : Tables db) {write : SnapshotWrite} (hfresh : FreshSnapshot db write) :
    Tables (write.apply db) := by
  have hgrows := grows_capture h hfresh
  refine ⟨⟨h.keyed.entities, h.keyed.facts, h.keyed.versions, h.keyed.entityOf, h.keyed.factOf⟩,
    nodup_map_append_singleton h.snapshots hfresh.fresh, ?_, h.decisions, h.revocations, ?_, ?_,
    h.decisionOf, h.versionOf, ?_⟩
  · show ((db.snapshotFacts ++ write.facts).map _).Nodup
    rw [List.map_append, List.nodup_append]
    refine ⟨h.snapshotFacts, ?_, ?_⟩
    · refine List.Nodup.of_map Prod.snd ?_
      rw [List.map_map]
      exact hfresh.once
    · intro a ha b hb hab
      obtain ⟨s, hs, rfl⟩ := List.mem_map.mp ha
      obtain ⟨t, ht, rfl⟩ := List.mem_map.mp hb
      obtain ⟨x, hx, -, hxid⟩ := h.snapshotOf s hs
      exact hfresh.fresh x hx (hxid.trans ((Prod.mk.inj hab).1.trans (hfresh.facts t ht).2))
  · intro s hs
    rcases List.mem_append.mp hs with hs | hs
    · obtain ⟨x, hx, hkeys⟩ := h.snapshotOf s hs
      exact ⟨x, hgrows.snapshots hx, hkeys⟩
    · exact ⟨write.snapshot, List.mem_append_right _ (List.mem_singleton.mpr rfl),
        (hfresh.facts s hs).1.symm, (hfresh.facts s hs).2.symm⟩
  · intro d hd
    obtain ⟨x, hx, hkeys⟩ := h.contextOf d hd
    exact ⟨x, hgrows.snapshots hx, hkeys⟩
  · intro row hrow
    obtain ⟨r, hr, himpact⟩ := h.impactOf row hrow
    exact ⟨r, hr, hgrows.impactRows himpact⟩

theorem tables_decide (h : Tables db) {write : DecisionWrite} (hfresh : FreshDecision db write) :
    Tables (write.apply db) := by
  have hgrows := grows_decide hfresh
  refine ⟨⟨h.keyed.entities, h.keyed.facts, h.keyed.versions, h.keyed.entityOf, h.keyed.factOf⟩,
    h.snapshots, h.snapshotFacts, nodup_map_append_singleton h.decisions hfresh.fresh,
    h.revocations, h.snapshotOf, ?_, ?_, h.versionOf, ?_⟩
  · intro d hd
    rcases List.mem_append.mp hd with hd | hd
    · exact h.contextOf d hd
    · rw [List.mem_singleton.mp hd]
      exact hfresh.context
  · intro f hf
    rcases List.mem_append.mp hf with hf | hf
    · obtain ⟨d, hd, hkeys⟩ := h.decisionOf f hf
      exact ⟨d, hgrows.decisions hd, hkeys⟩
    · obtain ⟨_, -, rfl⟩ := List.mem_map.mp hf
      exact ⟨write.decision, List.mem_append_right _ (List.mem_singleton.mpr rfl), rfl, rfl⟩
  · intro row hrow
    obtain ⟨r, hr, himpact⟩ := h.impactOf row hrow
    exact ⟨r, hr, hgrows.impactRows himpact⟩

theorem tables_revoke (h : Tables db) {write : RevokeWrite}
    (hfresh : FreshRevocation db write.revocation)
    (hrows : ∀ row ∈ write.impacts, row ∈ impactRows db write.revocation) :
    Tables (write.apply db) := by
  have hgrows := grows_revoke hfresh hrows
  refine ⟨⟨h.keyed.entities, h.keyed.facts, h.keyed.versions, h.keyed.entityOf, h.keyed.factOf⟩,
    h.snapshots, h.snapshotFacts, h.decisions,
    nodup_map_append_singleton h.revocations hfresh.fresh, h.snapshotOf, h.contextOf,
    h.decisionOf, ?_, ?_⟩
  · intro r hr
    rcases List.mem_append.mp hr with hr | hr
    · exact h.versionOf r hr
    · rw [List.mem_singleton.mp hr]
      exact hfresh.version
  · intro row hrow
    rcases List.mem_append.mp hrow with hrow | hrow
    · obtain ⟨r, hr, himpact⟩ := h.impactOf row hrow
      exact ⟨r, hgrows.revocations hr, hgrows.impactRows himpact⟩
    · exact ⟨write.revocation, List.mem_append_right _ (List.mem_singleton.mpr rfl),
        hgrows.impactRows (hrows row hrow)⟩

end

end ContextLedger.ImpactTables

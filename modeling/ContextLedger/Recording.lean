import ContextLedger.VersionTable

/-!
What the steps of the write path guarantee. A write planned from the latest
version of a fact, stamped after it and given a fresh identifier appends to the
fact, and since appending leaves a sound table, no constraint refuses it.
-/
namespace ContextLedger.Recording

open Values Validation Authorization FactRules Schema Facts Bitemporal VersionChain VersionTable

/-- What finding a place leaves behind: its rows exist, or are created with
identifiers that no row has. -/
structure PlaceIn (db : Database) (org : Uuid) (place : Place) : Prop where
  source : place.source ∈ db.sources ∧ place.source.organizationId = org
  fact : place.fact.organizationId = org
  old : place.newFact = false → place.fact ∈ db.facts
  new : place.newFact = true → ∀ g ∈ db.facts, g.id ≠ place.fact.id

theorem getSource_mem {db : Database} {org id : Uuid} {s : FactSource}
    (h : getSource db org id = some s) : s ∈ db.sources ∧ s.organizationId = org := by
  have hmem := List.mem_of_find?_eq_some h
  have hkey := List.find?_some h
  simp only [Bool.and_eq_true, beq_iff_eq] at hkey
  exact ⟨hmem, hkey.1⟩

theorem findFact_mem {db : Database} {org entityId : Uuid} {property : String} {f : Fact}
    (h : findFact db org entityId property = some f) :
    f ∈ db.facts ∧ f.organizationId = org ∧ f.entityId = entityId ∧ f.property = property := by
  have hmem := List.mem_of_find?_eq_some h
  have hkey := List.find?_some h
  simp only [Bool.and_eq_true, beq_iff_eq] at hkey
  exact ⟨hmem, hkey.1.1, hkey.1.2, hkey.2⟩

theorem findPlace_in {db : Database} {org : Uuid} {d : Draft} {source : FactSource}
    {authority : Authority} {entityId factId : Uuid}
    (hsource : source ∈ db.sources ∧ source.organizationId = org)
    (hfresh : (findPlace db org d source authority entityId factId).newFact = true →
      ∀ g ∈ db.facts, g.id ≠ (findPlace db org d source authority entityId factId).fact.id) :
    PlaceIn db org (findPlace db org d source authority entityId factId) := by
  refine ⟨hsource, ?_, ?_, hfresh⟩
  · simp only [findPlace]
    cases hfact : findFact db org _ _ with
    | none => rfl
    | some f => exact (findFact_mem hfact).2.1
  · intro hold
    simp only [findPlace] at hold ⊢
    cases hfact : findFact db org _ _ with
    | none => simp [hfact] at hold
    | some f => exact (findFact_mem hfact).1

/-- The fact of a place that was found has the entity and the property asked for. -/
theorem locate_eq_ok {db : Database} {ctx : TenantContext} {d : Draft} {entityId factId : Uuid}
    {place : Place} (h : locate db ctx d entityId factId = .ok place) :
    ∃ source authority, getSource db ctx.organizationId d.sourceId = some source ∧
      place = findPlace db ctx.organizationId d source authority entityId factId ∧
      firstBroken (place.checks db) = none := by
  unfold locate at h
  obtain ⟨role, -, h⟩ := bind_eq_ok.mp h
  split at h
  · exact absurd h (by simp [notFound])
  · rename_i source hsource
    obtain ⟨authority, -, h⟩ := bind_eq_ok.mp h
    simp only at h
    split at h
    · exact absurd h (by simp)
    · rename_i hchecks
      obtain rfl := Except.ok.inj h
      exact ⟨source, authority, hsource, rfl, hchecks⟩

/-- The primary key of a new fact was checked when it was inserted. -/
theorem locate_in {db : Database} {ctx : TenantContext} {d : Draft} {entityId factId : Uuid}
    {place : Place} (h : locate db ctx d entityId factId = .ok place) :
    PlaceIn db ctx.organizationId place := by
  obtain ⟨source, authority, hsource, rfl, hchecks⟩ := locate_eq_ok h
  refine findPlace_in (getSource_mem hsource) ?_
  intro hnew g hg hid
  have hpass := firstBroken_eq_none.mp hchecks
    ("pk_facts", db.facts.any fun f => f.id == (findPlace db ctx.organizationId d source authority
      entityId factId).fact.id)
    (by simp only [Place.checks, hnew, if_true, factChecks]
        exact List.mem_append_right _ (by simp))
  have htrue := List.any_eq_false.mp hpass g hg
  simp [hid] at htrue

theorem planVersion_some {v : FactVersion} {d : Draft} {plan : VersionPlan}
    (h : planVersion (some v) d = .ok plan) :
    plan.version = v.version + 1 ∧ v.validFrom < d.window.validFrom ∧
      ((v.validUntil = none ∧ plan.closePreviousAt = some d.window.validFrom) ∨
        ∃ finish, v.validUntil = some finish ∧ finish ≤ d.window.validFrom ∧
          plan.closePreviousAt = none) := by
  unfold planVersion at h
  obtain ⟨window, hwindow, hplan⟩ := bind_eq_ok.mp h
  unfold ValidityWindow.create at hwindow
  split at hwindow
  · obtain rfl := Except.ok.inj hwindow
    exact planNewVersion_ok hplan
  · exact absurd hwindow (by simp [validationFailed])

theorem recorded_lt_nextTransactionTime (v : FactVersion) (clock : Instant) :
    v.recordedAt < nextTransactionTime (some v) clock := by
  simp only [nextTransactionTime]
  split
  · exact lt_add_one _
  · rename_i hclock
    exact not_le.mp hclock

theorem clock_le_nextTransactionTime (latest : Option FactVersion) (clock : Instant) :
    clock ≤ nextTransactionTime latest clock := by
  cases latest with
  | none => exact le_refl _
  | some v =>
    simp only [nextTransactionTime]
    split
    · rename_i hclock
      exact le_trans hclock (le_of_lt (lt_add_one _))
    · exact le_refl _

/-- The rows that a successful write phase writes. -/
structure Written (ctx : TenantContext) (d : Draft) (place : Place) (latest : Option FactVersion)
    (plan : VersionPlan) (recordedAt : Instant) (id : Uuid) (write : VersionWrite) : Prop where
  version : ∃ value, Jsonb.store d.value.1 = some value ∧
    write.version = newVersion ctx d place latest plan recordedAt id value
  entity : write.entity = if place.newEntity then some place.entity else none
  fact : write.fact = if place.newFact then some place.fact else none
  closing : write.closing = latest.bind fun v => plan.closePreviousAt.map fun u => (v.id, u)

theorem linkEvidence_mem {db : Database} {ctx : TenantContext} {now : Instant} {versionId : Uuid}
    {ids : List Uuid} {relation : EvidenceRelation} {links : List FactVersionEvidence}
    (h : linkEvidence db ctx now versionId ids relation = .ok links) {l : FactVersionEvidence}
    (hl : l ∈ links) :
    l.organizationId = ctx.organizationId ∧ l.factVersionId = versionId ∧ l.linkedAt = now := by
  simp only [linkEvidence] at h
  split at h
  · obtain rfl := Except.ok.inj h
    exact absurd hl (by simp)
  · split at h
    · exact absurd h (by simp [notFound])
    · split at h
      · exact absurd h (by simp [notFound])
      · split at h
        · exact absurd h (by simp [conflict])
        · obtain rfl := Except.ok.inj h
          obtain ⟨id, -, rfl⟩ := List.mem_map.mp hl
          exact ⟨rfl, rfl, rfl⟩

theorem writeVersion_eq_ok {db : Database} {ctx : TenantContext} {d : Draft} {place : Place}
    {latest : Option FactVersion} {plan : VersionPlan} {recordedAt now : Instant} {id : Uuid}
    {write : VersionWrite}
    (h : writeVersion db ctx d place latest plan recordedAt now id = .ok write) :
    Written ctx d place latest plan recordedAt id write ∧ write.rejectedBy db = none := by
  unfold writeVersion at h
  split at h
  · exact absurd h (by simp)
  · rename_i value hvalue
    simp only at h
    split at h
    · exact absurd h (by simp)
    · rename_i hrejected
      obtain ⟨links, -, rfl⟩ := map_eq_ok.mp h
      exact ⟨⟨⟨value, hvalue, rfl⟩, rfl, rfl, rfl⟩, hrejected⟩

/-- The links of a write belong to its version and carry the begin time. -/
theorem writeVersion_links {db : Database} {ctx : TenantContext} {d : Draft} {place : Place}
    {latest : Option FactVersion} {plan : VersionPlan} {recordedAt now : Instant} {id : Uuid}
    {write : VersionWrite}
    (h : writeVersion db ctx d place latest plan recordedAt now id = .ok write) :
    ∀ l ∈ write.links, l.factVersionId = id ∧ l.linkedAt = now := by
  unfold writeVersion at h
  split at h
  · exact absurd h (by simp)
  · simp only at h
    split at h
    · exact absurd h (by simp)
    · obtain ⟨links, hlinks, rfl⟩ := map_eq_ok.mp h
      intro l hl
      exact (linkEvidence_mem hlinks hl).2

private theorem versionRowChecks_newVersion (ctx : TenantContext) (d : Draft) (place : Place)
    (latest : Option FactVersion) (plan : VersionPlan) (recordedAt : Instant) (id : Uuid)
    {value : Jsonb.Value} (hvalue : Jsonb.store d.value.1 = some value)
    (hplan : 1 ≤ plan.version) (hlineage : plan.version = 1 ↔ latest = none) :
    ∀ c ∈ versionRowChecks (newVersion ctx d place latest plan recordedAt id value),
      c.2 = false := by
  have hnull := Jsonb.isNull_of_store d.value.2 hvalue
  have hordered := d.window.ordered
  simp only [versionRowChecks, newVersion, List.mem_cons, List.not_mem_nil, or_false,
    forall_eq_or_imp, forall_eq, hnull, Option.isNone_map, bne_self_eq_false]
  refine ⟨by simp [hplan], ?_, ?_, trivial, ?_, ?_, trivial⟩
  · cases latest <;> simp_all
  · cases hu : d.window.validUntil with
    | none => rfl
    | some u => simp [hordered u hu]
  · simp [place.authority.2.1, place.authority.2.2]
  · simp [d.confidence.2.1, d.confidence.2.2]

/-- A write planned from the latest version and stamped after it appends to its fact. -/
theorem Written.appends {db : Database} {ctx : TenantContext} {d : Draft} {place : Place}
    {plan : VersionPlan} {recordedAt : Instant} {id : Uuid} {write : VersionWrite}
    {latest : Option FactVersion} (hsound : Sound db)
    (hw : Written ctx d place latest plan recordedAt id write)
    (hplace : PlaceIn db ctx.organizationId place)
    (hlatest : latestVersion db ctx.organizationId place.fact.id = latest)
    (hplan : planVersion latest d = .ok plan)
    (hstamp : ∀ v, latest = some v → v.recordedAt < recordedAt)
    (hfresh : ∀ v ∈ db.versions, v.id ≠ id) : Appends db write := by
  obtain ⟨value, hvalue, hversion⟩ := hw.version
  have hcases : (latest = none ∧ plan = ⟨1, none⟩) ∨ ∃ v, latest = some v ∧
      plan.version = v.version + 1 ∧ v.validFrom < d.window.validFrom ∧
      ((v.validUntil = none ∧ plan.closePreviousAt = some d.window.validFrom) ∨
        ∃ finish, v.validUntil = some finish ∧ finish ≤ d.window.validFrom ∧
          plan.closePreviousAt = none) := by
    cases latest with
    | none => exact Or.inl ⟨rfl, planNewVersion_none d.window hplan⟩
    | some v => exact Or.inr ⟨v, rfl, planVersion_some hplan⟩
  refine ⟨?_, ?_, ?_, ?_, ?_, ?_, ?_, ?_⟩
  · rw [oldFactOf, newFactOf, hw.fact, hversion]
    cases hnew : place.newFact with
    | false => exact Or.inl ⟨rfl, place.fact, hplace.old hnew, hplace.fact, rfl⟩
    | true => exact Or.inr ⟨place.fact, rfl, hplace.fact, rfl, hplace.new hnew⟩
  · rw [hversion]
    exact hfresh
  · rw [hversion]
    exact d.window.ordered
  · rw [hversion]
    rfl
  · rw [hversion]
    refine versionRowChecks_newVersion ctx d place latest plan recordedAt id hvalue ?_ ?_
    · rcases hcases with ⟨-, rfl⟩ | ⟨v, -, hnumber, -⟩
      · exact le_refl _
      · omega
    · rcases hcases with ⟨hnone, rfl⟩ | ⟨v, rfl, hnumber, -⟩
      · simp [hnone]
      · have hv := (mem_versionsOf.mp (Sound.latest_mem hlatest)).1
        have hpositive := hsound.one_le_version hv
        simp only [reduceCtorEq, iff_false]
        omega
  · rw [hversion]
    exact ⟨place.source, hplace.source.1, hplace.source.2, rfl⟩
  · intro hnone
    rw [hversion] at hnone
    have hl : latest = none := hlatest.symm.trans hnone
    rcases hcases with ⟨-, rfl⟩ | ⟨v, hv, -⟩
    · exact ⟨by rw [hversion]; rfl, by rw [hversion, hl]; rfl, by rw [hw.closing, hl]; rfl⟩
    · exact absurd (hl.symm.trans hv) (by simp)
  · intro v hv
    rw [hversion] at hv
    have hl : latest = some v := hlatest.symm.trans hv
    rcases hcases with ⟨hnone, -⟩ | ⟨v', hv', hnumber, hstarts, hclose⟩
    · exact absurd (hl.symm.trans hnone) (by simp)
    · obtain rfl : v = v' := Option.some.inj (hl.symm.trans hv')
      refine ⟨by rw [hversion]; exact hnumber, by rw [hversion, hl]; rfl,
        by rw [hversion]; exact hstarts, by rw [hversion]; exact hstamp v hl, ?_⟩
      rw [hw.closing, hl, hversion]
      rcases hclose with ⟨hopen, hat⟩ | ⟨finish, hfinish, hle, hat⟩
      · exact Or.inl ⟨hopen, by rw [hat]; rfl⟩
      · exact Or.inr ⟨finish, hfinish, hle, by rw [hat]; rfl⟩

/-- Distinct rows of a sound table break no UNIQUE or EXCLUDE constraint. -/
theorem versionTableChecks_pass {db : Database} (h : Sound db) {others : List FactVersion}
    {row : FactVersion} (hrow : row ∈ db.versions)
    (hothers : ∀ v ∈ others, v ∈ db.versions ∧ v.id ≠ row.id) :
    ∀ c ∈ versionTableChecks others row, c.2 = false := by
  simp only [versionTableChecks, List.mem_cons, List.not_mem_nil, or_false, forall_eq_or_imp,
    forall_eq, List.any_eq_false, Bool.and_eq_true, beq_iff_eq, not_and]
  refine ⟨?_, ?_, ?_, ?_, ?_⟩
  · intro v hv
    exact (hothers v hv).2
  · intro v hv hfact hnumber
    have heq := h.eq_of_version (hothers v hv).1 hrow hfact hnumber
    exact (hothers v hv).2 (by rw [heq])
  · intro v hv _
    exact (hothers v hv).2
  · intro v hv hsome hsup
    obtain ⟨p, hp⟩ := Option.isSome_iff_exists.mp hsome
    have heq := h.eq_of_supersedes (hothers v hv).1 hrow (hsup.trans hp) hp
    exact (hothers v hv).2 (by rw [heq])
  · intro v hv hfact hoverlap
    have hne : v ≠ row := fun heq => (hothers v hv).2 (by rw [heq])
    exact h.not_overlap (hothers v hv).1 hrow hfact hne hoverlap

theorem versionReferenceChecks_pass {db : Database} (h : Sound db) {row : FactVersion}
    (hrow : row ∈ db.versions) {closed : Database} (hfacts : closed.facts = db.facts)
    (hsource : ∃ s ∈ closed.sources, s.organizationId = row.organizationId ∧ s.id = row.sourceId)
    (hversions : ∀ v ∈ db.versions, v.id ≠ row.id → v ∈ closed.versions) :
    ∀ c ∈ versionReferenceChecks closed row, c.2 = false := by
  simp only [versionReferenceChecks, List.mem_cons, List.not_mem_nil, or_false, forall_eq_or_imp,
    forall_eq, Bool.not_eq_false', List.any_eq_true, Bool.and_eq_true, beq_iff_eq]
  refine ⟨?_, hsource, ?_⟩
  · rw [hfacts]
    exact h.factOf row hrow
  · cases hsup : row.supersedesId with
    | none => rfl
    | some p =>
      obtain ⟨u, hu, hup, hfact, hnumber⟩ := h.superseded_mem hrow hsup
      have hne : u.id ≠ row.id := by
        intro hid
        have heq := h.eq_of_id hu hrow hid
        rw [heq] at hnumber
        omega
      simp only [Option.any_some, Bool.not_eq_false', List.any_eq_true, Bool.and_eq_true,
        beq_iff_eq]
      exact ⟨u, hversions u hu hne, hfact, hup⟩

private theorem appendOnlyChecks_close {old : FactVersion} (hopen : old.validUntil = none)
    (u r : Instant) : ∀ c ∈ appendOnlyChecks old (old.close u r), c.2 = false := by
  simp [appendOnlyChecks, enforceAppendOnly_close hopen]

private theorem closeChecks_pass {db : Database} {write : VersionWrite} (h : Sound db)
    (happ : Appends db write) {c : Uuid × Instant} (hc : write.closing = some c) :
    ∀ k ∈ (write.withPlace db).closeChecks write.version.organizationId c.1 c.2
      write.version.recordedAt, k.2 = false := by
  have hafter := h.apply happ
  intro k hk
  simp only [Database.closeChecks, withPlace_versions, List.mem_flatMap, List.mem_filter,
    Bool.and_eq_true, beq_iff_eq, Option.isNone_iff_eq_none] at hk
  obtain ⟨old, ⟨hold, ⟨horg, hid⟩, hopen⟩, hk⟩ := hk
  have htouched : touched write old = old.close c.2 write.version.recordedAt := by
    simp [touched, hc, horg, hid, hopen]
  have hclosed : old.close c.2 write.version.recordedAt ∈ (write.apply db).versions := by
    rw [apply_versions, ← htouched]
    exact List.mem_append_left _ (List.mem_map_of_mem hold)
  rw [List.mem_append, List.mem_append] at hk
  rcases hk with (hk | hk) | hk
  · exact appendOnlyChecks_close hopen _ _ k hk
  · exact hafter.rowsChecked _ hclosed k hk
  · refine versionTableChecks_pass hafter hclosed ?_ k hk
    intro v hv
    obtain ⟨hv, hne⟩ := List.mem_filter.mp hv
    have hvid : v.id ≠ old.id := by simpa using hne
    have hsame : touched write v = v := by
      apply touched_of_id_ne
      intro c' hc' hvc
      obtain rfl : c = c' := Option.some.inj (hc.symm.trans hc')
      exact hvid (hvc.trans hid.symm)
    refine ⟨?_, hvid⟩
    rw [apply_versions, ← hsame]
    exact List.mem_append_left _ (List.mem_map_of_mem hv)

/-- No constraint refuses a write that appends to a sound table. -/
theorem rejectedBy_eq_none {db : Database} {write : VersionWrite} (h : Sound db)
    (happ : Appends db write) : write.rejectedBy db = none := by
  have hafter := h.apply happ
  have hrow : write.version ∈ (write.apply db).versions := by
    rw [apply_versions]
    simp
  have hversions : (write.withClose (write.withPlace db)).versions =
      db.versions.map (touched write) := by
    rw [withClose_versions, withPlace_versions]
  unfold VersionWrite.rejectedBy
  rw [firstBroken_eq_none]
  intro k hk
  simp only [List.mem_append] at hk
  rcases hk with ((hk | hk) | hk) | hk
  · cases hc : write.closing with
    | none => simp [hc] at hk
    | some c =>
      rw [hc] at hk
      exact closeChecks_pass h happ hc k hk
  · exact happ.rowChecked k hk
  · refine versionTableChecks_pass hafter hrow ?_ k hk
    intro v hv
    rw [hversions] at hv
    obtain ⟨w, hw, rfl⟩ := List.mem_map.mp hv
    refine ⟨?_, by simpa using happ.fresh w hw⟩
    rw [apply_versions]
    exact List.mem_append_left _ hv
  · refine versionReferenceChecks_pass hafter hrow ?_ ?_ ?_ k hk
    · rw [withClose_facts, withPlace_facts, apply_facts]
    · rw [withClose_sources, withPlace_sources]
      exact happ.source
    · intro v hv hne
      rw [hversions]
      rw [apply_versions, List.mem_append] at hv
      rcases hv with hv | hv
      · exact hv
      · obtain rfl : v = write.version := by simpa using hv
        exact absurd rfl hne

/-- The primary key was checked when the version was inserted. -/
theorem fresh_of_accepted {db : Database} {write : VersionWrite}
    (h : write.rejectedBy db = none) : ∀ v ∈ db.versions, v.id ≠ write.version.id := by
  intro v hv hid
  unfold VersionWrite.rejectedBy at h
  have hpass := firstBroken_eq_none.mp h
    ("pk_fact_versions", (write.withClose (write.withPlace db)).versions.any fun w =>
      w.id == write.version.id) (by simp [versionTableChecks])
  rw [withClose_versions, withPlace_versions] at hpass
  have hnone := List.any_eq_false.mp hpass (touched write v) (List.mem_map_of_mem hv)
  simp [hid] at hnone

/-- The rows created for a write: a new entity has a new identifier, and a new fact
belongs to an entity that is there. -/
structure Placed (db : Database) (write : VersionWrite) : Prop where
  entityFresh : ∀ e, write.entity = some e → ∀ g ∈ db.entities, g.id ≠ e.id
  factEntity : ∀ f, write.fact = some f → ∃ e ∈ db.entities ++ write.entity.toList,
    e.organizationId = f.organizationId ∧ e.id = f.entityId

theorem findEntity_mem {db : Database} {org : Uuid} {entityType externalId : String} {e : Entity}
    (h : findEntity db org entityType externalId = some e) :
    e ∈ db.entities ∧ e.organizationId = org := by
  have hmem := List.mem_of_find?_eq_some h
  have hkey := List.find?_some h
  simp only [Bool.and_eq_true, beq_iff_eq] at hkey
  exact ⟨hmem, hkey.1.1⟩

theorem Written.placed {db : Database} {ctx : TenantContext} {d : Draft} {place : Place}
    {latest : Option FactVersion} {plan : VersionPlan} {recordedAt : Instant} {id : Uuid}
    {write : VersionWrite} {entityId factId : Uuid}
    (hw : Written ctx d place latest plan recordedAt id write)
    (hlocate : locate db ctx d entityId factId = .ok place) : Placed db write := by
  obtain ⟨source, authority, -, rfl, hchecks⟩ := locate_eq_ok hlocate
  constructor
  · intro e he g hg hid
    rw [hw.entity] at he
    split at he
    · rename_i hnew
      obtain rfl := Option.some.inj he
      have hpass := firstBroken_eq_none.mp hchecks
        ("pk_entities", db.entities.any fun row => row.id == (findPlace db ctx.organizationId d
          source authority entityId factId).entity.id)
        (by simp only [Place.checks, hnew, if_true, entityChecks]
            exact List.mem_append_left _ (by simp))
      exact absurd hid (by simpa using List.any_eq_false.mp hpass g hg)
    · exact absurd he (by simp)
  · intro f hf
    rw [hw.fact] at hf
    split at hf
    · rename_i hnewFact
      obtain rfl := Option.some.inj hf
      rw [hw.entity]
      simp only [findPlace] at hnewFact ⊢
      rw [Option.isNone_iff_eq_none] at hnewFact
      simp only [hnewFact, Option.getD_none]
      obtain hentity | ⟨e, hentity⟩ := Option.eq_none_or_eq_some
        (findEntity db ctx.organizationId d.entityType.1 d.externalId.1)
      · simp [hentity]
      · obtain ⟨hmem, horg⟩ := findEntity_mem hentity
        refine ⟨e, List.mem_append_left _ hmem, horg, ?_⟩
        simp [hentity]
    · exact absurd hf (by simp)

/-- A call that runs alone appends one version, stamped at or after the clock, and
links its evidence at the clock. -/
theorem recordVersion_eq_ok {rt : Runtime} {ctx : TenantContext} {command : RecordFactVersion}
    {clock : Instant} {ids : FreshIds} {db db' : Database} {v : FactVersion} (hsound : Sound db)
    (h : recordVersion rt ctx command clock ids db = .ok (v, db')) :
    ∃ write, Appends db write ∧ v = write.version ∧ db' = write.apply db ∧
      clock ≤ write.version.recordedAt ∧ write.version.organizationId = ctx.organizationId ∧
      Placed db write ∧
      ∀ l ∈ write.links, l.factVersionId = write.version.id ∧ l.linkedAt = clock := by
  unfold recordVersion at h
  obtain ⟨d, -, h⟩ := bind_eq_ok.mp h
  obtain ⟨place, hlocate, h⟩ := bind_eq_ok.mp h
  obtain ⟨plan, hplan, h⟩ := bind_eq_ok.mp h
  obtain ⟨write, hwrite, h⟩ := bind_eq_ok.mp h
  obtain ⟨rfl, rfl⟩ := Prod.mk.inj (Except.ok.inj h)
  obtain ⟨hwritten, haccepted⟩ := writeVersion_eq_ok hwrite
  obtain ⟨value, -, hversion⟩ := hwritten.version
  have hfresh := fresh_of_accepted haccepted
  refine ⟨write, ?_, rfl, rfl, ?_, by rw [hversion]; rfl, hwritten.placed hlocate, ?_⟩
  · refine hwritten.appends hsound (locate_in hlocate) rfl hplan ?_ ?_
    · intro v hv
      rw [hv]
      exact recorded_lt_nextTransactionTime v clock
    · rw [hversion] at hfresh
      exact hfresh
  · rw [hversion]
    exact clock_le_nextTransactionTime _ clock
  · rw [hversion]
    exact writeVersion_links hwrite

end ContextLedger.Recording

import ContextLedger.EvidenceCapture
import ContextLedger.ImpactReports
import ContextLedger.ServiceReads

/-!
The part of the database that belongs to one organization: its rows in every table,
its memberships and the users they name. A query that carries the organization
through all its joins and subqueries finds on this part what it finds on the whole.
-/
namespace ContextLedger.TenantRestriction

open Values Validation Authorization Schema Facts Reference TemporalEngine Retrieval Decisions
open Revocations ImpactReports ServiceReads

section Filters

variable {α β : Type} {p q : α → Bool}

/-- A filter that only takes out what is not looked for changes no lookup. -/
theorem find?_filter_of_imp (l : List α) (h : ∀ a, q a = true → p a = true) :
    (l.filter p).find? q = l.find? q := by
  rw [List.find?_filter]
  refine congrArg (List.find? · l) (funext fun a => ?_)
  cases hq : q a with
  | false => simp
  | true => simp [h a hq]

theorem filter_filter_of_imp (l : List α) (h : ∀ a, q a = true → p a = true) :
    (l.filter p).filter q = l.filter q := by
  rw [List.filter_filter]
  refine List.filter_congr fun a _ => ?_
  cases hq : q a with
  | false => simp
  | true => simp [h a hq]

theorem any_filter_of_imp (l : List α) (h : ∀ a, q a = true → p a = true) :
    (l.filter p).any q = l.any q := by
  rw [List.any_filter]
  refine congrArg (List.any l) (funext fun a => ?_)
  cases hq : q a with
  | false => simp
  | true => simp [h a hq]

/-- What gives nothing may be left out. -/
theorem flatMap_filter_of_imp (l : List α) {f : α → List β} (h : ∀ a, f a ≠ [] → p a = true) :
    (l.filter p).flatMap f = l.flatMap f := by
  induction l with
  | nil => rfl
  | cons a l ih =>
    rw [List.filter_cons]
    cases hp : p a with
    | true => simp [ih]
    | false =>
      have hf : f a = [] := by
        by_contra hne
        rw [h a hne] at hp
        exact absurd hp (by simp)
      simp [ih, hf]

/-- Rows of others do not show through a filter. -/
theorem filter_append_of_none (l : List α) {new : List α} (h : ∀ a ∈ new, p a = false) :
    (l ++ new).filter p = l.filter p := by
  have hnone : new.filter p = [] := by
    rw [List.filter_eq_nil_iff]
    intro a ha
    rw [h a ha]
    exact Bool.false_ne_true
  rw [List.filter_append, hnone, List.append_nil]

/-- A change of rows that the filter takes out does not show through it. -/
theorem filter_map_of_kept (l : List α) {f : α → α} (hkeeps : ∀ a, p (f a) = p a)
    (hkept : ∀ a, p a = true → f a = a) : (l.map f).filter p = l.filter p := by
  induction l with
  | nil => rfl
  | cons a l ih =>
    rw [List.map_cons, List.filter_cons, List.filter_cons, hkeeps a, ih]
    cases hp : p a with
    | false => rfl
    | true => rw [hkept a hp]

end Filters

/-- The rows of one organization, with its memberships and their users. -/
def restrict (org : Uuid) (db : Database) : Database where
  users := db.users.filter fun u => db.memberships.any fun m =>
    m.organizationId == org && m.userId == u.id
  memberships := db.memberships.filter fun m => m.organizationId == org
  sources := db.sources.filter fun s => s.organizationId == org
  entities := db.entities.filter fun e => e.organizationId == org
  facts := db.facts.filter fun f => f.organizationId == org
  versions := db.versions.filter fun v => v.organizationId == org
  revocations := db.revocations.filter fun r => r.organizationId == org
  impacts := db.impacts.filter fun i => i.organizationId == org
  evidence := db.evidence.filter fun e => e.organizationId == org
  links := db.links.filter fun l => l.organizationId == org
  contradictions := db.contradictions.filter fun c => c.organizationId == org
  snapshots := db.snapshots.filter fun s => s.organizationId == org
  snapshotFacts := db.snapshotFacts.filter fun s => s.organizationId == org
  decisions := db.decisions.filter fun d => d.organizationId == org
  decisionFacts := db.decisionFacts.filter fun d => d.organizationId == org

variable (db : Database) (org : Uuid)

/-- The one user that a permission reads is a member of the organization. -/
theorem requirePermission_restrict (ctx : TenantContext) (permission : Permission) :
    requirePermission (restrict ctx.organizationId db) ctx permission =
      requirePermission db ctx permission := by
  have hmember : (restrict ctx.organizationId db).memberships.find? (fun m =>
      m.organizationId == ctx.organizationId && m.userId == ctx.userId) =
        db.memberships.find? fun m =>
          m.organizationId == ctx.organizationId && m.userId == ctx.userId :=
    find?_filter_of_imp _ fun m hm => (Bool.and_eq_true_iff.mp hm).1
  unfold requirePermission
  simp only [hmember]
  cases hfound : db.memberships.find? fun m =>
      m.organizationId == ctx.organizationId && m.userId == ctx.userId with
  | none => cases (restrict ctx.organizationId db).users.find? _ <;> cases db.users.find? _ <;> rfl
  | some membership =>
    have huser : (restrict ctx.organizationId db).users.find? (fun u => u.id == ctx.userId) =
        db.users.find? fun u => u.id == ctx.userId := by
      refine find?_filter_of_imp _ fun u hu => List.any_eq_true.mpr ?_
      refine ⟨membership, List.mem_of_find?_eq_some hfound, ?_⟩
      have hkey := List.find?_some hfound
      rw [beq_iff_eq.mp hu]
      exact hkey
    simp only [huser]

theorem getFact_restrict (id : Uuid) : getFact (restrict org db) org id = getFact db org id :=
  find?_filter_of_imp _ fun _ h => (Bool.and_eq_true_iff.mp h).1

theorem getVersion_restrict (id : Uuid) :
    getVersion (restrict org db) org id = getVersion db org id :=
  find?_filter_of_imp _ fun _ h => (Bool.and_eq_true_iff.mp h).1

theorem versionsOf_restrict (factId : Uuid) :
    versionsOf (restrict org db) org factId = versionsOf db org factId :=
  filter_filter_of_imp _ fun _ h => (Bool.and_eq_true_iff.mp h).1

theorem findEntity_restrict (entityType externalId : String) :
    findEntity (restrict org db) org entityType externalId =
      findEntity db org entityType externalId := by
  refine find?_filter_of_imp _ fun e h => ?_
  simp only [Bool.and_eq_true] at h
  exact h.1.1

theorem getDecision_restrict (id : Uuid) :
    getDecision (restrict org db) org id = getDecision db org id :=
  find?_filter_of_imp _ fun _ h => (Bool.and_eq_true_iff.mp h).1

theorem getSnapshot_restrict (id : Uuid) :
    getSnapshot (restrict org db) org id = getSnapshot db org id :=
  find?_filter_of_imp _ fun _ h => (Bool.and_eq_true_iff.mp h).1

theorem reliedOn_restrict (decisionId : Uuid) :
    Decisions.reliedOn (restrict org db) org decisionId = Decisions.reliedOn db org decisionId :=
  congrArg (List.map _) (filter_filter_of_imp _ fun _ h => (Bool.and_eq_true_iff.mp h).1)

theorem revokedAtOf_restrict (versionId : Uuid) :
    revokedAtOf (restrict org db) org versionId = revokedAtOf db org versionId :=
  congrArg (Option.map _) (find?_filter_of_imp _ fun _ h => (Bool.and_eq_true_iff.mp h).1)

theorem storedImpacts_restrict (revocation : FactRevocation) :
    storedImpacts (restrict org db) org revocation = storedImpacts db org revocation :=
  congrArg (List.map _) (filter_filter_of_imp _ fun _ h => (Bool.and_eq_true_iff.mp h).1)

section Joins

variable {db org}

/-- A join carries the organization from the version to its fact and its entity. -/
theorem joinedTo_restrict {v : FactVersion} (hv : v.organizationId = org) :
    joinedTo (restrict org db) v = joinedTo db v := by
  unfold joinedTo
  have hfacts : ((restrict org db).facts.filter fun f =>
      f.organizationId == v.organizationId && f.id == v.factId) =
        db.facts.filter fun f => f.organizationId == v.organizationId && f.id == v.factId := by
    refine filter_filter_of_imp _ fun f h => ?_
    rw [← hv]
    exact (Bool.and_eq_true_iff.mp h).1
  rw [hfacts]
  refine List.flatMap_congr fun f hf => congrArg (List.map _) ?_
  refine filter_filter_of_imp _ fun e h => ?_
  have hforg := beq_iff_eq.mp (Bool.and_eq_true_iff.mp (List.mem_filter.mp hf).2).1
  rw [← hv, ← hforg]
  exact (Bool.and_eq_true_iff.mp h).1

theorem versionRows_restrict {s : ContextSnapshotFact} {v : FactVersion}
    (hv : v.organizationId = org) : versionRows (restrict org db) s v = versionRows db s v := by
  unfold versionRows
  rw [joinedTo_restrict hv]
  refine List.flatMap_congr fun row _ => congrArg (List.map _) ?_
  refine filter_filter_of_imp _ fun source h => ?_
  rw [← hv]
  exact (Bool.and_eq_true_iff.mp h).1

/-- The same from a link to its evidence and to the source of that. -/
theorem linkRows_restrict {l : FactVersionEvidence} (hl : l.organizationId = org) :
    linkRows (restrict org db) l = linkRows db l := by
  unfold linkRows
  have hevidence : ((restrict org db).evidence.filter fun e =>
      e.organizationId == l.organizationId && e.id == l.evidenceId) =
        db.evidence.filter fun e => e.organizationId == l.organizationId && e.id == l.evidenceId := by
    refine filter_filter_of_imp _ fun e h => ?_
    rw [← hl]
    exact (Bool.and_eq_true_iff.mp h).1
  rw [hevidence]
  refine List.flatMap_congr fun e he => congrArg (List.map _) ?_
  refine filter_filter_of_imp _ fun source h => ?_
  have heorg := beq_iff_eq.mp (Bool.and_eq_true_iff.mp (List.mem_filter.mp he).2).1
  rw [← hl, ← heorg]
  exact (Bool.and_eq_true_iff.mp h).1

theorem notRevokedCondition_restrict {v : FactVersion} (hv : v.organizationId = org)
    (knownAt : Option Instant) :
    notRevokedCondition (restrict org db) knownAt v = notRevokedCondition db knownAt v := by
  unfold notRevokedCondition
  refine congrArg (fun b => sqlNot (some b)) (any_filter_of_imp _ fun r h => ?_)
  simp only [Bool.and_eq_true] at h
  rw [← hv]
  exact h.1.1

/-- A version is revoked by a row of its own organization. -/
theorem validAtCondition_restrict {v : FactVersion} (hv : v.organizationId = org)
    (validAt : Instant) (knownAt : Option Instant) :
    validAtCondition (restrict org db) validAt knownAt v = validAtCondition db validAt knownAt v := by
  unfold validAtCondition
  cases knownAt with
  | none => simp only [notRevokedCondition_restrict hv]
  | some k => simp only [notRevokedCondition_restrict hv]

end Joins

/-- The rows of a snapshot, through all their joins. -/
theorem snapshotRows_restrict (snapshotId : Uuid) :
    snapshotRows (restrict org db) org snapshotId = snapshotRows db org snapshotId := by
  unfold snapshotRows
  have hfacts : ((restrict org db).snapshotFacts.filter fun s =>
      s.organizationId == org && s.snapshotId == snapshotId) =
        db.snapshotFacts.filter fun s => s.organizationId == org && s.snapshotId == snapshotId :=
    filter_filter_of_imp _ fun _ h => (Bool.and_eq_true_iff.mp h).1
  rw [hfacts]
  refine congrArg (List.insertionSort _) (List.flatMap_congr fun s hs => ?_)
  have hsorg := beq_iff_eq.mp (Bool.and_eq_true_iff.mp (List.mem_filter.mp hs).2).1
  have hversions : ((restrict org db).versions.filter fun v =>
      v.organizationId == s.organizationId && v.id == s.factVersionId) =
        db.versions.filter fun v =>
          v.organizationId == s.organizationId && v.id == s.factVersionId := by
    refine filter_filter_of_imp _ fun v h => ?_
    rw [← hsorg]
    exact (Bool.and_eq_true_iff.mp h).1
  rw [hversions]
  refine List.flatMap_congr fun v hv => versionRows_restrict ?_
  rw [← hsorg]
  exact beq_iff_eq.mp (Bool.and_eq_true_iff.mp (List.mem_filter.mp hv).2).1

theorem evidenceForVersion_restrict (versionId : Uuid) :
    evidenceForVersion (restrict org db) org versionId = evidenceForVersion db org versionId := by
  unfold evidenceForVersion
  have hlinks : ((restrict org db).links.filter fun l =>
      l.organizationId == org && l.factVersionId == versionId) =
        db.links.filter fun l => l.organizationId == org && l.factVersionId == versionId :=
    filter_filter_of_imp _ fun _ h => (Bool.and_eq_true_iff.mp h).1
  rw [hlinks]
  refine congrArg (List.insertionSort _) (List.flatMap_congr fun l hl => linkRows_restrict ?_)
  exact beq_iff_eq.mp (Bool.and_eq_true_iff.mp (List.mem_filter.mp hl).2).1

/-- The versions of an entity are selected before they are joined. -/
theorem entityRows_restrict (entityId : Uuid) :
    entityRows (restrict org db) org entityId = entityRows db org entityId := by
  unfold entityRows
  refine (flatMap_filter_of_imp db.versions fun v h => ?_).trans (List.flatMap_congr fun v _ => ?_)
  · by_contra hne
    rw [beq_iff_eq] at hne
    exact h (if_neg hne)
  · by_cases hv : v.organizationId = org
    · rw [if_pos hv, if_pos hv]
      refine congrArg (List.map _) (filter_filter_of_imp _ fun f h => ?_)
      simp only [Bool.and_eq_true] at h
      rw [← hv]
      exact h.1.1
    · rw [if_neg hv, if_neg hv]

theorem factsValidAt_restrict (entityId : Uuid) (validAt : Instant) (knownAt : Option Instant) :
    factsValidAt (restrict org db) org entityId validAt knownAt =
      factsValidAt db org entityId validAt knownAt := by
  unfold factsValidAt
  rw [entityRows_restrict]
  refine congrArg (fun rows => distinctOnFact (List.insertionSort RowLe rows))
    (List.filter_congr fun row hrow => ?_)
  rw [validAtCondition_restrict (mem_entityRows hrow).1]

theorem entityVersions_restrict (entityId : Uuid) (knownAt : Option Instant) :
    entityVersions (restrict org db) org entityId knownAt =
      entityVersions db org entityId knownAt := by
  unfold entityVersions
  rw [entityRows_restrict]

/-- A decision that was shown a version, joined with its snapshot and with what it relied on. -/
theorem decisionsWith_restrict (versionId : Uuid) :
    decisionsWith (restrict org db) org versionId = decisionsWith db org versionId := by
  unfold decisionsWith
  refine congrArg (List.insertionSort _) ((flatMap_filter_of_imp db.decisions fun d h => ?_).trans
    (List.flatMap_congr fun d _ => ?_))
  · obtain ⟨entry, hentry⟩ := List.exists_mem_of_ne_nil _ h
    obtain ⟨s, hs, -⟩ := List.mem_map.mp hentry
    have hkept := (List.mem_filter.mp hs).2
    simp only [Bool.and_eq_true] at hkept
    exact hkept.1.2
  · by_cases hd : d.organizationId = org
    · have hsnapshots : ((restrict org db).snapshotFacts.filter fun s =>
          s.organizationId == d.organizationId && s.snapshotId == d.snapshotId &&
            d.organizationId == org && s.factVersionId == versionId) =
          db.snapshotFacts.filter fun s =>
            s.organizationId == d.organizationId && s.snapshotId == d.snapshotId &&
              d.organizationId == org && s.factVersionId == versionId := by
        refine filter_filter_of_imp _ fun s h => ?_
        simp only [Bool.and_eq_true] at h
        rw [← hd]
        exact h.1.1.1
      have hrelied : ((restrict org db).decisionFacts.any fun f =>
          f.organizationId == d.organizationId && f.decisionId == d.id &&
            f.factVersionId == versionId) =
          db.decisionFacts.any fun f => f.organizationId == d.organizationId &&
            f.decisionId == d.id && f.factVersionId == versionId := by
        refine any_filter_of_imp _ fun f h => ?_
        simp only [Bool.and_eq_true] at h
        rw [← hd]
        exact h.1.1
      rw [hsnapshots, hrelied]
    · have hother : (d.organizationId == org) = false := by simpa using hd
      simp [hother]

theorem detailsOf_restrict (revocation : FactRevocation) :
    detailsOf (restrict org db) org revocation = detailsOf db org revocation := by
  unfold detailsOf
  have hversions : ((restrict org db).versions.filter fun v =>
      v.organizationId == org && v.id == revocation.factVersionId) =
        db.versions.filter fun v => v.organizationId == org && v.id == revocation.factVersionId :=
    filter_filter_of_imp _ fun _ h => (Bool.and_eq_true_iff.mp h).1
  have hrows : (((restrict org db).versions.filter fun v =>
      v.organizationId == org && v.id == revocation.factVersionId).flatMap fun v =>
        (joinedTo (restrict org db) v).map fun row => (v, row.1, row.2)) =
      (db.versions.filter fun v =>
        v.organizationId == org && v.id == revocation.factVersionId).flatMap fun v =>
          (joinedTo db v).map fun row => (v, row.1, row.2) := by
    rw [hversions]
    refine List.flatMap_congr fun v hv => congrArg (List.map _) (joinedTo_restrict ?_)
    exact beq_iff_eq.mp (Bool.and_eq_true_iff.mp (List.mem_filter.mp hv).2).1
  rw [hrows]

/-- A revocation is joined with the version that it names. -/
theorem visibleRevocations_restrict (visible : List PrivacyScope) (asked : FactVersion → Bool) :
    visibleRevocations (restrict org db) org visible asked =
      visibleRevocations db org visible asked := by
  unfold visibleRevocations
  refine (flatMap_filter_of_imp db.revocations fun r h => ?_).trans
    (List.flatMap_congr fun r _ => congrArg (List.map _) (filter_filter_of_imp _ fun v h => ?_))
  · obtain ⟨entry, hentry⟩ := List.exists_mem_of_ne_nil _ h
    obtain ⟨v, hv, -⟩ := List.mem_map.mp hentry
    have hkept := (List.mem_filter.mp hv).2
    simp only [Bool.and_eq_true] at hkept
    exact hkept.1.1.2
  · simp only [Bool.and_eq_true, beq_iff_eq] at h ⊢
    rw [h.1.1.1.1, h.1.1.2]

section Frames

variable {db} {other : Uuid}

theorem restrict_addEntity {e : Entity} (h : e.organizationId ≠ other) :
    restrict other (db.addEntity e) = restrict other db := by
  unfold restrict Database.addEntity
  rw [filter_append_of_none]
  simpa using h

theorem restrict_addFact {f : Fact} (h : f.organizationId ≠ other) :
    restrict other (db.addFact f) = restrict other db := by
  unfold restrict Database.addFact
  rw [filter_append_of_none]
  simpa using h

theorem restrict_addVersion {v : FactVersion} (h : v.organizationId ≠ other) :
    restrict other (db.addVersion v) = restrict other db := by
  unfold restrict Database.addVersion
  rw [filter_append_of_none]
  simpa using h

/-- Closing a version of one organization leaves the rows of the others. -/
theorem restrict_closeVersion {id : Uuid} {validUntil recordedAt : Instant} (h : org ≠ other) :
    restrict other (db.closeVersion org id validUntil recordedAt) = restrict other db := by
  unfold restrict Database.closeVersion
  rw [filter_map_of_kept]
  · intro v
    split
    · rfl
    · rfl
  · intro v hv
    refine if_neg fun hclosed => h ?_
    rw [← hclosed.1]
    exact beq_iff_eq.mp hv

theorem restrict_addLinks (db : Database) {links : List FactVersionEvidence}
    (h : ∀ l ∈ links, l.organizationId ≠ other) :
    restrict other { db with links := db.links ++ links } = restrict other db := by
  unfold restrict
  rw [filter_append_of_none]
  intro l hl
  simpa using h l hl

theorem restrict_addRemarks (db : Database) {contradictions : List Contradiction}
    {links : List FactVersionEvidence} (hcontradictions : ∀ c ∈ contradictions,
      c.organizationId ≠ other) (hlinks : ∀ l ∈ links, l.organizationId ≠ other) :
    restrict other { db with
      contradictions := db.contradictions ++ contradictions
      links := db.links ++ links } = restrict other db := by
  unfold restrict
  rw [filter_append_of_none, filter_append_of_none]
  · intro c hc
    simpa using hcontradictions c hc
  · intro l hl
    simpa using hlinks l hl

theorem restrict_addEvidence {e : Evidence} (h : e.organizationId ≠ other) :
    restrict other { db with evidence := db.evidence ++ [e] } = restrict other db := by
  unfold restrict
  rw [filter_append_of_none]
  simpa using h

/-- A revocation is stored with its impacts. -/
theorem restrict_addRevocation {write : RevokeWrite}
    (hrevocation : write.revocation.organizationId ≠ other)
    (himpacts : ∀ i ∈ write.impacts, i.organizationId ≠ other) :
    restrict other (write.apply db) = restrict other db := by
  unfold restrict RevokeWrite.apply Database.addRevocation
  rw [filter_append_of_none, filter_append_of_none]
  · intro i hi
    simpa using himpacts i hi
  · simpa using hrevocation

theorem restrict_addDecision {decision : Decision} {relied : List Uuid}
    (h : decision.organizationId ≠ other) :
    restrict other (Decisions.Database.addDecision db decision relied) = restrict other db := by
  unfold restrict Decisions.Database.addDecision
  rw [filter_append_of_none, filter_append_of_none]
  · intro row hrow
    obtain ⟨versionId, -, rfl⟩ := List.mem_map.mp hrow
    simpa using h
  · simpa using h

end Frames

end ContextLedger.TenantRestriction

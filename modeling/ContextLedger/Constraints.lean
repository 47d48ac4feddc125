import ContextLedger.Concurrent

/-!
Which steps can fail on a constraint of the database. Reading, validating and
planning raise domain errors only; creating the rows of a place passes every
constraint when its identifiers are new, and so does a write that appends to a
sound table.
-/
namespace ContextLedger.Constraints

open Values Validation Authorization FactRules Schema Facts VersionChain VersionTable Recording
open Revocations Concurrent

/-- The computation is not refused by a constraint. -/
def Unconstrained {α : Type} (x : Result α) : Prop := ∀ name, x ≠ .error (.integrity name)

theorem unconstrained_ok {α : Type} (a : α) : Unconstrained (.ok a : Result α) := by
  intro name h
  exact absurd h (by simp)

theorem unconstrained_domain {α : Type} (e : DomainError) :
    Unconstrained (.error (.domain e) : Result α) := by
  intro name h
  exact absurd h (by simp)

/-- A computation is refused by none of its steps. -/
theorem Unconstrained.bind {α β : Type} {x : Result α} {f : α → Result β}
    (hx : Unconstrained x) (hf : ∀ a, x = .ok a → Unconstrained (f a)) :
    Unconstrained (x >>= f) := by
  cases x with
  | ok a => exact hf a rfl
  | error failure =>
    intro name h
    have hsame : failure = .integrity name := Except.error.inj h
    exact hx name (by rw [hsame])

theorem Unconstrained.map {α β : Type} {x : Result α} {f : α → β} (hx : Unconstrained x) :
    Unconstrained (x.map f) := by
  cases x with
  | ok a => exact unconstrained_ok (f a)
  | error failure =>
    intro name h
    have hsame : failure = .integrity name := Except.error.inj h
    exact hx name (by rw [hsame])

theorem unconstrained_requirePermission (db : Database) (ctx : TenantContext)
    (permission : Permission) : Unconstrained (requirePermission db ctx permission) := by
  unfold requirePermission
  simp only
  split
  · split_ifs
    · exact unconstrained_domain _
    · exact unconstrained_domain _
    · exact unconstrained_domain _
    · exact unconstrained_ok _
  · exact unconstrained_domain _

theorem unconstrained_validateAuthority (value : ℤ) : Unconstrained (validateAuthority value) := by
  unfold validateAuthority
  split
  · exact unconstrained_ok _
  · exact unconstrained_domain _

theorem unconstrained_requireAware (value : Datetime) (field : String) :
    Unconstrained (requireAware value field) := by
  unfold requireAware
  split
  · exact unconstrained_domain _
  · exact unconstrained_ok _

private theorem unconstrained_window (validFrom : Datetime) (validUntil : Option Datetime) :
    Unconstrained (ValidityWindow.ofRequest validFrom validUntil) := by
  unfold ValidityWindow.ofRequest
  refine (unconstrained_requireAware _ _).bind fun start _ => ?_
  refine Unconstrained.bind ?_ fun finish _ => ?_
  · cases validUntil with
    | none => exact unconstrained_ok _
    | some value => exact (unconstrained_requireAware _ _).map
  · unfold ValidityWindow.create
    split
    · exact unconstrained_ok _
    · exact unconstrained_domain _

private theorem unconstrained_factValue (value : JsonText.Json) :
    Unconstrained (validateFactValue value) := by
  have hcheck (value : JsonText.Json) (h : value ≠ .null) :
      Unconstrained (validateFactValue.check value h) := by
    unfold validateFactValue.check
    split
    · exact unconstrained_domain _
    · split
      · exact unconstrained_domain _
      · exact unconstrained_ok _
  unfold validateFactValue
  split
  · exact unconstrained_domain _
  all_goals exact hcheck _ _

private theorem unconstrained_confidence (value : DecimalInput) :
    Unconstrained (normalizeConfidence value) := by
  cases value with
  | malformed => exact unconstrained_domain _
  | infinite => exact unconstrained_domain _
  | nan =>
    intro name h
    exact absurd h (by simp [normalizeConfidence])
  | finite negative magnitude =>
    have hrange (n : ℤ) : Unconstrained (if h : 0 ≤ n ∧ n ≤ 1000 then
        (.ok ⟨n, h⟩ : Result Confidence)
        else validationFailed "confidence must be between 0 and 1") := by
      split
      · exact unconstrained_ok _
      · exact unconstrained_domain _
    unfold normalizeConfidence
    simp only
    split
    · exact unconstrained_domain _
    · exact hrange _

private theorem unconstrained_identifier (value field : String) :
    Unconstrained (normalizeIdentifier value field) := by
  unfold normalizeIdentifier
  simp only
  split
  · exact unconstrained_ok _
  · exact unconstrained_domain _

private theorem unconstrained_externalId (rt : Runtime) (value : String) :
    Unconstrained (normalizeExternalId rt value) := by
  unfold normalizeExternalId
  simp only
  split
  · split
    · exact unconstrained_domain _
    · exact unconstrained_ok _
  · exact unconstrained_domain _

/-- The checks of a command name no constraint. -/
theorem unconstrained_draft (rt : Runtime) (command : RecordFactVersion) :
    Unconstrained (draft rt command) := by
  unfold draft
  refine (unconstrained_identifier _ _).bind fun _ _ => ?_
  refine (unconstrained_externalId _ _).bind fun _ _ => ?_
  refine (unconstrained_identifier _ _).bind fun _ _ => ?_
  refine (unconstrained_factValue _).bind fun _ _ => ?_
  refine (unconstrained_window _ _).bind fun _ _ => ?_
  refine (unconstrained_requireAware _ _).bind fun _ _ => ?_
  refine (unconstrained_confidence _).bind fun _ _ => ?_
  exact unconstrained_ok _

/-- The rows of a place pass every constraint when their identifiers are new. -/
theorem checks_findPlace {db : Database} {org : Uuid} {d : Draft} {source : FactSource}
    {authority : Authority} {entityId factId : Uuid} (hentity : ∀ e ∈ db.entities, e.id ≠ entityId)
    (hfact : ∀ f ∈ db.facts, f.id ≠ factId) :
    firstBroken ((findPlace db org d source authority entityId factId).checks db) = none := by
  rw [firstBroken_eq_none]
  intro c hc
  rw [Place.checks, List.mem_append] at hc
  rcases hc with hc | hc
  · cases hfound : findEntity db org d.entityType.1 d.externalId.1 with
    | some e => simp [findPlace, hfound] at hc
    | none =>
      have hkey := List.find?_eq_none.mp hfound
      simp only [findPlace, hfound, Option.isNone_none, if_true, Option.getD_none, entityChecks,
        List.mem_cons, List.not_mem_nil, or_false] at hc
      rcases hc with rfl | rfl | rfl | rfl | rfl
      · simpa using hentity
      · simpa using hkey
      · simpa using fun e he _ => hentity e he
      · simpa using d.entityType.2.2
      · have hlength := d.externalId.2
        unfold IsExternalId externalIdMaxLength at hlength
        simpa using hlength
  · cases hfound : findFact db org
        ((findEntity db org d.entityType.1 d.externalId.1).getD
          ⟨entityId, org, d.entityType.1, d.externalId.1⟩).id d.property.1 with
    | some f => simp [findPlace, hfound] at hc
    | none =>
      have hkey := List.find?_eq_none.mp hfound
      simp only [findPlace, hfound, Option.isNone_none, if_true, Option.getD_none, factChecks,
        List.mem_cons, List.not_mem_nil, or_false] at hc
      rcases hc with rfl | rfl | rfl | rfl
      · simpa using hfact
      · simpa using hkey
      · simpa using fun f hf _ => hfact f hf
      · simpa using d.property.2.2

/-- New identifiers break no constraint of the entity or of the fact. -/
theorem unconstrained_locate {db : Database} {ctx : TenantContext} {d : Draft}
    {entityId factId : Uuid} (hentity : ∀ e ∈ db.entities, e.id ≠ entityId)
    (hfact : ∀ f ∈ db.facts, f.id ≠ factId) :
    Unconstrained (locate db ctx d entityId factId) := by
  unfold locate
  refine (unconstrained_requirePermission _ _ _).bind fun _ _ => ?_
  split
  · exact unconstrained_domain _
  · refine (unconstrained_validateAuthority _).bind fun authority _ => ?_
    simp only [checks_findPlace hentity hfact]
    exact unconstrained_ok _

/-- A version out of order is a conflict, not a broken constraint. -/
theorem unconstrained_planVersion (latest : Option FactVersion) (d : Draft) :
    Unconstrained (planVersion latest d) := by
  have hplan (latest : Option LatestVersion) (window : ValidityWindow) :
      Unconstrained (planNewVersion latest window) := by
    unfold planNewVersion
    split
    · exact unconstrained_ok _
    · simp only
      split
      · exact unconstrained_domain _
      · split
        · exact unconstrained_ok _
        · split
          · exact unconstrained_domain _
          · exact unconstrained_ok _
  cases latest with
  | none => exact hplan none d.window
  | some v =>
    unfold planVersion
    refine Unconstrained.bind ?_ fun window _ => hplan _ _
    unfold ValidityWindow.create
    split
    · exact unconstrained_ok _
    · exact unconstrained_domain _

theorem unconstrained_linkEvidence (db : Database) (ctx : TenantContext) (now : Instant)
    (versionId : Uuid) (ids : List Uuid) (relation : EvidenceRelation) :
    Unconstrained (linkEvidence db ctx now versionId ids relation) := by
  unfold linkEvidence
  simp only
  split
  · exact unconstrained_ok _
  · split
    · exact unconstrained_domain _
    · split
      · exact unconstrained_domain _
      · split
        · exact unconstrained_domain _
        · exact unconstrained_ok _

/-- The write phase is not refused when the rows it would write append to the table. -/
theorem unconstrained_writeVersion {db : Database} {ctx : TenantContext} {d : Draft}
    {place : Place} {latest : Option FactVersion} {plan : VersionPlan} {recordedAt now : Instant}
    {id : Uuid} (hsound : Sound db)
    (happ : ∀ write, Written ctx d place latest plan recordedAt id write → Appends db write) :
    Unconstrained (writeVersion db ctx d place latest plan recordedAt now id) := by
  unfold writeVersion
  split
  · intro name h
    exact absurd h (by simp)
  · rename_i value hvalue
    simp only
    rw [rejectedBy_eq_none hsound (happ _ ⟨⟨value, hvalue, rfl⟩, rfl, rfl, rfl⟩)]
    exact (unconstrained_linkEvidence _ _ _ _ _ _).map

theorem unconstrained_revokeRequest (factId : Uuid) (versionId : Option Uuid) (reason : String) :
    Unconstrained (revokeRequest factId versionId reason) := by
  unfold revokeRequest
  simp only
  split
  · exact unconstrained_domain _
  · exact unconstrained_ok _

theorem unconstrained_authorizeRevoke (db : Database) (ctx : TenantContext)
    (request : RevokeRequest) : Unconstrained (authorizeRevoke db ctx request) := by
  unfold authorizeRevoke
  refine (unconstrained_requirePermission _ _ _).bind fun _ _ => ?_
  refine (unconstrained_requirePermission _ _ _).bind fun _ _ => ?_
  split
  · exact unconstrained_domain _
  · exact unconstrained_ok _

/-- Revoking is refused by its own checks alone. -/
theorem unconstrained_writeRevocation (db : Database) (ctx : TenantContext)
    (request : RevokeRequest) (role : MembershipRole) (now : Instant) (id : Uuid) :
    Unconstrained (writeRevocation db ctx request role now id) := by
  unfold writeRevocation
  refine Unconstrained.bind ?_ fun _ _ => unconstrained_ok _
  unfold chooseRevoked
  simp only
  split
  · exact unconstrained_domain _
  · split
    · exact unconstrained_domain _
    · split
      · exact unconstrained_domain _
      · exact unconstrained_ok _

end ContextLedger.Constraints

import ContextLedger.TemporalEngine

/-!
Revoking a fact version: it was wrong, not merely superseded. The version is
chosen under the lock of its fact, and every decision whose frozen context held
it gets an impact row. The time of the revocation is the begin time of its
transaction.
-/
namespace ContextLedger.Revocations

open Values Validation Authorization Schema Facts

def maxReasonChars : ℕ := 2000

structure RevokeRequest where
  factId : Uuid
  versionId : Option Uuid
  reason : String

def revokeRequest (factId : Uuid) (versionId : Option Uuid) (reason : String) :
    Result RevokeRequest :=
  let reason := strip reason
  if reason.length = 0 ∨ maxReasonChars < reason.length then
    validationFailed ("reason must be 1-" ++ natText maxReasonChars ++ " characters")
  else .ok ⟨factId, versionId, reason⟩

/-- The role that decides what the caller may see; the fact must exist. -/
def authorizeRevoke (db : Database) (ctx : TenantContext) (request : RevokeRequest) :
    Result MembershipRole := do
  let role ← requirePermission db ctx .writeFacts
  let _ ← requirePermission db ctx .readDecisions
  match getFact db ctx.organizationId request.factId with
  | none => notFound "fact not found"
  | some _ => return role

/-- The version to revoke: the latest by default, visible, and not yet revoked. -/
def chooseRevoked (db : Database) (ctx : TenantContext) (request : RevokeRequest)
    (role : MembershipRole) : Result FactVersion :=
  let version := match request.versionId with
    | none => latestVersion db ctx.organizationId request.factId
    | some id => getVersion db ctx.organizationId id
  match version with
  | none => notFound "fact version not found"
  | some v =>
    if v.factId ≠ request.factId ∨
        (visiblePrivacyScopes role [ctx.maxPrivacyScope]).contains v.privacyScope = false then
      notFound "fact version not found"
    else if db.revocations.any fun r =>
        r.organizationId == ctx.organizationId && r.factVersionId == v.id then
      conflict "this fact version is already revoked"
    else .ok v

/-- Decisions whose frozen context contained the version, oldest first, with
whether they relied on it. -/
def decisionsWith (db : Database) (org versionId : Uuid) : List (Decision × Bool) :=
  let found := db.decisions.flatMap fun d =>
    (db.snapshotFacts.filter fun s => s.organizationId == d.organizationId &&
      s.snapshotId == d.snapshotId && d.organizationId == org && s.factVersionId == versionId).map
      fun _ => (d, db.decisionFacts.any fun f => f.organizationId == d.organizationId &&
        f.decisionId == d.id && f.factVersionId == versionId)
  found.insertionSort fun a b => a.1.decidedAt < b.1.decidedAt ∨
    (a.1.decidedAt = b.1.decidedAt ∧ a.1.id.toNat ≤ b.1.id.toNat)

structure RevokeWrite where
  revocation : FactRevocation
  impacts : List RevocationImpact

def RevokeWrite.apply (write : RevokeWrite) (db : Database) : Database :=
  { db.addRevocation write.revocation with impacts := db.impacts ++ write.impacts }

/-- The rows of a revocation; `now` is the begin time of the transaction. -/
def writeRevocation (db : Database) (ctx : TenantContext) (request : RevokeRequest)
    (role : MembershipRole) (now : Instant) (id : Uuid) : Result RevokeWrite := do
  let v ← chooseRevoked db ctx request role
  let revocation : FactRevocation :=
    ⟨id, ctx.organizationId, v.id, request.reason, ctx.userId, ctx.agentClientId, now⟩
  return {
    revocation
    impacts := (decisionsWith db ctx.organizationId v.id).map fun entry =>
      ⟨ctx.organizationId, id, entry.1.id, entry.1.snapshotId, v.id, entry.2⟩ }

/-- A call that runs alone, begun at one reading of the database clock. -/
def revoke (ctx : TenantContext) (factId : Uuid) (versionId : Option Uuid) (reason : String)
    (clock : Instant) (id : Uuid) (db : Database) : Result (FactRevocation × Database) := do
  let request ← revokeRequest factId versionId reason
  let role ← authorizeRevoke db ctx request
  let write ← writeRevocation db ctx request role clock id
  return (write.revocation, write.apply db)

/-- What a revocation is written for. -/
structure Revokes (db : Database) (ctx : TenantContext) (request : RevokeRequest) (now : Instant)
    (write : RevokeWrite) : Prop where
  organizationId : write.revocation.organizationId = ctx.organizationId
  revokedAt : write.revocation.revokedAt = now
  version : ∃ v ∈ versionsOf db ctx.organizationId request.factId,
    v.id = write.revocation.factVersionId
  named : ∀ id, request.versionId = some id → write.revocation.factVersionId = id
  first : ∀ r ∈ db.revocations, r.organizationId = ctx.organizationId →
    r.factVersionId ≠ write.revocation.factVersionId

theorem revokeRequest_eq_ok {factId : Uuid} {versionId : Option Uuid} {reason : String}
    {request : RevokeRequest} (h : revokeRequest factId versionId reason = .ok request) :
    request.factId = factId ∧ request.versionId = versionId := by
  unfold revokeRequest at h
  simp only at h
  split at h
  · exact absurd h (by simp [validationFailed])
  · obtain rfl := Except.ok.inj h
    exact ⟨rfl, rfl⟩

theorem chooseRevoked_eq_ok {db : Database} {ctx : TenantContext} {request : RevokeRequest}
    {role : MembershipRole} {v : FactVersion} (h : chooseRevoked db ctx request role = .ok v) :
    v ∈ versionsOf db ctx.organizationId request.factId ∧
      (visiblePrivacyScopes role [ctx.maxPrivacyScope]).contains v.privacyScope = true ∧
      (∀ id, request.versionId = some id → v.id = id) ∧
      ∀ r ∈ db.revocations, r.organizationId = ctx.organizationId → r.factVersionId ≠ v.id := by
  unfold chooseRevoked at h
  simp only at h
  split at h
  · exact absurd h (by simp [notFound])
  · rename_i w hw
    split at h
    · exact absurd h (by simp [notFound])
    · rename_i hvisible
      split at h
      · exact absurd h (by simp [conflict])
      · rename_i hfirst
        obtain rfl := Except.ok.inj h
        rw [not_or, not_not] at hvisible
        refine ⟨?_, by simpa using hvisible.2, ?_, ?_⟩
        · split at hw
          · exact List.argmax_mem hw
          · have hmem := List.mem_of_find?_eq_some hw
            have hkey := List.find?_some hw
            simp only [Bool.and_eq_true, beq_iff_eq] at hkey
            exact VersionTable.mem_versionsOf.mpr ⟨hmem, hkey.1, hvisible.1⟩
        · intro id hid
          rw [hid] at hw
          have hkey := List.find?_some hw
          simp only [Bool.and_eq_true, beq_iff_eq] at hkey
          exact hkey.2
        · intro r hr horg hid
          apply hfirst
          rw [List.any_eq_true]
          exact ⟨r, hr, by simp [horg, hid]⟩

theorem writeRevocation_eq_ok {db : Database} {ctx : TenantContext} {request : RevokeRequest}
    {role : MembershipRole} {now : Instant} {id : Uuid} {write : RevokeWrite}
    (h : writeRevocation db ctx request role now id = .ok write) :
    Revokes db ctx request now write := by
  unfold writeRevocation at h
  obtain ⟨v, hv, h⟩ := bind_eq_ok.mp h
  obtain rfl := Except.ok.inj h
  obtain ⟨hmem, -, hnamed, hfirst⟩ := chooseRevoked_eq_ok hv
  exact ⟨rfl, rfl, ⟨v, hmem, rfl⟩, hnamed, hfirst⟩

end ContextLedger.Revocations

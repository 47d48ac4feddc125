import ContextLedger.Facts

/-!
Organizations, their members and their agent clients. The tables of this module
decide who may act where: a request gets a tenant context from the membership
of its user, and an agent acts through a service user of its own. The statements
of the membership and agent services are separate functions, for transactions
that interleave.
-/
namespace ContextLedger.Tenancy

open Values Validation Authorization Schema Facts

structure Organization where
  id : Uuid
  slug : String
  name : String

/-- The client of an agent. Only a hash of its secret is stored. -/
structure AgentClient where
  id : Uuid
  organizationId : Uuid
  name : String
  clientId : String
  secretHash : String
  serviceUserId : Uuid
  allowedScopes : List Permission
  privacyCeiling : PrivacyScope
  createdByUserId : Uuid
  revokedAt : Option Instant

structure Directory where
  db : Database
  organizations : List Organization
  agentClients : List AgentClient

def getUser (db : Database) (userId : Uuid) : Option User :=
  db.users.find? fun u => u.id == userId

def getMembership (db : Database) (org userId : Uuid) : Option OrganizationMembership :=
  db.memberships.find? fun m => m.organizationId == org && m.userId == userId

def countWithRole (db : Database) (org : Uuid) (role : MembershipRole) : ℕ :=
  db.memberships.countP fun m => m.organizationId == org && m.role == role

def getBySlug (d : Directory) (slug : String) : Option Organization :=
  d.organizations.find? fun o => o.slug == slug

/-- The row lock of an organization is there to take only when the row is. -/
def lockOrganization (d : Directory) (org : Uuid) : Result Unit :=
  if d.organizations.any fun o => o.id == org then .ok () else permissionDenied notAMember

/-- The context of a user who acts inside an organization. -/
def resolve (db : Database) (organizationId userId : Uuid) : Result TenantContext :=
  match getUser db userId, getMembership db organizationId userId with
  | some user, some membership =>
    if !user.isActive then permissionDenied notAMember
    else .ok ⟨organizationId, userId, membership.role, none, none, none⟩
  | _, _ => permissionDenied notAMember

/-- Who calls, as the token says. -/
structure Principal where
  userId : Uuid
  organizationId : Option Uuid
  scopes : Option (List Permission)
  maxPrivacyScope : Option PrivacyScope
  agentClientId : Option Uuid

def isActive (clients : List AgentClient) (agentClientId : Uuid) : Bool :=
  (clients.find? fun c => c.id == agentClientId).any fun c => c.revokedAt.isNone

/-- The agent's client is read in one transaction and the membership in the next. -/
def getTenant (clients : List AgentClient) (db : Database) (organizationId : Uuid)
    (principal : Principal) : Result TenantContext :=
  if principal.organizationId.any fun org => org != organizationId then
    permissionDenied notAMember
  else if principal.agentClientId.any fun id => !isActive clients id then
    permissionDenied notAMember
  else
    match resolve db organizationId principal.userId with
    | .error failure => .error failure
    | .ok ctx =>
      if principal.agentClientId.isSome && ctx.role == .admin then
        permissionDenied "agents may not act with the ADMIN role"
      else
        .ok { ctx with
          scopes := principal.scopes
          maxPrivacyScope := principal.maxPrivacyScope
          agentClientId := principal.agentClientId }

def isSlugChar (c : Char) : Bool := isLowerAscii c || ('0' ≤ c && c ≤ '9') || c == '-'

def matchesSlug (slug : List Char) : Bool :=
  decide (3 ≤ slug.length ∧ slug.length ≤ 63) && slug.all isSlugChar &&
    slug.head? != some '-' && slug.getLast? != some '-'

def normalizeSlug (value : String) : Result String :=
  let slug := lower (strip value)
  if matchesSlug slug.toList then .ok slug
  else validationFailed
    "slug must be 3-63 characters of a-z, 0-9 or '-', and must not start or end with '-'"

def agentRoles : List MembershipRole := [.engineer, .viewer]

/-- The permissions in the order of their texts, each once. -/
def sortPermissions (permissions : List Permission) : List Permission :=
  permissions.dedup.insertionSort fun p q => p.text ≤ q.text

def validateScopes (role : MembershipRole) (scopes : List Permission) :
    Result (List Permission) :=
  let requested := sortPermissions scopes
  if requested.isEmpty then validationFailed "an agent needs at least one scope"
  else
    let excess := requested.filter fun p => !hasPermission role p
    if excess.isEmpty then .ok requested
    else validationFailed ("role " ++ role.text ++ " cannot grant: " ++
      String.intercalate ", " (excess.map Permission.text))

/-- A request to one of the services, with the identifiers its rows will get. -/
inductive Request where
  | createOrganization (name slug : String) (creatorUserId id : Uuid)
  | addMember (ctx : TenantContext) (userId : Uuid) (role : MembershipRole)
  | changeRole (ctx : TenantContext) (userId : Uuid) (role : MembershipRole)
  | removeMember (ctx : TenantContext) (userId : Uuid)
  | createAgent (ctx : TenantContext) (name : String) (role : MembershipRole)
      (scopes : List Permission) (privacyCeiling : PrivacyScope) (id serviceUserId : Uuid)
      (clientId secretHash : String)
  | revokeAgent (ctx : TenantContext) (agentClientId : Uuid) (now : Instant)

/-- What a transaction is to do, after the checks that read no table. -/
inductive Operation where
  | createOrganization (organization : Organization) (creatorUserId : Uuid)
  | addMember (ctx : TenantContext) (userId : Uuid) (role : MembershipRole)
  | changeRole (ctx : TenantContext) (userId : Uuid) (role : MembershipRole)
  | removeMember (ctx : TenantContext) (userId : Uuid)
  | createAgent (ctx : TenantContext) (role : MembershipRole) (client : AgentClient)
  | revokeAgent (ctx : TenantContext) (agentClientId : Uuid) (now : Instant)

def prepare : Request → Result Operation
  | .createOrganization name slug creatorUserId id => do
    let slug ← normalizeSlug slug
    let name ← normalizeName name "name"
    return .createOrganization ⟨id, slug, name⟩ creatorUserId
  | .addMember ctx userId role => .ok (.addMember ctx userId role)
  | .changeRole ctx userId role => .ok (.changeRole ctx userId role)
  | .removeMember ctx userId => .ok (.removeMember ctx userId)
  | .createAgent ctx name role scopes privacyCeiling id serviceUserId clientId secretHash => do
    let name ← normalizeName name "name"
    if !agentRoles.contains role then
      validationFailed "agents can be ENGINEER or VIEWER, never ADMIN"
    else
      let allowedScopes ← validateScopes role scopes
      return .createAgent ctx role
        { id, organizationId := ctx.organizationId, name, clientId, secretHash, serviceUserId
          allowedScopes, privacyCeiling, createdByUserId := ctx.userId, revokedAt := none }
  | .revokeAgent ctx agentClientId now => .ok (.revokeAgent ctx agentClientId now)

def Operation.context : Operation → Option TenantContext
  | .createOrganization _ _ => none
  | .addMember ctx _ _ => some ctx
  | .changeRole ctx _ _ => some ctx
  | .removeMember ctx _ => some ctx
  | .createAgent ctx _ _ => some ctx
  | .revokeAgent ctx _ _ => some ctx

/-- A creation makes the row that the others lock, and a revocation locks the client. -/
def Operation.locks : Operation → Bool
  | .createOrganization _ _ => false
  | .revokeAgent _ _ _ => false
  | _ => true

def userAlreadyMember : String := "user is already a member of this organization"

def slugTaken : String := "an organization with this slug already exists"

/-- The rows an operation looks at before it writes. The result says whether the
ADMINs have to be counted too. -/
def inspect (d : Directory) : Operation → Result Bool
  | .createOrganization organization creatorUserId =>
    match getUser d.db creatorUserId with
    | none => notFound "creator user not found"
    | some creator =>
      if !creator.isActive then notFound "creator user not found"
      else if (getBySlug d organization.slug).isSome then conflict slugTaken
      else .ok false
  | .addMember ctx userId _ =>
    match getUser d.db userId with
    | none => notFound "user not found"
    | some user =>
      if !user.isActive then notFound "user not found"
      else if (getMembership d.db ctx.organizationId userId).isSome then
        conflict userAlreadyMember
      else .ok false
  | .changeRole ctx userId role =>
    match getMembership d.db ctx.organizationId userId with
    | none => notFound "membership not found"
    | some membership => .ok (membership.role == .admin && role != .admin)
  | .removeMember ctx userId =>
    match getMembership d.db ctx.organizationId userId with
    | none => notFound "membership not found"
    | some membership => .ok (membership.role == .admin)
  | .createAgent ctx _ client =>
    if d.agentClients.any fun c => c.organizationId == ctx.organizationId && c.name == client.name
    then conflict "an agent client with this name already exists"
    else .ok false
  | .revokeAgent ctx agentClientId _ =>
    if d.agentClients.any fun c => c.organizationId == ctx.organizationId && c.id == agentClientId
    then .ok false
    else notFound "agent client not found"

def lastAdmin : String := "an organization must keep at least one ADMIN"

def ensureAnotherAdmin (db : Database) (org : Uuid) : Result Unit :=
  if countWithRole db org .admin ≤ 1 then .error (.domain (.invariantViolation lastAdmin))
  else .ok ()

def organizationChecks (d : Directory) (row : Organization) : List Check :=
  [("pk_organizations", d.organizations.any fun o => o.id == row.id),
   ("uq_organizations_slug", d.organizations.any fun o => o.slug == row.slug)]

def membershipChecks (d : Directory) (row : OrganizationMembership) : List Check :=
  [("uq_organization_memberships_organization_id_user_id", d.db.memberships.any fun m =>
      m.organizationId == row.organizationId && m.userId == row.userId),
   ("fk_organization_memberships_organization_id_organizations",
      !d.organizations.any fun o => o.id == row.organizationId),
   ("fk_organization_memberships_user_id_users",
      !d.db.users.any fun u => u.id == row.userId)]

def agentClientChecks (d : Directory) (row : AgentClient) : List Check :=
  [("pk_agent_clients", d.agentClients.any fun c => c.id == row.id),
   ("uq_agent_clients_client_id", d.agentClients.any fun c => c.clientId == row.clientId),
   ("uq_agent_clients_service_user_id", d.agentClients.any fun c =>
      c.serviceUserId == row.serviceUserId),
   ("uq_agent_clients_organization_id_name", d.agentClients.any fun c =>
      c.organizationId == row.organizationId && c.name == row.name),
   ("fk_agent_clients_organization_id_organizations",
      !d.organizations.any fun o => o.id == row.organizationId),
   ("fk_agent_clients_service_user_id_users", !d.db.users.any fun u => u.id == row.serviceUserId),
   ("fk_agent_clients_created_by_user_id_users",
      !d.db.users.any fun u => u.id == row.createdByUserId)]

namespace Directory

def addOrganization (d : Directory) (row : Organization) : Directory :=
  { d with organizations := d.organizations ++ [row] }

def addUser (d : Directory) (row : User) : Directory :=
  { d with db := { d.db with users := d.db.users ++ [row] } }

def addMembership (d : Directory) (row : OrganizationMembership) : Directory :=
  { d with db := { d.db with memberships := d.db.memberships ++ [row] } }

def addAgentClient (d : Directory) (row : AgentClient) : Directory :=
  { d with agentClients := d.agentClients ++ [row] }

def setRole (d : Directory) (org userId : Uuid) (role : MembershipRole) : Directory :=
  { d with db := { d.db with memberships := d.db.memberships.map fun m =>
      if m.organizationId = org ∧ m.userId = userId then { m with role } else m } }

def deleteMembership (d : Directory) (org userId : Uuid) : Directory :=
  { d with db := { d.db with memberships := d.db.memberships.filter fun m =>
      !(m.organizationId == org && m.userId == userId) } }

def setRevoked (d : Directory) (org agentClientId : Uuid) (now : Instant) : Directory :=
  { d with agentClients := d.agentClients.map fun c =>
      if c.organizationId = org ∧ c.id = agentClientId ∧ c.revokedAt = none then
        { c with revokedAt := some now }
      else c }

end Directory

/-- What the last statements of an operation write, and the commit. -/
def write (d : Directory) : Operation → Result Directory
  | .createOrganization organization creatorUserId =>
    if (firstBroken (organizationChecks d organization)).isSome then conflict slugTaken
    else
      let d := d.addOrganization organization
      let row : OrganizationMembership := ⟨organization.id, creatorUserId, .admin⟩
      match firstBroken (membershipChecks d row) with
      | some name => .error (.integrity name)
      | none => .ok (d.addMembership row)
  | .addMember ctx userId role =>
    let row : OrganizationMembership := ⟨ctx.organizationId, userId, role⟩
    if (firstBroken (membershipChecks d row)).isSome then conflict userAlreadyMember
    else .ok (d.addMembership row)
  | .changeRole ctx userId role => .ok (d.setRole ctx.organizationId userId role)
  | .removeMember ctx userId => .ok (d.deleteMembership ctx.organizationId userId)
  | .createAgent ctx role client =>
    if d.db.users.any fun u => u.id == client.serviceUserId then .error (.integrity "pk_users")
    else
      let d := d.addUser ⟨client.serviceUserId, true⟩
      let row : OrganizationMembership := ⟨ctx.organizationId, client.serviceUserId, role⟩
      match firstBroken (membershipChecks d row ++ agentClientChecks d client) with
      | some name => .error (.integrity name)
      | none => .ok ((d.addMembership row).addAgentClient client)
  | .revokeAgent ctx agentClientId now =>
    .ok (d.setRevoked ctx.organizationId agentClientId now)

/-- A pair of an organization and a user that a new member may have. -/
structure Admissible (d : Directory) (org userId : Uuid) : Prop where
  fresh : ∀ m ∈ d.db.memberships, ¬(m.organizationId = org ∧ m.userId = userId)
  organization : ∃ o ∈ d.organizations, o.id = org
  user : ∃ u ∈ d.db.users, u.id = userId

theorem admissible_of_checks {d : Directory} {row : OrganizationMembership}
    (h : firstBroken (membershipChecks d row) = none) :
    Admissible d row.organizationId row.userId := by
  rw [firstBroken_eq_none] at h
  simp only [membershipChecks, List.mem_cons, List.not_mem_nil, or_false, forall_eq_or_imp,
    forall_eq, List.any_eq_false, Bool.and_eq_true, beq_iff_eq, Bool.not_eq_eq_eq_not,
    Bool.not_false, List.any_eq_true] at h
  obtain ⟨hfresh, horg, huser⟩ := h
  exact ⟨hfresh, horg, huser⟩

/-- Everything the write of an operation can do. -/
inductive Wrote (d : Directory) : Operation → Directory → Prop where
  | createdOrganization (organization : Organization) (creatorUserId : Uuid)
      (hid : ∀ o ∈ d.organizations, o.id ≠ organization.id)
      (hrow : Admissible (d.addOrganization organization) organization.id creatorUserId) :
      Wrote d (.createOrganization organization creatorUserId)
        ((d.addOrganization organization).addMembership ⟨organization.id, creatorUserId, .admin⟩)
  | addedMember (ctx : TenantContext) (userId : Uuid) (role : MembershipRole)
      (hrow : Admissible d ctx.organizationId userId) :
      Wrote d (.addMember ctx userId role) (d.addMembership ⟨ctx.organizationId, userId, role⟩)
  | changedRole (ctx : TenantContext) (userId : Uuid) (role : MembershipRole) :
      Wrote d (.changeRole ctx userId role) (d.setRole ctx.organizationId userId role)
  | removedMember (ctx : TenantContext) (userId : Uuid) :
      Wrote d (.removeMember ctx userId) (d.deleteMembership ctx.organizationId userId)
  | createdAgent (ctx : TenantContext) (role : MembershipRole) (client : AgentClient)
      (huser : ∀ u ∈ d.db.users, u.id ≠ client.serviceUserId)
      (hrow : Admissible (d.addUser ⟨client.serviceUserId, true⟩) ctx.organizationId
        client.serviceUserId) :
      Wrote d (.createAgent ctx role client)
        (((d.addUser ⟨client.serviceUserId, true⟩).addMembership
          ⟨ctx.organizationId, client.serviceUserId, role⟩).addAgentClient client)
  | revokedAgent (ctx : TenantContext) (agentClientId : Uuid) (now : Instant) :
      Wrote d (.revokeAgent ctx agentClientId now)
        (d.setRevoked ctx.organizationId agentClientId now)

theorem firstBroken_of_append {first second : List Check}
    (h : firstBroken (first ++ second) = none) : firstBroken first = none := by
  rw [firstBroken_eq_none] at h ⊢
  exact fun c hc => h c (List.mem_append_left second hc)

theorem write_cases {d d' : Directory} {operation : Operation}
    (h : write d operation = .ok d') : Wrote d operation d' := by
  cases operation with
  | createOrganization organization creatorUserId =>
    simp only [write] at h
    cases hbroken : firstBroken (organizationChecks d organization) with
    | some name => exact absurd h (by simp [hbroken, conflict])
    | none =>
      rw [hbroken, if_neg (by simp)] at h
      cases hmember : firstBroken (membershipChecks (d.addOrganization organization)
          ⟨organization.id, creatorUserId, .admin⟩) with
      | some name => exact absurd h (by simp [hmember])
      | none =>
        simp only [hmember, Except.ok.injEq] at h
        subst h
        refine Wrote.createdOrganization organization creatorUserId ?_
          (admissible_of_checks hmember)
        have hpk := firstBroken_eq_none.mp hbroken _ List.mem_cons_self
        simpa [List.any_eq_false] using hpk
  | addMember ctx userId role =>
    simp only [write] at h
    cases hmember : firstBroken (membershipChecks d ⟨ctx.organizationId, userId, role⟩) with
    | some name => exact absurd h (by simp [hmember, conflict])
    | none =>
      rw [hmember, if_neg (by simp), Except.ok.injEq] at h
      subst h
      exact Wrote.addedMember ctx userId role (admissible_of_checks hmember)
  | changeRole ctx userId role =>
    obtain rfl := Except.ok.inj h
    exact Wrote.changedRole ctx userId role
  | removeMember ctx userId =>
    obtain rfl := Except.ok.inj h
    exact Wrote.removedMember ctx userId
  | createAgent ctx role client =>
    simp only [write] at h
    cases huser : d.db.users.any fun u => u.id == client.serviceUserId with
    | true => exact absurd h (by simp [huser])
    | false =>
      rw [huser, if_neg (by simp)] at h
      cases hmember : firstBroken (membershipChecks (d.addUser ⟨client.serviceUserId, true⟩)
          ⟨ctx.organizationId, client.serviceUserId, role⟩ ++
          agentClientChecks (d.addUser ⟨client.serviceUserId, true⟩) client) with
      | some name => exact absurd h (by simp [hmember])
      | none =>
        simp only [hmember, Except.ok.injEq] at h
        subst h
        refine Wrote.createdAgent ctx role client (by simpa using huser) ?_
        exact admissible_of_checks (firstBroken_of_append hmember)
  | revokeAgent ctx agentClientId now =>
    obtain rfl := Except.ok.inj h
    exact Wrote.revokedAgent ctx agentClientId now

end ContextLedger.Tenancy

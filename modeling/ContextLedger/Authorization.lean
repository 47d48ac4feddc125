import ContextLedger.Values

/-!
Roles, permissions and the privacy scopes a caller may see. Roles belong to a
membership. Permissions are checked against the membership stored at the time
of the request, and a token's scopes and ceilings can only narrow them.
-/
namespace ContextLedger.Authorization

open Values

inductive MembershipRole where
  | admin
  | engineer
  | viewer
  deriving DecidableEq

def MembershipRole.text : MembershipRole → String
  | .admin => "ADMIN"
  | .engineer => "ENGINEER"
  | .viewer => "VIEWER"

inductive Permission where
  | readOrganization
  | readMembers
  | manageMembers
  | readFacts
  | writeFacts
  | revokeFacts
  | readDecisions
  | recordDecisions
  | readAudit
  deriving DecidableEq

def Permission.text : Permission → String
  | .readOrganization => "organization:read"
  | .readMembers => "members:read"
  | .manageMembers => "members:manage"
  | .readFacts => "facts:read"
  | .writeFacts => "facts:write"
  | .revokeFacts => "facts:revoke"
  | .readDecisions => "decisions:read"
  | .recordDecisions => "decisions:record"
  | .readAudit => "audit:read"

def viewerPermissions : List Permission :=
  [.readOrganization, .readMembers, .readFacts, .readDecisions]

def engineerPermissions : List Permission := viewerPermissions ++ [.writeFacts, .recordDecisions]

def hasPermission (role : MembershipRole) (permission : Permission) : Bool :=
  match role with
  | .admin => true
  | .engineer => engineerPermissions.contains permission
  | .viewer => viewerPermissions.contains permission

/-- Who is acting, in which organization, and what their token narrows. -/
structure TenantContext where
  organizationId : Uuid
  userId : Uuid
  role : MembershipRole
  scopes : Option (List Permission)
  maxPrivacyScope : Option PrivacyScope
  agentClientId : Option Uuid

/-- Least to most sensitive. -/
def privacyRank : PrivacyScope → ℕ
  | .public => 0
  | .internal => 1
  | .confidential => 2
  | .restricted => 3

def privacyOrder : List PrivacyScope := [.public, .internal, .confidential, .restricted]

def roleMaxPrivacy : MembershipRole → PrivacyScope
  | .viewer => .internal
  | .engineer => .confidential
  | .admin => .restricted

/-- The scopes up to the lowest of the role's ceiling and the given ones. -/
def visiblePrivacyScopes (role : MembershipRole) (ceilings : List (Option PrivacyScope)) :
    List PrivacyScope :=
  let ceiling := ceilings.foldl
    (fun ceiling requested => requested.elim ceiling fun scope => min ceiling (privacyRank scope))
    (privacyRank (roleMaxPrivacy role))
  privacyOrder.take (ceiling + 1)

theorem privacyRank_of_getElem? {i : ℕ} {scope : PrivacyScope}
    (h : privacyOrder[i]? = some scope) : privacyRank scope = i := by
  obtain ⟨hi, rfl⟩ := List.getElem?_eq_some_iff.mp h
  match i, hi with
  | 0, _ => rfl
  | 1, _ => rfl
  | 2, _ => rfl
  | 3, _ => rfl

/-- No ceiling raises what the role may see. -/
theorem privacyRank_le_of_visible {role : MembershipRole} {ceilings : List (Option PrivacyScope)}
    {scope : PrivacyScope} (h : scope ∈ visiblePrivacyScopes role ceilings) :
    privacyRank scope ≤ privacyRank (roleMaxPrivacy role) := by
  have hfold : ∀ (ceilings : List (Option PrivacyScope)) (start : ℕ),
      ceilings.foldl (fun ceiling requested =>
        requested.elim ceiling fun scope => min ceiling (privacyRank scope)) start ≤ start := by
    intro ceilings
    induction ceilings with
    | nil => intro start; exact le_rfl
    | cons requested ceilings ih =>
      intro start
      refine (ih _).trans ?_
      cases requested with
      | none => exact le_rfl
      | some ceiling => exact min_le_left _ _
  obtain ⟨i, hi, hscope⟩ := List.mem_take_iff_getElem.mp h
  have hrank := privacyRank_of_getElem? (List.getElem?_eq_some_iff.mpr ⟨by omega, hscope⟩)
  have hbound := hfold ceilings (privacyRank (roleMaxPrivacy role))
  omega

end ContextLedger.Authorization

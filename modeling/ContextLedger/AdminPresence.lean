import ContextLedger.Memberships

/-!
Every organization keeps an ADMIN. While a transaction holds the lock of an
organization, nobody else changes the members of that organization, so what the
transaction has read under the lock is still so when it writes: the actor has the
permission, and an ADMIN it takes away is not the only one.
-/
namespace ContextLedger.AdminPresence

open Values Authorization Schema Facts Tenancy Memberships Transition Processes

def membersOf (db : Database) (org : Uuid) : List OrganizationMembership :=
  db.memberships.filter fun m => m.organizationId == org

theorem getMembership_eq (db : Database) (org userId : Uuid) :
    getMembership db org userId = (membersOf db org).find? fun m => m.userId == userId := by
  rw [getMembership, membersOf, List.find?_filter]
  refine congrArg (List.find? · db.memberships) (funext fun m => Bool.eq_iff_iff.mpr ?_)
  simp

theorem countWithRole_eq (db : Database) (org : Uuid) (role : MembershipRole) :
    countWithRole db org role = (membersOf db org).countP fun m => m.role == role := by
  rw [countWithRole, membersOf, List.countP_filter]
  refine List.countP_congr fun m _ => ?_
  simp [and_comm]

theorem requirePermission_eq_ok {db : Database} {ctx : TenantContext} {permission : Permission}
    {role : MembershipRole} : requirePermission db ctx permission = .ok role ↔
      ∃ user membership, getUser db ctx.userId = some user ∧
        getMembership db ctx.organizationId ctx.userId = some membership ∧
        user.isActive = true ∧ hasPermission membership.role permission = true ∧
        (ctx.scopes.any fun scopes => !scopes.contains permission) = false ∧
        membership.role = role := by
  have huserRead : (db.users.find? fun u => u.id == ctx.userId) = getUser db ctx.userId := rfl
  have hmemberRead : (db.memberships.find? fun m => m.organizationId == ctx.organizationId &&
      m.userId == ctx.userId) = getMembership db ctx.organizationId ctx.userId := rfl
  simp only [requirePermission, huserRead, hmemberRead]
  cases huser : getUser db ctx.userId with
  | none => simp [permissionDenied]
  | some user =>
    cases hmember : getMembership db ctx.organizationId ctx.userId with
    | none => simp [permissionDenied]
    | some membership =>
      simp only [Option.some.injEq, exists_eq_left', exists_and_left]
      cases user.isActive <;> cases hasPermission membership.role permission <;>
        cases (ctx.scopes.any fun scopes => !scopes.contains permission) <;>
        simp [permissionDenied]

/-- Only ADMINs manage members. -/
theorem admin_of_manageMembers {role : MembershipRole}
    (h : hasPermission role .manageMembers = true) : role = .admin := by
  cases role with
  | admin => rfl
  | engineer => exact absurd h (by decide)
  | viewer => exact absurd h (by decide)

/-- The members of one organization and the users stay as they were. -/
structure Kept (org : Uuid) (d d' : Directory) : Prop where
  members : membersOf d'.db org = membersOf d.db org
  users : ∀ userId user, getUser d.db userId = some user → getUser d'.db userId = some user
  organizations : ∀ o ∈ d.organizations, o ∈ d'.organizations

theorem Kept.refl (org : Uuid) (d : Directory) : Kept org d d :=
  ⟨rfl, fun _ _ h => h, fun _ h => h⟩

theorem Kept.trans {org : Uuid} {d d' d'' : Directory} (h : Kept org d d') (h' : Kept org d' d'') :
    Kept org d d'' :=
  ⟨h'.members.trans h.members, fun userId user hu => h'.users userId user (h.users userId user hu),
    fun o ho => h'.organizations o (h.organizations o ho)⟩

theorem Kept.getMembership {org : Uuid} {d d' : Directory} (h : Kept org d d') (userId : Uuid) :
    getMembership d'.db org userId = Tenancy.getMembership d.db org userId := by
  rw [getMembership_eq, getMembership_eq, h.members]

theorem Kept.countWithRole {org : Uuid} {d d' : Directory} (h : Kept org d d')
    (role : MembershipRole) :
    countWithRole d'.db org role = Tenancy.countWithRole d.db org role := by
  rw [countWithRole_eq, countWithRole_eq, h.members]

structure Coherent (d : Directory) : Prop where
  unique : d.db.memberships.Pairwise fun m n =>
    ¬(m.organizationId = n.organizationId ∧ m.userId = n.userId)
  users : ∀ m ∈ d.db.memberships, ∃ user, getUser d.db m.userId = some user
  organizations : ∀ m ∈ d.db.memberships, ∃ o ∈ d.organizations, o.id = m.organizationId
  admins : ∀ o ∈ d.organizations, ∃ m ∈ d.db.memberships,
    m.organizationId = o.id ∧ m.role = .admin

theorem getMembership_mem {db : Database} {org userId : Uuid} {m : OrganizationMembership}
    (h : getMembership db org userId = some m) :
    m ∈ db.memberships ∧ m.organizationId = org ∧ m.userId = userId := by
  refine ⟨List.mem_of_find?_eq_some h, ?_⟩
  simpa using List.find?_some h

theorem Coherent.eq_of_same {d : Directory} (h : Coherent d) {m n : OrganizationMembership}
    (hm : m ∈ d.db.memberships) (hn : n ∈ d.db.memberships)
    (horg : m.organizationId = n.organizationId) (huser : m.userId = n.userId) : m = n := by
  by_contra hne
  have hsymm : Std.Symm fun m n : OrganizationMembership =>
      ¬(m.organizationId = n.organizationId ∧ m.userId = n.userId) :=
    ⟨fun _ _ hmn hnm => hmn ⟨hnm.1.symm, hnm.2.symm⟩⟩
  exact h.unique.forall hm hn hne ⟨horg, huser⟩

/-- The row of a member is found by its organization and user. -/
theorem Coherent.getMembership {d : Directory} (h : Coherent d) {m : OrganizationMembership}
    (hm : m ∈ d.db.memberships) : getMembership d.db m.organizationId m.userId = some m := by
  cases hfound : Tenancy.getMembership d.db m.organizationId m.userId with
  | none => exact absurd hfound (by simpa [Tenancy.getMembership] using ⟨m, hm, rfl, rfl⟩)
  | some n =>
    obtain ⟨hn, horg, huser⟩ := getMembership_mem hfound
    rw [h.eq_of_same hn hm horg huser]

/-- Of two ADMINs one is another than a given user. -/
theorem Coherent.other_admin {d : Directory} (h : Coherent d) {org : Uuid} (userId : Uuid)
    (hcount : 2 ≤ countWithRole d.db org .admin) : ∃ m ∈ d.db.memberships,
      m.organizationId = org ∧ m.role = .admin ∧ m.userId ≠ userId := by
  by_contra hnone
  simp only [not_exists, not_and, not_not] at hnone
  rw [countWithRole, List.countP_eq_length_filter] at hcount
  have hunique := h.unique.filter fun m => m.organizationId == org && m.role == .admin
  match hrows : d.db.memberships.filter fun m => m.organizationId == org && m.role == .admin with
  | [] => rw [hrows] at hcount; exact absurd hcount (by simp)
  | [_] => rw [hrows] at hcount; exact absurd hcount (by simp)
  | m :: n :: rest =>
    rw [hrows] at hunique
    have hm : m ∈ d.db.memberships.filter fun m => m.organizationId == org && m.role == .admin := by
      rw [hrows]; exact List.mem_cons_self
    have hn : n ∈ d.db.memberships.filter fun m => m.organizationId == org && m.role == .admin := by
      rw [hrows]; exact List.mem_cons_of_mem m List.mem_cons_self
    simp only [List.mem_filter, Bool.and_eq_true, beq_iff_eq] at hm hn
    have hapart := List.rel_of_pairwise_cons hunique (List.mem_cons_self)
    refine hapart ⟨hm.2.1.trans hn.2.1.symm, ?_⟩
    exact (hnone m hm.1 hm.2.1 hm.2.2).trans (hnone n hn.1 hn.2.1 hn.2.2).symm

/-- An ADMIN that the operation takes away is not the only one. -/
def Permitted (d : Directory) : Operation → Prop
  | .changeRole ctx userId role => ∀ m, getMembership d.db ctx.organizationId userId = some m →
      m.role = .admin → role ≠ .admin → 2 ≤ countWithRole d.db ctx.organizationId .admin
  | .removeMember ctx userId => ∀ m, getMembership d.db ctx.organizationId userId = some m →
      m.role = .admin → 2 ≤ countWithRole d.db ctx.organizationId .admin
  | _ => True

theorem permitted_of_inspect {d : Directory} {operation : Operation}
    (h : inspect d operation = .ok false) : Permitted d operation := by
  cases operation with
  | changeRole ctx userId role =>
    intro m hm hadmin hrole
    simp only [inspect, hm, Except.ok.injEq] at h
    exact absurd h (by simp [hadmin, hrole])
  | removeMember ctx userId =>
    intro m hm hadmin
    simp only [inspect, hm, Except.ok.injEq] at h
    exact absurd h (by simp [hadmin])
  | createOrganization organization creatorUserId => trivial
  | addMember ctx userId role => trivial
  | createAgent ctx role client => trivial
  | revokeAgent ctx agentClientId now => trivial

theorem permitted_of_count {d : Directory} {operation : Operation} {ctx : TenantContext}
    (hctx : operation.context = some ctx)
    (h : ensureAnotherAdmin d.db ctx.organizationId = .ok ()) : Permitted d operation := by
  have hcount : 2 ≤ countWithRole d.db ctx.organizationId .admin := by
    by_contra hle
    rw [ensureAnotherAdmin, if_pos (by omega)] at h
    exact absurd h (by simp)
  cases operation with
  | changeRole ctx' userId role =>
    obtain rfl : ctx' = ctx := Option.some.inj hctx
    exact fun _ _ _ _ => hcount
  | removeMember ctx' userId =>
    obtain rfl : ctx' = ctx := Option.some.inj hctx
    exact fun _ _ _ => hcount
  | createOrganization organization creatorUserId => trivial
  | addMember ctx userId role => trivial
  | createAgent ctx role client => trivial
  | revokeAgent ctx agentClientId now => trivial

theorem Kept.permitted {d d' : Directory} {operation : Operation} {ctx : TenantContext}
    (hctx : operation.context = some ctx) (hkept : Kept ctx.organizationId d d')
    (h : Permitted d operation) : Permitted d' operation := by
  cases operation with
  | changeRole ctx' userId role =>
    obtain rfl : ctx' = ctx := Option.some.inj hctx
    intro m hm hadmin hrole
    rw [hkept.getMembership] at hm
    rw [hkept.countWithRole]
    exact h m hm hadmin hrole
  | removeMember ctx' userId =>
    obtain rfl : ctx' = ctx := Option.some.inj hctx
    intro m hm hadmin
    rw [hkept.getMembership] at hm
    rw [hkept.countWithRole]
    exact h m hm hadmin
  | createOrganization organization creatorUserId => trivial
  | addMember ctx userId role => trivial
  | createAgent ctx role client => trivial
  | revokeAgent ctx agentClientId now => trivial

theorem getUser_addUser {d : Directory} {row user : User} {userId : Uuid}
    (h : getUser d.db userId = some user) : getUser (d.addUser row).db userId = some user := by
  simp only [getUser, Directory.addUser, List.find?_append] at h ⊢
  rw [h, Option.some_or]

theorem getUser_of_mem {d : Directory} {u : User} (h : u ∈ d.db.users) :
    ∃ user, getUser d.db u.id = some user := by
  cases hfound : getUser d.db u.id with
  | none => exact absurd hfound (by simpa [getUser] using ⟨u, h, rfl⟩)
  | some user => exact ⟨user, rfl⟩

section Frames

variable {d : Directory} {org : Uuid}

theorem kept_addUser (row : User) : Kept org d (d.addUser row) :=
  ⟨rfl, fun _ _ => getUser_addUser, fun _ h => h⟩

theorem kept_addOrganization (row : Organization) : Kept org d (d.addOrganization row) :=
  ⟨rfl, fun _ _ h => h, fun _ h => List.mem_append_left _ h⟩

theorem kept_addMembership {row : OrganizationMembership} (h : row.organizationId ≠ org) :
    Kept org d (d.addMembership row) := by
  refine ⟨?_, fun _ _ h => h, fun _ h => h⟩
  simp [membersOf, Directory.addMembership, h]

theorem kept_addAgentClient (row : AgentClient) : Kept org d (d.addAgentClient row) :=
  ⟨rfl, fun _ _ h => h, fun _ h => h⟩

theorem kept_setRevoked (other agentClientId : Uuid) (now : Instant) :
    Kept org d (d.setRevoked other agentClientId now) :=
  ⟨rfl, fun _ _ h => h, fun _ h => h⟩

theorem kept_setRole {other : Uuid} (h : other ≠ org) (userId : Uuid) (role : MembershipRole) :
    Kept org d (d.setRole other userId role) := by
  refine ⟨?_, fun _ _ h => h, fun _ h => h⟩
  simp only [membersOf, Directory.setRole, List.filter_map]
  have hid : ∀ m ∈ d.db.memberships.filter ((fun m => m.organizationId == org) ∘ fun m =>
      if m.organizationId = other ∧ m.userId = userId then { m with role } else m),
      (if m.organizationId = other ∧ m.userId = userId then { m with role } else m) = m := by
    intro m hm
    by_cases hm' : m.organizationId = other ∧ m.userId = userId
    · have horg := (List.mem_filter.mp hm).2
      simp only [Function.comp, if_pos hm', beq_iff_eq] at horg
      exact absurd (hm'.1.symm.trans horg) h
    · exact if_neg hm'
  rw [List.map_congr_left hid, List.map_id']
  refine List.filter_congr fun m _ => ?_
  by_cases hm' : m.organizationId = other ∧ m.userId = userId
  · simp [Function.comp, if_pos hm']
  · simp [Function.comp, if_neg hm']

theorem kept_deleteMembership {other : Uuid} (h : other ≠ org) (userId : Uuid) :
    Kept org d (d.deleteMembership other userId) := by
  refine ⟨?_, fun _ _ h => h, fun _ h => h⟩
  simp only [membersOf, Directory.deleteMembership, List.filter_filter]
  refine List.filter_congr fun m _ => ?_
  by_cases hm : m.organizationId = org
  · simp [hm, h.symm]
  · simp [hm]

end Frames

/-- The organization whose members an operation may change. -/
def written : Operation → Option Uuid
  | .createOrganization organization _ => some organization.id
  | .revokeAgent _ _ _ => none
  | operation => operation.context.map TenantContext.organizationId

theorem kept_of_wrote {d d' : Directory} {operation : Operation} {org : Uuid}
    (h : Wrote d operation d') (hother : written operation ≠ some org) : Kept org d d' := by
  cases h with
  | createdOrganization organization creatorUserId hid hrow =>
    have hne : organization.id ≠ org := fun heq => hother (congrArg some heq)
    exact (kept_addOrganization organization).trans (kept_addMembership hne)
  | addedMember ctx userId role hrow =>
    have hne : ctx.organizationId ≠ org := fun heq => hother (congrArg some heq)
    exact kept_addMembership hne
  | changedRole ctx userId role =>
    exact kept_setRole (fun heq => hother (congrArg some heq)) userId role
  | removedMember ctx userId =>
    exact kept_deleteMembership (fun heq => hother (congrArg some heq)) userId
  | createdAgent ctx role client huser hrow =>
    have hne : ctx.organizationId ≠ org := fun heq => hother (congrArg some heq)
    exact ((kept_addUser _).trans (kept_addMembership hne)).trans (kept_addAgentClient client)
  | revokedAgent ctx agentClientId now => exact kept_setRevoked _ agentClientId now

section Coherence

variable {d : Directory}

theorem Coherent.addUser (h : Coherent d) (row : User) : Coherent (d.addUser row) := by
  refine ⟨h.unique, fun m hm => ?_, h.organizations, h.admins⟩
  obtain ⟨user, huser⟩ := h.users m hm
  exact ⟨user, getUser_addUser huser⟩

theorem unique_append {rows : List OrganizationMembership} {row : OrganizationMembership}
    (h : rows.Pairwise fun m n => ¬(m.organizationId = n.organizationId ∧ m.userId = n.userId))
    (hfresh : ∀ m ∈ rows, ¬(m.organizationId = row.organizationId ∧ m.userId = row.userId)) :
    (rows ++ [row]).Pairwise fun m n =>
      ¬(m.organizationId = n.organizationId ∧ m.userId = n.userId) := by
  refine List.pairwise_append.mpr ⟨h, List.pairwise_singleton _ _, fun m hm n hn => ?_⟩
  obtain rfl := List.mem_singleton.mp hn
  exact hfresh m hm

theorem Coherent.addMembership (h : Coherent d) {row : OrganizationMembership}
    (hrow : Admissible d row.organizationId row.userId) : Coherent (d.addMembership row) := by
  refine ⟨unique_append h.unique hrow.fresh, fun m hm => ?_, fun m hm => ?_, fun o ho => ?_⟩
  · rcases List.mem_append.mp hm with hm | hm
    · exact h.users m hm
    · obtain rfl := List.mem_singleton.mp hm
      obtain ⟨u, hu, hid⟩ := hrow.user
      exact hid ▸ getUser_of_mem hu
  · rcases List.mem_append.mp hm with hm | hm
    · exact h.organizations m hm
    · obtain rfl := List.mem_singleton.mp hm
      exact hrow.organization
  · obtain ⟨m, hm, hadmin⟩ := h.admins o ho
    exact ⟨m, List.mem_append_left _ hm, hadmin⟩

/-- A new organization comes with an ADMIN. -/
theorem Coherent.addOrganization (h : Coherent d) {organization : Organization} {userId : Uuid}
    (hrow : Admissible (d.addOrganization organization) organization.id userId) :
    Coherent ((d.addOrganization organization).addMembership
      ⟨organization.id, userId, .admin⟩) := by
  refine ⟨unique_append h.unique hrow.fresh, fun m hm => ?_, fun m hm => ?_, fun o ho => ?_⟩
  · rcases List.mem_append.mp hm with hm | hm
    · exact h.users m hm
    · obtain rfl := List.mem_singleton.mp hm
      obtain ⟨u, hu, hid⟩ := hrow.user
      exact hid ▸ getUser_of_mem hu
  · rcases List.mem_append.mp hm with hm | hm
    · obtain ⟨o, ho, hid⟩ := h.organizations m hm
      exact ⟨o, List.mem_append_left _ ho, hid⟩
    · obtain rfl := List.mem_singleton.mp hm
      exact hrow.organization
  · rcases List.mem_append.mp ho with ho | ho
    · obtain ⟨m, hm, hadmin⟩ := h.admins o ho
      exact ⟨m, List.mem_append_left _ hm, hadmin⟩
    · obtain rfl := List.mem_singleton.mp ho
      exact ⟨_, List.mem_append_right _ (List.mem_singleton.mpr rfl), rfl, rfl⟩

theorem Coherent.setRole (h : Coherent d) {org userId : Uuid} {role : MembershipRole}
    (hpermitted : ∀ m, Tenancy.getMembership d.db org userId = some m → m.role = .admin →
      role ≠ .admin → 2 ≤ countWithRole d.db org .admin) :
    Coherent (d.setRole org userId role) := by
  have hkeys : ∀ m : OrganizationMembership,
      (if m.organizationId = org ∧ m.userId = userId then { m with role } else m).organizationId =
        m.organizationId ∧
      (if m.organizationId = org ∧ m.userId = userId then { m with role } else m).userId =
        m.userId := by
    intro m
    by_cases hm : m.organizationId = org ∧ m.userId = userId
    · rw [if_pos hm]; exact ⟨rfl, rfl⟩
    · rw [if_neg hm]; exact ⟨rfl, rfl⟩
  refine ⟨?_, fun m hm => ?_, fun m hm => ?_, fun o ho => ?_⟩
  · refine List.pairwise_map.mpr (h.unique.imp fun {m n} hmn => ?_)
    rw [(hkeys m).1, (hkeys m).2, (hkeys n).1, (hkeys n).2]
    exact hmn
  · obtain ⟨n, hn, rfl⟩ := List.mem_map.mp hm
    rw [(hkeys n).2]
    exact h.users n hn
  · obtain ⟨n, hn, rfl⟩ := List.mem_map.mp hm
    rw [(hkeys n).1]
    exact h.organizations n hn
  · obtain ⟨m, hm, horg, hadmin⟩ := h.admins o ho
    by_cases htarget : m.organizationId = org ∧ m.userId = userId
    · by_cases hrole : role = .admin
      · refine ⟨_, List.mem_map_of_mem hm, (hkeys m).1.trans horg, ?_⟩
        rw [if_pos htarget, hrole]
      · have hfound : Tenancy.getMembership d.db org userId = some m := by
          rw [← htarget.1, ← htarget.2]
          exact h.getMembership hm
        obtain ⟨n, hn, hnorg, hnadmin, hnuser⟩ :=
          h.other_admin userId (hpermitted m hfound hadmin hrole)
        refine ⟨_, List.mem_map_of_mem hn, (hkeys n).1.trans ?_, ?_⟩
        · exact hnorg.trans (htarget.1.symm.trans horg)
        · rw [if_neg fun hboth => hnuser hboth.2]
          exact hnadmin
    · refine ⟨_, List.mem_map_of_mem hm, (hkeys m).1.trans horg, ?_⟩
      rw [if_neg htarget]
      exact hadmin

theorem Coherent.deleteMembership (h : Coherent d) {org userId : Uuid}
    (hpermitted : ∀ m, Tenancy.getMembership d.db org userId = some m → m.role = .admin →
      2 ≤ countWithRole d.db org .admin) : Coherent (d.deleteMembership org userId) := by
  refine ⟨h.unique.filter _, fun m hm => h.users m (List.mem_filter.mp hm).1,
    fun m hm => h.organizations m (List.mem_filter.mp hm).1, fun o ho => ?_⟩
  obtain ⟨m, hm, horg, hadmin⟩ := h.admins o ho
  by_cases htarget : m.organizationId = org ∧ m.userId = userId
  · have hfound : Tenancy.getMembership d.db org userId = some m := by
      rw [← htarget.1, ← htarget.2]
      exact h.getMembership hm
    obtain ⟨n, hn, hnorg, hnadmin, hnuser⟩ := h.other_admin userId (hpermitted m hfound hadmin)
    refine ⟨n, List.mem_filter.mpr ⟨hn, ?_⟩, hnorg.trans (htarget.1.symm.trans horg), hnadmin⟩
    simp [hnuser]
  · refine ⟨m, List.mem_filter.mpr ⟨hm, ?_⟩, horg, hadmin⟩
    simpa [← not_and_or] using htarget

theorem Coherent.wrote {d' : Directory} {operation : Operation} (h : Coherent d)
    (hpermitted : Permitted d operation) (hwrote : Wrote d operation d') : Coherent d' := by
  cases hwrote with
  | createdOrganization organization creatorUserId hid hrow => exact h.addOrganization hrow
  | addedMember ctx userId role hrow => exact h.addMembership hrow
  | changedRole ctx userId role => exact h.setRole hpermitted
  | removedMember ctx userId => exact h.deleteMembership hpermitted
  | createdAgent ctx role client huser hrow =>
    have hmember := @Coherent.addMembership _ (h.addUser _)
      ⟨ctx.organizationId, client.serviceUserId, role⟩ hrow
    exact ⟨hmember.unique, hmember.users, hmember.organizations, hmember.admins⟩
  | revokedAgent ctx agentClientId now => exact ⟨h.unique, h.users, h.organizations, h.admins⟩

end Coherence

/-- The phases after the permission of the actor was found, without a failure. -/
def authorized : Phase → Bool
  | .inspecting => true
  | .counting => true
  | .writing => true
  | .finished (.ok _) => true
  | _ => false

/-- What a transaction that locks knows about the state its lock observed. -/
structure Settled (d : Directory) (t : Transaction) : Prop where
  held : ∀ org, t.held = some org → ∃ observed, t.observed = some observed ∧
    Coherent observed ∧ Kept org observed d ∧ ∃ o ∈ observed.organizations, o.id = org
  actor : t.operation.locks = true → authorized t.phase = true → ∃ observed ctx,
    t.observed = some observed ∧ t.operation.context = some ctx ∧
      requirePermission observed.db ctx .manageMembers = .ok .admin
  permitted : t.phase = .writing → Permitted d t.operation

theorem held_eq {t : Transaction} {ctx : TenantContext} (hlocks : t.operation.locks = true)
    (hctx : t.operation.context = some ctx) (hphase : t.phase.locked = true) :
    t.held = some ctx.organizationId := by
  rw [Transaction.held, hlocks, hphase, hctx]
  rfl

theorem permitted_of_free {d : Directory} {operation : Operation}
    (h : operation.locks = false) : Permitted d operation := by
  cases operation with
  | createOrganization organization creatorUserId => trivial
  | revokeAgent ctx agentClientId now => trivial
  | addMember ctx userId role => cases h
  | changeRole ctx userId role => cases h
  | removeMember ctx userId => cases h
  | createAgent ctx role client => cases h

theorem context_of_locks {operation : Operation} (h : operation.locks = true) :
    ∃ ctx, operation.context = some ctx := by
  cases operation with
  | createOrganization organization creatorUserId => cases h
  | addMember ctx userId role => exact ⟨ctx, rfl⟩
  | changeRole ctx userId role => exact ⟨ctx, rfl⟩
  | removeMember ctx userId => exact ⟨ctx, rfl⟩
  | createAgent ctx role client => exact ⟨ctx, rfl⟩
  | revokeAgent ctx agentClientId now => exact ⟨ctx, rfl⟩

/-- Nobody else touches what a transaction has locked. -/
theorem Settled.kept {d d' : Directory} {t : Transaction} (h : Settled d t)
    (hkept : ∀ org, t.held = some org → Kept org d d') : Settled d' t := by
  refine ⟨fun org horg => ?_, h.actor, fun hphase => ?_⟩
  · obtain ⟨observed, hobserved, hcoherent, hold, ho⟩ := h.held org horg
    exact ⟨observed, hobserved, hcoherent, hold.trans (hkept org horg), ho⟩
  · cases hlocks : t.operation.locks with
    | false => exact permitted_of_free hlocks
    | true =>
      obtain ⟨ctx, hctx⟩ := context_of_locks hlocks
      have hheld := held_eq hlocks hctx (by rw [hphase]; rfl)
      exact (hkept _ hheld).permitted hctx (h.permitted hphase)

/-- The permission found now was there when the lock was taken. -/
theorem permission_observed {observed d : Directory} {ctx : TenantContext} {role : MembershipRole}
    (hcoherent : Coherent observed) (hkept : Kept ctx.organizationId observed d)
    (h : requirePermission d.db ctx .manageMembers = .ok role) :
    requirePermission observed.db ctx .manageMembers = .ok .admin := by
  obtain ⟨user, m, huser, hm, hactive, hpermission, hscopes, rfl⟩ := requirePermission_eq_ok.mp h
  rw [hkept.getMembership] at hm
  obtain ⟨hmem, -, hid⟩ := getMembership_mem hm
  obtain ⟨user', huser'⟩ := hcoherent.users m hmem
  rw [hid] at huser'
  obtain rfl : user' = user := Option.some.inj ((hkept.users _ _ huser').symm.trans huser)
  refine requirePermission_eq_ok.mpr ⟨user', m, huser', hm, hactive, hpermission, hscopes, ?_⟩
  exact admin_of_manageMembers hpermission

/-- Two transactions do not hold the lock of the same organization. -/
def Exclusive (t u : Transaction) : Prop := ∀ org, t.held = some org → u.held ≠ some org

theorem Exclusive.symm {t u : Transaction} (h : Exclusive t u) : Exclusive u t :=
  fun org hu ht => h org ht hu

structure Invariant (w : World) : Prop where
  coherent : Coherent w.directory
  exclusive : Apart Exclusive w.transactions
  settled : ∀ t ∈ w.transactions, Settled w.directory t

theorem held_begin (operation : Operation) : (begin operation).held = none := by
  cases operation with
  | createOrganization organization creatorUserId => rfl
  | addMember ctx userId role => rfl
  | changeRole ctx userId role => rfl
  | removeMember ctx userId => rfl
  | createAgent ctx role client => rfl
  | revokeAgent ctx agentClientId now => rfl

theorem settled_begin (d : Directory) (operation : Operation) : Settled d (begin operation) := by
  refine ⟨fun org horg => ?_, fun hlocks hphase => ?_, fun hphase => ?_⟩
  · rw [held_begin] at horg
    exact absurd horg (by simp)
  · cases operation with
    | createOrganization organization creatorUserId => cases hlocks
    | addMember ctx userId role => cases hphase
    | changeRole ctx userId role => cases hphase
    | removeMember ctx userId => cases hphase
    | createAgent ctx role client => cases hphase
    | revokeAgent ctx agentClientId now => cases hlocks
  · cases operation with
    | createOrganization organization creatorUserId => cases hphase
    | addMember ctx userId role => cases hphase
    | changeRole ctx userId role => cases hphase
    | removeMember ctx userId => cases hphase
    | createAgent ctx role client => cases hphase
    | revokeAgent ctx agentClientId now => cases hphase

/-- A statement after the first keeps the lock. -/
theorem held_phase {t : Transaction} (phase : Phase) (h : t.phase.locked = true)
    (hphase : phase.locked = true) : ({ t with phase } : Transaction).held = t.held := by
  simp only [Transaction.held, h, hphase]

theorem held_of_unlocked {t : Transaction} (h : t.phase.locked = false) : t.held = none := by
  rw [Transaction.held, h, Bool.and_false, if_neg Bool.false_ne_true]

theorem Settled.phase {d : Directory} {t : Transaction} (h : Settled d t) {phase : Phase}
    (hlocked : t.phase.locked = true) (hphase : phase.locked = true)
    (hactor : t.operation.locks = true → authorized phase = true → ∃ observed ctx,
      t.observed = some observed ∧ t.operation.context = some ctx ∧
        requirePermission observed.db ctx .manageMembers = .ok .admin)
    (hpermitted : phase = .writing → Permitted d t.operation) :
    Settled d { t with phase } := by
  refine ⟨fun org horg => ?_, hactor, hpermitted⟩
  rw [held_phase phase hlocked hphase] at horg
  exact h.held org horg

theorem Settled.ended (d : Directory) {t : Transaction} (hlocked : t.phase.locked = false)
    (hactor : authorized t.phase = false) : Settled d t := by
  refine ⟨fun org horg => ?_, fun _ hauthorized => ?_, fun hphase => ?_⟩
  · rw [held_of_unlocked hlocked] at horg
    exact absurd horg (by simp)
  · rw [hactor] at hauthorized
    exact absurd hauthorized (by simp)
  · rw [hphase] at hlocked
    exact absurd hlocked (by simp [Phase.locked])

theorem settled_moved {d : Directory} {t t' : Transaction} (hcoherent : Coherent d)
    (h : Settled d t) (hmoved : Moved d t t') : Settled d t' := by
  cases hmoved with
  | locked ctx hctx hphase hlock =>
    refine ⟨fun org horg => ?_, fun _ hauthorized => ?_, nofun⟩
    · have hlocks : t.operation.locks = true := by
        by_contra hfree
        exact absurd horg (by simp [Transaction.held, hfree])
      have hheld := @held_eq { t with phase := .authorizing, observed := some d } ctx hlocks hctx rfl
      obtain rfl : ctx.organizationId = org := Option.some.inj (hheld.symm.trans horg)
      refine ⟨d, rfl, hcoherent, Kept.refl _ d, ?_⟩
      by_contra hnone
      rw [lockOrganization, if_neg (by simpa using hnone)] at hlock
      exact absurd hlock (by simp [permissionDenied])
    · cases hauthorized
  | authorized ctx role hctx hphase hrole =>
    refine h.phase (by rw [hphase]; rfl) rfl (fun hlocks _ => ?_) nofun
    have hheld := held_eq hlocks hctx (by rw [hphase]; rfl)
    obtain ⟨observed, hobserved, hold, hkept, -⟩ := h.held _ hheld
    exact ⟨observed, ctx, hobserved, hctx, permission_observed hold hkept hrole⟩
  | inspected count hphase hinspect =>
    have hactor := fun hlocks => h.actor hlocks (by rw [hphase]; rfl)
    cases count with
    | true => exact h.phase (by rw [hphase]; rfl) rfl (fun hlocks _ => hactor hlocks) nofun
    | false =>
      exact h.phase (by rw [hphase]; rfl) rfl (fun hlocks _ => hactor hlocks)
        fun _ => permitted_of_inspect hinspect
  | counted ctx hctx hphase hcount =>
    have hactor := fun hlocks => h.actor hlocks (by rw [hphase]; rfl)
    exact h.phase (by rw [hphase]; rfl) rfl (fun hlocks _ => hactor hlocks)
      fun _ => permitted_of_count hctx hcount
  | failed failure => exact Settled.ended d rfl rfl
  | aborted => exact Settled.ended d rfl rfl

/-- A statement that reads keeps the locks apart, since a lock that is held is waited for. -/
theorem exclusive_moved {w : World} {i : ℕ} {t t' : Transaction} (h : Apart Exclusive w.transactions)
    (ht : w.transactions[i]? = some t) (hfree : t'.phase = .authorizing → blocked w t = false)
    (hmoved : Moved w.directory t t') :
    ∀ j u, w.transactions[j]? = some u → i ≠ j → Exclusive t' u := by
  intro j u hu hij org horg hother
  have hold : t.held ≠ some org := fun heq => h i j t u ht hu hij org heq hother
  cases hmoved with
  | locked ctx hctx hphase hlock =>
    have hblocked := hfree rfl
    simp only [blocked, hphase, List.any_eq_false, Bool.and_eq_true, beq_iff_eq] at hblocked
    refine hblocked u (List.mem_of_getElem? hu) ⟨by rw [hother]; rfl, ?_⟩
    rw [hother, hctx, ← horg]
    have hlocks : t.operation.locks = true := by
      by_contra hno
      exact absurd horg (by simp [Transaction.held, hno])
    exact @held_eq { t with phase := .authorizing, observed := some w.directory } ctx hlocks hctx rfl
  | authorized ctx role hctx hphase hrole =>
    rw [held_phase _ (by rw [hphase]; rfl) rfl] at horg
    exact hold horg
  | inspected count hphase hinspect =>
    rw [held_phase _ (by rw [hphase]; rfl) (by cases count <;> rfl)] at horg
    exact hold horg
  | counted ctx hctx hphase hcount =>
    rw [held_phase _ (by rw [hphase]; rfl) rfl] at horg
    exact hold horg
  | failed failure =>
    rw [held_of_unlocked rfl] at horg
    exact absurd horg (by simp)
  | aborted =>
    rw [held_of_unlocked rfl] at horg
    exact absurd horg (by simp)

/-- The members of an organization are changed under its lock or while it is created. -/
theorem written_cases {operation : Operation} {org : Uuid} (h : written operation = some org) :
    (operation.locks = true ∧ operation.context.map TenantContext.organizationId = some org) ∨
      ∃ organization creatorUserId,
        operation = .createOrganization organization creatorUserId ∧ organization.id = org := by
  cases operation with
  | createOrganization organization creatorUserId =>
    exact Or.inr ⟨organization, creatorUserId, rfl, Option.some.inj h⟩
  | addMember ctx userId role => exact Or.inl ⟨rfl, h⟩
  | changeRole ctx userId role => exact Or.inl ⟨rfl, h⟩
  | removeMember ctx userId => exact Or.inl ⟨rfl, h⟩
  | createAgent ctx role client => exact Or.inl ⟨rfl, h⟩
  | revokeAgent ctx agentClientId now => cases h

/-- A commit changes the members of no organization that somebody else has locked. -/
theorem kept_of_commit {w : World} (h : Invariant w) {i j : ℕ} {t u : Transaction} {d : Directory}
    (ht : w.transactions[i]? = some t) (hu : w.transactions[j]? = some u) (hij : i ≠ j)
    (hphase : t.phase = .writing) (hwrote : Wrote w.directory t.operation d) {org : Uuid}
    (horg : u.held = some org) : Kept org w.directory d := by
  refine kept_of_wrote hwrote fun hwritten => ?_
  rcases written_cases hwritten with ⟨hlocks, hctx⟩ | ⟨organization, userId, hoperation, rfl⟩
  · refine h.exclusive i j t u ht hu hij org ?_ horg
    rw [Transaction.held, hlocks, hphase, hctx]
    rfl
  · obtain ⟨observed, -, -, hkept, o, ho, hid⟩ :=
      (h.settled u (List.mem_of_getElem? hu)).held _ horg
    rw [hoperation] at hwrote
    cases hwrote with
    | createdOrganization _ _ hnew _ => exact hnew o (hkept.organizations o ho) hid

theorem invariant_started {w : World} (h : Invariant w) (operation : Operation) :
    Invariant { w with transactions := w.transactions ++ [begin operation] } := by
  refine ⟨h.coherent, ?_, fun t ht => ?_⟩
  · refine h.exclusive.append (fun _ _ => Exclusive.symm) fun u _ org horg => ?_
    rw [held_begin] at horg
    exact absurd horg (by simp)
  · rcases List.mem_append.mp ht with ht | ht
    · exact h.settled t ht
    · obtain rfl := List.mem_singleton.mp ht
      exact settled_begin w.directory operation

theorem invariant_committed {w : World} (h : Invariant w) {i : ℕ} {t : Transaction}
    {d : Directory} (ht : w.transactions[i]? = some t) (hphase : t.phase = .writing)
    (hwrote : Wrote w.directory t.operation d) :
    Invariant { w.put i { t with phase := .finished (.ok ()) } with directory := d } := by
  have hsettled := h.settled t (List.mem_of_getElem? ht)
  refine ⟨h.coherent.wrote (hsettled.permitted hphase) hwrote, ?_, fun u hu => ?_⟩
  · refine h.exclusive.set (fun _ _ => Exclusive.symm) fun j u _ _ org horg => ?_
    rw [held_of_unlocked rfl] at horg
    exact absurd horg (by simp)
  · rcases mem_set_cases hu with rfl | ⟨j, hij, hj⟩
    · refine ⟨fun org horg => ?_, fun hlocks _ => ?_, nofun⟩
      · rw [held_of_unlocked rfl] at horg
        exact absurd horg (by simp)
      · exact hsettled.actor hlocks (by rw [hphase]; rfl)
    · refine (h.settled u (List.mem_of_getElem? hj)).kept fun org horg => ?_
      exact kept_of_commit h ht hj hij hphase hwrote horg

theorem invariant_step {w w' : World} {a : Action} (h : Invariant w) (hstep : step w a = some w') :
    Invariant w' := by
  cases step_cases hstep with
  | started request operation hprepare => exact invariant_started h operation
  | registered userId hnew =>
    refine ⟨h.coherent.addUser _, h.exclusive, fun t ht => ?_⟩
    exact (h.settled t ht).kept fun org _ => kept_addUser _
  | moved _ i t t' ht hfree hmoved =>
    refine ⟨h.coherent, ?_, fun u hu => ?_⟩
    · exact h.exclusive.set (fun _ _ => Exclusive.symm)
        (exclusive_moved h.exclusive ht hfree hmoved)
    · rcases mem_set_cases hu with rfl | ⟨j, -, hj⟩
      · exact settled_moved h.coherent (h.settled t (List.mem_of_getElem? ht)) hmoved
      · exact h.settled u (List.mem_of_getElem? hj)
  | committed i t d ht hphase hwrite =>
    exact invariant_committed h ht hphase (write_cases hwrite)

theorem invariant_of_start {w : World} (h : Start w) : Invariant w := by
  refine ⟨⟨?_, ?_, ?_, ?_⟩, ?_, ?_⟩
  · rw [h.memberships]
    exact List.Pairwise.nil
  · simp [h.memberships]
  · simp [h.memberships]
  · simp [h.organizations]
  · rw [h.transactions]
    exact apart_nil _
  · simp [h.transactions]

theorem invariant_of_reachable {w : World} (h : system.Reachable w) : Invariant w :=
  system.reachable_invariant Invariant (fun _ => invariant_of_start)
    (fun _ _ _ => invariant_step) h

/-- Whatever interleaves, every organization has an ADMIN, and who changed its
members managed them when the lock was taken. -/
theorem admin_remains {w : World} (h : system.Reachable w) :
    (∀ o ∈ w.directory.organizations, ∃ m ∈ w.directory.db.memberships,
      m.organizationId = o.id ∧ m.role = .admin) ∧
    ∀ t ∈ w.transactions, t.operation.locks = true → t.phase = .finished (.ok ()) →
      ∃ observed ctx, t.observed = some observed ∧ t.operation.context = some ctx ∧
        requirePermission observed.db ctx .manageMembers = .ok .admin := by
  have hinv := invariant_of_reachable h
  refine ⟨hinv.coherent.admins, fun t ht hlocks hphase => ?_⟩
  exact (hinv.settled t ht).actor hlocks (by rw [hphase]; rfl)

def exampleDatabase (users : List User) : Database :=
  ⟨users, [], [], [], [], [], [], [], [], [], [], [], [], [], []⟩

def exampleStart : World := ⟨⟨exampleDatabase [⟨1, true⟩, ⟨2, true⟩], [], []⟩, []⟩

def exampleContext (userId : Uuid) : TenantContext := ⟨10, userId, .admin, none, none, none⟩

/-- Two ADMINs demote each other; the second waits for the lock. -/
def exampleTrace : List Action :=
  [.start (.createOrganization "Ledger" "ledger" 1 10), .advance 0, .advance 0,
    .start (.addMember (exampleContext 1) 2 .admin), .advance 1, .advance 1, .advance 1, .advance 1,
    .start (.changeRole (exampleContext 1) 2 .viewer),
    .start (.changeRole (exampleContext 2) 1 .viewer),
    .advance 2, .advance 2, .advance 2, .advance 2, .advance 2, .advance 3, .advance 3]

/-- The first demotion is committed and the second refused. -/
def exampleEnd (w : World) : Bool :=
  decide (w.directory.organizations.length = 1) &&
    (w.transactions[2]?.any fun t => t.operation.locks && match t.phase with
      | .finished (.ok _) => true
      | _ => false) &&
    w.transactions[3]?.any fun t => match t.phase with
      | .finished (.error failure) =>
        failure == .domain (.permissionDenied "role VIEWER lacks permission members:manage")
      | _ => false

theorem exampleTrace_ends : (system.run exampleStart exampleTrace).any exampleEnd = true := by
  decide +kernel

theorem admin_remains_example : ∃ w, system.run exampleStart exampleTrace = some w ∧
    exampleEnd w = true ∧ ∀ o ∈ w.directory.organizations,
      ∃ m ∈ w.directory.db.memberships, m.organizationId = o.id ∧ m.role = .admin := by
  obtain ⟨w, hrun, hend⟩ := (Option.any_eq_true _ _).mp exampleTrace_ends
  refine ⟨w, hrun, hend, (admin_remains ⟨exampleStart, exampleTrace, ?_, hrun⟩).1⟩
  exact ⟨rfl, rfl, rfl, rfl⟩

end ContextLedger.AdminPresence

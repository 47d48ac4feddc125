import ContextLedger.AdminPresence

/-!
Whether an organization can be managed: somebody gets a tenant context for it and
passes the check of the permission to manage members. An agent never does, since
its token is refused with the ADMIN role, but the rule that keeps an ADMIN counts
the service users of agents as well. What keeps an organization manageable is that
the last ADMIN who is a person stays.
-/
namespace ContextLedger.Manageability

open Values Authorization Schema Facts Tenancy Memberships AdminPresence Transition

def isServiceUser (d : Directory) (userId : Uuid) : Bool :=
  d.agentClients.any fun c => c.serviceUserId == userId

/-- The principals that tokens can name: a user, or the service user of an agent
through the token of its client. -/
inductive Presentable (d : Directory) : Principal → Prop where
  | user (userId : Uuid) (h : isServiceUser d userId = false) :
      Presentable d ⟨userId, none, none, none, none⟩
  | agent (client : AgentClient) (h : client ∈ d.agentClients) (scopes : List Permission) :
      Presentable d ⟨client.serviceUserId, some client.organizationId, some scopes,
        some client.privacyCeiling, some client.id⟩

def Manageable (d : Directory) (org : Uuid) : Prop :=
  ∃ principal ctx role, Presentable d principal ∧
    getTenant d.agentClients d.db org principal = .ok ctx ∧
    requirePermission d.db ctx .manageMembers = .ok role

/-- An ADMIN of the organization who is not the service user of an agent. -/
def Person (d : Directory) (org : Uuid) (m : OrganizationMembership) : Prop :=
  m ∈ d.db.memberships ∧ m.organizationId = org ∧ m.role = .admin ∧
    isServiceUser d m.userId = false

theorem resolve_eq_ok {db : Database} {org userId : Uuid} {ctx : TenantContext} :
    resolve db org userId = .ok ctx ↔ ∃ user m, getUser db userId = some user ∧
      getMembership db org userId = some m ∧ user.isActive = true ∧
      ctx = ⟨org, userId, m.role, none, none, none⟩ := by
  cases huser : getUser db userId with
  | none => simp [resolve, huser, permissionDenied]
  | some user =>
    cases hmember : getMembership db org userId with
    | none => simp [resolve, huser, hmember, permissionDenied]
    | some m =>
      cases hactive : user.isActive with
      | false => simp [resolve, huser, hmember, hactive, permissionDenied]
      | true =>
        simp only [resolve, huser, hmember, hactive, Bool.not_true, Bool.false_eq_true, if_false,
          Except.ok.injEq, Option.some.injEq]
        constructor
        · intro h
          exact ⟨user, m, rfl, rfl, hactive, h.symm⟩
        · rintro ⟨_, _, rfl, rfl, -, h⟩
          exact h.symm

theorem getTenant_eq_ok {clients : List AgentClient} {db : Database} {org : Uuid}
    {principal : Principal} {ctx : TenantContext}
    (h : getTenant clients db org principal = .ok ctx) :
    (∀ org', principal.organizationId = some org' → org' = org) ∧
      (∀ id, principal.agentClientId = some id → isActive clients id = true) ∧
      ∃ user m, getUser db principal.userId = some user ∧ user.isActive = true ∧
        getMembership db org principal.userId = some m ∧
        (principal.agentClientId.isSome = true → m.role ≠ .admin) ∧
        ctx = ⟨org, principal.userId, m.role, principal.scopes, principal.maxPrivacyScope,
          principal.agentClientId⟩ := by
  rw [getTenant] at h
  by_cases horg : (principal.organizationId.any fun org' => org' != org) = true
  · rw [if_pos horg] at h
    exact absurd h (by simp [permissionDenied])
  rw [if_neg horg] at h
  by_cases hagent : (principal.agentClientId.any fun id => !isActive clients id) = true
  · rw [if_pos hagent] at h
    exact absurd h (by simp [permissionDenied])
  rw [if_neg hagent] at h
  refine ⟨fun org' horg' => ?_, fun id hid => ?_, ?_⟩
  · simpa [horg'] using horg
  · simpa [hid] using hagent
  · cases hresolve : resolve db org principal.userId with
    | error failure => exact absurd h (by simp [hresolve])
    | ok found =>
      obtain ⟨user, m, huser, hm, hactive, rfl⟩ := resolve_eq_ok.mp hresolve
      simp only [hresolve] at h
      by_cases hadmin : (principal.agentClientId.isSome && m.role == .admin) = true
      · rw [if_pos hadmin] at h
        exact absurd h (by simp [permissionDenied])
      · rw [if_neg hadmin, Except.ok.injEq] at h
        refine ⟨user, m, huser, hactive, hm, fun hsome hrole => hadmin ?_, h.symm⟩
        simp [hsome, hrole]

/-- Only a person manages an organization. -/
theorem person_of_manageable {d : Directory} {org : Uuid} (h : Manageable d org) :
    ∃ m, Person d org m := by
  obtain ⟨principal, ctx, role, hprincipal, htenant, hrole⟩ := h
  obtain ⟨-, -, user, m, -, -, hm, hagent, rfl⟩ := getTenant_eq_ok htenant
  obtain ⟨-, n, -, hn, -, hpermission, -, -⟩ := requirePermission_eq_ok.mp hrole
  obtain rfl : n = m := Option.some.inj (hn.symm.trans hm)
  obtain ⟨hmem, horg, huser⟩ := getMembership_mem hm
  have hadmin := admin_of_manageMembers hpermission
  cases hprincipal with
  | user userId hperson => exact ⟨n, hmem, horg, hadmin, huser ▸ hperson⟩
  | agent client hclient scopes => exact absurd hadmin (hagent rfl)

/-- The user principal of a person gets the permission, if the user is active. -/
theorem manageable_of_person {d : Directory} (hcoherent : Coherent d)
    (hactive : ∀ u ∈ d.db.users, u.isActive = true) {org : Uuid} {m : OrganizationMembership}
    (h : Person d org m) : Manageable d org := by
  obtain ⟨hmem, rfl, hadmin, hperson⟩ := h
  obtain ⟨user, huser⟩ := hcoherent.users m hmem
  have hfound := hcoherent.getMembership hmem
  have huserActive := hactive user (List.mem_of_find?_eq_some huser)
  have hresolve : resolve d.db m.organizationId m.userId =
      .ok ⟨m.organizationId, m.userId, m.role, none, none, none⟩ :=
    resolve_eq_ok.mpr ⟨user, m, huser, hfound, huserActive, rfl⟩
  refine ⟨_, ⟨m.organizationId, m.userId, m.role, none, none, none⟩, .admin,
    Presentable.user m.userId hperson, ?_, ?_⟩
  · simp [getTenant, hresolve]
  · refine requirePermission_eq_ok.mpr ⟨user, m, huser, hfound, huserActive, ?_, rfl, hadmin⟩
    rw [hadmin]
    rfl

def isAdmin (d : Directory) (org userId : Uuid) : Bool :=
  (getMembership d.db org userId).any fun m => m.role == .admin

def hasOtherPerson (d : Directory) (org userId : Uuid) : Bool :=
  d.db.memberships.any fun m => m.organizationId == org && m.role == .admin &&
    m.userId != userId && !isServiceUser d m.userId

/-- The write leaves a person in charge: an organization is created for a person, and
a person stops being an ADMIN only when another one is left. -/
def keepsPerson (d : Directory) : Operation → Bool
  | .createOrganization _ creatorUserId => !isServiceUser d creatorUserId
  | .changeRole ctx userId role => role == .admin || isServiceUser d userId ||
      !isAdmin d ctx.organizationId userId || hasOtherPerson d ctx.organizationId userId
  | .removeMember ctx userId => isServiceUser d userId ||
      !isAdmin d ctx.organizationId userId || hasOtherPerson d ctx.organizationId userId
  | _ => true

def Spares (w : World) : Action → Prop
  | .advance i => (w.transactions[i]?.all fun t => match t.phase with
      | .writing => keepsPerson w.directory t.operation
      | _ => true) = true
  | _ => True

instance (w : World) (a : Action) : Decidable (Spares w a) :=
  match a with
  | .advance _ => inferInstanceAs (Decidable (_ = true))
  | .start _ => isTrue trivial
  | .register _ => isTrue trivial
  | .abort _ => isTrue trivial

theorem Spares.keeps {w : World} {i : ℕ} {t : Transaction} (h : Spares w (.advance i))
    (ht : w.transactions[i]? = some t) (hphase : t.phase = .writing) :
    keepsPerson w.directory t.operation = true := by
  simpa [Spares, ht, hphase] using h

structure Manned (d : Directory) : Prop where
  active : ∀ u ∈ d.db.users, u.isActive = true
  persons : ∀ o ∈ d.organizations, ∃ m, Person d o.id m

theorem person_of_other {d : Directory} {org userId : Uuid}
    (h : hasOtherPerson d org userId = true) : ∃ m, Person d org m ∧ m.userId ≠ userId := by
  obtain ⟨m, hm, hother⟩ := List.any_eq_true.mp h
  simp only [Bool.and_eq_true, beq_iff_eq, bne_iff_ne, Bool.not_eq_eq_eq_not, Bool.not_true]
    at hother
  exact ⟨m, ⟨hm, hother.1.1.1, hother.1.1.2, hother.2⟩, hother.1.2⟩

/-- Whoever is in charge after one user has lost the role. -/
theorem person_but {d : Directory} (hcoherent : Coherent d) {org userId : Uuid}
    (hkeeps : (isServiceUser d userId || !isAdmin d org userId || hasOtherPerson d org userId) =
      true) {m : OrganizationMembership} (hm : Person d org m) :
    ∃ n, Person d org n ∧ n.userId ≠ userId := by
  by_cases huser : m.userId = userId
  · have hadmin : isAdmin d org userId = true := by
      have hfound := hcoherent.getMembership hm.1
      rw [hm.2.1, huser] at hfound
      simp [isAdmin, hfound, hm.2.2.1]
    rw [← huser, hm.2.2.2, huser, hadmin] at hkeeps
    exact person_of_other (by simpa using hkeeps)
  · exact ⟨m, hm, huser⟩

theorem Manned.addUser {d : Directory} (h : Manned d) (userId : Uuid) :
    Manned (d.addUser ⟨userId, true⟩) := by
  refine ⟨fun u hu => ?_, h.persons⟩
  rcases List.mem_append.mp hu with hu | hu
  · exact h.active u hu
  · obtain rfl := List.mem_singleton.mp hu
    rfl

theorem Person.addMembership {d : Directory} {org : Uuid} {m row : OrganizationMembership}
    (h : Person d org m) : Person (d.addMembership row) org m :=
  ⟨List.mem_append_left _ h.1, h.2⟩

theorem isServiceUser_setRevoked (d : Directory) (org agentClientId userId : Uuid)
    (now : Instant) :
    isServiceUser (d.setRevoked org agentClientId now) userId = isServiceUser d userId := by
  simp only [isServiceUser, Directory.setRevoked, List.any_map]
  refine congrArg (List.any d.agentClients) (funext fun c => ?_)
  simp only [Function.comp]
  split <;> rfl

/-- A service user is a new user, so nobody in charge becomes one. -/
theorem Person.addAgentClient {d : Directory} (hcoherent : Coherent d) {org : Uuid}
    {m : OrganizationMembership} (h : Person d org m) {client : AgentClient}
    {row : OrganizationMembership} (huser : ∀ u ∈ d.db.users, u.id ≠ client.serviceUserId) :
    Person (((d.addUser ⟨client.serviceUserId, true⟩).addMembership row).addAgentClient client)
      org m := by
  refine ⟨List.mem_append_left _ h.1, h.2.1, h.2.2.1, ?_⟩
  obtain ⟨user, hfound⟩ := hcoherent.users m h.1
  have hid : user.id = m.userId := by simpa using List.find?_some hfound
  have hne : client.serviceUserId ≠ m.userId := fun heq =>
    huser user (List.mem_of_find?_eq_some hfound) (hid.trans heq.symm)
  have hold : isServiceUser d m.userId = false := h.2.2.2
  simp only [isServiceUser, Directory.addAgentClient, Directory.addMembership, Directory.addUser,
    List.any_append, List.any_cons, List.any_nil, Bool.or_false, Bool.or_eq_false_iff,
    beq_eq_false_iff_ne] at hold ⊢
  exact ⟨hold, hne⟩

/-- Somebody in charge of any organization is left apart from the user who loses a role. -/
theorem person_apart {d : Directory} (hcoherent : Coherent d) {org org' userId : Uuid}
    (hkeeps : (isServiceUser d userId || !isAdmin d org userId || hasOtherPerson d org userId) =
      true) {m : OrganizationMembership} (hm : Person d org' m) :
    ∃ n, Person d org' n ∧ ¬(n.organizationId = org ∧ n.userId = userId) := by
  by_cases horg : org' = org
  · subst horg
    obtain ⟨n, hn, huser⟩ := person_but hcoherent hkeeps hm
    exact ⟨n, hn, fun hboth => huser hboth.2⟩
  · exact ⟨m, hm, fun hboth => horg (hm.2.1.symm.trans hboth.1)⟩

theorem Person.setRole {d : Directory} {org org' userId : Uuid} {role : MembershipRole}
    {m : OrganizationMembership} (h : Person d org' m)
    (hkeep : ¬(m.organizationId = org ∧ m.userId = userId)) :
    Person (d.setRole org userId role) org' m :=
  ⟨List.mem_map.mpr ⟨m, h.1, if_neg hkeep⟩, h.2⟩

/-- To become an ADMIN takes nothing from anybody. -/
theorem Person.setAdmin {d : Directory} {org org' : Uuid} {m : OrganizationMembership}
    (h : Person d org' m) (userId : Uuid) : ∃ n, Person (d.setRole org userId .admin) org' n := by
  by_cases htarget : m.organizationId = org ∧ m.userId = userId
  · exact ⟨{ m with role := .admin }, List.mem_map.mpr ⟨m, h.1, if_pos htarget⟩, h.2.1, rfl,
      h.2.2.2⟩
  · exact ⟨m, h.setRole htarget⟩

theorem Person.deleteMembership {d : Directory} {org org' userId : Uuid}
    {m : OrganizationMembership} (h : Person d org' m)
    (hkeep : ¬(m.organizationId = org ∧ m.userId = userId)) :
    Person (d.deleteMembership org userId) org' m :=
  ⟨List.mem_filter.mpr ⟨h.1, by simpa [← not_and_or] using hkeep⟩, h.2⟩

theorem Manned.wrote {d d' : Directory} {operation : Operation} (h : Manned d)
    (hcoherent : Coherent d) (hkeeps : keepsPerson d operation = true)
    (hwrote : Wrote d operation d') : Manned d' := by
  cases hwrote with
  | createdOrganization organization creatorUserId hid hrow =>
    refine ⟨h.active, fun o ho => ?_⟩
    rcases List.mem_append.mp ho with ho | ho
    · obtain ⟨m, hm⟩ := h.persons o ho
      exact ⟨m, List.mem_append_left _ hm.1, hm.2⟩
    · obtain rfl := List.mem_singleton.mp ho
      refine ⟨_, List.mem_append_right _ (List.mem_singleton.mpr rfl), rfl, rfl, ?_⟩
      exact (Bool.not_eq_true' _).mp hkeeps
  | addedMember ctx userId role hrow =>
    refine ⟨h.active, fun o ho => ?_⟩
    obtain ⟨m, hm⟩ := h.persons o ho
    exact ⟨m, hm.addMembership⟩
  | changedRole ctx userId role =>
    refine ⟨h.active, fun o ho => ?_⟩
    obtain ⟨m, hm⟩ := h.persons o ho
    by_cases hrole : role = .admin
    · subst hrole
      exact hm.setAdmin userId
    · have hloses : (isServiceUser d userId || !isAdmin d ctx.organizationId userId ||
          hasOtherPerson d ctx.organizationId userId) = true := by
        simpa [keepsPerson, hrole] using hkeeps
      obtain ⟨n, hn, hapart⟩ := person_apart hcoherent hloses hm
      exact ⟨n, hn.setRole hapart⟩
  | removedMember ctx userId =>
    refine ⟨h.active, fun o ho => ?_⟩
    obtain ⟨m, hm⟩ := h.persons o ho
    obtain ⟨n, hn, hapart⟩ := person_apart hcoherent hkeeps hm
    exact ⟨n, hn.deleteMembership hapart⟩
  | createdAgent ctx role client huser hrow =>
    refine ⟨(h.addUser client.serviceUserId).active, fun o ho => ?_⟩
    obtain ⟨m, hm⟩ := h.persons o ho
    exact ⟨m, hm.addAgentClient hcoherent huser⟩
  | revokedAgent ctx agentClientId now =>
    refine ⟨h.active, fun o ho => ?_⟩
    obtain ⟨m, hm⟩ := h.persons o ho
    exact ⟨m, hm.1, hm.2.1, hm.2.2.1, (isServiceUser_setRevoked _ _ _ _ _).trans hm.2.2.2⟩

theorem manned_step {w w' : World} {a : Action} (hinv : Invariant w) (h : Manned w.directory)
    (hspares : Spares w a) (hstep : step w a = some w') : Manned w'.directory := by
  cases step_cases hstep with
  | started request operation hprepare => exact h
  | registered userId hnew => exact h.addUser userId
  | moved a i t t' ht hfree hmoved => exact h
  | committed i t d ht hphase hwrite =>
    exact h.wrote hinv.coherent (hspares.keeps ht hphase) (write_cases hwrite)

/-- From active users, an organization stays manageable as long as every write leaves
a person in charge of it. -/
theorem manageable_along {start w : World} {trace : List Action} (hstart : Start start)
    (hactive : ∀ u ∈ start.directory.db.users, u.isActive = true)
    (hrun : system.run start trace = some w) (hmeets : system.RunMeets Spares start trace) :
    ∀ o ∈ w.directory.organizations, Manageable w.directory o.id := by
  have hmanned : Manned start.directory := ⟨hactive, by simp [hstart.organizations]⟩
  have hboth := system.run_preserves_of_meets Spares
    (fun w => Invariant w ∧ Manned w.directory)
    (fun s a s' hs hspares hstep =>
      ⟨invariant_step hs.1 hstep, manned_step hs.1 hs.2 hspares hstep⟩)
    hrun hmeets ⟨invariant_of_start hstart, hmanned⟩
  intro o ho
  obtain ⟨m, hm⟩ := hboth.2.persons o ho
  exact manageable_of_person hboth.1.coherent hboth.2.active hm

/-- The creator leaves after a second person has become an ADMIN. -/
def handoverTrace : List Action :=
  [.start (.createOrganization "Ledger" "ledger" 1 10), .advance 0, .advance 0,
    .start (.addMember (exampleContext 1) 2 .admin), .advance 1, .advance 1, .advance 1, .advance 1,
    .start (.removeMember (exampleContext 2) 1),
    .advance 2, .advance 2, .advance 2, .advance 2, .advance 2]

def memberIds (w : World) : List (Uuid × Uuid) :=
  w.directory.db.memberships.map fun m => (m.organizationId, m.userId)

theorem handoverTrace_ends : (system.run exampleStart handoverTrace).any
    (fun w => decide (w.directory.organizations.map Organization.id = [10]) &&
      decide (memberIds w = [(10, 2)])) = true := by
  decide +kernel

theorem manageable_along_handover : ∃ w, system.run exampleStart handoverTrace = some w ∧
    memberIds w = [(10, 2)] ∧ Manageable w.directory 10 := by
  obtain ⟨w, hrun, hend⟩ := (Option.any_eq_true _ _).mp handoverTrace_ends
  simp only [Bool.and_eq_true, decide_eq_true_eq] at hend
  obtain ⟨o, ho, hid⟩ := List.mem_map.mp
    (show (10 : Uuid) ∈ w.directory.organizations.map Organization.id by rw [hend.1]; simp)
  refine ⟨w, hrun, hend.2, hid ▸ ?_⟩
  exact manageable_along ⟨rfl, rfl, rfl, rfl⟩ (by decide) hrun (by decide +kernel) o ho

/-- The creator promotes the service user of an agent and leaves. -/
def abandonedTrace : List Action :=
  [.start (.createOrganization "Ledger" "ledger" 1 10), .advance 0, .advance 0,
    .start (.createAgent (exampleContext 1) "Auditor" .viewer [.readFacts] .internal 7 5 "ctxl_7"
      "scrypt"), .advance 1, .advance 1, .advance 1, .advance 1,
    .start (.changeRole (exampleContext 1) 5 .admin), .advance 2, .advance 2, .advance 2, .advance 2,
    .start (.removeMember (exampleContext 1) 1),
    .advance 3, .advance 3, .advance 3, .advance 3, .advance 3]

theorem abandonedTrace_ends : (system.run exampleStart abandonedTrace).any
    (fun w => decide (w.directory.organizations.map Organization.id = [10]) &&
      w.directory.db.memberships.all fun m => isServiceUser w.directory m.userId) = true := by
  decide +kernel

/-- The only ADMIN left is refused with the ADMIN role. -/
theorem organization_abandoned : ∃ w, system.Reachable w ∧
    (∀ u ∈ exampleStart.directory.db.users, u.isActive = true) ∧
    system.run exampleStart abandonedTrace = some w ∧
    w.directory.organizations.map Organization.id = [10] ∧ ¬Manageable w.directory 10 := by
  obtain ⟨w, hrun, hend⟩ := (Option.any_eq_true _ _).mp abandonedTrace_ends
  simp only [Bool.and_eq_true, decide_eq_true_eq, List.all_eq_true] at hend
  refine ⟨w, ⟨exampleStart, abandonedTrace, ⟨rfl, rfl, rfl, rfl⟩, hrun⟩, by decide, hrun, hend.1,
    fun hmanageable => ?_⟩
  obtain ⟨m, hm, -, -, hperson⟩ := person_of_manageable hmanageable
  exact absurd (hend.2 m hm) (by simp [hperson])

end ContextLedger.Manageability

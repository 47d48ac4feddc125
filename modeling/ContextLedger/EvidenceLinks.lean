import ContextLedger.Concurrent
import ContextLedger.Processes

/-!
Concurrent writers of evidence links. Every statement of a call is a step of its own,
which reads the committed rows and those of its own transaction. The links stand
apart from the other tables: a call that records a version runs in the world of the
concurrent writers until the version is inserted, and links its evidence here, before
its commit.
-/
namespace ContextLedger.EvidenceLinks

open Values Authorization Schema Facts Concurrent
open Concurrent hiding World Action step system Start Stepped step_cases

/-- What a call to link evidence asks for. -/
structure Asked where
  versionId : Uuid
  evidenceIds : List Uuid
  relation : EvidenceRelation

/-- `missed` found no link for its first id, `linked` has nothing left to do but commit. -/
inductive Phase where
  | begun
  | entered
  | versionSeen
  | linking (todo : List Uuid)
  | missed (id : Uuid) (todo : List Uuid)
  | linked
  | committed
  | rolledBack (failure : Option Failure)

/-- A call that links evidence: by itself, or within the transaction `txn` that records
a version. `rows` are the links it inserted, `met` the links it found or ran into. -/
structure Call where
  ctx : TenantContext
  now : Instant
  txn : Option ℕ
  asked : Asked
  rows : List FactVersionEvidence
  met : List FactVersionEvidence
  phase : Phase

/-- The primary key. -/
def key (l : FactVersionEvidence) : Uuid × Uuid := (l.factVersionId, l.evidenceId)

def getLink (links : List FactVersionEvidence) (org versionId evidenceId : Uuid) :
    Option FactVersionEvidence :=
  links.find? fun l =>
    l.organizationId == org && l.factVersionId == versionId && l.evidenceId == evidenceId

def alreadyLinked (l : FactVersionEvidence) : Failure :=
  .domain (.conflict
    ("evidence " ++ uuidText l.evidenceId ++ " is already linked as " ++ l.relation.text))

/-- The link that an insert would add. -/
def Call.newLink (call : Call) (id : Uuid) : FactVersionEvidence :=
  ⟨call.ctx.organizationId, call.asked.versionId, id, call.asked.relation, call.now,
    some call.ctx.userId⟩

inductive LinkMove where
  | authorize
  | seeVersion
  | seeEvidence
  | getLink
  | insert
  | abort
  deriving DecidableEq

/-- A step of a call; `db` is what its transaction sees of the other tables. -/
def stepCall (db : Database) (links : List FactVersionEvidence) (call : Call) :
    LinkMove → Option Call
  | .authorize =>
    match call.phase with
    | .begun =>
      match requirePermission db call.ctx .writeFacts with
      | .ok _ => some { call with phase := .entered }
      | .error failure => some { call with phase := .rolledBack (some failure) }
    | _ => none
  | .seeVersion =>
    match call.phase with
    | .entered =>
      if call.asked.evidenceIds = [] then some { call with phase := .linked }
      else if (getVersion db call.ctx.organizationId call.asked.versionId).isNone then
        some { call with
          phase := .rolledBack (some (.domain (.notFound "fact version not found"))) }
      else some { call with phase := .versionSeen }
    | _ => none
  | .seeEvidence =>
    match call.phase with
    | .versionSeen =>
      let missing := call.asked.evidenceIds.filter fun id =>
        !db.evidence.any fun e => e.organizationId == call.ctx.organizationId && e.id == id
      if missing ≠ [] then
        some { call with
          phase := .rolledBack (some (.domain (.notFound
            ("evidence not found: " ++ String.intercalate ", " (missing.map uuidText))))) }
      else some { call with phase := .linking call.asked.evidenceIds }
    | _ => none
  | .getLink =>
    match call.phase with
    | .linking [] => some { call with phase := .linked }
    | .linking (id :: todo) =>
      match getLink (links ++ call.rows) call.ctx.organizationId call.asked.versionId id with
      | none => some { call with phase := .missed id todo }
      | some l =>
        if l.relation ≠ call.asked.relation then
          some { call with met := call.met ++ [l], phase := .rolledBack (some (alreadyLinked l)) }
        else some { call with met := call.met ++ [l], phase := .linking todo }
    | _ => none
  | .insert =>
    match call.phase with
    | .missed id todo =>
      match (links ++ call.rows).find? fun l => key l == (call.asked.versionId, id) with
      | none => some { call with rows := call.rows ++ [call.newLink id], phase := .linking todo }
      | some l => some { call with met := call.met ++ [l], phase := .linking todo }
    | _ => none
  | .abort =>
    match call.phase with
    | .committed => none
    | .rolledBack _ => none
    | _ => some { call with phase := .rolledBack none }

/-- The rows of an open transaction. -/
def held (call : Call) : List FactVersionEvidence :=
  match call.phase with
  | .committed => []
  | .rolledBack _ => []
  | _ => call.rows

/-- `base` holds the other tables and the transactions that record or revoke, each with
the evidence its call names; `landed` says which call committed which links. -/
structure World where
  base : Concurrent.World
  evidenceIds : List (List Uuid)
  links : List FactVersionEvidence
  calls : List Call
  landed : List (ℕ × List FactVersionEvidence)

/-- `others` is what other transactions change: users, memberships and sources, and the
evidence they capture. -/
inductive Action where
  | base (e : Event)
  | attach (now : Instant) (ctx : TenantContext) (versionId evidenceId : Uuid)
      (relation : EvidenceRelation)
  | link (k : ℕ)
  | move (i : ℕ) (m : LinkMove)
  | commit (clock : Instant) (i : ℕ)
  | others (users : List User) (memberships : List OrganizationMembership)
      (sources : List FactSource) (captured : List Evidence)

/-- A transaction whose version is inserted commits or rolls back with its links. -/
def isWritten : Txn → Bool
  | .record _ _ _ (.written _) => true
  | _ => false

def World.writtenAt (w : World) (k : ℕ) : Bool := (w.base.txns[k]?).any isWritten

/-- The evidence is linked apart from the version. -/
def bare (command : RecordFactVersion) : RecordFactVersion := { command with evidenceIds := [] }

def stepBase (rt : Runtime) (w : World) (e : Event) : Option World :=
  match e.action with
  | .beginRecord ctx command =>
    (Concurrent.step rt w.base ⟨e.clock, .beginRecord ctx (bare command)⟩).map fun base =>
      { w with base, evidenceIds := w.evidenceIds ++ [command.evidenceIds] }
  | .beginRevoke _ _ _ _ =>
    (Concurrent.step rt w.base e).map fun base => { w with base, evidenceIds := w.evidenceIds ++ [[]] }
  | .move k .abort =>
    if w.writtenAt k then none
    else (Concurrent.step rt w.base e).map fun base => { w with base }
  | .commit k =>
    if w.writtenAt k then none
    else (Concurrent.step rt w.base e).map fun base => { w with base }
  | _ => (Concurrent.step rt w.base e).map fun base => { w with base }

/-- What the transaction of a call sees: its own version, when it records one. -/
def World.view (w : World) (call : Call) : Database :=
  match call.txn.bind fun k => w.base.txns[k]? with
  | some (.record _ _ _ (.written write)) => write.apply w.base.db
  | _ => w.base.db

/-- An insert waits for the open transaction that inserted the same key. -/
def World.blocked (w : World) (i : ℕ) (call : Call) (m : LinkMove) : Bool :=
  match m, call.phase with
  | .insert, .missed id _ => (w.calls.eraseIdx i).any fun other =>
    (held other).any fun l => key l == (call.asked.versionId, id)
  | _, _ => false

/-- A call that raises takes the transaction around it with it. -/
def World.baseAfter (w : World) (call : Call) : Concurrent.World :=
  match call.txn, call.phase with
  | some k, .rolledBack failure =>
    { w.base with txns := w.base.txns.set k (.rolledBack failure) }
  | _, _ => w.base

/-- The commit of a call, in its own transaction or in the one around it. -/
def World.baseCommitted (rt : Runtime) (w : World) (clock : Instant) (call : Call) :
    Option Concurrent.World :=
  match call.txn with
  | none => some w.base
  | some k => Concurrent.step rt w.base ⟨clock, .commit k⟩

def step (rt : Runtime) (w : World) : Action → Option World
  | .base e => stepBase rt w e
  | .attach now ctx versionId evidenceId relation =>
    some { w with
      calls := w.calls ++ [⟨ctx, now, none, ⟨versionId, [evidenceId], relation⟩, [], [], .begun⟩] }
  | .link k =>
    match w.base.txns[k]? with
    | some (.record ctx now _ (.written write)) =>
      if w.calls.any fun call => call.txn == some k then none
      else
        let evidenceIds := distinctIds (w.evidenceIds.getD k [])
        some { w with
          calls := w.calls ++
            [⟨ctx, now, some k, ⟨write.version.id, evidenceIds, .supports⟩, [], [], .entered⟩] }
    | _ => none
  | .move i m =>
    match w.calls[i]? with
    | none => none
    | some call =>
      if w.blocked i call m then none
      else (stepCall (w.view call) w.links call m).map fun call' =>
        { w with base := w.baseAfter call', calls := w.calls.set i call' }
  | .commit clock i =>
    match w.calls[i]? with
    | none => none
    | some call =>
      match call.phase with
      | .linked => (w.baseCommitted rt clock call).map fun base =>
        { w with
          base
          links := w.links ++ call.rows
          calls := w.calls.set i { call with phase := .committed }
          landed := w.landed ++ [(i, call.rows)] }
      | _ => none
  | .others users memberships sources captured =>
    some { w with
      base := { w.base with
        db := { w.base.db with
          users, memberships, sources, evidence := w.base.db.evidence ++ captured } } }

/-- No transaction has begun, and nothing is linked. -/
structure Start (w : World) : Prop where
  base : Concurrent.Start w.base
  evidenceIds : w.evidenceIds = []
  links : w.links = []
  calls : w.calls = []
  landed : w.landed = []

def system (rt : Runtime) : Transition.System World Action := ⟨Start, step rt⟩

/-- The ids a call has not looked at yet. -/
def Call.todo (call : Call) : List Uuid :=
  match call.phase with
  | .linking todo => todo
  | .missed id todo => id :: todo
  | .linked => []
  | .committed => []
  | .rolledBack _ => []
  | _ => call.asked.evidenceIds

/-- Whether a transaction can still take steps. -/
def Phase.isOpen : Phase → Bool
  | .committed => false
  | .rolledBack _ => false
  | _ => true

/-- What a step of a call can do. -/
inductive Moved (links : List FactVersionEvidence) (call : Call) : LinkMove → Call → Prop
  | quiet {m : LinkMove} (phase : Phase) (hopen : phase.isOpen = true)
      (htodo : Call.todo { call with phase } = call.todo) : Moved links call m { call with phase }
  | failed {m : LinkMove} (failure : Option Failure) :
      Moved links call m { call with phase := .rolledBack failure }
  | agreed (id : Uuid) (todo : List Uuid) (l : FactVersionEvidence)
      (htodo : call.todo = id :: todo) (hl : l ∈ links ++ call.rows)
      (hkey : key l = (call.asked.versionId, id)) (hrelation : l.relation = call.asked.relation) :
      Moved links call .getLink { call with met := call.met ++ [l], phase := .linking todo }
  | conflicted (l : FactVersionEvidence) (hrelation : l.relation ≠ call.asked.relation) :
      Moved links call .getLink
        { call with met := call.met ++ [l], phase := .rolledBack (some (alreadyLinked l)) }
  | lost (id : Uuid) (todo : List Uuid) (l : FactVersionEvidence)
      (hphase : call.phase = .missed id todo) (hl : l ∈ links ++ call.rows)
      (hkey : key l = (call.asked.versionId, id)) :
      Moved links call .insert { call with met := call.met ++ [l], phase := .linking todo }
  | inserted (id : Uuid) (todo : List Uuid) (hphase : call.phase = .missed id todo)
      (hfree : ∀ l ∈ links ++ call.rows, key l ≠ (call.asked.versionId, id)) :
      Moved links call .insert
        { call with rows := call.rows ++ [call.newLink id], phase := .linking todo }

theorem getLink_eq_some {links : List FactVersionEvidence} {org versionId evidenceId : Uuid}
    {l : FactVersionEvidence} (h : getLink links org versionId evidenceId = some l) :
    l ∈ links ∧ key l = (versionId, evidenceId) := by
  have hp := List.find?_some h
  rw [Bool.and_eq_true, Bool.and_eq_true, beq_iff_eq, beq_iff_eq, beq_iff_eq] at hp
  exact ⟨List.mem_of_find?_eq_some h, Prod.ext hp.1.2 hp.2⟩

/-- Only an open call takes steps, and each is one of these. -/
theorem stepCall_cases {db : Database} {links : List FactVersionEvidence} {call call' : Call}
    {m : LinkMove} (h : stepCall db links call m = some call') :
    call.phase.isOpen = true ∧ Moved links call m call' := by
  obtain ⟨ctx, now, txn, asked, rows, met, phase⟩ := call
  cases m with
  | authorize =>
    cases phase with
    | begun =>
      simp only [stepCall] at h
      split at h
      · obtain rfl := Option.some.inj h
        exact ⟨rfl, .quiet .entered rfl rfl⟩
      · obtain rfl := Option.some.inj h
        exact ⟨rfl, .failed _⟩
    | _ => cases h
  | seeVersion =>
    cases phase with
    | entered =>
      simp only [stepCall] at h
      split_ifs at h with hnone
      · obtain rfl := Option.some.inj h
        exact ⟨rfl, .quiet .linked rfl hnone.symm⟩
      · obtain rfl := Option.some.inj h
        exact ⟨rfl, .failed _⟩
      · obtain rfl := Option.some.inj h
        exact ⟨rfl, .quiet .versionSeen rfl rfl⟩
    | _ => cases h
  | seeEvidence =>
    cases phase with
    | versionSeen =>
      simp only [stepCall] at h
      split_ifs at h
      · obtain rfl := Option.some.inj h
        exact ⟨rfl, .failed _⟩
      · obtain rfl := Option.some.inj h
        exact ⟨rfl, .quiet (.linking asked.evidenceIds) rfl rfl⟩
    | _ => cases h
  | getLink =>
    cases phase with
    | linking todo =>
      cases todo with
      | nil =>
        obtain rfl := Option.some.inj h
        exact ⟨rfl, .quiet .linked rfl rfl⟩
      | cons id todo =>
        simp only [stepCall] at h
        split at h
        · obtain rfl := Option.some.inj h
          exact ⟨rfl, .quiet (.missed id todo) rfl rfl⟩
        · rename_i l hl
          obtain ⟨hmem, hkey⟩ := getLink_eq_some hl
          split_ifs at h with hrelation
          · obtain rfl := Option.some.inj h
            exact ⟨rfl, .conflicted l hrelation⟩
          · obtain rfl := Option.some.inj h
            exact ⟨rfl, .agreed id todo l rfl hmem hkey (not_not.mp hrelation)⟩
    | _ => cases h
  | insert =>
    cases phase with
    | missed id todo =>
      simp only [stepCall] at h
      split at h
      · rename_i hnone
        obtain rfl := Option.some.inj h
        refine ⟨rfl, .inserted id todo rfl fun l hl hkey => ?_⟩
        exact absurd (List.find?_eq_none.mp hnone l hl) (by rw [hkey]; simp)
      · rename_i l hl
        obtain rfl := Option.some.inj h
        have hkey := List.find?_some hl
        exact ⟨rfl, .lost id todo l rfl (List.mem_of_find?_eq_some hl) (beq_iff_eq.mp hkey)⟩
    | _ => cases h
  | abort =>
    cases phase with
    | committed => cases h
    | rolledBack failure => cases h
    | _ =>
      obtain rfl := Option.some.inj h
      exact ⟨rfl, .failed none⟩

/-- What a step can do: move the transactions around the calls, begin a call, move or
commit one, or change other tables. -/
inductive Stepped (rt : Runtime) (w : World) : Action → World → Prop
  | based (e e' : Event) (base : Concurrent.World) (evidenceIds : List (List Uuid))
      (hstep : Concurrent.step rt w.base e' = some base) :
      Stepped rt w (.base e) { w with base, evidenceIds }
  | attached (now : Instant) (ctx : TenantContext) (versionId evidenceId : Uuid)
      (relation : EvidenceRelation) :
      Stepped rt w (.attach now ctx versionId evidenceId relation) { w with
        calls := w.calls ++
          [⟨ctx, now, none, ⟨versionId, [evidenceId], relation⟩, [], [], .begun⟩] }
  | entered (k : ℕ) (ctx : TenantContext) (now : Instant) (asked : Asked)
      (hk : k < w.base.txns.length) :
      Stepped rt w (.link k) { w with
        calls := w.calls ++ [⟨ctx, now, some k, asked, [], [], .entered⟩] }
  | moved (i : ℕ) (m : LinkMove) (call call' : Call) (hi : w.calls[i]? = some call)
      (hblocked : w.blocked i call m = false)
      (hstep : stepCall (w.view call) w.links call m = some call') :
      Stepped rt w (.move i m) { w with base := w.baseAfter call', calls := w.calls.set i call' }
  | committed (clock : Instant) (i : ℕ) (call : Call) (base : Concurrent.World)
      (hi : w.calls[i]? = some call) (hphase : call.phase = .linked)
      (hbase : w.baseCommitted rt clock call = some base) :
      Stepped rt w (.commit clock i) { w with
        base
        links := w.links ++ call.rows
        calls := w.calls.set i { call with phase := .committed }
        landed := w.landed ++ [(i, call.rows)] }
  | changed (users : List User) (memberships : List OrganizationMembership)
      (sources : List FactSource) (captured : List Evidence) :
      Stepped rt w (.others users memberships sources captured) { w with
        base := { w.base with
          db := { w.base.db with
            users, memberships, sources, evidence := w.base.db.evidence ++ captured } } }

theorem stepBase_cases {rt : Runtime} {w w' : World} {e : Event}
    (h : stepBase rt w e = some w') : Stepped rt w (.base e) w' := by
  have hbased : ∀ {e' : Event} {evidenceIds : List (List Uuid)},
      ((Concurrent.step rt w.base e').map fun base => { w with base, evidenceIds }) = some w' →
        Stepped rt w (.base e) w' := by
    intro e' evidenceIds h
    obtain ⟨base, hstep, rfl⟩ := Option.map_eq_some_iff.mp h
    exact .based e e' base evidenceIds hstep
  unfold stepBase at h
  split at h
  · exact hbased h
  · exact hbased h
  · split_ifs at h
    exact hbased h
  · split_ifs at h
    exact hbased h
  · exact hbased h

theorem step_cases {rt : Runtime} {w w' : World} {a : Action} (h : step rt w a = some w') :
    Stepped rt w a w' := by
  cases a with
  | base e => exact stepBase_cases h
  | attach now ctx versionId evidenceId relation =>
    obtain rfl := Option.some.inj h
    exact .attached now ctx versionId evidenceId relation
  | link k =>
    simp only [step] at h
    split at h
    · rename_i ctx now d write hk
      split_ifs at h
      obtain rfl := Option.some.inj h
      exact .entered k ctx now _ (List.getElem?_eq_some_iff.mp hk).1
    · cases h
  | move i m =>
    simp only [step] at h
    split at h
    · cases h
    · rename_i call hi
      split_ifs at h with hblocked
      obtain ⟨call', hstep, rfl⟩ := Option.map_eq_some_iff.mp h
      exact .moved i m call call' hi (Bool.eq_false_iff.mpr hblocked) hstep
  | commit clock i =>
    simp only [step] at h
    split at h
    · cases h
    · rename_i call hi
      split at h
      · rename_i hphase
        obtain ⟨base, hbase, rfl⟩ := Option.map_eq_some_iff.mp h
        exact .committed clock i call base hi hphase hbase
      · cases h
  | others users memberships sources captured =>
    obtain rfl := Option.some.inj h
    exact .changed users memberships sources captured

end ContextLedger.EvidenceLinks

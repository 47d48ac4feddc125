import ContextLedger.ContradictionWorld
import ContextLedger.Isolation

/-!
What recorders leave behind for contradictions. Versions keep everything but their end, and
every fact has its entity, every version its source. The contradiction of a write speaks
about the new version and the one that it supersedes, two versions of one fact.
-/
namespace ContextLedger.ContradictionClaims

open Values Authorization FactRules Schema Facts Contradictions VersionChain VersionTable
open Recording Revocations Concurrent Isolation ContradictionRows

/-- A version again, perhaps with its end set. -/
structure SameClaim (v v' : FactVersion) : Prop where
  id : v'.id = v.id
  organizationId : v'.organizationId = v.organizationId
  factId : v'.factId = v.factId
  sourceId : v'.sourceId = v.sourceId
  supersedesId : v'.supersedesId = v.supersedesId
  privacyScope : v'.privacyScope = v.privacyScope

theorem SameClaim.refl (v : FactVersion) : SameClaim v v := ⟨rfl, rfl, rfl, rfl, rfl, rfl⟩

theorem sameClaim_touched (write : VersionWrite) (v : FactVersion) :
    SameClaim v (touched write v) := by
  rcases touched_cases write v with h | ⟨-, c, -, -, h⟩
  · rw [h]
    exact SameClaim.refl v
  · rw [h]
    exact ⟨rfl, rfl, rfl, rfl, rfl, rfl⟩

/-- Nothing is taken out of the tables. -/
structure Extends (db db' : Database) : Prop where
  versions : ∀ v ∈ db.versions, ∃ v' ∈ db'.versions, SameClaim v v'
  facts : ∀ f ∈ db.facts, f ∈ db'.facts
  entities : ∀ e ∈ db.entities, e ∈ db'.entities
  sources : ∀ s ∈ db.sources, s ∈ db'.sources

theorem Extends.refl (db : Database) : Extends db db :=
  ⟨fun v hv => ⟨v, hv, SameClaim.refl v⟩, fun _ h => h, fun _ h => h, fun _ h => h⟩

theorem SameClaim.trans {u v w : FactVersion} (h : SameClaim u v) (h' : SameClaim v w) :
    SameClaim u w :=
  ⟨h'.id.trans h.id, h'.organizationId.trans h.organizationId, h'.factId.trans h.factId,
    h'.sourceId.trans h.sourceId, h'.supersedesId.trans h.supersedesId,
    h'.privacyScope.trans h.privacyScope⟩

theorem Extends.trans {db db' db'' : Database} (h : Extends db db') (h' : Extends db' db'') :
    Extends db db'' := by
  refine ⟨fun v hv => ?_, fun f hf => h'.facts f (h.facts f hf),
    fun e he => h'.entities e (h.entities e he), fun s hs => h'.sources s (h.sources s hs)⟩
  obtain ⟨v', hv', hsame⟩ := h.versions v hv
  obtain ⟨v'', hv'', hsame'⟩ := h'.versions v' hv'
  exact ⟨v'', hv'', hsame.trans hsame'⟩

theorem extends_apply (write : VersionWrite) (db : Database) : Extends db (write.apply db) := by
  refine ⟨fun v hv => ⟨touched write v, ?_, sameClaim_touched write v⟩, fun f hf => ?_,
    fun e he => ?_, fun s hs => ?_⟩
  · rw [apply_versions]
    exact List.mem_append_left _ (List.mem_map_of_mem hv)
  · rw [apply_facts]
    exact List.mem_append_left _ hf
  · rw [apply_entities]
    exact List.mem_append_left _ he
  · rw [apply_sources]
    exact hs

theorem extends_commit {t : Txn} {db db' : Database} (h : t.commit db = some db') :
    Extends db db' := by
  unfold Txn.commit at h
  split at h
  · obtain rfl := Option.some.inj h
    exact extends_apply _ db
  · obtain rfl := Option.some.inj h
    exact ⟨fun v hv => ⟨v, hv, SameClaim.refl v⟩, fun _ h => h, fun _ h => h, fun _ h => h⟩
  · exact absurd h (by simp)

theorem extends_step {rt : Runtime} {w w' : Concurrent.World} {e : Event}
    (h : Concurrent.step rt w e = some w') : Extends w.db w'.db := by
  cases Concurrent.step_cases h with
  | recording => exact Extends.refl w.db
  | revoking => exact Extends.refl w.db
  | moved => exact Extends.refl w.db
  | committed i t db haction ht hcommit => exact extends_commit hcommit
  | answered => exact Extends.refl w.db

/-- The version is one of a fact of the entity. -/
def OfEntity (db : Database) (v : FactVersion) (entityId : Uuid) : Prop :=
  ∃ f ∈ db.facts, f.organizationId = v.organizationId ∧ f.id = v.factId ∧ f.entityId = entityId

theorem OfEntity.extends {db db' : Database} (h : Extends db db') {v v' : FactVersion}
    (hsame : SameClaim v v') {entityId : Uuid} (hv : OfEntity db v entityId) :
    OfEntity db' v' entityId := by
  obtain ⟨f, hf, horg, hid, hentity⟩ := hv
  exact ⟨f, h.facts f hf, horg.trans hsame.organizationId.symm, hid.trans hsame.factId.symm,
    hentity⟩

/-- Every fact has its entity and every version its source. -/
structure Rooted (db : Database) : Prop where
  entityOf : ∀ f ∈ db.facts, ∃ e ∈ db.entities,
    e.organizationId = f.organizationId ∧ e.id = f.entityId
  sourceOf : ∀ v ∈ db.versions, ∃ s ∈ db.sources,
    s.organizationId = v.organizationId ∧ s.id = v.sourceId

/-- What the contradiction of a write says of the version that it adds. -/
def Claims (db : Database) (c : Contradiction) (v : FactVersion) : Prop :=
  ∃ p ∈ db.versions, c.leftVersionId = p.id ∧ c.rightVersionId = v.id ∧
    p.organizationId = v.organizationId ∧ p.factId = v.factId ∧ v.supersedesId = some p.id ∧
    c.organizationId = v.organizationId ∧
    c.privacyScope = widerScope p.privacyScope v.privacyScope ∧
    (c.preferredVersionId = p.id ∨ c.preferredVersionId = v.id) ∧ OfEntity db v c.entityId

theorem Claims.extends {db db' : Database} (h : Extends db db') {c : Contradiction}
    {v : FactVersion} (hc : Claims db c v) : Claims db' c v := by
  obtain ⟨p, hp, hleft, hright, horg, hfact, hsupersedes, hcorg, hscope, hpreferred, hentity⟩ := hc
  obtain ⟨p', hp', hsame⟩ := h.versions p hp
  refine ⟨p', hp', ?_, hright, hsame.organizationId.trans horg, hsame.factId.trans hfact, ?_,
    hcorg, ?_, ?_, hentity.extends h (SameClaim.refl v)⟩
  · rw [hleft, hsame.id]
  · rw [hsupersedes, hsame.id]
  · rw [hscope, hsame.privacyScope]
  · rw [hsame.id]
    exact hpreferred

/-- The entity of a place is that of its fact, and it is there or is created with it. -/
structure Sited (db : Database) (place : Place) : Prop where
  entityId : place.fact.entityId = place.entity.id
  organizationId : place.entity.organizationId = place.fact.organizationId
  old : place.newEntity = false → place.entity ∈ db.entities

/-- What a transaction that records knows of its entity and of its contradiction. -/
def Situated (db : Database) : Txn → Prop
  | .record _ _ _ phase =>
    match phase with
    | .begun => True
    | .located place => Sited db place
    | .locked place => Sited db place
    | .planned place _ _ => Sited db place
    | .stamped place _ _ _ => Sited db place
    | .written write =>
      (∀ f, write.fact = some f → ∃ e ∈ db.entities ++ write.entity.toList,
        e.organizationId = f.organizationId ∧ e.id = f.entityId) ∧
      ∀ c, write.contradiction = some c → Claims db c write.version
  | _ => True

theorem Sited.extends {db db' : Database} (h : Extends db db') {place : Place}
    (hplace : Sited db place) : Sited db' place :=
  ⟨hplace.entityId, hplace.organizationId, fun hold => h.entities _ (hplace.old hold)⟩

theorem Situated.extends {db db' : Database} (h : Extends db db') {t : Txn}
    (ht : Situated db t) : Situated db' t := by
  cases t with
  | record ctx now d phase =>
    cases phase with
    | begun => trivial
    | located place => exact Sited.extends h ht
    | locked place => exact Sited.extends h ht
    | planned place latest plan => exact Sited.extends h ht
    | stamped place latest plan recordedAt => exact Sited.extends h ht
    | written write =>
      refine ⟨fun f hf => ?_, fun c hc => (ht.2 c hc).extends h⟩
      obtain ⟨e, he, hkey⟩ := ht.1 f hf
      refine ⟨e, ?_, hkey⟩
      exact List.mem_append.mpr ((List.mem_append.mp he).imp (h.entities e) id)
  | revoke ctx now request phase => trivial
  | committed => trivial
  | rolledBack failure => trivial

theorem sited_of_locate {db : Database} {ctx : TenantContext} {d : Draft} {entityId factId : Uuid}
    {place : Place} (h : locate db ctx d entityId factId = .ok place) : Sited db place := by
  obtain ⟨source, authority, -, rfl, -⟩ := locate_eq_ok h
  simp only [findPlace]
  cases hentity : findEntity db ctx.organizationId d.entityType.1 d.externalId.1 with
  | none =>
    simp only [Option.getD_none]
    cases hfact : findFact db ctx.organizationId entityId d.property.1 with
    | none => exact ⟨rfl, rfl, fun h => absurd h (by simp)⟩
    | some f =>
      obtain ⟨-, horg, hid, -⟩ := findFact_mem hfact
      exact ⟨hid, horg.symm, fun h => absurd h (by simp)⟩
  | some e =>
    obtain ⟨he, heorg⟩ := findEntity_mem hentity
    simp only [Option.getD_some]
    cases hfact : findFact db ctx.organizationId e.id d.property.1 with
    | none => exact ⟨rfl, heorg, fun _ => he⟩
    | some f =>
      obtain ⟨-, horg, hid, -⟩ := findFact_mem hfact
      exact ⟨hid, heorg.trans horg.symm, fun _ => he⟩

theorem contradiction_of_writeVersion {db : Database} {ctx : TenantContext} {d : Draft}
    {place : Place} {latest : Option FactVersion} {plan : VersionPlan} {recordedAt now : Instant}
    {id : Uuid} {write : VersionWrite}
    (h : writeVersion db ctx d place latest plan recordedAt now id = .ok write) :
    write.contradiction =
      latest.bind fun v => detectValueConflict ctx place.entity.id v d write.version := by
  unfold writeVersion at h
  split at h
  · exact absurd h (by simp)
  · simp only at h
    split at h
    · exact absurd h (by simp)
    · obtain ⟨links, -, rfl⟩ := map_eq_ok.mp h
      rfl

theorem preferred_cases (a b : VersionFacts) : preferred a b = a.id ∨ preferred a b = b.id := by
  unfold preferred
  split
  · exact Or.inr rfl
  · exact Or.inl rfl

theorem situated_written {db : Database} (hsound : Sound db) {ctx : TenantContext} {d : Draft}
    {place : Place} {latest : Option FactVersion} {plan : VersionPlan} {recordedAt now : Instant}
    {id : Uuid} {write : VersionWrite} (hplace : PlaceIn db ctx.organizationId place)
    (hsited : Sited db place) (hlatest : latestVersion db ctx.organizationId place.fact.id = latest)
    (h : writeVersion db ctx d place latest plan recordedAt now id = .ok write) :
    (∀ f, write.fact = some f → ∃ e ∈ db.entities ++ write.entity.toList,
        e.organizationId = f.organizationId ∧ e.id = f.entityId) ∧
      ∀ c, write.contradiction = some c → Claims db c write.version := by
  obtain ⟨hwritten, -⟩ := writeVersion_eq_ok h
  refine ⟨fun f hf => ⟨place.entity, ?_, ?_⟩, fun c hc => ?_⟩
  · rw [hwritten.entity]
    cases hnew : place.newEntity with
    | false => exact List.mem_append_left _ (hsited.old hnew)
    | true => exact List.mem_append_right _ (by simp)
  · rw [hwritten.fact] at hf
    obtain rfl := Option.some.inj (Option.ite_none_right_eq_some.mp hf).2
    exact ⟨hsited.organizationId, hsited.entityId.symm⟩
  · rw [contradiction_of_writeVersion h] at hc
    obtain ⟨p, hp, hdetect⟩ := Option.bind_eq_some_iff.mp hc
    obtain ⟨reason, -, rfl⟩ := Option.map_eq_some_iff.mp hdetect
    obtain ⟨hmem, horg, hfact⟩ := mem_versionsOf.mp (Sound.latest_mem (hlatest.trans hp))
    obtain ⟨value, -, hversion⟩ := hwritten.version
    have hold : place.newFact = false := by
      by_contra hnew
      rw [Bool.not_eq_false] at hnew
      obtain ⟨g, hg, -, hid⟩ := hsound.factOf p hmem
      exact hplace.new hnew g hg (hid.trans hfact)
    have hvorg : write.version.organizationId = ctx.organizationId := by rw [hversion]; rfl
    have hvfact : write.version.factId = place.fact.id := by rw [hversion]; rfl
    refine ⟨p, hmem, rfl, rfl, horg.trans hvorg.symm, hfact.trans hvfact.symm, ?_, hvorg.symm, rfl,
      preferred_cases _ _, place.fact, hplace.old hold, hplace.fact.trans hvorg.symm, hvfact.symm,
      hsited.entityId⟩
    rw [hversion, hp]
    rfl

theorem situated_orRollBack {α : Type} {db : Database} {x : Result α} {next : α → Txn}
    (h : ∀ a, x = .ok a → Situated db (next a)) : Situated db (orRollBack x next) := by
  cases x with
  | ok a => exact h a rfl
  | error failure => trivial

/-- One step of a transaction. -/
theorem situated_stepTxn {db : Database} (hsound : Sound db) {clock : Instant} {t t' : Txn}
    {m : Move} (hest : Established db t) (ht : Situated db t)
    (h : stepTxn db clock t m = some t') : Situated db t' := by
  unfold stepTxn at h
  split at h
  · obtain rfl := Option.some.inj h
    exact situated_orRollBack fun place hplace => sited_of_locate hplace
  · obtain rfl := Option.some.inj h
    exact ht
  · obtain rfl := Option.some.inj h
    exact situated_orRollBack fun plan _ => ht
  · obtain rfl := Option.some.inj h
    exact ht
  · obtain rfl := Option.some.inj h
    obtain ⟨hplace, hlatest, -, -⟩ := hest
    exact situated_orRollBack fun write hwrite =>
      situated_written hsound hplace ht hlatest hwrite
  · obtain rfl := Option.some.inj h
    exact situated_orRollBack fun _ _ => trivial
  · obtain rfl := Option.some.inj h
    trivial
  · obtain rfl := Option.some.inj h
    exact situated_orRollBack fun _ _ => trivial
  · obtain rfl := Option.some.inj h
    trivial
  · obtain rfl := Option.some.inj h
    trivial
  · exact absurd h (by simp)

theorem rooted_apply {db : Database} (hdb : Rooted db) {write : VersionWrite}
    (happ : Appends db write) (hfact : ∀ f, write.fact = some f →
      ∃ e ∈ db.entities ++ write.entity.toList,
        e.organizationId = f.organizationId ∧ e.id = f.entityId) : Rooted (write.apply db) := by
  refine ⟨fun f hf => ?_, fun v hv => ?_⟩
  · rw [apply_facts] at hf
    rw [apply_entities]
    rcases List.mem_append.mp hf with hf | hf
    · obtain ⟨e, he, hkey⟩ := hdb.entityOf f hf
      exact ⟨e, List.mem_append_left _ he, hkey⟩
    · exact hfact f (Option.mem_toList.mp hf)
  · rw [apply_versions] at hv
    rw [apply_sources]
    rcases List.mem_append.mp hv with hv | hv
    · obtain ⟨u, hu, rfl⟩ := List.mem_map.mp hv
      have hsame := sameClaim_touched write u
      rw [hsame.organizationId, hsame.sourceId]
      exact hdb.sourceOf u hu
    · obtain rfl := List.mem_singleton.mp hv
      exact happ.source

/-- The state of the recorders: consistent, and nothing in it hangs in the air. -/
structure Grounded (w : Concurrent.World) : Prop where
  consistent : Consistent w
  rooted : Rooted w.db
  situated : ∀ t ∈ w.txns, Situated w.db t

theorem grounded_start {w : Concurrent.World} (h : Concurrent.Start w) : Grounded w := by
  refine ⟨Start.consistent h, ⟨?_, ?_⟩, ?_⟩
  · rw [h.db.facts]
    exact fun f hf => absurd hf List.not_mem_nil
  · rw [h.db.versions]
    exact fun v hv => absurd hv List.not_mem_nil
  · rw [h.txns]
    exact fun t ht => absurd ht List.not_mem_nil

theorem grounded_commit {w : Concurrent.World} (hw : Grounded w) {i : ℕ} {t : Txn}
    {db : Database} (ht : w.txns[i]? = some t) (hcommit : t.commit w.db = some db) :
    Rooted db ∧ ∀ u ∈ w.txns.set i .committed, Situated db u := by
  have hmem := List.mem_of_getElem? ht
  refine ⟨?_, fun u hu => ?_⟩
  · unfold Txn.commit at hcommit
    split at hcommit
    · obtain rfl := Option.some.inj hcommit
      exact rooted_apply hw.rooted (hw.consistent.established _ hmem) (hw.situated _ hmem).1
    · obtain rfl := Option.some.inj hcommit
      exact ⟨hw.rooted.entityOf, hw.rooted.sourceOf⟩
    · exact absurd hcommit (by simp)
  · rcases Processes.mem_set_cases hu with rfl | ⟨j, -, hj⟩
    · trivial
    · exact (hw.situated u (List.mem_of_getElem? hj)).extends (extends_commit hcommit)

theorem grounded_step {rt : Runtime} {w w' : Concurrent.World} {e : Event} (hw : Grounded w)
    (h : Concurrent.step rt w e = some w') : Grounded w' := by
  have happend {t' : Txn} (ht' : Situated w.db t') : ∀ t ∈ w.txns ++ [t'], Situated w.db t := by
    intro t ht
    rcases List.mem_append.mp ht with ht | ht
    · exact hw.situated t ht
    · exact List.mem_singleton.mp ht ▸ ht'
  have hrest : Rooted w'.db ∧ ∀ t ∈ w'.txns, Situated w'.db t := by
    cases Concurrent.step_cases h with
    | recording ctx command haction =>
      generalize draft rt command = result
      exact ⟨hw.rooted, happend (situated_orRollBack fun _ _ => trivial)⟩
    | revoking ctx factId versionId reason haction =>
      generalize revokeRequest factId versionId reason = result
      exact ⟨hw.rooted, happend (situated_orRollBack fun _ _ => trivial)⟩
    | moved i m t t' haction ht hready hstep =>
      refine ⟨hw.rooted, fun u hu => ?_⟩
      have hmem := List.mem_of_getElem? ht
      rcases Processes.mem_set_cases hu with rfl | ⟨j, -, hj⟩
      · exact situated_stepTxn hw.consistent.sound (hw.consistent.established t hmem)
          (hw.situated t hmem) hstep
      · exact hw.situated u (List.mem_of_getElem? hj)
    | committed i t db haction ht hcommit => exact grounded_commit hw ht hcommit
    | answered org entityId factId validAt knownAt haction hle =>
      exact ⟨hw.rooted, hw.situated⟩
  exact ⟨consistent_step hw.consistent h, hrest.1, hrest.2⟩

theorem placeIn_others {db : Database} {org : Uuid} {place : Place} (h : PlaceIn db org place)
    (users : List User) (memberships : List OrganizationMembership) :
    PlaceIn { db with users, memberships } org place :=
  ⟨h.source, h.fact, h.old, h.new⟩

/-- No transaction relies on users or memberships between two of its moves. -/
theorem established_others {db : Database} {t : Txn} (h : Established db t) (users : List User)
    (memberships : List OrganizationMembership) :
    Established { db with users, memberships } t := by
  cases t with
  | record ctx now d phase =>
    cases phase with
    | begun => trivial
    | located place => exact placeIn_others h users memberships
    | locked place => exact placeIn_others h users memberships
    | planned place latest plan => exact ⟨placeIn_others h.1 users memberships, h.2⟩
    | stamped place latest plan recordedAt => exact ⟨placeIn_others h.1 users memberships, h.2⟩
    | written write =>
      exact ⟨h.target, h.fresh, h.ordered, h.ownEnd, h.rowChecked, h.source, h.begins,
        h.continues⟩
  | revoke ctx now request phase =>
    cases phase with
    | written write => exact ⟨h.organizationId, h.revokedAt, h.version, h.named, h.first⟩
    | begun => trivial
    | authorized role => trivial
    | locked role => trivial
  | committed => trivial
  | rolledBack failure => exact h

/-- Users and memberships may change at any time. -/
theorem grounded_others {w : Concurrent.World} (hw : Grounded w) (users : List User)
    (memberships : List OrganizationMembership) :
    Grounded { w with db := { w.db with users, memberships } } := by
  have hc := hw.consistent
  have hsound : Sound { w.db with users, memberships } :=
    ⟨hc.sound.factIds, hc.sound.versionIds, hc.sound.factOf, hc.sound.rowsChecked,
      hc.sound.histories⟩
  refine ⟨⟨hsound, hc.committed, hc.own, hc.apart, fun t ht => ?_⟩,
    ⟨hw.rooted.entityOf, hw.rooted.sourceOf⟩, fun t ht => ?_⟩
  · exact established_others (hc.established t ht) users memberships
  · have hext : Extends w.db { w.db with users, memberships } :=
      ⟨fun v hv => ⟨v, hv, SameClaim.refl v⟩, fun _ h => h, fun _ h => h, fun _ h => h⟩
    exact (hw.situated t ht).extends hext

end ContextLedger.ContradictionClaims

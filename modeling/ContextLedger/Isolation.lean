import ContextLedger.Constraints

/-!
The invariant of concurrent writers. Every open transaction knows the truth
about its fact, because it holds the lock of the fact row or has created it, and
identifiers drawn by one transaction are used by no other. A commit appends to
a table that is still the one the transaction planned for.
-/
namespace ContextLedger.Isolation

open Values Authorization FactRules Schema Facts VersionChain VersionTable Recording
open Reference TemporalEngine Revocations Knowledge Concurrent Constraints

def Place.ownIds (place : Place) : List Uuid :=
  (if place.newEntity then [place.entity.id] else []) ++
    if place.newFact then [place.fact.id] else []

def writeIds (write : VersionWrite) : List Uuid :=
  write.entity.toList.map Entity.id ++ write.fact.toList.map Fact.id ++ [write.version.id]

/-- Identifiers drawn by the transaction for rows it has not committed. -/
def ownIds : Txn → List Uuid
  | .record _ _ _ (.located place) => Place.ownIds place
  | .record _ _ _ (.locked place) => Place.ownIds place
  | .record _ _ _ (.planned place _ _) => Place.ownIds place
  | .record _ _ _ (.stamped place _ _ _) => Place.ownIds place
  | .record _ _ _ (.written write) => writeIds write
  | _ => []

def committedIds (db : Database) : List Uuid :=
  db.entities.map Entity.id ++ db.facts.map Fact.id ++ db.versions.map FactVersion.id

/-- Two transactions lock different facts and draw different identifiers. -/
structure Apart (t u : Txn) : Prop where
  locks : ∀ f, t.lockedFact = some f → u.lockedFact ≠ some f
  ids : ∀ id ∈ ownIds t, id ∉ ownIds u

theorem Apart.symm {t u : Txn} (h : Apart t u) : Apart u t :=
  ⟨fun f hu ht => h.locks f ht hu, fun id hu ht => h.ids id ht hu⟩

/-- What a transaction has established, in the state of the committed rows. -/
def Established (db : Database) : Txn → Prop
  | .record ctx _ d phase =>
    match phase with
    | .begun => True
    | .located place => PlaceIn db ctx.organizationId place
    | .locked place => PlaceIn db ctx.organizationId place
    | .planned place latest plan => PlaceIn db ctx.organizationId place ∧
        latestVersion db ctx.organizationId place.fact.id = latest ∧
        planVersion latest d = .ok plan
    | .stamped place latest plan recordedAt => PlaceIn db ctx.organizationId place ∧
        latestVersion db ctx.organizationId place.fact.id = latest ∧
        planVersion latest d = .ok plan ∧ ∀ v, latest = some v → v.recordedAt < recordedAt
    | .written write => Appends db write
  | .revoke ctx now request phase =>
    match phase with
    | .written write => Revokes db ctx request now write
    | _ => True
  | .committed => True
  | .rolledBack failure => ∀ name, failure ≠ some (.integrity name)

structure Consistent (w : World) : Prop where
  sound : Sound w.db
  committed : ∀ id ∈ committedIds w.db, id ∈ w.drawn
  own : ∀ t ∈ w.txns, ∀ id ∈ ownIds t, id ∈ w.drawn ∧ id ∉ committedIds w.db
  apart : ∀ (i j : ℕ) (t u : Txn), w.txns[i]? = some t → w.txns[j]? = some u → i ≠ j → Apart t u
  established : ∀ t ∈ w.txns, Established w.db t

theorem Start.consistent {w : World} (h : Start w) : Consistent w := by
  refine ⟨h.db.sound, ?_, ?_, ?_, ?_⟩
  · simp [committedIds, h.entities, h.db.facts, h.db.versions]
  · simp [h.txns]
  · simp [h.txns]
  · simp [h.txns]

section Places

variable {db : Database} {org : Uuid} {place : Place}

theorem ownIds_findPlace (db : Database) (org : Uuid) (d : Draft) (source : FactSource)
    (authority : Validation.Authority) (entityId factId : Uuid) :
    ∀ id ∈ Place.ownIds (findPlace db org d source authority entityId factId),
      id = entityId ∨ id = factId := by
  intro id hid
  rw [Place.ownIds, List.mem_append] at hid
  rcases hid with hid | hid
  · cases hfound : findEntity db org d.entityType.1 d.externalId.1 with
    | some e => simp [findPlace, hfound] at hid
    | none => exact Or.inl (by simpa [findPlace, hfound] using hid)
  · cases hfound : findFact db org
        ((findEntity db org d.entityType.1 d.externalId.1).getD
          ⟨entityId, org, d.entityType.1, d.externalId.1⟩).id d.property.1 with
    | some f => simp [findPlace, hfound] at hid
    | none => exact Or.inr (by simpa [findPlace, hfound] using hid)

theorem writeIds_of_written {ctx : TenantContext} {d : Draft} {latest : Option FactVersion}
    {plan : VersionPlan} {recordedAt now : Instant} {id : Uuid} {write : VersionWrite}
    (h : writeVersion db ctx d place latest plan recordedAt now id = .ok write) :
    ∀ x ∈ writeIds write, x ∈ Place.ownIds place ∨ x = id := by
  unfold writeVersion at h
  split at h
  · exact absurd h (by simp)
  · simp only at h
    split at h
    · exact absurd h (by simp)
    · obtain ⟨links, -, rfl⟩ := map_eq_ok.mp h
      intro x hx
      simp only [writeIds, newVersion, List.mem_append, List.mem_singleton] at hx
      rcases hx with (hx | hx) | hx
      · left
        cases hnew : place.newEntity with
        | false => simp [hnew] at hx
        | true => simpa [Place.ownIds, hnew] using Or.inl (by simpa [hnew] using hx)
      · left
        cases hnew : place.newFact with
        | false => simp [hnew] at hx
        | true => simpa [Place.ownIds, hnew] using Or.inr (by simpa [hnew] using hx)
      · exact Or.inr hx

end Places

/-- One step of a transaction establishes what its new phase says. -/
theorem established_stepTxn {db : Database} (hsound : Sound db) {clock : Instant} {t t' : Txn}
    {m : Move} (ht : Established db t) (hnew : ∀ id ∈ m.ids, id ∉ committedIds db)
    (h : stepTxn db clock t m = some t') : Established db t' := by
  unfold stepTxn at h
  split at h
  · rename_i ctx now d entityId factId
    obtain rfl := Option.some.inj h
    have hentity : ∀ e ∈ db.entities, e.id ≠ entityId := fun e he hid =>
      hnew entityId (by simp [Move.ids])
        (by simp [committedIds, ← hid, List.mem_map_of_mem he])
    have hfact : ∀ f ∈ db.facts, f.id ≠ factId := fun f hf hid =>
      hnew factId (by simp [Move.ids])
        (by simp [committedIds, ← hid, List.mem_map_of_mem hf])
    cases hlocate : locate db ctx d entityId factId with
    | ok place => exact locate_in hlocate
    | error failure =>
      intro name hname
      exact unconstrained_locate hentity hfact name (by rw [hlocate, Option.some.inj hname])
  · obtain rfl := Option.some.inj h
    exact ht
  · rename_i ctx now d place
    obtain rfl := Option.some.inj h
    cases hplan : planVersion (latestVersion db ctx.organizationId place.fact.id) d with
    | ok plan => exact ⟨ht, rfl, hplan⟩
    | error failure =>
      intro name hname
      exact unconstrained_planVersion _ _ name (by rw [hplan, Option.some.inj hname])
  · rename_i ctx now d place latest plan
    obtain rfl := Option.some.inj h
    obtain ⟨hplace, hlatest, hplan⟩ := ht
    refine ⟨hplace, hlatest, hplan, ?_⟩
    rintro v rfl
    exact recorded_lt_nextTransactionTime v clock
  · rename_i ctx now d place latest plan recordedAt id
    obtain rfl := Option.some.inj h
    obtain ⟨hplace, hlatest, hplan, hstamp⟩ := ht
    have hfresh : ∀ v ∈ db.versions, v.id ≠ id := fun v hv hid =>
      hnew id (by simp [Move.ids]) (by simp [committedIds, ← hid, List.mem_map_of_mem hv])
    have happ : ∀ write, Written ctx d place latest plan recordedAt id write → Appends db write :=
      fun write hw => hw.appends hsound hplace hlatest hplan hstamp hfresh
    cases hwrite : writeVersion db ctx d place latest plan recordedAt now id with
    | ok write => exact happ write (writeVersion_eq_ok hwrite).1
    | error failure =>
      intro name hname
      exact unconstrained_writeVersion hsound happ name (by rw [hwrite, Option.some.inj hname])
  · rename_i ctx now request _ _
    obtain rfl := Option.some.inj h
    cases hrole : authorizeRevoke db ctx request with
    | ok role => trivial
    | error failure =>
      intro name hname
      exact unconstrained_authorizeRevoke _ _ _ name (by rw [hrole, Option.some.inj hname])
  · obtain rfl := Option.some.inj h
    trivial
  · rename_i ctx now request role id
    obtain rfl := Option.some.inj h
    cases hwrite : writeRevocation db ctx request role now id with
    | ok write => exact writeRevocation_eq_ok hwrite
    | error failure =>
      intro name hname
      exact unconstrained_writeRevocation _ _ _ _ _ _ name (by rw [hwrite, Option.some.inj hname])
  · obtain rfl := Option.some.inj h
    intro name hname
    exact absurd hname (by simp)
  · obtain rfl := Option.some.inj h
    intro name hname
    exact absurd hname (by simp)
  · exact absurd h (by simp)

theorem ownIds_orRollBack {α : Type} {x : Result α} {next : α → Txn} {ids : List Uuid}
    (h : ∀ a, x = .ok a → ∀ id ∈ ownIds (next a), id ∈ ids) :
    ∀ id ∈ ownIds (orRollBack x next), id ∈ ids := by
  cases x with
  | ok a => exact h a rfl
  | error failure =>
    intro id hid
    exact absurd hid (by simp [orRollBack, ownIds])

/-- A step uses the identifiers it had and those it draws. -/
theorem ownIds_stepTxn {db : Database} {clock : Instant} {t t' : Txn} {m : Move}
    (h : stepTxn db clock t m = some t') : ∀ id ∈ ownIds t', id ∈ m.ids ++ ownIds t := by
  unfold stepTxn at h
  split at h
  · rename_i ctx now d entityId factId
    obtain rfl := Option.some.inj h
    apply ownIds_orRollBack
    intro place hplace id hid
    obtain ⟨source, authority, -, rfl, -⟩ := locate_eq_ok hplace
    rcases ownIds_findPlace db ctx.organizationId d source authority entityId factId id hid
      with rfl | rfl
    · simp [Move.ids]
    · simp [Move.ids]
  · obtain rfl := Option.some.inj h
    exact fun id hid => hid
  · obtain rfl := Option.some.inj h
    exact ownIds_orRollBack fun plan _ id hid => hid
  · obtain rfl := Option.some.inj h
    exact fun id hid => hid
  · rename_i ctx now d place latest plan recordedAt newId
    obtain rfl := Option.some.inj h
    apply ownIds_orRollBack
    intro write hwrite id hid
    rcases writeIds_of_written hwrite id hid with hid | hid
    · exact List.mem_append_right _ hid
    · simp [Move.ids, hid]
  · obtain rfl := Option.some.inj h
    exact ownIds_orRollBack fun role _ id hid => absurd hid (by simp [ownIds])
  · obtain rfl := Option.some.inj h
    intro id hid
    exact absurd hid (by simp [ownIds])
  · obtain rfl := Option.some.inj h
    exact ownIds_orRollBack fun write _ id hid => absurd hid (by simp [ownIds])
  · obtain rfl := Option.some.inj h
    intro id hid
    exact absurd hid (by simp [ownIds])
  · obtain rfl := Option.some.inj h
    intro id hid
    exact absurd hid (by simp [ownIds])
  · exact absurd h (by simp)

theorem lockedFact_orRollBack {α : Type} {x : Result α} {next : α → Txn} {old : Option Uuid}
    {f : Uuid} (hf : (orRollBack x next).lockedFact = some f)
    (h : ∀ a, x = .ok a → (next a).lockedFact = old) : old = some f := by
  cases x with
  | ok a => rw [← h a rfl]; exact hf
  | error failure => exact absurd hf (by simp [orRollBack, Txn.lockedFact])

/-- A lock is kept, or taken when it is free. -/
theorem lockedFact_stepTxn {w : World} {i : ℕ} {clock : Instant} {t t' : Txn} {m : Move}
    (hready : w.ready i t m = true) (h : stepTxn w.db clock t m = some t') {f : Uuid}
    (hf : t'.lockedFact = some f) :
    t.lockedFact = some f ∨ ∀ u ∈ w.others i, u.lockedFact ≠ some f := by
  unfold stepTxn at h
  split at h
  · obtain rfl := Option.some.inj h
    exact Or.inl (lockedFact_orRollBack hf fun _ _ => rfl)
  · obtain rfl := Option.some.inj h
    right
    obtain rfl : _ = f := Option.some.inj hf
    rw [World.ready, Bool.and_eq_true] at hready
    intro u hu
    simpa using List.all_eq_true.mp hready.2 u hu
  · obtain rfl := Option.some.inj h
    exact Or.inl (lockedFact_orRollBack hf fun _ _ => rfl)
  · obtain rfl := Option.some.inj h
    exact Or.inl hf
  · rename_i ctx now d place latest plan recordedAt newId
    obtain rfl := Option.some.inj h
    refine Or.inl (lockedFact_orRollBack hf ?_)
    intro write hwrite
    obtain ⟨value, -, hversion⟩ := (writeVersion_eq_ok hwrite).1.version
    show some write.version.factId = some place.fact.id
    rw [hversion]
    rfl
  · obtain rfl := Option.some.inj h
    exact Or.inl (lockedFact_orRollBack hf fun _ _ => rfl)
  · obtain rfl := Option.some.inj h
    right
    obtain rfl : _ = f := Option.some.inj hf
    rw [World.ready, Bool.and_eq_true] at hready
    intro u hu
    simpa using List.all_eq_true.mp hready.2 u hu
  · obtain rfl := Option.some.inj h
    exact Or.inl (lockedFact_orRollBack hf fun _ _ => rfl)
  · obtain rfl := Option.some.inj h
    exact absurd hf (by simp [Txn.lockedFact])
  · obtain rfl := Option.some.inj h
    exact absurd hf (by simp [Txn.lockedFact])
  · exact absurd h (by simp)

theorem mem_others {w : World} {i j : ℕ} {u : Txn} (hu : w.txns[j]? = some u) (hij : i ≠ j) :
    u ∈ w.others i := by
  unfold World.others
  rw [List.mem_eraseIdx_iff_getElem?]
  exact ⟨j, Ne.symm hij, hu⟩

/-- Replacing one transaction keeps the others apart from it and from each other. -/
theorem apart_set {w : World} {i : ℕ} {t' : Txn} (hw : Consistent w)
    (hnew : ∀ j u, w.txns[j]? = some u → i ≠ j → Apart t' u) :
    ∀ (j k : ℕ) (u v : Txn), (w.txns.set i t')[j]? = some u → (w.txns.set i t')[k]? = some v →
      j ≠ k → Apart u v := by
  intro j k u v hu hv hjk
  rw [List.getElem?_set] at hu hv
  by_cases hij : i = j
  · rw [if_pos hij] at hu
    split at hu
    · obtain rfl := Option.some.inj hu
      rw [if_neg (hij ▸ hjk)] at hv
      exact hnew k v hv (hij ▸ hjk)
    · exact absurd hu (by simp)
  · rw [if_neg hij] at hu
    by_cases hik : i = k
    · rw [if_pos hik] at hv
      split at hv
      · obtain rfl := Option.some.inj hv
        exact (hnew j u hu hij).symm
      · exact absurd hv (by simp)
    · rw [if_neg hik] at hv
      exact hw.apart j k u v hu hv hjk

theorem fresh_of_ready {w : World} {i : ℕ} {t : Txn} {m : Move} (h : w.ready i t m = true) :
    ∀ id ∈ m.ids, id ∉ w.drawn := by
  have hall : (m.ids.all fun id => !w.drawn.contains id) = true := by
    unfold World.ready at h
    rw [Bool.and_eq_true, Bool.and_eq_true] at h
    exact h.1.2
  intro id hid
  simpa using List.all_eq_true.mp hall id hid

theorem consistent_move {w : World} (hw : Consistent w) {i : ℕ} {t t' : Txn} {m : Move}
    {clock : Instant} (ht : w.txns[i]? = some t) (hready : w.ready i t m = true)
    (hstep : stepTxn w.db clock t m = some t') :
    Consistent { w with txns := w.txns.set i t', drawn := m.ids ++ w.drawn, clock := clock } := by
  have hmem : t ∈ w.txns := List.mem_of_getElem? ht
  have hfresh := fresh_of_ready hready
  have hnew : ∀ id ∈ m.ids, id ∉ committedIds w.db :=
    fun id hid hcommitted => hfresh id hid (hw.committed id hcommitted)
  have hids := ownIds_stepTxn hstep
  refine ⟨hw.sound, ?_, ?_, ?_, ?_⟩
  · exact fun id hid => List.mem_append_right _ (hw.committed id hid)
  · intro u hu id hid
    rcases (List.mem_or_eq_of_mem_set hu).symm with rfl | hu
    · rcases List.mem_append.mp (hids id hid) with hid | hid
      · exact ⟨List.mem_append_left _ hid, hnew id hid⟩
      · exact ⟨List.mem_append_right _ (hw.own t hmem id hid).1, (hw.own t hmem id hid).2⟩
    · exact ⟨List.mem_append_right _ (hw.own u hu id hid).1, (hw.own u hu id hid).2⟩
  · refine apart_set hw ?_
    intro j u hu hij
    have hapart := hw.apart i j t u ht hu hij
    have humem : u ∈ w.txns := List.mem_of_getElem? hu
    refine ⟨?_, ?_⟩
    · intro f hf
      rcases lockedFact_stepTxn hready hstep hf with hf | hfree
      · exact hapart.locks f hf
      · exact hfree u (mem_others hu hij)
    · intro id hid hidu
      rcases List.mem_append.mp (hids id hid) with hid | hid
      · exact hfresh id hid (hw.own u humem id hidu).1
      · exact hapart.ids id hid hidu
  · intro u hu
    rcases (List.mem_or_eq_of_mem_set hu).symm with rfl | hu
    · exact established_stepTxn hw.sound (hw.established t hmem) hnew hstep
    · exact hw.established u hu

theorem mem_committedIds_apply {write : VersionWrite} {db : Database} {id : Uuid}
    (h : id ∈ committedIds (write.apply db)) : id ∈ committedIds db ∨ id ∈ writeIds write := by
  have hversions : (db.versions.map (touched write)).map FactVersion.id =
      db.versions.map FactVersion.id := by
    rw [List.map_map]
    apply List.map_congr_left
    intro v _
    exact touched_id write v
  simp only [committedIds, apply_entities, apply_facts, apply_versions, List.map_append,
    hversions, List.mem_append, List.map_singleton, List.mem_singleton] at h
  simp only [committedIds, writeIds, List.mem_append, List.mem_singleton]
  tauto

/-- Another transaction's write leaves the latest version of a fact it does not lock. -/
theorem latestVersion_apply {db : Database} (hsound : Sound db) {write : VersionWrite}
    (happ : Appends db write) (org : Uuid) {factId : Uuid}
    (hother : factId ≠ write.version.factId) :
    latestVersion (write.apply db) org factId = latestVersion db org factId := by
  have hnot : ¬ (write.version.organizationId = org ∧ write.version.factId = factId) :=
    fun h => hother h.2.symm
  unfold latestVersion
  rw [versionsOf_apply, if_neg hnot, List.append_nil, hsound.map_touched_other happ hnot]

theorem placeIn_apply {db : Database} {write : VersionWrite} {org : Uuid} {place : Place}
    (h : PlaceIn db org place) (hids : ∀ id ∈ Place.ownIds place, id ∉ writeIds write) :
    PlaceIn (write.apply db) org place := by
  refine ⟨?_, h.fact, ?_, ?_⟩
  · rw [apply_sources]
    exact h.source
  · intro hold
    rw [apply_facts]
    exact List.mem_append_left _ (h.old hold)
  · intro hnew g hg hid
    rw [apply_facts, List.mem_append] at hg
    rcases hg with hg | hg
    · exact h.new hnew g hg hid
    · refine hids place.fact.id (by simp [Place.ownIds, hnew]) ?_
      rw [← hid]
      simp only [writeIds, List.mem_append, List.mem_map]
      exact Or.inl (Or.inr ⟨g, hg, rfl⟩)

theorem appends_apply {db : Database} (hsound : Sound db) {write other : VersionWrite}
    (happ : Appends db write) (hother : Appends db other)
    (hfact : other.version.factId ≠ write.version.factId)
    (hids : ∀ id ∈ writeIds other, id ∉ writeIds write) : Appends (write.apply db) other := by
  have hlatest := latestVersion_apply hsound happ other.version.organizationId hfact
  refine ⟨?_, ?_, hother.ordered, hother.ownEnd, hother.rowChecked, ?_, ?_, ?_⟩
  · rcases hother.target with ⟨hnone, f, hf, hforg, hfid⟩ | ⟨f, hsome, hforg, hfid, hfresh⟩
    · refine Or.inl ⟨hnone, f, ?_, hforg, hfid⟩
      rw [apply_facts]
      exact List.mem_append_left _ hf
    · refine Or.inr ⟨f, hsome, hforg, hfid, ?_⟩
      intro g hg hid
      rw [apply_facts, List.mem_append] at hg
      rcases hg with hg | hg
      · exact hfresh g hg hid
      · refine hids f.id (by simp [writeIds, hsome]) ?_
        rw [← hid]
        simp only [writeIds, List.mem_append, List.mem_map]
        exact Or.inl (Or.inr ⟨g, hg, rfl⟩)
  · intro v hv hid
    rw [apply_versions, List.mem_append] at hv
    rcases hv with hv | hv
    · obtain ⟨u, hu, rfl⟩ := List.mem_map.mp hv
      exact hother.fresh u hu (by simpa using hid)
    · obtain rfl : v = write.version := by simpa using hv
      exact hids other.version.id (by simp [writeIds]) (by simp [writeIds, ← hid])
  · rw [apply_sources]
    exact hother.source
  · rw [hlatest]
    exact hother.begins
  · rw [hlatest]
    exact hother.continues

theorem revokes_apply {db : Database} (hsound : Sound db) {write : VersionWrite}
    (happ : Appends db write) {ctx : TenantContext} {request : RevokeRequest} {now : Instant}
    {revoking : RevokeWrite} (h : Revokes db ctx request now revoking)
    (hfact : request.factId ≠ write.version.factId) :
    Revokes (write.apply db) ctx request now revoking := by
  have hnot : ¬ (write.version.organizationId = ctx.organizationId ∧
      write.version.factId = request.factId) := fun h => hfact h.2.symm
  refine ⟨h.organizationId, h.revokedAt, ?_, h.named, ?_⟩
  · rw [versionsOf_apply, if_neg hnot, List.append_nil, hsound.map_touched_other happ hnot]
    exact h.version
  · rw [apply_revocations]
    exact h.first

/-- What a transaction has established survives the commit of another one. -/
theorem established_apply {db : Database} (hsound : Sound db) {write : VersionWrite}
    (happ : Appends db write) {t : Txn} (ht : Established db t)
    (hlock : t.lockedFact ≠ some write.version.factId)
    (hids : ∀ id ∈ ownIds t, id ∉ writeIds write) : Established (write.apply db) t := by
  have hother {f : Uuid} (hf : t.lockedFact = some f) : f ≠ write.version.factId := by
    intro heq
    exact hlock (by rw [hf, heq])
  cases t with
  | record ctx now d phase =>
    cases phase with
    | begun => trivial
    | located place => exact placeIn_apply ht hids
    | locked place => exact placeIn_apply ht hids
    | planned place latest plan =>
      refine ⟨placeIn_apply ht.1 hids, ?_, ht.2.2⟩
      rw [latestVersion_apply hsound happ _ (hother rfl)]
      exact ht.2.1
    | stamped place latest plan recordedAt =>
      refine ⟨placeIn_apply ht.1 hids, ?_, ht.2.2⟩
      rw [latestVersion_apply hsound happ _ (hother rfl)]
      exact ht.2.1
    | written other => exact appends_apply hsound happ ht (hother rfl) hids
  | revoke ctx now request phase =>
    cases phase with
    | begun => trivial
    | authorized role => trivial
    | locked role => trivial
    | written revoking => exact revokes_apply hsound happ ht (hother rfl)
  | committed => trivial
  | rolledBack failure => exact ht

theorem established_revoke {db : Database} (hsound : Sound db) {ctx : TenantContext}
    {request : RevokeRequest} {now : Instant} {write : RevokeWrite}
    (hrevokes : Revokes db ctx request now write) {t : Txn} (ht : Established db t)
    (hlock : t.lockedFact ≠ some request.factId) : Established (write.apply db) t := by
  cases t with
  | record ctx' now' d phase =>
    cases phase with
    | begun => trivial
    | located place => exact ⟨ht.source, ht.fact, ht.old, ht.new⟩
    | locked place => exact ⟨ht.source, ht.fact, ht.old, ht.new⟩
    | planned place latest plan => exact ⟨⟨ht.1.source, ht.1.fact, ht.1.old, ht.1.new⟩, ht.2⟩
    | stamped place latest plan recordedAt =>
      exact ⟨⟨ht.1.source, ht.1.fact, ht.1.old, ht.1.new⟩, ht.2⟩
    | written other =>
      exact ⟨ht.target, ht.fresh, ht.ordered, ht.ownEnd, ht.rowChecked, ht.source, ht.begins,
        ht.continues⟩
  | revoke ctx' now' request' phase =>
    cases phase with
    | begun => trivial
    | authorized role => trivial
    | locked role => trivial
    | written other =>
      refine ⟨ht.organizationId, ht.revokedAt, ht.version, ht.named, ?_⟩
      intro r hr horg hid
      rcases List.mem_append.mp hr with hr | hr
      · exact ht.first r hr horg hid
      · obtain rfl : r = write.revocation := by simpa using hr
        obtain ⟨v, hv, hvid⟩ := hrevokes.version
        obtain ⟨u, hu, huid⟩ := ht.version
        have hv := mem_versionsOf.mp hv
        have hu := mem_versionsOf.mp hu
        obtain rfl : v = u := hsound.eq_of_id hv.1 hu.1 (hvid.trans (hid.trans huid.symm))
        apply hlock
        show some request'.factId = some request.factId
        rw [← hv.2.2, ← hu.2.2]
  | committed => trivial
  | rolledBack failure => exact ht

theorem consistent_commit {w : World} (hw : Consistent w) {i : ℕ} {t : Txn} {db : Database}
    {clock : Instant} (ht : w.txns[i]? = some t) (hcommit : t.commit w.db = some db) :
    Consistent { w with db := db, txns := w.txns.set i .committed, clock := clock } := by
  have hmem : t ∈ w.txns := List.mem_of_getElem? ht
  have hest := hw.established t hmem
  have hapart : ∀ (j k : ℕ) (u v : Txn), (w.txns.set i .committed)[j]? = some u →
      (w.txns.set i .committed)[k]? = some v → j ≠ k → Apart u v := by
    refine apart_set hw ?_
    intro j u _ _
    exact ⟨fun f hf => absurd hf (by simp [Txn.lockedFact]),
      fun id hid => absurd hid (by simp [ownIds])⟩
  have hothers : ∀ u ∈ w.txns.set i .committed, u = .committed ∨ Apart u t ∧ u ∈ w.txns := by
    intro u hu
    obtain ⟨j, hj⟩ := List.mem_iff_getElem?.mp hu
    rw [List.getElem?_set] at hj
    split at hj
    · split at hj
      · exact Or.inl (Option.some.inj hj).symm
      · exact absurd hj (by simp)
    · rename_i hij
      exact Or.inr ⟨(hw.apart i j t u ht hj hij).symm, List.mem_of_getElem? hj⟩
  unfold Txn.commit at hcommit
  split at hcommit
  · rename_i ctx now d write
    obtain rfl := Option.some.inj hcommit
    refine ⟨hw.sound.apply hest, ?_, ?_, hapart, ?_⟩
    · intro id hid
      rcases mem_committedIds_apply hid with hid | hid
      · exact hw.committed id hid
      · exact (hw.own _ hmem id hid).1
    · intro u hu id hid
      rcases hothers u hu with rfl | ⟨hut, hu⟩
      · exact absurd hid (by simp [ownIds])
      · refine ⟨(hw.own u hu id hid).1, ?_⟩
        intro hcommitted
        rcases mem_committedIds_apply hcommitted with hc | hc
        · exact (hw.own u hu id hid).2 hc
        · exact hut.ids id hid hc
    · intro u hu
      rcases hothers u hu with rfl | ⟨hut, hu⟩
      · trivial
      · exact established_apply hw.sound hest (hw.established u hu)
          (fun hlock => hut.locks _ hlock rfl) hut.ids
  · rename_i ctx now request write
    obtain rfl := Option.some.inj hcommit
    refine ⟨Sound.revoke hw.sound write, hw.committed, ?_, hapart, ?_⟩
    · intro u hu id hid
      rcases hothers u hu with rfl | ⟨-, hu⟩
      · exact absurd hid (by simp [ownIds])
      · exact hw.own u hu id hid
    · intro u hu
      rcases hothers u hu with rfl | ⟨hut, hu⟩
      · trivial
      · exact established_revoke hw.sound hest (hw.established u hu)
          (fun hlock => hut.locks _ hlock rfl)
  · exact absurd hcommit (by simp)

theorem consistent_begin {w : World} (hw : Consistent w) {t : Txn} (hids : ownIds t = [])
    (hlock : t.lockedFact = none) (hest : Established w.db t) (named : List Uuid)
    (clock : Instant) :
    Consistent { w with txns := w.txns ++ [t], drawn := named ++ w.drawn, clock := clock } := by
  refine ⟨hw.sound, fun id hid => List.mem_append_right _ (hw.committed id hid), ?_, ?_, ?_⟩
  · intro u hu id hid
    rcases List.mem_append.mp hu with hu | hu
    · exact ⟨List.mem_append_right _ (hw.own u hu id hid).1, (hw.own u hu id hid).2⟩
    · obtain rfl : u = t := by simpa using hu
      exact absurd hid (by simp [hids])
  · have hnew (u : Txn) : Apart t u :=
      ⟨fun f hf => absurd hf (by simp [hlock]), fun id hid => absurd hid (by simp [hids])⟩
    have hget {j : ℕ} {u : Txn} (hu : (w.txns ++ [t])[j]? = some u) :
        w.txns[j]? = some u ∨ (u = t ∧ j = w.txns.length) := by
      rw [List.getElem?_append] at hu
      split at hu
      · exact Or.inl hu
      · have hlt := (List.getElem?_eq_some_iff.mp hu).1
        simp only [List.length_singleton] at hlt
        refine Or.inr ⟨?_, by omega⟩
        have hzero : j - w.txns.length = 0 := by omega
        rw [hzero] at hu
        simpa using hu.symm
    intro j k u v hu hv hjk
    rcases hget hu with hu | ⟨rfl, hj⟩
    · rcases hget hv with hv | ⟨rfl, hk⟩
      · exact hw.apart j k u v hu hv hjk
      · exact (hnew u).symm
    · exact hnew v
  · intro u hu
    rcases List.mem_append.mp hu with hu | hu
    · exact hw.established u hu
    · obtain rfl : u = t := by simpa using hu
      exact hest

/-- A request that fails validation never opens a transaction. -/
theorem consistent_beginResult {α : Type} {w : World} (hw : Consistent w) {x : Result α}
    {next : α → Txn} (hx : Unconstrained x) (hids : ∀ a, ownIds (next a) = [])
    (hlock : ∀ a, (next a).lockedFact = none) (hest : ∀ a, Established w.db (next a))
    (named : List Uuid) (clock : Instant) :
    Consistent { w with txns := w.txns ++ [orRollBack x next], drawn := named ++ w.drawn
                        clock := clock } := by
  cases x with
  | ok a => exact consistent_begin hw (hids a) (hlock a) (hest a) named clock
  | error failure =>
    refine consistent_begin hw rfl rfl ?_ named clock
    intro name hname
    exact hx name (by rw [Option.some.inj hname])

/-- Every step of every transaction keeps the invariant. -/
theorem consistent_step {rt : Runtime} {w w' : World} {e : Event} (hw : Consistent w)
    (h : step rt w e = some w') : Consistent w' := by
  cases step_cases h with
  | recording ctx command haction =>
    refine consistent_beginResult hw (unconstrained_draft rt command) ?_ ?_ ?_ [] e.clock
    · exact fun d => rfl
    · exact fun d => rfl
    · exact fun d => trivial
  | revoking ctx factId versionId reason haction =>
    refine consistent_beginResult hw (unconstrained_revokeRequest factId versionId reason)
      ?_ ?_ ?_ versionId.toList e.clock
    · exact fun request => rfl
    · exact fun request => rfl
    · exact fun request => trivial
  | moved i m t t' haction ht hready hstep => exact consistent_move hw ht hready hstep
  | committed i t db haction ht hcommit => exact consistent_commit hw ht hcommit
  | answered org entityId factId validAt knownAt haction hle =>
    exact ⟨hw.sound, hw.committed, hw.own, hw.apart, hw.established⟩

theorem reachable_consistent {rt : Runtime} {w : World} (h : (system rt).Reachable w) :
    Consistent w :=
  (system rt).reachable_invariant Consistent (fun _ hs => Start.consistent hs)
    (fun _ _ _ hw hstep => consistent_step hw hstep) h

end ContextLedger.Isolation

import ContextLedger.Fusion
import ContextLedger.PeriodAgreement
import ContextLedger.ReceiptRows

/-!
What a search that computes its answer returns. The branches may rank the
versions that pass the hard filters in any way and leave out any of them: the
filters, the rows read for what they found, and the fusion make sure of the rest.
A version that was recorded has one fact, one entity and a source, so no lookup
misses, and of one fact at most one version is valid at T as known at K.
-/
namespace ContextLedger.SearchSoundness

open Values Validation Authorization Schema Facts VersionChain VersionTable Recording Reference
open TemporalEngine Revocations Concurrent Isolation PeriodAgreement ReceiptRows Retrieval Fusion

/-- What the joins of a search rely on: entity ids are a primary key, and every version has
its source. -/
structure Joined (db : Database) : Prop where
  entityIds : (db.entities.map Entity.id).Nodup
  sourceOf : ∀ v ∈ db.versions, ∃ s ∈ db.sources,
    s.organizationId = v.organizationId ∧ s.id = v.sourceId

theorem Joined.apply {db : Database} (h : Joined db) {write : VersionWrite}
    (happ : Appends db write) (hfresh : ∀ id ∈ writeIds write, id ∉ committedIds db) :
    Joined (write.apply db) := by
  refine ⟨?_, ?_⟩
  · rw [apply_entities, List.map_append, List.nodup_append']
    refine ⟨h.entityIds, ?_, ?_⟩
    · cases write.entity <;> simp
    · intro id hid hnew
      refine hfresh id ?_ ?_
      · simp only [writeIds, List.mem_append]
        exact Or.inl (Or.inl hnew)
      · simp only [committedIds, List.mem_append]
        exact Or.inl (Or.inl hid)
  · intro v hv
    rw [apply_versions, List.mem_append, List.mem_singleton] at hv
    rw [apply_sources]
    rcases hv with hv | rfl
    · obtain ⟨u, hu, rfl⟩ := List.mem_map.mp hv
      rw [touched_organizationId, touched_sourceId]
      exact h.sourceOf u hu
    · exact happ.source

theorem joined_commit {w : World} (hw : Consistent w) (h : Joined w.db) {t : Txn}
    (ht : t ∈ w.txns) {db : Database} (hcommit : t.commit w.db = some db) : Joined db := by
  have hest := hw.established t ht
  have hown := hw.own t ht
  unfold Txn.commit at hcommit
  split at hcommit
  · obtain rfl := Option.some.inj hcommit
    exact h.apply hest fun id hid => (hown id hid).2
  · obtain rfl := Option.some.inj hcommit
    exact ⟨h.entityIds, h.sourceOf⟩
  · exact absurd hcommit (by simp)

theorem joined_step {rt : Runtime} {w w' : World} {e : Event} (hw : Consistent w)
    (hjoined : Joined w.db) (h : step rt w e = some w') : Joined w'.db := by
  cases step_cases h with
  | recording ctx command haction => exact hjoined
  | revoking ctx factId versionId reason haction => exact hjoined
  | moved i m t t' haction ht hready hstep => exact hjoined
  | committed i t db haction ht hcommit =>
    exact joined_commit hw hjoined (List.mem_of_getElem? ht) hcommit
  | answered org entityId factId validAt knownAt haction hle => exact hjoined

theorem reachable_joined {rt : Runtime} {w : World} (h : (system rt).Reachable w) :
    Consistent w ∧ Joined w.db :=
  (system rt).reachable_invariant (fun w => Consistent w ∧ Joined w.db)
    (fun _ hs => ⟨Start.consistent hs, by simp [hs.entities], by simp [hs.db.versions]⟩)
    (fun _ _ _ hw hstep => ⟨consistent_step hw.1 hstep, joined_step hw.1 hw.2 hstep⟩) h

/-- What the ranking branches find: any hits of versions that pass the hard filters. -/
structure Branches (db : Database) (org : Uuid) where
  vectorHits : Prepared → List PrivacyScope → List Hit
  textHits : Prepared → List PrivacyScope → List Hit
  vectorUsed : Prepared → Bool
  modelId : String
  filtered : ∀ p scopes, ∀ hit ∈ vectorHits p scopes ++ textHits p scopes,
    ∃ v ∈ scopedVersions db org p.validAt p.knownAt scopes p.filters, v.id = hit.factVersionId

/-- The branches of an index take the best hits of the versions that pass. -/
def indexBranches (db : Database) (org : Uuid) (index : SearchIndex) : Branches db org where
  vectorHits p scopes := (index.embed p.query).elim [] fun vector =>
    ((branchHits (scopedVersions db org p.validAt p.knownAt scopes p.filters)
      (index.distance vector index.modelId)).insertionSort NearerFirst).take
        (candidatePoolSize p.limit)
  textHits p scopes :=
    ((branchHits (scopedVersions db org p.validAt p.knownAt scopes p.filters)
      (index.textScore p.query)).insertionSort HigherFirst).take (candidatePoolSize p.limit)
  vectorUsed p := (index.embed p.query).isSome
  modelId := index.modelId
  filtered p scopes hit hhit := by
    rcases List.mem_append.mp hhit with hhit | hhit
    · cases hembed : index.embed p.query with
      | none => simp [hembed] at hhit
      | some vector =>
        rw [hembed] at hhit
        exact mem_bestHits hhit
    · exact mem_bestHits hhit

def Branches.ids {db : Database} {org : Uuid} (branches : Branches db org) (p : Prepared)
    (scopes : List PrivacyScope) : List Uuid :=
  sortedUuids ((branches.vectorHits p scopes ++ branches.textHits p scopes).map Hit.factVersionId)

/-- The rows read for what the branches found. -/
def Branches.rows {db : Database} {org : Uuid} (branches : Branches db org) (p : Prepared)
    (scopes : List PrivacyScope) : List HydratedVersion :=
  hydrate db org (branches.ids p scopes)

def trustOf (rows : List HydratedVersion) (id : Uuid) : ℚ :=
  (rowOf rows id).elim 0 fun row => trustScore row.version.authority row.version.confidence

/-- A ranked candidate with its row. -/
def retrieved (knownAt : Option Instant) (rows : List HydratedVersion) (c : RankedCandidate) :
    Result RetrievedFact :=
  match rowOf rows c.factVersionId with
  | none => .error .keyError
  | some row => .ok
    { version := asKnown knownAt (toSnapshot row.version)
      entityType := row.entityType
      externalId := row.externalId
      property := row.property
      sourceName := row.sourceName
      sourceType := row.sourceType
      ranking := c }

def Branches.ranked {db : Database} {org : Uuid} (branches : Branches db org) (p : Prepared)
    (scopes : List PrivacyScope) : List RankedCandidate :=
  fuse (branches.vectorHits p scopes) (branches.textHits p scopes)
    (trustOf (branches.rows p scopes)) (FloatText.magnitude p.trustWeight) defaultRrfK

/-- The transaction and the fusion, whatever the branches found. -/
def computeOver (db : Database) (ctx : TenantContext) (p : Prepared)
    (branches : Branches db ctx.organizationId) (cache : CacheStatus) :
    Result RetrievalResult := do
  let role ← requirePermission db ctx .readFacts
  let scopes := visiblePrivacyScopes role [p.request.maxPrivacyScope, ctx.maxPrivacyScope]
  if Jsonb.hasNul p.query then .error .unstorableText
  let results ← ((branches.ranked p scopes).take p.limit).mapM
    (retrieved p.knownAt (branches.rows p scopes))
  return { query := p.query
           validAt := p.validAt
           knownAt := p.knownAt
           vectorUsed := branches.vectorUsed p
           embeddingModel := branches.modelId
           privacyScopes := privacyOrder.filter scopes.contains
           vectorCandidates := (branches.vectorHits p scopes).length
           textCandidates := (branches.textHits p scopes).length
           results
           cache }

/-- A search that finds nothing in the cache. `before` is the database its role is first read
in, and `db` the snapshot of its transaction. -/
def searchOver (rt : Runtime) (before db : Database) (ctx : TenantContext)
    (request : RetrievalQuery) (clock : Instant) (branches : Branches db ctx.organizationId)
    (cache : CacheStatus) : Result RetrievalResult := do
  let p ← prepare rt request clock
  let _ ← requirePermission before ctx .readFacts
  computeOver db ctx p branches cache

theorem compute_eq (db : Database) (ctx : TenantContext) (p : Prepared) (index : SearchIndex)
    (cache : CacheStatus) : compute db ctx p index cache =
      computeOver db ctx p (indexBranches db ctx.organizationId index) cache := rfl

theorem search_eq (rt : Runtime) (db : Database) (ctx : TenantContext) (request : RetrievalQuery)
    (clock : Instant) (index : SearchIndex) : search rt db ctx request clock index =
      searchOver rt db db ctx request clock (indexBranches db ctx.organizationId index) .off := rfl

section Rows

variable {db : Database}

theorem mem_scopedVersions_iff {org : Uuid} {t : Instant} {k : Option Instant}
    {scopes : List PrivacyScope} {filters : RetrievalFilters} {v : FactVersion} :
    v ∈ scopedVersions db org t k scopes filters ↔
      v ∈ db.versions ∧ v.organizationId = org ∧ validAtCondition db t k v = some true ∧
        v.privacyScope ∈ scopes ∧ ∃ row ∈ joinedTo db v, filters.accept v row.1 row.2 = true := by
  rw [scopedVersions, List.mem_flatMap]
  constructor
  · rintro ⟨u, hu, hv⟩
    by_cases hkept : u.organizationId = org ∧ validAtCondition db t k u = some true ∧
        u.privacyScope ∈ scopes
    · rw [if_pos hkept] at hv
      obtain ⟨row, hrow, rfl⟩ := List.mem_map.mp hv
      obtain ⟨hjoined, haccept⟩ := List.mem_filter.mp hrow
      exact ⟨hu, hkept.1, hkept.2.1, hkept.2.2, row, hjoined, haccept⟩
    · rw [if_neg hkept] at hv
      exact absurd hv List.not_mem_nil
  · rintro ⟨hv, horg, hvalid, hscope, row, hrow, haccept⟩
    refine ⟨v, hv, ?_⟩
    rw [if_pos ⟨horg, hvalid, hscope⟩]
    exact List.mem_map.mpr ⟨row, List.mem_filter.mpr ⟨hrow, haccept⟩, rfl⟩

/-- A version joins one fact and one entity. -/
theorem eq_of_mem_joinedTo (hsound : Sound db) (hjoined : Joined db) {v : FactVersion}
    {row row' : Fact × Entity} (h : row ∈ joinedTo db v) (h' : row' ∈ joinedTo db v) :
    row = row' := by
  obtain ⟨⟨hf, -, hfid⟩, he, -, heid⟩ := mem_joinedTo.mp h
  obtain ⟨⟨hf', -, hfid'⟩, he', -, heid'⟩ := mem_joinedTo.mp h'
  have hfact : row.1 = row'.1 :=
    List.inj_on_of_nodup_map hsound.factIds hf hf' (hfid.trans hfid'.symm)
  have hentity : row.2 = row'.2 := by
    refine List.inj_on_of_nodup_map hjoined.entityIds he he' ?_
    rw [heid, heid', hfact]
  exact Prod.ext hfact hentity

/-- The row of a version that joins a fact and an entity is found, and shows them. -/
theorem rowOf_hydrate (hsound : Sound db) (hjoined : Joined db) {ids : List Uuid}
    {v : FactVersion} (hv : v ∈ db.versions) {joined : Fact × Entity}
    (hrow : joined ∈ joinedTo db v) (hid : v.id ∈ ids) :
    ∃ row, rowOf (hydrate db v.organizationId ids) v.id = some row ∧ row.version = v ∧
      row.property = joined.1.property ∧ row.entityType = joined.2.entityType ∧
        row.externalId = joined.2.externalId := by
  obtain ⟨s, hs, hsorg, hsid⟩ := hjoined.sourceOf v hv
  have hread : ⟨v, joined.1.property, joined.2.entityType, joined.2.externalId, s.name,
      s.sourceType⟩ ∈ hydrate db v.organizationId ids := by
    refine List.mem_flatMap.mpr ⟨v, ?_, List.mem_flatMap.mpr ⟨joined, hrow, ?_⟩⟩
    · simp only [List.mem_filter, Bool.and_eq_true, beq_iff_eq, List.contains_iff_mem]
      exact ⟨hv, trivial, hid⟩
    · refine List.mem_map.mpr ⟨s, ?_, rfl⟩
      simp only [List.mem_filter, Bool.and_eq_true, beq_iff_eq]
      exact ⟨hs, hsorg, hsid⟩
  have hfound : (rowOf (hydrate db v.organizationId ids) v.id).isSome = true := by
    rw [rowOf, List.find?_isSome]
    exact ⟨_, List.mem_reverse.mpr hread, beq_iff_eq.mpr rfl⟩
  obtain ⟨row, hfind⟩ := Option.isSome_iff_exists.mp hfound
  obtain ⟨hmem, hrowId⟩ := rowOf_mem hfind
  obtain ⟨u, hu, hshown⟩ := List.mem_flatMap.mp hmem
  obtain ⟨joined', hjoined', hshown⟩ := List.mem_flatMap.mp hshown
  obtain ⟨s', -, rfl⟩ := List.mem_map.mp hshown
  have hsame : u = v :=
    List.inj_on_of_nodup_map hsound.versionIds (List.mem_of_mem_filter hu) hv hrowId
  rw [hsame] at hjoined'
  obtain rfl := eq_of_mem_joinedTo hsound hjoined hjoined' hrow
  exact ⟨_, hfind, hsame, rfl, rfl, rfl⟩

end Rows

/-- What every version that a search returns is: a version of the caller's organization, as it
looked at K, that passes each hard filter. -/
structure Passes (db : Database) (ctx : TenantContext) (role : MembershipRole) (p : Prepared)
    (f : RetrievedFact) : Prop where
  version : ∃ v ∈ db.versions, v.organizationId = ctx.organizationId ∧
    notRevoked db p.knownAt v = true ∧ f.version = asKnown p.knownAt (toSnapshot v)
  privacyScope : f.version.privacyScope ∈
    visiblePrivacyScopes role [p.request.maxPrivacyScope, ctx.maxPrivacyScope]
  entityType : ∀ t, p.filters.entityType = some t → f.entityType = t.1
  externalId : p.filters.externalIds = [] ∨ f.externalId ∈ p.filters.externalIds
  property : p.filters.properties = [] ∨ f.property ∈ p.filters.properties
  sourceId : p.filters.sourceIds = [] ∨ f.version.sourceId ∈ p.filters.sourceIds
  authority : ∀ a, p.filters.minAuthority = some a → a ≤ f.version.authority
  confidence : ∀ c, p.filters.minConfidence = some c →
    c.value * 1000 ≤ (f.version.confidence : ℚ)
  valid : isValidAt p.validAt f.version = true
  recorded : ∀ k, p.knownAt = some k → f.version.recordedAt ≤ k

/-- Only the end of a version depends on what was known. -/
theorem asKnown_fields (k : Option Instant) (v : VersionSnapshot) :
    (asKnown k v).factId = v.factId ∧ (asKnown k v).sourceId = v.sourceId ∧
      (asKnown k v).authority = v.authority ∧ (asKnown k v).confidence = v.confidence ∧
      (asKnown k v).recordedAt = v.recordedAt := by
  unfold asKnown
  split
  · split
    · exact ⟨rfl, rfl, rfl, rfl, rfl⟩
    · exact ⟨rfl, rfl, rfl, rfl, rfl⟩
  · exact ⟨rfl, rfl, rfl, rfl, rfl⟩

theorem accept_iff {filters : RetrievalFilters} {v : FactVersion} {f : Fact} {e : Entity} :
    filters.accept v f e = true ↔
      (∀ t, filters.entityType = some t → e.entityType = t.1) ∧
      (filters.externalIds = [] ∨ e.externalId ∈ filters.externalIds) ∧
      (filters.properties = [] ∨ f.property ∈ filters.properties) ∧
      (filters.sourceIds = [] ∨ v.sourceId ∈ filters.sourceIds) ∧
      (∀ a, filters.minAuthority = some a → a ≤ v.authority) ∧
      ∀ c, filters.minConfidence = some c → c.value * 1000 ≤ (v.confidence : ℚ) := by
  simp only [RetrievalFilters.accept, Bool.and_eq_true, Bool.or_eq_true, Option.all_eq_true,
    beq_iff_eq, List.isEmpty_iff, List.contains_iff_mem, decide_eq_true_iff, and_assoc]

section Search

variable {db : Database} {ctx : TenantContext}
variable (branches : Branches db ctx.organizationId) (p : Prepared) (scopes : List PrivacyScope)

theorem mem_ids_of_ranked {c : RankedCandidate} (h : c ∈ branches.ranked p scopes) :
    ∃ hit ∈ branches.vectorHits p scopes ++ branches.textHits p scopes,
      hit.factVersionId = c.factVersionId := by
  have hid := (mem_fusedIds _ _).mp ((mem_fuse _ _ _ _ _).mp h).1
  rw [← List.mem_append, ← List.map_append] at hid
  exact List.mem_map.mp hid

variable (hsound : Sound db) (hjoined : Joined db)

include hsound hjoined

/-- What a branch found has its row, of a version that passes the hard filters. -/
theorem rowOf_hit {hit : Hit}
    (hhit : hit ∈ branches.vectorHits p scopes ++ branches.textHits p scopes) :
    ∃ row, rowOf (branches.rows p scopes) hit.factVersionId = some row ∧
      row.version.id = hit.factVersionId ∧ row.version ∈ db.versions ∧
      row.version.organizationId = ctx.organizationId ∧
      validAtCondition db p.validAt p.knownAt row.version = some true ∧
      row.version.privacyScope ∈ scopes ∧ ∃ joined, joined ∈ joinedTo db row.version ∧
        p.filters.accept row.version joined.1 joined.2 = true ∧
        row.property = joined.1.property ∧ row.entityType = joined.2.entityType ∧
        row.externalId = joined.2.externalId := by
  obtain ⟨v, hv, hid⟩ := branches.filtered p scopes hit hhit
  obtain ⟨hmem, horg, hvalid, hscope, joined, hrow, haccept⟩ := mem_scopedVersions_iff.mp hv
  have hread : v.id ∈ branches.ids p scopes := by
    rw [hid, Branches.ids, mem_sortedUuids]
    exact List.mem_map_of_mem hhit
  obtain ⟨row, hfind, rfl, hproperty, htype, hexternal⟩ :=
    rowOf_hydrate hsound hjoined hmem hrow hread
  rw [hid, horg] at hfind
  exact ⟨row, hfind, hid, hmem, horg, hvalid, hscope, joined, hrow, haccept, hproperty, htype,
    hexternal⟩

/-- Every ranked candidate becomes a result that passes. -/
theorem retrieved_ok {c : RankedCandidate} (hc : c ∈ branches.ranked p scopes)
    {role : MembershipRole} (hscopes : scopes =
      visiblePrivacyScopes role [p.request.maxPrivacyScope, ctx.maxPrivacyScope]) :
    ∃ f, retrieved p.knownAt (branches.rows p scopes) c = .ok f ∧ Passes db ctx role p f := by
  obtain ⟨hit, hhit, hid⟩ := mem_ids_of_ranked branches p scopes hc
  obtain ⟨row, hfind, -, hmem, horg, hvalid, hscope, joined, -, haccept, hproperty, htype,
    hexternal⟩ := rowOf_hit branches p scopes hsound hjoined hhit
  obtain ⟨hrevoked, hknown, hcontains⟩ := (validAtCondition_iff _ _ _ _).mp hvalid
  obtain ⟨haType, haExternal, haProperty, haSource, haAuthority, haConfidence⟩ :=
    accept_iff.mp haccept
  obtain ⟨-, hsource, hauthority, hconfidence, hrecorded⟩ :=
    asKnown_fields p.knownAt (toSnapshot row.version)
  rw [hid] at hfind
  refine ⟨_, by rw [retrieved, hfind], ?_⟩
  refine ⟨⟨row.version, hmem, horg, hrevoked, rfl⟩, ?_, ?_, ?_, ?_, ?_, ?_, ?_, hcontains, ?_⟩
  · rw [asKnown_privacyScope, ← hscopes]
    exact hscope
  · exact fun t ht => htype.trans (haType t ht)
  · rwa [hexternal]
  · rwa [hproperty]
  · rwa [hsource]
  · rwa [hauthority]
  · rwa [hconfidence]
  · intro k hk
    rw [hrecorded]
    rw [hk] at hknown
    exact of_decide_eq_true hknown

theorem exists_computeOver {role : MembershipRole}
    (hrole : requirePermission db ctx .readFacts = .ok role) (hnul : Jsonb.hasNul p.query = false)
    (cache : CacheStatus) : ∃ result, computeOver db ctx p branches cache = .ok result := by
  have hfound : ∀ c ∈ (branches.ranked p (visiblePrivacyScopes role [p.request.maxPrivacyScope,
      ctx.maxPrivacyScope])).take p.limit, ∃ f, retrieved p.knownAt (branches.rows p
        (visiblePrivacyScopes role [p.request.maxPrivacyScope, ctx.maxPrivacyScope])) c = .ok f := by
    intro c hc
    obtain ⟨f, hf, -⟩ := retrieved_ok branches p _ hsound hjoined (List.mem_of_mem_take hc) rfl
    exact ⟨f, hf⟩
  obtain ⟨results, hresults, -⟩ := mapM_eq_ok_of_forall hfound
  simp only [computeOver, hrole, hnul, hresults, Bind.bind, Except.bind, Bool.false_eq_true,
    if_false]
  exact ⟨_, rfl⟩

omit hjoined in
/-- Two results about one fact are about one version. -/
theorem id_eq_of_passes {role : MembershipRole} {f f' : RetrievedFact}
    (h : Passes db ctx role p f) (h' : Passes db ctx role p f')
    (hfact : f.version.factId = f'.version.factId) : f.version.id = f'.version.id := by
  obtain ⟨v, hv, horg, -, hversion⟩ := h.version
  obtain ⟨v', hv', horg', -, hversion'⟩ := h'.version
  have hfactId (u : FactVersion) : (asKnown p.knownAt (toSnapshot u)).factId = u.factId :=
    (asKnown_fields p.knownAt (toSnapshot u)).1
  have hbelieved (u : FactVersion) {g : RetrievedFact} (hg : Passes db ctx role p g)
      (hgu : g.version = asKnown p.knownAt (toSnapshot u)) :
      believes p.knownAt p.validAt u = true := by
    have hvalid := hg.valid
    have hrecorded := hg.recorded
    rw [hgu] at hvalid hrecorded
    rw [believes, hvalid, Bool.and_true]
    cases hk : p.knownAt with
    | none => rfl
    | some k =>
      have hle := hrecorded k hk
      rw [(asKnown_fields _ _).2.2.2.2] at hle
      exact decide_eq_true hle
  rw [hversion, hversion', hfactId, hfactId] at hfact
  have hfound := (believedAt_eq_some hsound ctx.organizationId v.factId p.knownAt p.validAt).mpr
    ⟨mem_versionsOf.mpr ⟨hv, horg, rfl⟩, hbelieved v h hversion⟩
  have hfound' := (believedAt_eq_some hsound ctx.organizationId v.factId p.knownAt p.validAt).mpr
    ⟨mem_versionsOf.mpr ⟨hv', horg', hfact.symm⟩, hbelieved v' h' hversion'⟩
  rw [hversion, hversion', Option.some.inj (hfound.symm.trans hfound')]

end Search

/-- What is kept of each argument is kept of each result, in order. -/
theorem map_of_mapM_eq_ok {α β γ : Type} {f : α → Result β} {g : α → γ} {g' : β → γ}
    (hkept : ∀ a b, f a = .ok b → g' b = g a) {inputs : List α} {outputs : List β}
    (h : inputs.mapM f = .ok outputs) : outputs.map g' = inputs.map g := by
  induction inputs generalizing outputs with
  | nil =>
    obtain rfl := Except.ok.inj h
    rfl
  | cons a inputs ih =>
    rw [List.mapM_cons] at h
    obtain ⟨first, hfirst, h⟩ := bind_eq_ok.mp h
    obtain ⟨rest, hrest, h⟩ := bind_eq_ok.mp h
    obtain rfl := Except.ok.inj h
    rw [List.map_cons, List.map_cons, hkept a first hfirst, ih hrest]

theorem retrieved_eq_ok {k : Option Instant} {rows : List HydratedVersion} {c : RankedCandidate}
    {f : RetrievedFact} (h : retrieved k rows c = .ok f) : f.version.id = c.factVersionId := by
  unfold retrieved at h
  cases hrow : rowOf rows c.factVersionId with
  | none =>
    rw [hrow] at h
    exact absurd h (by simp)
  | some row =>
    rw [hrow] at h
    obtain rfl := Except.ok.inj h
    exact (asKnown_id _ _).trans (rowOf_mem hrow).2

theorem limit_of_prepare {rt : Runtime} {request : RetrievalQuery} {clock : Instant} {p : Prepared}
    (h : prepare rt request clock = .ok p) : (p.limit : ℤ) = request.limit := by
  unfold prepare at h
  obtain ⟨query, -, h⟩ := bind_eq_ok.mp h
  obtain ⟨limit, hlimit, h⟩ := bind_eq_ok.mp h
  obtain ⟨trustWeight, -, h⟩ := bind_eq_ok.mp h
  obtain ⟨filters, -, h⟩ := bind_eq_ok.mp h
  obtain ⟨validAt, -, h⟩ := bind_eq_ok.mp h
  obtain ⟨knownAt, -, h⟩ := bind_eq_ok.mp h
  obtain rfl := Except.ok.inj h
  rw [validateLimit] at hlimit
  by_cases hbounds : 1 ≤ request.limit ∧ request.limit ≤ maxLimit
  · rw [if_pos hbounds] at hlimit
    obtain rfl := Except.ok.inj hlimit
    exact Int.toNat_of_nonneg (by omega)
  · rw [if_neg hbounds] at hlimit
    exact absurd hlimit (by simp [validationFailed])

/-- What a computed result is made of: the candidates ranked first, each with its row. -/
theorem computeOver_eq_ok {db : Database} {ctx : TenantContext} {p : Prepared}
    {branches : Branches db ctx.organizationId} {cache : CacheStatus} {result : RetrievalResult}
    (h : computeOver db ctx p branches cache = .ok result) :
    ∃ role, requirePermission db ctx .readFacts = .ok role ∧
      ((branches.ranked p (visiblePrivacyScopes role [p.request.maxPrivacyScope,
        ctx.maxPrivacyScope])).take p.limit).mapM (retrieved p.knownAt (branches.rows p
          (visiblePrivacyScopes role [p.request.maxPrivacyScope, ctx.maxPrivacyScope]))) =
        .ok result.results := by
  unfold computeOver at h
  obtain ⟨role, hrole, h⟩ := bind_eq_ok.mp h
  cases hnul : Jsonb.hasNul p.query with
  | true => simp [hnul, Bind.bind, Except.bind] at h
  | false =>
    simp only [hnul, Bool.false_eq_true, if_false] at h
    obtain ⟨-, -, h⟩ := bind_eq_ok.mp h
    obtain ⟨results, hresults, h⟩ := bind_eq_ok.mp h
    obtain rfl := Except.ok.inj h
    exact ⟨role, hrole, hresults⟩

/-- In every reachable state a search that computes its answer misses no row, and what it returns
is at most as many versions as asked for, of different facts, which all pass. -/
theorem search_sound (rt : Runtime) (w : World) (h : (system rt).Reachable w) (before : Database)
    (ctx : TenantContext) (request : RetrievalQuery) (clock : Instant)
    (branches : Branches w.db ctx.organizationId) (cache : CacheStatus) :
    (∀ p scopes, ∀ hit ∈ branches.vectorHits p scopes ++ branches.textHits p scopes,
      (rowOf (branches.rows p scopes) hit.factVersionId).isSome = true) ∧
    (∀ p first role, prepare rt request clock = .ok p →
      requirePermission before ctx .readFacts = .ok first →
      requirePermission w.db ctx .readFacts = .ok role → Jsonb.hasNul p.query = false →
      ∃ result, searchOver rt before w.db ctx request clock branches cache = .ok result) ∧
    ∀ result, searchOver rt before w.db ctx request clock branches cache = .ok result →
      (result.results.length : ℤ) ≤ request.limit ∧
      (result.results.map fun f => f.version.id).Nodup ∧
      (result.results.map fun f => f.version.factId).Nodup ∧
      ∃ p role, prepare rt request clock = .ok p ∧
        requirePermission w.db ctx .readFacts = .ok role ∧
        ∀ f ∈ result.results, Passes w.db ctx role p f := by
  obtain ⟨hconsistent, hjoined⟩ := reachable_joined h
  have hsound := hconsistent.sound
  refine ⟨?_, ?_, ?_⟩
  · intro p scopes hit hhit
    obtain ⟨row, hrow, -⟩ := rowOf_hit branches p scopes hsound hjoined hhit
    rw [hrow]
    rfl
  · intro p first role hp hfirst hrole hnul
    obtain ⟨result, hresult⟩ := exists_computeOver branches p hsound hjoined hrole hnul cache
    exact ⟨result, bind_eq_ok.mpr ⟨p, hp, bind_eq_ok.mpr ⟨first, hfirst, hresult⟩⟩⟩
  · intro result hresult
    obtain ⟨p, hp, hresult⟩ := bind_eq_ok.mp hresult
    obtain ⟨-, -, hresult⟩ := bind_eq_ok.mp hresult
    obtain ⟨role, hrole, hresults⟩ := computeOver_eq_ok hresult
    have hids := map_of_mapM_eq_ok (fun _ _ => retrieved_eq_ok) hresults
    have hpasses : ∀ f ∈ result.results, Passes w.db ctx role p f := by
      intro f hf
      obtain ⟨c, hc, hcf⟩ := mem_of_mapM_eq_ok hresults hf
      obtain ⟨g, hg, hpass⟩ := retrieved_ok branches p _ hsound hjoined
        (List.mem_of_mem_take hc) rfl
      rw [hcf] at hg
      rwa [Except.ok.inj hg]
    have hversions : (result.results.map fun f => f.version.id).Nodup := by
      rw [hids]
      exact (ids_fuse_nodup _ _ _ _ _).sublist ((List.take_sublist _ _).map _)
    refine ⟨?_, hversions, ?_, p, role, hp, hrole, hpasses⟩
    · have hlength := congrArg List.length hids
      rw [List.length_map, List.length_map, List.length_take] at hlength
      rw [← limit_of_prepare hp]
      omega
    · rw [List.Nodup, List.pairwise_map] at hversions ⊢
      refine hversions.imp_of_mem fun hf hf' hne hfact => hne ?_
      exact id_eq_of_passes p hsound (hpasses _ hf) (hpasses _ hf') hfact

/-- The vector branch finds every version. -/
def exampleIndex : SearchIndex :=
  ⟨"hash-v1", fun _ => some [1], fun _ _ => none, fun _ _ id => some id.toNat⟩

def exampleBranches : Branches exampleFinal.db exampleContext.organizationId :=
  indexBranches exampleFinal.db exampleContext.organizationId exampleIndex

theorem search_sound_example :
    ((searchOver exampleRuntime exampleFinal.db exampleFinal.db exampleContext
        (exampleQuery (some 14)) 7 exampleBranches .off).toOption.map fun result =>
          result.results.map fun f => (f.version.id, f.version.validUntil)) =
        some [(12, none)] ∧
      ∀ result, searchOver exampleRuntime exampleFinal.db exampleFinal.db exampleContext
        (exampleQuery (some 14)) 7 exampleBranches .off = .ok result →
          (result.results.length : ℤ) ≤ (exampleQuery (some 14)).limit :=
  ⟨by decide +kernel, fun result hresult =>
    ((search_sound exampleRuntime exampleFinal exampleFinal_reachable exampleFinal.db
      exampleContext (exampleQuery (some 14)) 7 exampleBranches .off).2.2 result hresult).1⟩

end ContextLedger.SearchSoundness

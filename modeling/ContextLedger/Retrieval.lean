import ContextLedger.TemporalEngine

/-!
Hybrid retrieval. A request is validated, the caller's role is read, and in one
snapshot of the database the role is read again, two branches rank the versions
that pass the hard filters, and the rankings are fused. The full text index and
the embeddings are outside: they are given by the scores they assign, and a
version without a score is one its branch does not return. Scores are exact
rationals.
-/
namespace ContextLedger.Retrieval

open Numerals JsonText Values Validation Authorization Schema Facts Reference TemporalEngine

def maxQueryChars : ℕ := 1000

def maxLimit : ℤ := 50

def defaultRrfK : ℕ := 60

def maxFilterValues : ℕ := 100

/-- A finite decimal as it was written: `coefficient * 10 ^ exponent`. -/
structure Decimal where
  negative : Bool
  coefficient : ℕ
  exponent : ℤ
  deriving DecidableEq

namespace Decimal

def value (d : Decimal) : ℚ :=
  (if d.negative then -1 else 1) * d.coefficient * 10 ^ d.exponent

/-- Positional for small exponents, with an exponent otherwise. -/
def text (d : Decimal) : String :=
  let ds := digits d.coefficient
  let left : ℤ := d.exponent + ds.length
  let point : ℤ := if d.exponent ≤ 0 ∧ -6 < left then left else 1
  let body :=
    if point ≤ 0 then '0' :: '.' :: (List.replicate point.natAbs '0' ++ ds)
    else if (ds.length : ℤ) ≤ point then ds ++ List.replicate (point.toNat - ds.length) '0'
    else ds.take point.toNat ++ '.' :: ds.drop point.toNat
  let power := left - point
  let exponent :=
    if power = 0 then []
    else 'E' :: (if power < 0 then '-' else '+') :: digits power.natAbs
  String.ofList ((if d.negative then ['-'] else []) ++ body ++ exponent)

end Decimal

/-- What `Decimal(str(value))` makes of an argument. -/
inductive DecimalValue where
  | finite (d : Decimal)
  | infinite (negative : Bool)
  | nan
  | malformed

/-- A number in a request, as text and as a decimal. -/
structure DecimalArgument where
  text : String
  value : DecimalValue

structure RetrievalQuery where
  query : String
  limit : ℤ
  validAt : Option Datetime
  knownAt : Option Datetime
  entityType : Option String
  externalIds : List String
  properties : List String
  sourceIds : List Uuid
  minAuthority : Option ℤ
  minConfidence : Option DecimalArgument
  maxPrivacyScope : Option PrivacyScope
  trustWeight : PyFloat

structure RetrievalFilters where
  entityType : Option Identifier
  externalIds : List String
  properties : List String
  sourceIds : List Uuid
  minAuthority : Option ℤ
  minConfidence : Option Decimal

/-- Each run of white space becomes one space. -/
def collapseSpace : List Char → List Char
  | [] => []
  | c :: rest =>
    if isSpace c then
      match collapseSpace rest with
      | ' ' :: more => ' ' :: more
      | more => ' ' :: more
    else c :: collapseSpace rest

def normalizeQuery (query : String) : Result String :=
  let cleaned := strip (String.ofList (collapseSpace query.toList))
  if cleaned = "" then validationFailed "query must not be empty"
  else if maxQueryChars < cleaned.length then
    validationFailed ("query must be at most " ++ natText maxQueryChars ++ " characters")
  else .ok cleaned

def validateLimit (limit : ℤ) : Result ℕ :=
  if 1 ≤ limit ∧ limit ≤ maxLimit then .ok limit.toNat
  else validationFailed ("limit must be between 1 and " ++ natText maxLimit.toNat)

/-- `0.0 <= weight <= 1.0`; a negative zero passes, a NaN does not. -/
def validateTrustWeight : PyFloat → Result FloatText.Binary64
  | .finite x =>
    if (x.negative = true → x.mantissa = 0) ∧ FloatText.magnitude x ≤ 1 then .ok x
    else validationFailed "trust_weight must be between 0 and 1"
  | _ => validationFailed "trust_weight must be between 0 and 1"

def validateMinConfidence : DecimalValue → Result Decimal
  | .finite d =>
    if 0 ≤ d.value ∧ d.value ≤ 1 then .ok d
    else validationFailed "min_confidence must be between 0 and 1"
  | .infinite _ => validationFailed "min_confidence must be between 0 and 1"
  | .nan => .error .invalidOperation
  | .malformed => .error .invalidOperation

/-- `sorted(set(values))` of texts. -/
def sortedTexts (values : List String) : List String := values.dedup.insertionSort (· ≤ ·)

def sortedUuids (values : List Uuid) : List Uuid :=
  values.dedup.insertionSort fun a b => a.toNat ≤ b.toNat

def checkFilterSize (name : String) (size : ℕ) : Result Unit :=
  if maxFilterValues < size then
    validationFailed (name ++ " accepts at most " ++ natText maxFilterValues ++ " values")
  else .ok ()

def normalizeFilters (rt : Runtime) (request : RetrievalQuery) : Result RetrievalFilters := do
  checkFilterSize "external_ids" request.externalIds.length
  checkFilterSize "properties" request.properties.length
  checkFilterSize "source_ids" request.sourceIds.length
  if request.minAuthority.any fun a => !(decide (0 ≤ a) && decide (a ≤ 100)) then
    validationFailed "min_authority must be between 0 and 100"
  let minConfidence ← request.minConfidence.mapM fun c => validateMinConfidence c.value
  let entityType ← request.entityType.mapM fun t => normalizeIdentifier t "entity_type"
  let externalIds ← request.externalIds.mapM (normalizeExternalId rt)
  let properties ← request.properties.mapM fun p => normalizeIdentifier p "property"
  return { entityType
           externalIds := sortedTexts (externalIds.map Subtype.val)
           properties := sortedTexts (properties.map Subtype.val)
           sourceIds := sortedUuids request.sourceIds
           minAuthority := request.minAuthority
           minConfidence }

/-- A request that passed validation; the instants keep the form they came in. -/
structure Prepared where
  query : String
  limit : ℕ
  trustWeight : FloatText.Binary64
  filters : RetrievalFilters
  validAt : Instant
  knownAt : Option Instant
  request : RetrievalQuery

/-- `clock` is the service's own clock, for questions about now. -/
def prepare (rt : Runtime) (request : RetrievalQuery) (clock : Instant) : Result Prepared := do
  let query ← normalizeQuery request.query
  let limit ← validateLimit request.limit
  let trustWeight ← validateTrustWeight request.trustWeight
  let filters ← normalizeFilters rt request
  let validAt ← (match request.validAt with
    | some value => requireAware value "valid_at"
    | none => .ok clock)
  let knownAt ← requireAwareOption request.knownAt "known_at"
  return { query, limit, trustWeight, filters, validAt, knownAt, request }

/-- How many candidates each branch fetches before fusion. -/
def candidatePoolSize (limit : ℕ) : ℕ := min 200 (max 40 (limit * 4))

def trustScore (authority confidence : ℤ) : ℚ := authority / 100 * (confidence / 1000)

structure Hit where
  factVersionId : Uuid
  score : ℚ
  deriving DecidableEq

/-- The smaller distance first, then the smaller identifier. -/
def NearerFirst (a b : Hit) : Prop :=
  a.score < b.score ∨ (a.score = b.score ∧ a.factVersionId.toNat ≤ b.factVersionId.toNat)

instance : DecidableRel NearerFirst := fun _ _ => inferInstanceAs (Decidable (_ ∨ (_ ∧ _)))

/-- The larger score first, then the smaller identifier. -/
def HigherFirst (a b : Hit) : Prop :=
  b.score < a.score ∨ (a.score = b.score ∧ a.factVersionId.toNat ≤ b.factVersionId.toNat)

instance : DecidableRel HigherFirst := fun _ _ => inferInstanceAs (Decidable (_ ∨ (_ ∧ _)))

/-- Keep each version's best hit; the input is sorted best first. -/
def dedupe : List Hit → List Hit
  | [] => []
  | hit :: hits =>
    hit :: (dedupe hits).filter fun other => other.factVersionId != hit.factVersionId

/-- A version's rank in a branch, from 1, with its hit. -/
def rankOf (hits : List Hit) (id : Uuid) : Option (ℕ × Hit) :=
  (hits.zipIdx 1).findSome? fun entry =>
    if entry.1.factVersionId = id then some (entry.2, entry.1) else none

structure RankedCandidate where
  factVersionId : Uuid
  ranking : Ranking
  deriving DecidableEq

def BetterFirst (a b : RankedCandidate) : Prop :=
  b.ranking.score < a.ranking.score ∨
    (a.ranking.score = b.ranking.score ∧ a.factVersionId.toNat ≤ b.factVersionId.toNat)

instance : DecidableRel BetterFirst := fun _ _ => inferInstanceAs (Decidable (_ ∨ (_ ∧ _)))

/-- Reciprocal rank fusion weighted by trust, best first. -/
def fuse (vectorHits textHits : List Hit) (trust : Uuid → ℚ) (trustWeight : ℚ) (rrfK : ℕ) :
    List RankedCandidate :=
  let vectors := dedupe (vectorHits.insertionSort NearerFirst)
  let texts := dedupe (textHits.insertionSort HigherFirst)
  let ids := ((vectors ++ texts).map Hit.factVersionId).dedup
  let share (rank : Option (ℕ × Hit)) : ℚ := rank.elim 0 fun r => 1 / ((rrfK + r.1 : ℕ) : ℚ)
  let rankedOf (id : Uuid) : RankedCandidate :=
    let v := rankOf vectors id
    let t := rankOf texts id
    let rrf := share v + share t
    { factVersionId := id
      ranking :=
        { score := rrf * ((1 - trustWeight) + trustWeight * trust id)
          rrfScore := rrf
          trust := trust id
          vectorRank := v.map Prod.fst
          vectorDistance := v.map fun r => r.2.score
          textRank := t.map Prod.fst
          textScore := t.map fun r => r.2.score } }
  (ids.map rankedOf).insertionSort BetterFirst

/-- The fact and entity a version joins. -/
def joinedTo (db : Database) (v : FactVersion) : List (Fact × Entity) :=
  (db.facts.filter fun f => f.organizationId == v.organizationId && f.id == v.factId).flatMap
    fun f => (db.entities.filter fun e =>
      e.organizationId == f.organizationId && e.id == f.entityId).map fun e => (f, e)

/-- The metadata filters; an empty list or a missing bound filters nothing. -/
def RetrievalFilters.accept (filters : RetrievalFilters) (v : FactVersion) (f : Fact)
    (e : Entity) : Bool :=
  (filters.entityType.all fun t => e.entityType == t.1) &&
    (filters.externalIds.isEmpty || filters.externalIds.contains e.externalId) &&
    (filters.properties.isEmpty || filters.properties.contains f.property) &&
    (filters.sourceIds.isEmpty || filters.sourceIds.contains v.sourceId) &&
    (filters.minAuthority.all fun a => decide (a ≤ v.authority)) &&
    filters.minConfidence.all fun c => decide (c.value * 1000 ≤ (v.confidence : ℚ))

/-- The versions that pass the hard filters of both branches. -/
def scopedVersions (db : Database) (org : Uuid) (validAt : Instant) (knownAt : Option Instant)
    (scopes : List PrivacyScope) (filters : RetrievalFilters) : List FactVersion :=
  db.versions.flatMap fun v =>
    if v.organizationId = org ∧ validAtCondition db validAt knownAt v = some true ∧
        v.privacyScope ∈ scopes then
      ((joinedTo db v).filter fun row => filters.accept v row.1 row.2).map fun _ => v
    else []

/-- The provider's model and embedding of a question, the full text score of a
version and the distance of its embedding. -/
structure SearchIndex where
  modelId : String
  embed : String → Option (List ℚ)
  textScore : String → Uuid → Option ℚ
  distance : List ℚ → String → Uuid → Option ℚ

def branchHits (rows : List FactVersion) (score : Uuid → Option ℚ) : List Hit :=
  rows.filterMap fun v => (score v.id).map fun s => ⟨v.id, s⟩

structure HydratedVersion where
  version : FactVersion
  property : String
  entityType : String
  externalId : String
  sourceName : String
  sourceType : SourceType

def hydrateRow (db : Database) (v : FactVersion) : List HydratedVersion :=
  (joinedTo db v).flatMap fun row =>
    (db.sources.filter fun s => s.organizationId == v.organizationId && s.id == v.sourceId).map
      fun s => ⟨v, row.1.property, row.2.entityType, row.2.externalId, s.name, s.sourceType⟩

def hydrate (db : Database) (org : Uuid) (ids : List Uuid) : List HydratedVersion :=
  (db.versions.filter fun v => v.organizationId == org && ids.contains v.id).flatMap (hydrateRow db)

/-- The dictionary by version id: of several rows the last one counts. -/
def rowOf (rows : List HydratedVersion) (id : Uuid) : Option HydratedVersion :=
  rows.reverse.find? fun row => row.version.id == id

inductive CacheStatus where
  | hit
  | miss
  | off
  deriving DecidableEq

structure RetrievedFact where
  version : VersionSnapshot
  entityType : String
  externalId : String
  property : String
  sourceName : String
  sourceType : SourceType
  ranking : RankedCandidate

structure RetrievalResult where
  query : String
  validAt : Instant
  knownAt : Option Instant
  vectorUsed : Bool
  embeddingModel : String
  privacyScopes : List PrivacyScope
  vectorCandidates : ℕ
  textCandidates : ℕ
  results : List RetrievedFact
  cache : CacheStatus

def vectorSearchText (used : Bool) : String := if used then "used" else "unavailable"

/-- The read-only transaction and the fusion: the role is read again, and the
scopes it gives are the ones the branches filter by. -/
def compute (db : Database) (ctx : TenantContext) (p : Prepared) (index : SearchIndex)
    (cache : CacheStatus) : Result RetrievalResult := do
  let queryVector := index.embed p.query
  let pool := candidatePoolSize p.limit
  let role ← requirePermission db ctx .readFacts
  let scopes := visiblePrivacyScopes role [p.request.maxPrivacyScope, ctx.maxPrivacyScope]
  if Jsonb.hasNul p.query then .error .unstorableText
  let rows := scopedVersions db ctx.organizationId p.validAt p.knownAt scopes p.filters
  let textHits :=
    ((branchHits rows (index.textScore p.query)).insertionSort HigherFirst).take pool
  let vectorHits := queryVector.elim [] fun vector =>
    ((branchHits rows (index.distance vector index.modelId)).insertionSort NearerFirst).take pool
  let ids := sortedUuids ((vectorHits ++ textHits).map Hit.factVersionId)
  let hydrated := hydrate db ctx.organizationId ids
  let trust (id : Uuid) : ℚ :=
    (rowOf hydrated id).elim 0 fun row => trustScore row.version.authority row.version.confidence
  let ranked := fuse vectorHits textHits trust (FloatText.magnitude p.trustWeight) defaultRrfK
  let results ← (ranked.take p.limit).mapM fun c =>
    match rowOf hydrated c.factVersionId with
    | none => .error .keyError
    | some row => .ok
      { version := asKnown p.knownAt (toSnapshot row.version)
        entityType := row.entityType
        externalId := row.externalId
        property := row.property
        sourceName := row.sourceName
        sourceType := row.sourceType
        ranking := c }
  return { query := p.query
           validAt := p.validAt
           knownAt := p.knownAt
           vectorUsed := queryVector.isSome
           embeddingModel := index.modelId
           privacyScopes := privacyOrder.filter scopes.contains
           vectorCandidates := vectorHits.length
           textCandidates := textHits.length
           results
           cache }

/-- A search without a cache, alone. -/
def search (rt : Runtime) (db : Database) (ctx : TenantContext) (request : RetrievalQuery)
    (clock : Instant) (index : SearchIndex) : Result RetrievalResult := do
  let p ← prepare rt request clock
  let _ ← requirePermission db ctx .readFacts
  compute db ctx p index .off

theorem mem_joinedTo {db : Database} {v : FactVersion} {row : Fact × Entity} :
    row ∈ joinedTo db v ↔ (row.1 ∈ db.facts ∧ row.1.organizationId = v.organizationId ∧
      row.1.id = v.factId) ∧ row.2 ∈ db.entities ∧
        row.2.organizationId = row.1.organizationId ∧ row.2.id = row.1.entityId := by
  obtain ⟨f, e⟩ := row
  simp only [joinedTo, List.mem_flatMap, List.mem_map, List.mem_filter, Bool.and_eq_true,
    beq_iff_eq, Prod.mk.injEq]
  constructor
  · rintro ⟨g, hg, e', he', rfl, rfl⟩
    exact ⟨hg, he'⟩
  · rintro ⟨hf, he⟩
    exact ⟨f, hf, e, he, rfl, rfl⟩

theorem mem_scopedVersions {db : Database} {org : Uuid} {validAt : Instant}
    {knownAt : Option Instant} {scopes : List PrivacyScope} {filters : RetrievalFilters}
    {v : FactVersion} (h : v ∈ scopedVersions db org validAt knownAt scopes filters) :
    v ∈ db.versions ∧ v.organizationId = org ∧ v.privacyScope ∈ scopes := by
  obtain ⟨u, hu, hv⟩ := List.mem_flatMap.mp h
  split at hv
  · rename_i hkept
    obtain ⟨row, -, rfl⟩ := List.mem_map.mp hv
    exact ⟨hu, hkept.1, hkept.2.2⟩
  · exact absurd hv (by simp)

theorem mem_branchHits {rows : List FactVersion} {score : Uuid → Option ℚ} {hit : Hit}
    (h : hit ∈ branchHits rows score) : ∃ v ∈ rows, v.id = hit.factVersionId := by
  obtain ⟨v, hv, hscore⟩ := List.mem_filterMap.mp h
  obtain ⟨s, -, rfl⟩ := Option.map_eq_some_iff.mp hscore
  exact ⟨v, hv, rfl⟩

/-- The best hits of a branch are among its hits. -/
theorem mem_bestHits {rows : List FactVersion} {score : Uuid → Option ℚ} {r : Hit → Hit → Prop}
    [DecidableRel r] {pool : ℕ} {hit : Hit}
    (h : hit ∈ ((branchHits rows score).insertionSort r).take pool) :
    ∃ v ∈ rows, v.id = hit.factVersionId :=
  mem_branchHits ((List.mem_insertionSort r).mp (List.mem_of_mem_take h))

theorem rowOf_mem {rows : List HydratedVersion} {id : Uuid} {row : HydratedVersion}
    (h : rowOf rows id = some row) : row ∈ rows ∧ row.version.id = id := by
  have hkey := List.find?_some h
  exact ⟨List.mem_reverse.mp (List.mem_of_find?_eq_some h), beq_iff_eq.mp hkey⟩

theorem mem_hydrate {db : Database} {org : Uuid} {ids : List Uuid} {row : HydratedVersion}
    (h : row ∈ hydrate db org ids) :
    row.version ∈ db.versions ∧ row.version.organizationId = org ∧ row.version.id ∈ ids := by
  obtain ⟨v, hv, hrow⟩ := List.mem_flatMap.mp h
  obtain ⟨joined, -, hrow⟩ := List.mem_flatMap.mp hrow
  obtain ⟨source, -, rfl⟩ := List.mem_map.mp hrow
  obtain ⟨hmem, hkey⟩ := List.mem_filter.mp hv
  simp only [Bool.and_eq_true, beq_iff_eq, List.contains_iff_mem] at hkey
  exact ⟨hmem, hkey⟩

theorem mem_sortedUuids {values : List Uuid} {id : Uuid} :
    id ∈ sortedUuids values ↔ id ∈ values := by
  rw [sortedUuids, List.mem_insertionSort, List.mem_dedup]

/-- Version ids are a primary key. -/
def VersionKey (db : Database) : Prop := (db.versions.map FactVersion.id).Nodup

instance : DecidablePred VersionKey := fun _ => inferInstanceAs (Decidable (List.Nodup _))

/-- What a computed result is made of: a role that may read, and versions in the
scopes of that role. -/
theorem compute_eq_ok {db : Database} {ctx : TenantContext} {p : Prepared} {index : SearchIndex}
    {cache : CacheStatus} {result : RetrievalResult} (hkey : VersionKey db)
    (h : compute db ctx p index cache = .ok result) :
    ∃ role, requirePermission db ctx .readFacts = .ok role ∧ result.cache = cache ∧
      result.vectorUsed = (index.embed p.query).isSome ∧
      ∀ f ∈ result.results, f.version.privacyScope ∈
        visiblePrivacyScopes role [p.request.maxPrivacyScope, ctx.maxPrivacyScope] := by
  unfold compute at h
  obtain ⟨role, hrole, h⟩ := bind_eq_ok.mp h
  refine ⟨role, hrole, ?_⟩
  split at h
  · exact absurd h (by simp [Bind.bind, Except.bind])
  obtain ⟨-, -, h⟩ := bind_eq_ok.mp h
  obtain ⟨results, hresults, h⟩ := bind_eq_ok.mp h
  obtain rfl := Except.ok.inj h
  refine ⟨rfl, rfl, ?_⟩
  intro f hf
  obtain ⟨c, -, hc⟩ := mem_of_mapM_eq_ok hresults hf
  split at hc
  · exact absurd hc (by simp)
  · rename_i row hrow
    obtain rfl := Except.ok.inj hc
    obtain ⟨hmem, -, hid⟩ := mem_hydrate (rowOf_mem hrow).1
    obtain ⟨hit, hhit, hhitId⟩ := List.mem_map.mp (mem_sortedUuids.mp hid)
    have hscoped : ∃ v ∈ scopedVersions db ctx.organizationId p.validAt p.knownAt
        (visiblePrivacyScopes role [p.request.maxPrivacyScope, ctx.maxPrivacyScope]) p.filters,
        v.id = hit.factVersionId := by
      rcases List.mem_append.mp hhit with hhit | hhit
      · cases hembed : index.embed p.query with
        | none => simp [hembed] at hhit
        | some vector =>
          rw [hembed] at hhit
          exact mem_bestHits hhit
      · exact mem_bestHits hhit
    obtain ⟨v, hv, hvid⟩ := hscoped
    obtain ⟨hvmem, -, hscope⟩ := mem_scopedVersions hv
    have hsame : v = row.version :=
      List.inj_on_of_nodup_map hkey hvmem hmem (hvid.trans hhitId)
    rw [asKnown_privacyScope]
    show row.version.privacyScope ∈ _
    rw [← hsame]
    exact hscope

def exampleQuery (knownAt : Option Instant) : RetrievalQuery where
  query := "active customers"
  limit := 10
  validAt := none
  knownAt := knownAt.map fun t => ⟨t, some 0⟩
  entityType := none
  externalIds := []
  properties := []
  sourceIds := []
  minAuthority := none
  minConfidence := none
  maxPrivacyScope := none
  trustWeight := .finite (FloatText.zero false)

end ContextLedger.Retrieval

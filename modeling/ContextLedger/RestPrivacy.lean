import ContextLedger.RestReads
import ContextLedger.TenantRestriction

/-!
What a reader may not see does not reach the answers. `conceal` takes from every
version and every piece of evidence above the ceiling what it says, and leaves where
it stands in its history. Each service commutes with concealing, and what the
endpoints keep of its result is not concealed at all.
-/
namespace ContextLedger.RestPrivacy

open Values Authorization Schema Facts Reference TemporalEngine Decisions ServiceReads RestReads
open TenantRestriction (filter_map_of_kept)

/-- The value of a version, its source, and how far it is trusted. -/
def concealVersion (scopes : List PrivacyScope) (v : FactVersion) : FactVersion :=
  if scopes.contains v.privacyScope then v
  else { v with value := .null, sourceId := 0, observedAt := 0, authority := 0, confidence := 0 }

/-- What a piece of evidence is and says, and where it can be found. -/
def concealEvidence (scopes : List PrivacyScope) (e : Evidence) : Evidence :=
  if scopes.contains e.privacyScope then e
  else { e with
    evidenceType := .agentOutput, excerpt := "", contentSha256 := "", uri := none
    metadata := .obj [] }

def conceal (scopes : List PrivacyScope) (db : Database) : Database :=
  { db with
    versions := db.versions.map (concealVersion scopes)
    evidence := db.evidence.map (concealEvidence scopes) }

def concealSnapshot (scopes : List PrivacyScope) (v : VersionSnapshot) : VersionSnapshot :=
  if scopes.contains v.privacyScope then v
  else { v with value := .null, sourceId := 0, observedAt := 0, authority := 0, confidence := 0 }

/-- A computation whose last step is mapped gives the mapped result. -/
theorem bind_map {α β : Type} {x : Result α} {f f' : α → Result β} {g : β → β}
    (h : ∀ a, f' a = (f a).map g) : (x >>= f') = (x >>= f).map g := by
  cases x with
  | error failure => rfl
  | ok a => exact h a

/-- A computation whose items are mapped gives the mapped results. -/
theorem mapM_map {α β : Type} {f f' : α → Result β} {g : β → β}
    (h : ∀ a, f' a = (f a).map g) (l : List α) : l.mapM f' = (l.mapM f).map (List.map g) := by
  induction l with
  | nil => rfl
  | cons a l ih =>
    rw [List.mapM_cons, List.mapM_cons, h a, ih]
    cases f a with
    | error failure => rfl
    | ok b => cases l.mapM f <;> rfl

section

variable (scopes : List PrivacyScope)

/-- Concealing changes what a version says and leaves the rest. -/
theorem concealVersion_cases (v : FactVersion) : concealVersion scopes v = v ∨
    concealVersion scopes v =
      { v with value := .null, sourceId := 0, observedAt := 0, authority := 0, confidence := 0 } := by
  unfold concealVersion
  split
  · exact Or.inl rfl
  · exact Or.inr rfl

@[simp] theorem concealVersion_id (v : FactVersion) : (concealVersion scopes v).id = v.id := by
  rcases concealVersion_cases scopes v with h | h <;> rw [h]

@[simp] theorem concealVersion_organizationId (v : FactVersion) :
    (concealVersion scopes v).organizationId = v.organizationId := by
  rcases concealVersion_cases scopes v with h | h <;> rw [h]

@[simp] theorem concealVersion_factId (v : FactVersion) :
    (concealVersion scopes v).factId = v.factId := by
  rcases concealVersion_cases scopes v with h | h <;> rw [h]

@[simp] theorem concealVersion_version (v : FactVersion) :
    (concealVersion scopes v).version = v.version := by
  rcases concealVersion_cases scopes v with h | h <;> rw [h]

@[simp] theorem concealVersion_validFrom (v : FactVersion) :
    (concealVersion scopes v).validFrom = v.validFrom := by
  rcases concealVersion_cases scopes v with h | h <;> rw [h]

@[simp] theorem concealVersion_validUntil (v : FactVersion) :
    (concealVersion scopes v).validUntil = v.validUntil := by
  rcases concealVersion_cases scopes v with h | h <;> rw [h]

@[simp] theorem concealVersion_recordedAt (v : FactVersion) :
    (concealVersion scopes v).recordedAt = v.recordedAt := by
  rcases concealVersion_cases scopes v with h | h <;> rw [h]

@[simp] theorem concealVersion_validUntilRecordedAt (v : FactVersion) :
    (concealVersion scopes v).validUntilRecordedAt = v.validUntilRecordedAt := by
  rcases concealVersion_cases scopes v with h | h <;> rw [h]

@[simp] theorem concealVersion_privacyScope (v : FactVersion) :
    (concealVersion scopes v).privacyScope = v.privacyScope := by
  rcases concealVersion_cases scopes v with h | h <;> rw [h]

/-- It does not matter whether a version or its snapshot is concealed. -/
theorem toSnapshot_concealVersion (v : FactVersion) :
    toSnapshot (concealVersion scopes v) = concealSnapshot scopes (toSnapshot v) := by
  unfold concealVersion concealSnapshot
  by_cases h : scopes.contains v.privacyScope = true
  · rw [if_pos h, if_pos (show scopes.contains (toSnapshot v).privacyScope = true from h)]
  · rw [if_neg h, if_neg (show ¬ scopes.contains (toSnapshot v).privacyScope = true from h)]
    rfl

theorem concealSnapshot_of_visible {v : VersionSnapshot}
    (h : scopes.contains v.privacyScope = true) :
    concealSnapshot scopes v = v := if_pos h

theorem concealSnapshot_cases (v : VersionSnapshot) : concealSnapshot scopes v = v ∨
    concealSnapshot scopes v =
      { v with value := .null, sourceId := 0, observedAt := 0, authority := 0, confidence := 0 } := by
  unfold concealSnapshot
  split
  · exact Or.inl rfl
  · exact Or.inr rfl

@[simp] theorem concealSnapshot_id (v : VersionSnapshot) :
    (concealSnapshot scopes v).id = v.id := by
  rcases concealSnapshot_cases scopes v with h | h <;> rw [h]

@[simp] theorem concealSnapshot_factId (v : VersionSnapshot) :
    (concealSnapshot scopes v).factId = v.factId := by
  rcases concealSnapshot_cases scopes v with h | h <;> rw [h]

@[simp] theorem concealSnapshot_version (v : VersionSnapshot) :
    (concealSnapshot scopes v).version = v.version := by
  rcases concealSnapshot_cases scopes v with h | h <;> rw [h]

@[simp] theorem concealSnapshot_validFrom (v : VersionSnapshot) :
    (concealSnapshot scopes v).validFrom = v.validFrom := by
  rcases concealSnapshot_cases scopes v with h | h <;> rw [h]

@[simp] theorem concealSnapshot_privacyScope (v : VersionSnapshot) :
    (concealSnapshot scopes v).privacyScope = v.privacyScope := by
  rcases concealSnapshot_cases scopes v with h | h <;> rw [h]

theorem isKnown_concealSnapshot (k : Option Instant) (v : VersionSnapshot) :
    isKnown k (concealSnapshot scopes v) = isKnown k v := by
  rcases concealSnapshot_cases scopes v with h | h
  · rw [h]
  · rw [h]
    rfl

theorem isValidAt_concealSnapshot (t : Instant) (v : VersionSnapshot) :
    isValidAt t (concealSnapshot scopes v) = isValidAt t v := by
  rcases concealSnapshot_cases scopes v with h | h
  · rw [h]
  · rw [h]
    rfl

/-- What a reader knew of a version does not depend on what it says. -/
theorem asKnown_concealSnapshot (k : Option Instant) (v : VersionSnapshot) :
    asKnown k (concealSnapshot scopes v) = concealSnapshot scopes (asKnown k v) := by
  by_cases h : scopes.contains v.privacyScope = true
  · rw [concealSnapshot_of_visible scopes h,
      concealSnapshot_of_visible scopes (by rwa [asKnown_privacyScope])]
  · have hasKnown : ¬ scopes.contains (asKnown k v).privacyScope = true := by
      rwa [asKnown_privacyScope]
    rw [concealSnapshot, if_neg h, concealSnapshot, if_neg hasKnown]
    unfold asKnown
    cases k with
    | none => rfl
    | some k =>
      cases hclosed : v.validUntilRecordedAt with
      | none => simp only [hclosed]
      | some closedAt =>
        simp only
        split <;> simp [hclosed]

/-! ### Services -/

theorem historyAsKnown_concealed (versions : List VersionSnapshot) (k : Option Instant) :
    historyAsKnown (versions.map (concealSnapshot scopes)) k =
      (historyAsKnown versions k).map (concealSnapshot scopes) := by
  have hsort : (versions.map (concealSnapshot scopes)).insertionSort
      (fun a b => a.version ≤ b.version) =
        (versions.insertionSort fun a b => a.version ≤ b.version).map (concealSnapshot scopes) :=
    (List.map_insertionSort _ _ _ _ fun a _ b _ => by simp).symm
  have hknown : isKnown k ∘ concealSnapshot scopes = isKnown k :=
    funext (isKnown_concealSnapshot scopes k)
  have hview : asKnown k ∘ concealSnapshot scopes = concealSnapshot scopes ∘ asKnown k :=
    funext (asKnown_concealSnapshot scopes k)
  unfold historyAsKnown
  rw [hsort, List.filter_map, hknown, List.map_map, hview, List.map_map]

theorem resolve_concealed (versions : List VersionSnapshot) (t : Instant) (k : Option Instant) :
    resolve (versions.map (concealSnapshot scopes)) t k =
      (resolve versions t k).map (Option.map (concealSnapshot scopes)) := by
  have hmatches : matchesAt (versions.map (concealSnapshot scopes)) t k =
      (matchesAt versions t k).map (concealSnapshot scopes) := by
    unfold matchesAt
    have hvalid : isValidAt t ∘ concealSnapshot scopes = isValidAt t :=
      funext (isValidAt_concealSnapshot scopes t)
    rw [historyAsKnown_concealed, List.filter_map, hvalid]
  unfold resolve
  simp only [hmatches, List.length_map, List.head?_map]
  split <;> rfl

def concealChange (c : Change) : Change :=
  ⟨c.before.map (concealSnapshot scopes), c.after.map (concealSnapshot scopes),
    c.transitions.map (concealSnapshot scopes)⟩

theorem changeBetween_concealed (versions : List VersionSnapshot) (start finish : Instant)
    (k : Option Instant) : changeBetween (versions.map (concealSnapshot scopes)) start finish k =
      (changeBetween versions start finish k).map (Option.map (concealChange scopes)) := by
  have hid : VersionSnapshot.id ∘ concealSnapshot scopes = VersionSnapshot.id :=
    funext (concealSnapshot_id scopes)
  have hstarts (known : List VersionSnapshot) :
      (known.map (concealSnapshot scopes)).filter (fun v =>
        decide (start < v.validFrom) && decide (v.validFrom ≤ finish)) =
      (known.filter fun v => decide (start < v.validFrom) && decide (v.validFrom ≤ finish)).map
        (concealSnapshot scopes) := by
    rw [List.filter_map]
    congr 2
    funext v
    simp
  unfold changeBetween
  split
  · rfl
  · simp only [historyAsKnown_concealed, resolve_concealed, hstarts]
    cases resolve (historyAsKnown versions k) start none with
    | error failure => rfl
    | ok before =>
      cases resolve (historyAsKnown versions k) finish none with
      | error failure => rfl
      | ok after =>
        simp only [Except.map, bind, Except.bind, Option.map_map, hid, List.map_eq_nil_iff]
        split <;> rfl

variable (db : Database) (org : Uuid)

theorem getVersion_conceal (id : Uuid) : getVersion (conceal scopes db) org id =
    (getVersion db org id).map (concealVersion scopes) := by
  unfold getVersion conceal
  rw [List.find?_map]
  congr 2
  funext v
  simp

theorem listVersions_conceal (factId : Uuid) : listVersions (conceal scopes db) org factId =
    (listVersions db org factId).map (concealVersion scopes) := by
  have hrows : versionsOf (conceal scopes db) org factId =
      (versionsOf db org factId).map (concealVersion scopes) := by
    unfold versionsOf conceal
    rw [List.filter_map]
    congr 2
    funext v
    simp
  unfold listVersions
  rw [hrows]
  exact (List.map_insertionSort _ _ _ _ fun a _ b _ => by simp).symm

/-- The snapshots of concealed rows are concealed snapshots. -/
theorem map_toSnapshot_conceal (versions : List FactVersion) :
    (versions.map (concealVersion scopes)).map toSnapshot =
      (versions.map toSnapshot).map (concealSnapshot scopes) := by
  rw [List.map_map, List.map_map]
  exact List.map_congr_left fun v _ => toSnapshot_concealVersion scopes v

def concealRow (row : FactVersion × String) : FactVersion × String :=
  (concealVersion scopes row.1, row.2)

theorem entityRows_conceal (entityId : Uuid) : entityRows (conceal scopes db) org entityId =
    (entityRows db org entityId).map (concealRow scopes) := by
  unfold entityRows conceal
  simp only [List.flatMap_map, List.map_flatMap]
  congr 1
  funext v
  simp only [concealVersion_organizationId, concealVersion_factId]
  split
  · rw [List.map_map]
    rfl
  · rfl

theorem entityVersions_conceal (entityId : Uuid) (k : Option Instant) :
    entityVersions (conceal scopes db) org entityId k =
      (entityVersions db org entityId k).map (concealRow scopes) := by
  have hknown : (fun row : FactVersion × String => k.all fun k => decide (row.1.recordedAt ≤ k)) ∘
      concealRow scopes = fun row => k.all fun k => decide (row.1.recordedAt ≤ k) := by
    funext row
    simp [concealRow]
  unfold entityVersions
  rw [entityRows_conceal, List.filter_map, hknown]
  exact (List.map_insertionSort _ _ _ _ fun a _ b _ => by simp [EntityRowLe, concealRow]).symm

theorem distinctOnFact_concealed (rows : List (FactVersion × String)) :
    distinctOnFact (rows.map (concealRow scopes)) =
      (distinctOnFact rows).map (concealRow scopes) := by
  induction rows with
  | nil => rfl
  | cons row rows ih =>
    rw [List.map_cons, distinctOnFact, ih, List.filter_map, distinctOnFact, List.map_cons]
    congr 3
    funext other
    simp [concealRow]

theorem factsValidAt_conceal (entityId : Uuid) (t : Instant) (k : Option Instant) :
    factsValidAt (conceal scopes db) org entityId t k =
      (factsValidAt db org entityId t k).map (concealRow scopes) := by
  have hvalid : (fun row : FactVersion × String =>
      validAtCondition (conceal scopes db) t k row.1 == some true) ∘ concealRow scopes =
        fun row => validAtCondition db t k row.1 == some true := by
    funext row
    simp [validAtCondition, notRevokedCondition, concealRow, conceal]
  unfold factsValidAt
  rw [entityRows_conceal, List.filter_map, hvalid, ← distinctOnFact_concealed]
  congr 1
  exact (List.map_insertionSort _ _ _ _ fun a _ b _ => by simp [RowLe, concealRow]).symm

def concealFactChange (c : FactChange) : FactChange :=
  { c with change := concealChange scopes c.change }

theorem factChange_concealed (rows : List (FactVersion × String)) (start finish : Instant)
    (k : Option Instant) (factId : Uuid) :
    factChange (rows.map (concealRow scopes)) start finish k factId =
      (factChange rows start finish k factId).map (Option.map (concealFactChange scopes)) := by
  have hown : (rows.map (concealRow scopes)).filter (fun row => row.1.factId == factId) =
      (rows.filter fun row => row.1.factId == factId).map (concealRow scopes) := by
    rw [List.filter_map]
    congr 2
    funext row
    simp [concealRow]
  have hsnapshots (own : List (FactVersion × String)) :
      (own.map (concealRow scopes)).map (fun row => toSnapshot row.1) =
        (own.map fun row => toSnapshot row.1).map (concealSnapshot scopes) := by
    rw [List.map_map, List.map_map]
    exact List.map_congr_left fun row _ => toSnapshot_concealVersion scopes row.1
  have hproperty (row : Option (FactVersion × String)) :
      (row.map (concealRow scopes)).map Prod.snd = row.map Prod.snd := by
    cases row <;> rfl
  unfold factChange
  simp only [hown, hsnapshots, changeBetween_concealed, List.getLast?_map, hproperty]
  cases changeBetween _ start finish k with
  | error failure => rfl
  | ok change => cases change <;> rfl

variable (rt : Runtime) (ctx : TenantContext)

theorem changesBetween_conceal (entityType externalId : String) (start finish : Datetime)
    (k : Option Datetime) :
    changesBetween rt (conceal scopes db) ctx entityType externalId start finish k =
      (changesBetween rt db ctx entityType externalId start finish k).map
        (List.map (concealFactChange scopes)) := by
  have hpermission : requirePermission (conceal scopes db) ctx .readFacts =
    requirePermission db ctx .readFacts := rfl
  have hentity : requireEntity rt (conceal scopes db) ctx.organizationId entityType externalId =
    requireEntity rt db ctx.organizationId entityType externalId := rfl
  have hfacts (rows : List (FactVersion × String)) :
      (rows.map (concealRow scopes)).map (fun row => row.1.factId) =
        rows.map fun row => row.1.factId := by
    rw [List.map_map]
    exact List.map_congr_left fun row _ => concealVersion_factId scopes row.1
  have hchanges (changes : List (Option FactChange)) :
      ((changes.map (Option.map (concealFactChange scopes))).filterMap id).insertionSort
        (fun a b => a.property ≤ b.property) =
      ((changes.filterMap id).insertionSort fun a b => a.property ≤ b.property).map
        (concealFactChange scopes) := by
    have hrest : (changes.map (Option.map (concealFactChange scopes))).filterMap id =
        (changes.filterMap id).map (concealFactChange scopes) := by
      rw [List.filterMap_map, List.map_filterMap]
      rfl
    rw [hrest]
    exact (List.map_insertionSort _ _ _ _ fun a _ b _ => by simp [concealFactChange]).symm
  unfold changesBetween
  simp only [hpermission, hentity, entityVersions_conceal, hfacts]
  refine bind_map fun start => bind_map fun finish => ?_
  split_ifs
  · rfl
  · refine bind_map fun k => bind_map fun _ => bind_map fun entity => ?_
    rw [mapM_map fun factId => factChange_concealed scopes _ start finish k factId]
    generalize List.mapM (factChange _ start finish k) _ = found
    cases found with
    | error failure => rfl
    | ok changes => exact congrArg Except.ok (hchanges changes)

def concealFact (f : ResolvedFact) : ResolvedFact :=
  { f with version := concealSnapshot scopes f.version }

theorem factsAt_conceal (entityType externalId : String) (validAt knownAt : Option Datetime)
    (clock : Instant) :
    factsAt rt (conceal scopes db) ctx entityType externalId validAt knownAt clock =
      (factsAt rt db ctx entityType externalId validAt knownAt clock).map
        (List.map (concealFact scopes)) := by
  have hpermission : requirePermission (conceal scopes db) ctx .readFacts =
    requirePermission db ctx .readFacts := rfl
  have hentity (entityType externalId : String) :
      findEntity (conceal scopes db) ctx.organizationId entityType externalId =
        findEntity db ctx.organizationId entityType externalId := rfl
  have hresolved (entity : Entity) (k : Option Instant) (rows : List (FactVersion × String)) :
      ((rows.map (concealRow scopes)).map fun row => (⟨row.1.factId, entity.id, entity.entityType,
        entity.externalId, row.2, asKnown k (toSnapshot row.1)⟩ : ResolvedFact)).insertionSort
          (fun a b => a.property ≤ b.property) =
      ((rows.map fun row => (⟨row.1.factId, entity.id, entity.entityType, entity.externalId, row.2,
        asKnown k (toSnapshot row.1)⟩ : ResolvedFact)).insertionSort
          fun a b => a.property ≤ b.property).map (concealFact scopes) := by
    have hrows : (rows.map (concealRow scopes)).map (fun row => (⟨row.1.factId, entity.id,
        entity.entityType, entity.externalId, row.2, asKnown k (toSnapshot row.1)⟩ : ResolvedFact)) =
        (rows.map fun row => (⟨row.1.factId, entity.id, entity.entityType, entity.externalId, row.2,
          asKnown k (toSnapshot row.1)⟩ : ResolvedFact)).map (concealFact scopes) := by
      rw [List.map_map, List.map_map]
      refine List.map_congr_left fun row _ => ?_
      simp [concealRow, concealFact, toSnapshot_concealVersion, asKnown_concealSnapshot]
    rw [hrows]
    exact (List.map_insertionSort _ _ _ _ fun a _ b _ => by simp [concealFact]).symm
  unfold factsAt
  simp only [hpermission, hentity, factsValidAt_conceal, hresolved]
  refine bind_map fun instant => bind_map fun k => bind_map fun _ => bind_map fun type =>
    bind_map fun external => ?_
  cases findEntity db ctx.organizationId type.1 external.1 <;> rfl

def concealEntry (e : TimelineEntry) : TimelineEntry :=
  { e with version := concealSnapshot scopes e.version }

theorem entityTimeline_conceal (entityType externalId : String) (knownAt : Option Datetime) :
    entityTimeline rt (conceal scopes db) ctx entityType externalId knownAt =
      (entityTimeline rt db ctx entityType externalId knownAt).map
        (List.map (concealEntry scopes)) := by
  have hpermission : requirePermission (conceal scopes db) ctx .readFacts =
    requirePermission db ctx .readFacts := rfl
  have hentity : requireEntity rt (conceal scopes db) ctx.organizationId entityType externalId =
    requireEntity rt db ctx.organizationId entityType externalId := rfl
  have hentries (k : Option Instant) (rows : List (FactVersion × String)) :
      ((rows.map (concealRow scopes)).map fun row =>
        (⟨row.2, asKnown k (toSnapshot row.1)⟩ : TimelineEntry)).insertionSort TimelineLe =
      ((rows.map fun row => (⟨row.2, asKnown k (toSnapshot row.1)⟩ : TimelineEntry)).insertionSort
        TimelineLe).map (concealEntry scopes) := by
    have hrows : (rows.map (concealRow scopes)).map (fun row =>
        (⟨row.2, asKnown k (toSnapshot row.1)⟩ : TimelineEntry)) =
        (rows.map fun row => (⟨row.2, asKnown k (toSnapshot row.1)⟩ : TimelineEntry)).map
          (concealEntry scopes) := by
      rw [List.map_map, List.map_map]
      refine List.map_congr_left fun row _ => ?_
      simp [concealRow, concealEntry, toSnapshot_concealVersion, asKnown_concealSnapshot]
    rw [hrows]
    exact (List.map_insertionSort _ _ _ _ fun a _ b _ => by simp [TimelineLe, concealEntry]).symm
  unfold entityTimeline
  simp only [hpermission, hentity, entityVersions_conceal, hentries]
  exact bind_map fun k => bind_map fun _ => bind_map fun entity => rfl

theorem history_conceal (factId : Uuid) (knownAt : Option Datetime) :
    history (conceal scopes db) ctx factId knownAt =
      (history db ctx factId knownAt).map (List.map (concealSnapshot scopes)) := by
  have hpermission : requirePermission (conceal scopes db) ctx .readFacts =
    requirePermission db ctx .readFacts := rfl
  have hfact : getFact (conceal scopes db) ctx.organizationId factId =
    getFact db ctx.organizationId factId := rfl
  unfold history
  simp only [hpermission, hfact, listVersions_conceal, map_toSnapshot_conceal,
    historyAsKnown_concealed]
  refine bind_map fun _ => ?_
  cases getFact db ctx.organizationId factId with
  | none => rfl
  | some fact => exact bind_map fun k => rfl

def concealLineage (l : Lineage) : Lineage :=
  ⟨concealSnapshot scopes l.version, l.ancestors.map (concealSnapshot scopes),
    l.descendants.map (concealSnapshot scopes)⟩

theorem lineage_conceal (versionId : Uuid) : lineage (conceal scopes db) ctx versionId =
    (lineage db ctx versionId).map (concealLineage scopes) := by
  have hpermission : requirePermission (conceal scopes db) ctx .readFacts =
    requirePermission db ctx .readFacts := rfl
  have hcurrent (chain : List VersionSnapshot) :
      (chain.map (concealSnapshot scopes)).find? (fun v => v.id == versionId) =
        (chain.find? fun v => v.id == versionId).map (concealSnapshot scopes) := by
    rw [List.find?_map]
    congr 2
    funext v
    simp
  have hbefore (chain : List VersionSnapshot) (n : ℕ) :
      (chain.map (concealSnapshot scopes)).filter (fun v => decide (v.version < n)) =
        (chain.filter fun v => decide (v.version < n)).map (concealSnapshot scopes) := by
    rw [List.filter_map]
    congr 2
    funext v
    simp
  have hafter (chain : List VersionSnapshot) (n : ℕ) :
      (chain.map (concealSnapshot scopes)).filter (fun v => decide (n < v.version)) =
        (chain.filter fun v => decide (n < v.version)).map (concealSnapshot scopes) := by
    rw [List.filter_map]
    congr 2
    funext v
    simp
  unfold lineage
  simp only [hpermission, getVersion_conceal]
  refine bind_map fun _ => ?_
  cases getVersion db ctx.organizationId versionId with
  | none => rfl
  | some target =>
    simp only [Option.map_some, concealVersion_factId, listVersions_conceal,
      map_toSnapshot_conceal, hcurrent]
    generalize (listVersions db ctx.organizationId target.factId).map toSnapshot = chain
    cases chain.find? fun v => v.id == versionId with
    | none => rfl
    | some current =>
      simp only [Option.map_some, concealSnapshot_version, hbefore, hafter]
      rfl

def concealLinked (row : LinkedRow) : LinkedRow := (row.1, concealEvidence scopes row.2.1, row.2.2)

theorem concealEvidence_cases (e : Evidence) : concealEvidence scopes e = e ∨
    concealEvidence scopes e =
      { e with
        evidenceType := .agentOutput, excerpt := "", contentSha256 := "", uri := none
        metadata := .obj [] } := by
  unfold concealEvidence
  split
  · exact Or.inl rfl
  · exact Or.inr rfl

/-- A link leads to the same evidence, concealed. -/
theorem linkRows_conceal (l : FactVersionEvidence) : linkRows (conceal scopes db) l =
    (linkRows db l).map (concealLinked scopes) := by
  have hkey (e : Evidence) : (concealEvidence scopes e).organizationId = e.organizationId ∧
      (concealEvidence scopes e).id = e.id ∧
      (concealEvidence scopes e).sourceId = e.sourceId := by
    rcases concealEvidence_cases scopes e with h | h <;> rw [h] <;> exact ⟨rfl, rfl, rfl⟩
  unfold linkRows conceal
  simp only [List.filter_map, List.flatMap_map, List.map_flatMap, List.map_map]
  congr 1
  · funext e
    simp only [hkey]
    rfl
  · congr 1
    funext e
    simp [hkey]

/-- Evidence is ordered by what is not concealed. -/
theorem evidenceForVersion_conceal (versionId : Uuid) :
    evidenceForVersion (conceal scopes db) org versionId =
      (evidenceForVersion db org versionId).map (concealLinked scopes) := by
  have horder (a b : LinkedRow) : LinkedLe a b ↔
      LinkedLe (concealLinked scopes a) (concealLinked scopes b) := by
    have hkey (e : Evidence) : (concealEvidence scopes e).capturedAt = e.capturedAt ∧
        (concealEvidence scopes e).id = e.id := by
      rcases concealEvidence_cases scopes e with h | h <;> rw [h] <;> exact ⟨rfl, rfl⟩
    simp [LinkedLe, concealLinked, hkey]
  unfold evidenceForVersion
  have hlinked (links : List FactVersionEvidence) :
      links.flatMap (linkRows (conceal scopes db)) =
        (links.flatMap (linkRows db)).map (concealLinked scopes) := by
    rw [List.map_flatMap]
    exact congrArg (List.flatMap · links) (funext (linkRows_conceal scopes db))
  rw [hlinked]
  exact (List.map_insertionSort _ _ _ _ fun a _ b _ => horder a b).symm

/-! ### Endpoints -/

theorem map_bind {α β : Type} (x : Result α) (g : α → α) (f : α → Result β) :
    (x.map g >>= f) = x >>= fun a => f (g a) := by
  cases x <;> rfl

theorem entityFacts_conceal (entityType externalId : String) (validAt knownAt : Option Datetime)
    (clock : Instant) :
    entityFacts rt (conceal (visible ctx) db) ctx entityType externalId validAt knownAt clock =
      entityFacts rt db ctx entityType externalId validAt knownAt clock := by
  have hshown (facts : List ResolvedFact) :
      (facts.map (concealFact (visible ctx))).filter
          (fun f => (visible ctx).contains f.version.privacyScope) =
        facts.filter fun f => (visible ctx).contains f.version.privacyScope :=
    filter_map_of_kept facts (fun f => by simp [concealFact]) fun f hf => by
      rw [concealFact, concealSnapshot_of_visible _ hf]
  unfold entityFacts
  simp only [factsAt_conceal, map_bind, hshown, List.length_map]

theorem timeline_conceal (entityType externalId : String) (knownAt : Option Datetime) :
    timeline rt (conceal (visible ctx) db) ctx entityType externalId knownAt =
      timeline rt db ctx entityType externalId knownAt := by
  have hshown (entries : List TimelineEntry) :
      (entries.map (concealEntry (visible ctx))).filter
          (fun e => (visible ctx).contains e.version.privacyScope) =
        entries.filter fun e => (visible ctx).contains e.version.privacyScope :=
    filter_map_of_kept entries (fun e => by simp [concealEntry]) fun e he => by
      rw [concealEntry, concealSnapshot_of_visible _ he]
  unfold timeline
  simp only [entityTimeline_conceal, map_bind, hshown, List.length_map]

theorem factHistory_conceal (factId : Uuid) (knownAt : Option Datetime) :
    factHistory (conceal (visible ctx) db) ctx factId knownAt =
      factHistory db ctx factId knownAt := by
  have hshown (versions : List VersionSnapshot) :
      (versions.map (concealSnapshot (visible ctx))).filter
          (fun v => (visible ctx).contains v.privacyScope) =
        versions.filter fun v => (visible ctx).contains v.privacyScope :=
    filter_map_of_kept versions (fun v => by rw [concealSnapshot_privacyScope]) fun v hv =>
      concealSnapshot_of_visible _ hv
  unfold factHistory
  simp only [history_conceal, map_bind, hshown]

theorem allVisible_concealed (versions : List VersionSnapshot) :
    allVisible scopes (versions.map (concealSnapshot scopes)) = allVisible scopes versions := by
  unfold allVisible
  rw [List.all_map]
  congr 1
  funext v
  simp

/-- Nothing is taken from versions that may all be seen. -/
theorem map_conceal_of_allVisible {versions : List VersionSnapshot}
    (h : allVisible scopes versions = true) :
    versions.map (concealSnapshot scopes) = versions := by
  have hsame : ∀ v ∈ versions, concealSnapshot scopes v = v := fun v hv =>
    concealSnapshot_of_visible scopes (List.all_eq_true.mp h v hv)
  rw [List.map_congr_left hsame, List.map_id']

theorem versions_concealFactChange (c : FactChange) :
    FactChange.versions (concealFactChange scopes c) =
      (FactChange.versions c).map (concealSnapshot scopes) := by
  have hoption (v : Option VersionSnapshot) :
      (v.map (concealSnapshot scopes)).toList = v.toList.map (concealSnapshot scopes) := by
    cases v <;> rfl
  simp [FactChange.versions, concealFactChange, concealChange, hoption]

theorem concealFactChange_of_allVisible {c : FactChange}
    (h : allVisible scopes (FactChange.versions c) = true) : concealFactChange scopes c = c := by
  have hoption {v : Option VersionSnapshot} (hv : allVisible scopes v.toList = true) :
      v.map (concealSnapshot scopes) = v := by
    cases v with
    | none => rfl
    | some v => exact congrArg some (List.cons.inj (map_conceal_of_allVisible scopes hv)).1
  simp only [FactChange.versions, allVisible, List.all_append, Bool.and_eq_true] at h
  obtain ⟨⟨hbefore, hafter⟩, htransitions⟩ := h
  unfold concealFactChange concealChange
  rw [hoption hbefore, hoption hafter, map_conceal_of_allVisible scopes htransitions]

theorem entityChanges_conceal (entityType externalId : String) (start finish : Datetime)
    (knownAt : Option Datetime) :
    entityChanges rt (conceal (visible ctx) db) ctx entityType externalId start finish knownAt =
      entityChanges rt db ctx entityType externalId start finish knownAt := by
  have hshown (changes : List FactChange) :
      (changes.map (concealFactChange (visible ctx))).filter
          (fun c => allVisible (visible ctx) (FactChange.versions c)) =
        changes.filter fun c => allVisible (visible ctx) (FactChange.versions c) :=
    filter_map_of_kept changes
      (fun c => by rw [versions_concealFactChange, allVisible_concealed])
      fun c hc => concealFactChange_of_allVisible _ hc
  unfold entityChanges
  simp only [changesBetween_conceal, map_bind, hshown]

/-- A lineage that is shown has nothing concealed in it. -/
theorem versionLineage_conceal (versionId : Uuid) :
    versionLineage (conceal (visible ctx) db) ctx versionId = versionLineage db ctx versionId := by
  have hversions (l : Lineage) : Lineage.versions (concealLineage (visible ctx) l) =
      (Lineage.versions l).map (concealSnapshot (visible ctx)) := by
    simp [Lineage.versions, concealLineage]
  unfold versionLineage
  rw [lineage_conceal, map_bind]
  congr 1
  funext l
  rw [hversions, allVisible_concealed]
  by_cases hall : allVisible (visible ctx) (Lineage.versions l) = true
  · rw [if_pos hall, if_pos hall]
    have hsame := map_conceal_of_allVisible _ hall
    rw [← hversions] at hsame
    obtain ⟨hversion, hrest⟩ := List.cons.inj hsame
    obtain ⟨hancestors, hdescendants⟩ := List.append_inj hrest (by simp [concealLineage])
    exact congrArg Except.ok (by
      cases l
      simp only [concealLineage] at hversion hancestors hdescendants ⊢
      rw [hversion, hancestors, hdescendants])
  · rw [if_neg hall, if_neg hall]

/-- The foreign key from the versions to their sources. -/
def SourcesKept (db : Database) : Prop :=
  ∀ v ∈ db.versions, (getSource db v.organizationId v.sourceId).isSome

/-- The provenance endpoint, its two checks of the version made at once. -/
def provenanceOf (db : Database) (ctx : TenantContext) (versionId : Uuid) :
    Result ProvenanceOut := do
  let _ ← requirePermission db ctx .readFacts
  match (getVersion db ctx.organizationId versionId).filter fun v =>
      (visible ctx).contains v.privacyScope with
  | none => notFound "fact version not found"
  | some version =>
    match getSource db ctx.organizationId version.sourceId with
    | none => notFound "source not found"
    | some source =>
      let evidence := evidenceForVersion db ctx.organizationId versionId
      let shown := evidence.filter fun row => (visible ctx).contains row.2.1.privacyScope
      .ok ⟨toSnapshot version, source, shown, evidence.length - shown.length⟩

/-- With the source there, the two checks of a version can be made at once. -/
theorem versionProvenance_eq {db : Database} (hdb : SourcesKept db) (versionId : Uuid) :
    versionProvenance db ctx versionId = provenanceOf db ctx versionId := by
  unfold versionProvenance provenance provenanceOf
  cases requirePermission db ctx .readFacts with
  | error failure => rfl
  | ok role =>
    simp only [bind, Except.bind]
    cases hversion : getVersion db ctx.organizationId versionId with
    | none => rfl
    | some version =>
      have hmem := List.mem_of_find?_eq_some hversion
      have hfound := List.find?_some hversion
      have hkey := (Bool.and_eq_true_iff.mp hfound).1
      obtain ⟨source, hsource⟩ := Option.isSome_iff_exists.mp (hdb version hmem)
      rw [beq_iff_eq.mp hkey] at hsource
      by_cases hscope : (visible ctx).contains version.privacyScope = true
      · simp only [hsource, Option.filter_some, hscope, if_true]
        rw [if_pos (show (visible ctx).contains (toSnapshot version).privacyScope = true from hscope)]
        rfl
      · simp only [hsource, Option.filter_some, hscope]
        rw [if_neg (show ¬ (visible ctx).contains (toSnapshot version).privacyScope = true from hscope)]
        rfl

theorem provenanceOf_conceal (versionId : Uuid) :
    provenanceOf (conceal (visible ctx) db) ctx versionId = provenanceOf db ctx versionId := by
  have hpermission : requirePermission (conceal (visible ctx) db) ctx .readFacts =
    requirePermission db ctx .readFacts := rfl
  have hsource (id : Uuid) : getSource (conceal (visible ctx) db) ctx.organizationId id =
    getSource db ctx.organizationId id := rfl
  have hversion (v : Option FactVersion) :
      (v.map (concealVersion (visible ctx))).filter
          (fun v => (visible ctx).contains v.privacyScope) =
        v.filter fun v => (visible ctx).contains v.privacyScope := by
    cases v with
    | none => rfl
    | some v =>
      rw [Option.map_some, Option.filter_some, Option.filter_some, concealVersion_privacyScope]
      by_cases hscope : (visible ctx).contains v.privacyScope = true
      · rw [if_pos hscope, if_pos hscope, concealVersion, if_pos hscope]
      · rw [if_neg hscope, if_neg hscope]
  have hevidence (rows : List LinkedRow) :
      (rows.map (concealLinked (visible ctx))).filter
          (fun row => (visible ctx).contains row.2.1.privacyScope) =
        rows.filter fun row => (visible ctx).contains row.2.1.privacyScope := by
    have hscope (e : Evidence) :
        (concealEvidence (visible ctx) e).privacyScope = e.privacyScope := by
      rcases concealEvidence_cases (visible ctx) e with h | h <;> rw [h]
    refine filter_map_of_kept rows (fun row => by rw [concealLinked, hscope]) fun row hrow => ?_
    rw [concealLinked, concealEvidence, if_pos hrow]
  unfold provenanceOf
  simp only [hpermission, getVersion_conceal, hversion, hsource, evidenceForVersion_conceal,
    hevidence, List.length_map]

end

variable {rt : Runtime} {ctx : TenantContext} {clock : Instant} {db db' : Database}

/-- What an endpoint shows is within the ceiling. -/
theorem shown_visible {call : ReadCall} {response : Response}
    (h : respond rt db ctx clock call = .ok response) :
    (∀ v ∈ response.versions, v.privacyScope ∈ visible ctx) ∧
      ∀ row ∈ response.evidence, row.2.1.privacyScope ∈ visible ctx := by
  have hall {versions : List VersionSnapshot} (hv : allVisible (visible ctx) versions = true) :
      ∀ v ∈ versions, v.privacyScope ∈ visible ctx := fun v hmem =>
    List.contains_iff_mem.mp (List.all_eq_true.mp hv v hmem)
  cases call with
  | listSources =>
    obtain ⟨sources, -, rfl⟩ := map_eq_ok.mp h
    exact ⟨fun v hv => absurd hv (by simp [Response.versions]),
      fun row hrow => absurd hrow (by simp [Response.evidence])⟩
  | getSource sourceId =>
    obtain ⟨source, -, rfl⟩ := map_eq_ok.mp h
    exact ⟨fun v hv => absurd hv (by simp [Response.versions]),
      fun row hrow => absurd hrow (by simp [Response.evidence])⟩
  | entityFacts entityType externalId validAt knownAt =>
    obtain ⟨facts, hfacts, rfl⟩ := map_eq_ok.mp h
    obtain ⟨all, -, hfacts⟩ := bind_eq_ok.mp hfacts
    obtain rfl := Except.ok.inj hfacts
    refine ⟨fun v hv => ?_, fun row hrow => absurd hrow (by simp [Response.evidence])⟩
    obtain ⟨f, hf, rfl⟩ := List.mem_map.mp hv
    exact List.contains_iff_mem.mp (List.mem_filter.mp hf).2
  | entityTimeline entityType externalId knownAt =>
    obtain ⟨entries, hentries, rfl⟩ := map_eq_ok.mp h
    obtain ⟨all, -, hentries⟩ := bind_eq_ok.mp hentries
    obtain rfl := Except.ok.inj hentries
    refine ⟨fun v hv => ?_, fun row hrow => absurd hrow (by simp [Response.evidence])⟩
    obtain ⟨e, he, rfl⟩ := List.mem_map.mp hv
    exact List.contains_iff_mem.mp (List.mem_filter.mp he).2
  | entityChanges entityType externalId start finish knownAt =>
    obtain ⟨changes, hchanges, rfl⟩ := map_eq_ok.mp h
    obtain ⟨all, -, hchanges⟩ := bind_eq_ok.mp hchanges
    obtain rfl := Except.ok.inj hchanges
    refine ⟨fun v hv => ?_, fun row hrow => absurd hrow (by simp [Response.evidence])⟩
    obtain ⟨c, hc, hv⟩ := List.mem_flatMap.mp hv
    exact hall (List.mem_filter.mp hc).2 v hv
  | factHistory factId knownAt =>
    obtain ⟨versions, hversions, rfl⟩ := map_eq_ok.mp h
    obtain ⟨all, -, hversions⟩ := bind_eq_ok.mp hversions
    obtain rfl := Except.ok.inj hversions
    refine ⟨fun v hv => ?_, fun row hrow => absurd hrow (by simp [Response.evidence])⟩
    exact List.contains_iff_mem.mp (List.mem_filter.mp hv).2
  | versionLineage versionId =>
    obtain ⟨l, hl, rfl⟩ := map_eq_ok.mp h
    obtain ⟨all, -, hl⟩ := bind_eq_ok.mp hl
    refine ⟨fun v hv => ?_, fun row hrow => absurd hrow (by simp [Response.evidence])⟩
    split_ifs at hl with hvisible
    · obtain rfl := Except.ok.inj hl
      exact hall hvisible v hv
    · exact absurd hl (by simp [notFound])
  | versionProvenance versionId =>
    obtain ⟨p, hp, rfl⟩ := map_eq_ok.mp h
    obtain ⟨all, -, hp⟩ := bind_eq_ok.mp hp
    split_ifs at hp with hvisible
    · obtain rfl := Except.ok.inj hp
      refine ⟨fun v hv => ?_, fun row hrow => ?_⟩
      · obtain rfl := List.mem_singleton.mp hv
        exact List.contains_iff_mem.mp hvisible
      · exact List.contains_iff_mem.mp (List.mem_filter.mp hrow).2
    · exact absurd hp (by simp [notFound])

/-- The reading endpoints show nothing above the caller's ceiling, and what is above it
changes nothing in what they answer: databases that differ only in what concealed
versions and evidence say give the same response or the same error. -/
theorem reads_respect_ceiling (rt : Runtime) (ctx : TenantContext) (clock : Instant)
    {db db' : Database} (hdb : SourcesKept db) (hdb' : SourcesKept db')
    (hsame : conceal (visible ctx) db = conceal (visible ctx) db') (call : ReadCall) :
    respond rt db ctx clock call = respond rt db' ctx clock call ∧
    ∀ response, respond rt db ctx clock call = .ok response →
      (∀ v ∈ response.versions, v.privacyScope ∈ visible ctx) ∧
      ∀ row ∈ response.evidence, row.2.1.privacyScope ∈ visible ctx := by
  refine ⟨?_, fun response h => shown_visible h⟩
  cases call with
  | listSources =>
    show respond rt (conceal (visible ctx) db) ctx clock .listSources = _
    rw [hsame]
    rfl
  | getSource sourceId =>
    show respond rt (conceal (visible ctx) db) ctx clock (.getSource sourceId) = _
    rw [hsame]
    rfl
  | entityFacts entityType externalId validAt knownAt =>
    rw [respond, ← entityFacts_conceal, hsame, entityFacts_conceal]
    rfl
  | entityTimeline entityType externalId knownAt =>
    rw [respond, ← timeline_conceal, hsame, timeline_conceal]
    rfl
  | entityChanges entityType externalId start finish knownAt =>
    rw [respond, ← entityChanges_conceal, hsame, entityChanges_conceal]
    rfl
  | factHistory factId knownAt =>
    rw [respond, ← factHistory_conceal, hsame, factHistory_conceal]
    rfl
  | versionLineage versionId =>
    rw [respond, ← versionLineage_conceal, hsame, versionLineage_conceal]
    rfl
  | versionProvenance versionId =>
    rw [respond, versionProvenance_eq ctx hdb, ← provenanceOf_conceal, hsame, provenanceOf_conceal,
      ← versionProvenance_eq ctx hdb']
    rfl

def viewerContext : TenantContext := ⟨1, 1, .viewer, none, none, none⟩

/-- A database with one restricted version, whose value is the given text. -/
def exampleDatabase (value : String) : Database where
  users := [⟨1, true⟩]
  memberships := [⟨1, 1, .viewer⟩]
  sources := [⟨1, 1, "ledger", .api, none, 50, 0⟩]
  entities := [⟨1, 1, "account", "a-1"⟩]
  facts := [⟨1, 1, 1, "balance"⟩]
  versions := [⟨1, 1, 1, 1, .str value, 1, 0, none, 0, 0, none, none, 50, 900, .restricted⟩]
  revocations := []
  impacts := []
  evidence := []
  links := []
  contradictions := []
  snapshots := []
  snapshotFacts := []
  decisions := []
  decisionFacts := []

/-- A viewer is told the same whatever a restricted version says. -/
theorem reads_respect_ceiling_example :
    respond ⟨fun _ => true, id⟩ (exampleDatabase "1200") viewerContext 0
        (.entityTimeline "account" "a-1" none) =
      respond ⟨fun _ => true, id⟩ (exampleDatabase "7") viewerContext 0
        (.entityTimeline "account" "a-1" none) := by
  have hkept (value : String) : SourcesKept (exampleDatabase value) := by
    intro v hv
    obtain rfl := List.mem_singleton.mp hv
    rfl
  exact (reads_respect_ceiling _ viewerContext 0 (hkept "1200") (hkept "7") rfl _).1

end ContextLedger.RestPrivacy

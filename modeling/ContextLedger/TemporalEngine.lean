import ContextLedger.Reference

/-!
The SQL implementation of the same questions. Conditions have the three truth
values of SQL, a comparison with NULL being unknown, and WHERE keeps the rows
whose condition is true. DISTINCT ON keeps the first row of each fact in the
order of the query.
-/
namespace ContextLedger.TemporalEngine

open Values Validation Authorization Schema Facts VersionChain VersionTable Reference
open scoped List

/-- `none` is unknown. -/
abbrev Truth := Option Bool

def sqlAnd : Truth → Truth → Truth
  | some false, _ => some false
  | _, some false => some false
  | some true, some true => some true
  | _, _ => none

def sqlOr : Truth → Truth → Truth
  | some true, _ => some true
  | _, some true => some true
  | some false, some false => some false
  | _, _ => none

def sqlNot (a : Truth) : Truth := a.map (!·)

def sqlLe (a b : Option Instant) : Truth := a.bind fun x => b.map fun y => decide (x ≤ y)

def sqlGt (a b : Option Instant) : Truth := a.bind fun x => b.map fun y => decide (y < x)

/-- `NOT EXISTS` over the revocations that count as known at `knownAt`. -/
def notRevokedCondition (db : Database) (knownAt : Option Instant) (v : FactVersion) : Truth :=
  let revoked := db.revocations.any fun r =>
    r.organizationId == v.organizationId && r.factVersionId == v.id &&
      match knownAt with
      | none => true
      | some k => sqlLe (some r.revokedAt) (some k) == some true
  sqlNot (some revoked)

def validAtCondition (db : Database) (validAt : Instant) (knownAt : Option Instant)
    (v : FactVersion) : Truth :=
  match knownAt with
  | none =>
    sqlAnd (sqlLe (some v.validFrom) (some validAt))
      (sqlAnd (sqlOr (some v.validUntil.isNone) (sqlGt v.validUntil (some validAt)))
        (notRevokedCondition db none v))
  | some k =>
    sqlAnd (notRevokedCondition db (some k) v)
      (sqlAnd (sqlLe (some v.recordedAt) (some k))
        (sqlAnd (sqlLe (some v.validFrom) (some validAt))
          (sqlOr (some v.validUntil.isNone)
            (sqlOr (sqlGt v.validUntilRecordedAt (some k)) (sqlGt v.validUntil (some validAt))))))

/-- `ORDER BY fact_id, version DESC`. -/
def RowLe (a b : FactVersion × String) : Prop :=
  a.1.factId.toNat < b.1.factId.toNat ∨ (a.1.factId = b.1.factId ∧ b.1.version ≤ a.1.version)

instance : DecidableRel RowLe := fun _ _ => inferInstanceAs (Decidable (_ ∨ (_ ∧ _)))

/-- The first row of each run of rows with one fact. -/
def distinctOnFact : List (FactVersion × String) → List (FactVersion × String)
  | [] => []
  | row :: rows => row :: (distinctOnFact rows).filter fun other => other.1.factId != row.1.factId

/-- The versions of the entity's facts, each with the property of its fact. -/
def entityRows (db : Database) (org entityId : Uuid) : List (FactVersion × String) :=
  db.versions.flatMap fun v =>
    if v.organizationId = org then
      (db.facts.filter fun f => f.organizationId == v.organizationId && f.id == v.factId &&
        f.entityId == entityId).map fun f => (v, f.property)
    else []

def factsValidAt (db : Database) (org entityId : Uuid) (validAt : Instant)
    (knownAt : Option Instant) : List (FactVersion × String) :=
  distinctOnFact (((entityRows db org entityId).filter fun row =>
    validAtCondition db validAt knownAt row.1 == some true).insertionSort RowLe)

structure ResolvedFact where
  factId : Uuid
  entityId : Uuid
  entityType : String
  externalId : String
  property : String
  version : VersionSnapshot

/-- The service: facts of one entity valid at `validAt` (the clock by default), as
known at `knownAt`, in the order of their properties. -/
def factsAt (rt : Runtime) (db : Database) (ctx : TenantContext) (entityType externalId : String)
    (validAt knownAt : Option Datetime) (clock : Instant) : Result (List ResolvedFact) := do
  let instant ← (match validAt with
    | some value => requireAware value "valid_at"
    | none => .ok clock)
  let known ← requireAwareOption knownAt "known_at"
  let _ ← requirePermission db ctx .readFacts
  let entityType ← normalizeIdentifier entityType "entity_type"
  let externalId ← normalizeExternalId rt externalId
  match findEntity db ctx.organizationId entityType.1 externalId.1 with
  | none => notFound "entity not found"
  | some entity =>
    let rows := factsValidAt db ctx.organizationId entity.id instant known
    let resolved : List ResolvedFact := rows.map fun row =>
      ⟨row.1.factId, entity.id, entity.entityType, entity.externalId, row.2,
        asKnown known (toSnapshot row.1)⟩
    return resolved.insertionSort fun a b => a.property ≤ b.property

theorem mem_entityRows {db : Database} {org entityId : Uuid} {row : FactVersion × String}
    (h : row ∈ entityRows db org entityId) : row.1.organizationId = org ∧
      ∃ f ∈ db.facts, f.organizationId = org ∧ f.entityId = entityId ∧ f.id = row.1.factId ∧
        f.property = row.2 := by
  obtain ⟨v, -, hv⟩ := List.mem_flatMap.mp h
  by_cases horg : v.organizationId = org
  · rw [if_pos horg] at hv
    obtain ⟨f, hf, rfl⟩ := List.mem_map.mp hv
    simp only [List.mem_filter, Bool.and_eq_true, beq_iff_eq] at hf
    exact ⟨horg, f, hf.1, hf.2.1.1.trans horg, hf.2.2, hf.2.1.2, rfl⟩
  · rw [if_neg horg] at hv
    exact absurd hv List.not_mem_nil

/-- What the service shows for one fact of an entity. -/
def answerFor (db : Database) (org entityId factId : Uuid) (validAt : Instant)
    (knownAt : Option Instant) : List VersionSnapshot :=
  ((factsValidAt db org entityId validAt knownAt).filter fun row => row.1.factId == factId).map
    fun row => asKnown knownAt (toSnapshot row.1)

/-- The version is not revoked by what was known at `knownAt`. -/
def notRevoked (db : Database) (knownAt : Option Instant) (v : FactVersion) : Bool :=
  !db.revocations.any fun r =>
    r.organizationId == v.organizationId && r.factVersionId == v.id &&
      knownAt.all fun k => decide (r.revokedAt ≤ k)

theorem sqlAnd_eq_true {a b : Truth} :
    sqlAnd a b = some true ↔ a = some true ∧ b = some true := by
  rcases a with _ | (_ | _) <;> rcases b with _ | (_ | _) <;> simp [sqlAnd]

theorem sqlOr_eq_true {a b : Truth} :
    sqlOr a b = some true ↔ a = some true ∨ b = some true := by
  rcases a with _ | (_ | _) <;> rcases b with _ | (_ | _) <;> simp [sqlOr]

theorem sqlLe_eq_true {a b : Instant} : sqlLe (some a) (some b) = some true ↔ a ≤ b := by
  simp [sqlLe]

theorem sqlGt_eq_true {a : Option Instant} {b : Instant} :
    sqlGt a (some b) = some true ↔ ∃ x, a = some x ∧ b < x := by
  cases a <;> simp [sqlGt]

theorem notRevokedCondition_eq (db : Database) (k : Option Instant) (v : FactVersion) :
    notRevokedCondition db k v = some (notRevoked db k v) := by
  cases k with
  | none => simp [notRevokedCondition, notRevoked, sqlNot]
  | some k => simp [notRevokedCondition, notRevoked, sqlNot, sqlLe]

/-- The SQL condition is the reference's, row by row. -/
theorem validAtCondition_iff (db : Database) (t : Instant) (k : Option Instant) (v : FactVersion) :
    validAtCondition db t k v = some true ↔ notRevoked db k v = true ∧
      isKnown k (toSnapshot v) = true ∧ isValidAt t (asKnown k (toSnapshot v)) = true := by
  rw [isValidAt, Bool.and_eq_true, asKnown_validFrom, decide_eq_true_iff]
  cases k with
  | none =>
    simp only [validAtCondition, sqlAnd_eq_true, sqlLe_eq_true, sqlOr_eq_true, sqlGt_eq_true,
      notRevokedCondition_eq, Option.some.injEq, isKnown, asKnown_none, Option.isNone_iff_eq_none]
    cases hu : v.validUntil <;> simp [toSnapshot, hu] <;> tauto
  | some k =>
    simp only [validAtCondition, sqlAnd_eq_true, sqlLe_eq_true, sqlOr_eq_true, sqlGt_eq_true,
      notRevokedCondition_eq, Option.some.injEq, isKnown, Option.isNone_iff_eq_none,
      decide_eq_true_iff]
    cases hu : v.validUntil with
    | none =>
      cases hclosed : v.validUntilRecordedAt with
      | none => simp [toSnapshot, asKnown, hu, hclosed]
      | some closedAt => by_cases hle : closedAt ≤ k <;> simp [toSnapshot, asKnown, hu, hclosed, hle]
    | some u =>
      cases hclosed : v.validUntilRecordedAt with
      | none => simp [toSnapshot, asKnown, hu, hclosed]
      | some closedAt =>
        by_cases hle : closedAt ≤ k
        · simp [toSnapshot, asKnown, hu, hclosed, hle, not_lt.mpr hle]
        · simp [toSnapshot, asKnown, hu, hclosed, hle, not_le.mp hle]

/-- DISTINCT ON keeps the first row of each fact. -/
theorem filter_distinctOnFact (rows : List (FactVersion × String)) (factId : Uuid) :
    (distinctOnFact rows).filter (fun row => row.1.factId == factId) =
      (rows.filter fun row => row.1.factId == factId).take 1 := by
  induction rows with
  | nil => rfl
  | cons row rows ih =>
    by_cases hrow : row.1.factId = factId
    · simp [distinctOnFact, hrow]
    · have hkeep : ((distinctOnFact rows).filter fun other =>
          other.1.factId != row.1.factId).filter (fun r => r.1.factId == factId) =
            (distinctOnFact rows).filter fun r => r.1.factId == factId := by
        rw [List.filter_filter]
        apply List.filter_congr
        intro other _
        by_cases hother : other.1.factId = factId
        · simp [hother, Ne.symm hrow]
        · simp [hother]
      simp [distinctOnFact, hrow, hkeep, ih]

/-- Sorting does not change a filter that keeps at most one row. -/
theorem filter_insertionSort_of_length_le_one {α : Type} (r : α → α → Prop) [DecidableRel r]
    {p : α → Bool} {l : List α} (h : (l.filter p).length ≤ 1) :
    (l.insertionSort r).filter p = l.filter p := by
  have hperm : (l.insertionSort r).filter p ~ l.filter p := (List.perm_insertionSort r l).filter p
  rcases hl : l.filter p with _ | ⟨a, rest⟩
  · rw [hl] at hperm
    exact hperm.eq_nil
  · have hrest : rest = [] := by
      rw [hl] at h
      exact List.eq_nil_of_length_eq_zero (by simpa using h)
    rw [hl, hrest] at hperm
    rw [hrest]
    exact List.perm_singleton.mp hperm

theorem filter_eq_singleton {α : Type} {l : List α} {p : α → Bool} {a : α}
    (hnodup : l.Nodup) (ha : a ∈ l) (hp : ∀ b ∈ l, p b = true ↔ b = a) : l.filter p = [a] := by
  induction l with
  | nil => exact absurd ha (by simp)
  | cons b l ih =>
    obtain ⟨hb, hnodup⟩ := List.nodup_cons.mp hnodup
    by_cases hab : b = a
    · have hnone : l.filter p = [] := by
        rw [List.filter_eq_nil_iff]
        intro c hc hpc
        rw [(hp c (List.mem_cons_of_mem b hc)).mp hpc, ← hab] at hc
        exact hb hc
      rw [List.filter_cons_of_pos ((hp b (by simp)).mpr hab), hnone, hab]
    · have hpb : ¬ p b = true := fun h => hab ((hp b (by simp)).mp h)
      rw [List.filter_cons_of_neg hpb]
      refine ih hnodup ?_ fun c hc => hp c (List.mem_cons_of_mem b hc)
      exact (List.mem_cons.mp ha).resolve_left (Ne.symm hab)

/-- A version joins exactly one fact. -/
private theorem filter_facts_eq {db : Database} (h : Sound db) {f : Fact} (hf : f ∈ db.facts) :
    (db.facts.filter fun g => g.organizationId == f.organizationId && g.id == f.id &&
      g.entityId == f.entityId) = [f] := by
  refine filter_eq_singleton (h.factIds.of_map _) hf ?_
  intro g hg
  rw [Bool.and_eq_true, Bool.and_eq_true, beq_iff_eq, beq_iff_eq, beq_iff_eq]
  constructor
  · rintro ⟨⟨-, hid⟩, -⟩
    exact List.inj_on_of_nodup_map h.factIds hg hf hid
  · rintro rfl
    exact ⟨⟨rfl, rfl⟩, rfl⟩

/-- The rows of one fact of the entity are its versions with its property. -/
theorem filter_entityRows {db : Database} (h : Sound db) {f : Fact} (hf : f ∈ db.facts) :
    (entityRows db f.organizationId f.entityId).filter (fun row => row.1.factId == f.id) =
      (versionsOf db f.organizationId f.id).map fun v => (v, f.property) := by
  unfold entityRows versionsOf
  induction db.versions with
  | nil => rfl
  | cons v vs ih =>
    rw [List.flatMap_cons, List.filter_append, ih]
    by_cases hfact : v.factId = f.id
    · by_cases horg : v.organizationId = f.organizationId
      · rw [if_pos horg, List.filter_cons_of_pos (by simp [hfact, horg]), horg, hfact,
          filter_facts_eq h hf]
        simp [hfact]
      · rw [if_neg horg, List.filter_cons_of_neg (by simp [horg])]
        rfl
    · rw [List.filter_cons_of_neg (by simp [hfact])]
      have hnone : ((if v.organizationId = f.organizationId then
          (db.facts.filter fun g => g.organizationId == v.organizationId && g.id == v.factId &&
            g.entityId == f.entityId).map fun g => (v, g.property)
          else []).filter fun row => row.1.factId == f.id) = [] := by
        rw [List.filter_eq_nil_iff]
        intro row hrow
        split at hrow
        · obtain ⟨g, -, rfl⟩ := List.mem_map.mp hrow
          simpa using hfact
        · exact absurd hrow (by simp)
      rw [hnone]
      rfl

/-- The versions of a fact that count as known at K. -/
def unrevokedSnapshots (db : Database) (org factId : Uuid) (k : Option Instant) :
    List VersionSnapshot :=
  ((versionsOf db org factId).filter (notRevoked db k)).map toSnapshot

theorem unrevokedSnapshots_ordered {db : Database} (h : Sound db) (org factId : Uuid)
    (k : Option Instant) : Ordered (unrevokedSnapshots db org factId k) :=
  (ordered_of_chain (h.histories org factId).toChain).sublist
    (List.filter_sublist.map toSnapshot)

private theorem matchesAt_unrevoked {db : Database} (h : Sound db) (org factId : Uuid)
    (t : Instant) (k : Option Instant) : matchesAt (unrevokedSnapshots db org factId k) t k =
      ((versionsOf db org factId).filter fun v => validAtCondition db t k v == some true).map
        fun v => asKnown k (toSnapshot v) := by
  rw [matchesAt_ordered (unrevokedSnapshots_ordered h org factId k), unrevokedSnapshots,
    List.filter_map, List.map_map, List.filter_filter]
  congr 1
  apply List.filter_congr
  intro v _
  rw [Bool.eq_iff_iff, beq_iff_eq, validAtCondition_iff]
  simp only [Function.comp_apply, Bool.and_eq_true]
  tauto

/-- The engine shows for a fact exactly the versions the reference matches. -/
theorem answerFor_eq_matchesAt {db : Database} (h : Sound db) {f : Fact} (hf : f ∈ db.facts)
    (t : Instant) (k : Option Instant) :
    answerFor db f.organizationId f.entityId f.id t k =
      matchesAt (unrevokedSnapshots db f.organizationId f.id k) t k := by
  let condition (row : FactVersion × String) : Bool :=
    validAtCondition db t k row.1 == some true
  have hrows : ((entityRows db f.organizationId f.entityId).filter condition).filter
      (fun row => row.1.factId == f.id) =
        ((versionsOf db f.organizationId f.id).filter fun v =>
          validAtCondition db t k v == some true).map fun v => (v, f.property) := by
    rw [List.filter_comm, filter_entityRows h hf, List.filter_map]
    rfl
  have hone : (((entityRows db f.organizationId f.entityId).filter condition).filter
      (fun row => row.1.factId == f.id)).length ≤ 1 := by
    have hle := length_matchesAt_le_one
      (unrevokedSnapshots_ordered h f.organizationId f.id k) t k
    rw [matchesAt_unrevoked h, List.length_map] at hle
    rw [hrows, List.length_map]
    exact hle
  rw [matchesAt_unrevoked h, answerFor, factsValidAt, filter_distinctOnFact,
    filter_insertionSort_of_length_le_one RowLe hone, List.take_of_length_le hone, hrows,
    List.map_map]
  rfl

end ContextLedger.TemporalEngine

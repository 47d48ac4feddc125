import ContextLedger.Decisions
import ContextLedger.JsonInjective
import ContextLedger.JsonMaps
import ContextLedger.Rankings
import ContextLedger.Timestamps

/-!
What the canonical text of a receipt tells. Two contents have the same text exactly
when they agree on every field: timestamps as instants, the outcome with objects as
maps, scopes as a multiset, facts as a map from versions and relied-on versions as a
set. Sorting loses only what these readings leave out, since positions are distinct
and every relied-on version is one of the facts.
-/
namespace ContextLedger.TamperEvidence

open JsonText JsonInjective JsonMaps Jsonb Rankings Values Decisions Timestamps

section

variable {τ : Type}

/-- What the types of a content and its callers promise. -/
structure WellFormed (content : ReceiptContent τ) : Prop where
  outcome : UniqueKeys content.outcome
  versions : (content.facts.map Prod.fst).Nodup
  positions : (content.facts.map fun f => f.2.1).Nodup
  reliedOn : ∀ version ∈ content.reliedOn, version ∈ content.facts.map Prod.fst

/-- Agreement on every field, with timestamps read as given. -/
structure Agree {σ : Type} (instant : τ → σ) (a b : ReceiptContent τ) : Prop where
  organizationId : a.organizationId = b.organizationId
  decisionId : a.decisionId = b.decisionId
  snapshotId : a.snapshotId = b.snapshotId
  decidedAt : instant a.decidedAt = instant b.decidedAt
  decidedByUserId : a.decidedByUserId = b.decidedByUserId
  agent : a.agent = b.agent
  action : a.action = b.action
  outcome : SameValue a.outcome b.outcome
  rationale : a.rationale = b.rationale
  query : a.query = b.query
  validAt : instant a.validAt = instant b.validAt
  knownAt : instant a.knownAt = instant b.knownAt
  embeddingModel : a.embeddingModel = b.embeddingModel
  vectorSearch : a.vectorSearch = b.vectorSearch
  privacyScopes : a.privacyScopes.Perm b.privacyScopes
  facts : ∀ version, a.facts.lookup version = b.facts.lookup version
  reliedOn : ∀ version, version ∈ a.reliedOn ↔ version ∈ b.reliedOn

end

theorem textOrNull_injective : Function.Injective textOrNull := by
  intro a b h
  cases a <;> cases b <;> simp_all [textOrNull]

theorem sortKeys_textOrNull (text : Option String) : sortKeys (textOrNull text) = textOrNull text := by
  cases text <;> rfl

theorem mem_iff_lookup {κ ν : Type} [BEq κ] [LawfulBEq κ] {dict : List (κ × ν)}
    (hnodup : (dict.map Prod.fst).Nodup) (key : κ) (value : ν) :
    (key, value) ∈ dict ↔ dict.lookup key = some value := by
  induction dict with
  | nil => simp
  | cons entry dict ih =>
    obtain ⟨first, held⟩ := entry
    obtain ⟨hfresh, hnodup⟩ := List.nodup_cons.mp hnodup
    rw [List.lookup_cons, List.mem_cons]
    by_cases hkey : key = first
    · subst hkey
      have hrest : (key, value) ∉ dict := fun h => hfresh (List.mem_map.mpr ⟨_, h, rfl⟩)
      simp [hrest, eq_comm]
    · have hne : (key, value) ≠ (first, held) := fun h => hkey (Prod.mk.inj h).1
      rw [beq_false_of_ne hkey]
      simp [hne, ih hnodup]

/-- Dictionaries that map alike hold the same entries. -/
theorem perm_iff_lookup {κ ν : Type} [BEq κ] [LawfulBEq κ] {dict other : List (κ × ν)}
    (hdict : (dict.map Prod.fst).Nodup) (hother : (other.map Prod.fst).Nodup) :
    dict.Perm other ↔ ∀ key, dict.lookup key = other.lookup key := by
  rw [List.perm_ext_iff_of_nodup hdict.of_map hother.of_map]
  constructor
  · intro h key
    apply Option.ext
    intro value
    rw [← mem_iff_lookup hdict, ← mem_iff_lookup hother]
    exact h (key, value)
  · rintro h ⟨key, value⟩
    rw [mem_iff_lookup hdict, mem_iff_lookup hother, h key]

theorem scopes_iff (scopes others : List String) :
    ((scopes.insertionSort (· ≤ ·)).map Json.str = (others.insertionSort (· ≤ ·)).map Json.str) ↔
      scopes.Perm others := by
  have hinj : Function.Injective (List.map Json.str) :=
    List.map_injective_iff.mpr fun _ _ => Json.str.inj
  rw [hinj.eq_iff]
  exact insertionSort_eq_iff _ fun _ _ _ _ => String.le_antisymm

abbrev PositionLe (a b : Uuid × ℤ × String) : Prop := a.2.1 ≤ b.2.1

instance : Std.Total PositionLe := ⟨fun a b => Int.le_total a.2.1 b.2.1⟩

instance : IsTrans (Uuid × ℤ × String) PositionLe := ⟨fun _ _ _ hab hbc => Int.le_trans hab hbc⟩

/-- An entry tells its version, position and digest, and whether it was relied on. -/
theorem factEntry_iff (relied others : List Uuid) (f g : Uuid × ℤ × String) :
    sortKeys (factEntry relied f) = sortKeys (factEntry others g) ↔
      f = g ∧ relied.contains f.1 = others.contains g.1 := by
  have hkeys : ["fact_version_id", "position", "value_sha256", "relied_on"].Nodup := by
    decide
  rw [factEntry, factEntry, sortKeys_obj_iff hkeys rfl rfl]
  simp only [sortFields, sortKeys, List.cons.injEq, Prod.mk.injEq, Json.str.injEq, Json.int.injEq,
    Json.bool.injEq, true_and, and_true, uuidText_injective.eq_iff]
  constructor
  · rintro ⟨hversion, hposition, hdigest, hrelied⟩
    exact ⟨Prod.ext hversion (Prod.ext hposition hdigest), hrelied⟩
  · rintro ⟨rfl, hrelied⟩
    exact ⟨rfl, rfl, rfl, hrelied⟩

theorem factEntries_iff (relied others : List Uuid) (l m : List (Uuid × ℤ × String)) :
    sortItems (l.map (factEntry relied)) = sortItems (m.map (factEntry others)) ↔
      l = m ∧ ∀ f ∈ l, relied.contains f.1 = others.contains f.1 := by
  induction l generalizing m with
  | nil =>
    cases m with
    | nil => simp
    | cons g m => simp [sortItems]
  | cons f l ih =>
    cases m with
    | nil => simp [sortItems]
    | cons g m =>
      rw [List.map_cons, List.map_cons, sortItems, sortItems, List.cons.injEq, factEntry_iff,
        ih, List.cons.injEq]
      constructor
      · rintro ⟨⟨rfl, hfirst⟩, rfl, hrest⟩
        exact ⟨⟨rfl, rfl⟩, List.forall_mem_cons.mpr ⟨hfirst, hrest⟩⟩
      · rintro ⟨⟨rfl, rfl⟩, hall⟩
        exact ⟨⟨rfl, (List.forall_mem_cons.mp hall).1⟩, rfl, (List.forall_mem_cons.mp hall).2⟩

/-- The list of facts tells the facts as a map and which of them were relied on. -/
theorem facts_iff {τ : Type} {a b : ReceiptContent τ} (ha : WellFormed a) (hb : WellFormed b) :
    sortItems ((a.facts.insertionSort PositionLe).map (factEntry a.reliedOn)) =
        sortItems ((b.facts.insertionSort PositionLe).map (factEntry b.reliedOn)) ↔
      (∀ version, a.facts.lookup version = b.facts.lookup version) ∧
        ∀ version, version ∈ a.reliedOn ↔ version ∈ b.reliedOn := by
  have hanti : ∀ f ∈ a.facts, ∀ g ∈ a.facts, PositionLe f g → PositionLe g f → f = g := by
    intro f hf g hg hfg hgf
    exact List.inj_on_of_nodup_map ha.positions hf hg (Int.le_antisymm hfg hgf)
  rw [factEntries_iff, insertionSort_eq_iff PositionLe hanti,
    ← perm_iff_lookup ha.versions hb.versions]
  apply and_congr_right
  intro hperm
  constructor
  · intro h version
    have hsame : ∀ f ∈ a.facts, f.1 ∈ a.reliedOn ↔ f.1 ∈ b.reliedOn := by
      intro f hf
      have hcontains := h f ((List.mem_insertionSort _).mpr hf)
      rw [← List.contains_iff_mem, ← List.contains_iff_mem, hcontains]
    constructor
    · intro hversion
      obtain ⟨f, hf, rfl⟩ := List.mem_map.mp (ha.reliedOn version hversion)
      exact (hsame f hf).mp hversion
    · intro hversion
      obtain ⟨f, hf, rfl⟩ := List.mem_map.mp (hb.reliedOn version hversion)
      exact (hsame f (hperm.mem_iff.mpr hf)).mpr hversion
  · intro h f _
    rw [Bool.eq_iff_iff, List.contains_iff_mem, List.contains_iff_mem]
    exact h f.1

theorem decisionEntry_iff {a b : ReceiptContent} (ha : UniqueKeys a.outcome)
    (hb : UniqueKeys b.outcome) (hdecided : isoformat a.decidedAt = isoformat b.decidedAt ↔
      a.decidedAt = b.decidedAt) :
    sortKeys (.obj (decisionEntry a)) = sortKeys (.obj (decisionEntry b)) ↔
      a.decisionId = b.decisionId ∧ a.decidedAt = b.decidedAt ∧
      a.decidedByUserId = b.decidedByUserId ∧ a.agent = b.agent ∧ a.action = b.action ∧
      SameValue a.outcome b.outcome ∧ a.rationale = b.rationale := by
  have hkeys : ["id", "decided_at", "decided_by_user_id", "agent", "action", "outcome",
      "rationale"].Nodup := by
    decide
  rw [sortKeys_obj_iff hkeys rfl rfl]
  simp only [decisionEntry, sortFields, sortKeys, sortKeys_textOrNull, List.cons.injEq,
    Prod.mk.injEq, Json.str.injEq, true_and, and_true, uuidText_injective.eq_iff,
    textOrNull_injective.eq_iff, sortKeys_eq_iff ha hb, hdecided]

theorem contextEntry_iff {a b : ReceiptContent} (hvalid : isoformat a.validAt =
      isoformat b.validAt ↔ a.validAt = b.validAt)
    (hknown : isoformat a.knownAt = isoformat b.knownAt ↔ a.knownAt = b.knownAt) :
    sortKeys (.obj (contextEntry a)) = sortKeys (.obj (contextEntry b)) ↔
      a.snapshotId = b.snapshotId ∧ a.query = b.query ∧ a.validAt = b.validAt ∧
      a.knownAt = b.knownAt ∧ a.embeddingModel = b.embeddingModel ∧
      a.vectorSearch = b.vectorSearch ∧ a.privacyScopes.Perm b.privacyScopes := by
  have hkeys : ["snapshot_id", "query", "valid_at", "known_at", "embedding_model",
      "vector_search", "privacy_scopes"].Nodup := by
    decide
  have hleaf : ∀ texts : List String, (texts.map Json.str).map sortKeys = texts.map Json.str := by
    intro texts
    rw [List.map_map]
    rfl
  rw [sortKeys_obj_iff hkeys rfl rfl]
  simp only [contextEntry, sortFields, sortKeys, sortItems_eq, hleaf, List.cons.injEq,
    Prod.mk.injEq, Json.str.injEq, Json.arr.injEq, true_and, and_true, uuidText_injective.eq_iff,
    scopes_iff, hvalid, hknown]

/-- The document tells every field, for timestamps from the year 1 on. -/
theorem receiptDocument_iff {a b : ReceiptContent} (ha : WellFormed a) (hb : WellFormed b)
    (hiso : ∀ s ∈ [a.decidedAt, a.validAt, a.knownAt], ∀ t ∈ [b.decidedAt, b.validAt, b.knownAt],
      isoformat s = isoformat t ↔ s = t) :
    canonicalJson (receiptDocument a) = canonicalJson (receiptDocument b) ↔ Agree id a b := by
  have hkeys : ["schema", "organization_id", "decision", "context", "facts"].Nodup := by
    decide
  have hdecided := hiso a.decidedAt (by simp) b.decidedAt (by simp)
  have hvalid := hiso a.validAt (by simp) b.validAt (by simp)
  have hknown := hiso a.knownAt (by simp) b.knownAt (by simp)
  unfold canonicalJson
  rw [dumpsSorted_eq_iff]
  rw [receiptDocument, receiptDocument, sortKeys_obj_iff hkeys rfl rfl]
  rw [sortFields_eq, sortFields_eq]
  simp only [List.map_cons, List.map_nil, List.cons.injEq, Prod.mk.injEq, true_and, and_true,
    decisionEntry_iff ha.outcome hb.outcome hdecided, contextEntry_iff hvalid hknown]
  simp only [sortKeys, Json.str.injEq, Json.arr.injEq, uuidText_injective.eq_iff, facts_iff ha hb]
  constructor
  · rintro ⟨horg, ⟨hid, hat, hby, hagent, haction, houtcome, hrationale⟩,
      ⟨hsnapshot, hquery, hvalidAt, hknownAt, hmodel, hvector, hscopes⟩, hfacts, hrelied⟩
    exact ⟨horg, hid, hsnapshot, hat, hby, hagent, haction, houtcome, hrationale, hquery, hvalidAt,
      hknownAt, hmodel, hvector, hscopes, hfacts, hrelied⟩
  · rintro ⟨horg, hid, hsnapshot, hat, hby, hagent, haction, houtcome, hrationale, hquery, hvalidAt,
      hknownAt, hmodel, hvector, hscopes, hfacts, hrelied⟩
    exact ⟨horg, ⟨hid, hat, hby, hagent, haction, houtcome, hrationale⟩,
      ⟨hsnapshot, hquery, hvalidAt, hknownAt, hmodel, hvector, hscopes⟩, hfacts, hrelied⟩

/-- The instant an aware timestamp stands for. -/
def instantOf (value : Datetime) : Option Instant := value.utcoffset.map fun offset =>
  value.wall - offset

/-- The timestamp is aware, and its UTC form is a `datetime`. -/
def Representable (value : Datetime) : Prop :=
  ∃ t, instantOf value = some t ∧ minInstant ≤ t ∧ t ≤ maxInstant

theorem toUtc_eq_ok {value : Datetime} (h : Representable value) :
    ∃ t, toUtc value = .ok t ∧ instantOf value = some t ∧ minInstant ≤ t := by
  obtain ⟨t, ht, hmin, hmax⟩ := h
  obtain ⟨offset, hoffset, rfl⟩ := Option.map_eq_some_iff.mp ht
  refine ⟨_, ?_, ht, hmin⟩
  simp only [toUtc, hoffset]
  exact if_pos ⟨hmin, hmax⟩

/-- The timestamps of the content can all be moved to UTC. -/
structure Timed (content : ReceiptContent Datetime) : Prop where
  decidedAt : Representable content.decidedAt
  validAt : Representable content.validAt
  knownAt : Representable content.knownAt

/-- The content in UTC that the document is made from. -/
theorem zonedDocument_eq_ok {content : ReceiptContent Datetime} (h : Timed content) :
    ∃ decidedAt validAt knownAt, zonedDocument content =
        .ok (receiptDocument (content.withTimes decidedAt validAt knownAt)) ∧
      instantOf content.decidedAt = some decidedAt ∧ instantOf content.validAt = some validAt ∧
      instantOf content.knownAt = some knownAt ∧
      ∀ t ∈ [decidedAt, validAt, knownAt], minInstant ≤ t := by
  obtain ⟨decidedAt, hdecided, hdecidedAt, hdecidedMin⟩ := toUtc_eq_ok h.decidedAt
  obtain ⟨validAt, hvalid, hvalidAt, hvalidMin⟩ := toUtc_eq_ok h.validAt
  obtain ⟨knownAt, hknown, hknownAt, hknownMin⟩ := toUtc_eq_ok h.knownAt
  refine ⟨decidedAt, validAt, knownAt, ?_, hdecidedAt, hvalidAt, hknownAt, ?_⟩
  · rw [zonedDocument, hdecided, hvalid, hknown]
    rfl
  · simp only [List.mem_cons, List.not_mem_nil, or_false, forall_eq_or_imp, forall_eq]
    exact ⟨hdecidedMin, hvalidMin, hknownMin⟩

theorem WellFormed.withTimes {content : ReceiptContent Datetime} (h : WellFormed content)
    (decidedAt validAt knownAt : Instant) :
    WellFormed (content.withTimes decidedAt validAt knownAt) :=
  ⟨h.outcome, h.versions, h.positions, h.reliedOn⟩

/-- Contents with distinct positions, and relied-on versions among their facts, have the
same canonical text exactly when they agree on every field. -/
theorem canonicalJson_eq_iff_agree (a b : ReceiptContent Datetime) (ha : WellFormed a)
    (hb : WellFormed b) (htimesA : Timed a) (htimesB : Timed b) :
    ∃ documentA documentB, zonedDocument a = .ok documentA ∧ zonedDocument b = .ok documentB ∧
      (canonicalJson documentA = canonicalJson documentB ↔ Agree instantOf a b) := by
  obtain ⟨dA, vA, kA, hdocumentA, hdA, hvA, hkA, hminA⟩ := zonedDocument_eq_ok htimesA
  obtain ⟨dB, vB, kB, hdocumentB, hdB, hvB, hkB, hminB⟩ := zonedDocument_eq_ok htimesB
  refine ⟨_, _, hdocumentA, hdocumentB, ?_⟩
  rw [receiptDocument_iff (ha.withTimes dA vA kA) (hb.withTimes dB vB kB)]
  · constructor
    · intro h
      refine { h with decidedAt := ?_, validAt := ?_, knownAt := ?_ }
      · rw [hdA, hdB]
        exact congrArg some h.decidedAt
      · rw [hvA, hvB]
        exact congrArg some h.validAt
      · rw [hkA, hkB]
        exact congrArg some h.knownAt
    · intro h
      have hdecided := h.decidedAt
      have hvalid := h.validAt
      have hknown := h.knownAt
      rw [hdA, hdB] at hdecided
      rw [hvA, hvB] at hvalid
      rw [hkA, hkB] at hknown
      exact { h with
        decidedAt := Option.some.inj hdecided
        validAt := Option.some.inj hvalid
        knownAt := Option.some.inj hknown }
  · intro s hs t ht
    exact ⟨isoformat_inj (hminA s hs) (hminB t ht), fun h => h ▸ rfl⟩

/-- 2026-01-15 at 10:30 in UTC, on a clock with the given offset. -/
def exampleTime (offset : ℤ) : Datetime := ⟨1768473000000000 + offset, some offset⟩

def exampleFacts : List (Uuid × ℤ × String) :=
  [(1, 1, "0f8eb4b72b6e0c9e88b388eb967b49e067ef1004bf07bffc22c3acb13b43580a"),
   (2, 2, "1ee6fa77ced117e6045bbb22bf6e7495c3f4721401ad9a2a9061be4ef515190e")]

def exampleContent (offset : ℤ) (fields : List (String × Json)) (privacyScopes : List String)
    (facts : List (Uuid × ℤ × String)) : ReceiptContent Datetime where
  organizationId := 100
  decisionId := 200
  snapshotId := 300
  decidedAt := exampleTime offset
  decidedByUserId := 400
  agent := some "credit-review-agent v3"
  action := "credit.approve_increase"
  outcome := .obj fields
  rationale := some "Limit history and payment record support the increase."
  query := "credit limit customer-991"
  validAt := exampleTime offset
  knownAt := exampleTime offset
  embeddingModel := "deterministic:hash-v1"
  vectorSearch := "used"
  privacyScopes := privacyScopes
  facts := facts
  reliedOn := [1]

/-- Another time zone and another order of fields, scopes and facts leave the text. -/
theorem canonicalJson_eq_iff_agree_example :
    ∃ documentA documentB,
      zonedDocument (exampleContent 0 [("approved", .bool true), ("new_limit", .int 7500)]
        ["PUBLIC", "INTERNAL"] exampleFacts) = .ok documentA ∧
      zonedDocument (exampleContent (-4 * hour) [("new_limit", .int 7500),
        ("approved", .bool true)] ["INTERNAL", "PUBLIC"] exampleFacts.reverse) = .ok documentB ∧
      canonicalJson documentA = canonicalJson documentB := by
  have htimed : ∀ offset fields scopes facts,
      Timed (exampleContent offset fields scopes facts) := by
    intro offset fields scopes facts
    have htime : Representable (exampleTime offset) :=
      ⟨1768473000000000, by simp [exampleTime, instantOf], by decide, by decide⟩
    exact ⟨htime, htime, htime⟩
  obtain ⟨documentA, documentB, hA, hB, hiff⟩ := canonicalJson_eq_iff_agree
    (exampleContent 0 [("approved", .bool true), ("new_limit", .int 7500)]
      ["PUBLIC", "INTERNAL"] exampleFacts)
    (exampleContent (-4 * hour) [("new_limit", .int 7500), ("approved", .bool true)]
      ["INTERNAL", "PUBLIC"] exampleFacts.reverse)
    ⟨by simp [exampleContent, UniqueKeys, UniqueFields], by decide, by decide,
      by simp [exampleContent, exampleFacts]⟩
    ⟨by simp [exampleContent, UniqueKeys, UniqueFields], by decide, by decide,
      by simp [exampleContent, exampleFacts]⟩
    (htimed _ _ _ _) (htimed _ _ _ _)
  refine ⟨documentA, documentB, hA, hB, hiff.mpr ?_⟩
  refine ⟨rfl, rfl, rfl, ?_, rfl, rfl, rfl, ?_, rfl, rfl, ?_, ?_, rfl, rfl, ?_, ?_, fun _ => Iff.rfl⟩
  · simp [exampleContent, exampleTime, instantOf]
  · refine SameValue.obj (by simp [or_comm]) ?_
    intro key a b ha hb
    simp only [List.mem_cons, List.not_mem_nil, or_false, Prod.mk.injEq] at ha hb
    rcases ha with ⟨rfl, rfl⟩ | ⟨rfl, rfl⟩ <;> rcases hb with ⟨hkey, rfl⟩ | ⟨hkey, rfl⟩
    · exact absurd hkey (by decide)
    · exact SameValue.bool true
    · exact SameValue.int 7500
    · exact absurd hkey (by decide)
  · simp [exampleContent, exampleTime, instantOf]
  · simp [exampleContent, exampleTime, instantOf]
  · exact List.Perm.swap _ _ _
  · exact (perm_iff_lookup (by decide) (by decide)).mp (List.reverse_perm exampleFacts).symm

end ContextLedger.TamperEvidence

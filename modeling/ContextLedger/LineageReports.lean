import ContextLedger.McpTools
import ContextLedger.SourceImpact

/-!
The lineage of a decision in a graph that runs behind the tables. Every step is a version that
the decision relied on, listed once; what a step says is missing or in the rows of the
version, and a version above the ceiling of the reader is never more than its id and its
scope. When no event was pending, no step and no value is missing.
-/
namespace ContextLedger.LineageReports

open Values Authorization Schema Facts MergeStore Projection ProjectionOrder Provenance
open GraphWorld GraphCoherence GraphShown GraphImpact GraphContents GraphReadings SourceImpact
open McpTools hiding decisionLineage

def decisionLineage (stages : Stages) (ctx : TenantContext) (decisionId : Uuid) :
    Result DecisionLineage := do
  let (role, pendingEvents) ← stages.authorize ctx
  let visible := (visiblePrivacyScopes role [ctx.maxPrivacyScope]).map PrivacyScope.text
  stages.require ctx .decision "Decision" decisionId
  let records := (lineageRecords stages.asked.graph ctx.organizationId decisionId).take fetchLimit
  return ⟨decisionId, records.map (lineageStep visible), pendingEvents⟩

/-- The rows that a version comes from. -/
structure Upstream (db : Database) (v : FactVersion) (f : Fact) (e : Entity) (s : FactSource) :
    Prop where
  fact : f ∈ db.facts ∧ f.id = v.factId
  entity : e ∈ db.entities ∧ e.id = f.entityId
  source : s ∈ db.sources ∧ s.id = v.sourceId

/-- A value that the graph may not have yet. -/
def Says {α : Type} (said : Option α) (a : α) : Prop := said = none ∨ said = some a

/-- What a step says of a version is missing or true, and it says nothing of one that the
reader may not see. -/
structure StepOk (db : Database) (visible : List String) (v : FactVersion) (step : LineageStep) :
    Prop where
  id : step.factVersionId = v.id
  scope : step.privacyScope = "None" ∨ step.privacyScope = v.privacyScope.text
  redacted : v.privacyScope.text ∉ visible → step.redacted = true
  hidden : step.redacted = true → step.entityType = none ∧ step.externalId = none ∧
    step.property = none ∧ step.sourceId = none ∧ step.sourceName = none ∧ step.evidence = []
  told : ∃ f e s, Upstream db v f e s ∧ Says step.entityType e.entityType ∧
    Says step.externalId e.externalId ∧ Says step.property f.property ∧
    Says step.sourceId s.id ∧ Says step.sourceName s.name
  evidence : ∀ x ∈ step.evidence, ∃ l ∈ db.links, l.factVersionId = v.id ∧ l.evidenceId = x.id ∧
    x.relation = some l.relation.text ∧ ∃ e ∈ db.evidence, e.id = x.id ∧ Says x.sourceId e.sourceId
  evidence_sorted : step.evidence.Pairwise fun a b => a.id.toNat < b.id.toNat

/-- Nothing is missing. -/
structure StepFull (db : Database) (visible : List String) (v : FactVersion)
    (step : LineageStep) : Prop where
  scope : step.privacyScope = v.privacyScope.text
  redacted : step.redacted = true ↔ v.privacyScope.text ∉ visible
  told : v.privacyScope.text ∈ visible → ∃ f e s, Upstream db v f e s ∧
    step.entityType = some e.entityType ∧ step.externalId = some e.externalId ∧
    step.property = some f.property ∧ step.sourceId = some s.id ∧ step.sourceName = some s.name
  evidence : v.privacyScope.text ∈ visible → ∀ l ∈ db.links, l.factVersionId = v.id →
    ∃ e ∈ db.evidence, e.id = l.evidenceId ∧
      ⟨e.id, some l.relation.text, some e.sourceId⟩ ∈ step.evidence

/-- Every step is a version that the decision relied on, in the order of their ids. -/
structure LineageOk (db : Database) (org decisionId : Uuid) (visible : List String)
    (steps : List LineageStep) : Prop where
  listed : ∀ step ∈ steps, ∃ d ∈ db.decisions, d.id = decisionId ∧ d.organizationId = org ∧
    ∃ v ∈ db.versions, Relied db d v.id ∧ StepOk db visible v step
  sorted : steps.Pairwise fun a b => a.factVersionId.toNat < b.factVersionId.toNat

/-- Every version that the decision relied on has its step. -/
def LineageFull (db : Database) (org decisionId : Uuid) (visible : List String)
    (steps : List LineageStep) : Prop :=
  ∀ d ∈ db.decisions, d.id = decisionId → d.organizationId = org → ∀ v ∈ db.versions,
    Relied db d v.id → ∃ step ∈ steps, step.factVersionId = v.id ∧ StepFull db visible v step

theorem links_versionOf {r : Row} {a b : NodeKey} (h : (.versionOf, a, b) ∈ links r) :
    ∃ v, r = .factVersion v ∧ a = nodeKey .factVersion v.id ∧ b = nodeKey .fact v.factId := by
  cases r <;> simp [links] at h
  exact ⟨_, rfl, h⟩

theorem links_ofEntity {r : Row} {a b : NodeKey} (h : (.ofEntity, a, b) ∈ links r) :
    ∃ f, r = .fact f ∧ a = nodeKey .fact f.id ∧ b = nodeKey .entity f.entityId := by
  cases r <;> simp [links] at h
  exact ⟨_, rfl, h⟩

theorem mem_targets {g : Graph} {type : RelationshipType} {label : Label} {org : Uuid}
    {k k' : NodeKey} : k' ∈ targets g type label org k ↔
      (k, k') ∈ related g type ∧ isNode g label org k' = true := by
  simp only [targets, List.mem_map, List.mem_filter, Bool.and_eq_true, beq_iff_eq]
  constructor
  · rintro ⟨⟨a, b⟩, ⟨hmem, rfl, hnode⟩, rfl⟩
    exact ⟨hmem, hnode⟩
  · rintro ⟨hmem, hnode⟩
    exact ⟨(k, k'), ⟨hmem, rfl, hnode⟩, rfl⟩

theorem nodup_targets {g : Graph} (hg : g.Unique) (type : RelationshipType) (label : Label)
    (org : Uuid) (k : NodeKey) : (targets g type label org k).Nodup := by
  refine ((nodup_related hg type).filter _).map_on ?_
  rintro ⟨a, b⟩ hab ⟨a', b'⟩ hab' heq
  have ha := (Bool.and_eq_true_iff.mp (List.mem_filter.mp hab).2).1
  have ha' := (Bool.and_eq_true_iff.mp (List.mem_filter.mp hab').2).1
  exact Prod.ext ((beq_iff_eq.mp ha).trans (beq_iff_eq.mp ha').symm) heq

/-- Lists that tell where they come from have nothing in common. -/
theorem nodup_flatMap_of_key {α β : Type} {l : List α} {f : α → List β} (key : β → α)
    (hl : l.Nodup) (hf : ∀ a ∈ l, (f a).Nodup) (hkey : ∀ a, ∀ b ∈ f a, key b = a) :
    (l.flatMap f).Nodup := by
  refine List.nodup_flatMap.mpr ⟨hf, hl.imp fun hne => ?_⟩
  intro b hb hb'
  exact hne ((hkey _ b hb).symm.trans (hkey _ b hb'))

theorem mem_lineageMatches {g : Graph} {org decisionId : Uuid} {v s f e : NodeKey} :
    (v, s, f, e) ∈ lineageMatches g org decisionId ↔
      isNode g .decision org (nodeKey .decision decisionId) = true ∧
      v ∈ targets g .reliedOn .factVersion org (nodeKey .decision decisionId) ∧
      s ∈ targets g .assertedBy .source org v ∧ f ∈ targets g .versionOf .fact org v ∧
      e ∈ targets g .ofEntity .entity org f := by
  unfold lineageMatches
  by_cases hnode : isNode g .decision org (nodeKey .decision decisionId) = true
  · simp only [hnode, if_true, true_and, List.mem_flatMap, List.mem_map, Prod.mk.injEq]
    constructor
    · rintro ⟨_, hv, _, hs, _, hf, _, he, rfl, rfl, rfl, rfl⟩
      exact ⟨hv, hs, hf, he⟩
    · rintro ⟨hv, hs, hf, he⟩
      exact ⟨v, hv, s, hs, f, hf, e, he, rfl, rfl, rfl, rfl⟩
  · simp [hnode]

theorem nodup_lineageMatches {g : Graph} (hg : g.Unique) (org decisionId : Uuid) :
    (lineageMatches g org decisionId).Nodup := by
  simp only [lineageMatches]
  split
  · refine nodup_flatMap_of_key Prod.fst (nodup_targets hg _ _ _ _) (fun v _ => ?_) ?_
    · refine nodup_flatMap_of_key (fun m => m.2.1) (nodup_targets hg _ _ _ _) (fun s _ => ?_) ?_
      · refine nodup_flatMap_of_key (fun m => m.2.2.1) (nodup_targets hg _ _ _ _)
          (fun f _ => ?_) ?_
        · exact (nodup_targets hg _ _ _ _).map fun e e' h => congrArg (fun m => m.2.2.2) h
        · intro f m hm
          obtain ⟨e, -, rfl⟩ := List.mem_map.mp hm
          rfl
      · intro s m hm
        obtain ⟨f, -, hm⟩ := List.mem_flatMap.mp hm
        obtain ⟨e, -, rfl⟩ := List.mem_map.mp hm
        rfl
    · intro v m hm
      obtain ⟨s, -, hm⟩ := List.mem_flatMap.mp hm
      obtain ⟨f, -, hm⟩ := List.mem_flatMap.mp hm
      obtain ⟨e, -, rfl⟩ := List.mem_map.mp hm
      rfl
  · exact List.nodup_nil

/-- The rows of one match. -/
structure Matched (db : Database) (org decisionId : Uuid) (v : FactVersion) (f : Fact)
    (e : Entity) (s : FactSource) : Prop where
  relied : ∃ d ∈ db.decisions, d.id = decisionId ∧ d.organizationId = org ∧ Relied db d v.id
  version : v ∈ db.versions ∧ v.organizationId = org
  upstream : Upstream db v f e s

def keysOf (v : FactVersion) (f : Fact) (e : Entity) (s : FactSource) :
    NodeKey × NodeKey × NodeKey × NodeKey :=
  (nodeKey .factVersion v.id, nodeKey .source s.id, nodeKey .fact f.id, nodeKey .entity e.id)

section Matches

variable {rt : Runtime} {w : World} {org decisionId : Uuid}

theorem version_of_isNode (hw : Truthful rt w) {k : NodeKey}
    (h : isNode w.graph .factVersion org k = true) :
    ∃ v ∈ w.db.versions, v.organizationId = org ∧ k = nodeKey .factVersion v.id := by
  obtain ⟨hlabel, r, hr, hk, horg⟩ := exists_row_of_isNode hw.coherent hw.shown h
  obtain ⟨v, rfl, rfl⟩ := ownKey_factVersion hk hlabel
  exact ⟨v, mem_rowsOf.mp hr, horg, rfl⟩

theorem fact_of_versionOf (hw : Truthful rt w) {v : FactVersion} (hv : v ∈ w.db.versions)
    {k : NodeKey} (h : (nodeKey .factVersion v.id, k) ∈ related w.graph .versionOf) :
    ∃ f ∈ w.db.facts, f.id = v.factId ∧ k = nodeKey .fact f.id := by
  obtain ⟨r, hr, hlink⟩ := exists_row_of_related hw.coherent h
  obtain ⟨v', rfl, hid, rfl⟩ := links_versionOf hlink
  obtain rfl := version_eq hw.coherent (mem_rowsOf.mp hr) hv (nodeKey_inj.mp hid).symm
  obtain ⟨⟨f, hf, -, hfid⟩, -, -⟩ := closed_of_intact hw.coherent.intact _ hr
  exact ⟨f, mem_rowsOf.mp hf, hfid, by rw [hfid]⟩

theorem source_of_assertedBy (hw : Truthful rt w) {v : FactVersion} (hv : v ∈ w.db.versions)
    {k : NodeKey} (h : (nodeKey .factVersion v.id, k) ∈ related w.graph .assertedBy) :
    ∃ s ∈ w.db.sources, s.id = v.sourceId ∧ k = nodeKey .source s.id := by
  obtain ⟨r, hr, hlink⟩ := exists_row_of_related hw.coherent h
  obtain ⟨v', rfl, hid, rfl⟩ := links_assertedBy hlink
  obtain rfl := version_eq hw.coherent (mem_rowsOf.mp hr) hv (nodeKey_inj.mp hid).symm
  obtain ⟨-, ⟨s, hs, -, hsid⟩, -⟩ := closed_of_intact hw.coherent.intact _ hr
  exact ⟨s, mem_rowsOf.mp hs, hsid, by rw [hsid]⟩

theorem entity_of_ofEntity (hw : Truthful rt w) {f : Fact} (hf : f ∈ w.db.facts) {k : NodeKey}
    (h : (nodeKey .fact f.id, k) ∈ related w.graph .ofEntity) :
    ∃ e ∈ w.db.entities, e.id = f.entityId ∧ k = nodeKey .entity e.id := by
  obtain ⟨r, hr, hlink⟩ := exists_row_of_related hw.coherent h
  obtain ⟨f', rfl, hid, rfl⟩ := links_ofEntity hlink
  obtain rfl : f = f' := Row.fact.inj (eq_of_key_eq hw.coherent.intact (mem_rowsOf.mpr hf) hr rfl
    (by rw [Row.key, Row.key, nodeKey_inj.mp hid]))
  obtain ⟨e, he, -, heid⟩ := closed_of_intact hw.coherent.intact _ hr
  exact ⟨e, mem_rowsOf.mp he, heid, by rw [heid]⟩

theorem matched_of_mem (hw : Truthful rt w) {m : NodeKey × NodeKey × NodeKey × NodeKey}
    (h : m ∈ lineageMatches w.graph org decisionId) :
    ∃ v f e s, Matched w.db org decisionId v f e s ∧ m = keysOf v f e s := by
  obtain ⟨kv, ks, kf, ke⟩ := m
  obtain ⟨hnode, hv, hs, hf, he⟩ := mem_lineageMatches.mp h
  obtain ⟨hrelied, hvnode⟩ := mem_targets.mp hv
  obtain ⟨v, hvrow, hvorg, rfl⟩ := version_of_isNode hw hvnode
  obtain ⟨s, hsrow, hsid, rfl⟩ := source_of_assertedBy hw hvrow (mem_targets.mp hs).1
  obtain ⟨f, hfrow, hfid, rfl⟩ := fact_of_versionOf hw hvrow (mem_targets.mp hf).1
  obtain ⟨e, herow, heid, rfl⟩ := entity_of_ofEntity hw hfrow (mem_targets.mp he).1
  obtain ⟨d, hd, hkey, hdorg, hrelied⟩ := relied_of_related hw hnode hrelied
  exact ⟨v, f, e, s, ⟨⟨d, hd, (nodeKey_inj.mp hkey).symm, hdorg, hrelied⟩, ⟨hvrow, hvorg⟩,
    ⟨hfrow, hfid⟩, ⟨herow, heid⟩, ⟨hsrow, hsid⟩⟩, rfl⟩

/-- A version has one match. -/
theorem eq_of_version (hw : Truthful rt w) {m m' : NodeKey × NodeKey × NodeKey × NodeKey}
    (h : m ∈ lineageMatches w.graph org decisionId)
    (h' : m' ∈ lineageMatches w.graph org decisionId) (heq : m.1 = m'.1) : m = m' := by
  obtain ⟨v, f, e, s, hm, rfl⟩ := matched_of_mem hw h
  obtain ⟨v', f', e', s', hm', rfl⟩ := matched_of_mem hw h'
  obtain rfl := version_eq hw.coherent hm.version.1 hm'.version.1 (nodeKey_inj.mp heq)
  have hsid : s.id = s'.id := hm.upstream.source.2.trans hm'.upstream.source.2.symm
  have hfid : f.id = f'.id := hm.upstream.fact.2.trans hm'.upstream.fact.2.symm
  obtain rfl : f = f' := Row.fact.inj (eq_of_key_eq hw.coherent.intact
    (mem_rowsOf.mpr hm.upstream.fact.1) (mem_rowsOf.mpr hm'.upstream.fact.1) rfl
    (by rw [Row.key, Row.key, hfid]))
  have heid : e.id = e'.id := hm.upstream.entity.2.trans hm'.upstream.entity.2.symm
  rw [keysOf, keysOf, hsid, heid]

/-- The columns of a match. -/
def columnsFor (g : Graph) (m : NodeKey × NodeKey × NodeKey × NodeKey) (v s : Uuid) :
    LineageColumns where
  versionId := v
  privacyScope := textOf (propsOf g m.1 .privacyScope)
  property := textOf (propsOf g m.2.2.1 .property)
  entityType := textOf (propsOf g m.2.2.2 .entityType)
  externalId := textOf (propsOf g m.2.2.2 .externalId)
  sourceId := s
  sourceName := textOf (propsOf g m.2.1 .name)

theorem columnsOf_keysOf (g : Graph) (v : FactVersion) (f : Fact) (e : Entity) (s : FactSource) :
    columnsOf g (keysOf v f e s) = some (columnsFor g (keysOf v f e s) v.id s.id) := rfl

/-- Records and matches go together. -/
theorem mem_lineageRecords (hw : Truthful rt w) {record : LineageRecord} :
    record ∈ lineageRecords w.graph org decisionId ↔ ∃ v f e s,
      Matched w.db org decisionId v f e s ∧
      keysOf v f e s ∈ lineageMatches w.graph org decisionId ∧
      record = ⟨columnsFor w.graph (keysOf v f e s) v.id s.id,
        evidenceRecords w.graph org (nodeKey .factVersion v.id)⟩ := by
  have hone : ∀ v f e s, keysOf v f e s ∈ lineageMatches w.graph org decisionId →
      ((lineageMatches w.graph org decisionId).filter fun row =>
        columnsOf w.graph row == some (columnsFor w.graph (keysOf v f e s) v.id s.id)) =
          [keysOf v f e s] := by
    intro v f e s hmem
    have hsame : ∀ row ∈ lineageMatches w.graph org decisionId,
        (columnsOf w.graph row == some (columnsFor w.graph (keysOf v f e s) v.id s.id)) =
          (row == keysOf v f e s) := by
      intro row hrow
      obtain ⟨v', f', e', s', -, rfl⟩ := matched_of_mem hw hrow
      rw [Bool.eq_iff_iff, beq_iff_eq, beq_iff_eq, columnsOf_keysOf]
      constructor
      · intro h
        have hid : v'.id = v.id := congrArg LineageColumns.versionId (Option.some.inj h)
        exact eq_of_version hw hrow hmem (congrArg (nodeKey .factVersion) hid)
      · intro h
        rw [← columnsOf_keysOf, h, columnsOf_keysOf]
    rw [List.filter_congr hsame, List.filter_beq,
      List.count_eq_one_of_mem (nodup_lineageMatches hw.coherent.tidy.unique org decisionId) hmem]
    rfl
  simp only [lineageRecords, List.mem_insertionSort, List.mem_map, List.mem_dedup,
    List.mem_filterMap]
  constructor
  · rintro ⟨columns, ⟨m, hm, hcolumns⟩, rfl⟩
    obtain ⟨v, f, e, s, hmatched, rfl⟩ := matched_of_mem hw hm
    rw [columnsOf_keysOf] at hcolumns
    obtain rfl := Option.some.inj hcolumns
    exact ⟨v, f, e, s, hmatched, hm, by rw [hone v f e s hm]; simp [keysOf]⟩
  · rintro ⟨v, f, e, s, -, hm, rfl⟩
    exact ⟨_, ⟨_, hm, columnsOf_keysOf w.graph v f e s⟩, by rw [hone v f e s hm]; simp [keysOf]⟩

end Matches

/-- Sorting by distinct ids. -/
theorem sorted_of_nodup {α : Type} (key : α → Uuid) {l : List α} (h : (l.map key).Nodup) :
    (l.insertionSort fun a b => uuidLe (key a) (key b)).Pairwise
      fun a b => (key a).toNat < (key b).toNat := by
  have : Std.Total fun a b => uuidLe (key a) (key b) :=
    ⟨fun a b => Nat.le_total (key a).toNat (key b).toNat⟩
  have : IsTrans α fun a b => uuidLe (key a) (key b) := ⟨fun _ _ _ => Nat.le_trans⟩
  have hsorted : (l.insertionSort fun a b => uuidLe (key a) (key b)).Pairwise
      fun a b => uuidLe (key a) (key b) := List.pairwise_insertionSort _ _
  have hnodup : (l.insertionSort fun a b => uuidLe (key a) (key b)).Pairwise
      fun a b => key a ≠ key b :=
    List.pairwise_map.mp ((List.perm_insertionSort _ l).map key |>.nodup_iff.mpr h)
  refine (hsorted.and hnodup).imp fun hboth => ?_
  exact lt_of_le_of_ne hboth.1 fun heq => hboth.2 (BitVec.eq_of_toNat_eq heq)

theorem sorted_lineageRecords {rt : Runtime} {w : World} (hw : Truthful rt w)
    (org decisionId : Uuid) : (lineageRecords w.graph org decisionId).Pairwise
      fun a b => a.columns.versionId.toNat < b.columns.versionId.toNat := by
  refine sorted_of_nodup (fun r : LineageRecord => r.columns.versionId) ?_
  rw [List.map_map]
  refine (List.nodup_dedup _).map_on ?_
  intro columns hcolumns columns' hcolumns' heq
  obtain ⟨m, hm, hmc⟩ := List.mem_filterMap.mp (List.mem_dedup.mp hcolumns)
  obtain ⟨m', hm', hmc'⟩ := List.mem_filterMap.mp (List.mem_dedup.mp hcolumns')
  obtain ⟨v, f, e, s, -, rfl⟩ := matched_of_mem hw hm
  obtain ⟨v', f', e', s', -, rfl⟩ := matched_of_mem hw hm'
  rw [columnsOf_keysOf] at hmc hmc'
  obtain rfl := Option.some.inj hmc
  obtain rfl := Option.some.inj hmc'
  have hid : v.id = v'.id := heq
  have hsame := eq_of_version hw hm hm' (congrArg (nodeKey .factVersion) hid)
  exact Option.some.inj (by rw [← columnsOf_keysOf, ← columnsOf_keysOf, hsame])

section Evidence

variable {rt : Runtime} {w : World} {org : Uuid}

theorem mem_evidenceRecords {g : Graph} {k : NodeKey} {x : EvidenceRecord} :
    x ∈ evidenceRecords g org k ↔ ∃ l ∈ g.relationships, ∃ xk,
      l.key = (.evidenceFor, xk, k) ∧ isNode g .evidence org xk = true ∧ ∃ id,
        uuidOf xk.2 = some id ∧ x = ⟨id, textOf (l.props .relation),
          ((related g .fromSource).find? fun r => r.1 == xk).bind fun r => uuidOf r.2.2⟩ := by
  simp only [evidenceRecords, List.mem_filterMap, Option.ite_none_right_eq_some,
    Option.map_eq_some_iff]
  constructor
  · rintro ⟨l, hl, ⟨htype, rfl, hnode⟩, id, hid, rfl⟩
    exact ⟨l, hl, l.key.2.1, Prod.ext htype rfl, hnode, id, hid, rfl⟩
  · rintro ⟨l, hl, xk, hkey, hnode, id, hid, rfl⟩
    refine ⟨l, hl, ?_⟩
    rw [hkey]
    exact ⟨⟨rfl, rfl, hnode⟩, id, hid, rfl⟩

theorem nodup_evidenceRecords {g : Graph} (hg : g.Unique) (k : NodeKey) :
    ((evidenceRecords g org k).map EvidenceRecord.id).Nodup := by
  refine List.pairwise_map.mpr (List.pairwise_filterMap.mpr ?_)
  refine (List.pairwise_map.mp hg.2).imp fun hne x hx x' hx' hid => hne ?_
  obtain ⟨⟨htype, hk, hnode⟩, hx⟩ := Option.ite_none_right_eq_some.mp hx
  obtain ⟨⟨htype', hk', hnode'⟩, hx'⟩ := Option.ite_none_right_eq_some.mp hx'
  obtain ⟨id, huuid, rfl⟩ := Option.map_eq_some_iff.mp hx
  obtain ⟨id', huuid', rfl⟩ := Option.map_eq_some_iff.mp hx'
  obtain rfl : id = id' := hid
  refine Prod.ext (htype.trans htype'.symm) (Prod.ext ?_ (hk.trans hk'.symm))
  rw [eq_nodeKey (isNode_eq_true.mp hnode).1 huuid, eq_nodeKey (isNode_eq_true.mp hnode').1 huuid']

theorem evidence_of_fromSource (hw : Truthful rt w) {e : Evidence} (he : e ∈ w.db.evidence)
    {k : NodeKey} (h : (nodeKey .evidence e.id, k) ∈ related w.graph .fromSource) :
    k = nodeKey .source e.sourceId := by
  obtain ⟨r, hr, hlink⟩ := exists_row_of_related hw.coherent h
  obtain ⟨e', rfl, hid, rfl⟩ := links_fromSource hlink
  rw [evidence_eq hw.coherent.intact he (mem_rowsOf.mp hr) (nodeKey_inj.mp hid)]

/-- The first source of a piece of evidence is its source. -/
theorem firstSource (hw : Truthful rt w) {e : Evidence} (he : e ∈ w.db.evidence) :
    Says (((related w.graph .fromSource).find? fun r => r.1 == nodeKey .evidence e.id).bind
      fun r => uuidOf r.2.2) e.sourceId ∧
      ((nodeKey .evidence e.id, nodeKey .source e.sourceId) ∈ related w.graph .fromSource →
        (((related w.graph .fromSource).find? fun r => r.1 == nodeKey .evidence e.id).bind
          fun r => uuidOf r.2.2) = some e.sourceId) := by
  cases hfind : (related w.graph .fromSource).find? fun r => r.1 == nodeKey .evidence e.id with
  | none =>
    refine ⟨Or.inl rfl, fun h => absurd h ?_⟩
    exact fun h => by simpa using List.find?_eq_none.mp hfind _ h
  | some r =>
    obtain ⟨xk, sk⟩ := r
    obtain rfl : xk = nodeKey .evidence e.id := by simpa using List.find?_some hfind
    obtain rfl := evidence_of_fromSource hw he (List.mem_of_find?_eq_some hfind)
    exact ⟨Or.inr rfl, fun _ => rfl⟩

end Evidence

theorem text_notMem {scopes : List PrivacyScope} : "None" ∉ scopes.map PrivacyScope.text := by
  intro h
  obtain ⟨scope, -, htext⟩ := List.mem_map.mp h
  cases scope <;> exact absurd htext (by decide)

theorem says_text {p : Option Value} {s : String} (h : p = none ∨ p = some (.text s)) :
    Says (textOf p) s :=
  h.imp (congrArg textOf) (congrArg textOf)

theorem lineageStep_factVersionId (visible : List String) (record : LineageRecord) :
    (lineageStep visible record).factVersionId = record.columns.versionId := by
  unfold lineageStep
  split <;> rfl

section Steps

variable {rt : Runtime} {w : World} {org decisionId : Uuid} {scopes : List PrivacyScope}

theorem evidenceOk (hw : Truthful rt w) {v : FactVersion} {x : EvidenceRecord}
    (hx : x ∈ evidenceRecords w.graph org (nodeKey .factVersion v.id)) :
    ∃ l ∈ w.db.links, l.factVersionId = v.id ∧ l.evidenceId = x.id ∧
      x.relation = some l.relation.text ∧
        ∃ e ∈ w.db.evidence, e.id = x.id ∧ Says x.sourceId e.sourceId := by
  obtain ⟨edge, hedge, xk, hkey, -, id, hid, rfl⟩ := mem_evidenceRecords.mp hx
  obtain ⟨l, hl, rfl, hversion, hrelation⟩ := exists_link hw hedge hkey
  obtain rfl : l.evidenceId = id := Option.some.inj hid
  obtain ⟨-, e, he, heid, -⟩ := known_of_link hw.coherent.intact hl
  refine ⟨l, hl, (nodeKey_inj.mp hversion).symm, rfl, congrArg textOf hrelation, e, he, heid, ?_⟩
  rw [← heid]
  exact (firstSource hw he).1

/-- What a record says, before the scope is looked at. -/
theorem told_of_matched (hw : Truthful rt w) {v : FactVersion} {f : Fact} {e : Entity}
    {s : FactSource} (h : Matched w.db org decisionId v f e s) :
    let columns := columnsFor w.graph (keysOf v f e s) v.id s.id
    Says columns.privacyScope v.privacyScope.text ∧ Says columns.entityType e.entityType ∧
      Says columns.externalId e.externalId ∧ Says columns.property f.property ∧
      Says columns.sourceName s.name :=
  ⟨says_text (hw.prop (r := .factVersion v) (mem_rowsOf.mpr h.version.1) rfl
      (f := .privacyScope) (by simp) (by simp [endFields])),
    says_text (hw.prop (r := .entity e) (mem_rowsOf.mpr h.upstream.entity.1) rfl
      (f := .entityType) (by simp) (by simp [endFields])),
    says_text (hw.prop (r := .entity e) (mem_rowsOf.mpr h.upstream.entity.1) rfl
      (f := .externalId) (by simp) (by simp [endFields])),
    says_text (hw.prop (r := .fact f) (mem_rowsOf.mpr h.upstream.fact.1) rfl
      (f := .property) (by simp) (by simp [endFields])),
    says_text (hw.prop (r := .factSource s) (mem_rowsOf.mpr h.upstream.source.1) rfl
      (f := .name) (by simp) (by simp [endFields]))⟩

theorem stepOk_of_matched (hw : Truthful rt w) {v : FactVersion} {f : Fact} {e : Entity}
    {s : FactSource} (h : Matched w.db org decisionId v f e s) :
    StepOk w.db (scopes.map PrivacyScope.text) v (lineageStep (scopes.map PrivacyScope.text)
      ⟨columnsFor w.graph (keysOf v f e s) v.id s.id,
        evidenceRecords w.graph org (nodeKey .factVersion v.id)⟩) := by
  obtain ⟨hscope, htype, hexternal, hproperty, hname⟩ := told_of_matched hw h
  have hsaid : ((columnsFor w.graph (keysOf v f e s) v.id s.id).privacyScope.getD "None") = "None" ∨
      ((columnsFor w.graph (keysOf v f e s) v.id s.id).privacyScope.getD "None") =
        v.privacyScope.text :=
    hscope.imp (fun hnone => by rw [hnone]; rfl) (fun hsome => by rw [hsome]; rfl)
  unfold lineageStep
  split
  · rename_i hvisible
    have hmem : (columnsFor w.graph (keysOf v f e s) v.id s.id).privacyScope.getD "None" ∈
        scopes.map PrivacyScope.text := List.contains_iff_mem.mp hvisible
    refine ⟨rfl, hsaid, fun hnot => ?_, fun hredacted => absurd hredacted (by simp),
      ⟨f, e, s, h.upstream, htype, hexternal, hproperty, Or.inr rfl, hname⟩, fun x hx => ?_, ?_⟩
    · rcases hsaid with hnone | hsome
      · exact absurd (hnone ▸ hmem) text_notMem
      · exact absurd (hsome ▸ hmem) hnot
    · exact evidenceOk hw ((List.mem_insertionSort _).mp hx)
    · exact sorted_of_nodup EvidenceRecord.id (nodup_evidenceRecords hw.coherent.tidy.unique _)
  · exact ⟨rfl, hsaid, fun _ => rfl, fun _ => ⟨rfl, rfl, rfl, rfl, rfl, rfl⟩,
      ⟨f, e, s, h.upstream, Or.inl rfl, Or.inl rfl, Or.inl rfl, Or.inl rfl, Or.inl rfl⟩,
      fun x hx => absurd hx List.not_mem_nil, List.Pairwise.nil⟩

theorem lineageOk (hw : Truthful rt w) (n : ℕ) :
    LineageOk w.db org decisionId (scopes.map PrivacyScope.text)
      (((lineageRecords w.graph org decisionId).take n).map
        (lineageStep (scopes.map PrivacyScope.text))) := by
  refine ⟨fun step hstep => ?_, List.pairwise_map.mpr ?_⟩
  · obtain ⟨record, hrecord, rfl⟩ := List.mem_map.mp hstep
    obtain ⟨v, f, e, s, hmatched, -, rfl⟩ :=
      (mem_lineageRecords hw).mp (List.mem_of_mem_take hrecord)
    obtain ⟨d, hd, hid, horg, hrelied⟩ := hmatched.relied
    exact ⟨d, hd, hid, horg, v, hmatched.version.1, hrelied, stepOk_of_matched hw hmatched⟩
  · refine ((sorted_lineageRecords hw org decisionId).sublist (List.take_sublist _ _)).imp ?_
    intro a b hlt
    rw [lineageStep_factVersionId, lineageStep_factVersionId]
    exact hlt

variable {seen : Database}

/-- The rows that a version comes from are there. -/
theorem exists_upstream {db : Database} (hdb : intact db = true) {v : FactVersion}
    (hv : v ∈ db.versions) : ∃ f e s, Upstream db v f e s ∧
      f.organizationId = v.organizationId ∧ e.organizationId = v.organizationId ∧
      s.organizationId = v.organizationId := by
  have hclosed := closed_of_intact hdb
  obtain ⟨⟨f, hf, hforg, hfid⟩, ⟨s, hs, hsorg, hsid⟩, -⟩ :=
    hclosed (.factVersion v) (mem_rowsOf.mpr hv)
  obtain ⟨e, he, heorg, heid⟩ := hclosed _ hf
  exact ⟨f, e, s, ⟨⟨mem_rowsOf.mp hf, hfid⟩, ⟨mem_rowsOf.mp he, heid⟩, ⟨mem_rowsOf.mp hs, hsid⟩⟩,
    hforg, heorg.trans hforg, hsorg⟩

/-- What was in the tables is a match. -/
theorem mem_matches_of_since (hw : Truthful rt w) (hsince : Since rt w org seen) {d : Decision}
    (hd : d ∈ seen.decisions) (hdorg : d.organizationId = org) {v : FactVersion}
    (hv : v ∈ seen.versions) (hvorg : v.organizationId = org) (hrelied : Relied seen d v.id)
    {f : Fact} {e : Entity} {s : FactSource} (h : Upstream seen v f e s)
    (hforg : f.organizationId = org) (heorg : e.organizationId = org)
    (hsorg : s.organizationId = org) :
    keysOf v f e s ∈ lineageMatches w.graph org d.id := by
  have hvrow : Row.factVersion v ∈ rowsOf seen := mem_rowsOf.mpr hv
  have hfrow : Row.fact f ∈ rowsOf seen := mem_rowsOf.mpr h.fact.1
  refine mem_lineageMatches.mpr ⟨?_, mem_targets.mpr ⟨?_, ?_⟩, mem_targets.mpr ⟨?_, ?_⟩,
    mem_targets.mpr ⟨?_, ?_⟩, mem_targets.mpr ⟨?_, ?_⟩⟩
  · exact hsince.isNode hw (r := .decision d) (mem_rowsOf.mpr hd) hdorg rfl
  · obtain ⟨i, hi, hdecision, hversion⟩ := hrelied
    obtain ⟨hiorg, -⟩ := org_of_relied hsince.intact hv hd hi hdecision hversion
    refine hsince.related (r := .decisionFact i) (mem_rowsOf.mpr hi) (hiorg.trans hvorg) ?_
    rw [← hdecision, ← hversion]
    exact List.mem_cons_self
  · exact hsince.isNode hw hvrow hvorg rfl
  · refine hsince.related hvrow hvorg ?_
    simp [links, nodeKey, h.source.2]
  · exact hsince.isNode hw (r := .factSource s) (mem_rowsOf.mpr h.source.1) hsorg rfl
  · refine hsince.related hvrow hvorg ?_
    simp [links, nodeKey, h.fact.2]
  · exact hsince.isNode hw hfrow hforg rfl
  · refine hsince.related hfrow hforg ?_
    simp [links, nodeKey, h.entity.2]
  · exact hsince.isNode hw (r := .entity e) (mem_rowsOf.mpr h.entity.1) heorg rfl

/-- What a record says of rows that the graph has in full. -/
theorem columnsFor_since (hsince : Since rt w org seen) {v : FactVersion}
    (hv : v ∈ seen.versions) (hvorg : v.organizationId = org) {f : Fact} {e : Entity}
    {s : FactSource} (h : Upstream seen v f e s) (hforg : f.organizationId = org)
    (heorg : e.organizationId = org) (hsorg : s.organizationId = org) :
    columnsFor w.graph (keysOf v f e s) v.id s.id =
      ⟨v.id, some v.privacyScope.text, some f.property, some e.entityType, some e.externalId, s.id,
        some s.name⟩ := by
  have hscope := hsince.prop (r := .factVersion v) (mem_rowsOf.mpr hv) hvorg rfl
    (f := .privacyScope) (by simp [labelFields]) (by simp [endFields])
  have hproperty := hsince.prop (r := .fact f) (mem_rowsOf.mpr h.fact.1) hforg rfl
    (f := .property) (by simp [labelFields]) (by simp [endFields])
  have htype := hsince.prop (r := .entity e) (mem_rowsOf.mpr h.entity.1) heorg rfl
    (f := .entityType) (by simp [labelFields]) (by simp [endFields])
  have hexternal := hsince.prop (r := .entity e) (mem_rowsOf.mpr h.entity.1) heorg rfl
    (f := .externalId) (by simp [labelFields]) (by simp [endFields])
  have hname := hsince.prop (r := .factSource s) (mem_rowsOf.mpr h.source.1) hsorg rfl
    (f := .name) (by simp [labelFields]) (by simp [endFields])
  rw [columnsFor, LineageColumns.mk.injEq]
  exact ⟨rfl, congrArg textOf hscope, congrArg textOf hproperty, congrArg textOf htype,
    congrArg textOf hexternal, rfl, congrArg textOf hname⟩

theorem evidence_since (hw : Truthful rt w) (hsince : Since rt w org seen) {v : FactVersion}
    (hv : v ∈ seen.versions) (hvorg : v.organizationId = org) {l : FactVersionEvidence}
    (hl : l ∈ seen.links) (hversion : l.factVersionId = v.id) :
    ∃ e ∈ seen.evidence, e.id = l.evidenceId ∧
      ⟨e.id, some l.relation.text, some e.sourceId⟩ ∈
        evidenceRecords w.graph org (nodeKey .factVersion v.id) := by
  obtain ⟨⟨v', hv', hvid', hvorg'⟩, e, he, heid, heorg⟩ := known_of_link hsince.intact hl
  have hlorg : l.organizationId = org := by
    have hvv : Row.factVersion v' = Row.factVersion v := eq_of_key_eq hsince.intact
      (mem_rowsOf.mpr hv') (mem_rowsOf.mpr hv) rfl (by rw [Row.key, Row.key, hvid', hversion])
    rw [← hvorg', Row.factVersion.inj hvv, hvorg]
  have herow : Row.evidence e ∈ rowsOf seen := mem_rowsOf.mpr he
  have heorg' : e.organizationId = org := heorg.trans hlorg
  obtain ⟨edge, hedge, hkey, hsaid⟩ := evidenceFor_of_since hw hsince hl hlorg
  rw [← heid, hversion] at hkey
  obtain ⟨r, hr, hlater⟩ := hsince.grows.kept (.evidence e) herow
  have he' : e ∈ w.db.evidence := by
    rcases hlater with rfl | ⟨v, u, t, heq, -⟩
    · exact mem_rowsOf.mp hr
    · exact absurd heq (by simp)
  have hfirst := (firstSource hw he').2 (hsince.related herow heorg' List.mem_cons_self)
  refine ⟨e, he, heid, mem_evidenceRecords.mpr ⟨edge, hedge, nodeKey .evidence e.id, hkey,
    hsince.isNode hw herow heorg' rfl, e.id, rfl, ?_⟩⟩
  rw [hsaid, hfirst]
  rfl

theorem stepFull_of_since (hw : Truthful rt w) (hsince : Since rt w org seen) {v : FactVersion}
    (hv : v ∈ seen.versions) (hvorg : v.organizationId = org) {f : Fact} {e : Entity}
    {s : FactSource} (h : Upstream seen v f e s) :
    StepFull seen (scopes.map PrivacyScope.text) v (lineageStep (scopes.map PrivacyScope.text)
      ⟨⟨v.id, some v.privacyScope.text, some f.property, some e.entityType, some e.externalId, s.id,
        some s.name⟩, evidenceRecords w.graph org (nodeKey .factVersion v.id)⟩) := by
  unfold lineageStep
  split
  · rename_i hvisible
    have hmem : v.privacyScope.text ∈ scopes.map PrivacyScope.text :=
      List.contains_iff_mem.mp hvisible
    refine ⟨rfl, iff_of_false (by simp) fun hnot => hnot hmem,
      fun _ => ⟨f, e, s, h, rfl, rfl, rfl, rfl, rfl⟩, fun _ l hl hversion => ?_⟩
    obtain ⟨x, hx, hid, hrecord⟩ := evidence_since hw hsince hv hvorg hl hversion
    exact ⟨x, hx, hid, (List.mem_insertionSort _).mpr hrecord⟩
  · rename_i hhidden
    have hnot : v.privacyScope.text ∉ scopes.map PrivacyScope.text :=
      fun hmem => hhidden (List.contains_iff_mem.mpr hmem)
    exact ⟨rfl, iff_of_true rfl hnot, fun hmem => absurd hmem hnot, fun hmem => absurd hmem hnot⟩

theorem lineageFull (hw : Truthful rt w) (hsince : Since rt w org seen) :
    LineageFull seen org decisionId (scopes.map PrivacyScope.text)
      ((lineageRecords w.graph org decisionId).map
        (lineageStep (scopes.map PrivacyScope.text))) := by
  rintro d hd rfl hdorg v hv hrelied
  obtain ⟨i, hi, hdecision, hversion⟩ := hrelied
  have hvorg : v.organizationId = org :=
    (org_of_relied hsince.intact hv hd hi hdecision hversion).2.symm.trans hdorg
  obtain ⟨f, e, s, hupstream, hforg, heorg, hsorg⟩ := exists_upstream hsince.intact hv
  rw [hvorg] at hforg heorg hsorg
  have hmatch := mem_matches_of_since hw hsince hd hdorg hv hvorg ⟨i, hi, hdecision, hversion⟩
    hupstream hforg heorg hsorg
  have hcolumns := columnsFor_since hsince hv hvorg hupstream hforg heorg hsorg
  obtain ⟨v', f', e', s', hmatched, hkeys⟩ := matched_of_mem hw hmatch
  have hrecord := (mem_lineageRecords hw).mpr ⟨v', f', e', s', hmatched, hkeys ▸ hmatch, rfl⟩
  have hv' : v'.id = v.id := (nodeKey_inj.mp (congrArg Prod.fst hkeys)).symm
  have hs' : s'.id = s.id := (nodeKey_inj.mp (congrArg (fun m => m.2.1) hkeys)).symm
  rw [← hkeys, hv', hs', hcolumns] at hrecord
  refine ⟨_, List.mem_map_of_mem hrecord, lineageStep_factVersionId _ _, ?_⟩
  exact stepFull_of_since hw hsince hv hvorg hupstream

end Steps

/-- A lineage has a step for nothing but what the decision relied on, says nothing of a version
above the ceiling of the reader, and, when no event was pending, leaves nothing out. -/
theorem lineage_exact {rt : Runtime} (reading : Reading rt) (ctx : TenantContext)
    (decisionId : Uuid) (lineage : DecisionLineage)
    (h : decisionLineage reading.toStages ctx decisionId = .ok lineage) :
    let org := ctx.organizationId
    ∃ role, requirePermission reading.permitted.db ctx .readDecisions = .ok role ∧
      let visible := (visiblePrivacyScopes role [ctx.maxPrivacyScope]).map PrivacyScope.text
      LineageOk reading.asked.db org decisionId visible lineage.reliedOn ∧
        (lineage.pendingEvents = 0 →
          (lineageRecords reading.asked.graph org decisionId).length ≤ fetchLimit →
          LineageFull reading.counted.db org decisionId visible lineage.reliedOn) := by
  obtain ⟨⟨role, n⟩, hauthorize, h⟩ := bind_eq_ok.mp h
  obtain ⟨-, -, h⟩ := bind_eq_ok.mp h
  obtain ⟨hrole, rfl⟩ := pending_of_authorize hauthorize
  obtain rfl := Except.ok.inj h
  have hw := reading.asked_truthful
  refine ⟨role, hrole, lineageOk hw fetchLimit, fun hpending hlength => ?_⟩
  have hall := List.take_of_length_le hlength
  show LineageFull _ _ _ _ (((lineageRecords _ _ _).take fetchLimit).map _)
  rw [hall]
  exact lineageFull hw (reading.since hpending)

/-- Whether the lineage is what the example expects. -/
def exampleLineage (stages : Stages) : Bool :=
  match decisionLineage stages exampleContext 50 with
  | .ok lineage => decide (lineage.pendingEvents = 0 ∧
      lineage.reliedOn.map (fun step => (step.factVersionId, step.redacted, step.sourceName,
        step.evidence.map EvidenceRecord.id)) = [(12, false, some "crm", [60])] ∧
      (lineageRecords stages.asked.graph 1 50).length ≤ fetchLimit)
  | .error _ => false

theorem exampleShown_lineage : ((system exampleRuntime).run exampleStart exampleShown).any
    (fun w => ((system exampleRuntime).run w exampleLater).any fun w' =>
      exampleLineage ⟨w, w, w, w'⟩) = true := by
  decide +kernel

theorem lineage_exact_example : ∃ (reading : Reading exampleRuntime) (lineage : DecisionLineage),
    decisionLineage reading.toStages exampleContext 50 = .ok lineage ∧
      lineage.reliedOn.map LineageStep.factVersionId = [12] ∧
      ∃ visible, LineageOk reading.asked.db 1 50 visible lineage.reliedOn ∧
        LineageFull reading.counted.db 1 50 visible lineage.reliedOn := by
  obtain ⟨w, hrun, hany⟩ := (Option.any_eq_true _ _).mp exampleShown_lineage
  obtain ⟨w', hrun', hanswer⟩ := (Option.any_eq_true _ _).mp hany
  let reading : Reading exampleRuntime := ⟨⟨w, w, w, w'⟩,
    ⟨exampleStart, exampleShown, exampleStart_start, hrun⟩, ⟨[], rfl⟩, ⟨[], rfl⟩,
    ⟨exampleLater, hrun'⟩⟩
  cases hlineage : decisionLineage reading.toStages exampleContext 50 with
  | ok lineage =>
    rw [exampleLineage, hlineage] at hanswer
    obtain ⟨hpending, hsteps, hlength⟩ := of_decide_eq_true hanswer
    obtain ⟨role, -, hok, hfull⟩ := lineage_exact reading exampleContext 50 lineage hlineage
    have hids : lineage.reliedOn.map LineageStep.factVersionId = [12] := by
      simpa [Function.comp_def] using congrArg (List.map Prod.fst) hsteps
    exact ⟨reading, lineage, hlineage, hids, _, hok, hfull hpending hlength⟩
  | error failure =>
    rw [exampleLineage, hlineage] at hanswer
    exact absurd hanswer (by simp)

end ContextLedger.LineageReports

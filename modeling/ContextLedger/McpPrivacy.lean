import ContextLedger.McpTools
import ContextLedger.Manageability

/-!
What an agent sees over MCP against its ceiling. The facts and the history of an
entity are filtered by the ceiling, and a receipt hides the facts above it. The
evidence of a receipt and the steps of a lineage are only compared with the role
of the user: the ceiling holds exactly when the evidence of the shown facts and
the versions a decision relied on are below it, as far as the role sees them.
-/
namespace ContextLedger.McpPrivacy

open Values Authorization Schema Facts Reference TemporalEngine Decisions ServiceReads
open Projection Provenance Manageability McpTools
open AdminPresence (requirePermission_eq_ok)
open Tenancy (getMembership resolve)

/-- The scopes under the ceiling of an agent, for the current role of its user. -/
def ceilingNow (identity : McpIdentity) (db : Database) : List PrivacyScope :=
  (getMembership db identity.organizationId identity.userId).elim [] fun m =>
    visiblePrivacyScopes m.role [some identity.maxPrivacyScope]

def factShowsContent (fact : ReceiptFact) : Bool :=
  fact.version.isSome || fact.entityType.isSome || fact.externalId.isSome ||
    fact.property.isSome || fact.sourceName.isSome

def stepShowsContent (step : LineageStep) : Bool :=
  step.entityType.isSome || step.externalId.isSome || step.property.isSome ||
    step.sourceId.isSome || step.sourceName.isSome

/-- The scopes of the facts whose content is in a document. -/
def shownScopes : Document → List String
  | .entityFacts _ _ facts _ => facts.map fun f => f.version.privacyScope.text
  | .history entries => entries.map fun e => e.version.privacyScope.text
  | .receipt receipt =>
    (receipt.facts.filter factShowsContent).map fun f => f.privacyScope.text
  | .lineage lineage =>
    (lineage.reliedOn.filter stepShowsContent).map LineageStep.privacyScope

/-- The evidence that is in a document with its hash. -/
def shownEvidence : Document → List Uuid
  | .receipt receipt => receipt.facts.flatMap fun f => f.evidence.map ReceiptEvidence.evidenceId
  | _ => []

/-- Everything shown is under the ceiling. -/
structure UnderCeiling (identity : McpIdentity) (db : Database) (document : Document) : Prop where
  facts : ∀ scope ∈ shownScopes document,
    scope ∈ (ceilingNow identity db).map PrivacyScope.text
  evidence : ∀ id ∈ shownEvidence document, ∀ e ∈ db.evidence, e.id = id →
    e.privacyScope ∈ ceilingNow identity db

/-- The facts of a snapshot under the ceiling have no evidence between the ceiling and
the role; the decision relied on no version between them. -/
def Sheltered (identity : McpIdentity) (s : Stores) : ToolCall → Prop
  | .getDecisionReceipt decisionId => ∀ ctx role decision snapshot,
      tenant s.db identity = .ok ctx → requirePermission s.db ctx .readDecisions = .ok role →
      getDecision s.db identity.organizationId decisionId = some decision →
      getSnapshot s.db identity.organizationId decision.snapshotId = some snapshot →
      ∀ row ∈ snapshotRows s.db identity.organizationId snapshot.id,
        row.version.privacyScope ∈ ceilingNow identity s.db →
        ∀ linked ∈ evidenceForVersion s.db identity.organizationId row.version.id,
          linked.1.linkedAt ≤ snapshot.knownAt →
          linked.2.1.privacyScope ∈ visiblePrivacyScopes role [none] →
          linked.2.1.privacyScope ∈ ceilingNow identity s.db
  | .getDecisionLineage decisionId => ∀ ctx role g,
      tenant s.db identity = .ok ctx → requirePermission s.db ctx .readDecisions = .ok role →
      s.graph = some g → «exists» g .decision identity.organizationId decisionId = true →
      ∀ record ∈ lineageRecords g identity.organizationId decisionId,
        record.scope ∈ (visiblePrivacyScopes role [none]).map PrivacyScope.text →
        record.scope ∈ (ceilingNow identity s.db).map PrivacyScope.text
  | _ => True

variable {rt : Runtime} {identity : McpIdentity} {s : Stores}

theorem toolErrors_eq_ok {α : Type} {x : Result α} {a : α} :
    toolErrors x = .ok a ↔ x = .ok a := by
  cases x with
  | ok b => simp [toolErrors]
  | error failure => cases failure <;> simp [toolErrors]

/-- The context of the user, and the two sets of scopes. -/
theorem tenant_eq_ok {ctx : TenantContext} (h : tenant s.db identity = .ok ctx) :
    ctx.organizationId = identity.organizationId ∧ ctx.maxPrivacyScope = none ∧
      visible identity ctx = ceilingNow identity s.db ∧
      ∀ permission role, requirePermission s.db ctx permission = .ok role → role = ctx.role := by
  obtain ⟨user, m, -, hm, -, rfl⟩ := resolve_eq_ok.mp h
  refine ⟨rfl, rfl, ?_, ?_⟩
  · rw [ceilingNow, hm]
    rfl
  · intro permission role hrole
    obtain ⟨-, m', -, hm', -, -, -, rfl⟩ := requirePermission_eq_ok.mp hrole
    obtain rfl := Option.some.inj (hm.symm.trans hm')
    rfl

/-- A ceiling shows no scope that the role does not. -/
theorem visible_of_ceiling {role : MembershipRole} {ceiling : PrivacyScope} {scope : PrivacyScope}
    (h : scope ∈ visiblePrivacyScopes role [some ceiling]) :
    scope ∈ visiblePrivacyScopes role [none] := by
  revert h
  cases role <;> cases ceiling <;> cases scope <;> decide

theorem entityFacts_under {entityType externalId : String} {validAt knownAt : Option Datetime}
    {document : Document}
    (h : getEntityFacts rt identity s entityType externalId validAt knownAt = .ok document) :
    UnderCeiling identity s.db document := by
  obtain ⟨ctx, hctx, h⟩ := bind_eq_ok.mp h
  obtain ⟨facts, -, h⟩ := bind_eq_ok.mp h
  obtain rfl := Except.ok.inj h
  refine ⟨?_, by simp [shownEvidence]⟩
  intro scope hscope
  obtain ⟨f, hf, rfl⟩ := List.mem_map.mp hscope
  rw [← (tenant_eq_ok hctx).2.2.1]
  exact List.mem_map_of_mem (List.contains_iff_mem.mp (List.mem_filter.mp hf).2)

theorem history_under {entityType externalId : String} {knownAt : Option Datetime}
    {document : Document}
    (h : getFactHistory rt identity s entityType externalId knownAt = .ok document) :
    UnderCeiling identity s.db document := by
  obtain ⟨ctx, hctx, h⟩ := bind_eq_ok.mp h
  obtain ⟨entries, -, h⟩ := bind_eq_ok.mp h
  obtain rfl := Except.ok.inj h
  refine ⟨?_, by simp [shownEvidence]⟩
  intro scope hscope
  obtain ⟨e, he, rfl⟩ := List.mem_map.mp hscope
  rw [← (tenant_eq_ok hctx).2.2.1]
  exact List.mem_map_of_mem (List.contains_iff_mem.mp (List.mem_filter.mp he).2)

section Receipt

variable {db : Database} {org : Uuid} {snapshot : ContextSnapshot} {relied : List Uuid}
  {role ceiling : List PrivacyScope} {row : SnapshotFactRow}

/-- Above the ceiling nothing is left of a fact but its identity. -/
theorem applyCeiling_above (h : row.version.privacyScope ∉ ceiling) :
    factShowsContent (applyCeiling ceiling (receiptFact db org snapshot relied role row)) = false ∧
      (applyCeiling ceiling (receiptFact db org snapshot relied role row)).evidence = [] := by
  have hceiling : ceiling.contains row.version.privacyScope = false := by simpa using h
  unfold receiptFact
  cases hrole : role.contains row.version.privacyScope with
  | false => simp [applyCeiling, factShowsContent]
  | true => simp [applyCeiling, factShowsContent, hceiling, -List.contains_eq_mem]

/-- Under the ceiling a fact is what the role sees of it. -/
theorem applyCeiling_under (h : row.version.privacyScope ∈ ceiling) :
    applyCeiling ceiling (receiptFact db org snapshot relied role row) =
      receiptFact db org snapshot relied role row := by
  have hceiling : ceiling.contains row.version.privacyScope = true := List.contains_iff_mem.mpr h
  unfold receiptFact
  cases hrole : role.contains row.version.privacyScope with
  | false => simp [applyCeiling]
  | true => simp [applyCeiling, hceiling, -List.contains_eq_mem]

theorem applyCeiling_privacyScope :
    (applyCeiling ceiling (receiptFact db org snapshot relied role row)).privacyScope =
      row.version.privacyScope := by
  by_cases h : row.version.privacyScope ∈ ceiling
  · rw [applyCeiling_under h, receiptFact]
    split <;> rfl
  · unfold applyCeiling receiptFact
    split_ifs <;> rfl

theorem evidence_of_visible (h : row.version.privacyScope ∈ role) :
    (receiptFact db org snapshot relied role row).evidence =
      receiptEvidence db org row.version.id snapshot.knownAt role := by
  rw [receiptFact, if_pos (List.contains_iff_mem.mpr h)]

theorem mem_receiptEvidence {versionId : Uuid} {knownAt : Instant} {id : Uuid} :
    id ∈ (receiptEvidence db org versionId knownAt role).map ReceiptEvidence.evidenceId ↔
      ∃ linked ∈ evidenceForVersion db org versionId, linked.1.linkedAt ≤ knownAt ∧
        linked.2.1.privacyScope ∈ role ∧ linked.2.1.id = id := by
  simp [receiptEvidence, and_assoc]

theorem evidenceForVersion_mem {versionId : Uuid} {linked : LinkedRow}
    (h : linked ∈ evidenceForVersion db org versionId) : linked.2.1 ∈ db.evidence := by
  obtain ⟨l, -, hrow⟩ := List.mem_flatMap.mp ((List.mem_insertionSort _).mp h)
  obtain ⟨e, he, hrow⟩ := List.mem_flatMap.mp hrow
  obtain ⟨source, -, rfl⟩ := List.mem_map.mp hrow
  exact (List.mem_filter.mp he).1

end Receipt

theorem receipt_under_iff {decisionId : Uuid} (hkey : (s.db.evidence.map Evidence.id).Nodup) :
    (∀ document, getDecisionReceipt rt identity s decisionId = .ok document →
        UnderCeiling identity s.db document) ↔
      Sheltered identity s (.getDecisionReceipt decisionId) := by
  constructor
  · intro h ctx role decision snapshot hctx hrole hdecision hsnapshot row hrow hscope linked hlinked
      hknown hvisible
    obtain ⟨horg, hmax, hceiling, hsame⟩ := tenant_eq_ok hctx
    obtain ⟨r, hr, hfacts⟩ := receipt_of_found rt [] hrole (by rw [horg]; exact hdecision)
      (by rw [horg]; exact hsnapshot)
    have hunder := h _ (bind_eq_ok.mpr ⟨ctx, hctx, bind_eq_ok.mpr ⟨r, hr, rfl⟩⟩)
    have hshows : row.version.privacyScope ∈ visiblePrivacyScopes role [none] := by
      rw [hsame _ _ hrole]
      rw [← hceiling] at hscope
      exact visible_of_ceiling (by simpa [visible, hmax, visiblePrivacyScopes] using hscope)
    refine hunder.evidence linked.2.1.id ?_ linked.2.1 (evidenceForVersion_mem hlinked) rfl
    simp only [shownEvidence, List.mem_flatMap, List.mem_map, hfacts, horg, hmax, hceiling]
    refine ⟨_, ⟨_, ⟨row, hrow, rfl⟩, rfl⟩, ?_⟩
    rw [applyCeiling_under hscope, evidence_of_visible hshows, ← List.mem_map]
    exact mem_receiptEvidence.mpr ⟨linked, hlinked, hknown, hvisible, rfl⟩
  · intro h document hdocument
    obtain ⟨ctx, hctx, hdocument⟩ := bind_eq_ok.mp hdocument
    obtain ⟨r, hr, hdocument⟩ := bind_eq_ok.mp hdocument
    obtain rfl := Except.ok.inj hdocument
    obtain ⟨role, decision, snapshot, hrole, hdecision, hsnapshot, hfacts⟩ := receipt_eq_ok hr
    obtain ⟨horg, hmax, hceiling, hsame⟩ := tenant_eq_ok hctx
    rw [horg] at hdecision hsnapshot
    rw [horg, hmax] at hfacts
    constructor
    · intro scope hscope
      simp only [shownScopes, hfacts, hceiling, List.mem_map, List.mem_filter] at hscope
      obtain ⟨fact, ⟨⟨_, ⟨row, -, rfl⟩, rfl⟩, hshows⟩, rfl⟩ := hscope
      rw [applyCeiling_privacyScope]
      by_contra habove
      have hnot : row.version.privacyScope ∉ ceilingNow identity s.db :=
        fun hmem => habove (List.mem_map_of_mem hmem)
      rw [(applyCeiling_above hnot).1] at hshows
      exact absurd hshows (by simp)
    · intro id hid e he heid
      simp only [shownEvidence, hfacts, hceiling, List.mem_flatMap] at hid
      obtain ⟨fact, hfact, hid⟩ := hid
      obtain ⟨seen, hseen, rfl⟩ := List.mem_map.mp hfact
      obtain ⟨row, hrow, rfl⟩ := List.mem_map.mp hseen
      by_cases hscope : row.version.privacyScope ∈ ceilingNow identity s.db
      · rw [applyCeiling_under hscope] at hid
        by_cases hvisible : row.version.privacyScope ∈ visiblePrivacyScopes role [none]
        · rw [evidence_of_visible hvisible] at hid
          obtain ⟨linked, hlinked, hknown, hlinkedScope, hlinkedId⟩ := mem_receiptEvidence.mp hid
          have hsameEvidence : linked.2.1 = e := List.inj_on_of_nodup_map hkey
            (evidenceForVersion_mem hlinked) he (hlinkedId.trans heid.symm)
          rw [← hsameEvidence]
          exact h ctx role decision snapshot hctx hrole hdecision hsnapshot row hrow hscope linked
            hlinked hknown hlinkedScope
        · simp [receiptFact, hvisible] at hid
      · rw [(applyCeiling_above hscope).2] at hid
        exact absurd hid (by simp)

theorem lineageStep_privacyScope (visible : List String) (record : LineageRecord) :
    (lineageStep visible record).privacyScope = record.scope := by
  unfold lineageStep
  split <;> rfl

theorem lineageStep_shows (visible : List String) (record : LineageRecord) :
    stepShowsContent (lineageStep visible record) = true ↔ record.scope ∈ visible := by
  unfold lineageStep
  cases h : visible.contains record.scope with
  | false =>
    simp only [Bool.false_eq_true, if_false]
    exact iff_of_false (by simp [stepShowsContent]) (by simpa using h)
  | true =>
    simp only [if_true]
    exact iff_of_true (by simp [stepShowsContent]) (List.contains_iff_mem.mp h)

/-- The lineage of a decision that the graph has, for whoever may read decisions. -/
theorem decisionLineage_eq_ok {g : Graph} {ctx : TenantContext} {decisionId : Uuid}
    {l : DecisionLineage} :
    decisionLineage s g ctx decisionId = .ok l ↔ ∃ role,
      requirePermission s.db ctx .readDecisions = .ok role ∧
      «exists» g .decision ctx.organizationId decisionId = true ∧
      l = ⟨decisionId, (lineageRecords g ctx.organizationId decisionId).map (lineageStep
        ((visiblePrivacyScopes role [ctx.maxPrivacyScope]).map PrivacyScope.text)),
        GraphWorld.pending s.outbox ctx.organizationId⟩ := by
  unfold decisionLineage
  rw [bind_eq_ok]
  refine exists_congr fun role => and_congr_right fun _ => ?_
  cases «exists» g .decision ctx.organizationId decisionId with
  | false => simp [notFound]
  | true => simp [pure, Except.pure, eq_comm]

theorem lineage_under_iff {decisionId : Uuid} {g : Graph} (hg : s.graph = some g) :
    (∀ document, getDecisionLineage identity s g decisionId = .ok document →
        UnderCeiling identity s.db document) ↔
      Sheltered identity s (.getDecisionLineage decisionId) := by
  constructor
  · intro h ctx role g' hctx hrole hg' hexists record hrecord hscope
    obtain rfl := Option.some.inj (hg.symm.trans hg')
    obtain ⟨horg, hmax, -, -⟩ := tenant_eq_ok hctx
    have hlineage := decisionLineage_eq_ok.mpr
      ⟨role, hrole, by rw [horg]; exact hexists, rfl⟩
    have hunder := h _ (bind_eq_ok.mpr ⟨ctx, hctx, bind_eq_ok.mpr ⟨_, hlineage, rfl⟩⟩)
    refine hunder.facts record.scope ?_
    simp only [shownScopes, List.mem_map, List.mem_filter, horg, hmax]
    refine ⟨_, ⟨⟨record, hrecord, rfl⟩, ?_⟩, lineageStep_privacyScope _ record⟩
    exact (lineageStep_shows _ record).mpr hscope
  · intro h document hdocument
    obtain ⟨ctx, hctx, hdocument⟩ := bind_eq_ok.mp hdocument
    obtain ⟨l, hl, hdocument⟩ := bind_eq_ok.mp hdocument
    obtain rfl := Except.ok.inj hdocument
    obtain ⟨role, hrole, hexists, rfl⟩ := decisionLineage_eq_ok.mp hl
    obtain ⟨horg, hmax, -, -⟩ := tenant_eq_ok hctx
    refine ⟨?_, by simp [shownEvidence]⟩
    intro scope hscope
    simp only [shownScopes, List.mem_map, List.mem_filter, horg, hmax] at hscope
    obtain ⟨step, ⟨⟨record, hrecord, rfl⟩, hshows⟩, rfl⟩ := hscope
    rw [lineageStep_privacyScope]
    rw [horg] at hexists
    exact h ctx role g hctx hrole hg hexists record hrecord ((lineageStep_shows _ record).mp hshows)

/-- For every role and ceiling, on every database and graph: what a call shows is
under the ceiling exactly when nothing lies between the ceiling and the role where
the tool only looks at the role. -/
theorem ceiling_holds_iff (rt : Runtime) (identity : McpIdentity) (s : Stores) (call : ToolCall)
    (hkey : (s.db.evidence.map Evidence.id).Nodup) :
    (∀ document, runTool rt identity s call = .ok document →
        UnderCeiling identity s.db document) ↔ Sheltered identity s call := by
  cases call with
  | getEntityFacts entityType externalId validAt knownAt =>
    exact iff_of_true (fun document h => entityFacts_under (toolErrors_eq_ok.mp h)) trivial
  | getFactHistory entityType externalId knownAt =>
    exact iff_of_true (fun document h => history_under (toolErrors_eq_ok.mp h)) trivial
  | getDecisionReceipt decisionId =>
    rw [← @receipt_under_iff rt identity s decisionId hkey]
    exact forall_congr' fun document => imp_congr_left toolErrors_eq_ok
  | getDecisionLineage decisionId =>
    cases hg : s.graph with
    | none =>
      refine iff_of_true (fun document h => ?_) (fun ctx role g _ _ hsome => ?_)
      · rw [runTool, hg] at h
        exact absurd h (by simp)
      · exact absurd (hg.symm.trans hsome) (by simp)
    | some g =>
      rw [← lineage_under_iff hg]
      refine forall_congr' fun document => imp_congr_left ?_
      rw [runTool, hg]
      exact toolErrors_eq_ok

/-- One decision that relied on one version, which has one piece of evidence. -/
def exampleDecided (fact evidence : PrivacyScope) : Database :=
  { exampleDatabase with
    memberships := [⟨1, 2, .admin⟩]
    entities := [⟨10, 1, "customer", "42"⟩]
    facts := [⟨11, 1, 10, "status"⟩]
    versions := [⟨12, 1, 11, 1, .bool true, 3, 0, none, 0, 5, none, none, 50, 900, fact⟩]
    evidence := [⟨30, 1, 3, .apiResponse, "active", "00", none, .obj [], evidence, 5, 5⟩]
    links := [⟨1, 12, 30, .supports, 5, none⟩]
    snapshots := [⟨40, 1, 2, "status", 6, 6, "hash-v1", "used", [], .null⟩]
    snapshotFacts := [⟨1, 40, 12, 1, ⟨1, 1, 1, none, none, none, none⟩⟩]
    decisions := [⟨41, 1, 40, 2, none, "approve", .bool true, none, 7, "00"⟩]
    decisionFacts := [⟨1, 41, 40, 12⟩] }

/-- The graph holds every row. -/
def exampleStores (fact evidence : PrivacyScope) : Stores where
  db := exampleDecided fact evidence
  outbox := []
  graph := some (apply (batchOf exampleRuntime (GraphWorld.rowsOf (exampleDecided fact evidence)))
    Graph.empty)
  clock := 8

/-- An agent of an administrator that may see internal facts. -/
def exampleAgent : McpIdentity := ⟨1, 2, "agent", .internal⟩

/-- Whether a call shows something that is not under the ceiling. -/
def breaks (s : Stores) (call : ToolCall) : Bool :=
  let ceiling := ceilingNow exampleAgent s.db
  match runTool exampleRuntime exampleAgent s call with
  | .ok document =>
    ((shownScopes document).any fun scope => !(ceiling.map PrivacyScope.text).contains scope) ||
      (shownEvidence document).any fun id => s.db.evidence.any fun e =>
        e.id == id && !ceiling.contains e.privacyScope
  | .error _ => false

theorem breaks_eq_true {s : Stores} {call : ToolCall} (h : breaks s call = true) :
    ∃ document, runTool exampleRuntime exampleAgent s call = .ok document ∧
      ¬ UnderCeiling exampleAgent s.db document := by
  unfold breaks at h
  cases hrun : runTool exampleRuntime exampleAgent s call with
  | error message =>
    rw [hrun] at h
    exact absurd h (by simp)
  | ok document =>
    rw [hrun] at h
    refine ⟨document, rfl, fun hunder => ?_⟩
    rcases Bool.or_eq_true_iff.mp h with h | h
    · obtain ⟨scope, hscope, habove⟩ := List.any_eq_true.mp h
      have hin := List.contains_iff_mem.mpr (hunder.facts scope hscope)
      rw [hin] at habove
      exact absurd habove (by simp)
    · obtain ⟨id, hid, h⟩ := List.any_eq_true.mp h
      obtain ⟨e, he, h⟩ := List.any_eq_true.mp h
      obtain ⟨heid, habove⟩ := Bool.and_eq_true_iff.mp h
      have hin := List.contains_iff_mem.mpr (hunder.evidence id hid e he (beq_iff_eq.mp heid))
      rw [hin] at habove
      exact absurd habove (by simp)

/-- A lineage shows a confidential version, a receipt the evidence of a public one. -/
theorem ceiling_broken :
    (∃ document, runTool exampleRuntime exampleAgent (exampleStores .confidential .public)
        (.getDecisionLineage 41) = .ok document ∧
      ¬ UnderCeiling exampleAgent (exampleStores .confidential .public).db document) ∧
    ∃ document, runTool exampleRuntime exampleAgent (exampleStores .public .restricted)
        (.getDecisionReceipt 41) = .ok document ∧
      ¬ UnderCeiling exampleAgent (exampleStores .public .restricted).db document :=
  ⟨breaks_eq_true (by decide +kernel), breaks_eq_true (by decide +kernel)⟩

/-- A receipt whose evidence is internal keeps to the ceiling of the agent. -/
theorem ceiling_holds_internal :
    (runTool exampleRuntime exampleAgent (exampleStores .public .internal)
        (.getDecisionReceipt 41)).toOption.map shownEvidence = some [30] ∧
      ∀ document, runTool exampleRuntime exampleAgent (exampleStores .public .internal)
          (.getDecisionReceipt 41) = .ok document →
        UnderCeiling exampleAgent (exampleStores .public .internal).db document := by
  refine ⟨by decide +kernel, (ceiling_holds_iff exampleRuntime exampleAgent
    (exampleStores .public .internal) (.getDecisionReceipt 41) (by decide +kernel)).mpr ?_⟩
  have hevidence : ∀ e ∈ (exampleStores .public .internal).db.evidence,
      e.privacyScope ∈ ceilingNow exampleAgent (exampleStores .public .internal).db := by
    decide +kernel
  intro ctx role decision snapshot _ _ _ _ row _ _ linked hlinked _ _
  exact hevidence linked.2.1 (evidenceForVersion_mem hlinked)

end ContextLedger.McpPrivacy

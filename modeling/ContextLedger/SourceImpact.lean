import ContextLedger.GraphReadings
import ContextLedger.ImpactGrouping

/-!
What depends on a source and on a piece of evidence. The statements of a call run one after
the other, each in a later state of the world. What a report lists is in the tables when the
graph is asked, and when no event was pending for the organization, everything that the
tables had when the events were counted is listed.
-/
namespace ContextLedger.SourceImpact

open Values Authorization Schema Facts MergeStore Projection ProjectionOrder Provenance
open GraphWorld GraphCoherence GraphShown GraphImpact GraphContents GraphReadings ImpactGrouping

/-- `MATCH (v:FactVersion {org})-[:ASSERTED_BY]->(s) RETURN v, 'asserted_by_source'` -/
def assertedBy (g : Graph) (org : Uuid) (s : NodeKey) : List (NodeKey × String) :=
  ((related g .assertedBy).filter fun e => isNode g .factVersion org e.1 && e.2 == s).map
    fun e => (e.1, "asserted_by_source")

/-- `MATCH (s)<-[:FROM_SOURCE]-(:Evidence {org})-[l:EVIDENCE_FOR]->(v:FactVersion {org})`
`WHERE l.relation = 'SUPPORTS' RETURN v, 'supported_by_source_evidence'` -/
def supportedBy (g : Graph) (org : Uuid) (s : NodeKey) : List (NodeKey × String) :=
  (related g .fromSource).flatMap fun e =>
    (g.relationships.filter fun l => l.key.1 == .evidenceFor && l.key.2.1 == e.1 && e.2 == s &&
        isNode g .evidence org e.1 && isNode g .factVersion org l.key.2.2 &&
        l.props .relation == some (.text "SUPPORTS")).map
      fun l => (l.key.2.2, "supported_by_source_evidence")

def toLower (s : String) : String := String.ofList (s.toList.map Char.toLower)

/-- `MATCH (x)-[l:EVIDENCE_FOR]->(v:FactVersion {org}) RETURN v, toLower(l.relation)`; the
relation is assigned by the clause that creates the relationship. -/
def concernedBy (g : Graph) (org : Uuid) (x : NodeKey) : List (NodeKey × String) :=
  (g.relationships.filter fun l => l.key.1 == .evidenceFor && l.key.2.1 == x &&
      isNode g .factVersion org l.key.2.2).filterMap
    fun l => (textOf (l.props .relation)).map fun relation => (l.key.2.2, toLower relation)

/-- `OPTIONAL MATCH (d:Decision {org})-[:RELIED_ON]->(v)` -/
def dependents (g : Graph) (org : Uuid) (v : NodeKey) : List (Option NodeKey) :=
  if (reliedOn g org v).isEmpty then [none] else (reliedOn g org v).map fun row => some row.1

/-- Every id in the graph is the text of an identifier. -/
def impactRows (g : Graph) (org : Uuid) (found : List (NodeKey × String)) : List ImpactRow :=
  found.flatMap fun f => (dependents g org f.1).filterMap fun d =>
    (uuidOf f.1.2).map fun id => ⟨id, f.2, d.bind (decisionRef g)⟩

/-- A union drops repeated rows. -/
def foundBySource (g : Graph) (org sourceId : Uuid) : List (NodeKey × String) :=
  let s := nodeKey .source sourceId
  if «exists» g .source org sourceId then (assertedBy g org s ++ supportedBy g org s).dedup else []

def foundByEvidence (g : Graph) (org evidenceId : Uuid) : List (NodeKey × String) :=
  if «exists» g .evidence org evidenceId then concernedBy g org (nodeKey .evidence evidenceId)
  else []

/-- `fetch(100_000)` -/
def fetchLimit : ℕ := 100000

variable {rt : Runtime}

def rowsOfSource (g : Graph) (org sourceId : Uuid) : List ImpactRow :=
  impactRows g org (foundBySource g org sourceId)

def rowsOfEvidence (g : Graph) (org evidenceId : Uuid) : List ImpactRow :=
  impactRows g org (foundByEvidence g org evidenceId)

def impactOfSource (stages : Stages) (ctx : TenantContext) (sourceId : Uuid) :
    Result ImpactReport := do
  let (_, pendingEvents) ← stages.authorize ctx
  stages.require ctx .source "Source" sourceId
  let groups := groupImpact
    ((rowsOfSource stages.asked.graph ctx.organizationId sourceId).take fetchLimit)
  return ⟨sourceId, groups.1, groups.2, [], pendingEvents⟩

def impactOfEvidence (stages : Stages) (ctx : TenantContext) (evidenceId : Uuid) :
    Result ImpactReport := do
  let (_, pendingEvents) ← stages.authorize ctx
  stages.require ctx .evidence "Evidence" evidenceId
  let groups := groupImpact
    ((rowsOfEvidence stages.asked.graph ctx.organizationId evidenceId).take fetchLimit)
  return ⟨evidenceId, groups.1, groups.2, [], pendingEvents⟩

inductive Subject where
  | source (id : Uuid)
  | evidence (id : Uuid)
  deriving DecidableEq

def impactOf (stages : Stages) (ctx : TenantContext) : Subject → Result ImpactReport
  | .source id => impactOfSource stages ctx id
  | .evidence id => impactOfEvidence stages ctx id

/-- The rows that the query of a subject finds. -/
def Subject.rows (g : Graph) (org : Uuid) : Subject → List ImpactRow
  | .source id => rowsOfSource g org id
  | .evidence id => rowsOfEvidence g org id

/-- How a version depends on a source. -/
inductive SourceReason (db : Database) (org sourceId : Uuid) : Uuid → String → Prop
  | asserted (v : FactVersion) (hv : v ∈ db.versions) (horg : v.organizationId = org)
      (hsource : v.sourceId = sourceId) : SourceReason db org sourceId v.id "asserted_by_source"
  | supported (e : Evidence) (l : FactVersionEvidence) (he : e ∈ db.evidence)
      (horg : e.organizationId = org) (hsource : e.sourceId = sourceId) (hl : l ∈ db.links)
      (hevidence : l.evidenceId = e.id) (hrelation : l.relation = .supports) :
      SourceReason db org sourceId l.factVersionId "supported_by_source_evidence"

/-- How a piece of evidence concerns a version. -/
inductive EvidenceReason (db : Database) (org evidenceId : Uuid) : Uuid → String → Prop
  | linked (l : FactVersionEvidence) (hl : l ∈ db.links) (horg : l.organizationId = org)
      (hevidence : l.evidenceId = evidenceId) :
      EvidenceReason db org evidenceId l.factVersionId (toLower l.relation.text)

/-- How a version depends on the subject. -/
def Reason (db : Database) (org : Uuid) : Subject → Uuid → String → Prop
  | .source id => SourceReason db org id
  | .evidence id => EvidenceReason db org id

/-- Everything that is listed is in the tables: the versions with a reason, and the decisions
that relied on such a version, with those reasons. -/
structure Sound (reason : Uuid → String → Prop) (db : Database) (org : Uuid)
    (report : ImpactReport) : Prop where
  versions : ∀ v ∈ report.affectedVersions, ∃ via, reason v via
  decisions : ∀ a ∈ report.decisions, ∃ d ∈ db.decisions, d.id = a.decisionId ∧
    d.organizationId = org ∧ (a.action = none ∨ a.action = some d.action) ∧
    (a.decidedAt = none ∨ a.decidedAt = some d.decidedAt) ∧ a.becauseOf ≠ [] ∧
    ∀ p ∈ a.becauseOf, reason p.1 p.2 ∧ Relied db d p.1
  once : report.affectedVersions.Nodup ∧ (report.decisions.map AffectedDecision.decisionId).Nodup

/-- Everything in the tables is listed. -/
structure Total (reason : Uuid → String → Prop) (db : Database) (report : ImpactReport) :
    Prop where
  versions : ∀ v via, reason v via → v ∈ report.affectedVersions
  decisions : ∀ d ∈ db.decisions, ∀ v via, reason v via → Relied db d v →
    ∃ a ∈ report.decisions, a.decisionId = d.id ∧ a.action = some d.action ∧
      a.decidedAt = some d.decidedAt ∧ (v, via) ∈ a.becauseOf

theorem links_assertedBy {r : Row} {a b : NodeKey} (h : (.assertedBy, a, b) ∈ links r) :
    ∃ v, r = .factVersion v ∧ a = nodeKey .factVersion v.id ∧ b = nodeKey .source v.sourceId := by
  cases r <;> simp [links] at h
  exact ⟨_, rfl, h⟩

theorem links_fromSource {r : Row} {a b : NodeKey} (h : (.fromSource, a, b) ∈ links r) :
    ∃ e, r = .evidence e ∧ a = nodeKey .evidence e.id ∧ b = nodeKey .source e.sourceId := by
  cases r <;> simp [links] at h
  exact ⟨_, rfl, h⟩

theorem links_evidenceFor {r : Row} {a b : NodeKey} (h : (.evidenceFor, a, b) ∈ links r) :
    ∃ l, r = .factVersionEvidence l ∧ a = nodeKey .evidence l.evidenceId ∧
      b = nodeKey .factVersion l.factVersionId := by
  cases r <;> simp [links] at h
  exact ⟨_, rfl, h⟩

/-- The relation that a relationship of the graph has. -/
theorem linkContent_relation (l : FactVersionEvidence) (a b : NodeKey) :
    linkContent rt (.factVersionEvidence l) (.evidenceFor, a, b) .relation =
      some (.text l.relation.text) := by
  have hfield : Field.relation ∈ relationshipFields (.evidenceFor, a, b) := List.mem_cons_self
  exact assign_pick hfield

section Rows

variable {g : Graph} {org : Uuid}

theorem mem_assertedBy {s k : NodeKey} {via : String} : (k, via) ∈ assertedBy g org s ↔
    via = "asserted_by_source" ∧ isNode g .factVersion org k = true ∧
      (k, s) ∈ related g .assertedBy := by
  simp only [assertedBy, List.mem_map, List.mem_filter, Bool.and_eq_true, beq_iff_eq,
    Prod.mk.injEq]
  constructor
  · rintro ⟨⟨k', s'⟩, ⟨hmem, hnode, rfl⟩, rfl, rfl⟩
    exact ⟨rfl, hnode, hmem⟩
  · rintro ⟨rfl, hnode, hmem⟩
    exact ⟨(k, s), ⟨hmem, hnode, rfl⟩, rfl, rfl⟩

theorem mem_supportedBy {s k : NodeKey} {via : String} : (k, via) ∈ supportedBy g org s ↔
    via = "supported_by_source_evidence" ∧ isNode g .factVersion org k = true ∧
      ∃ x, (x, s) ∈ related g .fromSource ∧ isNode g .evidence org x = true ∧
        ∃ l ∈ g.relationships, l.key = (.evidenceFor, x, k) ∧
          l.props .relation = some (.text "SUPPORTS") := by
  simp only [supportedBy, List.mem_flatMap, List.mem_map, List.mem_filter, Bool.and_eq_true,
    beq_iff_eq, Prod.mk.injEq]
  constructor
  · rintro ⟨⟨x, s'⟩, hfrom, l, ⟨hl, ⟨⟨⟨⟨htype, rfl⟩, rfl⟩, hx⟩, hk⟩, hrelation⟩, rfl, rfl⟩
    exact ⟨rfl, hk, l.key.2.1, hfrom, hx, l, hl, Prod.ext htype rfl, hrelation⟩
  · rintro ⟨rfl, hk, x, hfrom, hx, l, hl, hkey, hrelation⟩
    refine ⟨(x, s), hfrom, l, ?_, ?_⟩
    · rw [hkey]
      exact ⟨hl, ⟨⟨⟨⟨rfl, rfl⟩, rfl⟩, hx⟩, hk⟩, hrelation⟩
    · rw [hkey]
      exact ⟨rfl, rfl⟩

theorem mem_concernedBy {x k : NodeKey} {via : String} : (k, via) ∈ concernedBy g org x ↔
    isNode g .factVersion org k = true ∧ ∃ l ∈ g.relationships, l.key = (.evidenceFor, x, k) ∧
      ∃ relation, textOf (l.props .relation) = some relation ∧ via = toLower relation := by
  simp only [concernedBy, List.mem_filterMap, List.mem_filter, Bool.and_eq_true, beq_iff_eq,
    Option.map_eq_some_iff, Prod.mk.injEq]
  constructor
  · rintro ⟨l, ⟨hl, ⟨htype, rfl⟩, hk⟩, relation, hrelation, rfl, rfl⟩
    exact ⟨hk, l, hl, Prod.ext htype rfl, relation, hrelation, rfl⟩
  · rintro ⟨hk, l, hl, hkey, relation, hrelation, rfl⟩
    refine ⟨l, ?_, relation, hrelation, ?_, rfl⟩
    · rw [hkey]
      exact ⟨hl, ⟨rfl, rfl⟩, hk⟩
    · rw [hkey]

theorem some_mem_dependents {v k : NodeKey} : some k ∈ dependents g org v ↔
    isNode g .decision org k = true ∧ (k, v) ∈ related g .reliedOn := by
  have hrows : (∃ via, (k, via) ∈ reliedOn g org v) ↔
      isNode g .decision org k = true ∧ (k, v) ∈ related g .reliedOn := by
    simp only [mem_reliedOn, exists_and_right, exists_eq, true_and]
  rw [← hrows, dependents]
  split
  · rename_i hempty
    simp [List.isEmpty_iff.mp hempty]
  · simp

theorem exists_mem_dependents (v : NodeKey) : ∃ d, d ∈ dependents g org v := by
  unfold dependents
  split
  · exact ⟨none, List.mem_cons_self⟩
  · rename_i hrows
    obtain ⟨row, rest, heq⟩ := List.exists_cons_of_ne_nil fun h => hrows (List.isEmpty_iff.mpr h)
    exact ⟨some row.1, by rw [heq]; exact List.mem_cons_self⟩

theorem mem_impactRows {found : List (NodeKey × String)} {row : ImpactRow} :
    row ∈ impactRows g org found ↔ ∃ f ∈ found, ∃ d ∈ dependents g org f.1,
      ∃ id, uuidOf f.1.2 = some id ∧ row = ⟨id, f.2, d.bind (decisionRef g)⟩ := by
  simp only [impactRows, List.mem_flatMap, List.mem_filterMap, Option.map_eq_some_iff,
    eq_comm (a := row)]

end Rows

section Sound

variable {w : World} {org : Uuid}

theorem relied_of_related (hw : Truthful rt w) {k : NodeKey} {version : Uuid}
    (hnode : isNode w.graph .decision org k = true)
    (hrelated : (k, nodeKey .factVersion version) ∈ related w.graph .reliedOn) :
    ∃ d ∈ w.db.decisions, k = nodeKey .decision d.id ∧ d.organizationId = org ∧
      Relied w.db d version := by
  obtain ⟨hlabel, r, hr, hk, horg⟩ := exists_row_of_isNode hw.coherent hw.shown hnode
  obtain ⟨d, rfl, rfl⟩ := ownKey_decision hk hlabel
  obtain ⟨r', hr', hlink⟩ := exists_row_of_related hw.coherent hrelated
  obtain ⟨f, rfl, hdecision, hversion⟩ := links_reliedOn hlink
  exact ⟨d, mem_rowsOf.mp hr, rfl, horg, f, mem_rowsOf.mp hr', (nodeKey_inj.mp hdecision).symm,
    (nodeKey_inj.mp hversion).symm⟩

/-- What a reference says of a decision is missing or in its row. -/
theorem decisionRef_ok (hw : Truthful rt w) {d : Decision} (hd : d ∈ w.db.decisions)
    {ref : DecisionRef} (href : decisionRef w.graph (nodeKey .decision d.id) = some ref) :
    ref.decisionId = d.id ∧ (ref.action = none ∨ ref.action = some d.action) ∧
      (ref.decidedAt = none ∨ ref.decidedAt = some d.decidedAt) := by
  have hrow : Row.decision d ∈ rowsOf w.db := mem_rowsOf.mpr hd
  obtain rfl := Option.some.inj href
  refine ⟨rfl, ?_, ?_⟩
  · rcases hw.prop hrow rfl (f := .action) (by simp) (by simp [endFields]) with h | h
    · exact Or.inl (congrArg textOf h)
    · exact Or.inr (congrArg textOf h)
  · rcases hw.prop hrow rfl (f := .decidedAt) (by simp) (by simp [endFields]) with h | h
    · exact Or.inl (congrArg datetimeOf h)
    · exact Or.inr (congrArg datetimeOf h)

/-- Each match is a version with a reason. -/
def Reasoned (reason : Uuid → String → Prop) (found : List (NodeKey × String)) : Prop :=
  ∀ f ∈ found, ∃ v, f.1 = nodeKey .factVersion v ∧ reason v f.2

/-- Each version with a reason is a match. -/
def Found (reason : Uuid → String → Prop) (found : List (NodeKey × String)) : Prop :=
  ∀ v via, reason v via → (nodeKey .factVersion v, via) ∈ found

variable {reason : Uuid → String → Prop} {found : List (NodeKey × String)}

/-- A row of the query: a version with a reason, and no decision or one that relied on it. -/
theorem row_ok (hw : Truthful rt w) (hfound : Reasoned reason found) {row : ImpactRow}
    (hrow : row ∈ impactRows w.graph org found) : reason row.factVersionId row.via ∧
      ∀ ref ∈ row.decision, ∃ d ∈ w.db.decisions, d.organizationId = org ∧
        decisionRef w.graph (nodeKey .decision d.id) = some ref ∧
        Relied w.db d row.factVersionId := by
  obtain ⟨⟨k, via⟩, hf, dependent, hdependent, id, hid, rfl⟩ := mem_impactRows.mp hrow
  obtain ⟨v, rfl, hreason⟩ := hfound _ hf
  obtain rfl : v = id := Option.some.inj hid
  refine ⟨hreason, fun ref href => ?_⟩
  obtain ⟨kd, rfl, href⟩ := Option.bind_eq_some_iff.mp href
  obtain ⟨hnode, hrelated⟩ := some_mem_dependents.mp hdependent
  obtain ⟨d, hd, rfl, horg, hrelied⟩ := relied_of_related hw hnode hrelated
  exact ⟨d, hd, horg, href, hrelied⟩

theorem sameReferences_of_rows (hw : Truthful rt w) (hfound : Reasoned reason found)
    {rows : List ImpactRow} (hrows : ∀ row ∈ rows, row ∈ impactRows w.graph org found) :
    SameReferences rows := by
  intro row hrow other hother ref href ref' href' hid
  obtain ⟨d, hd, -, hd_ref, -⟩ := (row_ok hw hfound (hrows row hrow)).2 ref href
  obtain ⟨d', hd', -, hd_ref', -⟩ := (row_ok hw hfound (hrows other hother)).2 ref' href'
  have hdd : d.id = d'.id := by
    rw [← (decisionRef_ok hw hd hd_ref).1, ← (decisionRef_ok hw hd' hd_ref').1, hid]
  rw [hdd] at hd_ref
  exact Option.some.inj (hd_ref.symm.trans hd_ref')

theorem sound_groupImpact (hw : Truthful rt w) (hfound : Reasoned reason found)
    {rows : List ImpactRow} (hrows : ∀ row ∈ rows, row ∈ impactRows w.graph org found)
    (subject : Uuid) (n : ℕ) :
    Sound reason w.db org ⟨subject, (groupImpact rows).1, (groupImpact rows).2, [], n⟩ := by
  have hgrouped := grouped_groupImpact (sameReferences_of_rows hw hfound hrows)
  refine ⟨fun v hv => ?_, fun a ha => ?_, ?_, hgrouped.decisions_once⟩
  · obtain ⟨row, hrow, rfl⟩ := (hgrouped.mem_versions v).mp hv
    exact ⟨row.via, (row_ok hw hfound (hrows row hrow)).1⟩
  · obtain ⟨row, hrow, href⟩ := (hgrouped.mem_decisions _).mp (List.mem_map_of_mem ha)
    obtain ⟨d, hd, horg, hd_ref, -⟩ := (row_ok hw hfound (hrows row hrow)).2 _ href
    obtain ⟨hid, haction, htime⟩ := decisionRef_ok hw hd hd_ref
    refine ⟨d, hd, hid.symm, horg, haction, htime, ?_, fun p hp => ?_⟩
    · have hreason : (row.factVersionId, row.via) ∈ a.becauseOf :=
        (hgrouped.mem_reasons a ha _).mpr ⟨row, hrow, by rw [href]; rfl, rfl⟩
      exact List.ne_nil_of_mem hreason
    · obtain ⟨row', hrow', hid', rfl⟩ := (hgrouped.mem_reasons a ha p).mp hp
      obtain ⟨ref', href', hrefid⟩ := Option.map_eq_some_iff.mp hid'
      obtain ⟨hreason, hrelied⟩ := row_ok hw hfound (hrows row' hrow')
      obtain ⟨d', hd', -, hd_ref', hrelied'⟩ := hrelied ref' href'
      have hdd : d' = d := decision_eq hw.coherent hd' hd
        ((decisionRef_ok hw hd' hd_ref').1.symm.trans (hrefid.trans hid))
      exact ⟨hreason, hdd ▸ hrelied'⟩
  · exact hgrouped.versions_sorted.imp fun h heq => absurd (heq ▸ h) (Nat.lt_irrefl _)

end Sound

section Total

variable {w : World} {org : Uuid} {seen : Database}

theorem org_of_relied {db : Database} (hdb : intact db = true) {v : FactVersion}
    (hv : v ∈ db.versions) {d : Decision} (hd : d ∈ db.decisions) {f : DecisionFact}
    (hf : f ∈ db.decisionFacts) (hdecision : f.decisionId = d.id)
    (hversion : f.factVersionId = v.id) :
    f.organizationId = v.organizationId ∧ d.organizationId = v.organizationId := by
  have hrow : Row.decisionFact f ∈ rowsOf db := mem_rowsOf.mpr hf
  have hvorg : v.organizationId = f.organizationId := by
    have hown : Row.factVersion v ∈ rowsOf db := mem_rowsOf.mpr hv
    refine org_of_farKeys hdb hrow hown (List.mem_cons_of_mem _ List.mem_cons_self) ?_
    rw [hversion]
    rfl
  have hdorg : d.organizationId = f.organizationId := by
    have hown : Row.decision d ∈ rowsOf db := mem_rowsOf.mpr hd
    refine org_of_farKeys hdb hrow hown List.mem_cons_self ?_
    rw [hdecision]
    rfl
  exact ⟨hvorg.symm, hdorg.trans hvorg.symm⟩

theorem decisionRef_since (hsince : Since rt w org seen) {d : Decision} (hd : d ∈ seen.decisions)
    (horg : d.organizationId = org) :
    decisionRef w.graph (nodeKey .decision d.id) = some ⟨d.id, some d.action, some d.decidedAt⟩ := by
  have hprop : ∀ f ∈ labelFields .decision, f ∉ endFields →
      ((lookup w.graph.nodes (nodeKey .decision d.id)).getD bare) f =
        (toGraphRow rt (.decision d)).get f :=
    fun f hf hend => hsince.prop (r := .decision d) (mem_rowsOf.mpr hd) horg rfl hf hend
  have haction := hprop .action (by simp [labelFields]) (by simp [endFields])
  have htime := hprop .decidedAt (by simp [labelFields]) (by simp [endFields])
  simp only [decisionRef, haction, htime]
  rfl

variable {reason known : Uuid → String → Prop} {found : List (NodeKey × String)}

theorem total_groupImpact (hw : Truthful rt w) (hsince : Since rt w org seen)
    (hreasoned : Reasoned known found) (hfound : Found reason found)
    (hknown : ∀ v via, reason v via → Known seen org v) (subject : Uuid) (n : ℕ) :
    Total reason seen ⟨subject, (groupImpact (impactRows w.graph org found)).1,
      (groupImpact (impactRows w.graph org found)).2, [], n⟩ := by
  have hsame : SameReferences (impactRows w.graph org found) :=
    sameReferences_of_rows hw hreasoned fun row hrow => hrow
  have hgrouped := grouped_groupImpact hsame
  refine ⟨fun v via hreason => ?_, fun d hd v via hreason hrelied => ?_⟩
  · have hdepends : ∃ d, d ∈ dependents w.graph org (nodeKey .factVersion v) :=
      exists_mem_dependents (nodeKey .factVersion v)
    obtain ⟨dependent, hdependent⟩ := hdepends
    exact (hgrouped.mem_versions v).mpr
      ⟨_, mem_impactRows.mpr ⟨_, hfound v via hreason, dependent, hdependent, v, rfl, rfl⟩, rfl⟩
  · obtain ⟨version, hversion, rfl, hvorg⟩ := hknown v via hreason
    obtain ⟨f, hf, hdecision, hfversion⟩ := hrelied
    obtain ⟨hforg, hdorg⟩ := org_of_relied hsince.intact hversion hd hf hdecision hfversion
    have horg : d.organizationId = org := hdorg.trans hvorg
    have hdependent : some (nodeKey .decision d.id) ∈
        dependents w.graph org (nodeKey .factVersion version.id) := by
      refine some_mem_dependents.mpr ⟨?_, ?_⟩
      · exact hsince.isNode hw (r := .decision d) (mem_rowsOf.mpr hd) horg rfl
      · refine hsince.related (r := .decisionFact f) (mem_rowsOf.mpr hf) (hforg.trans hvorg) ?_
        rw [← hdecision, ← hfversion]
        exact List.mem_cons_self
    have hrow := mem_impactRows.mpr
      ⟨_, hfound version.id via hreason, _, hdependent, version.id, rfl, rfl⟩
    have href := decisionRef_since hsince hd horg
    obtain ⟨a, ha, hrefOf⟩ := List.mem_map.mp ((hgrouped.mem_decisions _).mpr ⟨_, hrow, href⟩)
    obtain ⟨hid, haction, htime⟩ := DecisionRef.mk.inj hrefOf
    refine ⟨a, ha, hid, haction, htime, (hgrouped.mem_reasons a ha _).mpr ⟨_, hrow, ?_, rfl⟩⟩
    exact (congrArg (Option.map DecisionRef.decisionId) href).trans (congrArg some hid.symm)

end Total

section Source

variable {w : World} {org : Uuid} {seen : Database}

/-- A relationship of this type is a row with the relation that it says. -/
theorem exists_link (hw : Truthful rt w) {l : Entry RelationshipKey Field Value}
    (hl : l ∈ w.graph.relationships) {x k : NodeKey} (hkey : l.key = (.evidenceFor, x, k)) :
    ∃ link ∈ w.db.links, x = nodeKey .evidence link.evidenceId ∧
      k = nodeKey .factVersion link.factVersionId ∧
      l.props .relation = some (.text link.relation.text) := by
  have hlookup := (mem_iff_lookup hw.coherent.tidy.unique.2).mp hl
  rw [hkey] at hlookup
  obtain ⟨r, hr, hlink⟩ := hw.coherent.sourced.relationships _ (by rw [hlookup]; rfl)
  obtain ⟨link, rfl, hx, hk⟩ := links_evidenceFor hlink
  refine ⟨link, mem_rowsOf.mp hr, hx, hk, ?_⟩
  rw [hw.contents.links _ _ hlookup _ hr hlink, linkContent_relation]

theorem text_eq_supports {relation : EvidenceRelation} (h : relation.text = "SUPPORTS") :
    relation = .supports := by
  cases relation with
  | supports => rfl
  | contradicts => exact absurd h (by decide)

theorem reasoned_foundBySource (hw : Truthful rt w) (sourceId : Uuid) :
    Reasoned (SourceReason w.db org sourceId) (foundBySource w.graph org sourceId) := by
  rintro ⟨k, via⟩ hf
  unfold foundBySource at hf
  split at hf
  · rcases List.mem_append.mp (List.mem_dedup.mp hf) with hf | hf
    · obtain ⟨rfl, hnode, hrelated⟩ := mem_assertedBy.mp hf
      obtain ⟨-, r, hr, hk, horg⟩ := exists_row_of_isNode hw.coherent hw.shown hnode
      obtain ⟨r', hr', hlink⟩ := exists_row_of_related hw.coherent hrelated
      obtain ⟨v, rfl, rfl, hsource⟩ := links_assertedBy hlink
      obtain rfl : r = .factVersion v := eq_of_ownKey_eq hw.coherent.intact hr hr' hk rfl
      exact ⟨v.id, rfl, .asserted v (mem_rowsOf.mp hr') horg (nodeKey_inj.mp hsource).symm⟩
    · obtain ⟨rfl, -, x, hfrom, hx, l, hl, hkey, hrelation⟩ := mem_supportedBy.mp hf
      obtain ⟨-, r, hr, hk, horg⟩ := exists_row_of_isNode hw.coherent hw.shown hx
      obtain ⟨r', hr', hlink⟩ := exists_row_of_related hw.coherent hfrom
      obtain ⟨e, rfl, rfl, hsource⟩ := links_fromSource hlink
      obtain rfl : r = .evidence e := eq_of_ownKey_eq hw.coherent.intact hr hr' hk rfl
      obtain ⟨link, hlink, hevidence, rfl, htext⟩ := exists_link hw hl hkey
      have hsupports := text_eq_supports
        (Value.text.inj (Option.some.inj (htext.symm.trans hrelation)))
      exact ⟨link.factVersionId, rfl, .supported e link (mem_rowsOf.mp hr') horg
        (nodeKey_inj.mp hsource).symm hlink (nodeKey_inj.mp hevidence).symm hsupports⟩
  · exact absurd hf List.not_mem_nil

theorem reasoned_foundByEvidence (hw : Truthful rt w) (evidenceId : Uuid) :
    Reasoned (EvidenceReason w.db org evidenceId) (foundByEvidence w.graph org evidenceId) := by
  rintro ⟨k, via⟩ hf
  unfold foundByEvidence at hf
  split at hf
  · obtain ⟨hnode, l, hl, hkey, relation, hrelation, rfl⟩ := mem_concernedBy.mp hf
    obtain ⟨-, r, hr, hk, horg⟩ := exists_row_of_isNode hw.coherent hw.shown hnode
    obtain ⟨link, hlink, hevidence, rfl, htext⟩ := exists_link hw hl hkey
    have hlorg : r.org = link.organizationId :=
      org_of_farKeys hw.coherent.intact (r := .factVersionEvidence link) (mem_rowsOf.mpr hlink) hr
        (List.mem_cons_of_mem _ List.mem_cons_self) hk
    rw [htext] at hrelation
    obtain rfl := Option.some.inj hrelation
    exact ⟨link.factVersionId, rfl,
      .linked link hlink (hlorg.symm.trans horg) (nodeKey_inj.mp hevidence).symm⟩
  · exact absurd hf List.not_mem_nil

/-- The organization of a link is that of its evidence and of its version. -/
theorem known_of_link {db : Database} (hdb : intact db = true) {l : FactVersionEvidence}
    (hl : l ∈ db.links) : Known db l.organizationId l.factVersionId ∧
      ∃ e ∈ db.evidence, e.id = l.evidenceId ∧ e.organizationId = l.organizationId := by
  obtain ⟨⟨v, hv, hvorg, hvid⟩, e, he, heorg, heid⟩ :=
    closed_of_intact hdb (.factVersionEvidence l) (mem_rowsOf.mpr hl)
  exact ⟨⟨v, mem_rowsOf.mp hv, hvid, hvorg⟩, e, mem_rowsOf.mp he, heid, heorg⟩

theorem evidence_eq {db : Database} (hdb : intact db = true) {e e' : Evidence}
    (he : e ∈ db.evidence) (he' : e' ∈ db.evidence) (hid : e.id = e'.id) : e = e' :=
  Row.evidence.inj (eq_of_key_eq hdb (mem_rowsOf.mpr he) (mem_rowsOf.mpr he') rfl
    (by rw [Row.key, Row.key, hid]))

theorem known_of_sourceReason {db : Database} (hdb : intact db = true) {sourceId v : Uuid}
    {via : String} (h : SourceReason db org sourceId v via) : Known db org v := by
  cases h with
  | asserted v hv horg hsource => exact ⟨v, hv, rfl, horg⟩
  | supported e l he horg hsource hl hevidence hrelation =>
    obtain ⟨hknown, e', he', hid, heorg⟩ := known_of_link hdb hl
    obtain rfl := evidence_eq hdb he' he (hid.trans hevidence)
    exact heorg.symm.trans horg ▸ hknown

theorem known_of_evidenceReason {db : Database} (hdb : intact db = true) {evidenceId v : Uuid}
    {via : String} (h : EvidenceReason db org evidenceId v via) : Known db org v := by
  cases h with
  | linked l hl horg hevidence => exact horg ▸ (known_of_link hdb hl).1

theorem isNode_of_known (hw : Truthful rt w) (hsince : Since rt w org seen) {v : Uuid}
    (h : Known seen org v) : isNode w.graph .factVersion org (nodeKey .factVersion v) = true := by
  obtain ⟨version, hversion, rfl, horg⟩ := h
  exact hsince.isNode hw (r := .factVersion version) (mem_rowsOf.mpr hversion) horg rfl

theorem exists_source_of_since (hw : Truthful rt w) (hsince : Since rt w org seen) {sourceId : Uuid}
    (h : ∃ s ∈ seen.sources, s.organizationId = org ∧ s.id = sourceId) :
    «exists» w.graph .source org sourceId = true := by
  obtain ⟨s, hs, horg, rfl⟩ := h
  exact hsince.isNode hw (r := .factSource s) (mem_rowsOf.mpr hs) horg rfl

theorem evidenceFor_of_since (hw : Truthful rt w) (hsince : Since rt w org seen)
    {l : FactVersionEvidence} (hl : l ∈ seen.links) (horg : l.organizationId = org) :
    ∃ edge ∈ w.graph.relationships, edge.key = (.evidenceFor, nodeKey .evidence l.evidenceId,
      nodeKey .factVersion l.factVersionId) ∧
      edge.props .relation = some (.text l.relation.text) := by
  obtain ⟨edge, hedge, hkey, hprops⟩ :=
    hsince.link hw (r := .factVersionEvidence l) (mem_rowsOf.mpr hl) horg List.mem_cons_self
  exact ⟨edge, hedge, hkey, by rw [hprops, linkContent_relation]⟩

theorem found_foundBySource (hw : Truthful rt w) (hsince : Since rt w org seen) (sourceId : Uuid) :
    Found (SourceReason seen org sourceId) (foundBySource w.graph org sourceId) := by
  have hclosed := closed_of_intact hsince.intact
  intro version via hreason
  have hnode := isNode_of_known hw hsince (known_of_sourceReason hsince.intact hreason)
  unfold foundBySource
  cases hreason with
  | asserted v hv horg hsource =>
    have hrow : Row.factVersion v ∈ rowsOf seen := mem_rowsOf.mpr hv
    obtain ⟨-, ⟨s, hs, hsorg, hsid⟩, -⟩ := hclosed _ hrow
    rw [if_pos (exists_source_of_since hw hsince
      ⟨s, mem_rowsOf.mp hs, hsorg.trans horg, hsid.trans hsource⟩)]
    refine List.mem_dedup.mpr (List.mem_append_left _ (mem_assertedBy.mpr ⟨rfl, hnode, ?_⟩))
    refine hsince.related hrow horg ?_
    simp [links, nodeKey, hsource]
  | supported e l he horg hsource hl hevidence hrelation =>
    have hrow : Row.evidence e ∈ rowsOf seen := mem_rowsOf.mpr he
    obtain ⟨s, hs, hsorg, hsid⟩ := hclosed _ hrow
    obtain ⟨-, e', he', hid, heorg⟩ := known_of_link hsince.intact hl
    obtain rfl := evidence_eq hsince.intact he' he (hid.trans hevidence)
    obtain ⟨edge, hedge, hkey, hsaid⟩ := evidenceFor_of_since hw hsince hl (heorg.symm.trans horg)
    rw [hevidence] at hkey
    rw [hrelation] at hsaid
    rw [if_pos (exists_source_of_since hw hsince
      ⟨s, mem_rowsOf.mp hs, hsorg.trans horg, hsid.trans hsource⟩)]
    refine List.mem_dedup.mpr (List.mem_append_right _ (mem_supportedBy.mpr ⟨rfl, hnode,
      nodeKey .evidence e'.id, ?_, hsince.isNode hw hrow horg rfl, edge, hedge, hkey, hsaid⟩))
    refine hsince.related hrow horg ?_
    rw [← hsource]
    exact List.mem_cons_self

theorem found_foundByEvidence (hw : Truthful rt w) (hsince : Since rt w org seen)
    (evidenceId : Uuid) :
    Found (EvidenceReason seen org evidenceId) (foundByEvidence w.graph org evidenceId) := by
  intro version via hreason
  have hnode := isNode_of_known hw hsince (known_of_evidenceReason hsince.intact hreason)
  obtain ⟨l, hl, horg, rfl⟩ := hreason
  obtain ⟨-, e, he, hid, heorg⟩ := known_of_link hsince.intact hl
  have hexists : «exists» w.graph .evidence org l.evidenceId = true := by
    rw [← hid]
    exact hsince.isNode hw (r := .evidence e) (mem_rowsOf.mpr he) (heorg.trans horg) rfl
  obtain ⟨edge, hedge, hkey, hsaid⟩ := evidenceFor_of_since hw hsince hl horg
  unfold foundByEvidence
  rw [if_pos hexists]
  exact mem_concernedBy.mpr ⟨hnode, edge, hedge, hkey, _, congrArg textOf hsaid, rfl⟩

end Source

theorem exact_groupImpact (reading : Reading rt) {org : Uuid} {reason known : Uuid → String → Prop}
    {found : List (NodeKey × String)} (hreasoned : Reasoned known found)
    (hfound : Since rt reading.asked org reading.counted.db → Found reason found)
    (hknown : ∀ v via, reason v via → Known reading.counted.db org v) (subject : Uuid) :
    let rows := impactRows reading.asked.graph org found
    let groups := groupImpact (rows.take fetchLimit)
    let n := pending reading.counted.outbox org
    Sound known reading.asked.db org ⟨subject, groups.1, groups.2, [], n⟩ ∧
      (n = 0 → rows.length ≤ fetchLimit →
        Total reason reading.counted.db ⟨subject, groups.1, groups.2, [], n⟩) := by
  intro rows groups n
  have hw := reading.asked_truthful
  refine ⟨sound_groupImpact hw hreasoned (fun row hrow => List.mem_of_mem_take hrow) subject n, ?_⟩
  intro hn hlength
  have hall : rows.take fetchLimit = rows := List.take_of_length_le hlength
  have hsince := reading.since hn
  show Total reason reading.counted.db ⟨subject, (groupImpact (rows.take fetchLimit)).1,
    (groupImpact (rows.take fetchLimit)).2, [], n⟩
  rw [hall]
  exact total_groupImpact hw hsince hreasoned (hfound hsince) hknown subject n

/-- A call that answers has come to the end. -/
theorem impactOf_eq_ok {stages : Stages} {ctx : TenantContext} {subject : Subject}
    {report : ImpactReport} (h : impactOf stages ctx subject = .ok report) :
    let org := ctx.organizationId
    let groups := groupImpact ((subject.rows stages.asked.graph org).take fetchLimit)
    ∃ id, report = ⟨id, groups.1, groups.2, [], pending stages.counted.outbox org⟩ := by
  have hanswer : ∀ {label : Label} {text : String} {id : Uuid} {rows : List ImpactRow},
      (do
        let (_, pendingEvents) ← stages.authorize ctx
        stages.require ctx label text id
        let groups := groupImpact rows
        return (⟨id, groups.1, groups.2, [], pendingEvents⟩ : ImpactReport)) = .ok report →
      report = ⟨id, (groupImpact rows).1, (groupImpact rows).2, [],
        pending stages.counted.outbox ctx.organizationId⟩ := by
    intro label text id rows h
    obtain ⟨⟨role, n⟩, hauthorize, h⟩ := bind_eq_ok.mp h
    obtain ⟨-, -, h⟩ := bind_eq_ok.mp h
    obtain ⟨-, rfl⟩ := pending_of_authorize hauthorize
    exact (Except.ok.inj h).symm
  cases subject with
  | source id => exact ⟨id, hanswer h⟩
  | evidence id => exact ⟨id, hanswer h⟩

/-- A report about a source or a piece of evidence lists nothing that the tables do not have,
and, when no event was pending, every version and every decision that depended on the subject
when the events were counted. -/
theorem impact_exact (reading : Reading rt) (ctx : TenantContext) (subject : Subject)
    (report : ImpactReport) (h : impactOf reading.toStages ctx subject = .ok report) :
    let org := ctx.organizationId
    Sound (Reason reading.asked.db org subject) reading.asked.db org report ∧
      (report.pendingEvents = 0 → (subject.rows reading.asked.graph org).length ≤ fetchLimit →
        Total (Reason reading.counted.db org subject) reading.counted.db report) := by
  obtain ⟨id, rfl⟩ := impactOf_eq_ok h
  have hw := reading.asked_truthful
  have hdb := reading.counted_truthful.coherent.intact
  cases subject with
  | source sourceId =>
    exact exact_groupImpact reading (reasoned_foundBySource hw sourceId)
      (fun hsince => found_foundBySource hw hsince sourceId)
      (fun _ _ => known_of_sourceReason hdb) id
  | evidence evidenceId =>
    exact exact_groupImpact reading (reasoned_foundByEvidence hw evidenceId)
      (fun hsince => found_foundByEvidence hw hsince evidenceId)
      (fun _ _ => known_of_evidenceReason hdb) id

/-- A decision relies on a version with evidence for it, and the graph shows all of them. -/
def exampleShown : List Event :=
  [⟨0, .register ⟨[⟨3, 1, "crm", .systemOfRecord, none, 50, 0⟩], [], []⟩ [1]⟩] ++
    exampleRecording 0 true 10 ⟨10, 11, 12⟩ [2, 3, 4] ++
    [⟨20, .register ⟨[],
      [⟨60, 1, 3, .documentExcerpt, "paid in full", "", none, .obj [], .internal, 20, 20⟩],
      [⟨1, 12, 60, .supports, 20, some 2⟩]⟩ [5, 6]⟩] ++
    exampleDeciding (ImpactExactness.exampleCapture 0 30 40) [7, 8] ++
    exampleDeciding (ImpactExactness.exampleDecide 1 32) [] ++
    exampleDeciding (ImpactExactness.exampleDecided 1 33 50) [9, 10] ++
    ([.startProjector, .claim 0 100 none] ++ List.replicate 10 (.load 0) ++
      [.write 0, .finish 0] : List Action).map (⟨35, ·⟩)

/-- Another version from the source, which the graph does not show. -/
def exampleLater : List Event := exampleRecording 1 false 40 ⟨20, 21, 22⟩ [11, 12]

/-- Whether the answer is what the example expects. -/
def exampleAnswer (stages : Stages) : Bool :=
  match impactOf stages exampleContext (.source 3) with
  | .ok report => decide (report.pendingEvents = 0 ∧ report.affectedVersions = [12] ∧
      (report.decisions.map fun a => (a.decisionId, a.becauseOf)) =
        [(50, [(12, "asserted_by_source"), (12, "supported_by_source_evidence")])] ∧
      ((Subject.source 3).rows stages.asked.graph 1).length ≤ fetchLimit)
  | .error _ => false

theorem exampleShown_answered : ((system exampleRuntime).run exampleStart exampleShown).any
    (fun w => ((system exampleRuntime).run w exampleLater).any fun w' =>
      exampleAnswer ⟨w, w, w, w'⟩) = true := by
  decide +kernel

theorem impact_exact_example : ∃ (reading : Reading exampleRuntime) (report : ImpactReport),
    impactOf reading.toStages exampleContext (.source 3) = .ok report ∧
      report.affectedVersions = [12] ∧ (report.decisions.map AffectedDecision.decisionId) = [50] ∧
      Sound (Reason reading.asked.db 1 (.source 3)) reading.asked.db 1 report ∧
      Total (Reason reading.counted.db 1 (.source 3)) reading.counted.db report := by
  obtain ⟨w, hrun, hany⟩ := (Option.any_eq_true _ _).mp exampleShown_answered
  obtain ⟨w', hrun', hanswer⟩ := (Option.any_eq_true _ _).mp hany
  let reading : Reading exampleRuntime := ⟨⟨w, w, w, w'⟩,
    ⟨exampleStart, exampleShown, exampleStart_start, hrun⟩, ⟨[], rfl⟩, ⟨[], rfl⟩,
    ⟨exampleLater, hrun'⟩⟩
  cases hreport : impactOf reading.toStages exampleContext (.source 3) with
  | ok report =>
    rw [exampleAnswer, hreport] at hanswer
    obtain ⟨hpending, hversions, hdecisions, hlength⟩ := of_decide_eq_true hanswer
    obtain ⟨hsound, htotal⟩ := impact_exact reading exampleContext (.source 3) report hreport
    have hids : report.decisions.map AffectedDecision.decisionId = [50] := by
      simpa [Function.comp_def] using congrArg (List.map Prod.fst) hdecisions
    exact ⟨reading, report, hreport, hversions, hids, hsound, htotal hpending hlength⟩
  | error failure =>
    rw [exampleAnswer, hreport] at hanswer
    exact absurd hanswer (by simp)

end ContextLedger.SourceImpact

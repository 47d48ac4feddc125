import ContextLedger.Projection
import ContextLedger.Trails

/-!
Questions to the provenance graph: which decisions depend on a version, and which
versions came after it. Every node of a pattern has to carry the organization
that asks. A pattern of any length gives a match for each trail, and a union
drops repeated rows.
-/
namespace ContextLedger.Provenance

open Values Schema MergeStore Projection Trails

/-- A node of this label whose `org` is the organization. -/
def isNode (g : Graph) (label : Label) (org : Uuid) (k : NodeKey) : Bool :=
  k.1 == label && (lookup g.nodes k).any fun props => props .org == some (.uuid org)

/-- The ends of the relationships of a type. -/
def related (g : Graph) (type : RelationshipType) : List (NodeKey × NodeKey) :=
  g.relationships.filterMap fun e => if e.key.1 = type then some e.key.2 else none

def nodeKey (label : Label) (id : Uuid) : NodeKey := (label, some (.uuid id))

def «exists» (g : Graph) (label : Label) (org id : Uuid) : Bool :=
  isNode g label org (nodeKey label id)

/-- A placeholder has neither action nor time. -/
structure DecisionRef where
  decisionId : Uuid
  action : Option String
  decidedAt : Option Instant
  deriving DecidableEq

structure ImpactRow where
  factVersionId : Uuid
  via : String
  decision : Option DecisionRef
  deriving DecidableEq

def uuidOf : Option Value → Option Uuid
  | some (.uuid id) => some id
  | _ => none

def textOf : Option Value → Option String
  | some (.text s) => some s
  | _ => none

def datetimeOf : Option Value → Option Instant
  | some (.datetime t) => some t
  | _ => none

def decisionRef (g : Graph) (k : NodeKey) : Option DecisionRef :=
  let props := (lookup g.nodes k).getD bare
  (uuidOf k.2).map fun id => ⟨id, textOf (props .action), datetimeOf (props .decidedAt)⟩

/-- `MATCH (d:Decision {org})-[:RELIED_ON]->(v) RETURN d, 'relied_on'` -/
def reliedOn (g : Graph) (org : Uuid) (v : NodeKey) : List (NodeKey × String) :=
  ((related g .reliedOn).filter fun e => isNode g .decision org e.1 && e.2 == v).map
    fun e => (e.1, "relied_on")

/-- `MATCH (d:Decision {org})-[:BASED_ON]->(:Snapshot {org})-[:INCLUDED]->(v)`
`WHERE NOT (d)-[:RELIED_ON]->(v) RETURN d, 'in_context'` -/
def inContext (g : Graph) (org : Uuid) (v : NodeKey) : List (NodeKey × String) :=
  (related g .basedOn).flatMap fun e =>
    ((related g .included).filter fun i => isNode g .decision org e.1 &&
        isNode g .snapshot org e.2 && i == (e.2, v) &&
        !(related g .reliedOn).contains (e.1, v)).map
      fun _ => (e.1, "in_context")

def impactOfVersion (g : Graph) (org version : Uuid) : List ImpactRow :=
  let v := nodeKey .factVersion version
  if «exists» g .factVersion org version then
    (reliedOn g org v ++ inContext g org v).dedup.map fun row =>
      ⟨version, row.2, decisionRef g row.1⟩
  else []

def uuidLe (a b : Uuid) : Prop := a.toNat ≤ b.toNat

instance : DecidableRel uuidLe := fun a b => inferInstanceAs (Decidable (a.toNat ≤ b.toNat))

/-- `sorted(UUID(x) for x in later_ids)`, with one entry for each trail. -/
def supersededBy (g : Graph) (org version : Uuid) : List Uuid :=
  let edges := related g .supersedes
  if «exists» g .factVersion org version then
    (((trailStarts edges.length edges (nodeKey .factVersion version)).filter
      (isNode g .factVersion org)).filterMap fun k => uuidOf k.2).insertionSort uuidLe
  else []

structure AffectedDecision where
  decisionId : Uuid
  action : Option String
  decidedAt : Option Instant
  becauseOf : List (Uuid × String)

/-- The order of `(fact version, how)` pairs. -/
def reasonLe (a b : Uuid × String) : Prop := a.1.toNat < b.1.toNat ∨ a.1 = b.1 ∧ a.2 ≤ b.2

instance : DecidableRel reasonLe := fun a b =>
  inferInstanceAs (Decidable (a.1.toNat < b.1.toNat ∨ a.1 = b.1 ∧ a.2 ≤ b.2))

/-- The order of `(decided_at is None, decided_at, decision_id)`. -/
def affectedLe (a b : AffectedDecision) : Bool :=
  match a.decidedAt, b.decidedAt with
  | some t, some u => decide (t < u) || (decide (t = u) && decide (uuidLe a.decisionId b.decisionId))
  | some _, none => true
  | none, some _ => false
  | none, none => decide (uuidLe a.decisionId b.decisionId)

def reasons (rows : List ImpactRow) (id : Uuid) : List (Uuid × String) :=
  (((rows.filter fun r => r.decision.any fun d => d.decisionId == id).map
    fun r => (r.factVersionId, r.via)).dedup).insertionSort reasonLe

/-- The last of the references to a decision is the one kept. -/
def affected (rows : List ImpactRow) (id : Uuid) : Option AffectedDecision :=
  ((rows.filterMap ImpactRow.decision).reverse.find? fun d => d.decisionId == id).map fun ref =>
    ⟨ref.decisionId, ref.action, ref.decidedAt, reasons rows id⟩

/-- The versions and the decisions of the rows, each once. -/
def groupImpact (rows : List ImpactRow) : List Uuid × List AffectedDecision :=
  let versions := (rows.map ImpactRow.factVersionId).dedup.insertionSort uuidLe
  let ids := ((rows.filterMap ImpactRow.decision).map DecisionRef.decisionId).dedup
  (versions, (ids.filterMap (affected rows)).insertionSort fun a b => affectedLe a b = true)

theorem isNode_eq_true {g : Graph} {label : Label} {org : Uuid} {k : NodeKey} :
    isNode g label org k = true ↔
      k.1 = label ∧ ∃ props, lookup g.nodes k = some props ∧ props .org = some (.uuid org) := by
  simp [isNode, Option.any_eq_true]

theorem mem_related {g : Graph} {type : RelationshipType} {a b : NodeKey} :
    (a, b) ∈ related g type ↔ (lookup g.relationships (type, a, b)).isSome := by
  rw [lookup_isSome, related, List.mem_filterMap, List.mem_map]
  refine exists_congr fun e => and_congr_right fun _ => ?_
  obtain ⟨⟨type', ends⟩, props⟩ := e
  by_cases htype : type' = type
  · simp [htype]
  · simp [htype]

theorem nodup_related {g : Graph} (hg : g.Unique) (type : RelationshipType) :
    (related g type).Nodup := by
  have hkeys : related g type = (g.relationships.map Entry.key).filterMap
      fun k => if k.1 = type then some k.2 else none := by
    rw [related, List.filterMap_map]
    rfl
  rw [hkeys]
  refine hg.2.filterMap ?_
  intro k k' ends hk hk'
  obtain ⟨htype, hends⟩ := Option.ite_none_right_eq_some.mp hk
  obtain ⟨htype', hends'⟩ := Option.ite_none_right_eq_some.mp hk'
  exact Prod.ext (htype.trans htype'.symm) (Option.some.inj (hends.trans hends'.symm))

theorem mem_reliedOn {g : Graph} {org : Uuid} {v k : NodeKey} {via : String} :
    (k, via) ∈ reliedOn g org v ↔
      via = "relied_on" ∧ isNode g .decision org k = true ∧ (k, v) ∈ related g .reliedOn := by
  simp only [reliedOn, List.mem_map, List.mem_filter, Bool.and_eq_true, beq_iff_eq, Prod.mk.injEq]
  constructor
  · rintro ⟨⟨k', v'⟩, ⟨hmem, hnode, rfl⟩, rfl, rfl⟩
    exact ⟨rfl, hnode, hmem⟩
  · rintro ⟨rfl, hnode, hmem⟩
    exact ⟨(k, v), ⟨hmem, hnode, rfl⟩, rfl, rfl⟩

theorem mem_inContext {g : Graph} {org : Uuid} {v k : NodeKey} {via : String} :
    (k, via) ∈ inContext g org v ↔
      via = "in_context" ∧ isNode g .decision org k = true ∧ (k, v) ∉ related g .reliedOn ∧
        ∃ s, (k, s) ∈ related g .basedOn ∧ isNode g .snapshot org s = true ∧
          (s, v) ∈ related g .included := by
  simp only [inContext, List.mem_flatMap, List.mem_map, List.mem_filter, Bool.and_eq_true,
    beq_iff_eq, Bool.not_eq_true', List.contains_eq_mem, decide_eq_false_iff_not, Prod.mk.injEq]
  constructor
  · rintro ⟨⟨k', s⟩, hbased, i, ⟨hincluded, ⟨⟨hnode, hsnapshot⟩, rfl⟩, hnot⟩, rfl, rfl⟩
    exact ⟨rfl, hnode, hnot, s, hbased, hsnapshot, hincluded⟩
  · rintro ⟨rfl, hnode, hnot, s, hbased, hsnapshot, hincluded⟩
    exact ⟨(k, s), hbased, (s, v), ⟨hincluded, ⟨⟨hnode, hsnapshot⟩, rfl⟩, hnot⟩, rfl, rfl⟩

/-- How the union says that a decision depends on a version. -/
def viaOf (g : Graph) (k v : NodeKey) : String :=
  if (k, v) ∈ related g .reliedOn then "relied_on" else "in_context"

/-- The decision is a match of one side of the union. -/
def Depends (g : Graph) (org : Uuid) (k v : NodeKey) : Prop :=
  isNode g .decision org k = true ∧ ((k, v) ∈ related g .reliedOn ∨
    ∃ s, (k, s) ∈ related g .basedOn ∧ isNode g .snapshot org s = true ∧
      (s, v) ∈ related g .included)

theorem mem_impactOfVersion {g : Graph} {org version : Uuid} {row : ImpactRow} :
    row ∈ impactOfVersion g org version ↔ «exists» g .factVersion org version = true ∧
      ∃ k, Depends g org k (nodeKey .factVersion version) ∧
        row = ⟨version, viaOf g k (nodeKey .factVersion version), decisionRef g k⟩ := by
  unfold impactOfVersion
  by_cases hexists : «exists» g .factVersion org version = true
  · simp only [hexists, if_true, true_and, List.mem_map, List.mem_dedup, List.mem_append]
    constructor
    · rintro ⟨⟨k, via⟩, hk, rfl⟩
      rcases hk with hk | hk
      · obtain ⟨rfl, hnode, hmem⟩ := mem_reliedOn.mp hk
        exact ⟨k, ⟨hnode, Or.inl hmem⟩, by rw [viaOf, if_pos hmem]⟩
      · obtain ⟨rfl, hnode, hnot, hpath⟩ := mem_inContext.mp hk
        exact ⟨k, ⟨hnode, Or.inr hpath⟩, by rw [viaOf, if_neg hnot]⟩
    · rintro ⟨k, ⟨hnode, hpath⟩, rfl⟩
      refine ⟨(k, viaOf g k (nodeKey .factVersion version)), ?_, rfl⟩
      by_cases hrelied : (k, nodeKey .factVersion version) ∈ related g .reliedOn
      · exact Or.inl (mem_reliedOn.mpr ⟨by rw [viaOf, if_pos hrelied], hnode, hrelied⟩)
      · exact Or.inr (mem_inContext.mpr ⟨by rw [viaOf, if_neg hrelied], hnode, hrelied,
          hpath.resolve_left hrelied⟩)
  · simp [hexists]

theorem affected_of_mem {rows : List ImpactRow} {id : Uuid}
    (hid : id ∈ (rows.filterMap ImpactRow.decision).map DecisionRef.decisionId) :
    ∃ a, affected rows id = some a ∧ a.decisionId = id ∧ a.becauseOf = reasons rows id := by
  obtain ⟨ref, href, rfl⟩ := List.mem_map.mp hid
  have hfound : ((rows.filterMap ImpactRow.decision).reverse.find?
      fun d => d.decisionId == ref.decisionId).isSome := by
    rw [List.find?_isSome]
    exact ⟨ref, List.mem_reverse.mpr href, beq_self_eq_true _⟩
  obtain ⟨found, hfind⟩ := Option.isSome_iff_exists.mp hfound
  have hsame : found.decisionId = ref.decisionId := by simpa using List.find?_some hfind
  exact ⟨_, by rw [affected, hfind]; rfl, hsame, rfl⟩

theorem map_filterMap_eq_self {α β : Type} {f : α → Option β} {key : β → α} {l : List α}
    (h : ∀ a ∈ l, ∃ b, f a = some b ∧ key b = a) : (l.filterMap f).map key = l := by
  induction l with
  | nil => rfl
  | cons a l ih =>
    obtain ⟨b, hb, hkey⟩ := h a List.mem_cons_self
    rw [List.filterMap_cons_some hb, List.map_cons, hkey,
      ih fun a' ha' => h a' (List.mem_cons_of_mem _ ha')]

theorem groupImpact_ids (rows : List ImpactRow) :
    ((groupImpact rows).2.map AffectedDecision.decisionId).Perm
      ((rows.filterMap ImpactRow.decision).map DecisionRef.decisionId).dedup := by
  unfold groupImpact
  refine ((List.perm_insertionSort _ _).map _).trans ?_
  rw [map_filterMap_eq_self]
  intro id hid
  obtain ⟨a, ha, hkey, -⟩ := affected_of_mem (List.mem_dedup.mp hid)
  exact ⟨a, ha, hkey⟩

theorem becauseOf_of_mem_groupImpact {rows : List ImpactRow} {a : AffectedDecision}
    (ha : a ∈ (groupImpact rows).2) : a.becauseOf = reasons rows a.decisionId := by
  unfold groupImpact at ha
  obtain ⟨id, hid, hsome⟩ := List.mem_filterMap.mp ((List.mem_insertionSort _).mp ha)
  obtain ⟨a', ha', hkey, hbecause⟩ := affected_of_mem (List.mem_dedup.mp hid)
  obtain rfl := Option.some.inj (hsome.symm.trans ha')
  rw [hbecause, hkey]

/-- Rows that agree on a decision give one reason for it. -/
theorem reasons_eq_singleton {rows : List ImpactRow} {id : Uuid} {reason : Uuid × String}
    (hsome : ∃ row ∈ rows, row.decision.any (fun d => d.decisionId == id) = true)
    (hall : ∀ row ∈ rows, row.decision.any (fun d => d.decisionId == id) = true →
      (row.factVersionId, row.via) = reason) : reasons rows id = [reason] := by
  have hreplicate : ((rows.filter fun r => r.decision.any fun d => d.decisionId == id).map
      fun r => (r.factVersionId, r.via)) = List.replicate
        (rows.filter fun r => r.decision.any fun d => d.decisionId == id).length reason := by
    rw [List.eq_replicate_iff]
    refine ⟨List.length_map .., ?_⟩
    intro pair hpair
    obtain ⟨row, hrow, rfl⟩ := List.mem_map.mp hpair
    exact hall row (List.mem_filter.mp hrow).1 (List.mem_filter.mp hrow).2
  obtain ⟨row, hrow, hid⟩ := hsome
  have hlength : (rows.filter fun r => r.decision.any fun d => d.decisionId == id).length ≠ 0 :=
    (List.length_pos_of_mem (List.mem_filter.mpr ⟨hrow, hid⟩)).ne'
  rw [reasons, hreplicate, List.replicate_dedup hlength]
  rfl

structure ImpactReport where
  subjectId : Uuid
  affectedVersions : List Uuid
  decisions : List AffectedDecision
  supersededBy : List Uuid
  pendingEvents : ℕ

end ContextLedger.Provenance

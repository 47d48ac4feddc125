import ContextLedger.Projection

/-!
The projection does not depend on the order, the grouping or the repetition of
its rows. Only the statement of a row's own table assigns all properties of its
node, and a relationship belongs to one row; so once every row of a set closed
under foreign keys has been applied, every node and every relationship holds
what its row says, and no placeholder is left.
-/
namespace ContextLedger.ProjectionOrder

open Values Schema MergeStore Projection

variable {rt : Runtime}

def nodeOf : Clause → Option (Merge NodeKey Field Value)
  | .node m => some m
  | .relationship _ => none

def relationshipOf : Clause → Option (Merge RelationshipKey Field Value)
  | .node _ => none
  | .relationship m => some m

def executeAll (g : Graph) (cs : List Clause) : Graph := cs.foldl Graph.execute g

theorem executeAll_nodes (g : Graph) (cs : List Clause) :
    (executeAll g cs).nodes = mergeAll g.nodes (cs.filterMap nodeOf) := by
  induction cs generalizing g with
  | nil => rfl
  | cons c cs ih =>
    rw [show executeAll g (c :: cs) = executeAll (g.execute c) cs from rfl, ih]
    cases c <;> rfl

theorem executeAll_relationships (g : Graph) (cs : List Clause) :
    (executeAll g cs).relationships =
      mergeAll g.relationships (cs.filterMap relationshipOf) := by
  induction cs generalizing g with
  | nil => rfl
  | cons c cs ih =>
    rw [show executeAll g (c :: cs) = executeAll (g.execute c) cs from rfl, ih]
    cases c <;> rfl

theorem mem_nodeOf {cs : List Clause} {m : Merge NodeKey Field Value} :
    m ∈ cs.filterMap nodeOf ↔ Clause.node m ∈ cs := by
  rw [List.mem_filterMap]
  constructor
  · rintro ⟨c, hc, hm⟩
    cases c with
    | node m' =>
      obtain rfl := Option.some.inj hm
      exact hc
    | relationship m' => exact absurd hm (by simp [nodeOf])
  · exact fun h => ⟨_, h, rfl⟩

theorem mem_relationshipOf {cs : List Clause} {m : Merge RelationshipKey Field Value} :
    m ∈ cs.filterMap relationshipOf ↔ Clause.relationship m ∈ cs := by
  rw [List.mem_filterMap]
  constructor
  · rintro ⟨c, hc, hm⟩
    cases c with
    | node m' => exact absurd hm (by simp [relationshipOf])
    | relationship m' =>
      obtain rfl := Option.some.inj hm
      exact hc
  · exact fun h => ⟨_, h, rfl⟩

/-- The properties that the statement of a label's own table assigns. -/
def labelFields : Label → List Field
  | .entity => [.org, .entityType, .externalId]
  | .fact => [.org, .property]
  | .factVersion => [.org, .version, .valueSha256, .validFrom, .validUntil, .recordedAt,
      .validUntilRecordedAt, .authority, .confidence, .privacyScope]
  | .source => [.org, .name, .sourceType, .defaultAuthority]
  | .evidence => [.org, .evidenceType, .contentSha256, .uri, .privacyScope, .capturedAt]
  | .snapshot => [.org, .validAt, .knownAt, .capturedByUserId]
  | .decision => [.org, .action, .agent, .decidedAt, .decidedByUserId, .receiptSha256]

def typeFields : RelationshipType → List Field
  | .evidenceFor => [.relation, .linkedAt]
  | .included => [.position]
  | _ => []

def nodeFields (k : NodeKey) : List Field := labelFields k.1

def relationshipFields (k : RelationshipKey) : List Field := typeFields k.1

def Fits : Clause → Prop
  | .node m => m.Fits nodeFields
  | .relationship m => m.Full relationshipFields

theorem pick_fields (r : GraphRow) (fields : List Field) :
    (r.pick fields).map Prod.fst = fields := by
  simp [GraphRow.pick, Function.comp_def]

theorem org_mem_labelFields (label : Label) : Field.org ∈ labelFields label := by
  cases label <;> exact List.mem_cons_self

theorem own_fits {label : Label} {fields : List Field} (hfields : fields = labelFields label)
    (r : GraphRow) : ∀ c ∈ own label fields r, Fits c := by
  intro c hc
  obtain rfl := List.mem_singleton.mp hc
  exact Or.inl ⟨rfl, (pick_fields r fields).trans hfields⟩

theorem farEnd_fits (label : Label) (field : Field) (r : GraphRow) :
    ∀ c ∈ farEnd label field r, Fits c := by
  intro c hc
  obtain rfl := List.mem_singleton.mp hc
  refine Or.inr ⟨rfl, ?_⟩
  intro n hn
  rw [pick_fields, List.mem_singleton] at hn
  exact hn ▸ org_mem_labelFields label

theorem link_fits {type : RelationshipType} {fields : List Field}
    (hfields : fields = typeFields type) (source target : Label × Field) (r : GraphRow) :
    ∀ c ∈ link type source target fields r, Fits c := by
  intro c hc
  obtain rfl := List.mem_singleton.mp hc
  exact ⟨rfl, (pick_fields r fields).trans hfields⟩

theorem foreachGiven_fits {field : Field} {body : List (GraphRow → List Clause)} {r : GraphRow}
    (hbody : ∀ clause ∈ body, ∀ c ∈ clause r, Fits c) :
    ∀ c ∈ foreachGiven field body r, Fits c := by
  intro c hc
  unfold foreachGiven at hc
  split at hc
  · exact absurd hc List.not_mem_nil
  · obtain ⟨clause, hclause, hc⟩ := List.mem_flatMap.mp hc
    exact hbody clause hclause c hc

/-- Every clause of every statement assigns all properties of its node or
relationship, or the organization of a node that it creates. -/
theorem cypher_fits (table : Table) (r : GraphRow) :
    ∀ clause ∈ cypher table, ∀ c ∈ clause r, Fits c := by
  have hnil : ∀ clause ∈ ([] : List (GraphRow → List Clause)), ∀ c ∈ clause r, Fits c := by
    simp
  have hown : ∀ label, ∀ c ∈ own label (labelFields label) r, Fits c :=
    fun label => own_fits rfl r
  have hfar : ∀ label field, ∀ c ∈ farEnd label field r, Fits c :=
    fun label field => farEnd_fits label field r
  have hlink : ∀ type source target, ∀ c ∈ link type source target (typeFields type) r,
      Fits c := fun type source target => link_fits rfl source target r
  cases table <;> simp only [cypher, List.forall_mem_cons]
  case entities => exact ⟨hown .entity, hnil⟩
  case facts => exact ⟨hown .fact, hfar _ _, hlink .ofEntity _ _, hnil⟩
  case factSources => exact ⟨hown .source, hnil⟩
  case factVersions =>
    refine ⟨hown .factVersion, hfar _ _, hlink .versionOf _ _, hfar _ _, hlink .assertedBy _ _,
      foreachGiven_fits ?_, hnil⟩
    simp only [List.forall_mem_cons]
    exact ⟨hfar _ _, hlink .supersedes _ _, hnil⟩
  case evidence => exact ⟨hown .evidence, hfar _ _, hlink .fromSource _ _, hnil⟩
  case factVersionEvidence => exact ⟨hfar _ _, hfar _ _, hlink .evidenceFor _ _, hnil⟩
  case contextSnapshots => exact ⟨hown .snapshot, hnil⟩
  case contextSnapshotFacts => exact ⟨hfar _ _, hfar _ _, hlink .included _ _, hnil⟩
  case decisions => exact ⟨hown .decision, hfar _ _, hlink .basedOn _ _, hnil⟩
  case decisionFacts => exact ⟨hfar _ _, hfar _ _, hlink .reliedOn _ _, hnil⟩

/-- The clauses that the statement of a row runs for it. -/
def statement (rt : Runtime) (r : Row) : List Clause :=
  (cypher r.table).flatMap fun clause => clause (toGraphRow rt r)

theorem statement_fits {r : Row} {c : Clause} (hc : c ∈ statement rt r) : Fits c := by
  obtain ⟨clause, hclause, hc⟩ := List.mem_flatMap.mp hc
  exact cypher_fits r.table _ clause hclause c hc

/-- The clauses of a batch, in the order in which they are run. -/
def batchClauses (batch : Batch) : List Clause :=
  tableOrder.flatMap fun table =>
    (cypher table).flatMap fun clause => (batch table).flatMap clause

theorem apply_eq (batch : Batch) (g : Graph) : apply batch g = executeAll g (batchClauses batch) := by
  unfold apply executeAll batchClauses runStatement
  simp only [List.foldl_flatMap]

theorem mem_tableOrder (table : Table) : table ∈ tableOrder := by
  cases table <;> decide

/-- Every row of the batch is a row of the set, under its own table. -/
def From (rt : Runtime) (rows : List Row) (batch : Batch) : Prop :=
  ∀ table, ∀ p ∈ batch table, ∃ r ∈ rows, r.table = table ∧ toGraphRow rt r = p

theorem exists_of_mem_batchClauses {rows : List Row} {batch : Batch} (hbatch : From rt rows batch)
    {c : Clause} (hc : c ∈ batchClauses batch) : ∃ r ∈ rows, c ∈ statement rt r := by
  obtain ⟨table, -, hc⟩ := List.mem_flatMap.mp hc
  obtain ⟨clause, hclause, hc⟩ := List.mem_flatMap.mp hc
  obtain ⟨p, hp, hc⟩ := List.mem_flatMap.mp hc
  obtain ⟨r, hr, rfl, rfl⟩ := hbatch table p hp
  exact ⟨r, hr, List.mem_flatMap.mpr ⟨clause, hclause, hc⟩⟩

theorem mem_batchClauses {batch : Batch} {r : Row} (hr : toGraphRow rt r ∈ batch r.table)
    {c : Clause} (hc : c ∈ statement rt r) : c ∈ batchClauses batch := by
  obtain ⟨clause, hclause, hc⟩ := List.mem_flatMap.mp hc
  exact List.mem_flatMap.mpr ⟨r.table, mem_tableOrder r.table, List.mem_flatMap.mpr
    ⟨clause, hclause, List.mem_flatMap.mpr ⟨_, hr, hc⟩⟩⟩

/-- The key of the node that the row itself describes. -/
def ownKey : Row → Option NodeKey
  | .entity row => some (.entity, some (.uuid row.id))
  | .fact row => some (.fact, some (.uuid row.id))
  | .factSource row => some (.source, some (.uuid row.id))
  | .factVersion row => some (.factVersion, some (.uuid row.id))
  | .evidence row => some (.evidence, some (.uuid row.id))
  | .contextSnapshot row => some (.snapshot, some (.uuid row.id))
  | .decision row => some (.decision, some (.uuid row.id))
  | _ => none

/-- The nodes at the far ends of the row's relationships. -/
def farKeys : Row → List NodeKey
  | .fact row => [(.entity, some (.uuid row.entityId))]
  | .factVersion row =>
    [(.fact, some (.uuid row.factId)), (.source, some (.uuid row.sourceId))] ++
      row.supersedesId.toList.map fun previous => (.factVersion, some (.uuid previous))
  | .evidence row => [(.source, some (.uuid row.sourceId))]
  | .factVersionEvidence row =>
    [(.evidence, some (.uuid row.evidenceId)), (.factVersion, some (.uuid row.factVersionId))]
  | .contextSnapshotFact row =>
    [(.snapshot, some (.uuid row.snapshotId)), (.factVersion, some (.uuid row.factVersionId))]
  | .decision row => [(.snapshot, some (.uuid row.snapshotId))]
  | .decisionFact row =>
    [(.decision, some (.uuid row.decisionId)), (.factVersion, some (.uuid row.factVersionId))]
  | _ => []

def links : Row → List RelationshipKey
  | .fact row =>
    [(.ofEntity, (.fact, some (.uuid row.id)), (.entity, some (.uuid row.entityId)))]
  | .factVersion row =>
    [(.versionOf, (.factVersion, some (.uuid row.id)), (.fact, some (.uuid row.factId))),
     (.assertedBy, (.factVersion, some (.uuid row.id)), (.source, some (.uuid row.sourceId)))] ++
      row.supersedesId.toList.map fun previous =>
        (.supersedes, (.factVersion, some (.uuid row.id)), (.factVersion, some (.uuid previous)))
  | .evidence row =>
    [(.fromSource, (.evidence, some (.uuid row.id)), (.source, some (.uuid row.sourceId)))]
  | .factVersionEvidence row =>
    [(.evidenceFor, (.evidence, some (.uuid row.evidenceId)),
      (.factVersion, some (.uuid row.factVersionId)))]
  | .contextSnapshotFact row =>
    [(.included, (.snapshot, some (.uuid row.snapshotId)),
      (.factVersion, some (.uuid row.factVersionId)))]
  | .decision row =>
    [(.basedOn, (.decision, some (.uuid row.id)), (.snapshot, some (.uuid row.snapshotId)))]
  | .decisionFact row =>
    [(.reliedOn, (.decision, some (.uuid row.decisionId)),
      (.factVersion, some (.uuid row.factVersionId)))]
  | _ => []

/-- Filling the row's own node. -/
def ownMerge (rt : Runtime) (r : Row) (k : NodeKey) : Merge NodeKey Field Value :=
  ⟨k, [], (toGraphRow rt r).pick (nodeFields k)⟩

def farMerge (r : Row) (k : NodeKey) : Merge NodeKey Field Value :=
  ⟨k, [(.org, some (.uuid r.org))], []⟩

def linkMerge (rt : Runtime) (r : Row) (k : RelationshipKey) :
    Merge RelationshipKey Field Value :=
  ⟨k, [], (toGraphRow rt r).pick (relationshipFields k)⟩

/-- What a statement does for a row: fill its own node, make sure of the far ends,
and link them. -/
def parts (rt : Runtime) (r : Row) : List Clause :=
  (ownKey r).toList.map (fun k => .node (ownMerge rt r k)) ++
    (farKeys r).map (fun k => .node (farMerge r k)) ++
    (links r).map fun k => .relationship (linkMerge rt r k)

theorem statement_perm (r : Row) : (statement rt r).Perm (parts rt r) := by
  cases r with
  | factVersion row =>
    obtain ⟨id, org, factId, version, value, sourceId, validFrom, validUntil, observedAt,
      recordedAt, validUntilRecordedAt, supersedesId, authority, confidence, scope⟩ := row
    cases supersedesId with
    | none => exact .cons _ (.cons _ (.swap _ _ _))
    | some previous =>
      refine .cons _ (.cons _ ((List.Perm.swap _ _ _).trans (.cons _ ?_)))
      exact (List.Perm.cons _ (.swap _ _ _)).trans (.swap _ _ _)
  | _ => exact List.Perm.refl _

theorem mem_statement {r : Row} {c : Clause} : c ∈ statement rt r ↔
    (∃ k, ownKey r = some k ∧ c = .node (ownMerge rt r k)) ∨
      (∃ k ∈ farKeys r, c = .node (farMerge r k)) ∨
      ∃ k ∈ links r, c = .relationship (linkMerge rt r k) := by
  rw [(statement_perm r).mem_iff]
  simp only [parts, List.mem_append, List.mem_map, Option.mem_toList, or_assoc, eq_comm]

theorem ownMerge_full (r : Row) (k : NodeKey) : (ownMerge rt r k).Full nodeFields :=
  ⟨rfl, pick_fields _ _⟩

theorem linkMerge_full (r : Row) (k : RelationshipKey) :
    (linkMerge rt r k).Full relationshipFields := ⟨rfl, pick_fields _ _⟩

theorem not_full_farMerge (r : Row) (k : NodeKey) : ¬ (farMerge r k).Full nodeFields :=
  fun h => absurd h.1 (by simp [farMerge])

def labelTable : Label → Table
  | .entity => .entities
  | .fact => .facts
  | .factVersion => .factVersions
  | .source => .factSources
  | .evidence => .evidence
  | .snapshot => .contextSnapshots
  | .decision => .decisions

/-- The row that a node describes. -/
def nodeRow : NodeKey → Option (Table × List Uuid)
  | (label, some (.uuid id)) => some (labelTable label, [id])
  | _ => none

/-- The row that a relationship comes from. -/
def relationshipRow : RelationshipKey → Option (Table × List Uuid)
  | (.evidenceFor, (_, some (.uuid evidence)), (_, some (.uuid version))) =>
    some (.factVersionEvidence, [version, evidence])
  | (.included, (_, some (.uuid snapshot)), (_, some (.uuid version))) =>
    some (.contextSnapshotFacts, [snapshot, version])
  | (.reliedOn, (_, some (.uuid decision)), (_, some (.uuid version))) =>
    some (.decisionFacts, [decision, version])
  | (_, key, _) => nodeRow key

theorem nodeRow_ownKey {r : Row} {k : NodeKey} (h : ownKey r = some k) :
    nodeRow k = some (r.table, r.key) := by
  cases r <;> simp only [ownKey, Option.some.injEq, reduceCtorEq] at h <;> subst h <;> rfl

theorem relationshipRow_links {r : Row} {k : RelationshipKey} (h : k ∈ links r) :
    relationshipRow k = some (r.table, r.key) := by
  cases r with
  | factVersion row =>
    simp only [links, List.mem_append, List.mem_cons, List.not_mem_nil, or_false, List.mem_map]
      at h
    rcases h with (rfl | rfl) | ⟨previous, -, rfl⟩ <;> rfl
  | _ =>
    simp only [links, List.mem_singleton, List.not_mem_nil] at h
    all_goals
      subst h
      rfl

/-- Rows of the set with one primary key are one row to the graph. -/
def Consistent (rt : Runtime) (rows : List Row) : Prop :=
  ∀ r ∈ rows, ∀ r' ∈ rows, r.table = r'.table → r.key = r'.key → toGraphRow rt r = toGraphRow rt r'

def nodeContent (rt : Runtime) (r : Row) (k : NodeKey) : Props Field Value :=
  assign bare ((toGraphRow rt r).pick (nodeFields k))

def linkContent (rt : Runtime) (r : Row) (k : RelationshipKey) : Props Field Value :=
  assign bare ((toGraphRow rt r).pick (relationshipFields k))

/-- The graph shows the row: its node and its relationships as the row has them,
and the far ends at least as placeholders. -/
structure Applied (rt : Runtime) (g : Graph) (r : Row) : Prop where
  own : ∀ k, ownKey r = some k → lookup g.nodes k = some (nodeContent rt r k)
  far : ∀ k ∈ farKeys r, (lookup g.nodes k).isSome
  linked : ∀ k ∈ links r, lookup g.relationships k = some (linkContent rt r k)

/-- Nodes and relationships are unique and have only the properties of their kind. -/
structure Tidy (g : Graph) : Prop where
  unique : g.Unique
  nodes : Within nodeFields g.nodes
  relationships : Within relationshipFields g.relationships

theorem tidy_empty : Tidy Graph.empty :=
  ⟨⟨List.nodup_nil, List.nodup_nil⟩, within_nil, within_nil⟩

theorem tidy_executeAll {g : Graph} (hg : Tidy g) {cs : List Clause} (hcs : ∀ c ∈ cs, Fits c) :
    Tidy (executeAll g cs) := by
  refine ⟨⟨?_, ?_⟩, ?_, ?_⟩
  · rw [executeAll_nodes]
    exact nodup_mergeAll hg.unique.1 _
  · rw [executeAll_relationships]
    exact nodup_mergeAll hg.unique.2 _
  · rw [executeAll_nodes]
    exact within_mergeAll hg.nodes fun m hm => hcs _ (mem_nodeOf.mp hm)
  · rw [executeAll_relationships]
    exact within_mergeAll hg.relationships fun m hm => Or.inl (hcs _ (mem_relationshipOf.mp hm))

/-- The clauses come from rows that agree with `r` wherever they have its key. -/
structure Agrees (rt : Runtime) (r : Row) (cs : List Clause) : Prop where
  fits : ∀ c ∈ cs, Fits c
  rows : ∀ c ∈ cs, ∃ r', c ∈ statement rt r' ∧
    (r'.table = r.table → r'.key = r.key → toGraphRow rt r' = toGraphRow rt r)

theorem Agrees.node {r : Row} {cs : List Clause} (h : Agrees rt r cs) {k : NodeKey}
    (hk : ownKey r = some k) {m : Merge NodeKey Field Value} (hm : Clause.node m ∈ cs)
    (hkey : m.key = k) (hfull : m.Full nodeFields) : assign bare m.set = nodeContent rt r k := by
  obtain ⟨r', hr', hsame⟩ := h.rows _ hm
  rcases mem_statement.mp hr' with ⟨k', hk', hm'⟩ | ⟨k', -, hm'⟩ | ⟨k', -, hm'⟩
  · obtain rfl := Clause.node.inj hm'
    obtain rfl : k' = k := hkey
    have hrow := Option.some.inj ((nodeRow_ownKey hk').symm.trans (nodeRow_ownKey hk))
    rw [ownMerge, hsame (congrArg Prod.fst hrow) (congrArg Prod.snd hrow), nodeContent]
  · obtain rfl := Clause.node.inj hm'
    exact absurd hfull (not_full_farMerge r' k')
  · exact absurd hm' (by simp)

theorem Agrees.link {r : Row} {cs : List Clause} (h : Agrees rt r cs) {k : RelationshipKey}
    (hk : k ∈ links r) {m : Merge RelationshipKey Field Value} (hm : Clause.relationship m ∈ cs)
    (hkey : m.key = k) : assign bare m.set = linkContent rt r k := by
  obtain ⟨r', hr', hsame⟩ := h.rows _ hm
  rcases mem_statement.mp hr' with ⟨k', -, hm'⟩ | ⟨k', -, hm'⟩ | ⟨k', hk', hm'⟩
  · exact absurd hm' (by simp)
  · exact absurd hm' (by simp)
  · obtain rfl := Clause.relationship.inj hm'
    obtain rfl : k' = k := hkey
    have hrow := Option.some.inj ((relationshipRow_links hk').symm.trans (relationshipRow_links hk))
    rw [linkMerge, hsame (congrArg Prod.fst hrow) (congrArg Prod.snd hrow), linkContent]

/-- Running the statement of a row shows it, if nothing else in the batch differs. -/
theorem applied_executeAll {g : Graph} (hg : Tidy g) {r : Row} {cs : List Clause}
    (hagree : Agrees rt r cs) (hcs : ∀ c ∈ statement rt r, c ∈ cs) :
    Applied rt (executeAll g cs) r := by
  refine ⟨?_, ?_, ?_⟩
  · intro k hk
    have hm : Clause.node (ownMerge rt r k) ∈ cs :=
      hcs _ (mem_statement.mpr (Or.inl ⟨k, hk, rfl⟩))
    rw [executeAll_nodes]
    refine lookup_mergeAll_full hg.nodes (fun m hm => hagree.fits _ (mem_nodeOf.mp hm))
      (mem_nodeOf.mpr hm) (ownMerge_full r k) ?_
    intro m hm hkey hfull
    exact hagree.node hk (mem_nodeOf.mp hm) hkey hfull
  · intro k hk
    have hm : Clause.node (farMerge r k) ∈ cs :=
      hcs _ (mem_statement.mpr (Or.inr (Or.inl ⟨k, hk, rfl⟩)))
    rw [executeAll_nodes, lookup_mergeAll_isSome]
    exact Or.inr ⟨_, mem_nodeOf.mpr hm, rfl⟩
  · intro k hk
    have hm : Clause.relationship (linkMerge rt r k) ∈ cs :=
      hcs _ (mem_statement.mpr (Or.inr (Or.inr ⟨k, hk, rfl⟩)))
    rw [executeAll_relationships]
    refine lookup_mergeAll_full hg.relationships
      (fun m hm => Or.inl (hagree.fits _ (mem_relationshipOf.mp hm)))
      (mem_relationshipOf.mpr hm) (linkMerge_full r k) ?_
    intro m hm hkey _
    exact hagree.link hk (mem_relationshipOf.mp hm) hkey

/-- A row that is shown stays so while nothing that is run differs from it. -/
theorem Applied.executeAll {g : Graph} (hg : Tidy g) {r : Row} (hr : Applied rt g r)
    {cs : List Clause} (hagree : Agrees rt r cs) : Applied rt (executeAll g cs) r := by
  refine ⟨?_, ?_, ?_⟩
  · intro k hk
    rw [executeAll_nodes]
    exact lookup_mergeAll_kept hg.nodes (fun m hm => hagree.fits _ (mem_nodeOf.mp hm))
      (fun m hm hkey hfull => hagree.node hk (mem_nodeOf.mp hm) hkey hfull) (hr.own k hk)
  · intro k hk
    rw [executeAll_nodes, lookup_mergeAll_isSome]
    exact Or.inl (hr.far k hk)
  · intro k hk
    rw [executeAll_relationships]
    exact lookup_mergeAll_kept hg.relationships
      (fun m hm => Or.inl (hagree.fits _ (mem_relationshipOf.mp hm)))
      (fun m hm hkey _ => hagree.link hk (mem_relationshipOf.mp hm) hkey) (hr.linked k hk)

/-- The foreign keys of a row lead to rows of the set. -/
def References (rows : List Row) : Row → Prop
  | .entity _ => True
  | .fact row => ∃ e, .entity e ∈ rows ∧
      e.organizationId = row.organizationId ∧ e.id = row.entityId
  | .factSource _ => True
  | .factVersion row =>
    (∃ f, .fact f ∈ rows ∧ f.organizationId = row.organizationId ∧ f.id = row.factId) ∧
    (∃ s, .factSource s ∈ rows ∧ s.organizationId = row.organizationId ∧ s.id = row.sourceId) ∧
    ∀ previous, row.supersedesId = some previous →
      ∃ v, .factVersion v ∈ rows ∧ v.factId = row.factId ∧ v.id = previous
  | .evidence row => ∃ s, .factSource s ∈ rows ∧
      s.organizationId = row.organizationId ∧ s.id = row.sourceId
  | .factVersionEvidence row =>
    (∃ v, .factVersion v ∈ rows ∧ v.organizationId = row.organizationId ∧
      v.id = row.factVersionId) ∧
    ∃ e, .evidence e ∈ rows ∧ e.organizationId = row.organizationId ∧ e.id = row.evidenceId
  | .contextSnapshot _ => True
  | .contextSnapshotFact row =>
    (∃ n, .contextSnapshot n ∈ rows ∧ n.organizationId = row.organizationId ∧
      n.id = row.snapshotId) ∧
    ∃ v, .factVersion v ∈ rows ∧ v.organizationId = row.organizationId ∧ v.id = row.factVersionId
  | .decision row => ∃ n, .contextSnapshot n ∈ rows ∧
      n.organizationId = row.organizationId ∧ n.id = row.snapshotId
  | .decisionFact row =>
    (∃ d, .decision d ∈ rows ∧ d.organizationId = row.organizationId ∧ d.id = row.decisionId ∧
      d.snapshotId = row.snapshotId) ∧
    ∃ i, .contextSnapshotFact i ∈ rows ∧ i.snapshotId = row.snapshotId ∧
      i.factVersionId = row.factVersionId

def Closed (rows : List Row) : Prop := ∀ r ∈ rows, References rows r

/-- Every node that a row leads to has a row of its own. -/
theorem exists_ownKey_of_closed {rows : List Row} (hclosed : Closed rows) {r : Row} (hr : r ∈ rows)
    {k : NodeKey} (hk : k ∈ farKeys r) : ∃ r' ∈ rows, ownKey r' = some k := by
  have href := hclosed r hr
  cases r with
  | entity row => exact absurd hk List.not_mem_nil
  | fact row =>
    obtain rfl := List.mem_singleton.mp hk
    obtain ⟨e, he, -, hid⟩ := href
    exact ⟨_, he, by rw [ownKey, hid]⟩
  | factSource row => exact absurd hk List.not_mem_nil
  | factVersion row =>
    obtain ⟨⟨f, hf, -, hfid⟩, ⟨s, hs, -, hsid⟩, hprevious⟩ := href
    simp only [farKeys, List.mem_append, List.mem_cons, List.not_mem_nil, or_false, List.mem_map,
      Option.mem_toList] at hk
    rcases hk with (rfl | rfl) | ⟨previous, hid, rfl⟩
    · exact ⟨_, hf, by rw [ownKey, hfid]⟩
    · exact ⟨_, hs, by rw [ownKey, hsid]⟩
    · obtain ⟨v, hv, -, hvid⟩ := hprevious previous hid
      exact ⟨_, hv, by rw [ownKey, hvid]⟩
  | evidence row =>
    obtain rfl := List.mem_singleton.mp hk
    obtain ⟨s, hs, -, hid⟩ := href
    exact ⟨_, hs, by rw [ownKey, hid]⟩
  | factVersionEvidence row =>
    obtain ⟨⟨v, hv, -, hvid⟩, ⟨e, he, -, heid⟩⟩ := href
    simp only [farKeys, List.mem_cons, List.not_mem_nil, or_false] at hk
    rcases hk with rfl | rfl
    · exact ⟨_, he, by rw [ownKey, heid]⟩
    · exact ⟨_, hv, by rw [ownKey, hvid]⟩
  | contextSnapshot row => exact absurd hk List.not_mem_nil
  | contextSnapshotFact row =>
    obtain ⟨⟨n, hn, -, hnid⟩, ⟨v, hv, -, hvid⟩⟩ := href
    simp only [farKeys, List.mem_cons, List.not_mem_nil, or_false] at hk
    rcases hk with rfl | rfl
    · exact ⟨_, hn, by rw [ownKey, hnid]⟩
    · exact ⟨_, hv, by rw [ownKey, hvid]⟩
  | decision row =>
    obtain rfl := List.mem_singleton.mp hk
    obtain ⟨n, hn, -, hid⟩ := href
    exact ⟨_, hn, by rw [ownKey, hid]⟩
  | decisionFact row =>
    obtain ⟨⟨d, hd, -, hdid, -⟩, ⟨i, hi, -, hiv⟩⟩ := href
    simp only [farKeys, List.mem_cons, List.not_mem_nil, or_false] at hk
    rcases hk with rfl | rfl
    · exact ⟨_, hd, by rw [ownKey, hdid]⟩
    · obtain ⟨-, v, hv, -, hvid⟩ := hclosed _ hi
      exact ⟨_, hv, by rw [ownKey, hvid, hiv]⟩

/-- Nodes and relationships come from these rows. -/
structure Sourced (rows : List Row) (g : Graph) : Prop where
  nodes : ∀ k, (lookup g.nodes k).isSome → ∃ r ∈ rows, ownKey r = some k ∨ k ∈ farKeys r
  relationships : ∀ k, (lookup g.relationships k).isSome → ∃ r ∈ rows, k ∈ links r

theorem sourced_empty (rows : List Row) : Sourced rows Graph.empty :=
  ⟨fun _ h => absurd h (by simp [Graph.empty, lookup_nil]),
    fun _ h => absurd h (by simp [Graph.empty, lookup_nil])⟩

theorem Sourced.executeAll {rows : List Row} {g : Graph} (hg : Sourced rows g) {cs : List Clause}
    (hcs : ∀ c ∈ cs, ∃ r ∈ rows, c ∈ statement rt r) : Sourced rows (executeAll g cs) := by
  refine ⟨?_, ?_⟩
  · intro k hk
    rw [executeAll_nodes, lookup_mergeAll_isSome] at hk
    rcases hk with hold | ⟨m, hm, rfl⟩
    · exact hg.nodes k hold
    · obtain ⟨r, hr, hc⟩ := hcs _ (mem_nodeOf.mp hm)
      rcases mem_statement.mp hc with ⟨k, hk, hm⟩ | ⟨k, hk, hm⟩ | ⟨k, -, hm⟩
      · obtain rfl := Clause.node.inj hm
        exact ⟨r, hr, Or.inl hk⟩
      · obtain rfl := Clause.node.inj hm
        exact ⟨r, hr, Or.inr hk⟩
      · exact absurd hm (by simp)
  · intro k hk
    rw [executeAll_relationships, lookup_mergeAll_isSome] at hk
    rcases hk with hold | ⟨m, hm, rfl⟩
    · exact hg.relationships k hold
    · obtain ⟨r, hr, hc⟩ := hcs _ (mem_relationshipOf.mp hm)
      rcases mem_statement.mp hc with ⟨k, -, hm⟩ | ⟨k, -, hm⟩ | ⟨k, hk, hm⟩
      · exact absurd hm (by simp)
      · exact absurd hm (by simp)
      · obtain rfl := Clause.relationship.inj hm
        exact ⟨r, hr, hk⟩

/-- The graph shows every row, and nothing else. -/
structure Settled (rt : Runtime) (rows : List Row) (g : Graph) : Prop where
  tidy : Tidy g
  sourced : Sourced rows g
  applied : ∀ r ∈ rows, Applied rt g r

theorem Settled.exists_ownKey {rows : List Row} {g : Graph} (hg : Settled rt rows g)
    (hclosed : Closed rows) {k : NodeKey} (hk : (lookup g.nodes k).isSome) :
    ∃ r ∈ rows, ownKey r = some k := by
  obtain ⟨r, hr, hown | hfar⟩ := hg.sourced.nodes k hk
  · exact ⟨r, hr, hown⟩
  · exact exists_ownKey_of_closed hclosed hr hfar

/-- Two graphs that show the same rows are the same. -/
theorem same_of_settled {rows : List Row} (hclosed : Closed rows) {g g' : Graph}
    (hg : Settled rt rows g) (hg' : Settled rt rows g') : g.Same g' := by
  have hnodes : ∀ {g g' : Graph}, Settled rt rows g → Settled rt rows g' → ∀ k props,
      lookup g.nodes k = some props → lookup g'.nodes k = some props := by
    intro g g' hg hg' k props hk
    obtain ⟨r, hr, hown⟩ := hg.exists_ownKey hclosed (by rw [hk]; rfl)
    rw [(hg'.applied r hr).own k hown, ← (hg.applied r hr).own k hown, hk]
  have hrelationships : ∀ {g g' : Graph}, Settled rt rows g → Settled rt rows g' → ∀ k props,
      lookup g.relationships k = some props → lookup g'.relationships k = some props := by
    intro g g' hg hg' k props hk
    obtain ⟨r, hr, hlink⟩ := hg.sourced.relationships k (by rw [hk]; rfl)
    rw [(hg'.applied r hr).linked k hlink, ← (hg.applied r hr).linked k hlink, hk]
  refine ⟨perm_of_lookup_eq hg.tidy.unique.1 hg'.tidy.unique.1 fun k => ?_,
    perm_of_lookup_eq hg.tidy.unique.2 hg'.tidy.unique.2 fun k => ?_⟩
  · exact Option.ext fun props => ⟨hnodes hg hg' k props, hnodes hg' hg k props⟩
  · exact Option.ext fun props => ⟨hrelationships hg hg' k props, hrelationships hg' hg k props⟩

/-- A property that a row always has, besides its organization. -/
def telling : Label → Field
  | .entity => .entityType
  | .fact => .property
  | .factVersion => .version
  | .source => .name
  | .evidence => .contentSha256
  | .snapshot => .validAt
  | .decision => .action

theorem nodeContent_telling {r : Row} {k : NodeKey} (h : ownKey r = some k) :
    (nodeContent rt r k (telling k.1)).isSome := by
  cases r <;> simp only [ownKey, Option.some.injEq, reduceCtorEq] at h <;> subst h <;> rfl

theorem Settled.no_placeholder {rows : List Row} {g : Graph} (hg : Settled rt rows g)
    (hclosed : Closed rows) : ∀ n ∈ g.nodes, ¬ Placeholder n := by
  intro n hn hplaceholder
  have hlookup := (mem_iff_lookup hg.tidy.unique.1).mp hn
  obtain ⟨r, hr, hown⟩ := hg.exists_ownKey hclosed (by rw [hlookup]; rfl)
  have hprops : n.props = nodeContent rt r n.key :=
    Option.some.inj (hlookup.symm.trans ((hg.applied r hr).own n.key hown))
  have htelling : (nodeContent rt r n.key (telling n.key.1)).isSome := nodeContent_telling hown
  have hne : telling n.key.1 ≠ .org := by
    cases n.key.1 <;> decide
  rw [← hprops, hplaceholder _ hne] at htelling
  exact absurd htelling (by simp)

/-- The batches hold only rows of the set, and each of them at least once. -/
structure Delivers (rt : Runtime) (rows : List Row) (batches : List Batch) : Prop where
  only : ∀ batch ∈ batches, From rt rows batch
  all : ∀ r ∈ rows, ∃ batch ∈ batches, toGraphRow rt r ∈ batch r.table

theorem mem_batchOf {rows : List Row} {table : Table} {p : GraphRow} :
    p ∈ batchOf rt rows table ↔ ∃ r ∈ rows, r.table = table ∧ toGraphRow rt r = p := by
  simp only [batchOf, List.mem_map, List.mem_filter, decide_eq_true_eq, and_assoc]

theorem from_batchOf {rows loaded : List Row} (h : ∀ r ∈ loaded, r ∈ rows) :
    From rt rows (batchOf rt loaded) := by
  intro table p hp
  obtain ⟨r, hr, hrow⟩ := mem_batchOf.mp hp
  exact ⟨r, h r hr, hrow⟩

theorem delivers_batchOf {rows : List Row} {groups : List (List Row)}
    (honly : ∀ group ∈ groups, ∀ r ∈ group, r ∈ rows)
    (hall : ∀ r ∈ rows, ∃ group ∈ groups, r ∈ group) :
    Delivers rt rows (groups.map (batchOf rt)) := by
  refine ⟨?_, ?_⟩
  · intro batch hbatch
    obtain ⟨group, hgroup, rfl⟩ := List.mem_map.mp hbatch
    exact from_batchOf (honly group hgroup)
  · intro r hr
    obtain ⟨group, hgroup, hmem⟩ := hall r hr
    exact ⟨_, List.mem_map_of_mem hgroup, mem_batchOf.mpr ⟨r, hmem, rfl, rfl⟩⟩

theorem From.fits {rows : List Row} {batch : Batch} (h : From rt rows batch) :
    ∀ c ∈ batchClauses batch, Fits c := by
  intro c hc
  obtain ⟨r, -, hc⟩ := exists_of_mem_batchClauses h hc
  exact statement_fits hc

theorem From.agrees {rows : List Row} (hrows : Consistent rt rows) {batch : Batch}
    (h : From rt rows batch) {r : Row} (hr : r ∈ rows) : Agrees rt r (batchClauses batch) := by
  refine ⟨h.fits, ?_⟩
  intro c hc
  obtain ⟨r', hr', hc⟩ := exists_of_mem_batchClauses h hc
  exact ⟨r', hc, hrows r' hr' r hr⟩

/-- Every batch keeps the graph tidy and within the rows, shows the rows it
carries, and leaves those shown before. -/
theorem applyAll_shows {rows : List Row} (hrows : Consistent rt rows) {batches : List Batch}
    (hfrom : ∀ batch ∈ batches, From rt rows batch) {g : Graph} (htidy : Tidy g)
    (hsourced : Sourced rows g) :
    Tidy (applyAll batches g) ∧ Sourced rows (applyAll batches g) ∧
      ∀ r ∈ rows, (Applied rt g r ∨ ∃ batch ∈ batches, toGraphRow rt r ∈ batch r.table) →
        Applied rt (applyAll batches g) r := by
  induction batches generalizing g with
  | nil =>
    refine ⟨htidy, hsourced, ?_⟩
    rintro r - (happlied | ⟨batch, hbatch, -⟩)
    · exact happlied
    · exact absurd hbatch List.not_mem_nil
  | cons batch batches ih =>
    have hbatch := hfrom batch List.mem_cons_self
    have hstep := ih (fun b hb => hfrom b (List.mem_cons_of_mem batch hb))
      (g := apply batch g)
    rw [apply_eq] at hstep
    obtain ⟨htidy', hsourced', happlied'⟩ := hstep (tidy_executeAll htidy hbatch.fits)
      (hsourced.executeAll fun c hc => exists_of_mem_batchClauses hbatch hc)
    rw [show applyAll (batch :: batches) g = applyAll batches (apply batch g) from rfl, apply_eq]
    refine ⟨htidy', hsourced', ?_⟩
    rintro r hr (happlied | ⟨b, hb, hrow⟩)
    · exact happlied' r hr (Or.inl (happlied.executeAll htidy (hbatch.agrees hrows hr)))
    · rcases List.mem_cons.mp hb with rfl | hb
      · exact happlied' r hr (Or.inl (applied_executeAll htidy (hbatch.agrees hrows hr)
          fun c hc => mem_batchClauses hrow hc))
      · exact happlied' r hr (Or.inr ⟨b, hb, hrow⟩)

theorem settled_applyAll {rows : List Row} (hrows : Consistent rt rows) {batches : List Batch}
    (h : Delivers rt rows batches) : Settled rt rows (applyAll batches Graph.empty) := by
  obtain ⟨htidy, hsourced, happlied⟩ :=
    applyAll_shows hrows h.only tidy_empty (sourced_empty rows)
  exact ⟨htidy, hsourced, fun r hr => happlied r hr (Or.inr (h.all r hr))⟩

/-- For a set of rows that is closed under foreign keys and has one content for
each primary key, every way to deliver it ends in the same graph, which has every
node and relationship once and no placeholder. -/
theorem applyAll_same {rows : List Row} (hclosed : Closed rows)
    (hone : ∀ r ∈ rows, ∀ r' ∈ rows, r.table = r'.table → r.key = r'.key → r = r')
    {batches batches' : List Batch} (h : Delivers rt rows batches)
    (h' : Delivers rt rows batches') :
    (applyAll batches Graph.empty).Same (applyAll batches' Graph.empty) ∧
      (applyAll batches Graph.empty).Unique ∧
      ∀ n ∈ (applyAll batches Graph.empty).nodes, ¬ Placeholder n := by
  have hrows : Consistent rt rows := by
    intro r hr r' hr' htable hkey
    rw [hone r hr r' hr' htable hkey]
  have hsettled := settled_applyAll hrows h
  exact ⟨same_of_settled hclosed hsettled (settled_applyAll hrows h'), hsettled.tidy.unique,
    hsettled.no_placeholder hclosed⟩

def exampleVersion (id : Uuid) (version : ℕ) (supersedesId : Option Uuid)
    (validUntil : Option Instant) : FactVersion :=
  ⟨id, 1, 11, version, .bool true, 3, 0, validUntil, 0, 0, validUntil, supersedesId, 50, 1000,
    .internal⟩

/-- A fact with a version that was superseded. -/
def exampleRows : List Row :=
  [.entity ⟨10, 1, "customer", "c-1"⟩, .fact ⟨11, 1, 10, "active"⟩,
   .factSource ⟨3, 1, "crm", .systemOfRecord, none, 50, 0⟩,
   .factVersion (exampleVersion 12 1 none (some 5)),
   .factVersion (exampleVersion 13 2 (some 12) none)]

/-- All rows at once, or one by one with the last first and then all again. -/
theorem applyAll_same_example :
    let once := applyAll [batchOf Facts.exampleRuntime exampleRows] Graph.empty
    let apart := applyAll (((exampleRows.reverse.map fun r => [r]) ++ [exampleRows]).map
      (batchOf Facts.exampleRuntime)) Graph.empty
    once.Same apart ∧ once.Unique ∧ ∀ n ∈ once.nodes, ¬ Placeholder n := by
  have hclosed : Closed exampleRows := by
    simp [Closed, exampleRows, References, exampleVersion]
  have hone : ∀ r ∈ exampleRows, ∀ r' ∈ exampleRows, r.table = r'.table → r.key = r'.key →
      r = r' := by
    simp [exampleRows, Row.table, Row.key, exampleVersion]
  have honce : Delivers Facts.exampleRuntime exampleRows
      ([exampleRows].map (batchOf Facts.exampleRuntime)) :=
    delivers_batchOf (by simp) (by simp)
  have hapart : Delivers Facts.exampleRuntime exampleRows
      (((exampleRows.reverse.map fun r => [r]) ++ [exampleRows]).map
        (batchOf Facts.exampleRuntime)) :=
    delivers_batchOf (by simp [exampleRows]) (by simp [exampleRows])
  exact applyAll_same hclosed hone honce hapart

end ContextLedger.ProjectionOrder

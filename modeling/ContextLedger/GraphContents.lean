import ContextLedger.GraphImpact

/-!
What the properties in the graph say. Only the end of a version is ever changed in a row,
so every other property of a node is missing or the one of its row, and those of a
relationship are the ones of its row. The node of a row that no event is pending for has
all of them, in every run, whatever the projectors overtake.
-/
namespace ContextLedger.GraphContents

open Values Schema MergeStore Projection ProjectionOrder Provenance
open GraphWorld GraphCoherence GraphShown GraphImpact

variable {rt : Runtime}

/-- The columns that closing a version sets. -/
def endFields : List Field := [.validUntil, .validUntilRecordedAt]

theorem get_later {r r' : Row} (h : Later r r') {f : Field} (hf : f ∉ endFields) :
    (toGraphRow rt r).get f = (toGraphRow rt r').get f := by
  rcases h with rfl | ⟨v, u, t, rfl, rfl⟩
  · rfl
  · cases f with
    | validUntil => exact absurd (by simp [endFields]) hf
    | validUntilRecordedAt => exact absurd (by simp [endFields]) hf
    | _ => rfl

/-- The properties of a row that has its node filled. -/
def Told (rt : Runtime) (r : Row) (k : NodeKey) (props : Props Field Value) : Prop :=
  ∀ f ∈ labelFields k.1, f ∉ endFields → props f = (toGraphRow rt r).get f

/-- The node of the row has its properties, up to the end of a version. -/
def Filled (rt : Runtime) (g : Graph) (r : Row) : Prop :=
  ∀ k, ownKey r = some k → ∃ props, lookup g.nodes k = some props ∧ Told rt r k props

/-- A property of a node is missing or the one of its row; the organization is never missing. -/
def NodeOk (rt : Runtime) (db : Database) (k : NodeKey) (props : Props Field Value) : Prop :=
  ∀ r ∈ rowsOf db, ownKey r = some k → ∀ f, f ≠ .org → f ∉ endFields →
    props f = none ∨ props f = (toGraphRow rt r).get f

def LinkOk (rt : Runtime) (db : Database) (k : RelationshipKey) (props : Props Field Value) :
    Prop :=
  ∀ r ∈ rowsOf db, k ∈ links r → props = linkContent rt r k

theorem Told.later {r r' : Row} (hlater : Later r r') {k : NodeKey} {props : Props Field Value}
    (h : Told rt r k props) : Told rt r' k props :=
  fun f hf hend => (h f hf hend).trans (get_later hlater hend)

theorem Filled.later {g : Graph} {r r' : Row} (hlater : Later r r') (h : Filled rt g r) :
    Filled rt g r' := by
  intro k hk
  obtain ⟨props, hprops, htold⟩ := h k (hlater.alike.ownKey.trans hk)
  exact ⟨props, hprops, htold.later hlater⟩

/-- The relationships of a row have none of the columns that change. -/
theorem linkContent_later {r r' : Row} (hlater : Later r r') (k : RelationshipKey) :
    linkContent rt r k = linkContent rt r' k := by
  have hfields : ∀ f ∈ relationshipFields k, f ∉ endFields := by
    obtain ⟨type, source, target⟩ := k
    cases type <;> simp [relationshipFields, typeFields, endFields]
  have hpick : (toGraphRow rt r).pick (relationshipFields k) =
      (toGraphRow rt r').pick (relationshipFields k) :=
    List.map_congr_left fun f hf => by rw [get_later hlater (hfields f hf)]
  rw [linkContent, linkContent, hpick]

section Writing

variable {db : Database} {rows : List Row}

/-- A merge of a node comes from the row that the node describes, or only makes sure of it. -/
theorem node_source (hpast : ∀ r ∈ rows, ∃ r' ∈ rowsOf db, Later r r')
    {m : Merge NodeKey Field Value}
    (hm : m ∈ (batchClauses (batchOf rt rows)).filterMap nodeOf) :
    (∃ r ∈ rows, ∃ r' ∈ rowsOf db, Later r r' ∧ ownKey r' = some m.key ∧
      m = ownMerge rt r m.key) ∨ ∃ r, m = farMerge r m.key := by
  have hfrom : From rt rows (batchOf rt rows) := from_batchOf fun r hr => hr
  obtain ⟨r, hr, hc⟩ := exists_of_mem_batchClauses hfrom (mem_nodeOf.mp hm)
  rcases mem_statement.mp hc with ⟨k, hk, heq⟩ | ⟨k, -, heq⟩ | ⟨k, -, heq⟩
  · obtain rfl := Clause.node.inj heq
    obtain ⟨r', hr', hlater⟩ := hpast r hr
    exact Or.inl ⟨r, hr, r', hr', hlater, hlater.alike.ownKey.symm.trans hk, rfl⟩
  · obtain rfl := Clause.node.inj heq
    exact Or.inr ⟨r, rfl⟩
  · exact absurd heq (by simp)

theorem told_ownMerge {r r' : Row} (hlater : Later r r') (k : NodeKey)
    (props : Props Field Value) : Told rt r' k (assign props (ownMerge rt r k).set) := by
  intro f hf hend
  rw [← get_later hlater hend]
  exact assign_pick hf

theorem told_merge (hdb : intact db = true) (hpast : ∀ r ∈ rows, ∃ r' ∈ rowsOf db, Later r r')
    {m : Merge NodeKey Field Value}
    (hm : m ∈ (batchClauses (batchOf rt rows)).filterMap nodeOf) {r : Row} (hr : r ∈ rowsOf db)
    (hown : ownKey r = some m.key) {props : Props Field Value} (hprops : Told rt r m.key props) :
    Told rt r m.key (assign props m.set) := by
  rcases node_source hpast hm with ⟨r₀, -, r', hr', hlater, hown', heq⟩ | ⟨r₀, heq⟩
  · obtain rfl := eq_of_ownKey_eq hdb hr hr' hown hown'
    rw [heq]
    exact told_ownMerge hlater m.key props
  · rw [heq]
    exact hprops

theorem Filled.apply (hdb : intact db = true) (hpast : ∀ r ∈ rows, ∃ r' ∈ rowsOf db, Later r r')
    {r : Row} (hr : r ∈ rowsOf db) {g : Graph} (h : Filled rt g r) :
    Filled rt (apply (batchOf rt rows) g) r := by
  intro k hk
  rw [apply_eq, executeAll_nodes]
  refine lookup_mergeAll_preserves (fun m hm hkey props hprops => ?_) (h k hk)
  obtain rfl := hkey
  exact told_merge hdb hpast hm hr hk hprops

theorem filled_of_mem (hdb : intact db = true)
    (hpast : ∀ r ∈ rows, ∃ r' ∈ rowsOf db, Later r r') {r r' : Row} (hr : r ∈ rows)
    (hr' : r' ∈ rowsOf db) (hlater : Later r r') (g : Graph) :
    Filled rt (apply (batchOf rt rows) g) r' := by
  intro k hk
  have hown : ownKey r = some k := hlater.alike.ownKey.trans hk
  have hm : ownMerge rt r k ∈ (batchClauses (batchOf rt rows)).filterMap nodeOf :=
    mem_nodeOf.mpr (mem_batchClauses (mem_batchOf.mpr ⟨r, hr, rfl, rfl⟩)
      (mem_statement.mpr (Or.inl ⟨k, hown, rfl⟩)))
  rw [apply_eq, executeAll_nodes]
  refine lookup_mergeAll_reaches hm (told_ownMerge hlater k) fun m hm' hkey props hprops => ?_
  obtain rfl : m.key = k := hkey
  exact told_merge hdb hpast hm' hr' hk hprops

theorem nodeOk_ownMerge {r r' : Row} (hlater : Later r r') (hr' : r' ∈ rowsOf db)
    (hdb : intact db = true) {k : NodeKey} (hown : ownKey r' = some k) {props : Props Field Value}
    (hprops : NodeOk rt db k props) : NodeOk rt db k (assign props (ownMerge rt r k).set) := by
  intro r'' hr'' hown'' f horg hend
  obtain rfl := eq_of_ownKey_eq hdb hr'' hr' hown'' hown
  by_cases hf : f ∈ labelFields k.1
  · exact Or.inr (told_ownMerge hlater k props f hf hend)
  · rw [assign_of_notMem (by rw [ownMerge, pick_fields]; exact hf)]
    exact hprops r'' hr'' hown'' f horg hend

theorem nodeOk_apply (hdb : intact db = true)
    (hpast : ∀ r ∈ rows, ∃ r' ∈ rowsOf db, Later r r') {g : Graph}
    (hg : ∀ k props, lookup g.nodes k = some props → NodeOk rt db k props) :
    ∀ k props, lookup (apply (batchOf rt rows) g).nodes k = some props → NodeOk rt db k props := by
  have hbare : ∀ k, NodeOk rt db k bare := fun k r hr hown f horg hend => Or.inl rfl
  rw [apply_eq, executeAll_nodes]
  refine lookup_mergeAll_forall hg ?_ ?_
  · intro m hm
    rcases node_source hpast hm with ⟨r, -, r', hr', hlater, hown, heq⟩ | ⟨r, heq⟩
    · rw [heq]
      exact nodeOk_ownMerge hlater hr' hdb hown (hbare m.key)
    · rw [heq]
      intro r' hr' hown f horg hend
      exact Or.inl (Function.update_of_ne horg _ _)
  · intro m hm props hprops
    rcases node_source hpast hm with ⟨r, -, r', hr', hlater, hown, heq⟩ | ⟨r, heq⟩
    · rw [heq]
      exact nodeOk_ownMerge hlater hr' hdb hown hprops
    · rw [heq]
      exact hprops

theorem eq_of_links {r r' : Row} (hdb : intact db = true) (hr : r ∈ rowsOf db)
    (hr' : r' ∈ rowsOf db) {k : RelationshipKey} (hk : k ∈ links r) (hk' : k ∈ links r') :
    r = r' := by
  have hrow := Option.some.inj ((relationshipRow_links hk).symm.trans (relationshipRow_links hk'))
  exact eq_of_key_eq hdb hr hr' (congrArg Prod.fst hrow) (congrArg Prod.snd hrow)

theorem linkOk_apply (hdb : intact db = true)
    (hpast : ∀ r ∈ rows, ∃ r' ∈ rowsOf db, Later r r') {g : Graph} (hgraph : Tidy g)
    (hg : ∀ k props, lookup g.relationships k = some props → LinkOk rt db k props) :
    ∀ k props, lookup (apply (batchOf rt rows) g).relationships k = some props →
      LinkOk rt db k props := by
  have hfrom : From rt rows (batchOf rt rows) := from_batchOf fun r hr => hr
  have hfits : ∀ m ∈ (batchClauses (batchOf rt rows)).filterMap relationshipOf,
      m.Full relationshipFields := fun m hm => hfrom.fits _ (mem_relationshipOf.mp hm)
  have hsource : ∀ m ∈ (batchClauses (batchOf rt rows)).filterMap relationshipOf,
      LinkOk rt db m.key (assign bare m.set) := by
    intro m hm r' hr' hk'
    obtain ⟨r, hr, hc⟩ := exists_of_mem_batchClauses hfrom (mem_relationshipOf.mp hm)
    rcases mem_statement.mp hc with ⟨k, -, heq⟩ | ⟨k, -, heq⟩ | ⟨k, hk, heq⟩
    · exact absurd heq (by simp)
    · exact absurd heq (by simp)
    · obtain rfl := Clause.relationship.inj heq
      obtain ⟨r'', hr'', hlater⟩ := hpast r hr
      obtain rfl := eq_of_links hdb hr' hr'' hk' (hlater.alike.links ▸ hk)
      exact linkContent_later hlater k
  have hboth : ∀ k props, lookup (mergeAll g.relationships
      ((batchClauses (batchOf rt rows)).filterMap relationshipOf)) k = some props →
        LinkOk rt db k props ∧ ∀ f ∉ relationshipFields k, props f = none := by
    have hset : ∀ m ∈ (batchClauses (batchOf rt rows)).filterMap relationshipOf,
        LinkOk rt db m.key (assign bare m.set) ∧
          ∀ f ∉ relationshipFields m.key, assign bare m.set f = none := by
      intro m hm
      refine ⟨hsource m hm, fun f hf => ?_⟩
      rw [assign_of_notMem (by rw [(hfits m hm).2]; exact hf)]
      rfl
    refine lookup_mergeAll_forall (fun k props hprops => ?_) (fun m hm => ?_)
      fun m hm props hprops => ?_
    · exact ⟨hg k props hprops, hgraph.relationships k props hprops⟩
    · have honto : m.onto none = assign bare m.set := onto_full (hfits m hm) (by simp)
      show LinkOk rt db m.key (m.onto none) ∧ ∀ f ∉ relationshipFields m.key, m.onto none f = none
      rw [honto]
      exact hset m hm
    · have honto : m.onto (some props) = assign bare m.set :=
        onto_full (hfits m hm) fun p hp => Option.some.inj hp ▸ hprops.2
      show LinkOk rt db m.key (m.onto (some props)) ∧
        ∀ f ∉ relationshipFields m.key, m.onto (some props) f = none
      rw [honto]
      exact hset m hm
  rw [apply_eq, executeAll_relationships]
  exact fun k props hprops => (hboth k props hprops).1

end Writing

/-- What the graph says is in the rows, and what no event is pending for is said. -/
structure Contents (rt : Runtime) (w : World) : Prop where
  rows : ∀ r ∈ rowsOf w.db, Filled rt w.graph r ∨ ∃ e ∈ w.outbox, Names e r
  written : ∀ events, Projector.written events ∈ w.projectors →
    ∀ e ∈ events, ∀ r ∈ rowsOf w.db, Names e r → Filled rt w.graph r
  nodes : ∀ k props, lookup w.graph.nodes k = some props → NodeOk rt w.db k props
  links : ∀ k props, lookup w.graph.relationships k = some props → LinkOk rt w.db k props

/-- The row of the same key after a commit. -/
theorem later_of_published {w w' : World} {rows : List Row} {ids : List ℕ}
    (h : Published w w' rows ids) {r₀ r : Row} (hr₀ : r₀ ∈ rowsOf w.db) (hr : r ∈ rowsOf w'.db)
    (htable : r₀.table = r.table) (hkey : r₀.key = r.key) : Later r₀ r := by
  obtain ⟨r', hr', hlater, -⟩ := h.changes.kept r₀ hr₀
  have heq : r' = r := eq_of_key_eq h.intact hr' hr (hlater.alike.table.symm.trans htable)
    (hlater.alike.key.symm.trans hkey)
  exact heq ▸ hlater

theorem contents_published {w w' : World} {rows : List Row} {ids : List ℕ}
    (h : Published w w' rows ids) (hw : Coherent w) (hcontents : Contents rt w) :
    Contents rt w' := by
  have hfilled : ∀ {r₀ r : Row}, r₀ ∈ rowsOf w.db → r ∈ rowsOf w'.db → r₀.table = r.table →
      r₀.key = r.key → Filled rt w.graph r₀ → Filled rt w'.graph r := by
    intro r₀ r hr₀ hr htable hkey hfilled
    rw [h.graph]
    exact hfilled.later (later_of_published h hr₀ hr htable hkey)
  refine ⟨?_, ?_, ?_, ?_⟩
  · intro r hr
    rw [h.outbox]
    rcases h.changes.new r hr with hold | hnew
    · rcases hcontents.rows r hold with hfill | ⟨e, he, hnames⟩
      · exact Or.inl (hfilled hold hr rfl rfl hfill)
      · exact Or.inr ⟨e, List.mem_append_left _ he, hnames⟩
    · obtain ⟨e, he, hnames⟩ := exists_event_of_mem h.length hnew
      exact Or.inr ⟨e, List.mem_append_right _ he, hnames⟩
  · intro events hp e he r hr hnames
    rw [h.projectors] at hp
    obtain ⟨r₀, hr₀, hnames₀⟩ := hw.events e (hw.held _ hp e he)
    exact hfilled hr₀ hr (hnames₀.table.symm.trans hnames.table)
      (hnames₀.key.symm.trans hnames.key) (hcontents.written events hp e he r₀ hr₀ hnames₀)
  · intro k props hprops r hr hown f horg hend
    rw [h.graph] at hprops
    obtain ⟨r₁, hr₁, hk⟩ : ∃ r₁ ∈ rowsOf w.db, ownKey r₁ = some k := by
      obtain ⟨r₁, hr₁, hk | hk⟩ := hw.sourced.nodes k (by rw [hprops]; rfl)
      · exact ⟨r₁, hr₁, hk⟩
      · exact exists_ownKey_of_closed (closed_of_intact hw.intact) hr₁ hk
    have hrow := Option.some.inj ((nodeRow_ownKey hk).symm.trans (nodeRow_ownKey hown))
    have hlater := later_of_published h hr₁ hr (congrArg Prod.fst hrow) (congrArg Prod.snd hrow)
    rw [← get_later hlater hend]
    exact hcontents.nodes k props hprops r₁ hr₁ hk f horg hend
  · intro k props hprops r hr hk
    rw [h.graph] at hprops
    obtain ⟨r₁, hr₁, hk₁⟩ := hw.sourced.relationships k (by rw [hprops]; rfl)
    have hrow :=
      Option.some.inj ((relationshipRow_links hk₁).symm.trans (relationshipRow_links hk))
    have hlater := later_of_published h hr₁ hr (congrArg Prod.fst hrow) (congrArg Prod.snd hrow)
    rw [← linkContent_later hlater k]
    exact hcontents.links k props hprops r₁ hr₁ hk₁

theorem contents_projected {w w' : World} {i : ℕ} {p : Projector} {action : Action}
    (hp : w.projectors[i]? = some p) (h : Projected rt w i p action w') (hw : Coherent w)
    (hcontents : Contents rt w) : Contents rt w' := by
  have hmem := List.mem_of_getElem? hp
  have hothers : ∀ {p' : Projector}, (∀ events, p' ≠ .written events) → ∀ events,
      Projector.written events ∈ w.projectors.set i p' →
      ∀ e ∈ events, ∀ r ∈ rowsOf w.db, Names e r → Filled rt w.graph r := by
    intro p' hp' events hset
    rcases Processes.mem_set_cases hset with heq | ⟨j, -, hj⟩
    · exact absurd heq.symm (hp' events)
    · exact hcontents.written events (List.mem_of_getElem? hj)
  cases h with
  | claim batchSize org events hidle hevents =>
    exact { hcontents with written := hothers (by simp) }
  | load events table todo rows hloading => exact { hcontents with written := hothers (by simp) }
  | write events rows hloading =>
    subst hloading
    have hok := hw.loading _ _ _ hmem
    have hkept : ∀ {r : Row}, r ∈ rowsOf w.db → Filled rt w.graph r →
        Filled rt (apply (batchOf rt rows) w.graph) r :=
      fun hr hfilled => hfilled.apply hw.intact hok.past hr
    refine ⟨?_, ?_, ?_, ?_⟩
    · rw [World.writeGraph_db]
      exact fun r hr => (hcontents.rows r hr).imp (hkept hr) id
    · rw [World.writeGraph_db]
      intro events' hset e he r hr hnames
      rcases Processes.mem_set_cases hset with heq | ⟨j, -, hj⟩
      · obtain rfl := Projector.written.inj heq
        obtain ⟨r₀, hr₀, htable, hkey⟩ := hok.loaded e he List.not_mem_nil
        obtain ⟨r', hr', hlater⟩ := hok.past r₀ hr₀
        have heq : r' = r := eq_of_key_eq hw.intact hr' hr
          (hlater.alike.table.symm.trans (htable.trans hnames.table))
          (hlater.alike.key.symm.trans (hkey.trans hnames.key))
        exact filled_of_mem hw.intact hok.past hr₀ hr (heq ▸ hlater) w.graph
      · exact hkept hr (hcontents.written events' (List.mem_of_getElem? hj) e he r hr hnames)
    · rw [World.writeGraph_db]
      exact nodeOk_apply hw.intact hok.past hcontents.nodes
    · rw [World.writeGraph_db]
      exact linkOk_apply hw.intact hok.past hw.tidy hcontents.links
  | finish events hwritten =>
    subst hwritten
    refine { hcontents with rows := ?_, written := hothers (by simp) }
    intro r hr
    rcases hcontents.rows r hr with hfilled | ⟨e, he, hnames⟩
    · exact Or.inl hfilled
    · by_cases hdone : ∃ e' ∈ events, e'.id = e.id
      · obtain ⟨e', he', hid⟩ := hdone
        have heq : e' = e := Outbox.eq_of_id_eq hw.ids (hw.held _ hmem e' he') he hid
        exact Or.inl (hcontents.written events hmem e (heq ▸ he') r hr hnames)
      · refine Or.inr ⟨e, Outbox.mem_delete.mpr ⟨he, ?_⟩, hnames⟩
        exact fun e' he' hid => hdone ⟨e', he', hid⟩
  | crash => exact { hcontents with written := hothers (by simp) }

theorem contents_step {w w' : World} {e : Event} (h : step rt w e = some w') (hw : Coherent w)
    (hcontents : Contents rt w) : Contents rt w' := by
  obtain ⟨clock, action⟩ := e
  cases step_cases h with
  | published hpublished => exact contents_published hpublished hw hcontents
  | started =>
    refine { hcontents with written := ?_ }
    intro events hp
    rcases List.mem_append.mp hp with hp | hp
    · exact hcontents.written events hp
    · exact absurd (List.mem_singleton.mp hp) (by simp)
  | asked ctx versionId => exact { hcontents with }
  | read i call phase hcall hphase => exact { hcontents with }
  | projected i p hp hprojected => exact contents_projected hp hprojected hw hcontents

theorem contents_start {w : World} (h : Start w) : Contents rt w := by
  refine ⟨?_, ?_, ?_, ?_⟩
  · rw [h.rows]
    exact fun r hr => absurd hr List.not_mem_nil
  · rw [h.projectors]
    exact fun events hp => absurd hp List.not_mem_nil
  · rw [h.graph]
    exact fun k props hprops => absurd hprops (by simp [Graph.empty, lookup_nil])
  · rw [h.graph]
    exact fun k props hprops => absurd hprops (by simp [Graph.empty, lookup_nil])

end ContextLedger.GraphContents
